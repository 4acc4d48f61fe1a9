import KernelTests.CJson.Print
import KernelTests.CJson.Read
import Mathlib.Algebra.Order.BigOperators.Group.List
import Mathlib.Algebra.Order.Ring.Nat

/-!
# What is read is no larger than its text

`extent` bounds the length of every string and the number of elements of every array in a
value.  It is at most the length of the text the value was read from, so a text that is
shorter than `2 ^ 31` characters has no array whose size does not fit an `int`.
-/

namespace KernelTests.CJson

open Json

variable {ν α : Type}

mutual

/-- The characters of all strings, and one for every child.  Keys are not counted. -/
def extent : Json ν → ℕ
  | .string s => s.strlen
  | .array vs => extentItems vs
  | .object ms => extentMembers ms
  | _ => 0

/-- The extent of array elements. -/
def extentItems : List (Json ν) → ℕ
  | [] => 0
  | v :: vs => extent v + 1 + extentItems vs

/-- The extent of object members. -/
def extentMembers : List (CString × Json ν) → ℕ
  | [] => 0
  | m :: ms => extent m.2 + 1 + extentMembers ms

end

/-! ## Parts of a value -/

theorem extentItems_eq (vs : List (Json ν)) :
    extentItems vs = (vs.map fun v ↦ extent v + 1).sum := by
  induction vs with
  | nil => rfl
  | cons v vs ih => rw [extentItems, ih, List.map_cons, List.sum_cons]

theorem extentMembers_eq (ms : List (CString × Json ν)) :
    extentMembers ms = (ms.map fun m ↦ extent m.2 + 1).sum := by
  induction ms with
  | nil => rfl
  | cons m ms ih => rw [extentMembers, ih, List.map_cons, List.sum_cons]

theorem length_elements_le (v : Option (Json ν)) :
    (elements v).length ≤ (v.map extent).getD 0 := by
  match v with
  | some (.array vs) =>
      change vs.length ≤ extentItems vs
      simp [extentItems_eq]
  | none | some .null | some (.bool _) | some (.number _) | some (.string _) | some (.object _) =>
      exact Nat.zero_le _

theorem extent_of_mem_elements {u v : Json ν} (h : u ∈ elements (some v)) :
    extent u ≤ extent v := by
  cases v with
  | array vs =>
      change extent u ≤ extentItems vs
      rw [extentItems_eq]
      exact Nat.le_of_succ_le (List.single_le_sum (fun _ _ ↦ Nat.zero_le _) _
        (List.mem_map_of_mem h))
  | _ => cases h

theorem extent_getObjectItem {u v : Json ν} {name : CString}
    (h : getObjectItem (some v) name = some u) : extent u ≤ extent v := by
  cases v with
  | object ms =>
      obtain ⟨k, hk, -⟩ := mem_of_lookup h
      change extent u ≤ extentMembers ms
      rw [extentMembers_eq]
      exact Nat.le_of_succ_le (List.single_le_sum (fun _ _ ↦ Nat.zero_le _) _
        (List.mem_map_of_mem (f := fun m ↦ extent m.2 + 1) hk))
  | _ => cases h

theorem extent_lookup_le (v : Option (Json ν)) (name : CString) :
    ((getObjectItem v name).map extent).getD 0 ≤ (v.map extent).getD 0 := by
  cases v with
  | none => exact Nat.zero_le _
  | some v =>
      cases h : getObjectItem (some v) name with
      | none => exact Nat.zero_le _
      | some u => exact extent_getObjectItem h

/-! ## The parser -/

/-- What a parser delivers is no larger than the text it consumes. -/
def Shrinks (size : α → ℕ) (p : Bytes → Option (α × Bytes)) : Prop :=
  ∀ s x t, p s = some (x, t) → size x + t.length ≤ s.length

theorem parseString_shrinks : Shrinks CString.strlen Json.parseString := by
  intro s k t h
  cases s with
  | nil => cases h
  | cons c s =>
      rw [Json.parseString] at h
      split at h
      · simp only [Option.bind_eq_bind, Option.bind_eq_some_iff] at h
        obtain ⟨⟨raw, rest⟩, hs, out, hout, he⟩ := h
        cases he
        have hraw : out.length ≤ raw.length := (Json.length_unescape_le_tokens hout).trans (Json.tokens_le_length raw)
        have hcut : (CString.ofBytes out).strlen ≤ out.length :=
          (List.takeWhile_sublist _).length_le
        have hsum := congrArg List.length (scanString_eq_append hs)
        simp only [List.length_append, List.length_cons] at hsum ⊢
        omega
      · cases h

theorem readList_shrinks {size : α → ℕ} {p : Bytes → Option (α × Bytes)} (h : Shrinks size p)
    (closing : UInt8) (fuel : ℕ) :
    Shrinks (fun xs ↦ (xs.map (size · + 1)).sum) (readList p closing fuel) := by
  induction fuel with
  | zero => exact fun _ _ _ h ↦ by cases h
  | succ fuel ih =>
      intro s xs t hxs
      simp only [readList, Option.bind_eq_bind, Option.bind_eq_some_iff] at hxs
      obtain ⟨⟨x, u⟩, hx, hxs⟩ := hxs
      have hone := h _ _ _ hx
      have hws := length_skipWs_le u
      simp only at hxs
      cases hu : skipWs u with
      | nil => simp [hu] at hxs
      | cons c u' =>
          rw [hu, List.length_cons] at hws
          simp only [hu] at hxs
          split at hxs
          · obtain ⟨⟨ys, t'⟩, hys, he⟩ := Option.bind_eq_some_iff.mp hxs
            cases he
            have hrest := ih _ _ _ hys
            simp only [List.map_cons, List.sum_cons] at hrest ⊢
            omega
          · split at hxs
            · cases hxs
              simp only [List.map_cons, List.map_nil, List.sum_cons, List.sum_nil]
              omega
            · cases hxs

theorem readMember_shrinks {rv : Parser ν} (h : Shrinks extent rv) :
    Shrinks (fun m ↦ extent m.2) (readMember rv) := by
  intro s m t hm
  simp only [readMember, Option.bind_eq_bind, Option.bind_eq_some_iff] at hm
  obtain ⟨⟨k, u⟩, hk, hm⟩ := hm
  simp only at hm
  split at hm
  · obtain ⟨⟨v, t'⟩, hv, he⟩ := Option.bind_eq_some_iff.mp hm
    cases he
    have h₁ := length_skipWs_le s
    have h₂ := parseString_shrinks _ _ _ hk
    have h₃ := length_skipWs_le u
    have h₄ := length_skipWs_le (skipWs u).tail
    have h₅ := h _ _ _ hv
    rw [List.length_tail] at h₄
    simp only
    omega
  · cases hm

variable [CNumber ν]

theorem valueStep_shrinks {children : Option (Parser ν)}
    (h : ∀ rv, children = some rv → Shrinks extent rv) : Shrinks extent (Json.valueStep children) := by
  have hempty : ∀ s : Bytes, (skipWs s).tail.length ≤ s.length := by
    intro s
    rw [List.length_tail]
    exact (Nat.sub_le _ _).trans (length_skipWs_le s)
  intro s v t hv
  unfold Json.valueStep at hv
  split at hv
  · cases hv
    simp [extent]
  split at hv
  · cases hv
    simp [extent]
  split at hv
  · cases hv
    simp [extent]
  cases s with
  | nil => cases hv
  | cons c s =>
      simp only at hv
      split at hv
      · obtain ⟨⟨k, t'⟩, hk, he⟩ := Option.map_eq_some_iff.mp hv
        cases he
        exact parseString_shrinks _ _ _ hk
      split at hv
      · simp only [Json.parseNumber] at hv
        split at hv
        · cases hv
        · cases hv
          simp [extent]
      split at hv
      · obtain ⟨rv, hrv, hv⟩ := Option.bind_eq_some_iff.mp hv
        simp only [Json.parseArray, parseElements_eq_readList] at hv
        split at hv
        · cases hv
          exact (Nat.zero_add _).le.trans ((hempty s).trans (Nat.le_succ _))
        · obtain ⟨⟨vs, t'⟩, hvs, he⟩ := Option.map_eq_some_iff.mp hv
          cases he
          have hlist := readList_shrinks (p := fun s ↦ rv (skipWs s))
            (fun u w t hw ↦ (h rv hrv _ _ _ hw).trans (length_skipWs_le u)) _ _ _ _ _ hvs
          simp only [← extentItems_eq] at hlist
          exact hlist.trans ((length_skipWs_le s).trans (Nat.le_succ _))
      split at hv
      · obtain ⟨rv, hrv, hv⟩ := Option.bind_eq_some_iff.mp hv
        simp only [Json.parseObject, parseMembers_eq_readList] at hv
        split at hv
        · cases hv
          exact (Nat.zero_add _).le.trans ((hempty s).trans (Nat.le_succ _))
        · obtain ⟨⟨ms, t'⟩, hms, he⟩ := Option.map_eq_some_iff.mp hv
          cases he
          have hlist := readList_shrinks (readMember_shrinks (h rv hrv)) _ _ _ _ _ hms
          simp only [← extentMembers_eq] at hlist
          exact hlist.trans ((length_skipWs_le s).trans (Nat.le_succ _))
      · cases hv

theorem parseValue_shrinks (n : ℕ) : Shrinks extent (Json.parseValue n : Parser ν) := by
  induction n with
  | zero => exact valueStep_shrinks fun _ h ↦ by cases h
  | succ n ih =>
      refine valueStep_shrinks fun rv hrv ↦ ?_
      cases hrv
      exact ih

/-- A value that was parsed is no larger than its text. -/
theorem extent_le_of_parse {s : CString} {v : Json ν} (h : Json.parse s = some v) :
    extent v ≤ s.strlen := by
  obtain ⟨⟨w, t⟩, hw, rfl⟩ := Option.map_eq_some_iff.mp h
  have hbom : (skipBom s.bytes).length ≤ s.bytes.length := by
    unfold skipBom
    split
    · rw [List.length_drop]
      omega
    · exact le_rfl
  have hle := parseValue_shrinks _ _ _ _ hw
  have hws := length_skipWs_le (skipBom s.bytes)
  exact (Nat.le_of_add_right_le hle).trans (hws.trans hbom)

/-! ## The printer -/

mutual

/-- The characters of all strings and keys, and one for every value. -/
def weight : Json ν → ℕ
  | .string s => s.strlen + 1
  | .array vs => weightItems vs + 1
  | .object ms => weightMembers ms + 1
  | _ => 1

/-- The weight of array elements. -/
def weightItems : List (Json ν) → ℕ
  | [] => 0
  | v :: vs => weight v + weightItems vs

/-- The weight of object members. -/
def weightMembers : List (CString × Json ν) → ℕ
  | [] => 0
  | m :: ms => m.1.strlen + weight m.2 + weightMembers ms

end

theorem length_printString_le (s : CString) : (printString s).length ≤ 6 * s.strlen + 2 := by
  have hescape : (escape s.bytes).length ≤ 6 * s.bytes.length := by
    induction s.bytes with
    | nil => rfl
    | cons c s ih =>
        have hc := escapeByte_cost c
        have hcost : escapeCharacters c ≤ 5 := by
          unfold escapeCharacters
          split_ifs <;> omega
        rw [escape, List.flatMap_cons, List.length_append, List.length_cons]
        change (escapeByte c).length + (escape s).length ≤ _
        omega
  rw [printString, List.length_append, List.length_cons, List.length_singleton]
  change (escape s.bytes).length + 1 + 1 ≤ 6 * s.bytes.length + 2
  omega

theorem length_printItems_le {vs : List (Json ν)}
    (h : ∀ v ∈ vs, v.print.length + 4 ≤ 32 * weight v) :
    (printItems vs).length ≤ 32 * weightItems vs := by
  induction vs with
  | nil => exact Nat.zero_le _
  | cons v vs ih =>
      have hv := h v List.mem_cons_self
      have hvs := ih fun u hu ↦ h u (List.mem_cons_of_mem v hu)
      simp only [printItems, weightItems, List.length_cons, List.length_append]
      omega

theorem length_printMembers_le {ms : List (CString × Json ν)}
    (h : ∀ m ∈ ms, m.2.print.length + 4 ≤ 32 * weight m.2) :
    (Json.printMembers ms).length ≤ 32 * weightMembers ms := by
  induction ms with
  | nil => exact Nat.zero_le _
  | cons m ms ih =>
      obtain ⟨k, v⟩ := m
      have hk := length_printString_le k
      have hv : v.print.length + 4 ≤ 32 * weight v := h (k, v) List.mem_cons_self
      have hms := ih fun u hu ↦ h u (List.mem_cons_of_mem (k, v) hu)
      simp only [Json.printMembers, weightMembers, List.length_cons, List.length_append]
      omega

/-- The text of a value is at most some multiple of its weight. -/
theorem length_print_le (v : Json ν) : v.print.length + 4 ≤ 32 * weight v := by
  induction v with
  | null => exact (by decide : (ascii "null").length + 4 ≤ 32 * 1)
  | bool b =>
      cases b with
      | false => exact (by decide : (ascii "false").length + 4 ≤ 32 * 1)
      | true => exact (by decide : (ascii "true").length + 4 ≤ 32 * 1)
  | number x =>
      have hx := length_text_le x
      change (CNumber.text x).length + 4 ≤ 32 * 1
      omega
  | string s =>
      have hs := length_printString_le s
      change (printString s).length + 4 ≤ 32 * (s.strlen + 1)
      omega
  | array vs ih =>
      have hvs := length_printItems_le ih
      cases vs with
      | nil => exact (by decide : 2 + 4 ≤ 32 * 1)
      | cons v vs =>
          simp only [printItems, weightItems, List.length_cons, List.length_append] at hvs
          simp only [Json.print, weight, weightItems, List.length_cons, List.length_append,
            List.length_nil]
          omega
  | object ms ih =>
      have hms := length_printMembers_le ih
      cases ms with
      | nil => exact (by decide : 2 + 4 ≤ 32 * 1)
      | cons m ms =>
          obtain ⟨k, v⟩ := m
          simp only [Json.printMembers, weightMembers, List.length_cons, List.length_append] at hms
          simp only [Json.print, weight, weightMembers, List.length_cons, List.length_append,
            List.length_nil]
          omega

end KernelTests.CJson
