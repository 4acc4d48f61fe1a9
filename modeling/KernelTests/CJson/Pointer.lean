import KernelTests.CJson.Value

/-!
# Pointers into a tree

While a tree stays as it is, every lookup delivers a pointer to a part of it, and the part
stands for what the same lookup on `Json` delivers.  So a program that only looks into a tree
is followed on the value.
-/

namespace KernelTests.CJson

open Memory

variable {A ν α β : Type}

/-! ## Parts of a tree -/

/-- The cells of `c` are among those of `t`. -/
def Item.PartOf (c t : Item A ν) : Prop :=
  ∀ next prev, ∃ n p R, t.cells next prev = c.cells n p + R

theorem Item.PartOf.refl (t : Item A ν) : t.PartOf t :=
  fun next prev ↦ ⟨next, prev, 0, (add_zero _).symm⟩

theorem Item.PartOf.trans {b c t : Item A ν} (h : b.PartOf c) (h' : c.PartOf t) : b.PartOf t := by
  intro next prev
  obtain ⟨n, p, R, hR⟩ := h' next prev
  obtain ⟨n', p', R', hR'⟩ := h n p
  exact ⟨n', p', R' + R, by rw [hR, hR', add_assoc]⟩

theorem Item.PartOf.child {c t : Item A ν} (h : c ∈ t.children) : c.PartOf t :=
  fun next prev ↦ t.cells_child h next prev

/-- A pointer into the tree and the value at the other end, or the null pointer. -/
def Points [CDouble ν] (t : Item A ν) : Option A → Option (Json ν) → Prop
  | none, none => True
  | some a, some v => ∃ c : Item A ν, c.PartOf t ∧ c.addr = a ∧ c.Denotes v
  | _, _ => False

/-- A pointer to a string of the tree, or the null pointer. -/
def PointsText (t : Item A ν) : Option A → Option CString → Prop
  | none, none => True
  | some a, some s => ∃ b : StringBlock A, b.addr = a ∧ b.value = s ∧
      ∀ next prev, (b.addr, Cell.chars b.block) ∈ t.cells next prev
  | _, _ => False

/-- What a program that looks into a tree delivers; the tree stays as it is. -/
def Reads (r : α) (P : Multiset (A × Cell A ν)) (r' : α) (P' : Multiset (A × Cell A ν)) : Prop :=
  r' = r ∧ P' = P

section Lookups

variable [CDouble ν] {t c : Item A ν} {p : Option A} {v : Option (Json ν)}

theorem Points.isNone_eq (h : Points t p v) : p.isNone = v.isNone := by
  cases p <;> cases v <;> first | rfl | cases h

/-- The root. -/
theorem Item.Denotes.points {v : Json ν} (h : t.Denotes v) : Points t (some t.addr) (some v) :=
  ⟨t, .refl t, rfl, h⟩

/-- What the walk along the members of an object finds. -/
theorem points_lookup {cs : List (Item A ν)} {ms : List (CString × Json ν)} (name : CString)
    (h : List.Forall₂ (Item.IsMember NoKey) cs ms) (hcs : ∀ c ∈ cs, c.PartOf t) :
    Points t ((cs.find? (Item.agrees name)).map Item.addr) (Json.lookup name ms) := by
  induction h with
  | nil => trivial
  | @cons c m cs ms hm _ ih =>
      obtain ⟨key, hfields, hvalue⟩ := Option.map_eq_some_iff.mp hm.1
      have hagrees : c.agrees name = Json.sameKey name m.1 := by
        rw [Item.agrees, hfields, ← hvalue]
      cases hkey : Json.sameKey name m.1 with
      | true =>
          rw [List.find?_cons_of_pos (hagrees.trans hkey), Json.lookup,
            List.find?_cons_of_pos (by simpa using hkey)]
          exact ⟨c, hcs c List.mem_cons_self, rfl, hm.2⟩
      | false =>
          rw [List.find?_cons_of_neg (by simp [hagrees, hkey]), Json.lookup,
            List.find?_cons_of_neg (by simp [hkey])]
          exact ih fun c hc ↦ hcs c (List.mem_cons_of_mem _ hc)

theorem key_of_mem {K : Option CString → Prop} {cs : List (Item A ν)} {vs : List (Json ν)}
    (h : List.Forall₂ (Item.IsElement K) cs vs) : ∀ c ∈ cs, K c.key := by
  induction h with
  | nil => simp
  | cons hv _ ih => exact List.forall_mem_cons.mpr ⟨hv.1, ih⟩

/-- What the lookup in a part of the tree finds. -/
theorem Item.Denotes.points_find {v : Json ν} (h : c.Denotes v) (hc : c.PartOf t)
    (name : CString) : Points t ((c.children.find? (Item.agrees name)).map Item.addr)
      (Json.getObjectItem (some v) name) := by
  have hpart : ∀ b ∈ c.children, b.PartOf t := fun b hb ↦ (Item.PartOf.child hb).trans hc
  obtain ⟨a, d, cs⟩ := c
  have hnil : cs = [] → Points t ((cs.find? (Item.agrees name)).map Item.addr) none := by
    rintro rfl
    trivial
  cases v with
  | null => exact hnil h.2.2
  | bool => exact hnil h.2.2
  | number => exact hnil h.2.2.2.2
  | string => exact hnil h.2.2
  | array vs =>
      have hvs := carryItems_iff.mp h.2.2
      have hfind : cs.find? (Item.agrees name) = none := by
        refine List.find?_eq_none.mpr fun b hb ↦ ?_
        have hkey : b.fields.string = none := Option.map_eq_none_iff.mp (key_of_mem hvs b hb)
        simp [Item.agrees, hkey]
      rw [Item.children_mk, hfind]
      trivial
  | object ms => exact points_lookup name (carryMembers_iff.mp h.2.2) hpart

/-- The element at an index. -/
theorem points_getElem {cs : List (Item A ν)} {vs : List (Json ν)}
    (h : List.Forall₂ (Item.IsElement NoKey) cs vs) (hcs : ∀ c ∈ cs, c.PartOf t) (i : ℕ) :
    Points t (cs[i]?.map Item.addr) vs[i]? := by
  induction h generalizing i with
  | nil => trivial
  | @cons c v cs vs hv _ ih =>
      cases i with
      | zero => exact ⟨c, hcs c List.mem_cons_self, rfl, hv.2⟩
      | succ i => exact ih (fun c hc ↦ hcs c (List.mem_cons_of_mem _ hc)) i

/-- The string of a node. -/
theorem Item.Denotes.pointsText {v : Json ν} (h : c.Denotes v) (hc : c.PartOf t)
    (next prev : Option A) : PointsText t (c.node next prev).valuestring v.valuestring := by
  change PointsText t (c.fields.valuestring.map StringBlock.addr) _
  obtain ⟨a, d, cs⟩ := c
  have hnone : d.valuestring = none →
      PointsText t (d.valuestring.map StringBlock.addr) none := by
    intro h
    rw [h]
    trivial
  cases v with
  | null => exact hnone h.2.1
  | bool => exact hnone h.2.1
  | number => exact hnone h.2.1
  | array => exact hnone h.2.1
  | object => exact hnone h.2.1
  | string s =>
      obtain ⟨b, hb, rfl⟩ := Option.map_eq_some_iff.mp h.2.1
      simp only [Item.fields_mk, hb, Option.map_some, Json.valuestring]
      refine ⟨b, rfl, rfl, fun next prev ↦ ?_⟩
      obtain ⟨n, p, R, hR⟩ := hc next prev
      rw [hR]
      exact Multiset.mem_add.mpr (Or.inl (Item.valuestring_mem (t := .mk a d cs) hb n p))

end Lookups

/-! ## Rules -/

section Rules

variable [DecidableEq A] {t c : Item A ν} {p next prev : Option A} {P R : Multiset (A × Cell A ν)}
  {Q : β → Multiset (A × Cell A ν) → Prop}

omit [DecidableEq A] in
/-- A program that only reads a part of the tree. -/
theorem Item.PartOf.spec {f : Action A ν α} {k : α → Action A ν β} {φ : α → Prop}
    (hc : c.PartOf t) (hf : ∀ n p, Spec f (c.cells n p) fun r P ↦ φ r ∧ P = c.cells n p)
    (hP : P = t.cells next prev + R) (hk : ∀ r, φ r → Spec (k r) P Q) : Spec (f >>= k) P Q := by
  obtain ⟨n, p, R', hR⟩ := hc next prev
  rw [hR, add_assoc] at hP
  refine Memory.Spec.call (hf n p) hP ?_
  rintro r _ ⟨hr, rfl⟩
  rw [← hP]
  exact hk r hr

variable [CDouble ν]

theorem Spec.getObjectItem {v : Option (Json ν)} {k : Option A → Action A ν β}
    (h : Points t p v) (name : CString) (hP : P = t.cells next prev + R)
    (hk : ∀ q, Points t q (Json.getObjectItem v name) → Spec (k q) P Q) :
    Spec (CJson.getObjectItem p (some name) >>= k) P Q := by
  match p, v, h with
  | none, none, _ =>
      change Spec (pure none >>= k) P Q
      rw [pure_bind]
      exact hk none trivial
  | some a, some v, h =>
      obtain ⟨c, hc, rfl, hv⟩ := h
      refine hc.spec (getObjectItem_spec c name) hP ?_
      rintro _ rfl
      exact hk _ (hv.points_find hc name)

theorem Spec.getArrayItem {vs : List (Json ν)} {k : Option A → Action A ν β}
    (h : Points t p (some (.array vs))) (i : ℕ) (hP : P = t.cells next prev + R)
    (hk : ∀ q, Points t q vs[i]? → Spec (k q) P Q) :
    Spec (CJson.getArrayItem p i >>= k) P Q := by
  match p, h with
  | some a, h =>
      obtain ⟨c, hc, rfl, hv⟩ := h
      refine hc.spec (getArrayItem_spec c i) hP ?_
      rintro _ rfl
      obtain ⟨a, d, cs⟩ := c
      exact hk _ (points_getElem (carryItems_iff.mp hv.2.2)
        (fun b hb ↦ (Item.PartOf.child hb).trans hc) i)

theorem Spec.getArraySize {vs : List (Json ν)} {k : ℤ → Action A ν β}
    (h : Points t p (some (.array vs))) (hlen : vs.length < 2 ^ 31)
    (hP : P = t.cells next prev + R) (hk : Spec (k vs.length) P Q) :
    Spec (CJson.getArraySize p >>= k) P Q := by
  match p, h with
  | some a, h =>
      obtain ⟨c, hc, rfl, hv⟩ := h
      have hcs : c.children.length = vs.length := by
        obtain ⟨a, d, cs⟩ := c
        exact (carryItems_iff.mp hv.2.2).length_eq
      have hsize := getArraySize_spec c
      have hint : Int.bmod vs.length (2 ^ 32) = vs.length :=
        Int.bmod_eq_of_le (by omega) (by omega)
      rw [hcs, hint] at hsize
      refine hc.spec hsize hP ?_
      rintro _ rfl
      exact hk

theorem Spec.hasKind {v : Option (Json ν)} {k : Bool → Action A ν β} (h : Points t p v)
    (kind : Kind) (hP : P = t.cells next prev + R)
    (hk : Spec (k (decide (v.map kindOf = some kind))) P Q) :
    Spec (CJson.hasKind p kind >>= k) P Q := by
  match p, v, h with
  | none, none, _ =>
      rw [CJson.hasKind, if_pos Option.isNone_none, pure_bind]
      exact hk
  | some a, some v, h =>
      obtain ⟨c, hc, rfl, hv⟩ := h
      refine hc.spec (hasKind_spec c kind) hP ?_
      rintro _ rfl
      rw [Item.Carries.kind hv]
      simpa using hk

theorem Spec.loadValue {v : Json ν} {k : Node A ν → Action A ν β} (h : Points t p (some v))
    (hP : P = t.cells next prev + R)
    (hk : ∀ n, PointsText t n.valuestring v.valuestring → Spec (k n) P Q) :
    Spec (CJson.loadNode p >>= k) P Q := by
  match p, h with
  | some a, h =>
      obtain ⟨c, hc, rfl, hv⟩ := h
      obtain ⟨n, m, R', hR⟩ := hc next prev
      rw [hR, add_assoc] at hP
      exact Spec.loadItem rfl hP (hk _ (hv.pointsText hc n m))

omit [CDouble ν] in
theorem Spec.loadPointed {s : CString} {k : CString → Action A ν β} (h : PointsText t p (some s))
    (hP : P = t.cells next prev + R) (hk : Spec (k s) P Q) :
    Spec (CJson.loadText p >>= k) P Q := by
  match p, h with
  | some a, h =>
      obtain ⟨b, rfl, rfl, hb⟩ := h
      exact Spec.loadText rfl (hP ▸ Multiset.mem_add.mpr (Or.inl (hb next prev))) b.text hk

end Rules

end KernelTests.CJson
