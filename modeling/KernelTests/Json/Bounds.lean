import KernelTests.Json.Escapes
import KernelTests.Json.Truncation

/-!
# What a successful parse is bounded by

Every successful call consumes input, so the fuel of the two loops is never the
reason for a failure; and a parsed value is nested no deeper than the levels that
were left, so whatever has been parsed once can be printed and parsed again.
-/

namespace KernelTests.Json

variable {ν : Type}

/-! ## Consumption -/

theorem length_skipWs_le (s : Bytes) : (skipWs s).length ≤ s.length :=
  (List.dropWhile_sublist _).length_le

theorem parseString_length {s r : Bytes} {k : CString} (h : parseString s = some (k, r)) :
    r.length < s.length := by
  cases s with
  | nil => cases h
  | cons c s =>
      rw [parseString] at h
      split at h
      · simp only [Option.bind_eq_bind, Option.bind_eq_some_iff] at h
        obtain ⟨p, hs, _, _, he⟩ := h
        cases he
        exact Nat.lt_succ_of_lt (scanString_length hs)
      · cases h

/-- A parser that consumes input and yields values of height at most `n`. -/
def Reads (pv : Parser ν) (n : ℕ) : Prop :=
  ∀ (s r : Bytes) (v : Json ν), pv s = some (v, r) → r.length < s.length ∧ v.height ≤ n

theorem parseElements_reads {pv : Parser ν} {n : ℕ} (hpv : Reads pv n) :
    ∀ {fuel : ℕ} {s r : Bytes} {vs : List (Json ν)}, parseElements pv fuel s = some (vs, r) →
      r.length < s.length ∧ heightItems vs ≤ n := by
  intro fuel
  induction fuel with
  | zero => intro s r vs h; cases h
  | succ fuel ih =>
      intro s r vs h
      simp only [parseElements, Option.bind_eq_bind, Option.bind_eq_some_iff] at h
      obtain ⟨⟨v, s'⟩, hv, h⟩ := h
      simp only at h
      have h₁ := length_skipWs_le s
      have h₂ := length_skipWs_le s'
      have hlt := (hpv _ _ _ hv).1
      cases hs : skipWs s' with
      | nil => simp [hs] at h
      | cons c t =>
          rw [hs, List.length_cons] at h₂
          simp only [hs] at h
          split at h
          · obtain ⟨⟨ws, t'⟩, hws, he⟩ := Option.bind_eq_some_iff.mp h
            cases he
            obtain ⟨hl, hh⟩ := ih hws
            exact ⟨show t'.length < s.length by omega, heightItems_cons_le.mpr ⟨(hpv _ _ _ hv).2, hh⟩⟩
          · split at h
            · cases h
              exact ⟨by omega, heightItems_cons_le.mpr ⟨(hpv _ _ _ hv).2, Nat.zero_le n⟩⟩
            · cases h

theorem parseMembers_reads {pv : Parser ν} {n : ℕ} (hpv : Reads pv n) :
    ∀ {fuel : ℕ} {s r : Bytes} {ms : List (CString × Json ν)},
      parseMembers pv fuel s = some (ms, r) → r.length < s.length ∧ heightMembers ms ≤ n := by
  intro fuel
  induction fuel with
  | zero => intro s r ms h; cases h
  | succ fuel ih =>
      intro s r ms h
      simp only [parseMembers, Option.bind_eq_bind, Option.bind_eq_some_iff] at h
      obtain ⟨⟨k, s₁⟩, hk, h⟩ := h
      simp only at h
      split at h
      · obtain ⟨⟨v, s'⟩, hv, h⟩ := Option.bind_eq_some_iff.mp h
        simp only at h
        have h₁ := length_skipWs_le s
        have h₂ := length_skipWs_le s₁
        have h₃ := length_skipWs_le (skipWs s₁).tail
        have h₄ := length_skipWs_le s'
        have hkl := parseString_length hk
        have hlt := (hpv _ _ _ hv).1
        rw [List.length_tail] at h₃
        cases hs : skipWs s' with
        | nil => simp [hs] at h
        | cons c t =>
            rw [hs, List.length_cons] at h₄
            simp only [hs] at h
            split at h
            · obtain ⟨⟨ms', t'⟩, hms, he⟩ := Option.bind_eq_some_iff.mp h
              cases he
              obtain ⟨hl, hh⟩ := ih hms
              exact ⟨show t'.length < s.length by omega, heightMembers_cons_le.mpr ⟨(hpv _ _ _ hv).2, hh⟩⟩
            · split at h
              · cases h
                exact ⟨by omega, heightMembers_cons_le.mpr ⟨(hpv _ _ _ hv).2, Nat.zero_le n⟩⟩
              · cases h
      · cases h

theorem parseArray_reads {pv : Parser ν} {n : ℕ} (hpv : Reads pv n) {s r : Bytes} {v : Json ν}
    (h : parseArray pv s = some (v, r)) : r.length ≤ s.length ∧ v.height ≤ n + 1 := by
  have hw := length_skipWs_le s
  simp only [parseArray] at h
  split at h
  · cases h
    rw [List.length_tail]
    exact ⟨by omega, Nat.succ_le_succ (Nat.zero_le n)⟩
  · obtain ⟨⟨vs, r'⟩, hvs, he⟩ := Option.map_eq_some_iff.mp h
    cases he
    obtain ⟨hl, hh⟩ := parseElements_reads hpv hvs
    exact ⟨show r'.length ≤ s.length by omega, Nat.succ_le_succ hh⟩

theorem parseObject_reads {pv : Parser ν} {n : ℕ} (hpv : Reads pv n) {s r : Bytes} {v : Json ν}
    (h : parseObject pv s = some (v, r)) : r.length ≤ s.length ∧ v.height ≤ n + 1 := by
  have hw := length_skipWs_le s
  simp only [parseObject] at h
  split at h
  · cases h
    rw [List.length_tail]
    exact ⟨by omega, Nat.succ_le_succ (Nat.zero_le n)⟩
  · obtain ⟨⟨ms, r'⟩, hms, he⟩ := Option.map_eq_some_iff.mp h
    cases he
    obtain ⟨hl, hh⟩ := parseMembers_reads hpv hms
    exact ⟨show r'.length ≤ s.length by omega, Nat.succ_le_succ hh⟩

variable [CNumber ν]

/-- Constants, strings and numbers are consumed and have no height. -/
theorem valueStep_reads {children : Option (Parser ν)} {n : ℕ}
    (harr : ∀ {t r : Bytes} {v : Json ν}, children.bind (parseArray · t) = some (v, r) →
      r.length ≤ t.length ∧ v.height ≤ n)
    (hobj : ∀ {t r : Bytes} {v : Json ν}, children.bind (parseObject · t) = some (v, r) →
      r.length ≤ t.length ∧ v.height ≤ n) : Reads (valueStep children) n := by
  intro s r v h
  unfold valueStep at h
  split at h
  · next hp =>
      cases h
      have hl : 4 ≤ s.length := hp.length_le
      exact ⟨by rw [List.length_drop]; omega, Nat.zero_le n⟩
  split at h
  · next hp =>
      cases h
      have hl : 5 ≤ s.length := hp.length_le
      exact ⟨by rw [List.length_drop]; omega, Nat.zero_le n⟩
  split at h
  · next hp =>
      cases h
      have hl : 4 ≤ s.length := hp.length_le
      exact ⟨by rw [List.length_drop]; omega, Nat.zero_le n⟩
  cases s with
  | nil => cases h
  | cons c t =>
      simp only at h
      split at h
      · obtain ⟨p, hk, he⟩ := Option.map_eq_some_iff.mp h
        cases he
        exact ⟨parseString_length hk, Nat.zero_le n⟩
      split at h
      · simp only [parseNumber] at h
        split at h
        · cases h
        · cases h
          refine ⟨?_, Nat.zero_le n⟩
          simp only [List.length_drop, List.length_cons]
          omega
      split at h
      · obtain ⟨hl, hh⟩ := harr h
        exact ⟨Nat.lt_succ_of_le hl, hh⟩
      split at h
      · obtain ⟨hl, hh⟩ := hobj h
        exact ⟨Nat.lt_succ_of_le hl, hh⟩
      · cases h

/-- With `n` levels left, a parsed value has height at most `n`. -/
theorem parseValue_reads (n : ℕ) : Reads (parseValue n : Parser ν) n := by
  induction n with
  | zero => exact valueStep_reads (by simp) (by simp)
  | succ n ih => exact valueStep_reads (parseArray_reads ih) (parseObject_reads ih)

theorem height_le_of_parse {s : CString} {v : Json ν} (h : parse s = some v) :
    v.height ≤ nestingLimit := by
  obtain ⟨⟨w, r⟩, hw, rfl⟩ := Option.map_eq_some_iff.mp h
  exact (parseValue_reads nestingLimit _ _ _ hw).2

/-! ## Fuel -/

/-- The loop of `parse_array` never runs out of fuel that exceeds the text. -/
theorem parseElements_fuel {n : ℕ} (fuel fuel' : ℕ) (s : Bytes) (h : s.length < fuel)
    (h' : s.length < fuel') :
    parseElements (parseValue n : Parser ν) fuel s = parseElements (parseValue n) fuel' s := by
  induction fuel generalizing fuel' s with
  | zero => cases h
  | succ fuel ih =>
      obtain ⟨fuel', rfl⟩ := Nat.exists_eq_succ_of_ne_zero (Nat.ne_of_gt (Nat.zero_lt_of_lt h'))
      rw [parseElements, parseElements]
      refine Option.bind_congr ?_
      rintro ⟨v, s'⟩ hp
      have h₁ := length_skipWs_le s
      have h₂ := length_skipWs_le s'
      have hlt := (parseValue_reads n _ _ _ hp).1
      cases hs : skipWs s' with
      | nil => simp only [hs]
      | cons c t =>
          rw [hs, List.length_cons] at h₂
          simp only [hs, ih fuel' t (by omega) (by omega)]

/-- The loop of `parse_object` never runs out of fuel that exceeds the text. -/
theorem parseMembers_fuel {n : ℕ} (fuel fuel' : ℕ) (s : Bytes) (h : s.length < fuel)
    (h' : s.length < fuel') :
    parseMembers (parseValue n : Parser ν) fuel s = parseMembers (parseValue n) fuel' s := by
  induction fuel generalizing fuel' s with
  | zero => cases h
  | succ fuel ih =>
      obtain ⟨fuel', rfl⟩ := Nat.exists_eq_succ_of_ne_zero (Nat.ne_of_gt (Nat.zero_lt_of_lt h'))
      rw [parseMembers, parseMembers]
      refine Option.bind_congr ?_
      rintro ⟨k, s₁⟩ hk
      have hkl := parseString_length hk
      simp only
      split
      · refine Option.bind_congr ?_
        rintro ⟨v, s'⟩ hv
        have h₁ := length_skipWs_le s
        have h₂ := length_skipWs_le s₁
        have h₃ := length_skipWs_le (skipWs s₁).tail
        have h₄ := length_skipWs_le s'
        have hlt := (parseValue_reads n _ _ _ hv).1
        rw [List.length_tail] at h₃
        cases hs : skipWs s' with
        | nil => rfl
        | cons c t =>
            rw [hs, List.length_cons] at h₄
            simp only [ih fuel' t (by omega) (by omega)]
      · rfl

end KernelTests.Json
