import KernelTests.Json.RoundTrip

/-!
# Truncated texts

A text that was cut off is never mistaken for a shorter complete one: no proper
prefix of a printed object parses.  The argument is locality.  When a parser
function succeeds it has seen the end of what it read, so the same text with more
behind it gives the same result (`Local`); a cut text that parsed would therefore
make the whole text parse with something left over, which the round trip excludes.

A number is the one value whose end is not marked by a character of its own, so
locality asks for a character behind it that `parse_number` does not copy.
-/

namespace KernelTests.Json

variable {ν : Type} [CNumber ν]

/-! ## Strings and whitespace -/

theorem scanString_append {s raw r : Bytes} (h : scanString s = some (raw, r)) (q : Bytes) :
    scanString (s ++ q) = some (raw, r ++ q) := by
  induction s using scanString.induct generalizing raw with
  | case1 => simp at h
  | case2 s =>
      rw [scanString_quote, Option.some.injEq, Prod.mk.injEq] at h
      obtain ⟨rfl, rfl⟩ := h
      exact scanString_quote _
  | case3 _ => simp [scanString] at h
  | case4 _ d s ih =>
      rw [scanString_backslash, Option.map_eq_some_iff] at h
      obtain ⟨⟨raw', r'⟩, hs, he⟩ := h
      rw [Prod.mk.injEq] at he
      obtain ⟨rfl, rfl⟩ := he
      rw [List.cons_append, List.cons_append, scanString_backslash, ih hs]
      rfl
  | case5 c s h₁ h₂ ih =>
      rw [scanString_plain h₁ h₂, Option.map_eq_some_iff] at h
      obtain ⟨⟨raw', r'⟩, hs, he⟩ := h
      rw [Prod.mk.injEq] at he
      obtain ⟨rfl, rfl⟩ := he
      rw [List.cons_append, scanString_plain h₁ h₂, ih hs]
      rfl

theorem parseString_append {s r : Bytes} {k : CString} (h : parseString s = some (k, r))
    (q : Bytes) : parseString (s ++ q) = some (k, r ++ q) := by
  cases s with
  | nil => simp [parseString] at h
  | cons c s =>
      rw [parseString] at h
      split at h
      · next hc =>
          simp only [Option.bind_eq_bind, Option.bind_eq_some_iff] at h
          obtain ⟨⟨raw, rest⟩, hs, output, ho, he⟩ := h
          cases he
          rw [List.cons_append, parseString, if_pos hc, scanString_append hs]
          simp [ho]
      · simp at h

theorem skipWs_append {s t : Bytes} {c : UInt8} (h : skipWs s = c :: t) (q : Bytes) :
    skipWs (s ++ q) = c :: (t ++ q) := by
  induction s with
  | nil => simp [skipWs] at h
  | cons d s ih =>
      rw [skipWs, List.dropWhile_cons] at h
      rw [skipWs, List.cons_append, List.dropWhile_cons]
      split at h
      · next hd =>
          rw [if_pos hd]
          exact ih h
      · next hd =>
          cases h
          rw [if_neg hd]

/-! ## Numbers -/

theorem signEnd_le (t : Bytes) : signEnd t ≤ t.length := by
  cases t with
  | nil => decide
  | cons c t =>
      rw [signEnd]
      split <;> simp

theorem digitsEnd_le (t : Bytes) : digitsEnd t ≤ t.length :=
  (List.takeWhile_sublist _).length_le

theorem fractionEnd_le (t : Bytes) : fractionEnd t ≤ t.length := by
  have h := digitsEnd_le (t.drop 1)
  rw [List.length_drop] at h
  cases t with
  | nil => decide
  | cons c t =>
      rw [fractionEnd]
      simp only [List.length_cons] at h ⊢
      split <;> omega

theorem exponentEnd_le (t : Bytes) : exponentEnd t ≤ t.length := by
  have h₁ := signEnd_le (t.drop 1)
  have h₂ := digitsEnd_le (t.drop (1 + signEnd (t.drop 1)))
  rw [List.length_drop] at h₁ h₂
  cases t with
  | nil => decide
  | cons c t =>
      rw [exponentEnd]
      simp only [List.length_cons] at h₁ h₂ ⊢
      split
      · split <;> omega
      · omega

/-- `strtod` never reads behind the end of its argument. -/
theorem strtodEnd_le (t : Bytes) : strtodEnd t ≤ t.length := by
  have h₁ := signEnd_le t
  have h₂ := digitsEnd_le (t.drop (signEnd t))
  have h₃ := fractionEnd_le (t.drop (signEnd t + digitsEnd (t.drop (signEnd t))))
  have h₄ := exponentEnd_le (t.drop (signEnd t + digitsEnd (t.drop (signEnd t)) +
    fractionEnd (t.drop (signEnd t + digitsEnd (t.drop (signEnd t))))))
  rw [List.length_drop] at h₂ h₃ h₄
  simp only [strtodEnd]
  split <;> omega

/-- The text goes on with a character that ends a number. -/
def EndsNumber (r : Bytes) : Prop := ∃ c t, r = c :: t ∧ numberChar c = false

theorem parseNumber_append {s r : Bytes} {v : Json ν} (h : parseNumber s = some (v, r))
    (hr : EndsNumber r) (q : Bytes) : parseNumber (s ++ q) = some (v, r ++ q) := by
  obtain ⟨c, u, rfl, hc⟩ := hr
  simp only [parseNumber] at h
  generalize ht : (s.take 63).takeWhile numberChar = t at h
  split at h
  · simp at h
  · next hn =>
      rw [Option.some.injEq, Prod.mk.injEq] at h
      obtain ⟨rfl, hdrop⟩ := h
      have hpre : t <+: s := ht ▸ (List.takeWhile_prefix _).trans (List.take_prefix _ _)
      have hchars : ∀ d ∈ t, numberChar d := fun d hd ↦ by
        rw [← ht] at hd
        exact List.mem_takeWhile_imp hd
      have hlen : t.length ≤ 63 := by
        rw [← ht]
        exact (List.takeWhile_sublist _).length_le.trans (List.length_take_le _ _)
      -- what `strtod` leaves of `t` would be number characters, but `c` is none
      have hall : strtodEnd t = t.length := by
        obtain ⟨w, rfl⟩ := hpre
        rcases Nat.lt_or_ge (strtodEnd t) t.length with hlt | hge
        · rw [List.drop_append_of_le_length hlt.le, List.drop_eq_getElem_cons hlt] at hdrop
          have hmem := hchars _ (List.getElem_mem hlt)
          rw [List.cons_append, List.cons.injEq] at hdrop
          rw [hdrop.1, hc] at hmem
          exact absurd hmem (by decide)
        · exact Nat.le_antisymm (strtodEnd_le t) hge
      have hs : s = t ++ c :: u := by
        obtain ⟨w, rfl⟩ := hpre
        rw [hall, List.drop_left] at hdrop
        rw [hdrop]
      have htake : ((s ++ q).take 63).takeWhile numberChar = t := by
        rw [hs, List.append_assoc]
        exact takeWhile_numberChar_append hchars hlen (stopsNumber_cons hc)
      simp only [parseNumber, htake, if_neg hn]
      rw [hs, hall, List.append_assoc, List.drop_left]

/-! ## Values -/

/-- Success on a text carries over to every longer text. -/
structure Local (pv : Parser ν) : Prop where
  nil : pv [] = none
  append : ∀ {s r : Bytes} {v : Json ν}, pv s = some (v, r) →
    (∀ d, v = .number d → EndsNumber r) → ∀ q, pv (s ++ q) = some (v, r ++ q)

/-- In front of a delimiter, whitespace included, a number has ended. -/
theorem endsNumber_of_skipWs {s t : Bytes} {c : UInt8} (h : skipWs s = c :: t)
    (hc : numberChar c = false) : EndsNumber s := by
  cases s with
  | nil => simp [skipWs] at h
  | cons d s =>
      rw [skipWs, List.dropWhile_cons] at h
      split at h
      · next hd =>
          refine ⟨d, s, rfl, ?_⟩
          have hle : d ≤ 32 := by simpa using hd
          simp only [numberChar, isDigit, Bool.or_eq_false_iff, decide_eq_false_iff_not]
          grind
      · cases h
        exact ⟨c, t, rfl, hc⟩

omit [CNumber ν] in
/-- The value and the separator behind it survive an extension of the text. -/
theorem Local.step {pv : Parser ν} (hpv : Local pv) {s s' t : Bytes} {v : Json ν} {c : UInt8}
    (hv : pv (skipWs s) = some (v, s')) (hs : skipWs s' = c :: t) (hc : numberChar c = false)
    (q : Bytes) : pv (skipWs (s ++ q)) = some (v, s' ++ q) ∧ skipWs (s' ++ q) = c :: (t ++ q) := by
  refine ⟨?_, skipWs_append hs q⟩
  cases hw : skipWs s with
  | nil => rw [hw, hpv.nil] at hv; cases hv
  | cons d u =>
      rw [skipWs_append hw, ← List.cons_append, ← hw]
      exact hpv.append hv (fun _ _ ↦ endsNumber_of_skipWs hs hc) q

omit [CNumber ν] in
theorem parseElements_append {pv : Parser ν} (hpv : Local pv) (q : Bytes) :
    ∀ {fuel fuel' : ℕ} {s r : Bytes} {vs : List (Json ν)}, fuel ≤ fuel' →
      parseElements pv fuel s = some (vs, r) →
      parseElements pv fuel' (s ++ q) = some (vs, r ++ q) := by
  intro fuel
  induction fuel with
  | zero => intro fuel' s r vs _ h; simp [parseElements] at h
  | succ fuel ih =>
      intro fuel' s r vs hle h
      obtain ⟨fuel', rfl⟩ := Nat.exists_eq_succ_of_ne_zero (Nat.ne_of_gt (Nat.zero_lt_of_lt hle))
      simp only [parseElements, Option.bind_eq_bind, Option.bind_eq_some_iff] at h
      obtain ⟨⟨v, s'⟩, hv, h⟩ := h
      cases hs : skipWs s' with
      | nil => simp [hs] at h
      | cons c t =>
          simp only [hs] at h
          split at h
          · next hc =>
              subst hc
              obtain ⟨⟨ws, t'⟩, hws, he⟩ := Option.bind_eq_some_iff.mp h
              cases he
              obtain ⟨h₁, h₂⟩ := hpv.step hv hs (by decide) q
              simp [parseElements, h₁, h₂, ih (Nat.le_of_succ_le_succ hle) hws]
          · split at h
            · next hc =>
                subst hc
                cases h
                obtain ⟨h₁, h₂⟩ := hpv.step hv hs (by decide) q
                simp [parseElements, h₁, h₂]
            · cases h

omit [CNumber ν] in
theorem parseMembers_append {pv : Parser ν} (hpv : Local pv) (q : Bytes) :
    ∀ {fuel fuel' : ℕ} {s r : Bytes} {ms : List (CString × Json ν)}, fuel ≤ fuel' →
      parseMembers pv fuel s = some (ms, r) →
      parseMembers pv fuel' (s ++ q) = some (ms, r ++ q) := by
  intro fuel
  induction fuel with
  | zero => intro fuel' s r ms _ h; simp [parseMembers] at h
  | succ fuel ih =>
      intro fuel' s r ms hle h
      obtain ⟨fuel', rfl⟩ := Nat.exists_eq_succ_of_ne_zero (Nat.ne_of_gt (Nat.zero_lt_of_lt hle))
      simp only [parseMembers, Option.bind_eq_bind, Option.bind_eq_some_iff] at h
      obtain ⟨⟨k, s₁⟩, hk, h⟩ := h
      split at h
      · next hcolon =>
          obtain ⟨⟨v, s'⟩, hv, h⟩ := Option.bind_eq_some_iff.mp h
          obtain ⟨u, hu⟩ : ∃ u, skipWs s₁ = 58 :: u := by
            cases hs : skipWs s₁ with
            | nil => simp [hs] at hcolon
            | cons d u => exact ⟨u, by simpa [hs] using hcolon⟩
          have hk' : parseString (skipWs (s ++ q)) = some (k, s₁ ++ q) := by
            cases hw : skipWs s with
            | nil => rw [hw] at hk; cases hk
            | cons d w => rw [skipWs_append hw, ← List.cons_append, ← hw, parseString_append hk]
          rw [hu, List.tail_cons] at hv
          cases hs : skipWs s' with
          | nil => simp [hs] at h
          | cons c t =>
              simp only [hs] at h
              split at h
              · next hc =>
                  subst hc
                  obtain ⟨⟨ms', t'⟩, hms, he⟩ := Option.bind_eq_some_iff.mp h
                  cases he
                  obtain ⟨h₁, h₂⟩ := hpv.step hv hs (by decide) q
                  simp [parseMembers, hk', skipWs_append hu, h₁, h₂,
                    ih (Nat.le_of_succ_le_succ hle) hms]
              · split at h
                · next hc =>
                    subst hc
                    cases h
                    obtain ⟨h₁, h₂⟩ := hpv.step hv hs (by decide) q
                    simp [parseMembers, hk', skipWs_append hu, h₁, h₂]
                · cases h
      · cases h

omit [CNumber ν] in
theorem parseArray_append {pv : Parser ν} (hpv : Local pv) {s r : Bytes} {v : Json ν}
    (h : parseArray pv s = some (v, r)) (q : Bytes) :
    parseArray pv (s ++ q) = some (v, r ++ q) := by
  simp only [parseArray] at h ⊢
  cases hs : skipWs s with
  | nil => simp [hs, parseElements, hpv.nil] at h
  | cons c t =>
      rw [hs] at h
      rw [skipWs_append hs]
      simp only [List.head?_cons, List.tail_cons, Option.some.injEq] at h ⊢
      split at h
      · next hc =>
          cases h
          rw [if_pos hc]
      · next hc =>
          obtain ⟨⟨vs, r'⟩, hvs, he⟩ := Option.map_eq_some_iff.mp h
          cases he
          have hle : (c :: t).length + 1 ≤ (c :: t ++ q).length + 1 := by simp
          rw [if_neg hc, ← List.cons_append, parseElements_append hpv q hle hvs]
          rfl

omit [CNumber ν] in
theorem parseObject_append {pv : Parser ν} (hpv : Local pv) {s r : Bytes} {v : Json ν}
    (h : parseObject pv s = some (v, r)) (q : Bytes) :
    parseObject pv (s ++ q) = some (v, r ++ q) := by
  simp only [parseObject] at h ⊢
  cases hs : skipWs s with
  | nil => simp [hs, parseMembers, parseString] at h
  | cons c t =>
      rw [hs] at h
      rw [skipWs_append hs]
      simp only [List.head?_cons, List.tail_cons, Option.some.injEq] at h ⊢
      split at h
      · next hc =>
          cases h
          rw [if_pos hc]
      · next hc =>
          obtain ⟨⟨ms, r'⟩, hms, he⟩ := Option.map_eq_some_iff.mp h
          cases he
          have hle : (c :: t).length + 1 ≤ (c :: t ++ q).length + 1 := by simp
          rw [if_neg hc, ← List.cons_append, parseMembers_append hpv q hle hms]
          rfl

/-- A constant at the front of a text is still there when the text goes on. -/
theorem valueStep_constant {children : Option (Parser ν)} {w s r q : Bytes} {u v : Json ν}
    (hstep : ∀ t, valueStep children (w ++ t) = some (u, t)) (hw : w <+: s)
    (h : valueStep children s = some (v, r)) :
    valueStep children (s ++ q) = some (v, r ++ q) := by
  obtain ⟨t, rfl⟩ := hw
  rw [hstep] at h
  cases h
  rw [List.append_assoc, hstep]

theorem local_valueStep {children : Option (Parser ν)} (h : ∀ pv ∈ children, Local pv) :
    Local (valueStep children) where
  nil := by simp [valueStep, ascii]
  append := by
    intro s r v hv hend q
    by_cases h₁ : ascii "null" <+: s
    · exact valueStep_constant (valueStep_null children) h₁ hv
    by_cases h₂ : ascii "false" <+: s
    · exact valueStep_constant (valueStep_false children) h₂ hv
    by_cases h₃ : ascii "true" <+: s
    · exact valueStep_constant (valueStep_true children) h₃ hv
    unfold valueStep at hv
    rw [if_neg h₁, if_neg h₂, if_neg h₃] at hv
    cases s with
    | nil => cases hv
    | cons c t =>
        have hstep : ∀ (_ : c ≠ 110 ∧ c ≠ 102 ∧ c ≠ 116), valueStep children (c :: t ++ q) = _ :=
          fun hc ↦ valueStep_cons hc.1 hc.2.1 hc.2.2 (t ++ q)
        simp only at hv
        split at hv
        · next hc =>
            obtain ⟨⟨k, r'⟩, hk, he⟩ := Option.map_eq_some_iff.mp hv
            cases he
            rw [hstep (by grind), if_pos hc, ← List.cons_append, parseString_append hk]
            rfl
        split at hv
        · next h34 hc =>
            obtain ⟨d, rfl⟩ : ∃ d, v = .number d := by
              simp only [parseNumber] at hv
              split at hv
              · cases hv
              · cases hv
                exact ⟨_, rfl⟩
            have hb := head_bounds hc
            rw [hstep (by grind), if_neg h34, if_pos hc, ← List.cons_append,
              parseNumber_append hv (hend d rfl)]
        split at hv
        · next h34 hd hc =>
            obtain ⟨pv, hpv, hv⟩ := Option.bind_eq_some_iff.mp hv
            rw [hstep (by grind), if_neg h34, if_neg hd, if_pos hc, hpv, Option.bind_some,
              parseArray_append (h pv hpv) hv]
        split at hv
        · next h34 hd h91 hc =>
            obtain ⟨pv, hpv, hv⟩ := Option.bind_eq_some_iff.mp hv
            rw [hstep (by grind), if_neg h34, if_neg hd, if_neg h91, if_pos hc, hpv,
              Option.bind_some, parseObject_append (h pv hpv) hv]
        · cases hv

theorem local_parseValue (n : ℕ) : Local (parseValue n : Parser ν) := by
  induction n with
  | zero => exact local_valueStep (by simp)
  | succ n ih => exact local_valueStep (by simpa using ih)

/-! ## Cut texts -/

/-- What is read behind an opening brace is an object. -/
theorem parseValue_brace {n : ℕ} {t r : Bytes} {v : Json ν}
    (h : parseValue n (123 :: t) = some (v, r)) : ∃ members, v = .object members := by
  cases n with
  | zero => simp [parseValue, valueStep_object] at h
  | succ n =>
      simp only [parseValue, valueStep_object, Option.bind_some, parseObject] at h
      split at h
      · cases h
        exact ⟨_, rfl⟩
      · obtain ⟨_, _, he⟩ := Option.map_eq_some_iff.mp h
        cases he
        exact ⟨_, rfl⟩

theorem print_object_head (members : List (CString × Json ν)) :
    ∃ t, (object members).print = 123 :: t := by
  cases members with
  | nil => exact ⟨[125], by rw [print]⟩
  | cons m ms => exact ⟨_, by rw [print]⟩

/-- No proper prefix of a printed object is accepted. -/
theorem parse_truncated {members : List (CString × Json ν)} {p q : Bytes}
    (h : p ++ q = (object members).print) (hq : q ≠ []) :
    parse (.ofBytes p) = (none : Option (Json ν)) := by
  have hnul : 0 ∉ p := fun h0 ↦
    zero_notMem_print (object members) (h ▸ List.mem_append_left q h0)
  rw [parse, CString.bytes_ofBytes hnul, Option.map_eq_none_iff]
  cases p with
  | nil => exact (local_parseValue nestingLimit).nil
  | cons c t =>
      obtain ⟨u, hu⟩ := print_object_head members
      have hc : c = 123 := by
        rw [hu, List.cons_append] at h
        exact (List.cons.inj h).1
      subst hc
      rw [skipWs_skipBom_cons (by decide)]
      rcases hv : parseValue nestingLimit (123 :: t) with _ | ⟨v, r⟩
      · rfl
      · -- a cut text that parses makes the whole text parse with `r ++ q` left over
        obtain ⟨ms, rfl⟩ := parseValue_brace hv
        have hlong := (local_parseValue nestingLimit).append hv (by simp) q
        have hwhole := parseValue_print (object members) nestingLimit [] stopsNumber_nil
        rw [List.append_nil, ← h, hlong] at hwhole
        split at hwhole
        · simp only [Option.some.injEq, Prod.mk.injEq, List.append_eq_nil_iff] at hwhole
          exact absurd hwhole.2.2 hq
        · cases hwhole

end KernelTests.Json
