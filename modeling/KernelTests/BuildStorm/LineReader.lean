import KernelTests.BuildStorm.Newlines

/-!
# The compile record of a line

What a person finds who reads a line from the left: the marker, white space, and
`key=value` tokens between blanks and tabs.  The reader is written down without the
pattern of the judge, and agrees with it on every text that is searched alone.
-/

namespace KernelTests.BuildStorm

open Python Regex

/-! ## The reader -/

/-- A `key=value` token: it has an equals sign with something on either side. -/
def isAssignment (token : Str) : Bool := '=' ∈ token.tail.dropLast

/-- The `key=value` tokens at the start of a text, between blanks and tabs. -/
def assignments (s : Str) : List Str :=
  (split (s.takeWhile fun c ↦ isToken c || isBlank c)).takeWhile isAssignment

/-- What stands behind them. -/
def behind : List Str → Str → Str
  | [], s => s
  | token :: tokens, s => behind tokens ((s.drop token.length).dropWhile isBlank)

/-- The dictionary of tokens: each is a key up to its first equals sign and a value behind that,
and the last value of a key counts. -/
def dictionary (tokens : List Str) : Fields :=
  (tokens.map fun token ↦ (token.takeWhile (· ≠ '='), (token.dropWhile (· ≠ '=')).tail)).reverse

/-- The record at the start of a text, with what stands behind it. -/
def record? (s : Str) : Option (Fields × Str) :=
  let t := s.drop compileWord.length
  let body := t.dropWhile isSpace
  if compileWord <+: s ∧ t.head?.any isSpace ∧ assignments body ≠ [] then
    some (dictionary (assignments body), behind (assignments body) body)
  else none

/-- The records of a line from the left, where the first `n` characters are read already. -/
def records : ℕ → Str → List Fields
  | _, [] => []
  | n + 1, _ :: s => records n s
  | 0, c :: s =>
    match record? (c :: s) with
    | some (fields, rest) => fields :: records (s.length - rest.length) s
    | none => records 0 s

/-- The dictionary of a line: that of its last record. -/
def lineFields (line : Str) : Option Fields := (records 0 line).getLast?

/-- The dictionary of the last line that has one. -/
def lineWise (out : Str) : Option Fields := ((out.splitOn '\n').filterMap lineFields).getLast?

/-- The marker is in the line, and behind it white space and a `key=value` token. -/
def HasRecord (line : Str) : Prop :=
  ∃ a u key value rest, line = a ++ (compileWord ++ (u ++ (key ++ '=' :: (value ++ rest)))) ∧
    u ≠ [] ∧ (∀ c ∈ u, isSpace c) ∧ key ≠ [] ∧ value ≠ [] ∧
    ∀ c ∈ key ++ value, ¬ isSpace c

/-! ## The tokens -/

theorem isAssignment_iff {token : Str} : isAssignment token ↔ Separated '=' token := by
  rw [isAssignment, decide_eq_true_eq, Separated]

theorem assignments_of_head {s : Str} (h : ∀ c ∈ s.head?, ¬ isToken c ∧ ¬ isBlank c) :
    assignments s = [] := by
  have hstretch : (s.takeWhile fun c ↦ isToken c || isBlank c) = [] := by
    cases s with
    | nil => rfl
    | cons c s => exact List.takeWhile_cons_of_neg (by simpa using h c rfl)
  rw [assignments, hstretch]
  rfl

/-- The first word of a text. -/
theorem assignments_append {w r : Str} (hne : w ≠ []) (hw : ∀ c ∈ w, isToken c)
    (hr : ∀ c ∈ r.head?, ¬ isToken c) :
    assignments (w ++ r) =
      if isAssignment w then w :: assignments (r.dropWhile isBlank) else [] := by
  have hstretch : (w ++ r).takeWhile (fun c ↦ isToken c || isBlank c) =
      w ++ r.takeWhile fun c ↦ isToken c || isBlank c :=
    List.takeWhile_append_of_pos fun c hc ↦ by simp [hw c hc]
  have hsplit : split (w ++ r.takeWhile fun c ↦ isToken c || isBlank c) =
      w :: split ((r.dropWhile isBlank).takeWhile fun c ↦ isToken c || isBlank c) := by
    have hblank : ∀ c ∈ r.takeWhile isBlank, isBlank c := fun c hc ↦ List.mem_takeWhile_imp hc
    conv_lhs => rw [← List.takeWhile_append_dropWhile (p := isBlank) (l := r)]
    rw [List.takeWhile_append_of_pos fun c hc ↦ by simp [hblank c hc], split, splitFrom_append hw,
      List.nil_append]
    by_cases hnone : r.takeWhile isBlank = []
    · -- neither a blank nor a word goes on
      have hdrop := List.takeWhile_append_dropWhile (p := isBlank) (l := r)
      rw [hnone, List.nil_append] at hdrop
      have hstop : (r.takeWhile fun c ↦ isToken c || isBlank c) = [] := by
        cases r with
        | nil => rfl
        | cons c r =>
            have hc : ¬ isBlank c := fun h ↦ by
              rw [List.takeWhile_cons_of_pos h] at hnone
              cases hnone
            exact List.takeWhile_cons_of_neg (by simpa using ⟨by simpa using hr c rfl, by simpa using hc⟩)
      rw [hnone, hdrop, hstop, List.nil_append, splitFrom, if_neg hne]
      rfl
    · exact splitFrom_space hne (fun c hc ↦ isSpace_of_isBlank (hblank c hc)) hnone _
  rw [assignments, hstretch, hsplit, List.takeWhile_cons, assignments]

/-- They are the words that the judge takes. -/
theorem assignments_eq {s : Str} (h : ∀ c ∈ s.head?, ¬ isBlank c) :
    assignments s = (wordsOf s).map Prod.fst := by
  induction s using fields.induct isToken isBlank '=' with
  | case1 s hsep ih =>
      have hne : s.takeWhile isToken ≠ [] := fun he ↦ by rw [he] at hsep; cases hsep
      have hwords := assignments_append hne (fun c hc ↦ List.mem_takeWhile_imp hc)
        (not_of_mem_head?_dropWhile isToken s)
      rw [List.takeWhile_append_dropWhile, if_pos (isAssignment_iff.mpr hsep)] at hwords
      rw [hwords, wordsOf, fields, if_pos hsep, List.map_cons,
        ih (not_of_mem_head?_dropWhile isBlank _)]
  | case2 s hsep =>
      rw [wordsOf, fields_of_not_separated hsep, List.map_nil]
      by_cases hne : s.takeWhile isToken = []
      · have hdrop := List.takeWhile_append_dropWhile (p := isToken) (l := s)
        rw [hne, List.nil_append] at hdrop
        have hhead := not_of_mem_head?_dropWhile isToken s
        rw [hdrop] at hhead
        exact assignments_of_head fun c hc ↦ ⟨hhead c hc, h c hc⟩
      · have hwords := assignments_append hne (fun c hc ↦ List.mem_takeWhile_imp hc)
          (not_of_mem_head?_dropWhile isToken s)
        rw [List.takeWhile_append_dropWhile, if_neg fun he ↦ hsep (isAssignment_iff.mp he)] at hwords
        exact hwords

/-- Behind them the judge goes on. -/
theorem joinFields_append_behind {s : Str} (h : ∀ c ∈ s.head?, ¬ isBlank c) :
    joinFields (wordsOf s) ++ behind (assignments s) s = s := by
  rw [assignments_eq h]
  induction s using fields.induct isToken isBlank '=' with
  | case1 s hsep ih =>
      have hdrop : s.drop (s.takeWhile isToken).length = s.dropWhile isToken := by
        have hleft : (s.takeWhile isToken ++ s.dropWhile isToken).drop (s.takeWhile isToken).length =
            s.dropWhile isToken := List.drop_left
        rwa [List.takeWhile_append_dropWhile] at hleft
      have hrest := ih (not_of_mem_head?_dropWhile isBlank _)
      rw [wordsOf, fields, if_pos hsep, List.map_cons, behind, hdrop, joinFields, List.flatMap_cons,
        ← joinFields, List.append_assoc, hrest, List.append_assoc, List.takeWhile_append_dropWhile,
        List.takeWhile_append_dropWhile]
  | case2 s hsep =>
      rw [wordsOf, fields_of_not_separated hsep]
      rfl

theorem dictionary_assignments {s : Str} (h : ∀ c ∈ s.head?, ¬ isBlank c) :
    dictionary (assignments s) = fieldsAt s := by
  rw [assignments_eq h, dictionary, fieldsAt, List.map_map]
  rfl

/-! ## The records -/

/-- Behind white space there is no blank. -/
theorem not_isBlank_dropWhile (t : Str) : ∀ c ∈ (t.dropWhile isSpace).head?, ¬ isBlank c :=
  fun c hc hblank ↦ not_of_mem_head?_dropWhile isSpace t c hc (isSpace_of_isBlank hblank)

theorem record?_of_recordAt {s t : Str} (h : RecordAt s t) :
    record? s = some (fieldsAt (t.dropWhile isSpace),
      behind (assignments (t.dropWhile isSpace)) (t.dropWhile isSpace)) := by
  have hdrop : s.drop compileWord.length = t := by rw [h.eq_append, List.drop_left]
  have hhead : t.head?.any isSpace = true := by
    obtain ⟨c, hc, hspace⟩ := Option.map_eq_some_iff.mp h.isSpace_head
    rw [hc]
    exact hspace
  have hwords : assignments (t.dropWhile isSpace) ≠ [] := by
    rw [assignments_eq (not_isBlank_dropWhile t), Ne, List.map_eq_nil_iff]
    exact h.wordsOf_ne_nil
  rw [record?, hdrop, if_pos ⟨⟨t, h.eq_append.symm⟩, hhead, hwords⟩,
    dictionary_assignments (not_isBlank_dropWhile t)]

theorem record?_eq_none {s : Str} (h : ¬ ∃ t, RecordAt s t) : record? s = none := by
  refine if_neg ?_
  rintro ⟨⟨t, rfl⟩, hhead, hwords⟩
  rw [List.drop_left] at hhead hwords
  refine h ⟨t, rfl, ?_, ?_⟩
  · cases t with
    | nil => cases hhead
    | cons c t => simpa using hhead
  · rw [assignments_eq (not_isBlank_dropWhile t), Ne, List.map_eq_nil_iff] at hwords
    exact hwords

theorem recordAt_of_record? {s : Str} {r : Fields × Str} (h : record? s = some r) :
    ∃ t, RecordAt s t := by
  by_contra hnone
  rw [record?_eq_none hnone] at h
  cases h

/-- The reader goes forward over a record. -/
theorem suffix_of_record? {c : Char} {s rest : Str} {fields : Fields}
    (h : record? (c :: s) = some (fields, rest)) : rest <:+ s := by
  obtain ⟨t, ht⟩ := recordAt_of_record? h
  rw [record?_of_recordAt ht] at h
  cases h
  have hbody := joinFields_append_behind (not_isBlank_dropWhile t)
  exact (List.IsSuffix.trans ⟨_, hbody⟩ (List.dropWhile_suffix isSpace)).trans ht.suffix_tail

theorem records_eq_drop (n : ℕ) (s : Str) : records n s = records 0 (s.drop n) := by
  induction n generalizing s with
  | zero => rw [List.drop_zero]
  | succ n ih =>
      cases s with
      | nil => rfl
      | cons c s => rw [records, ih, List.drop_succ_cons]

theorem records_of_record? {c : Char} {s rest : Str} {fields : Fields}
    (h : record? (c :: s) = some (fields, rest)) :
    records 0 (c :: s) = fields :: records 0 rest := by
  have hstep : records 0 (c :: s) = fields :: records (s.length - rest.length) s := by
    rw [records, h]
  rw [hstep, records_eq_drop, ← List.suffix_iff_eq_drop.mp (suffix_of_record? h)]

/-- **The reader and the search.**  Both find the same records. -/
theorem records_eq (b : Option Char) (s : Str) : records 0 s = fieldsFrom b s := by
  induction hn : s.length using Nat.strong_induction_on generalizing s b with
  | _ n ih =>
  subst hn
  cases s with
  | nil =>
      have hnone : matchAt compilePattern ⟨b, []⟩ = none :=
        matchAt_word_of_not_prefix _ fun hp ↦ absurd (List.prefix_nil.mp hp) (by decide)
      rw [fieldsFrom, finditer, hnone]
      rfl
  | cons c s =>
      by_cases hrecord : ∃ t, RecordAt (c :: s) t
      · obtain ⟨t, ht⟩ := hrecord
        obtain ⟨d, v, hv, hfields⟩ := ht.fieldsFrom_eq b
        have hbehind : behind (assignments (t.dropWhile isSpace)) (t.dropWhile isSpace) = v :=
          List.append_cancel_left
            ((joinFields_append_behind (not_isBlank_dropWhile t)).trans hv.symm)
        have hstart := record?_of_recordAt ht
        rw [hbehind] at hstart
        have hlt : v.length < (c :: s).length :=
          Nat.lt_succ_of_le (suffix_of_record? hstart).length_le
        rw [records_of_record? hstart, hfields, ih _ hlt d v rfl]
      · rw [fieldsFrom_cons hrecord, records, record?_eq_none hrecord]
        exact ih s.length (Nat.lt_succ_self _) (some c) s rfl

/-! ## The lines with a dictionary -/

theorem wordsOf_ne_nil_iff {t : Str} : wordsOf t ≠ [] ↔ ∃ key value rest,
    t = key ++ '=' :: (value ++ rest) ∧ key ≠ [] ∧ value ≠ [] ∧ ∀ c ∈ key ++ value, ¬ isSpace c := by
  constructor
  · intro h
    have hsep : Separated '=' (t.takeWhile isToken) :=
      by_contra fun hsep ↦ h (fields_of_not_separated hsep)
    obtain ⟨key, value, hkey, hvalue, htoken⟩ := separated_iff.mp hsep
    have hall : ∀ c ∈ t.takeWhile isToken, isToken c := fun c hc ↦ List.mem_takeWhile_imp hc
    have ht := List.takeWhile_append_dropWhile (p := isToken) (l := t)
    rw [htoken] at hall ht
    refine ⟨key, value, t.dropWhile isToken, ?_, hkey, hvalue, fun c hc ↦ ?_⟩
    · rw [← List.cons_append, ← List.append_assoc]
      exact ht.symm
    have hc := hall c (by
      rcases List.mem_append.mp hc with hc | hc
      · exact List.mem_append_left _ hc
      · exact List.mem_append_right _ (List.mem_cons_of_mem _ hc))
    simpa [isToken] using hc
  · rintro ⟨key, value, rest, rfl, hkey, hvalue, hall⟩
    have htoken : ∀ c ∈ key ++ '=' :: value, isToken c := by
      intro c hc
      rcases List.mem_append.mp hc with hc | hc
      · simpa [isToken] using hall c (List.mem_append_left _ hc)
      · rcases List.mem_cons.mp hc with rfl | hc
        · exact isToken_equals
        · simpa [isToken] using hall c (List.mem_append_right _ hc)
    have htake : (key ++ '=' :: (value ++ rest)).takeWhile isToken =
        key ++ '=' :: (value ++ rest.takeWhile isToken) := by
      have htext : key ++ '=' :: (value ++ rest) = key ++ '=' :: value ++ rest := by simp
      rw [htext, List.takeWhile_append_of_pos htoken]
      simp
    rw [wordsOf, fields, htake,
      if_pos (separated_iff.mpr ⟨key, value ++ rest.takeWhile isToken, hkey, by simp [hvalue], rfl⟩)]
    exact List.cons_ne_nil _ _

/-- A record starts somewhere in the text. -/
theorem hasRecord_iff {s : Str} : HasRecord s ↔ ∃ s' t, s' <:+ s ∧ RecordAt s' t := by
  constructor
  · rintro ⟨a, u, key, value, rest, rfl, hne, hu, hfield⟩
    exact ⟨_, _, List.suffix_append a _, recordAt_of_isSpace hne hu
      (wordsOf_ne_nil_iff.mpr ⟨key, value, rest, rfl, hfield⟩)⟩
  · rintro ⟨_, t, ⟨a, rfl⟩, ht⟩
    obtain ⟨key, value, rest, htext, hfield⟩ := wordsOf_ne_nil_iff.mp ht.wordsOf_ne_nil
    refine ⟨a, t.takeWhile isSpace, key, value, rest, ?_, ht.takeWhile_ne_nil,
      fun c hc ↦ List.mem_takeWhile_imp hc, hfield⟩
    rw [← htext, List.takeWhile_append_dropWhile, ht.eq_append]

/-- The last record of a text, and nothing behind it. -/
theorem exists_of_getLast?_records {s : Str} {fields : Fields}
    (h : (records 0 s).getLast? = some fields) :
    ∃ s' rest, s' <:+ s ∧ record? s' = some (fields, rest) ∧ records 0 rest = [] := by
  induction hn : s.length using Nat.strong_induction_on generalizing s with
  | _ n ih =>
  subst hn
  cases s with
  | nil => cases h
  | cons c s =>
      cases hrecord : record? (c :: s) with
      | none =>
          rw [records, hrecord] at h
          obtain ⟨s', rest, hsuffix, hlast⟩ := ih s.length (Nat.lt_succ_self _) h rfl
          exact ⟨s', rest, hsuffix.trans (List.suffix_cons c s), hlast⟩
      | some r =>
          obtain ⟨first, rest⟩ := r
          have hsuffix := suffix_of_record? hrecord
          rw [records_of_record? hrecord] at h
          by_cases hnil : records 0 rest = []
          · rw [hnil] at h
            cases h
            exact ⟨c :: s, rest, List.suffix_refl _, hrecord, hnil⟩
          · rw [List.getLast?_cons_of_ne_nil hnil] at h
            obtain ⟨s', rest', hsuffix', hlast⟩ :=
              ih rest.length (Nat.lt_succ_of_le hsuffix.length_le) h rfl
            exact ⟨s', rest', (hsuffix'.trans hsuffix).trans (List.suffix_cons c s), hlast⟩

theorem records_ne_nil {s s' t : Str} (hsuffix : s' <:+ s) (ht : RecordAt s' t) :
    records 0 s ≠ [] := by
  induction s with
  | nil =>
      rw [List.suffix_nil.mp hsuffix] at ht
      exact absurd ht.eq_append (by simp [compileWord, lit])
  | cons c s ih =>
      cases hrecord : record? (c :: s) with
      | none =>
          rw [records, hrecord]
          rcases List.suffix_cons_iff.mp hsuffix with rfl | hsuffix
          · rw [record?_of_recordAt ht] at hrecord
            cases hrecord
          · exact ih hsuffix
      | some r =>
          rw [records, hrecord]
          exact List.cons_ne_nil _ _

theorem records_ne_nil_iff {s : Str} : records 0 s ≠ [] ↔ HasRecord s := by
  rw [hasRecord_iff]
  refine ⟨fun h ↦ ?_, fun ⟨_, _, hsuffix, ht⟩ ↦ records_ne_nil hsuffix ht⟩
  have hlast := List.getLast?_eq_some_getLast h
  obtain ⟨s', _, hsuffix, hrecord, _⟩ := exists_of_getLast?_records hlast
  obtain ⟨t, ht⟩ := recordAt_of_record? hrecord
  exact ⟨s', t, hsuffix, ht⟩

/-- **The dictionary of a line.**  A line has one exactly if the marker stands in it in front of
white space and a `key=value` token; then it is that of the tokens behind a marker and white space,
with no further record behind them. -/
theorem lineFields_spec (line : Str) : (lineFields line = none ∧ ¬ HasRecord line) ∨
    (HasRecord line ∧ ∃ a u t, line = a ++ (compileWord ++ (u ++ t)) ∧ u ≠ [] ∧
      (∀ c ∈ u, isSpace c) ∧ assignments t ≠ [] ∧ ¬ HasRecord (behind (assignments t) t) ∧
      lineFields line = some (dictionary (assignments t))) := by
  cases h : lineFields line with
  | none =>
      rw [lineFields, List.getLast?_eq_none_iff] at h
      exact .inl ⟨rfl, fun hrecord ↦ records_ne_nil_iff.mpr hrecord h⟩
  | some fields =>
      have hne : records 0 line ≠ [] := fun hnil ↦ by
        rw [lineFields, hnil] at h
        cases h
      obtain ⟨s', rest, ⟨a, rfl⟩, hrecord, hrest⟩ := exists_of_getLast?_records h
      obtain ⟨t, ht⟩ := recordAt_of_record? hrecord
      rw [record?_of_recordAt ht, ← dictionary_assignments (not_isBlank_dropWhile t)] at hrecord
      cases hrecord
      refine .inr ⟨records_ne_nil_iff.mp hne, a, t.takeWhile isSpace, t.dropWhile isSpace, ?_,
        ht.takeWhile_ne_nil, fun c hc ↦ List.mem_takeWhile_imp hc, ?_, ?_, rfl⟩
      · rw [List.takeWhile_append_dropWhile, ht.eq_append]
      · rw [assignments_eq (not_isBlank_dropWhile t), Ne, List.map_eq_nil_iff]
        exact ht.wordsOf_ne_nil
      · exact fun hrecord ↦ records_ne_nil_iff.mpr hrecord hrest

example : lineFields (lit "xBUILDSTORM_COMPILE\t ok=true a=b=c foo d=e") =
    some [(lit "a", lit "b=c"), (lit "ok", lit "true")] := by decide +kernel

end KernelTests.BuildStorm
