import KernelTests.BuildStorm.LineReader

/-!
# Reading a log line by line

The judge means to read the last line with a compile record.  The white space behind the
word of a record may contain line ends, though, so a word at the end of one line takes
its fields from a later one.  Here is the reader that goes line by line, and exactly the
texts in which no record reaches over the end of its line.
-/

namespace KernelTests.BuildStorm

open Python Regex

/-! ## The search, step by step -/

/-- The matches in a text. -/
def search (out : Str) : List (List Str) := finditer compilePattern 0 none out

/-- The search goes forward over a record. -/
theorem RecordAt.length_lt {s t v : Str} (h : RecordAt s t)
    (hv : joinFields (wordsOf (t.dropWhile isSpace)) ++ v = t.dropWhile isSpace) :
    v.length < s.length := by
  have hdrop := (List.dropWhile_suffix isSpace (l := t)).length_le
  have hlen := congrArg List.length hv
  have hword : 0 < compileWord.length := by decide
  rw [List.length_append] at hlen
  rw [h.eq_append, List.length_append]
  omega

/-- The character in front of a text does not matter. -/
theorem finditer_eq_search (b : Option Char) (s : Str) :
    finditer compilePattern 0 b s = search s := by
  induction hn : s.length using Nat.strong_induction_on generalizing s b with
  | _ n ih =>
  subst hn
  by_cases hrecord : ∃ t, RecordAt s t
  · obtain ⟨t, ht⟩ := hrecord
    obtain ⟨b₁, v, hv, hb⟩ := ht.finditer_eq b
    obtain ⟨b₂, v', hv', hnone⟩ := ht.finditer_eq none
    obtain rfl : v = v' := List.append_cancel_left (hv.trans hv'.symm)
    have hshort := ht.length_lt hv
    rw [search, hb, hnone, ih _ hshort b₁ v rfl, ih _ hshort b₂ v rfl]
  · cases s with
    | nil =>
        have hnone : ∀ b, matchAt compilePattern ⟨b, []⟩ = none := fun b ↦
          matchAt_word_of_not_prefix _ fun hp ↦ absurd (List.prefix_nil.mp hp) (by decide)
        rw [search, finditer, finditer, hnone, hnone]
        rfl
    | cons c s =>
        rw [search, finditer_cons_of_not_recordAt hrecord, finditer_cons_of_not_recordAt hrecord]

theorem search_nil : search [] = [] := by decide

theorem search_cons {c : Char} {s : Str} (h : ¬ ∃ t, RecordAt (c :: s) t) :
    search (c :: s) = search s := by
  rw [search, finditer_cons_of_not_recordAt h, finditer_eq_search]

/-- The groups of the record at the start of a text. -/
def groupsAt (t : Str) : List Str :=
  [compileWord, t.takeWhile isSpace, joinFields (wordsOf (t.dropWhile isSpace))]

theorem search_of_recordAt {s t v : Str} (h : RecordAt s t)
    (hv : joinFields (wordsOf (t.dropWhile isSpace)) ++ v = t.dropWhile isSpace) :
    search s = groupsAt t :: search v := by
  obtain ⟨b, v', hv', hsearch⟩ := h.finditer_eq none
  obtain rfl : v = v' := List.append_cancel_left (hv.trans hv'.symm)
  rw [search, hsearch, finditer_eq_search, groupsAt]

/-! ## Records at the end of a line -/

/-- A text goes on with a field. -/
def Continues (rest : Str) : Prop := wordsOf (rest.dropWhile isSpace) ≠ []

/-- The search in a line comes to the word of a record with nothing but white space behind it. -/
inductive Dangles : Str → Prop
  | word {u : Str} : (∀ c ∈ u, isSpace c) → Dangles (compileWord ++ u)
  | skip {c : Char} {s : Str} : (¬ ∃ t, RecordAt (c :: s) t) → Dangles s → Dangles (c :: s)
  | record {s t v : Str} : RecordAt s t →
      joinFields (wordsOf (t.dropWhile isSpace)) ++ v = t.dropWhile isSpace → Dangles v → Dangles s

/-- Some line ends with the word of a record, and the text behind that line goes on with a
field. -/
def Broken : List Str → Prop
  | [] => False
  | line :: lines =>
    (Dangles line ∧ Continues (['\n'].intercalate lines)) ∨ Broken lines

/-- White space at the end of a line, or not. -/
theorem dropWhile_append_newline (t rest : Str) :
    (t ++ '\n' :: rest).dropWhile isSpace =
      if t.dropWhile isSpace = [] then rest.dropWhile isSpace
      else t.dropWhile isSpace ++ '\n' :: rest := by
  rw [List.dropWhile_append, List.dropWhile_cons_of_pos isSpace_lineEnd.2]
  simp only [List.isEmpty_iff]

theorem wordsOf_append_newline (s rest : Str) : wordsOf (s ++ '\n' :: rest) = wordsOf s :=
  fields_append_cons (by decide) (by decide) s rest

theorem dropWhile_ne_nil_of_recordAt {s t : Str} (h : RecordAt s t) : t.dropWhile isSpace ≠ [] := by
  intro hnil
  have hne := h.wordsOf_ne_nil
  rw [hnil] at hne
  exact hne (fields_of_head (by simp))

/-- A record within a line stays one. -/
theorem RecordAt.append_newline {s t : Str} (h : RecordAt s t) (rest : Str) :
    RecordAt (s ++ '\n' :: rest) (t ++ '\n' :: rest) where
  eq_append := by rw [h.eq_append, List.append_assoc]
  isSpace_head := by
    have hne : t ≠ [] := fun he ↦ dropWhile_ne_nil_of_recordAt h (by rw [he]; rfl)
    rw [List.head?_append_of_ne_nil _ hne]
    exact h.isSpace_head
  wordsOf_ne_nil := by
    rw [dropWhile_append_newline, if_neg (dropWhile_ne_nil_of_recordAt h), wordsOf_append_newline]
    exact h.wordsOf_ne_nil

/-- A record that starts in a line is within the line, or dangles. -/
theorem recordAt_append_newline {s rest t : Str} (h : RecordAt (s ++ '\n' :: rest) t) :
    (∃ t', RecordAt s t') ∨
      Continues rest ∧ ∃ u, (∀ c ∈ u, isSpace c) ∧ s = compileWord ++ u := by
  obtain ⟨heq, hhead, hwords⟩ := h
  obtain ⟨u, rfl⟩ := prefix_of_prefix_append_cons (by decide) ⟨t, heq.symm⟩
  rw [List.append_assoc, List.append_cancel_left_eq] at heq
  subst heq
  rw [dropWhile_append_newline] at hwords
  split at hwords
  · next hall => exact .inr ⟨hwords, u, List.dropWhile_eq_nil_iff.mp hall, rfl⟩
  · next hsome =>
    have hne : u ≠ [] := fun he ↦ hsome (by rw [he]; rfl)
    rw [List.head?_append_of_ne_nil _ hne] at hhead
    rw [wordsOf_append_newline] at hwords
    exact .inl ⟨u, rfl, hhead, hwords⟩

theorem groupsAt_append_newline {s t : Str} (h : RecordAt s t) (rest : Str) :
    groupsAt (t ++ '\n' :: rest) = groupsAt t := by
  have hne := dropWhile_ne_nil_of_recordAt h
  have htake : (t ++ '\n' :: rest).takeWhile isSpace = t.takeWhile isSpace := by
    rw [List.takeWhile_append, if_neg]
    intro hlen
    have hall := congrArg List.length (List.takeWhile_append_dropWhile (p := isSpace) (l := t))
    rw [List.length_append, hlen, Nat.add_eq_left] at hall
    exact hne (List.length_eq_zero_iff.mp hall)
  rw [groupsAt, htake, dropWhile_append_newline, if_neg hne, wordsOf_append_newline, groupsAt]

/-- Over the end of a line the fields of a record are the same, and so is what is left. -/
theorem RecordAt.eq_append_newline {s t v : Str} (h : RecordAt s t)
    (hv : joinFields (wordsOf (t.dropWhile isSpace)) ++ v = t.dropWhile isSpace) (rest : Str) :
    joinFields (wordsOf ((t ++ '\n' :: rest).dropWhile isSpace)) ++ (v ++ '\n' :: rest) =
      (t ++ '\n' :: rest).dropWhile isSpace := by
  rw [dropWhile_append_newline, if_neg (dropWhile_ne_nil_of_recordAt h), wordsOf_append_newline,
    ← List.append_assoc, hv]

/-! ## The search, line by line -/

/-- Where no record reaches over the end of the line, the search starts afresh behind it. -/
theorem search_append_newline {l rest : Str} (h : ¬ (Dangles l ∧ Continues rest)) :
    search (l ++ '\n' :: rest) = search l ++ search rest := by
  induction hn : l.length using Nat.strong_induction_on generalizing l with
  | _ n ih =>
  subst hn
  by_cases hrecord : ∃ t, RecordAt l t
  · obtain ⟨t, ht⟩ := hrecord
    obtain ⟨_, v, hv, _⟩ := ht.finditer_eq none
    have hrest := ih v.length (ht.length_lt hv) (fun hd ↦ h ⟨.record ht hv hd.1, hd.2⟩) rfl
    rw [search_of_recordAt ht hv, search_of_recordAt (ht.append_newline rest)
      (ht.eq_append_newline hv rest), groupsAt_append_newline ht, hrest, List.cons_append]
  · cases l with
    | nil =>
        rw [List.nil_append, search_cons (not_recordAt_space isSpace_lineEnd.2 rest), search_nil,
          List.nil_append]
    | cons c s =>
        have hnone : ¬ ∃ t, RecordAt (c :: (s ++ '\n' :: rest)) t := by
          rintro ⟨t, ht⟩
          rcases recordAt_append_newline (s := c :: s) ht with hline | ⟨hrest, u, hu, hs⟩
          · exact hrecord hline
          · exact h ⟨hs ▸ .word hu, hrest⟩
        rw [search_cons hrecord, List.cons_append, search_cons hnone]
        exact ih s.length (Nat.lt_succ_self _) (fun hd ↦ h ⟨.skip hrecord hd.1, hd.2⟩) rfl

/-- A word at the end of a line takes its fields from a later one. -/
theorem newline_mem_of_continues {u rest : Str} (hu : ∀ c ∈ u, isSpace c) (hrest : Continues rest) :
    ∃ us ∈ search (compileWord ++ u ++ '\n' :: rest), '\n' ∈ us.flatten := by
  have hall : ∀ c ∈ u ++ ['\n'], isSpace c := fun c hc ↦
    (List.mem_append.mp hc).elim (hu c) fun h ↦ List.mem_singleton.mp h ▸ isSpace_lineEnd.2
  have htext : u ++ '\n' :: rest = u ++ ['\n'] ++ rest := by simp
  have hrecord : RecordAt (compileWord ++ u ++ '\n' :: rest) (u ++ '\n' :: rest) := by
    refine ⟨List.append_assoc _ _ _, ?_, ?_⟩
    · cases u with
      | nil => rfl
      | cons c u => simpa using hu c List.mem_cons_self
    · rw [htext, List.dropWhile_append_of_pos hall]
      exact hrest
  obtain ⟨_, v, hv, _⟩ := hrecord.finditer_eq none
  rw [search_of_recordAt hrecord hv]
  refine ⟨_, List.mem_cons_self, ?_⟩
  rw [groupsAt, htext, List.takeWhile_append_of_pos hall]
  simp

theorem newline_mem_of_dangles {l rest : Str} (h : Dangles l) (hrest : Continues rest) :
    ∃ us ∈ search (l ++ '\n' :: rest), '\n' ∈ us.flatten := by
  induction h with
  | word hu => exact newline_mem_of_continues hu hrest
  | @skip c s hrecord _ ih =>
      by_cases hnone : ∃ t, RecordAt (c :: (s ++ '\n' :: rest)) t
      · obtain ⟨t, ht⟩ := hnone
        rcases recordAt_append_newline (s := c :: s) ht with hline | ⟨_, u, hu, hs⟩
        · exact absurd hline hrecord
        · rw [hs]
          exact newline_mem_of_continues hu hrest
      · rw [List.cons_append, search_cons hnone]
        exact ih
  | record hrecord hv _ ih =>
      obtain ⟨us, hus, hmem⟩ := ih
      rw [search_of_recordAt (hrecord.append_newline rest) (hrecord.eq_append_newline hv rest)]
      exact ⟨us, List.mem_cons_of_mem _ hus, hmem⟩

/-- The matches in a text stand in the text. -/
theorem infix_of_mem_search {out : Str} {us : List Str} (h : us ∈ search out) :
    us.flatten <:+: out := by
  obtain ⟨⟨b, s⟩, hx, ys, hys, rfl⟩ := exists_place_of_mem_finditer _ none h
  have hsuffix : s ∈ out.tails := map_rest_places none out ▸ List.mem_map_of_mem hx
  obtain ⟨u, t, rfl, _, _, _, hgroups⟩ :=
    groups_of_matchAt_record isToken_equals not_isToken_of_isSpace hys
  have hfields := joinFields_prefix isToken isBlank '=' t
  have hflat : (groups ⟨b, compileWord ++ (u ++ t)⟩ ys).flatten <+: compileWord ++ (u ++ t) := by
    rw [hgroups, List.flatten_cons, List.flatten_cons, List.flatten_singleton]
    exact (List.prefix_append_right_inj _).mpr ((List.prefix_append_right_inj _).mpr hfields)
  exact hflat.isInfix.trans ((List.mem_tails _ _).mp hsuffix).isInfix

/-- Texts, line by line. -/
theorem line_induction {motive : Str → Prop} (last : ∀ l, '\n' ∉ l → motive l)
    (line : ∀ l rest, '\n' ∉ l → motive rest → motive (l ++ '\n' :: rest)) (s : Str) :
    motive s := by
  induction hn : s.length using Nat.strong_induction_on generalizing s with
  | _ n ih =>
  subst hn
  by_cases h : '\n' ∈ s
  · obtain ⟨l, rest, rfl, hl⟩ := List.eq_append_cons_of_mem h
    exact line l rest hl (ih rest.length (by simp; omega) rest rfl)
  · exact last s h

theorem newline_notMem_of_mem_splitOn {out : Str} : ∀ line ∈ out.splitOn '\n', '\n' ∉ line := by
  induction out using line_induction with
  | last l hl =>
      rw [List.splitOn_eq_singleton hl]
      exact List.forall_mem_singleton.mpr hl
  | line l rest hl ih =>
      rw [List.splitOn_append_cons_self_of_not_mem hl]
      exact List.forall_mem_cons.mpr ⟨hl, ih⟩

theorem broken_singleton (l : Str) : ¬ Broken [l] := by
  rintro (⟨_, h⟩ | h)
  · exact h (fields_of_head (by simp [List.intercalate]))
  · exact h

theorem broken_splitOn {l rest : Str} (hl : '\n' ∉ l) :
    Broken ((l ++ '\n' :: rest).splitOn '\n') ↔
      (Dangles l ∧ Continues rest) ∨ Broken (rest.splitOn '\n') := by
  rw [List.splitOn_append_cons_self_of_not_mem hl, Broken, List.intercalate_splitOn]

/-- The matches are those of the lines, if no record is broken. -/
theorem search_eq_flatMap {out : Str} (h : ¬ Broken (out.splitOn '\n')) :
    search out = (out.splitOn '\n').flatMap search := by
  induction out using line_induction with
  | last l hl => rw [List.splitOn_eq_singleton hl, List.flatMap_singleton]
  | line l rest hl ih =>
      rw [broken_splitOn hl, not_or] at h
      rw [search_append_newline h.1, ih h.2, List.splitOn_append_cons_self_of_not_mem hl,
        List.flatMap_cons]

/-- A broken record is matched. -/
theorem newline_mem_of_broken {out : Str} (h : Broken (out.splitOn '\n')) :
    ∃ us ∈ search out, '\n' ∈ us.flatten := by
  induction out using line_induction with
  | last l hl =>
      rw [List.splitOn_eq_singleton hl] at h
      exact absurd h (broken_singleton l)
  | line l rest hl ih =>
      by_cases hline : Dangles l ∧ Continues rest
      · exact newline_mem_of_dangles hline.1 hline.2
      · obtain ⟨us, hus, hmem⟩ := ih (((broken_splitOn hl).mp h).resolve_left hline)
        rw [search_append_newline hline]
        exact ⟨us, List.mem_append_right _ hus, hmem⟩

/-! ## The judge -/

theorem getLast?_flatMap {β γ : Type} (l : List β) (f : β → List γ) :
    (l.flatMap f).getLast? = (l.filterMap fun x ↦ (f x).getLast?).getLast? := by
  induction l using List.reverseRecOn with
  | nil => rfl
  | append_singleton l x ih =>
      rw [List.flatMap_append, List.flatMap_singleton, List.filterMap_append, List.getLast?_append,
        List.getLast?_append, ih]
      cases h : (f x).getLast? <;> simp [h]

theorem lineFields_eq (line : Str) :
    lineFields line = ((search line).filterMap fieldsOf).getLast? := by
  rw [lineFields, records_eq none]
  rfl

/-- The reader of the judge goes line by line: it returns the dictionary of the last line that has
one, and every record it reads stands on one line. -/
structure ReadsLineWise (out : Str) : Prop where
  result : parseCompile out = some (lineWise out)
  within_line : ∀ us ∈ search out, '\n' ∉ us.flatten

/-- **Line by line.**  The judge reads a text line by line if and only if no line ends, behind its
records, with the word of a record while the text goes on with a field.  The dictionary of a line
is that of the tokens behind the last marker that has any. -/
theorem readsLineWise_iff (out : Str) : (ReadsLineWise out ↔ ¬ Broken (out.splitOn '\n')) ∧
    ∀ line, (lineFields line = none ∧ ¬ HasRecord line) ∨
      (HasRecord line ∧ ∃ a u t, line = a ++ (compileWord ++ (u ++ t)) ∧ u ≠ [] ∧
        (∀ c ∈ u, isSpace c) ∧ assignments t ≠ [] ∧ ¬ HasRecord (behind (assignments t) t) ∧
        lineFields line = some (dictionary (assignments t))) := by
  refine ⟨⟨?_, fun h ↦ ?_⟩, lineFields_spec⟩
  · rintro ⟨_, hwithin⟩ hbroken
    obtain ⟨us, hus, hmem⟩ := newline_mem_of_broken hbroken
    exact hwithin us hus hmem
  · have hsearch := search_eq_flatMap h
    refine ⟨?_, ?_⟩
    · have hfields : matchedFields out = (out.splitOn '\n').flatMap fun line ↦
          (search line).filterMap fieldsOf := by
        rw [matchedFields, ← search, hsearch, List.filterMap_flatMap]
      rw [parseCompile_eq, hfields, getLast?_flatMap, lineWise]
      simp only [lineFields_eq]
    · intro us hus hmem
      rw [hsearch] at hus
      obtain ⟨line, hline, hus⟩ := List.mem_flatMap.mp hus
      exact newline_notMem_of_mem_splitOn line hline ((infix_of_mem_search hus).subset hmem)

/-- A record whose line breaks off. -/
theorem parseCompile_ne_lineWise_truncated :
    ¬ (parseCompile (lit "BUILDSTORM_COMPILE\nok=true") =
      some (lineWise (lit "BUILDSTORM_COMPILE\nok=true"))) := by
  decide +kernel

end KernelTests.BuildStorm
