import KernelTests.BuildStorm.Logs
import KernelTests.Python.Decode

/-!
# Logs with translated line ends

A log that is read from a file has its line ends translated, a log from standard input
has not.  The patterns of the judge treat all line ends as white space, so the results
are the same.
-/

namespace KernelTests.BuildStorm

open Python Regex

theorem not_isToken_lineEnd : ¬ isToken '\r' ∧ ¬ isToken '\n' := by decide

theorem not_isBlank_lineEnd : ¬ isBlank '\r' ∧ ¬ isBlank '\n' := by decide

theorem isSpace_lineEnd : isSpace '\r' ∧ isSpace '\n' := by decide

theorem isSpace_of_lineEnd {c : Char} (h : ¬ (c ≠ '\r' ∧ c ≠ '\n')) : isSpace c := by
  rcases not_and_or.mp h with hc | hc
  · rw [not_not.mp hc]
    exact isSpace_lineEnd.1
  · rw [not_not.mp hc]
    exact isSpace_lineEnd.2

theorem withinLine_of_isToken {s : Str} (h : ∀ c ∈ s, isToken c) : WithinLine s := by
  intro c hc
  exact ⟨fun he ↦ not_isToken_lineEnd.1 (he ▸ h c hc), fun he ↦ not_isToken_lineEnd.2 (he ▸ h c hc)⟩

/-! ## Compile records -/

/-- The fields at the front of a text are on one line. -/
theorem wordsOf_newlines (s : Str) : wordsOf (newlines s) = wordsOf s := by
  unfold wordsOf
  induction s using fields.induct isToken isBlank '=' with
  | case1 s h ih =>
      have hword := takeWhile_newlines not_isToken_lineEnd.1 not_isToken_lineEnd.2 s
      have hblanks := takeWhile_newlines not_isBlank_lineEnd.1 not_isBlank_lineEnd.2
        (s.dropWhile isToken)
      rw [fields, hword.1, if_pos h, hword.2, hblanks.1, hblanks.2, ih,
        fields.eq_def isToken isBlank '=' s, if_pos h]
  | case2 s h =>
      have hword := takeWhile_newlines not_isToken_lineEnd.1 not_isToken_lineEnd.2 s
      rw [fields_of_not_separated h, fields_of_not_separated]
      rwa [hword.1]

theorem withinLine_joinFields (s : Str) : WithinLine (joinFields (wordsOf s)) := by
  intro c hc
  obtain ⟨p, hp, hc⟩ := List.mem_flatMap.mp hc
  have hfield := isField_of_mem p hp
  rcases List.mem_append.mp hc with hc | hc
  · exact withinLine_of_isToken hfield.token_of_mem c hc
  · have hblank := hfield.blank_of_mem c hc
    exact ⟨fun he ↦ not_isBlank_lineEnd.1 (he ▸ hblank), fun he ↦ not_isBlank_lineEnd.2 (he ▸ hblank)⟩

/-- A record starts here, with the text `t` behind its word. -/
structure RecordAt (s t : Str) : Prop where
  eq_append : s = compileWord ++ t
  isSpace_head : t.head?.map isSpace = some true
  wordsOf_ne_nil : wordsOf (t.dropWhile isSpace) ≠ []

/-- White space and a field behind the word make a record. -/
theorem recordAt_of_isSpace {u t : Str} (hne : u ≠ []) (hu : ∀ c ∈ u, isSpace c)
    (hwords : wordsOf t ≠ []) : RecordAt (compileWord ++ (u ++ t)) (u ++ t) := by
  have hhead : ∀ c ∈ t.head?, ¬ isSpace c := fun c hc hspace ↦
    hwords (fields_of_head fun d hd ↦ by
      rw [hc] at hd
      cases hd
      exact not_isToken_of_isSpace c hspace)
  refine ⟨rfl, ?_, by rwa [(takeWhile_word hu hhead).2]⟩
  obtain ⟨c, u, rfl⟩ := List.exists_cons_of_ne_nil hne
  simpa using hu c List.mem_cons_self

theorem RecordAt.suffix_tail {c : Char} {s t : Str} (h : RecordAt (c :: s) t) : t <:+ s := by
  obtain ⟨d, w, hw⟩ : ∃ d w, compileWord = d :: w := ⟨'B', compileWord.tail, by decide⟩
  have heq := h.eq_append
  rw [hw, List.cons_append] at heq
  exact ⟨w, (List.cons.inj heq).2.symm⟩

theorem withinLine_compileWord : WithinLine compileWord := by decide

theorem RecordAt.newlines {s t : Str} (h : RecordAt s t) : RecordAt (newlines s) (newlines t) where
  eq_append := by rw [h.eq_append, newlines_append withinLine_compileWord]
  isSpace_head := by rw [head?_newlines (by decide), h.isSpace_head]
  wordsOf_ne_nil := by
    rw [Python.newlines, dropWhile_newlinesFrom isSpace_lineEnd.1 isSpace_lineEnd.2,
      wordsOf_newlines]
    exact h.wordsOf_ne_nil

/-- Translating line ends makes no record. -/
theorem recordAt_of_newlines {s t : Str} (h : RecordAt (newlines s) t) : ∃ r, RecordAt s r := by
  obtain ⟨r, rfl, rfl⟩ := eq_append_of_newlines withinLine_compileWord h.eq_append
  refine ⟨r, rfl, ?_, ?_⟩
  · rw [← head?_newlines (by decide), h.isSpace_head]
  · have hne := h.wordsOf_ne_nil
    rwa [Python.newlines, dropWhile_newlinesFrom isSpace_lineEnd.1 isSpace_lineEnd.2,
      wordsOf_newlines] at hne

/-- The fields that are read from the front of a text on. -/
def fieldsFrom (b : Option Char) (s : Str) : List Fields :=
  (finditer compilePattern 0 b s).filterMap fieldsOf

theorem RecordAt.takeWhile_ne_nil {s t : Str} (h : RecordAt s t) : t.takeWhile isSpace ≠ [] := by
  obtain ⟨c, hc, hfirst⟩ := Option.map_eq_some_iff.mp h.isSpace_head
  obtain ⟨r, hr⟩ := List.head?_eq_some_iff.mp hc
  rw [hr, List.takeWhile_cons_of_pos hfirst]
  exact List.cons_ne_nil _ _

/-- Searching over a record. -/
theorem RecordAt.finditer_eq {s t : Str} (h : RecordAt s t) (b : Option Char) :
    ∃ b' v, joinFields (wordsOf (t.dropWhile isSpace)) ++ v = t.dropWhile isSpace ∧
      finditer compilePattern 0 b s =
        [compileWord, t.takeWhile isSpace, joinFields (wordsOf (t.dropWhile isSpace))] ::
          finditer compilePattern 0 b' v := by
  obtain ⟨v, hv⟩ := joinFields_prefix isToken isBlank '=' (t.dropWhile isSpace)
  have hspace : ∀ c ∈ t.takeWhile isSpace, isSpace c := fun c hc ↦ List.mem_takeWhile_imp hc
  have hsplit := (splits_record (w := compileWord) isToken_equals not_isToken_of_isSpace hspace
    h.takeWhile_ne_nil hv h.wordsOf_ne_nil).finditer (by simp [h.takeWhile_ne_nil]) b
  have htext : [compileWord, t.takeWhile isSpace,
      joinFields (wordsOf (t.dropWhile isSpace))].flatten ++ v = s := by
    rw [h.eq_append]
    conv_rhs => rw [← List.takeWhile_append_dropWhile (p := isSpace) (l := t), ← hv]
    simp
  rw [← wordsOf, htext] at hsplit
  exact ⟨_, v, hv, hsplit⟩

/-- Reading over a record. -/
theorem RecordAt.fieldsFrom_eq {s t : Str} (h : RecordAt s t) (b : Option Char) :
    ∃ b' v, joinFields (wordsOf (t.dropWhile isSpace)) ++ v = t.dropWhile isSpace ∧
      fieldsFrom b s = fieldsAt (t.dropWhile isSpace) :: fieldsFrom b' v := by
  obtain ⟨b', v, hv, hsplit⟩ := h.finditer_eq b
  have hfields := congrArg (List.filterMap fieldsOf) hsplit
  rw [List.filterMap_cons_some (fieldsOf_match _ _ _)] at hfields
  exact ⟨b', v, hv, hfields⟩

/-- Searching over a character at which no record starts. -/
theorem finditer_cons_of_not_recordAt {c : Char} {s : Str} (h : ¬ ∃ t, RecordAt (c :: s) t)
    (b : Option Char) :
    finditer compilePattern 0 b (c :: s) = finditer compilePattern 0 (some c) s := by
  have hnone : matchAt compilePattern ⟨b, c :: s⟩ = none := by
    by_contra hne
    obtain ⟨ys, hys⟩ := Option.ne_none_iff_exists'.mp hne
    obtain ⟨u, t, hs, hu, hne, hwords, _⟩ :=
      groups_of_matchAt_record isToken_equals not_isToken_of_isSpace hys
    exact h ⟨u ++ t, hs ▸ recordAt_of_isSpace hne hu hwords⟩
  rw [finditer, hnone]

/-- Reading over a character at which no record starts. -/
theorem fieldsFrom_cons {c : Char} {s : Str} (h : ¬ ∃ t, RecordAt (c :: s) t) (b : Option Char) :
    fieldsFrom b (c :: s) = fieldsFrom (some c) s := by
  rw [fieldsFrom, finditer_cons_of_not_recordAt h, fieldsFrom]

theorem not_recordAt_space {c : Char} (hc : isSpace c) (s : Str) : ¬ ∃ t, RecordAt (c :: s) t := by
  rintro ⟨t, ht, _, _⟩
  have hhead : compileWord = 'B' :: compileWord.tail := by decide
  rw [hhead] at ht
  exact absurd ((List.cons.inj ht).1 ▸ hc) (by decide)

/-- The fields of a log do not depend on its line ends. -/
theorem fieldsFrom_newlinesFrom (cr : Bool) (b b' : Option Char) (s : Str) :
    fieldsFrom b (newlinesFrom cr s) = fieldsFrom b' s := by
  induction hn : s.length using Nat.strong_induction_on generalizing s cr b b' with
  | _ n ih =>
  subst hn
  cases s with
  | nil =>
      have hnil : ∀ b, fieldsFrom b [] = [] := by
        intro b
        have hnone : matchAt compilePattern ⟨b, []⟩ = none :=
          matchAt_word_of_not_prefix _ fun hp ↦ absurd (List.prefix_nil.mp hp) (by decide)
        rw [fieldsFrom, finditer, hnone]
        rfl
      rw [newlinesFrom, hnil, hnil]
  | cons c s =>
      have hshort : ∀ {t : Str}, t <:+ s → ∀ cr b b',
          fieldsFrom b (newlinesFrom cr t) = fieldsFrom b' t := fun ht cr b b' ↦
        ih _ (Nat.lt_succ_of_le ht.length_le) cr b b' _ rfl
      by_cases hline : c ≠ '\r' ∧ c ≠ '\n'
      · have hnewlines : newlinesFrom cr (c :: s) = newlines (c :: s) := by
          rw [newlinesFrom_cons hline, newlines.eq_1 (c :: s), newlinesFrom_cons hline]
        rw [hnewlines]
        by_cases hrecord : ∃ t, RecordAt (c :: s) t
        · obtain ⟨t, ht⟩ := hrecord
          obtain ⟨d, v, hv, hfields⟩ := ht.fieldsFrom_eq b'
          obtain ⟨d', v', hv', hfields'⟩ := ht.newlines.fieldsFrom_eq b
          have hdrop : (newlines t).dropWhile isSpace = newlines (t.dropWhile isSpace) :=
            dropWhile_newlinesFrom isSpace_lineEnd.1 isSpace_lineEnd.2 false t
          rw [hdrop, wordsOf_newlines, ← hv, newlines_append, hv] at hv'
          · have hrest := List.append_cancel_left hv'
            have hsuffix : v <:+ s :=
              ((List.suffix_append _ v).trans (hv ▸ List.dropWhile_suffix _)).trans ht.suffix_tail
            rw [hfields, hfields', hdrop, fieldsAt, wordsOf_newlines, ← fieldsAt, hrest, newlines,
              hshort hsuffix false d' d]
          · exact withinLine_joinFields _
        · have hnone : ¬ ∃ t, RecordAt (c :: newlines s) t := by
            rw [← newlinesFrom_cons hline false]
            rintro ⟨t, ht⟩
            exact hrecord (recordAt_of_newlines ht)
          rw [newlines, newlinesFrom_cons hline, fieldsFrom_cons hnone, fieldsFrom_cons hrecord]
          exact hshort (List.suffix_refl s) false _ _
      · -- at a line end no record starts, whether it is translated or left out
        have hspace := isSpace_of_lineEnd hline
        rw [fieldsFrom_cons (not_recordAt_space hspace s), newlinesFrom]
        split
        · rw [fieldsFrom_cons (not_recordAt_space isSpace_lineEnd.2 _)]
          exact hshort (List.suffix_refl s) _ _ _
        · split
          · exact hshort (List.suffix_refl s) _ _ _
          · rw [fieldsFrom_cons (not_recordAt_space hspace _)]
            exact hshort (List.suffix_refl s) _ _ _

theorem lastFields_newlines (s : Str) : lastFields (newlines s) = lastFields s := by
  have hfields : matchedFields (newlines s) = matchedFields s :=
    fieldsFrom_newlinesFrom false none none s
  rw [lastFields, hfields, lastFields]

/-! ## Records of the environment -/

section Env

variable [Unicode] {tag : Str}

/-- A record of the environment starts here, with the text `t` behind its word and the text `r`
behind `ok`. -/
structure AnnouncedAt (tag s t r : Str) : Prop where
  eq_append : s = envWord tag ++ t
  isSpace_head : t.head?.map isSpace = some true
  dropWhile_eq : t.dropWhile isSpace = lit "ok" ++ r
  not_isWord_head : r.head?.map isWord ≠ some true

/-- Where the pattern of a tag matches. -/
theorem run_envPattern_ne_nil_iff {b : Option Char} {s : Str} :
    run (envPattern tag) ⟨b, s⟩ ≠ [] ↔ ∃ t r, AnnouncedAt tag s t r := by
  have hok : ∀ b c s, isSpace c →
      run (.seq (.word (lit "ok")) (.boundary isWord)) ⟨b, c :: s⟩ = [] := by
    intro b c s hc
    rw [run, run_word, if_neg]
    · rfl
    · intro hp
      have hlit : lit "ok" = 'o' :: lit "k" := by decide
      rw [hlit] at hp
      exact absurd ((List.cons_prefix_cons.mp hp).1 ▸ hc) (by decide)
  have hafter : ∀ b r, run (.seq (.word (lit "ok")) (.boundary isWord)) ⟨b, lit "ok" ++ r⟩ ≠ [] ↔
      r.head?.map isWord ≠ some true := by
    intro b r
    have hlast : (lit "ok").getLast?.or b = some 'k' := by
      rw [show (lit "ok").getLast? = some 'k' by decide]
      rfl
    have hboundary : AtBoundary isWord ⟨some 'k', r⟩ ↔ r.head?.map isWord ≠ some true := by
      cases r with
      | nil => simp [AtBoundary, isWord_k]
      | cons c r => simp [AtBoundary, isWord_k]
    rw [run, run_word_append, List.flatMap_singleton, run, hlast, ← hboundary]
    simp
  constructor
  · intro h
    by_cases hw : envWord tag <+: s
    · obtain ⟨t, rfl⟩ := hw
      rw [envPattern, run, run_word_append, List.flatMap_singleton,
        run_seq_plus_char_ne_nil_iff hok] at h
      obtain ⟨hspace, hne⟩ := h
      by_cases hstart : lit "ok" <+: t.dropWhile isSpace
      · obtain ⟨r, hr⟩ := hstart
        rw [← hr] at hne
        exact ⟨t, r, rfl, hspace, hr.symm, (hafter _ r).mp hne⟩
      · rw [run, run_word, if_neg hstart] at hne
        exact absurd rfl hne
    · rw [envPattern, run, run_word, if_neg hw] at h
      exact absurd rfl h
  · rintro ⟨t, r, rfl, hspace, hdrop, hword⟩
    rw [envPattern, run, run_word_append, List.flatMap_singleton, run_seq_plus_char_ne_nil_iff hok,
      hdrop]
    exact ⟨hspace, (hafter _ r).mpr hword⟩

theorem isWord_lineEnd : isWord '\r' = isWord '\n' := by
  rw [isWord, isWord, Unicode.isAlnum_ascii '\r' (by decide), Unicode.isAlnum_ascii '\n' (by decide)]
  decide

omit [Unicode] in
theorem withinLine_envWord (htag : tag ∈ tags) : WithinLine (envWord tag) :=
  withinLine_of_isToken
    (isToken_of_mem_markers (List.mem_cons_of_mem _ (List.mem_map_of_mem htag)))

theorem AnnouncedAt.newlines (htag : tag ∈ tags) {s t r : Str} (h : AnnouncedAt tag s t r) :
    AnnouncedAt tag (newlines s) (newlines t) (newlines r) where
  eq_append := by rw [h.eq_append, newlines_append (withinLine_envWord htag)]
  isSpace_head := by rw [head?_newlines (by decide), h.isSpace_head]
  dropWhile_eq := by
    rw [Python.newlines, dropWhile_newlinesFrom isSpace_lineEnd.1 isSpace_lineEnd.2,
      h.dropWhile_eq, newlines_append (by decide)]
  not_isWord_head := by
    rw [head?_newlines isWord_lineEnd]
    exact h.not_isWord_head

/-- Translating line ends announces nothing. -/
theorem announcedAt_of_newlines (htag : tag ∈ tags) {s t r : Str}
    (h : AnnouncedAt tag (newlines s) t r) : ∃ t' r', AnnouncedAt tag s t' r' := by
  obtain ⟨t, rfl, rfl⟩ := eq_append_of_newlines (withinLine_envWord htag) h.eq_append
  have hdrop := h.dropWhile_eq
  rw [Python.newlines, dropWhile_newlinesFrom isSpace_lineEnd.1 isSpace_lineEnd.2] at hdrop
  obtain ⟨r', hr', rfl⟩ := eq_append_of_newlines (by decide) hdrop
  refine ⟨t, r', rfl, ?_, hr', ?_⟩
  · rw [← head?_newlines (by decide), h.isSpace_head]
  · rw [← head?_newlines isWord_lineEnd]
    exact h.not_isWord_head

theorem not_announcedAt_space {c : Char} (hc : isSpace c) (s : Str) :
    ¬ ∃ t r, AnnouncedAt tag (c :: s) t r := by
  rintro ⟨t, r, ht, _, _, _⟩
  have hhead : envWord tag = 'B' :: (lit "UILDSTORM_" ++ tag) := by
    rw [envWord, show lit "BUILDSTORM_" = 'B' :: lit "UILDSTORM_" by decide, List.cons_append]
  rw [hhead] at ht
  exact absurd ((List.cons.inj ht).1 ▸ hc) (by decide)

/-- Searching over white space. -/
theorem foundFrom_space {c : Char} (hc : isSpace c) (b : Option Char) (s : Str) :
    foundFrom (envPattern tag) b (c :: s) = foundFrom (envPattern tag) (some c) s := by
  have hnone : ¬ run (envPattern tag) ⟨b, c :: s⟩ ≠ [] := fun h ↦
    not_announcedAt_space hc s (run_envPattern_ne_nil_iff.mp h)
  rw [foundFrom_cons, decide_eq_false hnone, Bool.false_or]

/-- What is found in a log does not depend on its line ends. -/
theorem foundFrom_newlinesFrom (htag : tag ∈ tags) (cr : Bool) (b b' : Option Char) (s : Str) :
    foundFrom (envPattern tag) b (newlinesFrom cr s) = foundFrom (envPattern tag) b' s := by
  induction s generalizing cr b b' with
  | nil =>
      have hnil : ∀ b, foundFrom (envPattern tag) b [] = false := by
        intro b
        have hrun : run (envPattern tag) ⟨b, []⟩ = [] := by
          by_contra hne
          exact envWord_ne_nil tag (List.prefix_nil.mp (starts_of_run_ne_nil hne).isPrefix)
        simp [foundFrom, places, hrun]
      rw [newlinesFrom, hnil, hnil]
  | cons c s ih =>
      by_cases hline : c ≠ '\r' ∧ c ≠ '\n'
      · have hhere : run (envPattern tag) ⟨b, c :: newlines s⟩ ≠ [] ↔
            run (envPattern tag) ⟨b', c :: s⟩ ≠ [] := by
          rw [run_envPattern_ne_nil_iff, run_envPattern_ne_nil_iff, ← newlinesFrom_cons hline false]
          constructor
          · rintro ⟨t, r, h⟩
            exact announcedAt_of_newlines htag h
          · rintro ⟨t, r, h⟩
            exact ⟨_, _, h.newlines htag⟩
        rw [newlinesFrom_cons hline, foundFrom_cons, foundFrom_cons, decide_eq_decide.mpr hhere,
          newlines, ih]
      · -- at a line end no record starts, whether it is translated or left out
        have hspace := isSpace_of_lineEnd hline
        rw [foundFrom_space hspace, newlinesFrom]
        split
        · rw [foundFrom_space isSpace_lineEnd.2]
          exact ih _ _ _
        · split
          · exact ih _ _ _
          · rw [foundFrom_space hspace]
            exact ih _ _ _

theorem found_newlines (htag : tag ∈ tags) (s : Str) :
    found (envPattern tag) (newlines s) = found (envPattern tag) s := by
  rw [found_eq_foundFrom, found_eq_foundFrom]
  exact foundFrom_newlinesFrom htag false none none s

/-- The results on a log do not depend on its line ends. -/
theorem main_newlines (baselines : Baselines) (s : Str) :
    main baselines (newlines s) = main baselines s := by
  have henv : envPts.map (envResult (newlines s)) = envPts.map (envResult s) := by
    refine List.map_congr_left fun p hp ↦ ?_
    rw [envResult, envResult, found_newlines (List.mem_map_of_mem hp)]
  rw [main_eq, main_eq, lastFields_newlines, resultsOf, resultsOf, henv]

end Env

end KernelTests.BuildStorm
