import KernelTests.BuildStorm.Artifact
import KernelTests.BuildStorm.LineWise
import KernelTests.BuildStorm.RoundTrip

/-!
# Other output around a record

Other output may contain anything, records of its own included.  A compile record right
behind it is read as it was printed, unless the output ends with the beginnings of a
record: then its fields come first, and those of the printed record go on behind them.
A record of the environment that stands in it is found.
-/

namespace KernelTests.BuildStorm

open Python Regex

/-! ## Reading compile records -/

theorem matchedFields_of_recordAt {s t v : Str} (h : RecordAt s t)
    (hv : joinFields (wordsOf (t.dropWhile isSpace)) ++ v = t.dropWhile isSpace) :
    matchedFields s = fieldsAt (t.dropWhile isSpace) :: matchedFields v := by
  rw [matchedFields, ← search, search_of_recordAt h hv, groupsAt,
    List.filterMap_cons_some (fieldsOf_match _ _ _), matchedFields, search]

theorem matchedFields_cons {c : Char} {s : Str} (h : ¬ ∃ t, RecordAt (c :: s) t) :
    matchedFields (c :: s) = matchedFields s := by
  rw [matchedFields, ← search, search_cons h, matchedFields, search]

theorem matchedFields_append_newline {l rest : Str} (h : ¬ (Dangles l ∧ Continues rest)) :
    matchedFields (l ++ '\n' :: rest) = matchedFields l ++ matchedFields rest := by
  rw [matchedFields, ← search, search_append_newline h, List.filterMap_append]
  rfl

/-- Without the word of a record nothing is read. -/
theorem matchedFields_of_unmarked {s : Str} (h : Unmarked s) : matchedFields s = [] := by
  have hnil : compileWord ≠ [] := by decide
  rw [matchedFields, compilePattern, record, finditer_of_not_infix _ none hnil h]
  rfl

/-- What dangles at the end of a line is a word of a record. -/
theorem Dangles.exists_suffix {l : Str} (h : Dangles l) :
    ∃ u, (∀ c ∈ u, isSpace c) ∧ compileWord ++ u <:+ l := by
  induction h with
  | @word u hu => exact ⟨u, hu, List.suffix_refl _⟩
  | skip _ _ ih =>
      obtain ⟨u, hu, hsuffix⟩ := ih
      exact ⟨u, hu, hsuffix.trans (List.suffix_cons _ _)⟩
  | @record s t v hrecord hv _ ih =>
      obtain ⟨u, hu, hsuffix⟩ := ih
      have hdrop : v <:+ t.dropWhile isSpace := ⟨_, hv⟩
      have ht : t <:+ s := ⟨_, hrecord.eq_append.symm⟩
      exact ⟨u, hu, hsuffix.trans (hdrop.trans ((List.dropWhile_suffix _).trans ht))⟩

/-- A line that ends otherwise. -/
theorem not_dangles_concat {l : Str} {c : Char} (hspace : ¬ isSpace c) (hc : c ∉ compileWord) :
    ¬ Dangles (l ++ [c]) := by
  intro h
  obtain ⟨u, hu, r, hr⟩ := h.exists_suffix
  have hmem : c ∈ compileWord ++ u := by
    have hlast := congrArg List.getLast? hr
    have hne : compileWord ++ u ≠ [] := List.append_ne_nil_of_left_ne_nil (by decide) _
    rw [List.getLast?_append_of_ne_nil _ hne, List.getLast?_concat] at hlast
    exact List.mem_of_getLast? hlast
  exact (List.mem_append.mp hmem).elim hc fun hm ↦ hspace (hu c hm)

/-- A line without the word of a record has nothing to read, nor does anything dangle. -/
theorem matchedFields_unmarked_newline {l : Str} (h : Unmarked l) (rest : Str) :
    matchedFields (l ++ '\n' :: rest) = matchedFields rest := by
  have hdangles : ¬ Dangles l := fun hd ↦ by
    obtain ⟨u, _, hsuffix⟩ := hd.exists_suffix
    exact h ((List.prefix_append _ u).isInfix.trans hsuffix.isInfix)
  rw [matchedFields_append_newline fun hd ↦ hdangles hd.1, matchedFields_of_unmarked h,
    List.nil_append]

/-! ## A record behind other output -/

/-- A record in front of the word of another one is in front of it as a whole. -/
theorem prefix_of_prefix_append_compileWord {b s : Str} (hb : b ≠ [])
    (h : compileWord <+: b ++ (compileWord ++ s)) : compileWord <+: b := by
  by_cases hi : compileWord <:+: b
  · rcases List.prefix_or_prefix_of_prefix h (List.prefix_append b _) with hp | hp
    · exact hp
    · rw [hp.eq_of_length (Nat.le_antisymm hp.length_le hi.length_le)]
  · exact absurd h (borderless_compileWord.not_prefix hi (List.suffix_refl b) hb)

theorem dropWhile_append_compileWord (b s : Str) :
    (b ++ (compileWord ++ s)).dropWhile isSpace =
      b.dropWhile isSpace ++ (compileWord ++ s) := by
  have hhead : compileWord = 'B' :: compileWord.tail := by decide
  rw [hhead, List.cons_append]
  exact (takeWhile_append_cons (by decide) b _).2

theorem recordAt_append_iff {b s t : Str} (hb : b ≠ []) :
    RecordAt (b ++ (compileWord ++ s)) t ↔ ∃ b', b = compileWord ++ b' ∧
      t = b' ++ (compileWord ++ s) ∧ b'.head?.map isSpace = some true ∧
        wordsOf (b'.dropWhile isSpace ++ (compileWord ++ s)) ≠ [] := by
  constructor
  · rintro ⟨heq, hhead, hwords⟩
    obtain ⟨b', rfl⟩ := prefix_of_prefix_append_compileWord hb ⟨t, heq.symm⟩
    rw [List.append_assoc, List.append_cancel_left_eq] at heq
    subst heq
    rw [dropWhile_append_compileWord] at hwords
    refine ⟨b', rfl, rfl, ?_, hwords⟩
    cases b' with
    | nil =>
        have hword : compileWord = 'B' :: compileWord.tail := by decide
        rw [hword] at hhead
        exact absurd hhead (by simp; decide)
    | cons c b' => exact hhead
  · rintro ⟨b', rfl, rfl, hhead, hwords⟩
    refine ⟨List.append_assoc _ _ _, ?_, by rwa [dropWhile_append_compileWord]⟩
    cases b' with
    | nil => cases hhead
    | cons c b' => exact hhead

/-- Other output ends with the beginnings of a record: with the word of a record behind it, its
fields take that word in. -/
inductive Unfinished : Str → Fields → Prop
  | record {b t : Str} : RecordAt (b ++ compileWord) t →
      joinFields (wordsOf (t.dropWhile isSpace)) = t.dropWhile isSpace →
        Unfinished b (fieldsAt (t.dropWhile isSpace))
  | finished {b t v : Str} {kv : Fields} : RecordAt (b ++ compileWord) t →
      joinFields (wordsOf (t.dropWhile isSpace)) ++ (v ++ compileWord) = t.dropWhile isSpace →
        Unfinished v kv → Unfinished b kv
  | skip {c : Char} {b : Str} {kv : Fields} : (¬ ∃ t, RecordAt (c :: b ++ compileWord) t) →
      Unfinished b kv → Unfinished (c :: b) kv

section Behind

variable {y : Str}

theorem fieldsAt_eq_of_map {s s' t : Str} (h : (wordsOf s).map Prod.fst =
    (wordsOf s').map Prod.fst ++ (wordsOf t).map Prod.fst) :
    fieldsAt s = fieldsAt t ++ fieldsAt s' := by
  have hfields : ∀ r, fieldsAt r = (((wordsOf r).map Prod.fst).map keyValue).reverse := fun r ↦ by
    rw [fieldsAt, List.map_map]
    rfl
  rw [hfields, h, List.map_append, List.reverse_append, ← hfields, ← hfields]

/-- The fields of other output with a record behind it. -/
theorem wordsOf_append_compileWord (hy : ∀ c ∈ y.head?, ¬ isBlank c) (f : Str) :
    (joinFields (wordsOf (f ++ compileWord)) = f ++ compileWord ∧
        (wordsOf (f ++ (compileWord ++ ' ' :: y))).map Prod.fst =
          (wordsOf (f ++ compileWord)).map Prod.fst ++ (wordsOf y).map Prod.fst ∧
        joinFields (wordsOf (f ++ (compileWord ++ ' ' :: y))) =
          f ++ (compileWord ++ ' ' :: joinFields (wordsOf y))) ∨
      ∃ v, joinFields (wordsOf (f ++ compileWord)) ++ v = f ∧
        wordsOf (f ++ (compileWord ++ ' ' :: y)) = wordsOf (f ++ compileWord) := by
  have hall : ∀ c ∈ compileWord, isToken c := isToken_of_mem_markers List.mem_cons_self
  have hdisjoint : ∀ c, isToken c → ¬ isBlank c := fun c hc hblank ↦
    not_isToken_of_isSpace c (isSpace_of_isBlank hblank) hc
  exact fields_append_word hdisjoint hall (by decide) (by decide) hy f

theorem wordsOf_append_ne_nil_iff (hy : ∀ c ∈ y.head?, ¬ isBlank c) (f : Str) :
    wordsOf (f ++ (compileWord ++ ' ' :: y)) ≠ [] ↔ wordsOf (f ++ compileWord) ≠ [] := by
  rcases wordsOf_append_compileWord hy f with ⟨hjoin, hmap, _⟩ | ⟨_, _, hsame⟩
  · have hne : wordsOf (f ++ compileWord) ≠ [] := by
      intro hnil
      rw [hnil] at hjoin
      exact absurd (List.append_eq_nil_iff.mp hjoin.symm).2 (by decide)
    refine iff_of_true (fun hnil ↦ ?_) hne
    rw [hnil] at hmap
    exact hne (List.map_eq_nil_iff.mp (List.append_eq_nil_iff.mp hmap.symm).1)
  · rw [hsame]

/-- A record in other output that goes on with a record. -/
theorem recordAt_append_record_iff (hy : ∀ c ∈ y.head?, ¬ isBlank c) {b t : Str} (hb : b ≠ []) :
    RecordAt (b ++ compileWord) t ↔
      ∃ r, t = r ++ compileWord ∧
        RecordAt (b ++ (compileWord ++ ' ' :: y)) (r ++ (compileWord ++ ' ' :: y)) := by
  have halone := recordAt_append_iff (s := []) (t := t) hb
  simp only [List.append_nil] at halone
  rw [halone]
  constructor
  · rintro ⟨r, rfl, rfl, hhead, hwords⟩
    exact ⟨r, rfl, (recordAt_append_iff hb).mpr
      ⟨r, rfl, rfl, hhead, (wordsOf_append_ne_nil_iff hy _).mpr hwords⟩⟩
  · rintro ⟨r, rfl, hrecord⟩
    obtain ⟨r', rfl, hr, hhead, hwords⟩ := (recordAt_append_iff hb).mp hrecord
    obtain rfl := List.append_cancel_right hr
    exact ⟨r, rfl, rfl, hhead, (wordsOf_append_ne_nil_iff hy _).mp hwords⟩

theorem ne_nil_of_recordAt_append {b t : Str} (h : RecordAt (b ++ compileWord) t) : b ≠ [] := by
  rintro rfl
  have ht : t = [] := by simpa using h.eq_append
  have hhead := h.isSpace_head
  rw [ht] at hhead
  cases hhead

/-- A record in other output, with a record behind it: either the fields of both are read as those
of one record, or the first ends in the other output. -/
theorem matchedFields_recordAt_append (hy : ∀ c ∈ y.head?, ¬ isBlank c) {b t : Str}
    (h : RecordAt (b ++ compileWord) t) :
    (joinFields (wordsOf (t.dropWhile isSpace)) = t.dropWhile isSpace ∧
        ∀ v, joinFields (wordsOf y) ++ v = y → matchedFields (b ++ (compileWord ++ ' ' :: y)) =
          (fieldsAt y ++ fieldsAt (t.dropWhile isSpace)) :: matchedFields v) ∨
      ∃ v, joinFields (wordsOf (t.dropWhile isSpace)) ++ (v ++ compileWord) =
          t.dropWhile isSpace ∧ v.length < b.length ∧
        matchedFields (b ++ (compileWord ++ ' ' :: y)) =
          fieldsAt (t.dropWhile isSpace) :: matchedFields (v ++ (compileWord ++ ' ' :: y)) := by
  have hb := ne_nil_of_recordAt_append h
  obtain ⟨r, rfl, hrecord⟩ := (recordAt_append_record_iff hy hb).mp h
  have hlen := congrArg List.length h.eq_append
  have hdrop := dropWhile_append_compileWord r []
  rw [List.append_nil] at hdrop
  rw [hdrop]
  rcases wordsOf_append_compileWord hy (r.dropWhile isSpace) with
    ⟨hjoin, hmap, hjoin'⟩ | ⟨v, hv, hsame⟩
  · refine .inl ⟨hjoin, fun v hv ↦ ?_⟩
    have hrest : joinFields (wordsOf ((r ++ (compileWord ++ ' ' :: y)).dropWhile isSpace)) ++ v =
        (r ++ (compileWord ++ ' ' :: y)).dropWhile isSpace := by
      rw [dropWhile_append_compileWord, hjoin', List.append_assoc, List.append_assoc,
        List.cons_append, hv]
    rw [matchedFields_of_recordAt hrecord hrest, dropWhile_append_compileWord,
      fieldsAt_eq_of_map hmap]
  · have hrest : joinFields (wordsOf ((r ++ (compileWord ++ ' ' :: y)).dropWhile isSpace)) ++
        (v ++ (compileWord ++ ' ' :: y)) = (r ++ (compileWord ++ ' ' :: y)).dropWhile isSpace := by
      rw [dropWhile_append_compileWord, hsame, ← List.append_assoc, hv]
    refine .inr ⟨v, by rw [← List.append_assoc, hv], ?_, ?_⟩
    · have hshort := congrArg List.length hv
      have hle := (List.dropWhile_suffix isSpace (l := r)).length_le
      have hpos : 0 < compileWord.length := by decide
      simp only [List.length_append] at hlen hshort
      omega
    · rw [matchedFields_of_recordAt hrecord hrest, dropWhile_append_compileWord, fieldsAt, hsame,
        ← fieldsAt]

theorem not_recordAt_append_record (hy : ∀ c ∈ y.head?, ¬ isBlank c) {c : Char} {b : Str}
    (h : ¬ ∃ t, RecordAt (c :: b ++ compileWord) t) :
    ¬ ∃ t, RecordAt (c :: (b ++ (compileWord ++ ' ' :: y))) t := by
  rintro ⟨t, ht⟩
  have hb : c :: b ≠ [] := List.cons_ne_nil c b
  obtain ⟨r, _, rfl, _⟩ := (recordAt_append_iff hb).mp ht
  exact h ⟨_, (recordAt_append_record_iff hy hb).mpr ⟨r, rfl, ht⟩⟩

/-- Behind an unfinished record a record is read as its continuation. -/
theorem Unfinished.matchedFields_eq {b : Str} {kv : Fields} (h : Unfinished b kv)
    (hy : ∀ c ∈ y.head?, ¬ isBlank c) {v : Str} (hv : joinFields (wordsOf y) ++ v = y) :
    ∃ l, matchedFields (b ++ (compileWord ++ ' ' :: y)) =
      l ++ (fieldsAt y ++ kv) :: matchedFields v := by
  induction h with
  | record hrecord hjoin =>
      rcases matchedFields_recordAt_append hy hrecord with ⟨_, hread⟩ | ⟨w, hw, _⟩
      · exact ⟨[], hread v hv⟩
      · rw [hjoin] at hw
        have hnil := (List.append_eq_nil_iff.mp (List.self_eq_append_right.mp hw.symm)).2
        exact absurd hnil (by decide)
  | @finished b t w kv hrecord hw _ ih =>
      rcases matchedFields_recordAt_append hy hrecord with ⟨hjoin, _⟩ | ⟨w', hw', _, hread⟩
      · rw [hjoin] at hw
        have hnil := (List.append_eq_nil_iff.mp (List.self_eq_append_right.mp hw.symm)).2
        exact absurd hnil (by decide)
      · obtain rfl := List.append_cancel_right (List.append_cancel_left (hw.trans hw'.symm))
        obtain ⟨l, hl⟩ := ih
        exact ⟨_ :: l, by rw [hread, hl, List.cons_append]⟩
  | skip hrecord _ ih =>
      obtain ⟨l, hl⟩ := ih
      have hskip := matchedFields_cons (not_recordAt_append_record hy hrecord)
      exact ⟨l, by rw [List.cons_append, hskip, hl]⟩

/-- Behind other output a record is read for itself. -/
theorem matchedFields_of_not_unfinished {b : Str} (h : ∀ kv, ¬ Unfinished b kv)
    (hy : ∀ c ∈ y.head?, ¬ isBlank c) : ∃ l, matchedFields (b ++ (compileWord ++ ' ' :: y)) =
      l ++ matchedFields (compileWord ++ ' ' :: y) := by
  induction hn : b.length using Nat.strong_induction_on generalizing b with
  | _ n ih =>
  subst hn
  by_cases hrecord : ∃ t, RecordAt (b ++ compileWord) t
  · obtain ⟨t, ht⟩ := hrecord
    rcases matchedFields_recordAt_append hy ht with ⟨hjoin, _⟩ | ⟨v, hv, hshort, hread⟩
    · exact absurd (.record ht hjoin) (h _)
    · obtain ⟨l, hl⟩ := ih v.length hshort (fun kv hkv ↦ h kv (.finished ht hv hkv)) rfl
      exact ⟨_ :: l, by rw [hread, hl, List.cons_append]⟩
  · cases b with
    | nil => exact ⟨[], by rw [List.nil_append, List.nil_append]⟩
    | cons c b =>
        have hnone : ∀ kv, ¬ Unfinished b kv := fun kv hkv ↦ h kv (.skip hrecord hkv)
        obtain ⟨l, hl⟩ := ih b.length (Nat.lt_succ_self _) hnone rfl
        have hskip := matchedFields_cons (not_recordAt_append_record hy hrecord)
        exact ⟨l, by rw [List.cons_append, hskip, hl]⟩

/-- The fields go on behind the text of a record up to the end of its line. -/
theorem exists_rest_of_record {record : Str} (h : Line.WellFormed (.compile record)) (rest : Str) :
    ∃ v, joinFields (wordsOf (record ++ '\n' :: rest)) ++ v = record ++ '\n' :: rest ∧
      matchedFields v = matchedFields rest := by
  have hwords : wordsOf (record ++ '\n' :: rest) = wordsOf record :=
    fields_append_cons (by decide) (by decide) record rest
  obtain ⟨v, hv⟩ := joinFields_prefix isToken isBlank '=' record
  have hmarker : compileWord ∈ markers := List.mem_cons_self
  have hsuffix : v <:+ record := ⟨_, hv⟩
  have hunmarked : Unmarked v := fun hi ↦ h.1 compileWord hmarker (hi.trans hsuffix.isInfix)
  refine ⟨v ++ '\n' :: rest, ?_, matchedFields_unmarked_newline hunmarked rest⟩
  rw [hwords, ← List.append_assoc, hv]

theorem text_compile_append (record rest : Str) : (Line.compile record).text ++ rest =
    compileWord ++ ' ' :: (record ++ '\n' :: rest) := by
  simp [Line.text, Line.content]

/-- What is read from a record is not white space. -/
theorem isToken_head {s : Str} (h : wordsOf s ≠ []) : ∃ c, s.head? = some c ∧ isToken c := by
  by_contra hnone
  exact h (fields_of_head fun c hc ht ↦ hnone ⟨c, hc, ht⟩)

theorem head_record {record : Str} (h : Line.WellFormed (.compile record)) (rest : Str) :
    ∀ c ∈ (record ++ '\n' :: rest).head?, isToken c := by
  obtain ⟨d, hd, htoken⟩ := isToken_head h.2
  have hne : record ≠ [] := by
    rintro rfl
    cases hd
  rw [List.head?_append_of_ne_nil _ hne, hd]
  rintro c ⟨⟩
  exact htoken

/-- A record of the script. -/
theorem matchedFields_compile {record : Str} (h : Line.WellFormed (.compile record)) (rest : Str) :
    matchedFields ((Line.compile record).text ++ rest) =
      fieldsAt record :: matchedFields rest := by
  obtain ⟨v, hv, hrest⟩ := exists_rest_of_record h rest
  have hhead := head_record h rest
  have hwords : wordsOf (record ++ '\n' :: rest) ≠ [] := by
    rw [wordsOf_append_newline]
    exact h.2
  have hdrop : (' ' :: (record ++ '\n' :: rest)).dropWhile isSpace = record ++ '\n' :: rest := by
    rw [List.dropWhile_cons_of_pos (by decide)]
    exact (takeWhile_word (u := []) (by simp) fun c hc hs ↦
      not_isToken_of_isSpace c hs (hhead c hc)).2
  have hrecord : RecordAt (compileWord ++ ' ' :: (record ++ '\n' :: rest))
      (' ' :: (record ++ '\n' :: rest)) := ⟨rfl, rfl, by rwa [hdrop]⟩
  rw [text_compile_append, matchedFields_of_recordAt hrecord (by rwa [hdrop]), hdrop, hrest,
    fieldsAt_append_newline]

/-- The fields that other output puts in front of those of a record behind it. -/
def Precedes (b : Str) (kv : Fields) : Prop :=
  Unfinished b kv ∨ kv = [] ∧ ∀ kv', ¬ Unfinished b kv'

theorem exists_precedes (b : Str) : ∃ kv, Precedes b kv := by
  by_cases h : ∃ kv, Unfinished b kv
  · obtain ⟨kv, hkv⟩ := h
    exact ⟨kv, .inl hkv⟩
  · exact ⟨[], .inr ⟨rfl, not_exists.mp h⟩⟩

theorem not_unfinished_nil (kv : Fields) : ¬ Unfinished [] kv := by
  intro h
  cases h with
  | record hrecord _ => exact ne_nil_of_recordAt_append hrecord rfl
  | finished hrecord _ _ => exact ne_nil_of_recordAt_append hrecord rfl

theorem precedes_nil : Precedes [] [] := .inr ⟨rfl, not_unfinished_nil⟩

/-- The record of the script behind other output. -/
theorem Precedes.matchedFields_eq {record b : Str} {kv : Fields} (hkv : Precedes b kv)
    (h : Line.WellFormed (.compile record)) (rest : Str) :
    ∃ l, matchedFields (b ++ ((Line.compile record).text ++ rest)) =
      l ++ (fieldsAt record ++ kv) :: matchedFields rest := by
  have hy : ∀ c ∈ (record ++ '\n' :: rest).head?, ¬ isBlank c := fun c hc hblank ↦
    not_isToken_of_isSpace c (isSpace_of_isBlank hblank) (head_record h rest c hc)
  rcases hkv with hkv | ⟨rfl, hnone⟩
  · obtain ⟨v, hv, hrest⟩ := exists_rest_of_record h rest
    obtain ⟨l, hl⟩ := hkv.matchedFields_eq hy hv
    exact ⟨l, by rw [text_compile_append, hl, hrest, fieldsAt_append_newline]⟩
  · rw [List.append_nil, ← matchedFields_compile h, text_compile_append]
    exact matchedFields_of_not_unfinished hnone hy

end Behind

/-! ## Records of the environment -/

section Env

variable [Unicode] {tag : Str}

/-- A part of the environment is announced somewhere in a text. -/
def Announced (tag s : Str) : Prop := ∃ s' t r, s' <:+ s ∧ AnnouncedAt tag s' t r

theorem foundFrom_iff {b : Option Char} {s : Str} :
    foundFrom (envPattern tag) b s ↔ Announced tag s := by
  rw [foundFrom, List.any_eq_true]
  constructor
  · rintro ⟨⟨b', s'⟩, hplace, hrun⟩
    obtain ⟨t, r, h⟩ := run_envPattern_ne_nil_iff.mp (of_decide_eq_true hrun)
    have hmem : s' ∈ s.tails := map_rest_places b s ▸ List.mem_map_of_mem hplace
    exact ⟨s', t, r, (List.mem_tails _ _).mp hmem, h⟩
  · rintro ⟨s', t, r, hs, h⟩
    have hmem : s' ∈ s.tails := (List.mem_tails _ _).mpr hs
    rw [← map_rest_places b s] at hmem
    obtain ⟨⟨b', s'⟩, hplace, rfl⟩ := List.mem_map.mp hmem
    exact ⟨_, hplace, decide_eq_true (run_envPattern_ne_nil_iff.mpr ⟨t, r, h⟩)⟩

theorem found_iff_announced {s : Str} : found (envPattern tag) s ↔ Announced tag s := by
  rw [found_eq_foundFrom]
  exact foundFrom_iff

/-- A line of the script. -/
theorem announced_line (htag : tag ∈ tags) {line : Line} (hline : line.WellFormed) (s : Str) :
    Announced tag (line.text ++ s) ↔ announces tag line ∨ Announced tag s := by
  rw [← foundFrom_iff (b := none), foundFrom_line htag hline, Bool.or_eq_true, foundFrom_iff]

/-- Other output, with the character `c` right behind it, announces a part of the environment. -/
def Announces (tag u : Str) (c : Char) : Prop :=
  ∃ a w r, u = a ++ (envWord tag ++ (w ++ (lit "ok" ++ r))) ∧ w ≠ [] ∧ (∀ d ∈ w, isSpace d) ∧
    (r ++ [c]).head?.map isWord ≠ some true

/-- A record that starts in other output. -/
theorem announcedAt_append_iff {u s : Str} {c : Char} (hspace : ¬ isSpace c) (hok : c ∉ lit "ok") :
    (∃ t r, AnnouncedAt tag (envWord tag ++ (u ++ c :: s)) t r) ↔
      ∃ w r, u = w ++ (lit "ok" ++ r) ∧ w ≠ [] ∧ (∀ d ∈ w, isSpace d) ∧
        (r ++ [c]).head?.map isWord ≠ some true := by
  have hhead : ∀ r : Str, (r ++ c :: s).head? = (r ++ [c]).head? := fun r ↦ by
    cases r <;> rfl
  have hdrop := (takeWhile_append_cons hspace u s).2
  constructor
  · rintro ⟨t, r, heq, hfirst, hword, hlast⟩
    obtain rfl := List.append_cancel_left heq
    rw [hdrop] at hword
    obtain ⟨r', hr'⟩ := prefix_of_prefix_append_cons hok ⟨r, hword.symm⟩
    rw [← hr', List.append_assoc] at hword
    obtain rfl := (List.append_cancel_left hword).symm
    refine ⟨u.takeWhile isSpace, r', ?_, ?_, fun d hd ↦ List.mem_takeWhile_imp hd, ?_⟩
    · rw [hr', List.takeWhile_append_dropWhile]
    · cases u with
      | nil => simp [hspace] at hfirst
      | cons d u =>
          have hd : isSpace d := by simpa using hfirst
          rw [List.takeWhile_cons_of_pos hd]
          exact List.cons_ne_nil _ _
    · rwa [← hhead]
  · rintro ⟨w, r, rfl, hne, hw, hlast⟩
    refine ⟨_, r ++ c :: s, rfl, ?_, ?_, by rwa [hhead]⟩
    · obtain ⟨d, w, rfl⟩ := List.exists_cons_of_ne_nil hne
      simpa using hw d List.mem_cons_self
    · have hlit : lit "ok" = 'o' :: lit "k" := by decide
      rw [hdrop, List.dropWhile_append_of_pos hw, hlit, List.cons_append,
        List.dropWhile_cons_of_neg (by decide)]
      simp

/-- Other output in front of a text into which no record reaches. -/
theorem announced_append_iff {u s : Str} {c : Char} (hspace : ¬ isSpace c) (hok : c ∉ lit "ok")
    (hstraddle : ∀ t, t ≠ [] → Starts (envWord tag) (t ++ c :: s) → envWord tag <+: t) :
    Announced tag (u ++ c :: s) ↔ Announces tag u c ∨ Announced tag (c :: s) := by
  constructor
  · rintro ⟨s', t, r, hs, h⟩
    rcases List.suffix_or_suffix_of_suffix hs (List.suffix_append u (c :: s)) with hs | ⟨u', rfl⟩
    · exact .inr ⟨s', t, r, hs, h⟩
    · by_cases hne : u' = []
      · subst hne
        exact .inr ⟨_, t, r, List.suffix_refl _, h⟩
      · have hstarts : Starts (envWord tag) (u' ++ c :: s) :=
          starts_of_run_ne_nil (b := none) (run_envPattern_ne_nil_iff.mpr ⟨t, r, h⟩)
        obtain ⟨u'', rfl⟩ := hstraddle u' hne hstarts
        rw [List.append_assoc] at h
        obtain ⟨w, r, rfl, hw⟩ := (announcedAt_append_iff hspace hok).mp ⟨t, _, h⟩
        obtain ⟨a, ha⟩ := hs
        rw [← List.append_assoc] at ha
        exact .inl ⟨a, w, r, (List.append_cancel_right ha).symm, hw⟩
  · rintro (⟨a, w, r, rfl, hw⟩ | ⟨s', t, r, hs, h⟩)
    · have hrecord : ∃ t r',
          AnnouncedAt tag (envWord tag ++ (w ++ (lit "ok" ++ r) ++ c :: s)) t r' :=
        (announcedAt_append_iff hspace hok).mpr ⟨w, r, rfl, hw⟩
      obtain ⟨t, r, h⟩ := hrecord
      exact ⟨_, t, r, ⟨a, by simp⟩, h⟩
    · exact ⟨s', t, r, hs.trans (List.suffix_append u _), h⟩

/-- Other output in front of a line of the script. -/
theorem announced_append_line (htag : tag ∈ tags) {line : Line} (hline : line.WellFormed) {c : Char}
    {l : Str} (hc : line.content = c :: l) (hspace : ¬ isSpace c) (hok : c ∉ lit "ok") (u s : Str) :
    Announced tag (u ++ (line.text ++ s)) ↔
      Announces tag u c ∨ announces tag line ∨ Announced tag s := by
  have htext : line.text ++ s = c :: (l ++ '\n' :: s) := by
    rw [Line.text, hc]
    simp
  have hword : envWord tag ∈ markers := List.mem_cons_of_mem _ (List.mem_map_of_mem htag)
  rw [← announced_line htag hline s, htext]
  refine announced_append_iff hspace hok fun t hne h ↦ ?_
  rw [← htext] at h
  exact prefix_of_starts_line hword hne hline h

/-- A fixed line without the words of the records announces nothing. -/
theorem announced_markerless_newline (htag : tag ∈ tags) {l : Str} (h : Markerless l) (s : Str) :
    Announced tag (l ++ '\n' :: s) ↔ Announced tag s := by
  have hword : envWord tag ∈ markers := List.mem_cons_of_mem _ (List.mem_map_of_mem htag)
  have hnewline : '\n' ∉ envWord tag := fun hm ↦
    absurd (isToken_of_mem_markers hword _ hm) (by decide)
  have hskip : foundFrom (envPattern tag) none (l ++ '\n' :: s) =
      foundFrom (envPattern tag) (l.getLast?.or none) ('\n' :: s) := by
    refine foundFrom_append_of_nil none fun b t ht _ ↦ ?_
    by_contra hrun
    exact not_starts_append_cons (h _ hword) ht hnewline s (starts_of_run_ne_nil hrun)
  rw [← foundFrom_iff (b := none), hskip, foundFrom_space isSpace_lineEnd.2, foundFrom_iff]

theorem not_announced_nil : ¬ Announced tag [] := by
  rintro ⟨s, t, r, hs, h⟩
  rw [List.suffix_nil.mp hs] at h
  exact envWord_ne_nil tag (List.append_eq_nil_iff.mp h.eq_append.symm).1

end Env

end KernelTests.BuildStorm
