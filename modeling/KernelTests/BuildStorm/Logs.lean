import KernelTests.BuildStorm.Records

/-!
# Logs of the test script

A log of the build tests is other output with lines of the script in between.  The
other output ends where it likes, so a line of the script may follow it on the same
line of the log.  As long as none of the words the judge looks for occurs in the other
output, the judge sees the lines of the script and nothing else.
-/

namespace KernelTests.BuildStorm

open Python Regex

/-! ## Lines of the script -/

/-- The parts of the environment. -/
def tags : List Str := envPts.map Prod.fst

/-- The words the judge looks for. -/
def markers : List Str := compileWord :: tags.map envWord

/-- No word the judge looks for occurs. -/
def Markerless (s : Str) : Prop := ∀ w ∈ markers, ¬ w <:+: s

instance : DecidablePred Markerless := fun _ ↦ List.decidableBAll _ markers

/-- What the script prints itself. -/
inductive Line where
  /-- The record of a part of the environment. -/
  | env (tag : Str) (ok : Bool)
  /-- A compile record, with the text behind its word. -/
  | compile (record : Str)
  /-- The last line. -/
  | finish

/-- The line that ends a log. -/
def endLine : Str := lit "#### OS COMP TEST GROUP END buildstorm ####"

/-- A line, without the newline at its end. -/
def Line.content : Line → Str
  | .env tag ok => envWord tag ++ ' ' :: (if ok then lit "ok" else lit "fail")
  | .compile record => compileWord ++ ' ' :: record
  | .finish => endLine

/-- A line as it is printed. -/
def Line.text (line : Line) : Str := line.content ++ ['\n']

/-- A log: other output, each followed by a line of the script. -/
def logOf (pieces : List (Str × Line)) : Str := pieces.flatMap fun p ↦ p.1 ++ p.2.text

/-- A line that the judge can read. -/
def Line.WellFormed : Line → Prop
  | .env tag _ => tag ∈ tags
  | .compile record => Markerless record ∧ wordsOf record ≠ []
  | .finish => True

theorem logOf_append (l l' : List (Str × Line)) : logOf (l ++ l') = logOf l ++ logOf l' :=
  List.flatMap_append

/-! ## Where a record may start -/

/-- The words of the records contain no white space. -/
theorem isToken_of_mem_markers {w : Str} (hw : w ∈ markers) : ∀ c ∈ w, isToken c := by
  have hall : markers.all fun w ↦ w.all isToken := by decide
  exact List.all_eq_true.mp (List.all_eq_true.mp hall w hw)

/-- None of the words contains another one. -/
theorem eq_of_infix_markers {w c : Str} (hw : w ∈ markers) (hc : c ∈ markers) (h : c <:+: w) :
    c = w := by
  have hall : markers.all fun w ↦ markers.all fun c ↦ !decide (c <:+: w) || c = w := by decide
  have := List.all_eq_true.mp (List.all_eq_true.mp hall w hw) c hc
  simpa [h] using this

/-- A record with the word `w` may start here: there is white space behind the word. -/
def Starts (w s : Str) : Prop := ∃ d, isSpace d ∧ w ++ [d] <+: s

theorem Starts.isPrefix {w s : Str} (h : Starts w s) : w <+: s := by
  obtain ⟨d, _, hp⟩ := h
  exact (List.prefix_append w [d]).trans hp

/-- A word with white space behind it does not straddle the start of another record. -/
theorem prefix_of_starts_straddle {w c t s : Str} (hw : w ∈ markers) (hc : c ∈ markers)
    (hne : t ≠ []) (h : Starts w (t ++ (c ++ s))) : w <+: t := by
  obtain ⟨d, hd, hp⟩ := h
  have hcd : d ∉ c := fun hm ↦ not_isToken_of_isSpace d hd (isToken_of_mem_markers hc d hm)
  rcases List.prefix_or_prefix_of_prefix ((List.prefix_append w [d]).trans hp)
    (List.prefix_append t (c ++ s)) with hwt | ⟨r, rfl⟩
  · exact hwt
  · rw [List.append_assoc, List.prefix_append_right_inj] at hp
    rcases List.prefix_or_prefix_of_prefix hp (List.prefix_append c s) with hrc | hcr
    · exact absurd (hrc.subset (by simp)) hcd
    · rcases List.prefix_concat_iff.mp hcr with he | hcr
      · exact absurd (by rw [he]; simp) hcd
      · have he := eq_of_infix_markers hw hc (hcr.isInfix.trans (List.suffix_append t r).isInfix)
        have hlen := hcr.length_le
        have hpos := List.length_pos_of_ne_nil hne
        rw [he, List.length_append] at hlen
        omega

theorem not_starts_append_cons {w u t : Str} {c : Char} (hu : ¬ w <:+: u) (ht : t <:+ u)
    (hc : c ∉ w) (s : Str) : ¬ Starts w (t ++ c :: s) := fun h ↦
  hu ((prefix_of_prefix_append_cons hc h.isPrefix).isInfix.trans ht.isInfix)

/-- Nor does it straddle the start of a line. -/
theorem prefix_of_starts_line {w t s : Str} (hw : w ∈ markers) (hne : t ≠ []) {line : Line}
    (hline : line.WellFormed) (h : Starts w (t ++ (line.text ++ s))) : w <+: t := by
  cases line with
  | env tag ok =>
      have htag : envWord tag ∈ markers := List.mem_cons_of_mem _ (List.mem_map_of_mem hline)
      simp only [Line.text, Line.content, List.append_assoc] at h
      exact prefix_of_starts_straddle hw htag hne h
  | compile record =>
      simp only [Line.text, Line.content, List.append_assoc] at h
      exact prefix_of_starts_straddle hw List.mem_cons_self hne h
  | finish =>
      have hend : endLine = '#' :: endLine.tail := by decide
      have hhash : markers.all fun w ↦ '#' ∉ w := by decide
      rw [Line.text, Line.content, hend] at h
      exact prefix_of_prefix_append_cons (by simpa using List.all_eq_true.mp hhash w hw) h.isPrefix

/-- In other output in front of a line no record starts. -/
theorem not_starts_other {w u t : Str} (hw : w ∈ markers) (hu : Markerless u) (ht : t <:+ u)
    (hne : t ≠ []) {line : Line} (hline : line.WellFormed) (s : Str) :
    ¬ Starts w (t ++ (line.text ++ s)) := fun h ↦
  hu w hw ((prefix_of_starts_line hw hne hline h).isInfix.trans ht.isInfix)

/-- Behind the first character of a line no record starts. -/
theorem not_starts_content {w t : Str} (hw : w ∈ markers) {line : Line} (hline : line.WellFormed)
    (ht : t <:+ line.content.tail) (s : Str) : ¬ Starts w (t ++ '\n' :: s) := by
  have hnewline : '\n' ∉ w := fun hm ↦ absurd (isToken_of_mem_markers hw _ hm) (by decide)
  refine not_starts_append_cons ?_ ht hnewline s
  have hmarkers : markers.all fun w ↦ w ≠ [] ∧ ' ' ∉ w ∧ ¬ w <:+: compileWord.tail ∧
      ¬ w <:+: endLine.tail := by decide
  have hfixed := of_decide_eq_true (List.all_eq_true.mp hmarkers w hw)
  cases line with
  | env tag ok =>
      have hall : tags.all fun tag ↦ [false, true].all fun ok ↦ markers.all fun w ↦
          !decide (w <:+: (Line.env tag ok).content.tail) := by decide
      have htag := List.all_eq_true.mp hall tag hline
      have hok := List.all_eq_true.mp htag ok (by cases ok <;> simp)
      simpa using List.all_eq_true.mp hok w hw
  | compile record =>
      have hcontent : (Line.compile record).content.tail = compileWord.tail ++ ' ' :: record := by
        rw [Line.content, show compileWord = 'B' :: compileWord.tail by decide]
        rfl
      rw [hcontent, Text.infix_append_cons_iff hfixed.1 hfixed.2.1]
      exact not_or.mpr ⟨hfixed.2.2.1, hline.1 w hw⟩
  | finish => exact hfixed.2.2.2

/-! ## Matches at a line -/

theorem envWord_ne_nil (tag : Str) : envWord tag ≠ [] := by
  rw [envWord, show lit "BUILDSTORM_" = 'B' :: lit "UILDSTORM_" by decide]
  exact List.cons_ne_nil _ _

/-- A record can only start a line with its own word. -/
theorem word_eq_of_starts {w c x : Str} (hw : w ∈ markers) (hc : c ∈ markers) {s : Str}
    (h : Starts w (c ++ ' ' :: (x ++ '\n' :: s))) : w = c := by
  have hblank : ' ' ∉ w := fun hm ↦ absurd (isToken_of_mem_markers hw _ hm) (by decide)
  exact eq_of_infix_markers hc hw (prefix_of_prefix_append_cons hblank h.isPrefix).isInfix

section Env

variable [Unicode] {tag : Str}

/-- Where the pattern of a tag matches, its word stands. -/
theorem starts_of_run_ne_nil {b : Option Char} {s : Str} (h : run (envPattern tag) ⟨b, s⟩ ≠ []) :
    Starts (envWord tag) s := by
  by_cases hw : envWord tag <+: s
  · obtain ⟨s, rfl⟩ := hw
    rw [envPattern, run, run_word_append, List.flatMap_singleton, run] at h
    cases s with
    | nil => exact absurd rfl h
    | cons d s =>
        by_cases hd : isSpace d
        · exact ⟨d, hd, s, by simp⟩
        · rw [run_plus_char_of_neg (by simpa using hd)] at h
          exact absurd rfl h
  · rw [envPattern, run, run_word, if_neg hw] at h
    exact absurd rfl h

theorem isWord_k : isWord 'k' := by
  rw [isWord, Unicode.isAlnum_ascii 'k' (by decide)]
  decide

theorem not_isWord_newline : isWord '\n' = false := by
  rw [isWord, Unicode.isAlnum_ascii '\n' (by decide)]
  decide

omit [Unicode] in
theorem Line.content_ne_nil (line : Line) : line.content ≠ [] := by
  cases line with
  | env tag ok => exact List.append_ne_nil_of_left_ne_nil (envWord_ne_nil tag) _
  | compile record => exact List.append_ne_nil_of_right_ne_nil _ (List.cons_ne_nil _ _)
  | finish => decide

/-- The pattern at the start of a record: it matches exactly if the record says `ok`. -/
theorem run_envPattern_line (b : Option Char) (ok : Bool) (s : Str) :
    run (envPattern tag) ⟨b, (Line.env tag ok).text ++ s⟩ ≠ [] ↔ ok := by
  have hstatus : ∀ v : Str, (∀ c ∈ v.head?, ¬ isSpace c) →
      run (envPattern tag) ⟨b, envWord tag ++ ' ' :: v⟩ =
        run (.seq (.word (lit "ok")) (.boundary isWord)) ⟨some ' ', v⟩ := by
    intro v hv
    rw [envPattern, run, run_word_append, List.flatMap_singleton, run,
      run_plus_char_single (by decide) hv, List.flatMap_singleton]
  cases ok with
  | true =>
      have htext : (Line.env tag true).text ++ s =
          envWord tag ++ ' ' :: (lit "ok" ++ '\n' :: s) := by
        simp [Line.text, Line.content]
      have hboundary : AtBoundary isWord ⟨(lit "ok").getLast?.or (some ' '), '\n' :: s⟩ := by
        have hlast : (lit "ok").getLast?.or (some ' ') = some 'k' := by decide
        rw [AtBoundary, hlast]
        simp [isWord_k, not_isWord_newline]
      have hhead : ∀ c ∈ (lit "ok" ++ '\n' :: s).head?, ¬ isSpace c := by
        rw [show lit "ok" = 'o' :: lit "k" by decide]
        rintro c ⟨⟩
        decide
      rw [htext, hstatus _ hhead, run, run_word_append, List.flatMap_singleton, run,
        if_pos hboundary]
      simp
  | false =>
      have htext : (Line.env tag false).text ++ s =
          envWord tag ++ ' ' :: (lit "fail" ++ '\n' :: s) := by
        simp [Line.text, Line.content]
      have hfail : ¬ lit "ok" <+: lit "fail" ++ '\n' :: s :=
        Text.not_prefix_append (by decide) (by decide) _
      have hhead : ∀ c ∈ (lit "fail" ++ '\n' :: s).head?, ¬ isSpace c := by
        rw [show lit "fail" = 'f' :: lit "ail" by decide]
        rintro c ⟨⟩
        decide
      rw [htext, hstatus _ hhead, run, run_word, if_neg hfail]
      simp

/-- At the start of another line the pattern does not match. -/
theorem run_envPattern_other (htag : tag ∈ tags) {line : Line} (hline : line.WellFormed)
    (hne : ∀ ok, line ≠ .env tag ok) (b : Option Char) (s : Str) :
    run (envPattern tag) ⟨b, line.text ++ s⟩ = [] := by
  have hword : envWord tag ∈ markers := List.mem_cons_of_mem _ (List.mem_map_of_mem htag)
  by_contra hrun
  have hstarts := starts_of_run_ne_nil hrun
  simp only [Line.text, List.append_assoc, List.cons_append, List.nil_append] at hstarts
  cases line with
  | env tag' ok =>
      simp only [Line.content, List.append_assoc, List.cons_append] at hstarts
      have he := word_eq_of_starts hword (List.mem_cons_of_mem _ (List.mem_map_of_mem hline)) hstarts
      exact hne ok (by rw [List.append_cancel_left he])
  | compile record =>
      simp only [Line.content, List.append_assoc, List.cons_append] at hstarts
      have he := word_eq_of_starts hword List.mem_cons_self hstarts
      have hall : tags.all fun tag ↦ envWord tag ≠ compileWord := by decide
      exact of_decide_eq_true (List.all_eq_true.mp hall tag htag) he
  | finish =>
      have hall : markers.all fun w ↦ ¬ w <:+: endLine := by decide
      have hnewline : '\n' ∉ envWord tag := fun hm ↦
        absurd (isToken_of_mem_markers hword _ hm) (by decide)
      exact not_starts_append_cons (of_decide_eq_true (List.all_eq_true.mp hall _ hword))
        (List.suffix_refl _) hnewline s hstarts

/-- The line says that the part of the environment is there. -/
def announces (tag : Str) : Line → Bool
  | .env tag' ok => tag' = tag && ok
  | _ => false

/-- Searching over a line of the script. -/
theorem foundFrom_line (htag : tag ∈ tags) {line : Line} (hline : line.WellFormed)
    (b : Option Char) (s : Str) : foundFrom (envPattern tag) b (line.text ++ s) =
      (announces tag line || foundFrom (envPattern tag) (some '\n') s) := by
  have hword : envWord tag ∈ markers := List.mem_cons_of_mem _ (List.mem_map_of_mem htag)
  have hhead : decide (run (envPattern tag) ⟨b, line.text ++ s⟩ ≠ []) = announces tag line := by
    by_cases hown : ∃ ok, line = .env tag ok
    · obtain ⟨ok, rfl⟩ := hown
      simp only [run_envPattern_line, announces]
      simp
    · have hnone := run_envPattern_other htag hline (not_exists.mp hown) b s
      cases line with
      | env tag' ok =>
          have hne : tag' ≠ tag := fun he ↦ hown ⟨ok, he ▸ rfl⟩
          simp [hnone, announces, hne]
      | compile record => simp [hnone, announces]
      | finish => simp [hnone, announces]
  obtain ⟨c, hc⟩ : ∃ c, line.content = c :: line.content.tail :=
    ⟨_, (List.cons_head_tail line.content_ne_nil).symm⟩
  have htext : line.text ++ s = c :: (line.content.tail ++ '\n' :: s) := by
    rw [Line.text, hc]
    simp
  have hnewline : ∀ b', run (envPattern tag) ⟨b', '\n' :: s⟩ = [] := by
    intro b'
    by_contra hrun
    exact not_starts_content hword hline List.nil_suffix s (starts_of_run_ne_nil hrun)
  rw [htext] at hhead ⊢
  rw [foundFrom_cons, hhead, foundFrom_append_of_nil, foundFrom_cons, hnewline]
  · rfl
  · intro b' t ht _
    by_contra hrun
    exact not_starts_content hword hline ht s (starts_of_run_ne_nil hrun)

/-- A log of lines and other output. -/
def WellFormed (pieces : List (Str × Line)) : Prop :=
  ∀ p ∈ pieces, Markerless p.1 ∧ p.2.WellFormed

/-- The part of the environment is found exactly if a line announces it. -/
theorem found_logOf (htag : tag ∈ tags) {pieces : List (Str × Line)} (h : WellFormed pieces)
    {last : Str} (hlast : Markerless last) :
    found (envPattern tag) (logOf pieces ++ last) = pieces.any fun p ↦ announces tag p.2 := by
  have hword : envWord tag ∈ markers := List.mem_cons_of_mem _ (List.mem_map_of_mem htag)
  rw [found_eq_foundFrom]
  suffices hall : ∀ b, foundFrom (envPattern tag) b (logOf pieces ++ last) =
      pieces.any fun p ↦ announces tag p.2 from hall none
  intro b
  induction pieces generalizing b with
  | nil =>
      have hskip : ∀ b t, t <:+ last → run (envPattern tag) ⟨b, t⟩ = [] := by
        intro b t ht
        by_contra hrun
        exact hlast _ hword ((starts_of_run_ne_nil hrun).isPrefix.isInfix.trans ht.isInfix)
      have hover := foundFrom_append_of_nil (r := envPattern tag) b (u := last) (v := [])
        fun b t ht _ ↦ (List.append_nil t).symm ▸ hskip b t ht
      rw [List.append_nil] at hover
      rw [logOf, List.flatMap_nil, List.nil_append, hover]
      simp [foundFrom, places, hskip _ _ List.nil_suffix]
  | cons p pieces ih =>
      obtain ⟨⟨hother, hline⟩, hpieces⟩ := List.forall_mem_cons.mp h
      rw [logOf, List.flatMap_cons, ← logOf, List.append_assoc, List.append_assoc,
        foundFrom_append_of_nil, foundFrom_line htag hline, ih hpieces, List.any_cons]
      intro b' t ht hne
      by_contra hrun
      exact not_starts_other hword hother ht hne hline _ (starts_of_run_ne_nil hrun)

end Env

/-! ## Compile records in a log -/

/-- The text of a compile record. -/
def Line.record? : Line → Option Str
  | .compile record => some record
  | _ => none

/-- Where the pattern of a compile record matches, its word stands. -/
theorem starts_of_matchAt_eq_some {b : Option Char} {s : Str} {ys : List (Cursor Char)}
    (h : matchAt compilePattern ⟨b, s⟩ = some ys) : Starts compileWord s := by
  obtain ⟨u, t, rfl, hu, hne, _⟩ := groups_of_matchAt_record isToken_equals not_isToken_of_isSpace h
  obtain ⟨d, u, rfl⟩ := List.exists_cons_of_ne_nil hne
  exact ⟨d, hu d List.mem_cons_self, u ++ t, by simp⟩

theorem matchAt_of_not_starts {s : Str} (h : ¬ Starts compileWord s) (b : Option Char) :
    matchAt compilePattern ⟨b, s⟩ = none := by
  by_contra hne
  obtain ⟨ys, hys⟩ := Option.ne_none_iff_exists'.mp hne
  exact h (starts_of_matchAt_eq_some hys)

/-- A newline is passed over. -/
theorem finditer_newline (b : Option Char) (s : Str) :
    finditer compilePattern 0 b ('\n' :: s) = finditer compilePattern 0 (some '\n') s := by
  have hnone := matchAt_of_not_starts
    (not_starts_append_cons (w := compileWord) (u := []) (by decide) List.nil_suffix
      (by decide : '\n' ∉ compileWord) s) b
  rw [List.nil_append] at hnone
  rw [finditer, hnone]

/-- Reading over a line of the script. -/
theorem finditer_line {line : Line} (hline : line.WellFormed) (b : Option Char) (s : Str) :
    (finditer compilePattern 0 b (line.text ++ s)).filterMap fieldsOf =
      line.record?.toList.map fieldsAt ++
        (finditer compilePattern 0 (some '\n') s).filterMap fieldsOf := by
  have hskip : ¬ compileWord <:+: line.content → (finditer compilePattern 0 b (line.text ++ s)) =
      finditer compilePattern 0 (some '\n') s := by
    intro h
    rw [Line.text, List.append_assoc, List.singleton_append, finditer_append_of_none,
      finditer_newline]
    intro b' t ht _
    exact matchAt_of_not_starts (not_starts_append_cons h ht (by decide) s) b'
  cases line with
  | env tag ok =>
      have hall : tags.all fun tag ↦ [false, true].all fun ok ↦
          !decide (compileWord <:+: (Line.env tag ok).content) := by decide
      have hok := List.all_eq_true.mp (List.all_eq_true.mp hall tag hline) ok (by cases ok <;> simp)
      rw [hskip (by simpa using hok)]
      rfl
  | compile record =>
      obtain ⟨b', hb'⟩ := finditer_recordLine b (hline.1 _ List.mem_cons_self) hline.2 s
      have htext : (Line.compile record).text = recordLine record := by
        simp [Line.text, Line.content, recordLine]
      rw [htext, hb', List.filterMap_cons_some (fieldsOf_match _ _ _), finditer_newline]
      rfl
  | finish =>
      have hend : ¬ compileWord <:+: Line.finish.content := by decide
      rw [hskip hend]
      rfl

/-- The fields that are read from a log are those of its compile records. -/
theorem matchedFields_logOf {pieces : List (Str × Line)} (h : WellFormed pieces) {last : Str}
    (hlast : Markerless last) : matchedFields (logOf pieces ++ last) =
      (pieces.filterMap fun p ↦ p.2.record?).map fieldsAt := by
  suffices hall : ∀ b, (finditer compilePattern 0 b (logOf pieces ++ last)).filterMap fieldsOf =
      (pieces.filterMap fun p ↦ p.2.record?).map fieldsAt from hall none
  intro b
  induction pieces generalizing b with
  | nil =>
      have hnil : compileWord ≠ [] := by decide
      rw [logOf, List.flatMap_nil, List.nil_append, compilePattern, record,
        finditer_of_not_infix _ b hnil (hlast _ List.mem_cons_self)]
      rfl
  | cons p pieces ih =>
      obtain ⟨⟨hother, hline⟩, hpieces⟩ := List.forall_mem_cons.mp h
      have hskip : ∀ b t, t <:+ p.1 → t ≠ [] →
          matchAt compilePattern ⟨b, t ++ (p.2.text ++ (logOf pieces ++ last))⟩ = none :=
        fun b t ht hne ↦
          matchAt_of_not_starts (not_starts_other List.mem_cons_self hother ht hne hline _) b
      rw [logOf, List.flatMap_cons, ← logOf, List.append_assoc, List.append_assoc,
        finditer_append_of_none _ _ hskip, finditer_line hline, ih hpieces]
      cases hrecord : p.2.record? with
      | none => simp [hrecord]
      | some record => simp [hrecord]

/-! ## The verdict on a log -/

variable [Unicode]

/-- The results, from what was announced and from the fields of the last compile record. -/
def verdictOf (baselines : Baselines) (toolchain minibuild : Bool) (kv : Fields) :
    Option (List Result) :=
  if BadCores kv then none
  else some [binaryResult (lit "buildstorm env toolchain") 8 toolchain,
    binaryResult (lit "buildstorm env minibuild") 12 minibuild,
    binaryResult (lit "buildstorm compile ok") 40 (compileOk kv),
    timeResult (timeScoreOf baselines kv)]

omit [Unicode] in
/-- The fields of the last compile record of a log. -/
def lastRecord (pieces : List (Str × Line)) : Fields :=
  (((pieces.filterMap fun p ↦ p.2.record?).getLast?).map fieldsAt).getD []

omit [Unicode] in
theorem envName_toolchain : lit "buildstorm env " ++ lower (lit "TOOLCHAIN") =
    lit "buildstorm env toolchain" := by decide

omit [Unicode] in
theorem envName_minibuild : lit "buildstorm env " ++ lower (lit "MINIBUILD") =
    lit "buildstorm env minibuild" := by decide

/-- The judge sees the lines of the script and nothing else. -/
theorem main_logOf_append (baselines : Baselines) {pieces : List (Str × Line)}
    (h : WellFormed pieces) {last : Str} (hlast : Markerless last) :
    main baselines (logOf pieces ++ last) =
      verdictOf baselines (pieces.any fun p ↦ announces (lit "TOOLCHAIN") p.2)
        (pieces.any fun p ↦ announces (lit "MINIBUILD") p.2) (lastRecord pieces) := by
  have hfields : lastFields (logOf pieces ++ last) = lastRecord pieces := by
    rw [lastFields, matchedFields_logOf h hlast, List.getLast?_map, lastRecord]
  have henv : envPts.map (envResult (logOf pieces ++ last)) =
      [binaryResult (lit "buildstorm env toolchain") 8
          (pieces.any fun p ↦ announces (lit "TOOLCHAIN") p.2),
        binaryResult (lit "buildstorm env minibuild") 12
          (pieces.any fun p ↦ announces (lit "MINIBUILD") p.2)] := by
    rw [envPts, List.map_cons, List.map_singleton, envResult, envResult, envName_toolchain,
      envName_minibuild, found_logOf (by decide) h hlast, found_logOf (by decide) h hlast]
  rw [main_eq, hfields, resultsOf, henv, verdictOf]
  rfl

omit [Unicode] in
theorem markerless_nil : Markerless [] := by
  intro w hw hi
  have hall : markers.all fun w ↦ w ≠ [] := by decide
  exact of_decide_eq_true (List.all_eq_true.mp hall w hw) (List.infix_nil.mp hi)

/-- A log that ends with a line of the script. -/
theorem main_logOf (baselines : Baselines) {pieces : List (Str × Line)} (h : WellFormed pieces) :
    main baselines (logOf pieces) =
      verdictOf baselines (pieces.any fun p ↦ announces (lit "TOOLCHAIN") p.2)
        (pieces.any fun p ↦ announces (lit "MINIBUILD") p.2) (lastRecord pieces) := by
  rw [← main_logOf_append baselines h markerless_nil, List.append_nil]

end KernelTests.BuildStorm
