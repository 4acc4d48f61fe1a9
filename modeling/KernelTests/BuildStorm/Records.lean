import KernelTests.BuildStorm.Judge

/-!
# Compile records

What the pattern of the judge takes from a log are the fields behind the word of the
record, as far as every word has an equals sign inside.  Such words can always be
split, so reading the records raises no exception.
-/

namespace KernelTests.BuildStorm

open Python Regex

/-! ## Splitting fields -/

/-- The key and the value of a word. -/
def keyValue (u : Str) : Str × Str := (u.takeWhile (· ≠ '='), (u.dropWhile (· ≠ '=')).tail)

/-- The words and blanks the pattern takes from the front of a text. -/
abbrev wordsOf (s : Str) : List (Str × Str) := fields isToken isBlank '=' s

/-- The fields at the front of a text, the last one first. -/
def fieldsAt (s : Str) : Fields := ((wordsOf s).map fun p ↦ keyValue p.1).reverse

theorem isSpace_of_isBlank {c : Char} (h : isBlank c) : isSpace c := by
  rw [isBlank, Bool.or_eq_true, decide_eq_true_eq, decide_eq_true_eq] at h
  rcases h with rfl | rfl <;> decide

theorem isToken_equals : isToken '=' := by decide

theorem not_isToken_of_isSpace (c : Char) (h : isSpace c) : ¬ isToken c := by
  simp [isToken, h]

theorem splitFrom_append {u : Str} (hu : ∀ c ∈ u, isToken c) (w s : Str) :
    splitFrom w (u ++ s) = splitFrom (w ++ u) s := by
  induction u generalizing w with
  | nil => rw [List.nil_append, List.append_nil]
  | cons c u ih =>
      obtain ⟨hc, hu⟩ := List.forall_mem_cons.mp hu
      rw [List.cons_append, splitFrom, if_neg (by simpa [isToken] using hc), ih hu, List.append_assoc]
      rfl

theorem splitFrom_nil_append {w : Str} (hw : ∀ c ∈ w, isSpace c) (s : Str) :
    splitFrom [] (w ++ s) = splitFrom [] s := by
  induction w with
  | nil => rfl
  | cons c w ih =>
      obtain ⟨hc, hw⟩ := List.forall_mem_cons.mp hw
      rw [List.cons_append, splitFrom, if_pos hc, if_pos rfl, ih hw]

/-- White space ends a word. -/
theorem splitFrom_space {u w : Str} (hu : u ≠ []) (hw : ∀ c ∈ w, isSpace c) (hne : w ≠ [])
    (s : Str) : splitFrom u (w ++ s) = u :: splitFrom [] s := by
  obtain ⟨c, w, rfl⟩ := List.exists_cons_of_ne_nil hne
  obtain ⟨hc, hw⟩ := List.forall_mem_cons.mp hw
  rw [List.cons_append, splitFrom, if_pos hc, if_neg hu, splitFrom_nil_append hw]

/-- The text of fields is split into their words. -/
theorem split_joinFields (s : Str) : split (joinFields (wordsOf s)) = (wordsOf s).map Prod.fst := by
  induction s using fields.induct isToken isBlank '=' with
  | case1 s h ih =>
      have hu : ∀ c ∈ s.takeWhile isToken, isToken c := fun c hc ↦ List.mem_takeWhile_imp hc
      have hw : ∀ c ∈ (s.dropWhile isToken).takeWhile isBlank, isSpace c := fun c hc ↦
        isSpace_of_isBlank (List.mem_takeWhile_imp hc)
      have hne : s.takeWhile isToken ≠ [] := fun he ↦ by rw [he] at h; cases h
      rw [wordsOf, fields, if_pos h, joinFields, List.flatMap_cons, ← joinFields, List.map_cons,
        List.append_assoc, split, splitFrom_append hu, List.nil_append]
      by_cases hblank : (s.dropWhile isToken).takeWhile isBlank = []
      · -- the next character is neither a blank nor part of a word
        have hnil : fields isToken isBlank '=' ((s.dropWhile isToken).dropWhile isBlank) =
            [] := by
          have hsplit := List.takeWhile_append_dropWhile (p := isBlank) (l := s.dropWhile isToken)
          rw [hblank, List.nil_append] at hsplit
          rw [hsplit]
          exact fields_of_head (not_of_mem_head?_dropWhile isToken s)
        rw [hblank, hnil]
        simp [joinFields, splitFrom, hne]
      · rw [splitFrom_space hne hw hblank]
        exact congrArg (_ :: ·) ih
  | case2 s h =>
      rw [wordsOf, fields_of_not_separated h]
      rfl

/-- A word of a field has an equals sign. -/
theorem splitEq_of_separated {u : Str} (h : Separated '=' u) : splitEq u = some (keyValue u) := by
  obtain ⟨t, r, _, _, rfl⟩ := separated_iff.mp h
  exact if_pos (by simp)

/-- The fields of a match. -/
theorem fieldsOf_match (w u s : Str) :
    fieldsOf [w, u, joinFields (wordsOf s)] = some (fieldsAt s) := by
  have hsplit : ∀ l : List (Str × Str), (∀ p ∈ l, Separated '=' p.1) →
      (l.map Prod.fst).mapM splitEq = some (l.map fun p ↦ keyValue p.1) := by
    intro l hl
    induction l with
    | nil => rfl
    | cons p l ih =>
        obtain ⟨hp, hl⟩ := List.forall_mem_cons.mp hl
        rw [List.map_cons, List.mapM_cons, splitEq_of_separated hp, ih hl]
        rfl
  rw [fieldsOf, split_joinFields, hsplit _ fun p hp ↦ (isField_of_mem p hp).separated]
  rfl

/-! ## Printed fields -/

/-- A field as it is printed. -/
def printField (p : Str × Str) : Str := p.1 ++ '=' :: p.2

/-- Fields with a blank between them. -/
def printFields : List (Str × Str) → Str
  | [] => []
  | [p] => printField p
  | p :: q :: l => printField p ++ ' ' :: printFields (q :: l)

/-- A key is a word without equals sign. -/
def IsKey (k : Str) : Prop := k ≠ [] ∧ ∀ c ∈ k, isToken c ∧ c ≠ '='

/-- A value contains no white space. -/
def IsValue (v : Str) : Prop := ∀ c ∈ v, isToken c

instance : DecidablePred IsKey := fun k ↦
  @instDecidableAnd _ _ (inferInstanceAs (Decidable (¬ k = []))) (List.decidableBAll _ k)

instance : DecidablePred IsValue := fun v ↦ List.decidableBAll _ v

theorem IsKey.separated_iff {k : Str} (hk : IsKey k) (v : Str) :
    Separated '=' (k ++ '=' :: v) ↔ v ≠ [] := by
  constructor
  · rintro h rfl
    obtain ⟨c, k, rfl⟩ := List.exists_cons_of_ne_nil hk.1
    rw [Separated, List.cons_append, List.tail_cons, List.dropLast_concat] at h
    exact (hk.2 '=' (List.mem_cons_of_mem c h)).2 rfl
  · exact fun hv ↦ Regex.separated_iff.mpr ⟨k, v, hk.1, hv, rfl⟩

theorem IsKey.keyValue {k : Str} (hk : IsKey k) (v : Str) :
    keyValue (k ++ '=' :: v) = (k, v) := by
  have hne : ∀ c ∈ k, decide (c ≠ '=') = true := fun c hc ↦ decide_eq_true (hk.2 c hc).2
  rw [BuildStorm.keyValue, List.takeWhile_append_of_pos hne, List.dropWhile_append_of_pos hne]
  simp

theorem IsKey.isToken_printField {k v : Str} (hk : IsKey k) (hv : IsValue v) :
    ∀ c ∈ printField (k, v), isToken c := by
  intro c hc
  rcases List.mem_append.mp hc with hc | hc
  · exact (hk.2 c hc).1
  · rcases List.mem_cons.mp hc with rfl | hc
    · exact isToken_equals
    · exact hv c hc

/-- A printed field in front of blanks or of the end of the text. -/
theorem wordsOf_printField {k v w t : Str} (hk : IsKey k) (hv : IsValue v)
    (hw : ∀ c ∈ w, isBlank c) (ht : ∀ c ∈ t.head?, ¬ isBlank c)
    (hwt : ∀ c ∈ (w ++ t).head?, ¬ isToken c) : wordsOf (printField (k, v) ++ (w ++ t)) =
      if v = [] then [] else (printField (k, v), w) :: wordsOf t := by
  have htoken := hk.isToken_printField hv
  split
  · next hnil =>
      refine fields_of_not_separated ?_
      rw [(takeWhile_word htoken hwt).1]
      exact fun h ↦ (hk.separated_iff v).mp h hnil
  · next hne => exact fields_cons htoken ((hk.separated_iff v).mpr hne) hw ht hwt

theorem printFields_cons (p : Str × Str) (l : List (Str × Str)) :
    ∃ s, printFields (p :: l) = p.1 ++ '=' :: s := by
  cases l with
  | nil => exact ⟨p.2, rfl⟩
  | cons q l => exact ⟨p.2 ++ ' ' :: printFields (q :: l), by simp [printFields, printField]⟩

/-- Printed fields begin with a key, not with a blank. -/
theorem not_isBlank_head?_printFields {p : Str × Str} (hkey : IsKey p.1) (l : List (Str × Str)) :
    ∀ c ∈ (printFields (p :: l)).head?, ¬ isBlank c := by
  intro c hc hblank
  obtain ⟨s, hs⟩ := printFields_cons p l
  rw [hs, List.head?_append_of_ne_nil _ hkey.1] at hc
  exact not_isToken_of_isSpace c (isSpace_of_isBlank hblank)
    (hkey.2 c (List.mem_of_mem_head? hc)).1

/-- Printed fields are read back, up to the first value that is empty. -/
theorem fieldsAt_printFields {l : List (Str × Str)} (h : ∀ p ∈ l, IsKey p.1 ∧ IsValue p.2) :
    fieldsAt (printFields l) = (l.takeWhile (·.2 ≠ [])).reverse := by
  suffices hw : (wordsOf (printFields l)).map (fun p ↦ keyValue p.1) = l.takeWhile (·.2 ≠ []) by
    rw [fieldsAt, hw]
  induction l using printFields.induct with
  | case1 =>
      rw [wordsOf, printFields, fields_of_head (by simp)]
      rfl
  | case2 p =>
      obtain ⟨k, v⟩ := p
      obtain ⟨hk, hv⟩ := h (k, v) List.mem_cons_self
      have hwords := wordsOf_printField (w := []) (t := []) hk hv (by simp) (by simp) (by simp)
      rw [List.append_nil, List.append_nil] at hwords
      rw [printFields, hwords]
      by_cases hne : v = []
      · simp [hne]
      · rw [if_neg hne, List.map_cons, printField, hk.keyValue,
          List.takeWhile_cons_of_pos (by simpa using hne), wordsOf, fields_of_head (by simp)]
        rfl
  | case3 p q l ih =>
      obtain ⟨k, v⟩ := p
      obtain ⟨⟨hk, hv⟩, hl⟩ := List.forall_mem_cons.mp h
      have hhead := not_isBlank_head?_printFields (hl q List.mem_cons_self).1 l
      have hwords := wordsOf_printField (w := [' ']) hk hv (by decide) hhead (by simp; decide)
      rw [List.singleton_append] at hwords
      rw [printFields, hwords]
      by_cases hne : v = []
      · simp [hne]
      · rw [if_neg hne, List.map_cons, printField, hk.keyValue,
          List.takeWhile_cons_of_pos (by simpa using hne), ih hl]

/-! ## Reading all records -/


/-- The fields of all matches of the pattern. -/
def matchedFields (out : Str) : List Fields :=
  (finditer compilePattern 0 none out).filterMap fieldsOf

/-- The groups of a match have fields. -/
theorem isSome_fieldsOf {out : Str} :
    ∀ us ∈ finditer compilePattern 0 none out, (fieldsOf us).isSome := by
  refine forall_mem_finditer _ none (fun b s ys h ↦ ?_) 0 out
  obtain ⟨u, t, _, _, _, _, hg⟩ := groups_of_matchAt_record isToken_equals not_isToken_of_isSpace h
  rw [hg, fieldsOf_match]
  rfl

/-- Reading the records raises no exception. -/
theorem parseCompile_eq (out : Str) : parseCompile out = some (matchedFields out).getLast? := by
  have hmap : ∀ l : List (List Str), (∀ us ∈ l, (fieldsOf us).isSome) →
      l.mapM fieldsOf = some (l.filterMap fieldsOf) := by
    intro l hl
    induction l with
    | nil => rfl
    | cons us l ih =>
        obtain ⟨hus, hl⟩ := List.forall_mem_cons.mp hl
        obtain ⟨kv, hkv⟩ := Option.isSome_iff_exists.mp hus
        rw [List.mapM_cons, hkv, ih hl, List.filterMap_cons_some hkv]
        rfl
  rw [parseCompile, hmap _ isSome_fieldsOf]
  rfl

/-- The fields of the last compile record; none if there is no record. -/
def lastFields (out : Str) : Fields := ((matchedFields out).getLast?).getD []

/-! ## Records in a log -/

/-- A compile record with the text `rest` behind its word, and other output behind it. -/
def recordLine (rest : Str) : Str := compileWord ++ ' ' :: (rest ++ ['\n'])

/-- A log: other output, and compile records that are each followed by other output. -/
def compileLog (first : Str) (pieces : List (Str × Str)) : Str :=
  first ++ pieces.flatMap fun p ↦ recordLine p.1 ++ p.2

/-- The word of a compile record does not occur. -/
def Unmarked (s : Str) : Prop := ¬ compileWord <:+: s

instance : DecidablePred Unmarked := fun s ↦ inferInstanceAs (Decidable (¬ compileWord <:+: s))

theorem unmarked_nil : Unmarked [] := fun h ↦ absurd (List.infix_nil.mp h) (by decide)

theorem Unmarked.cons_newline {s : Str} (h : Unmarked s) : Unmarked ('\n' :: s) := by
  intro hi
  rcases List.infix_cons_iff.mp hi with hp | hi
  · have hlit : compileWord = 'B' :: lit "UILDSTORM_COMPILE" := by decide
    rw [hlit] at hp
    exact absurd (List.cons_prefix_cons.mp hp).1 (by decide)
  · exact h hi

theorem Unmarked.of_suffix {s t : Str} (h : Unmarked s) (hs : t <:+ s) : Unmarked t :=
  fun hi ↦ h (hi.trans hs.isInfix)

theorem borderless_compileWord : Text.Borderless compileWord := by decide

/-- A word at the start of a text does not reach over a character it avoids. -/
theorem prefix_of_prefix_append_cons {c : Char} {w t s : Str} (h : c ∉ w)
    (hp : w <+: t ++ c :: s) : w <+: t := by
  rcases List.prefix_or_prefix_of_prefix hp (List.prefix_append t (c :: s)) with hw | ⟨r, rfl⟩
  · exact hw
  · have hr := (List.prefix_append_right_inj t).mp hp
    rcases List.prefix_cons_iff.mp hr with rfl | ⟨r, rfl, _⟩
    · simp
    · exact absurd (by simp) h

/-- Other output without the word of the record is passed over. -/
theorem finditer_unmarked (b : Option Char) {u : Str} (hu : Unmarked u) (s : Str) :
    finditer compilePattern 0 b (u ++ '\n' :: s) =
      finditer compilePattern 0 (u.getLast?.or b) ('\n' :: s) :=
  finditer_append_of_no_prefix _ b fun _ ht _ hp ↦
    hu ((prefix_of_prefix_append_cons (by decide) hp).isInfix.trans ht.isInfix)

/-- A record is matched, and the search goes on at the end of its line at the latest. -/
theorem finditer_recordLine (b : Option Char) {rest : Str} (hrest : Unmarked rest)
    (hne : wordsOf rest ≠ []) (s : Str) :
    ∃ b', finditer compilePattern 0 b (recordLine rest ++ s) =
      [compileWord, [' '], joinFields (wordsOf rest)] ::
        finditer compilePattern 0 b' ('\n' :: s) := by
  obtain ⟨v, hv⟩ := joinFields_prefix isToken isBlank '=' rest
  have hwords : wordsOf (rest ++ '\n' :: s) = wordsOf rest :=
    fields_append_cons (by decide) (by decide) rest s
  have hsplit := splits_record (w := compileWord) (u := [' ']) (s := rest ++ '\n' :: s)
    (v := v ++ '\n' :: s) isToken_equals not_isToken_of_isSpace (by decide) (by decide)
    (by rw [← wordsOf, hwords, ← List.append_assoc, hv]) (by rw [← wordsOf, hwords]; exact hne)
  rw [← wordsOf, hwords] at hsplit
  have htext : recordLine rest ++ s =
      [compileWord, [' '], joinFields (wordsOf rest)].flatten ++ (v ++ '\n' :: s) := by
    rw [List.flatten_cons, List.flatten_cons, List.flatten_singleton, recordLine]
    conv_lhs => rw [← hv]
    simp
  have hv' : Unmarked v := hrest.of_suffix ⟨_, hv⟩
  rw [htext]
  exact ⟨_, (hsplit.finditer (by simp) b).trans (congrArg (_ :: ·) (finditer_unmarked _ hv' s))⟩

/-- The fields of the records in a log, in their order. -/
theorem matchedFields_compileLog {first : Str} {pieces : List (Str × Str)} (hfirst : Unmarked first)
    (hpieces : ∀ p ∈ pieces, Unmarked p.1 ∧ wordsOf p.1 ≠ [] ∧ Unmarked p.2) :
    matchedFields (compileLog first pieces) = pieces.map fun p ↦ fieldsAt p.1 := by
  suffices h : ∀ b, (finditer compilePattern 0 b (compileLog first pieces)).filterMap fieldsOf =
      pieces.map fun p ↦ fieldsAt p.1 from h none
  intro b
  induction pieces generalizing b first with
  | nil =>
      rw [compileLog, List.flatMap_nil, List.append_nil, compilePattern, record,
        finditer_of_not_infix _ b (by decide) hfirst]
      rfl
  | cons p pieces ih =>
      obtain ⟨⟨hrest, hne, hs⟩, hpieces⟩ := List.forall_mem_cons.mp hpieces
      obtain ⟨b', hmatch⟩ := finditer_recordLine (first.getLast?.or b) hrest hne
        (p.2 ++ pieces.flatMap fun p ↦ recordLine p.1 ++ p.2)
      have hlog : compileLog first (p :: pieces) = first ++ (compileWord ++ (' ' :: (p.1 ++ ['\n']) ++
          (p.2 ++ pieces.flatMap fun p ↦ recordLine p.1 ++ p.2))) := by
        simp [compileLog, recordLine]
      have hline : compileWord ++ (' ' :: (p.1 ++ ['\n']) ++
          (p.2 ++ pieces.flatMap fun p ↦ recordLine p.1 ++ p.2)) =
          recordLine p.1 ++ (p.2 ++ pieces.flatMap fun p ↦ recordLine p.1 ++ p.2) := by
        rw [recordLine, List.append_assoc]
      rw [hlog, compilePattern, record, finditer_append_word _ b borderless_compileWord hfirst, hline,
        ← record, ← compilePattern, hmatch, List.filterMap_cons_some (fieldsOf_match _ _ _),
        List.map_cons]
      exact congrArg (_ :: ·) (ih hs.cons_newline hpieces b')

/-- The last record of a log counts. -/
theorem lastFields_compileLog {first : Str} {pieces : List (Str × Str)} (hfirst : Unmarked first)
    (hpieces : ∀ p ∈ pieces, Unmarked p.1 ∧ wordsOf p.1 ≠ [] ∧ Unmarked p.2) :
    lastFields (compileLog first pieces) =
      ((pieces.getLast?).map fun p ↦ fieldsAt p.1).getD [] := by
  rw [lastFields, matchedFields_compileLog hfirst hpieces, List.getLast?_map]

theorem unmarked_append_cons {c : Char} (hc : c ∉ compileWord) {s t : Str} :
    Unmarked (s ++ c :: t) ↔ Unmarked s ∧ Unmarked t := by
  rw [Unmarked, Text.infix_append_cons_iff (by decide) hc, not_or]
  exact Iff.rfl

/-- A field of a record: a key, and a value that could be printed for it. -/
structure IsPrintable (p : Str × Str) : Prop where
  isKey : IsKey p.1
  unmarked_key : Unmarked p.1
  isValue : IsValue p.2
  unmarked_value : Unmarked p.2

theorem unmarked_printFields {l : List (Str × Str)} (h : ∀ p ∈ l, IsPrintable p) :
    Unmarked (printFields l) := by
  have hfield : ∀ {p : Str × Str}, IsPrintable p → Unmarked (printField p) := fun hp ↦
    (unmarked_append_cons (by decide)).mpr ⟨hp.unmarked_key, hp.unmarked_value⟩
  induction l using printFields.induct with
  | case1 => exact unmarked_nil
  | case2 p => exact hfield (h p List.mem_cons_self)
  | case3 p q l ih =>
      obtain ⟨hp, hl⟩ := List.forall_mem_cons.mp h
      exact (unmarked_append_cons (by decide)).mpr ⟨hfield hp, ih hl⟩

/-- The first field is read if its value is not empty. -/
theorem wordsOf_printFields_ne_nil {p : Str × Str} {l : List (Str × Str)}
    (h : ∀ q ∈ p :: l, IsKey q.1 ∧ IsValue q.2) (hp : p.2 ≠ []) :
    wordsOf (printFields (p :: l)) ≠ [] := by
  intro hnil
  have hfields := fieldsAt_printFields h
  rw [fieldsAt, hnil, List.takeWhile_cons_of_pos (by simpa using hp)] at hfields
  simp at hfields

/-- A log with a single record of printed fields: they are read up to the first empty value. -/
theorem lastFields_printFields {first last : Str} {p : Str × Str} {l : List (Str × Str)}
    (hfirst : Unmarked first) (hlast : Unmarked last) (h : ∀ q ∈ p :: l, IsPrintable q)
    (hp : p.2 ≠ []) : lastFields (compileLog first [(printFields (p :: l), last)]) =
      ((p :: l).takeWhile (·.2 ≠ [])).reverse := by
  have hkeys : ∀ q ∈ p :: l, IsKey q.1 ∧ IsValue q.2 := fun q hq ↦ ⟨(h q hq).isKey, (h q hq).isValue⟩
  have hne := wordsOf_printFields_ne_nil hkeys hp
  rw [lastFields_compileLog hfirst (by simpa using ⟨unmarked_printFields h, hne, hlast⟩),
    ← fieldsAt_printFields hkeys]
  rfl

/-- The fields of the record of a successful build. -/
def successFields (elapsed cores bytes arch : Str) : List (Str × Str) :=
  [(lit "mode", lit "multi"), (lit "ok", lit "true"), (lit "elapsed_s", elapsed),
    (lit "cores", cores), (lit "bytes", bytes), (lit "arch", arch)]

/-- A word that could be the value of a field. -/
structure IsPlain (v : Str) : Prop where
  isValue : IsValue v
  unmarked : Unmarked v

instance : DecidablePred IsPlain := fun v ↦
  decidable_of_iff (IsValue v ∧ Unmarked v) ⟨fun h ↦ ⟨h.1, h.2⟩, fun h ↦ ⟨h.1, h.2⟩⟩

theorem isPrintable_successFields {elapsed cores bytes arch : Str} (he : IsPlain elapsed)
    (hc : IsPlain cores) (hb : IsPlain bytes) (ha : IsPlain arch) :
    ∀ q ∈ successFields elapsed cores bytes arch, IsPrintable q := by
  have hmulti : IsPlain (lit "multi") := by decide
  have htrue : IsPlain (lit "true") := by decide
  have hkeys : ∀ k ∈ [lit "mode", lit "ok", lit "elapsed_s", lit "cores", lit "bytes", lit "arch"],
      IsKey k ∧ Unmarked k := by
    simp only [List.forall_mem_cons]
    decide
  have hall : ∀ q ∈ successFields elapsed cores bytes arch, IsPlain q.2 := by
    simp only [successFields, List.forall_mem_cons]
    exact ⟨hmulti, htrue, he, hc, hb, ha, List.forall_mem_nil _⟩
  intro q hq
  obtain ⟨hkey, hunmarked⟩ := hkeys q.1 (List.mem_map_of_mem hq)
  exact ⟨hkey, hunmarked, (hall q hq).isValue, (hall q hq).unmarked⟩

/-! ## Results from fields -/

variable [Unicode]

/-- The points for the time. -/
def timeScoreOf (baselines : Baselines) (kv : Fields) : Python.Float :=
  if compileOk kv then timePoints baselines kv else .finite 0

/-- The results for a log with the fields `kv` in its last record. -/
def resultsOf (baselines : Baselines) (out : Str) (kv : Fields) : List Result :=
  envPts.map (envResult out) ++
    [binaryResult (lit "buildstorm compile ok") 40 (compileOk kv),
      timeResult (timeScoreOf baselines kv)]

/-- The number of cores of a successful record is no number. -/
def BadCores (kv : Fields) : Prop := compileOk kv ∧ cores kv = none

instance : DecidablePred BadCores := fun _ ↦ inferInstanceAs (Decidable (_ ∧ _))

/-- The results, from the records in a log. -/
theorem main_eq (baselines : Baselines) (out : Str) : main baselines out =
    if BadCores (lastFields out) then none
    else some (resultsOf baselines out (lastFields out)) := by
  rw [main, parseCompile_eq, Option.bind_eq_bind, Option.bind_some, ← lastFields, resultsOf,
    timeScoreOf]
  by_cases hok : compileOk (lastFields out)
  · cases hcores : cores (lastFields out) with
    | none => simp [BadCores, hok, hcores]
    | some n => simp [BadCores, hok, hcores]
  · simp [BadCores, hok]

end KernelTests.BuildStorm
