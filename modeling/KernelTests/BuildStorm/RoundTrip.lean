import KernelTests.BuildStorm.Newlines
import KernelTests.BuildStorm.Script
import KernelTests.BuildStorm.Verdicts

/-!
# The way of a compile record

The script prints a compile record and the judge reads it back.  What it reads are the
printed values exactly if none of them is empty and the number of cores, which is
whatever `nproc` prints, has no white space in it.
-/

namespace KernelTests.BuildStorm

open Python Regex

/-! ## Where records start -/

/-- A place of a word, in a text with a character that the word avoids. -/
theorem suffix_append_cons_of_prefix {c : Char} {w u v s : Str} (hc : c ∉ w) (hw : w ≠ [])
    (hs : s <:+ u ++ c :: v) (hp : w <+: s) :
    (∃ t, t <:+ u ∧ w <+: t ∧ s = t ++ c :: v) ∨ s <:+ v := by
  rcases List.suffix_or_suffix_of_suffix hs (List.suffix_append u (c :: v)) with h | ⟨t, rfl⟩
  · rcases List.suffix_cons_iff.mp h with rfl | h
    · rcases List.prefix_cons_iff.mp hp with rfl | ⟨t, rfl, _⟩
      · exact absurd rfl hw
      · exact absurd List.mem_cons_self hc
    · exact .inr h
  · refine .inl ⟨t, ?_, prefix_of_prefix_append_cons hc hp, rfl⟩
    obtain ⟨r, hr⟩ := hs
    rw [← List.append_assoc] at hr
    exact ⟨r, List.append_cancel_right hr⟩

/-- Whatever is read from a text is read at a place where a record starts. -/
theorem exists_recordAt {b : Option Char} {s : Str} {kv : Fields} (h : kv ∈ fieldsFrom b s) :
    ∃ s' t, s' <:+ s ∧ RecordAt s' t ∧ kv = fieldsAt (t.dropWhile isSpace) := by
  induction hn : s.length using Nat.strong_induction_on generalizing s b with
  | _ n ih =>
  subst hn
  cases s with
  | nil =>
      have hnone : matchAt compilePattern ⟨b, []⟩ = none :=
        matchAt_word_of_not_prefix _ fun hp ↦ absurd (List.prefix_nil.mp hp) (by decide)
      rw [fieldsFrom, finditer, hnone] at h
      cases h
  | cons c s =>
      have hshort : ∀ {t : Str} {b}, t <:+ s → kv ∈ fieldsFrom b t →
          ∃ s' t, s' <:+ c :: s ∧ RecordAt s' t ∧ kv = fieldsAt (t.dropWhile isSpace) := by
        intro t b ht hkv
        obtain ⟨s', t', hs', hrecord⟩ := ih _ (Nat.lt_succ_of_le ht.length_le) hkv rfl
        exact ⟨s', t', hs'.trans (ht.trans (List.suffix_cons c s)), hrecord⟩
      by_cases hrecord : ∃ t, RecordAt (c :: s) t
      · obtain ⟨t, ht⟩ := hrecord
        obtain ⟨b', v, hv, hfields⟩ := ht.fieldsFrom_eq b
        rw [hfields] at h
        rcases List.mem_cons.mp h with rfl | h
        · exact ⟨c :: s, t, List.suffix_refl _, ht, rfl⟩
        · exact hshort (((List.suffix_append _ v).trans (hv ▸ List.dropWhile_suffix _)).trans
            ht.suffix_tail) h
      · rw [fieldsFrom_cons hrecord] at h
        exact hshort (List.suffix_refl s) h

/-! ## Where fields end -/

theorem fieldsAt_append_newline (s t : Str) : fieldsAt (s ++ '\n' :: t) = fieldsAt s := by
  rw [fieldsAt, wordsOf, fields_append_cons (by decide) (by decide), fieldsAt]

/-- Fields do not go on behind white space that is no blank. -/
theorem fieldsAt_append_space {x : Char} (hx : ¬ isToken x) (hb : ¬ isBlank x) (s t : Str) :
    fieldsAt (s ++ x :: t) = fieldsAt s := by
  rw [fieldsAt, wordsOf, fields_append_cons hx hb, fieldsAt]

/-- A text without white space has at most one key. -/
theorem fst_of_mem_fieldsAt {u : Str} (hu : ∀ c ∈ u, isToken c) :
    ∀ p ∈ fieldsAt u, p.1 = (keyValue u).1 := by
  intro p hp
  obtain ⟨q, hq, rfl⟩ := List.mem_map.mp (List.mem_reverse.mp hp)
  by_cases hsep : Separated '=' u
  · have hwords : fields isToken isBlank '=' (u ++ ([] ++ [])) =
        (u, []) :: fields isToken isBlank '=' [] :=
      fields_cons hu hsep (by simp) (by simp) (by simp)
    rw [List.append_nil, List.append_nil, fields_of_head (s := []) (by simp)] at hwords
    rw [wordsOf, hwords, List.mem_singleton] at hq
    rw [hq]
  · have htake := (takeWhile_word (v := []) hu (by simp)).1
    rw [List.append_nil] at htake
    rw [wordsOf, fields_of_not_separated (by rwa [htake])] at hq
    cases hq

/-- In front of a blank and other fields it adds at most one key. -/
theorem fst_of_mem_fieldsAt_append {u s : Str} (hu : ∀ c ∈ u, isToken c)
    (hs : ∀ c ∈ s.head?, ¬ isBlank c) :
    ∀ p ∈ fieldsAt (u ++ ' ' :: s), p.1 = (keyValue u).1 ∨ p ∈ fieldsAt s := by
  intro p hp
  obtain ⟨q, hq, rfl⟩ := List.mem_map.mp (List.mem_reverse.mp hp)
  by_cases hsep : Separated '=' u
  · have hwords : fields isToken isBlank '=' (u ++ ' ' :: s) =
        (u, [' ']) :: fields isToken isBlank '=' s :=
      fields_cons (w := [' ']) hu hsep (by decide) hs (by simp; decide)
    rw [wordsOf, hwords] at hq
    rcases List.mem_cons.mp hq with rfl | hq
    · exact .inl rfl
    · exact .inr (List.mem_reverse.mpr (List.mem_map_of_mem hq))
  · have htake := (takeWhile_word (v := ' ' :: s) hu (by simp; decide)).1
    rw [wordsOf, fields_of_not_separated (by rwa [htake])] at hq
    cases hq

/-- A text without newline and blank, a blank and fields: white space aside, there is at most one
key in front of those of the fields. -/
theorem exists_key_of_mem {n s : Str} (hn : ∀ c ∈ n, ¬ isBlank c) (hs : ∀ c ∈ s.head?, isToken c) :
    ∃ k, ∀ p ∈ fieldsAt ((n ++ ' ' :: s).dropWhile isSpace), p.1 = k ∨ p ∈ fieldsAt s := by
  have hblank : ∀ c ∈ s.head?, ¬ isBlank c := fun c hc hb ↦
    not_isToken_of_isSpace c (isSpace_of_isBlank hb) (hs c hc)
  obtain ⟨w, m, rfl, hw, hm⟩ := exists_word isSpace n
  have hm' : ∀ c ∈ m, ¬ isBlank c := fun c hc ↦ hn c (List.mem_append_right w hc)
  rw [List.append_assoc, List.dropWhile_append_of_pos hw]
  cases m with
  | nil =>
      have hdrop : ([] ++ ' ' :: s).dropWhile isSpace = s := by
        rw [List.nil_append, List.dropWhile_cons_of_pos (by decide)]
        cases s with
        | nil => rfl
        | cons c s => exact List.dropWhile_cons_of_neg (by simpa [isToken] using hs c rfl)
      rw [hdrop]
      exact ⟨[], fun p hp ↦ .inr hp⟩
  | cons d m =>
      rw [List.cons_append, List.dropWhile_cons_of_neg (hm d rfl), ← List.cons_append]
      obtain ⟨u, v, huv, hu, hv⟩ := exists_word isToken (d :: m)
      rw [huv]
      cases v with
      | nil =>
          rw [List.append_nil]
          exact ⟨_, fst_of_mem_fieldsAt_append hu hblank⟩
      | cons x v =>
          have hx : ¬ isBlank x := hm' x (huv ▸ by simp)
          rw [List.append_assoc, List.cons_append, fieldsAt_append_space (hv x rfl) hx]
          exact ⟨_, fun p hp ↦ .inl (fst_of_mem_fieldsAt hu p hp)⟩

/-- Fields without empty values are taken whole. -/
theorem joinFields_printFields {l : List (Str × Str)} (h : ∀ p ∈ l, IsKey p.1 ∧ IsValue p.2)
    (hne : ∀ p ∈ l, p.2 ≠ []) : joinFields (wordsOf (printFields l)) = printFields l := by
  induction l using printFields.induct with
  | case1 =>
      rw [printFields, wordsOf, fields_of_head (by simp)]
      rfl
  | case2 p =>
      obtain ⟨hk, hv⟩ := h p List.mem_cons_self
      have hwords := wordsOf_printField (w := []) (t := []) hk hv (by simp) (by simp) (by simp)
      have hnil : wordsOf [] = [] := fields_of_head (by simp)
      rw [List.append_nil, List.append_nil, if_neg (hne p List.mem_cons_self), hnil] at hwords
      rw [printFields, hwords]
      simp [joinFields]
  | case3 p q l ih =>
      obtain ⟨⟨hk, hv⟩, hl⟩ := List.forall_mem_cons.mp h
      have hhead := not_isBlank_head?_printFields (hl q List.mem_cons_self).1 l
      have hwords := wordsOf_printField (w := [' ']) hk hv (by decide) hhead (by simp; decide)
      rw [List.singleton_append, if_neg (hne p List.mem_cons_self)] at hwords
      have htail := ih hl fun p hp ↦ hne p (List.mem_cons_of_mem _ hp)
      rw [joinFields] at htail
      rw [printFields, hwords, joinFields, List.flatMap_cons, htail]
      simp

/-- If the last element is still taken, all are. -/
theorem forall_of_mem_takeWhile {α : Type} {p : α → Bool} {l : List α} {a : α} (hl : a ∉ l)
    (h : a ∈ (l ++ [a]).takeWhile p) : ∀ b ∈ l ++ [a], p b := by
  rw [List.takeWhile_append] at h
  split at h
  · next hlen =>
      have htake := (List.takeWhile_prefix p (l := l)).eq_of_length hlen
      rcases List.mem_append.mp h with ha | ha
      · exact absurd ha hl
      · rw [List.forall_mem_append]
        exact ⟨List.takeWhile_eq_self_iff.mp htake, List.forall_mem_singleton.mpr
          (List.mem_takeWhile_imp ha)⟩
  · exact absurd ((List.takeWhile_sublist _).subset h) hl

/-! ## The values of a record -/

/-- The values of a compile record; only the record of a failed build has a status. -/
structure Values where
  ok : Bool
  rc : Option Str
  elapsed : Str
  nproc : Str
  bytes : Str
  arch : Str

namespace Values

/-- The fields in front of the number of cores. -/
def front (v : Values) : List (Str × Str) :=
  (lit "mode", lit "multi") :: (lit "ok", if v.ok then lit "true" else lit "false") ::
    (v.rc.toList.map (lit "rc", ·) ++ [(lit "elapsed_s", v.elapsed)])

theorem front_ne_nil (v : Values) : v.front ≠ [] := List.cons_ne_nil _ _

/-- The fields behind it. -/
def back (v : Values) : List (Str × Str) := [(lit "bytes", v.bytes), (lit "arch", v.arch)]

/-- The fields. -/
def fields (v : Values) : List (Str × Str) := v.front ++ (lit "cores", v.nproc) :: v.back

/-- The text of the record. -/
def record (v : Values) : Str := printFields v.fields

/-- The script prints such values behind the timed build. -/
theorem fields_build (ok : Bool) (rc elapsed nproc bytes arch : Str) :
    fields ⟨ok, if ok then none else some rc, elapsed, nproc, bytes, arch⟩ =
      buildFields ok rc elapsed nproc bytes arch := by
  cases ok <;> rfl

/-- So it does without a working directory. -/
theorem fields_abort (nproc arch : Str) :
    fields ⟨false, none, lit "0", nproc, lit "0", arch⟩ = abortFields nproc arch := rfl

/-- What the values can be: the output of `nproc` is any text without newline and blank. -/
structure Printed (v : Values) : Prop where
  rc : ∀ r ∈ v.rc, IsPlain r
  elapsed : IsPlain v.elapsed
  elapsed_ne_nil : v.elapsed ≠ []
  nproc : ∀ c ∈ v.nproc, ¬ isBlank c ∧ c ≠ '\n'
  bytes : IsPlain v.bytes
  arch : v.arch = lit "riscv64" ∨ v.arch = lit "loongarch64"

/-! ## Its place in a log -/

theorem printFields_append {l l' : List (Str × Str)} (hl : l ≠ []) (hl' : l' ≠ []) :
    printFields (l ++ l') = printFields l ++ ' ' :: printFields l' := by
  obtain ⟨q, r, rfl⟩ := List.exists_cons_of_ne_nil hl'
  induction l using printFields.induct with
  | case1 => exact absurd rfl hl
  | case2 p => rfl
  | case3 p p' l ih =>
      have htail := ih (List.cons_ne_nil _ _)
      rw [List.cons_append, List.cons_append, printFields, ← List.cons_append, htail, printFields]
      simp

variable (v : Values)

/-- The text in front of the number of cores, the number and the text behind it. -/
theorem record_eq : v.record = printFields v.front ++
    ' ' :: (lit "cores" ++ '=' :: (v.nproc ++ ' ' :: printFields v.back)) := by
  rw [record, fields, printFields_append v.front_ne_nil (List.cons_ne_nil _ _), back, printFields,
    printField]
  simp

/-- A log with the record in it. -/
def log (first last : Str) : Str := compileLog first [(v.record, last)]

theorem log_eq (first last : Str) :
    v.log first last = first ++ compileWord ++ ' ' :: (v.record ++ '\n' :: last) := by
  simp [log, compileLog, recordLine]

theorem back_isPrintable {v : Values} (h : v.Printed) : ∀ p ∈ v.back, IsPrintable p := by
  have hkeys : ∀ k ∈ [lit "bytes", lit "arch"], IsKey k ∧ Unmarked k := by
    simp only [List.forall_mem_cons]
    decide
  simp only [List.forall_mem_cons] at hkeys
  have harch : IsPlain v.arch := by
    rcases h.arch with harch | harch <;> rw [harch] <;> decide
  simp only [back, List.forall_mem_cons]
  exact ⟨⟨hkeys.1.1, hkeys.1.2, h.bytes.isValue, h.bytes.unmarked⟩,
    ⟨hkeys.2.1.1, hkeys.2.1.2, harch.isValue, harch.unmarked⟩, List.forall_mem_nil _⟩

theorem front_isPrintable {v : Values} (h : v.Printed) : ∀ p ∈ v.front, IsPrintable p := by
  have hkeys : ∀ k ∈ [lit "mode", lit "ok", lit "rc", lit "elapsed_s"], IsKey k ∧ Unmarked k := by
    simp only [List.forall_mem_cons]
    decide
  simp only [List.forall_mem_cons] at hkeys
  obtain ⟨hmode, hok, hrc, helapsed, _⟩ := hkeys
  have hmulti : IsPlain (lit "multi") := by decide
  have hanswer : IsPlain (if v.ok then lit "true" else lit "false") := by
    split <;> decide
  have hprintable : ∀ {k w : Str}, IsKey k ∧ Unmarked k → IsPlain w → IsPrintable (k, w) :=
    fun hk hw ↦ ⟨hk.1, hk.2, hw.isValue, hw.unmarked⟩
  simp only [front, List.forall_mem_cons, List.forall_mem_append, List.forall_mem_map,
    Option.mem_toList]
  exact ⟨hprintable hmode hmulti, hprintable hok hanswer,
    fun r hr ↦ hprintable hrc (h.rc r hr), hprintable helapsed h.elapsed, List.forall_mem_nil _⟩

/-- The word of the record stands where the record starts, or in the output of `nproc`. -/
theorem places {v : Values} (h : v.Printed) {first last s : Str} (hfirst : Unmarked first)
    (hlast : Unmarked last) (hs : s <:+ v.log first last) (hp : compileWord <+: s) :
    s = compileWord ++ ' ' :: (v.record ++ '\n' :: last) ∨
      ∃ n, n <:+ v.nproc ∧ compileWord <+: n ∧
        s = n ++ ' ' :: (printFields v.back ++ '\n' :: last) := by
  have hnil : compileWord ≠ [] := by decide
  have hunmarked : ∀ {u t : Str}, Unmarked u → t <:+ u → ¬ compileWord <+: t := fun hu ht hp ↦
    hu (hp.isInfix.trans ht.isInfix)
  rw [log_eq] at hs
  rcases suffix_append_cons_of_prefix (by decide) hnil hs hp with ⟨t, ht, hpt, rfl⟩ | hs
  · rcases List.suffix_or_suffix_of_suffix ht (List.suffix_append first compileWord) with
      ht' | ⟨r, rfl⟩
    · rw [hpt.eq_of_length (Nat.le_antisymm hpt.length_le ht'.length_le)]
      exact .inl rfl
    · by_cases hr : r = []
      · subst hr
        exact .inl rfl
      · obtain ⟨r', hr'⟩ := ht
        rw [← List.append_assoc] at hr'
        have hsuffix : r <:+ first := ⟨r', List.append_cancel_right hr'⟩
        refine absurd ?_ (borderless_compileWord.not_prefix (v := []) hfirst hsuffix hr)
        rwa [List.append_nil]
  · rw [record_eq] at hs
    simp only [List.append_assoc, List.cons_append] at hs
    rcases suffix_append_cons_of_prefix (by decide) hnil hs hp with ⟨t, ht, hpt, _⟩ | hs
    · exact absurd hpt (hunmarked (unmarked_printFields (front_isPrintable h)) ht)
    rcases suffix_append_cons_of_prefix (by decide) hnil hs hp with ⟨t, ht, hpt, _⟩ | hs
    · exact absurd hpt (hunmarked (by decide) ht)
    rcases suffix_append_cons_of_prefix (by decide) hnil hs hp with ⟨n, hn, hpn, rfl⟩ | hs
    · exact .inr ⟨n, hn, hpn, rfl⟩
    rcases suffix_append_cons_of_prefix (by decide) hnil hs hp with ⟨t, ht, hpt, _⟩ | hs
    · exact absurd hpt (hunmarked (unmarked_printFields (back_isPrintable h)) ht)
    · exact absurd hp (hunmarked hlast hs)

/-! ## Reading it back -/

/-- The fields that have to survive. -/
def kept : List (Str × Str) :=
  [(lit "mode", lit "multi"), (lit "ok", if v.ok then lit "true" else lit "false"),
    (lit "elapsed_s", v.elapsed), (lit "bytes", v.bytes), (lit "arch", v.arch)]

/-- They are read as they were printed. -/
def Survives (out : Str) : Prop :=
  ∃ kv, parseCompile out = some (some kv) ∧ ∀ p ∈ v.kept, kv.lookup p.1 = some p.2

/-- No value is empty, and `nproc` prints no white space. -/
structure Readable : Prop where
  rc : v.rc ≠ some []
  nproc : IsValue v.nproc
  nproc_ne_nil : v.nproc ≠ []
  bytes : v.bytes ≠ []

variable {v}

theorem nodup_fields : (v.fields.map Prod.fst).Nodup := by
  cases hrc : v.rc <;> simp only [fields, front, back, hrc, Option.toList, List.map_cons,
    List.map_nil, List.nil_append, List.cons_append] <;> decide

theorem isKey_fields (h : v.Printed) (hn : IsValue v.nproc) :
    ∀ p ∈ v.fields, IsKey p.1 ∧ IsValue p.2 := by
  have hcores : IsKey (lit "cores") := by decide
  rw [fields, List.forall_mem_append, List.forall_mem_cons]
  exact ⟨fun p hp ↦ ⟨(front_isPrintable h p hp).isKey, (front_isPrintable h p hp).isValue⟩,
    ⟨hcores, hn⟩, fun p hp ↦ ⟨(back_isPrintable h p hp).isKey, (back_isPrintable h p hp).isValue⟩⟩

theorem kept_subset_fields : ∀ p ∈ v.kept, p ∈ v.fields := by
  simp [kept, fields, front, back]

/-- The record that the judge reads is the printed one, or starts inside the output of `nproc`. -/
theorem mem_fields (h : v.Printed) {first last : Str} (hfirst : Unmarked first)
    (hlast : Unmarked last) {kv : Fields} (hkv : kv ∈ matchedFields (v.log first last)) :
    kv = fieldsAt v.record ∨ ∃ k, ∀ p ∈ kv, p.1 = k ∨ p.1 = lit "bytes" ∨ p.1 = lit "arch" := by
  obtain ⟨s, t, hs, hrecord, rfl⟩ := exists_recordAt (b := none) hkv
  have hp : compileWord <+: s := ⟨t, hrecord.eq_append.symm⟩
  rcases places h hfirst hlast hs hp with rfl | ⟨n, hn, ⟨m, rfl⟩, rfl⟩
  · left
    have ht : t = ' ' :: (v.record ++ '\n' :: last) :=
      (List.append_cancel_left hrecord.eq_append).symm
    have hhead : v.record = 'm' :: v.record.tail := by
      obtain ⟨r, hr⟩ := printFields_cons (lit "mode", lit "multi") (v.fields.tail)
      have hmode : lit "mode" = 'm' :: lit "ode" := by decide
      change v.record = _ at hr
      rw [hr, hmode]
      rfl
    rw [ht, List.dropWhile_cons_of_pos (by decide), hhead, List.cons_append,
      List.dropWhile_cons_of_neg (by decide), ← List.cons_append, ← hhead, fieldsAt_append_newline]
  · right
    have ht : t = m ++ ' ' :: (printFields v.back ++ '\n' :: last) := by
      have hwhole : compileWord ++ (m ++ ' ' :: (printFields v.back ++ '\n' :: last)) =
          compileWord ++ t := by rw [← hrecord.eq_append, List.append_assoc]
      exact (List.append_cancel_left hwhole).symm
    have hblank : ∀ c ∈ m, ¬ isBlank c := fun c hc ↦
      (h.nproc c (hn.subset (List.mem_append_right _ hc))).1
    have hhead : ∀ c ∈ (printFields v.back ++ '\n' :: last).head?, isToken c := by
      obtain ⟨r, hr⟩ := printFields_cons (lit "bytes", v.bytes) [(lit "arch", v.arch)]
      have hbytes : lit "bytes" = 'b' :: lit "ytes" := by decide
      rw [back, hr, hbytes]
      rintro c ⟨⟩
      decide
    obtain ⟨k, hk⟩ := exists_key_of_mem hblank hhead
    rw [ht]
    refine ⟨k, fun p hp ↦ (hk p hp).imp_right fun hp ↦ ?_⟩
    rw [fieldsAt_append_newline, fieldsAt_printFields fun p hp ↦
      ⟨(back_isPrintable h p hp).isKey, (back_isPrintable h p hp).isValue⟩, List.mem_reverse] at hp
    have hmem := (List.takeWhile_sublist _).subset hp
    simp only [back, List.mem_cons, List.not_mem_nil, or_false] at hmem
    rcases hmem with rfl | rfl
    · exact .inl rfl
    · exact .inr rfl

/-- White space in the output of `nproc` cuts the record off there. -/
theorem isValue_nproc_of_mem (h : v.Printed) {w : Str}
    (hw : (lit "bytes", w) ∈ fieldsAt v.record) : IsValue v.nproc := by
  by_contra hn
  obtain ⟨u, r, hu, htoken, hr⟩ := exists_word isToken v.nproc
  cases r with
  | nil => exact hn fun c hc ↦ htoken c (by simpa [hu] using hc)
  | cons x r =>
      have hx : ¬ isBlank x := (h.nproc x (hu ▸ by simp)).1
      have hkeys : ∀ p ∈ v.front ++ [(lit "cores", u)], IsKey p.1 ∧ IsValue p.2 := by
        have hcores : IsKey (lit "cores") := by decide
        rw [List.forall_mem_append, List.forall_mem_singleton]
        exact ⟨fun p hp ↦ ⟨(front_isPrintable h p hp).isKey, (front_isPrintable h p hp).isValue⟩,
          hcores, htoken⟩
      have hcut : v.record = printFields (v.front ++ [(lit "cores", u)]) ++
          x :: (r ++ ' ' :: printFields v.back) := by
        rw [printFields_append v.front_ne_nil (List.cons_ne_nil _ _), record_eq, hu,
          printFields, printField]
        simp
      rw [hcut, fieldsAt_append_space (hr x rfl) hx, fieldsAt_printFields hkeys,
        List.mem_reverse] at hw
      have hmem := (List.takeWhile_sublist _).subset hw
      have hne : ∀ k ∈ [lit "mode", lit "ok", lit "elapsed_s", lit "cores"], lit "bytes" ≠ k := by
        decide
      have hrc : lit "rc" ≠ lit "bytes" := by decide
      simp only [List.forall_mem_cons] at hne
      simp [front, hne, hrc] at hmem

theorem readable_of_survives (h : v.Printed) {first last : Str} (hfirst : Unmarked first)
    (hlast : Unmarked last) (hs : v.Survives (v.log first last)) : v.Readable := by
  obtain ⟨kv, hparse, hkept⟩ := hs
  rw [parseCompile_eq, Option.some.injEq] at hparse
  have hmem : ∀ p ∈ v.kept, p ∈ kv := by
    intro p hp
    obtain ⟨l₁, l₂, rfl, _⟩ := List.lookup_eq_some_iff.mp (hkept p hp)
    exact List.mem_append_right _ List.mem_cons_self
  simp only [kept, List.forall_mem_cons] at hmem
  obtain ⟨hmode, hok, _, hbytes, harch, _⟩ := hmem
  rcases mem_fields h hfirst hlast (List.mem_of_getLast? hparse) with rfl | ⟨k, hk⟩
  · have hn := isValue_nproc_of_mem h hbytes
    rw [record, fieldsAt_printFields (isKey_fields h hn), List.mem_reverse] at harch
    have hfields : v.fields = (v.front ++ [(lit "cores", v.nproc), (lit "bytes", v.bytes)]) ++
        [(lit "arch", v.arch)] := by
      simp [fields, back]
    rw [hfields] at harch
    have hlast : (lit "arch", v.arch) ∉
        v.front ++ [(lit "cores", v.nproc), (lit "bytes", v.bytes)] := by
      have hnodup := hfields ▸ v.nodup_fields
      rw [List.map_append, List.nodup_append'] at hnodup
      exact fun hmem ↦ hnodup.2.2 (List.mem_map_of_mem hmem) List.mem_cons_self
    have hne : ∀ p ∈ v.fields, p.2 ≠ [] := by
      rw [hfields]
      exact fun p hp ↦ of_decide_eq_true (forall_of_mem_takeWhile hlast harch p hp)
    rw [fields, List.forall_mem_append, List.forall_mem_cons] at hne
    refine ⟨fun hrc ↦ ?_, hn, hne.2.1, hne.2.2 (lit "bytes", v.bytes) List.mem_cons_self⟩
    exact hne.1 (lit "rc", []) (by simp [front, hrc]) rfl
  · have hne : ∀ k ∈ [lit "bytes", lit "arch"], lit "mode" ≠ k ∧ lit "ok" ≠ k := by decide
    simp only [List.forall_mem_cons] at hne
    have hdistinct : lit "mode" ≠ lit "ok" := by decide
    have hmode := hk _ hmode
    have hok := hk _ hok
    simp only [hne.1.1, hne.1.2, hne.2.1.1, hne.2.1.2, or_false] at hmode hok
    exact absurd (hmode.trans hok.symm) hdistinct

theorem ne_nil_of_mem_fields (h : v.Printed) (hr : v.Readable) : ∀ p ∈ v.fields, p.2 ≠ [] := by
  have hmulti : lit "multi" ≠ [] := by decide
  have hanswer : (if v.ok then lit "true" else lit "false") ≠ [] := by split <;> decide
  have harch : v.arch ≠ [] := by
    rcases h.arch with harch | harch <;> rw [harch] <;> decide
  have hrc : ∀ r ∈ v.rc, r ≠ [] := fun r hrc hnil ↦ hr.rc (hnil ▸ hrc)
  simp only [fields, front, back, List.cons_append, List.append_assoc, List.forall_mem_cons,
    List.forall_mem_append, List.forall_mem_map, Option.mem_toList, List.nil_append]
  exact ⟨hmulti, hanswer, hrc, h.elapsed_ne_nil, hr.nproc_ne_nil, hr.bytes, harch,
    List.forall_mem_nil _⟩

/-- A readable record is the only one that is read, with all its fields. -/
theorem matchedFields_log (h : v.Printed) (hr : v.Readable) {first last : Str}
    (hfirst : Unmarked first) (hlast : Unmarked last) :
    matchedFields (v.log first last) = [v.fields.reverse] := by
  have hkeys := isKey_fields h hr.nproc
  have hne := ne_nil_of_mem_fields h hr
  have hwords : wordsOf (v.record ++ '\n' :: last) = wordsOf v.record :=
    fields_append_cons (by decide) (by decide) v.record last
  have hsome : wordsOf v.record ≠ [] :=
    wordsOf_printFields_ne_nil (l := v.fields.tail) hkeys (hne _ List.mem_cons_self)
  have hsplit := splits_record (w := compileWord) (u := [' ']) (s := v.record ++ '\n' :: last)
    (v := '\n' :: last) isToken_equals not_isToken_of_isSpace (by decide) (by decide)
    (by rw [← wordsOf, hwords, record, joinFields_printFields hkeys hne])
    (by rw [← wordsOf, hwords]; exact hsome)
  have htext : v.log first last =
      first ++ (compileWord ++ (' ' :: (v.record ++ '\n' :: last))) := by
    rw [log_eq, List.append_assoc]
  have hflat : [compileWord, [' '], joinFields (wordsOf v.record)].flatten ++ '\n' :: last =
      compileWord ++ (' ' :: (v.record ++ '\n' :: last)) := by
    rw [record, joinFields_printFields hkeys hne]
    simp
  rw [← wordsOf, hwords] at hsplit
  have hmatch := hsplit.finditer (by simp) (first.getLast?.or none)
  have hrest : ∀ b, finditer compilePattern 0 b ('\n' :: last) = [] := fun b ↦
    finditer_of_not_infix _ b (by decide) hlast.cons_newline
  rw [hflat, ← compilePattern, hrest] at hmatch
  rw [matchedFields, htext, compilePattern, Regex.record,
    finditer_append_word _ none borderless_compileWord hfirst, ← Regex.record, ← compilePattern,
    hmatch, List.filterMap_cons_some (fieldsOf_match _ _ _), List.filterMap_nil, record,
    fieldsAt_printFields hkeys, List.takeWhile_eq_self_iff.mpr fun p hp ↦ decide_eq_true (hne p hp)]

theorem lookup_fields_reverse {k w : Str} :
    v.fields.reverse.lookup k = some w ↔ (k, w) ∈ v.fields :=
  lookup_reverse_eq_some_iff nodup_fields

/-- The fields that matter survive exactly in a readable record. -/
theorem survives_iff_readable (h : v.Printed) {first last : Str} (hfirst : Unmarked first)
    (hlast : Unmarked last) : v.Survives (v.log first last) ↔ v.Readable := by
  refine ⟨readable_of_survives h hfirst hlast, fun hr ↦ ⟨v.fields.reverse, ?_, fun p hp ↦ ?_⟩⟩
  · rw [parseCompile_eq, matchedFields_log h hr hfirst hlast]
    rfl
  · exact lookup_fields_reverse.mpr (kept_subset_fields p hp)

/-! ## The time -/

variable [Unicode]

/-- The time score of the printed values. -/
def timeScore (v : Values) (baselines : Baselines) : Python.Float :=
  if v.ok then timeFrom baselines v.elapsed v.arch else .finite 0

omit [Unicode] in
theorem compileOk_fields : compileOk v.fields.reverse = v.ok := by
  have hlookup : v.fields.reverse.lookup (lit "ok") =
      some (if v.ok then lit "true" else lit "false") :=
    lookup_fields_reverse.mpr (by simp [fields, front])
  have hne : lit "false" ≠ lit "true" := by decide
  rw [compileOk, hlookup]
  cases v.ok <;> simp [hne]

theorem timeScoreOf_fields (baselines : Baselines) :
    timeScoreOf baselines v.fields.reverse = v.timeScore baselines := by
  have hlookup : ∀ p ∈ v.kept, v.fields.reverse.lookup p.1 = some p.2 := fun p hp ↦
    lookup_fields_reverse.mpr (kept_subset_fields p hp)
  simp only [kept, List.forall_mem_cons] at hlookup
  obtain ⟨_, _, helapsed, _, harch, _⟩ := hlookup
  rw [timeScoreOf, compileOk_fields, timeScore, timeFrom, timePoints, timePoints, helapsed, harch]
  rfl

/-- The judge fails on a readable record if it is one of a successful build and its number of cores
is no number. -/
theorem badCores_fields (hr : v.Readable) :
    BadCores v.fields.reverse ↔ v.ok ∧ toInt v.nproc = none := by
  have hlookup : v.fields.reverse.lookup (lit "cores") = some v.nproc :=
    lookup_fields_reverse.mpr (by simp [fields])
  rw [BadCores, compileOk_fields, cores, hlookup]
  simp [hr.nproc_ne_nil]

/-- The time score that is printed for a readable record. -/
theorem printedTimeScore_log (baselines : Baselines) (h : v.Printed) (hr : v.Readable)
    {first last : Str} (hfirst : Unmarked first) (hlast : Unmarked last) :
    printedTimeScore baselines (v.log first last) =
      if v.ok ∧ toInt v.nproc = none then none else some (v.timeScore baselines) := by
  have hfields : lastFields (v.log first last) = v.fields.reverse := by
    rw [lastFields, matchedFields_log h hr hfirst hlast]
    rfl
  rw [printedTimeScore_eq, hfields, timeScoreOf_fields]
  simp only [badCores_fields hr]

/-- **Compile records.**  The fields that matter are read as they were printed, and the time score
is computed from them, exactly if no value is empty, `nproc` prints no white space, and the record
of a successful build has a number of cores. -/
theorem survives_and_timeScore_iff (baselines : Baselines) (h : v.Printed) {first last : Str}
    (hfirst : Unmarked first) (hlast : Unmarked last) :
    (v.Survives (v.log first last) ∧
        printedTimeScore baselines (v.log first last) = some (v.timeScore baselines)) ↔
      v.Readable ∧ (v.ok → toInt v.nproc ≠ none) := by
  rw [survives_iff_readable h hfirst hlast]
  refine and_congr_right fun hr ↦ ?_
  rw [printedTimeScore_log baselines h hr hfirst hlast]
  split
  · next hbad => simp [hbad.1, hbad.2]
  · next hbad => exact iff_of_true rfl (not_and.mp hbad)

omit [Unicode] in
/-- The values of a successful build, with the given number of cores. -/
def sample (nproc : Str) : Values :=
  ⟨true, none, lit "400.00", nproc, lit "524288", lit "riscv64"⟩

omit [Unicode] in
theorem printed_sample {nproc : Str} (h : ∀ c ∈ nproc, ¬ isBlank c ∧ c ≠ '\n') :
    (sample nproc).Printed where
  rc _ hr := nomatch hr
  elapsed := (by decide : IsPlain (lit "400.00"))
  elapsed_ne_nil := (by decide : lit "400.00" ≠ [])
  nproc := h
  bytes := (by decide : IsPlain (lit "524288"))
  arch := .inl rfl

omit [Unicode] in
/-- With eight cores the record survives. -/
theorem survives_sample : (sample (lit "8")).Survives ((sample (lit "8")).log [] []) ∧
    @printedTimeScore asciiOnly referenceBaselines ((sample (lit "8")).log [] []) =
      some (@timeScore asciiOnly (sample (lit "8")) referenceBaselines) := by
  let _ := asciiOnly
  refine (survives_and_timeScore_iff referenceBaselines (printed_sample (by decide)) unmarked_nil
    unmarked_nil).mpr ⟨⟨nofun, by decide, by decide, by decide⟩, fun _ ↦ by decide⟩

omit [Unicode] in
/-- Without a number of cores it does not. -/
theorem not_survives_sample_nil : (sample []).Printed ∧
    ¬ (sample []).Survives ((sample []).log [] []) := by
  have hprinted : (sample []).Printed := printed_sample (by decide)
  exact ⟨hprinted, fun hs ↦
    (readable_of_survives hprinted unmarked_nil unmarked_nil hs).nproc_ne_nil rfl⟩

end Values

end KernelTests.BuildStorm
