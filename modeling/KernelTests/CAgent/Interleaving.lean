import KernelTests.CAgent.Records

/-!
# Tests that run side by side

The jobs of the script and the server write to one stream.  As long as the other
output does not contain the word a result line starts with, the judge sees the same
records in every order and at every place between other output.
-/

namespace KernelTests.CAgent.Judge

open Python Regex

variable [Unicode]

/-- A log: other output, and result lines that are each followed by other output. -/
def log (first : Str) (pieces : List (ResultLine × Str)) : Str :=
  first ++ pieces.flatMap fun p ↦ p.1.text ++ p.2

/-- The word a result line starts with does not occur. -/
def Foreign (s : Str) : Prop := ¬ lit "testcase" <:+: s

instance : DecidablePred Foreign := fun s ↦ inferInstanceAs (Decidable (¬ lit "testcase" <:+: s))

omit [Unicode] in
theorem Foreign.cons_newline {s : Str} (h : Foreign s) : Foreign ('\n' :: s) := by
  intro hi
  rcases List.infix_cons_iff.mp hi with hp | hi
  · have hlit : lit "testcase" = 't' :: lit "estcase" := by decide
    rw [hlit] at hp
    exact absurd (List.cons_prefix_cons.mp hp).1 (by decide)
  · exact h hi

omit [Unicode] in
theorem foreign_nil : Foreign [] := fun h ↦ absurd (List.infix_nil.mp h) (by decide)

omit [Unicode] in
theorem borderless_testcase : Text.Borderless (lit "testcase") := by decide

/-- The matches in a log are the result lines, in their order. -/
theorem finditer_log (b : Option Char) {first : Str} {pieces : List (ResultLine × Str)}
    (hfirst : Foreign first) (hpieces : ∀ p ∈ pieces, Foreign p.2) :
    finditer pattern 0 b (log first pieces) = pieces.map fun p ↦ p.1.parts := by
  induction pieces generalizing b first with
  | nil =>
      rw [log, List.flatMap_nil, List.append_nil]
      exact finditer_of_not_infix _ b (by decide) hfirst
  | cons p pieces ih =>
      obtain ⟨l, s⟩ := p
      have hs : Foreign ('\n' :: s) :=
        (hpieces (l, s) List.mem_cons_self).cons_newline
      have hline : log first ((l, s) :: pieces) =
          first ++ (lit "testcase" ++ (l.parts.tail.flatten ++ log ('\n' :: s) pieces)) := by
        simp [log, ResultLine.text, ResultLine.parts]
      have hparts : lit "testcase" ++ (l.parts.tail.flatten ++ log ('\n' :: s) pieces) =
          l.parts.flatten ++ log ('\n' :: s) pieces := by
        simp [ResultLine.parts]
      have hsplit := (splits_parts l (s ++ pieces.flatMap fun p ↦ p.1.text ++ p.2)).finditer
        (by simp [ResultLine.parts]) (first.getLast?.or b)
      have hrest := ih (l.parts.flatten.getLast?.or (first.getLast?.or b)) hs
        fun p hp ↦ hpieces p (List.mem_cons_of_mem _ hp)
      rw [hline, pattern, finditer_append_word _ b borderless_testcase hfirst, hparts]
      exact hsplit.trans (congrArg (l.parts :: ·) hrest)

/-- The records of a log, by name. -/
theorem parseRecords_log {first : Str} {pieces : List (ResultLine × Str)}
    (hfirst : Foreign first) (hpieces : ∀ p ∈ pieces, Foreign p.2) :
    parseRecords (log first pieces) = (((pieces.map Prod.fst).map fun l ↦ (l.name, l.record)).filter
      fun r ↦ r.1 ∈ tests.map TestEntry.name).reverse := by
  have hrecord : (record? ∘ fun p : ResultLine × Str ↦ p.1.parts) =
      some ∘ fun p ↦ (p.1.name, p.1.record) := rfl
  rw [parseRecords, finditer_log none hfirst hpieces, List.filterMap_map, hrecord,
    List.filterMap_eq_map, List.map_map]
  rfl

omit [Unicode] in
/-- With distinct keys a lookup finds the entry, wherever it stands. -/
theorem lookup_eq_of_perm {α β : Type} [BEq α] [LawfulBEq α] {l l' : List (α × β)} (h : l.Perm l')
    (hl : (l.map Prod.fst).Nodup) (a : α) : l.lookup a = l'.lookup a := by
  induction h with
  | nil => rfl
  | cons p _ ih =>
      rw [List.lookup_cons, List.lookup_cons, ih (List.nodup_cons.mp hl).2]
  | swap p q l =>
      have hne : q.1 ≠ p.1 := fun he ↦ (List.nodup_cons.mp hl).1 (he ▸ List.mem_cons_self)
      rw [List.lookup_cons, List.lookup_cons, List.lookup_cons, List.lookup_cons]
      cases hq : a == q.1 with
      | false => rfl
      | true =>
          have hp : (a == p.1) = false := beq_false_of_ne (eq_of_beq hq ▸ hne)
          rw [hp]
  | trans h₁ _ ih₁ ih₂ =>
      exact (ih₁ hl).trans (ih₂ ((h₁.map Prod.fst).nodup_iff.mp hl))

/-- **Interleaving.**  Result lines with distinct names give the same results in every order and
with any other output around them. -/
theorem main_log {first : Str} {pieces : List (ResultLine × Str)} (hfirst : Foreign first)
    (hpieces : ∀ p ∈ pieces, Foreign p.2)
    (hnames : (pieces.map fun p ↦ p.1.name).Nodup) {lines : List ResultLine}
    (hlines : lines.Perm (pieces.map Prod.fst)) :
    main (log first pieces) = main (lines.flatMap ResultLine.text) := by
  have halone : lines.flatMap ResultLine.text = log [] (lines.map fun l ↦ (l, [])) := by
    simp [log, List.flatMap_map]
  have hrecords : parseRecords (lines.flatMap ResultLine.text) =
      ((lines.map fun l ↦ (l.name, l.record)).filter
        fun r ↦ r.1 ∈ tests.map TestEntry.name).reverse := by
    rw [halone, parseRecords_log foreign_nil, List.map_map]
    · simp [Function.comp_def]
    · intro p hp
      obtain ⟨l, _, rfl⟩ := List.mem_map.mp hp
      exact foreign_nil
  have hperm : ((((pieces.map Prod.fst).map fun l ↦ (l.name, l.record)).filter
      fun r ↦ r.1 ∈ tests.map TestEntry.name).reverse).Perm
      (((lines.map fun l ↦ (l.name, l.record)).filter
        fun r ↦ r.1 ∈ tests.map TestEntry.name).reverse) :=
    (List.reverse_perm _).trans (((hlines.symm.map _).filter _).trans (List.reverse_perm _).symm)
  have hnodup : ((((pieces.map Prod.fst).map fun l ↦ (l.name, l.record)).filter
      fun r ↦ r.1 ∈ tests.map TestEntry.name).reverse.map Prod.fst).Nodup := by
    rw [List.map_reverse, List.nodup_reverse]
    refine List.Nodup.sublist (List.filter_sublist.map _) ?_
    simpa [Function.comp_def] using hnames
  refine List.map_congr_left fun test _ ↦ congrArg (result test) ?_
  rw [parseRecords_log hfirst hpieces, hrecords]
  exact lookup_eq_of_perm hperm hnodup test.name

omit [Unicode] in
/-- The server prints between two lines that come in the other order. -/
theorem main_log_cpu_date :
    letI := asciiOnly
    let cpu : ResultLine := ⟨lit "cpu", true, lit "512", by decide, by decide, by decide, by decide⟩
    let date : ResultLine := ⟨lit "date", false, lit "7", by decide, by decide, by decide, by decide⟩
    main (log (lit "Server st") [(date, lit "arted\n"), (cpu, lit "Shutting down")]) =
      main ([cpu, date].flatMap ResultLine.text) :=
  let _ := asciiOnly
  main_log (by decide)
    (List.forall_mem_cons.mpr ⟨by decide, List.forall_mem_cons.mpr ⟨by decide, List.forall_mem_nil _⟩⟩)
    (by decide) (List.Perm.swap _ _ _)

end KernelTests.CAgent.Judge
