import KernelTests.CAgent.Judge

/-!
# Result lines

A result line is what `run_test` prints for a test.  The pattern of the judge takes
it apart into the fields it was printed from, whatever stands in front of it and
behind it, provided the word it starts with does not occur in front of it.
-/

namespace KernelTests.CAgent.Judge

open Python Regex

variable [Unicode]

/-- The fields of a result line. -/
structure ResultLine where
  name : Str
  passed : Bool
  elapsed : Str
  name_ne_nil : name ≠ []
  name_noSpace : ∀ c ∈ name, !isSpace c
  elapsed_ne_nil : elapsed ≠ []
  elapsed_decimal : ∀ c ∈ elapsed, isDecimal c

namespace ResultLine

/-- `pass` or `reject` -/
def status (l : ResultLine) : Str := if l.passed then lit "pass" else lit "reject"

/-- The parts of the line, as the pattern has them. -/
def parts (l : ResultLine) : List Str :=
  [lit "testcase", [' '], lit "cagent", [' '], l.name, [' '], l.status, [' '], l.elapsed]

/-- The line, with the newline that ends it. -/
def text (l : ResultLine) : Str := l.parts.flatten ++ ['\n']

/-- The record of the line. -/
def record (l : ResultLine) : Record := ⟨l.status, l.elapsed⟩

end ResultLine

/-- A digit is no white space. -/
theorem not_isSpace_of_isDecimal {c : Char} (h : isDecimal c) : ¬ isSpace c := by
  intro hs
  rw [isDecimal, Unicode.decimal_of_isSpace c hs] at h
  cases h

theorem not_isDecimal_newline : ¬ isDecimal '\n' := fun h ↦ not_isSpace_of_isDecimal h (by decide)

/-- The pattern takes a line apart. -/
theorem splits_parts (l : ResultLine) (s : Str) : Splits pattern l.parts ('\n' :: s) := by
  have hblank : ∀ {v : Str}, (∀ c ∈ v.head?, !isSpace c) → Takes (plus (.char isSpace)) [' '] v :=
    fun hv ↦ takes_plus_char (by decide) (by decide) fun c hc ↦ by simpa using hv c hc
  have hstatus : ∀ v : Str, Takes (.alt (word (lit "pass")) (word (lit "reject"))) l.status v := by
    intro v
    rw [ResultLine.status]
    split
    · exact (takes_word _ v).altLeft
    · refine (takes_word _ v).altRight fun b ↦ ?_
      rw [run_word, if_neg (Text.not_prefix_append (by decide) (by decide) v)]
  have hfirst : ∀ {u : Str} (us : List Str) (v : Str), u ≠ [] → (∀ c ∈ u, !isSpace c) →
      ∀ c ∈ ((u :: us).flatten ++ v).head?, !isSpace c := by
    intro u us v hne hu c hc
    rw [List.flatten_cons, List.append_assoc, List.head?_append_of_ne_nil _ hne] at hc
    exact hu c (List.mem_of_mem_head? hc)
  have helapsed : ∀ c ∈ l.elapsed, !isSpace c := fun c hc ↦ by
    simpa using not_isSpace_of_isDecimal (l.elapsed_decimal c hc)
  have hletters : ∀ c ∈ l.status, !isSpace c := by
    rw [ResultLine.status]
    split <;> decide
  have hstatus_ne : l.status ≠ [] := by
    rw [ResultLine.status]
    split <;> decide
  refine (takes_word _ _).splits ((hblank (hfirst _ _ (by decide) (by decide))).splits
    ((takes_word _ _).splits ((hblank (hfirst _ _ l.name_ne_nil l.name_noSpace)).splits
    (Takes.splits ?_ ((hblank (hfirst _ _ hstatus_ne hletters)).splits ((hstatus _).splits
    ((hblank (hfirst _ _ l.elapsed_ne_nil helapsed)).splits (Takes.splits ?_ (splits_nil _)))))))))
  · exact takes_plus_char l.name_ne_nil l.name_noSpace (by simp; decide)
  · exact takes_plus_char l.elapsed_ne_nil l.elapsed_decimal fun c hc ↦ by
      cases hc
      exact not_isDecimal_newline

end KernelTests.CAgent.Judge
