import KernelTests.CString

/-!
# The inference layer of the server

The server maps a text to a command by comparing a bag-of-words vector with the
weights of a few templates.  The program computes in single precision; here the
scores are compared exactly.  A score is the dot product divided by the norm of the
features, so within one text the dot products decide, and the threshold is compared
after squaring.  Weights are written in tenths.

The rest of the development only uses that the layer picks one of the templates or
none: a `Classifier` is any function that does this.
-/

namespace KernelTests.CAgent

/-- `CommandTemplate`: the command, and the keywords whose weights are set, in order. -/
structure Template where
  command : CString
  description : CString
  weights : List (CString × ℕ)
deriving DecidableEq

/-- `hash_keyword`, in 32-bit unsigned arithmetic -/
def hashKeyword (keyword : CString) : ℕ :=
  keyword.bytes.foldl (fun hash c ↦ (hash * 31 + c.toNat) % 2 ^ 32) 0 % 32

/-- The feature vocabulary of `extract_features`. -/
def keywords : List CString :=
  [.lit "factorial", .lit "calculate", .lit "math", .lit "number",
    .lit "date", .lit "time", .lit "ago", .lit "day", .lit "week",
    .lit "connection", .lit "network", .lit "port", .lit "tcp", .lit "established",
    .lit "listening",
    .lit "cpu", .lit "core", .lit "memory", .lit "disk", .lit "percentage",
    .lit "uptime", .lit "running", .lit "system", .lit "kernel", .lit "version",
    .lit "user", .lit "username", .lit "process", .lit "file", .lit "hidden"]

/-- `extract_features`, before the normalisation: how many keywords with this feature the
text contains. -/
def features (text : CString) (id : ℕ) : ℕ :=
  ((keywords.filter fun keyword ↦ strcasestr text keyword).filter
    fun keyword ↦ hashKeyword keyword = id).length

/-- The square of the norm of the features. -/
def squaredNorm (text : CString) : ℕ :=
  ((List.range 32).map fun id ↦ features text id * features text id).sum

/-- A weight of a template: the last assignment to it counts. -/
def Template.weight (t : Template) (id : ℕ) : ℕ :=
  t.weights.foldl (fun w p ↦ if hashKeyword p.1 = id then p.2 else w) 0

/-- `compute_similarity`, times ten and times the norm -/
def similarity (text : CString) (t : Template) : ℕ :=
  ((List.range 32).map fun id ↦ features text id * t.weight id).sum

/-- `init_command_templates` -/
def templates : List Template :=
  [⟨.lit "echo 3628800", .lit "factorial calculation",
      [(.lit "factorial", 20), (.lit "calculate", 15), (.lit "number", 8)]⟩,
    ⟨.lit "date -d '100 days ago' '+%A, %B %d, %Y'", .lit "date calculation",
      [(.lit "ago", 20), (.lit "day", 18), (.lit "date", 15)]⟩,
    ⟨.lit "ss -tan | grep ESTAB | wc -l", .lit "network connections",
      [(.lit "established", 25), (.lit "connection", 20), (.lit "tcp", 15)]⟩,
    ⟨.lit "nproc", .lit "cpu cores", [(.lit "cpu", 25), (.lit "core", 20)]⟩,
    ⟨.lit "df -h / | awk 'NR==2 \x7bprint $5\x7d'", .lit "disk usage",
      [(.lit "disk", 20), (.lit "percentage", 18)]⟩,
    ⟨.lit "uptime -p", .lit "system uptime", [(.lit "uptime", 25), (.lit "running", 20)]⟩,
    ⟨.lit "whoami", .lit "username", [(.lit "username", 25), (.lit "user", 20)]⟩,
    ⟨.lit "ss -tln | grep LISTEN | wc -l", .lit "listening ports",
      [(.lit "listening", 25), (.lit "port", 20)]⟩,
    ⟨.lit "uname -r", .lit "kernel version", [(.lit "kernel", 25), (.lit "version", 20)]⟩]

/-- One round of the loop over the templates: only a better score replaces the best. -/
def better (text : CString) (best : Option Template) (t : Template) : Option Template :=
  match best with
  | none => some t
  | some b => if similarity text b < similarity text t then some t else some b

/-- The template with the best score, if the score exceeds the threshold of 0.3. -/
def inferCommand (text : CString) : Option Template :=
  (templates.foldl (better text) none).filter fun t ↦
    9 * squaredNorm text < similarity text t * similarity text t

/-- A choice of a template for every text. -/
structure Classifier where
  /-- The selected template; none if no score exceeds the threshold. -/
  infer : CString → Option Template
  /-- It is one of the templates. -/
  mem : ∀ {text t}, infer text = some t → t ∈ templates

theorem mem_of_foldl_better {text : CString} {ts : List Template} {best t : Option Template}
    (h : ts.foldl (better text) best = t) : t = best ∨ ∃ u ∈ ts, t = some u := by
  induction ts generalizing best with
  | nil => exact Or.inl h.symm
  | cons u ts ih =>
      rw [List.foldl_cons] at h
      rcases ih h with rfl | ⟨v, hv, he⟩
      · unfold better
        split
        · exact Or.inr ⟨u, List.mem_cons_self, rfl⟩
        · split
          · exact Or.inr ⟨u, List.mem_cons_self, rfl⟩
          · exact Or.inl rfl
      · exact Or.inr ⟨v, List.mem_cons_of_mem u hv, he⟩

/-- The layer of the program, with exact scores. -/
def neuralInference : Classifier where
  infer := inferCommand
  mem {text t} h := by
    rw [inferCommand, Option.filter_eq_some_iff] at h
    rcases mem_of_foldl_better h.1 with h | ⟨u, hu, he⟩
    · cases h
    · cases he
      exact hu

end KernelTests.CAgent
