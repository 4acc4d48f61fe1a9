import KernelTests.CJson.Tree

/-!
# Building and releasing single nodes

The constructors of cJSON and `cJSON_Delete`.  Releasing a linked list of trees leaves
nothing of it behind and touches nothing else, whatever the first tree holds in `prev`: a
list that is still being built can be released as well as a finished one.
-/

namespace KernelTests.CJson

open Memory

variable {A ν : Type} [DecidableEq A]

/-! ## Releasing -/

/-- Release the string of a node, unless it belongs to another one. -/
def releaseValuestring (item : Option A) : Action A ν Unit := do
  let n ← loadNode item
  if !n.isReference && n.valuestring.isSome then
    free n.valuestring
    modifyNode item fun n ↦ { n with valuestring := none }

/-- Release the key of a node, unless it is constant. -/
def releaseString (item : Option A) : Action A ν Unit := do
  let n ← loadNode item
  if !n.stringIsConst && n.string.isSome then
    free n.string
    modifyNode item fun n ↦ { n with string := none }

/-- The loop of `cJSON_Delete` over the siblings, which calls itself for the children. -/
def deleteFrom : ℕ → Option A → Action A ν Unit
  | 0, _ => failure
  | fuel + 1, item => do
    if item.isSome then
      let next := (← loadNode item).next
      let n ← loadNode item
      (if !n.isReference && n.child.isSome then deleteFrom fuel n.child else return ())
      releaseValuestring item
      releaseString item
      free item
      deleteFrom fuel next

/-- `cJSON_Delete` -/
def delete (item : Option A) : Action A ν Unit := walk fun fuel ↦ deleteFrom fuel item

variable {a : A} {n : Node A ν} {s : Option (StringBlock A)}

theorem releaseValuestring_spec (hr : n.isReference = false)
    (hs : n.valuestring = s.map StringBlock.addr) :
    Spec (releaseValuestring (some a)) ({(a, .node n)} + stringCells s)
      fun _ P ↦ P = {(a, .node { n with valuestring := none })} := by
  refine Spec.loadNode rfl rfl ?_
  cases s with
  | none =>
      have hn : n.valuestring = none := hs
      rw [if_neg (by simp [hn])]
      refine Spec.pure ?_
      rw [stringCells, add_zero, ← hn]
  | some s =>
      have hn : n.valuestring = some s.addr := hs
      rw [if_pos (by simp [hn, hr])]
      refine Memory.Spec.free hn (add_comm _ _) ?_
      refine Memory.Spec.last ?_
      exact Spec.modifyNode (R := 0) rfl (add_zero _).symm (Spec.pure (add_zero _))

theorem releaseString_spec (hc : n.stringIsConst = false)
    (hs : n.string = s.map StringBlock.addr) :
    Spec (releaseString (some a)) ({(a, .node n)} + stringCells s)
      fun _ P ↦ P = {(a, .node { n with string := none })} := by
  refine Spec.loadNode rfl rfl ?_
  cases s with
  | none =>
      have hn : n.string = none := hs
      rw [if_neg (by simp [hn])]
      refine Spec.pure ?_
      rw [stringCells, add_zero, ← hn]
  | some s =>
      have hn : n.string = some s.addr := hs
      rw [if_pos (by simp [hn, hc])]
      refine Memory.Spec.free hn (add_comm _ _) ?_
      refine Memory.Spec.last ?_
      exact Spec.modifyNode (R := 0) rfl (add_zero _).symm (Spec.pure (add_zero _))

/-- One round: the children, the strings and the node itself, and then the siblings. -/
theorem deleteFrom_step {fuel : ℕ} {d : Fields A ν} {cs : List (Item A ν)}
    {next prev' : Option A} {R : Multiset (A × Cell A ν)} (prev : Option A)
    (hchild : Spec (deleteFrom fuel (first Item.addr none cs)) (forest none prev' cs)
      fun _ P ↦ P = 0)
    (hnext : Spec (deleteFrom fuel next) R fun _ P ↦ P = 0) :
    Spec (deleteFrom (fuel + 1) (some a))
      ({(a, .node (d.node (first Item.addr none cs) next prev))} +
        (d.cells + forest none prev' cs + R)) fun _ P ↦ P = 0 := by
  let n := d.node (first Item.addr none cs) next prev
  have hchild' : Spec (if !n.isReference && n.child.isSome then deleteFrom fuel n.child
      else pure ()) (forest none prev' cs) fun _ P ↦ P = 0 := by
    cases cs with
    | nil => exact Spec.pure rfl
    | cons c cs => exact hchild
  rw [deleteFrom, if_pos Option.isSome_some]
  refine Spec.loadNode rfl rfl (Spec.loadNode rfl rfl ?_)
  refine Memory.Spec.call (R := {(a, .node n)} + (stringCells d.valuestring +
    (stringCells d.string + R))) hchild' ?_ ?_
  · rw [Fields.cells]
    simp only [n]
    abel
  rintro _ _ rfl
  refine Memory.Spec.call (R := stringCells d.string + R)
    (releaseValuestring_spec (n := n) rfl rfl) (by abel) ?_
  rintro _ _ rfl
  refine Memory.Spec.call (R := R)
    (releaseString_spec (n := { n with valuestring := none }) rfl rfl) (by abel) ?_
  rintro _ _ rfl
  exact Memory.Spec.free rfl rfl hnext

theorem deleteFrom_null (fuel : ℕ) :
    Spec (deleteFrom (fuel + 1) (none : Option A)) (0 : Multiset (A × Cell A ν))
      fun _ P ↦ P = 0 := Spec.pure rfl

theorem deleteFrom_spec (ts : List (Item A ν)) (prev : Option A) (fuel : ℕ)
    (hfuel : (forest none prev ts).card < fuel) :
    Spec (deleteFrom fuel (first Item.addr none ts)) (forest none prev ts) fun _ P ↦ P = 0 := by
  induction ts using Item.forest_ind generalizing prev fuel with
  | nil =>
      obtain ⟨fuel, rfl⟩ := Nat.exists_eq_add_of_lt hfuel
      exact Spec.pure rfl
  | cons a d cs ts ihc iht =>
      rw [forest_cons, Item.addr_mk, Item.cells_mk] at hfuel ⊢
      simp only [Multiset.card_add, Multiset.card_singleton] at hfuel
      obtain ⟨fuel, rfl⟩ : ∃ k, fuel = k + 1 := ⟨fuel - 1, by omega⟩
      rw [add_assoc]
      exact deleteFrom_step prev (ihc _ fuel (by omega)) (iht (some a) fuel (by omega))

/-- Every cell of a linked list is released, and nothing else is touched. -/
theorem delete_forest (ts : List (Item A ν)) (prev : Option A) :
    Spec (delete (first Item.addr none ts)) (forest none prev ts) fun _ P ↦ P = 0 :=
  Memory.Spec.walk fun fuel hfuel ↦ deleteFrom_spec ts prev fuel hfuel

/-- A tree whose children are not closed to a ring yet is released as well. -/
theorem delete_draft (d : Fields A ν) (cs : List (Item A ν)) (prev prev' : Option A) :
    Spec (delete (some a)) ({(a, .node (d.node (first Item.addr none cs) none prev))} +
      (d.cells + forest none prev' cs)) fun _ P ↦ P = 0 := by
  refine Memory.Spec.walk fun fuel hfuel ↦ ?_
  simp only [Multiset.card_add, Multiset.card_singleton] at hfuel
  obtain ⟨fuel, rfl⟩ : ∃ k, fuel = k + 2 := ⟨fuel - 2, by omega⟩
  have h := deleteFrom_step (a := a) (d := d) (R := 0) prev
    (deleteFrom_spec cs prev' (fuel + 1) (by omega)) (deleteFrom_null fuel)
  rwa [add_zero] at h

end KernelTests.CJson
