import KernelTests.CJson.Create

/-!
# Copying trees

`cJSON_Duplicate`.  The copy of a tree shares no cell with it; if a request fails on the way,
everything copied so far is released and the heap is as it was.
-/

namespace KernelTests.CJson

open Memory

variable {A ν : Type} [DecidableEq A] [CDouble ν] (M : Allocator A (Cell A ν))

/-! ## The program -/

/-- Copy the string of a node; whether that succeeded. -/
def copyValuestring (n : Node A ν) (newitem : Option A) : Action A ν Bool := do
  if n.valuestring.isSome then
    let s ← loadText n.valuestring
    let copy ← strdup M (some s)
    modifyNode newitem fun m ↦ { m with valuestring := copy }
    return copy.isSome
  else return true

/-- Copy the key of a node; a constant one is shared. -/
def copyString (n : Node A ν) (newitem : Option A) : Action A ν Bool := do
  if n.string.isSome then
    let copy ← (if n.stringIsConst then pure n.string
      else loadText n.string >>= fun s ↦ strdup M (some s))
    modifyNode newitem fun m ↦ { m with string := copy }
    return copy.isSome
  else return true

/-- The label `fail` -/
def duplicateFail (newitem : Option A) : Action A ν (Option A) := do
  (if newitem.isSome then delete newitem else return ())
  return none

/-- The loop of `cJSON_Duplicate` over the children, and what stands behind it. -/
def duplicateChildren (copy : Option A → Action A ν (Option A)) (newitem : Option A) :
    ℕ → (child next newchild : Option A) → Action A ν (Option A)
  | 0, _, _, _ => failure
  | fuel + 1, child, next, newchild => do
    if child.isSome then
      let newchild ← copy child
      if newchild.isNone then
        duplicateFail newitem
      else
        (if next.isSome then do
          modifyNode next fun m ↦ { m with next := newchild }
          modifyNode newchild fun m ↦ { m with prev := next }
        else modifyNode newitem fun m ↦ { m with child := newchild })
        duplicateChildren copy newitem fuel (← loadNode child).next newchild newchild
    else
      let m ← loadNode newitem
      (if m.child.isSome then modifyNode m.child fun c ↦ { c with prev := newchild }
      else return ())
      return newitem

/-- `cJSON_Duplicate`; the fuel bounds the nesting. -/
def duplicateFrom : ℕ → Option A → Bool → Action A ν (Option A)
  | 0, _, _ => failure
  | fuel + 1, item, recurse => do
    if item.isNone then
      duplicateFail none
    else
      let newitem ← newItem M
      if newitem.isNone then
        duplicateFail none
      else
        let n ← loadNode item
        modifyNode newitem fun m ↦
          { m with kind := n.kind, isReference := false, stringIsConst := n.stringIsConst }
        modifyNode newitem fun m ↦ { m with valueint := n.valueint }
        modifyNode newitem fun m ↦ { m with valuedouble := n.valuedouble }
        let copied ← copyValuestring M n newitem
        if !copied then
          duplicateFail newitem
        else
          let copied ← copyString M n newitem
          if !copied then
            duplicateFail newitem
          else if !recurse then
            return newitem
          else
            walk fun k ↦ duplicateChildren (fun c ↦ duplicateFrom fuel c true) newitem k
              n.child none none

/-- `cJSON_Duplicate` -/
def duplicate (item : Option A) (recurse : Bool) : Action A ν (Option A) :=
  walk fun fuel ↦ duplicateFrom M fuel item recurse

variable {M}

/-! ## Copies -/

/-- The nodes hold the same, in blocks of their own. -/
structure Fields.Same (d d' : Fields A ν) : Prop where
  kind : d'.kind = d.kind
  valuestring : d'.valuestring.map StringBlock.value = d.valuestring.map StringBlock.value
  valueint : d'.valueint = d.valueint
  valuedouble : d'.valuedouble = d.valuedouble
  string : d'.string.map StringBlock.value = d.string.map StringBlock.value

mutual

/-- The second tree is a copy of the first. -/
def Item.CopyOf : Item A ν → Item A ν → Prop
  | .mk _ d cs, .mk _ d' cs' => d.Same d' ∧ ForestCopyOf cs cs'

/-- The trees of the second list are copies of those of the first. -/
def ForestCopyOf : List (Item A ν) → List (Item A ν) → Prop
  | [], [] => True
  | c :: cs, c' :: cs' => c.CopyOf c' ∧ ForestCopyOf cs cs'
  | _, _ => False

end

/-! ## What is copied -/

variable {a : A} {n m : Node A ν} {s : Option (StringBlock A)}

omit [CDouble ν] in
theorem copyValuestring_spec (hn : n.valuestring = s.map StringBlock.addr)
    (hm : m.valuestring = none) :
    Spec (copyValuestring M n (some a)) ({(a, .node m)} + stringCells s) fun r P ↦
      (r = false ∧ P = {(a, .node m)} + stringCells s ∧ ¬ M.Unfailing) ∨
      ∃ s' : Option (StringBlock A), s'.map StringBlock.value = s.map StringBlock.value ∧
        r = true ∧ P = {(a, .node { m with valuestring := s'.map StringBlock.addr })} +
          stringCells s' + stringCells s := by
  rw [copyValuestring]
  cases s with
  | none =>
      have hn : n.valuestring = none := hn
      rw [if_neg (by simp [hn])]
      refine Spec.pure (Or.inr ⟨none, rfl, rfl, ?_⟩)
      rw [Option.map_none, ← hm]
      simp [stringCells]
  | some s =>
      have hn : n.valuestring = some s.addr := hn
      rw [if_pos (by simp [hn])]
      refine Spec.loadText hn (by simp [stringCells]) s.text ?_
      refine Memory.Spec.alloc (fun hM ↦ ?_) fun b ↦ ?_
      · refine Spec.modifyNode rfl rfl (Spec.pure (Or.inl ⟨rfl, ?_, hM⟩))
        rw [← hm]
      · refine Spec.modifyNode rfl (add_left_comm _ _ _) (Spec.pure (Or.inr
          ⟨some (.copy b s.value), rfl, rfl, ?_⟩))
        rw [add_assoc]
        rfl

omit [CDouble ν] in
theorem copyString_spec (hn : n.string = s.map StringBlock.addr)
    (hc : n.stringIsConst = false) (hm : m.string = none) :
    Spec (copyString M n (some a)) ({(a, .node m)} + stringCells s) fun r P ↦
      (r = false ∧ P = {(a, .node m)} + stringCells s ∧ ¬ M.Unfailing) ∨
      ∃ s' : Option (StringBlock A), s'.map StringBlock.value = s.map StringBlock.value ∧
        r = true ∧ P = {(a, .node { m with string := s'.map StringBlock.addr })} +
          stringCells s' + stringCells s := by
  rw [copyString]
  cases s with
  | none =>
      have hn : n.string = none := hn
      rw [if_neg (by simp [hn])]
      refine Spec.pure (Or.inr ⟨none, rfl, rfl, ?_⟩)
      rw [Option.map_none, ← hm]
      simp [stringCells]
  | some s =>
      have hn : n.string = some s.addr := hn
      rw [if_pos (by simp [hn]), if_neg (by simp [hc]), bind_assoc]
      refine Spec.loadText hn (by simp [stringCells]) s.text ?_
      refine Memory.Spec.alloc (fun hM ↦ ?_) fun b ↦ ?_
      · refine Spec.modifyNode rfl rfl (Spec.pure (Or.inl ⟨rfl, ?_, hM⟩))
        rw [← hm]
      · refine Spec.modifyNode rfl (add_left_comm _ _ _) (Spec.pure (Or.inr
          ⟨some (.copy b s.value), rfl, rfl, ?_⟩))
        rw [add_assoc]
        rfl

/-- A copy of the tree beside it, or nothing, because a request failed. -/
def CopiesItem (M : Allocator A (Cell A ν)) (t : Item A ν) (next prev : Option A) (r : Option A)
    (P : Multiset (A × Cell A ν)) : Prop :=
  (r = none ∧ P = t.cells next prev ∧ ¬ M.Unfailing) ∨
    ∃ t', r = some t'.addr ∧ t.CopyOf t' ∧ P = t'.cells none none + t.cells next prev

omit [CDouble ν] in
/-- What was copied so far is released. -/
theorem duplicateFail_spec (d : Fields A ν) (cs : List (Item A ν)) {P₀ R : Multiset (A × Cell A ν)}
    {Q : Option A → Multiset (A × Cell A ν) → Prop}
    (hP : P₀ = {(a, .node (d.node (first Item.addr none cs) none none))} +
      (d.cells + forest none none cs) + R) (hQ : Q none R) :
    Spec (duplicateFail (some a)) P₀ Q := by
  rw [duplicateFail, if_pos Option.isSome_some]
  refine Memory.Spec.call (R := R) (delete_draft d cs none none) hP ?_
  rintro _ _ rfl
  rw [zero_add]
  exact Spec.pure hQ

omit [CDouble ν] in
/-- Linking a new child behind those that are there, or as the first one. -/
theorem linkChild_spec (d : Fields A ν) (done : List (Item A ν)) (t : Item A ν) :
    Spec (if (last Item.addr none done).isSome then
        suffixObject (last Item.addr none done) (some t.addr)
      else modifyNode (some a) fun m ↦ { m with child := some t.addr })
      ({(a, .node (d.node (first Item.addr none done) none none))} +
        (forest none none done + t.cells none none))
      fun _ P ↦ P = {(a, .node (d.node (first Item.addr none (done ++ [t])) none none))} +
        forest none none (done ++ [t]) := by
  cases done with
  | nil =>
      rw [last_nil, if_neg (by simp), forest_nil, zero_add, List.nil_append, first_cons,
        forest_singleton]
      exact Memory.Spec.last (Spec.modifyNode rfl rfl (Spec.pure rfl))
  | cons e es =>
      rw [if_pos (isSome_last (List.cons_ne_nil e es)), first_append, first_cons]
      refine Memory.Spec.tail (suffixObject_spec t none none (List.cons_ne_nil e es) rfl)
        (add_comm _ _) ?_
      rintro _ _ rfl
      rw [add_comm]
      rfl

omit [CDouble ν] in
/-- The loop over the children, with some of them copied already. -/
theorem duplicateChildren_spec {copy : Option A → Action A ν (Option A)} (d : Fields A ν)
    (ts done : List (Item A ν)) (prev : Option A) (fuel : ℕ)
    (hcopy : ∀ t ∈ ts, ∀ next prev, Spec (copy (some t.addr)) (t.cells next prev)
      (CopiesItem M t next prev))
    (hfuel : ts.length < fuel) :
    Spec (duplicateChildren copy (some a) fuel (first Item.addr none ts)
        (last Item.addr none done) (last Item.addr none done))
      ({(a, .node (d.node (first Item.addr none done) none none))} +
        (d.cells + forest none none done) + forest none prev ts)
      fun r P ↦ (r = none ∧ P = forest none prev ts ∧ ¬ M.Unfailing) ∨
        ∃ us, ForestCopyOf ts us ∧ r = some a ∧
          P = (Item.mk a d (done ++ us)).cells none none + forest none prev ts := by
  induction ts generalizing done prev fuel with
  | nil =>
      obtain ⟨fuel, rfl⟩ := Nat.exists_eq_add_of_lt hfuel
      rw [first_nil, forest_nil, add_zero]
      refine Spec.loadNode rfl rfl ?_
      refine Memory.Spec.call (R := {(a, .node (d.node (first Item.addr none done) none none))} +
        d.cells) (closeList_spec done none) (by abel) ?_
      rintro _ _ rfl
      refine Spec.pure (Or.inr ⟨[], trivial, rfl, ?_⟩)
      rw [List.append_nil, Item.cells_mk]
      abel
  | cons t ts ih =>
      obtain ⟨fuel, rfl⟩ : ∃ k, fuel = k + 1 := ⟨fuel - 1, by omega⟩
      rw [first_cons, duplicateChildren, if_pos Option.isSome_some, forest_cons]
      refine Memory.Spec.call (R := {(a, .node (d.node (first Item.addr none done) none none))} +
        (d.cells + forest none none done) + forest none (some t.addr) ts)
        (hcopy t List.mem_cons_self (first Item.addr none ts) prev) (by abel) ?_
      rintro _ _ (⟨rfl, rfl, hM⟩ | ⟨t', rfl, ht, rfl⟩)
      · rw [if_pos Option.isNone_none]
        exact duplicateFail_spec d done (by abel) (Or.inl ⟨rfl, rfl, hM⟩)
      · rw [if_neg (by simp)]
        refine Memory.Spec.call (R := d.cells + forest none prev (t :: ts))
          (linkChild_spec d done t') ?_ ?_
        · rw [forest_cons]
          abel
        rintro _ _ rfl
        refine Spec.loadItem (t := t) (R := {(a, .node (d.node (first Item.addr none (done ++ [t']))
          none none))} + forest none none (done ++ [t']) + d.cells + forest none (some t.addr) ts)
          rfl (by rw [forest_cons]; abel) ?_
        have hrest := ih (done ++ [t']) (some t.addr) fuel
          (fun u hu ↦ hcopy u (List.mem_cons_of_mem t hu))
          (by rw [List.length_cons] at hfuel; omega)
        rw [last_concat] at hrest
        refine Memory.Spec.tail (R := t.cells (first Item.addr none ts) prev) hrest
          (by rw [forest_cons]; abel) ?_
        rintro _ _ (⟨rfl, rfl, hM⟩ | ⟨us, hus, rfl, rfl⟩)
        · exact Or.inl ⟨rfl, add_comm _ _, hM⟩
        · refine Or.inr ⟨t' :: us, ⟨ht, hus⟩, rfl, ?_⟩
          rw [List.append_assoc, List.singleton_append]
          abel

/-- The copy of a tree with its children. -/
theorem duplicateFrom_spec (t : Item A ν) (next prev : Option A) (fuel : ℕ)
    (hfuel : (t.cells next prev).card ≤ fuel) :
    Spec (duplicateFrom M fuel (some t.addr) true) (t.cells next prev)
      (CopiesItem M t next prev) := by
  induction t using Item.ind generalizing next prev fuel with
  | mk a d cs ih =>
      rw [Item.cells_mk] at hfuel
      simp only [Multiset.card_add, Multiset.card_singleton] at hfuel
      obtain ⟨fuel, rfl⟩ : ∃ k, fuel = k + 1 := ⟨fuel - 1, by omega⟩
      have hcs : ∀ c ∈ cs, ∀ n p, (c.cells n p).card ≤ fuel := fun c hc n p ↦
        (Item.card_cells_le hc n p none (last Item.addr none cs)).trans (by omega)
      let n := d.node (first Item.addr none cs) next prev
      let d₀ : Fields A ν := ⟨d.kind, none, d.valueint, d.valuedouble, none⟩
      let below := forest none (last Item.addr none cs) cs
      have ht : (Item.mk a d cs).cells next prev =
          {(a, .node n)} + (stringCells d.valuestring + (stringCells d.string + below)) := by
        rw [Item.cells_mk, Fields.cells, add_assoc]
      rw [duplicateFrom, if_neg (by simp)]
      refine Spec.newItem (fun hM ↦ Spec.pure (Or.inl ⟨rfl, rfl, hM⟩)) fun b ↦ ?_
      rw [if_neg (by simp), ht]
      refine Spec.loadNode rfl (add_left_comm _ _ _) (Spec.modifyNode rfl rfl
        (Spec.modifyNode rfl rfl (Spec.modifyNode rfl rfl ?_)))
      refine Memory.Spec.call (R := {(a, .node n)} + (stringCells d.string + below))
        (copyValuestring_spec (n := n) (m := d₀.node none none none) rfl rfl) ?_ ?_
      · change {(b, Cell.node (d₀.node none none none))} + _ = _
        abel
      rintro _ _ (⟨rfl, rfl, hM⟩ | ⟨v, hv, rfl, rfl⟩)
      · rw [if_pos (by simp)]
        refine duplicateFail_spec (R := (Item.mk a d cs).cells next prev) d₀ [] ?_
          (Or.inl ⟨rfl, rfl, hM⟩)
        rw [ht]
        simp only [first_nil, forest_nil, Fields.cells, d₀, stringCells]
        abel
      rw [if_neg (by simp)]
      let d₁ : Fields A ν := ⟨d.kind, v, d.valueint, d.valuedouble, none⟩
      refine Memory.Spec.call (R := stringCells v + (stringCells d.valuestring +
        ({(a, .node n)} + below)))
        (copyString_spec (n := n) (m := d₁.node none none none) rfl rfl rfl) ?_ ?_
      · change {(b, Cell.node (d₁.node none none none))} + _ + _ + _ = _
        abel
      rintro _ _ (⟨rfl, rfl, hM⟩ | ⟨k, hk, rfl, rfl⟩)
      · rw [if_pos (by simp)]
        refine duplicateFail_spec (R := (Item.mk a d cs).cells next prev) d₁ [] ?_
          (Or.inl ⟨rfl, rfl, hM⟩)
        rw [ht]
        simp only [first_nil, forest_nil, Fields.cells, d₁, stringCells]
        abel
      rw [if_neg (by simp), if_neg (by simp)]
      let d₂ : Fields A ν := ⟨d.kind, v, d.valueint, d.valuedouble, k⟩
      refine Memory.Spec.tail (R := {(a, .node n)} + (stringCells d.valuestring +
        stringCells d.string)) (Memory.Spec.walk fun m hm ↦ duplicateChildren_spec d₂ cs []
          (last Item.addr none cs) m (fun c hc nx pv ↦ ih c hc nx pv fuel (hcs c hc nx pv)) ?_)
        ?_ ?_
      · refine lt_of_le_of_lt (length_le_card_forest none (last Item.addr none cs) cs) ?_
        rw [Multiset.card_add] at hm
        omega
      · change {(b, Cell.node (d₂.node none none none))} + _ + _ + _ = _
        simp only [first_nil, forest_nil, Fields.cells, d₂]
        abel
      · rintro _ _ (⟨rfl, rfl, hM⟩ | ⟨us, hus, rfl, rfl⟩)
        · refine Or.inl ⟨rfl, ?_, hM⟩
          rw [ht]
          abel
        · refine Or.inr ⟨.mk b d₂ us, rfl, ⟨⟨rfl, hv, rfl, rfl, hk⟩, hus⟩, ?_⟩
          rw [ht, List.nil_append]
          abel

/-- Either the tree is copied, without a cell in common, or a request failed and the heap is
as it was. -/
theorem duplicate_spec (t : Item A ν) (next prev : Option A) :
    Spec (duplicate M (some t.addr) true) (t.cells next prev) (CopiesItem M t next prev) :=
  Memory.Spec.walk fun fuel hfuel ↦ duplicateFrom_spec t next prev fuel hfuel.le

end KernelTests.CJson
