import KernelTests.CJson.Delete

/-!
# Linking trees

Rules for the links of a list of trees, `suffix_object` and `add_item_to_array`.  The
address of the last child is kept in `prev` of the first one, so a tree is appended without
a walk along the list.
-/

namespace KernelTests.CJson

open Memory

variable {A ν β : Type} [DecidableEq A]

section Rules

variable {P R : Multiset (A × Cell A ν)} {Q : β → Multiset (A × Cell A ν) → Prop}
  {k : Unit → Action A ν β} {t : Item A ν} {ts : List (Item A ν)} {next prev p : Option A}

theorem Spec.loadItem {k : Node A ν → Action A ν β} (hp : p = some t.addr)
    (hP : P = t.cells next prev + R) (hk : Spec (k (t.node next prev)) P Q) :
    Spec (CJson.loadNode p >>= k) P Q :=
  Spec.loadNode hp (by rw [hP, Item.cells_eq, add_assoc]) hk

theorem Spec.setNext (next' : Option A) (hp : p = some t.addr) (hP : P = t.cells next prev + R)
    (hk : Spec (k ()) (t.cells next' prev + R) Q) :
    Spec ((CJson.modifyNode p fun n ↦ { n with next := next' }) >>= k) P Q := by
  rw [Item.cells_eq, add_assoc] at hP hk
  exact Spec.modifyNode hp hP hk

theorem Spec.setPrev (prev' : Option A) (hp : p = some t.addr) (hP : P = t.cells next prev + R)
    (hk : Spec (k ()) (t.cells next prev' + R) Q) :
    Spec ((CJson.modifyNode p fun n ↦ { n with prev := prev' }) >>= k) P Q := by
  rw [Item.cells_eq, add_assoc] at hP hk
  exact Spec.modifyNode hp hP hk

/-- Only the first tree of a list holds the pointer out of the front. -/
theorem Spec.setHeadPrev (prev' : Option A) (hts : ts ≠ []) (hp : p = first Item.addr none ts)
    (hP : P = forest next prev ts + R) (hk : Spec (k ()) (forest next prev' ts + R) Q) :
    Spec ((CJson.modifyNode p fun n ↦ { n with prev := prev' }) >>= k) P Q := by
  cases ts with
  | nil => exact absurd rfl hts
  | cons t ts =>
      rw [forest_cons, add_assoc] at hP hk
      exact Spec.setPrev prev' hp hP hk

end Rules

/-! ## Appending -/

/-- `suffix_object` -/
def suffixObject (prev item : Option A) : Action A ν Unit := do
  modifyNode prev fun n ↦ { n with next := item }
  modifyNode item fun n ↦ { n with prev := prev }

/-- The first tree of a list: it is its own predecessor. -/
def startList (array item : Option A) : Action A ν Unit := do
  modifyNode array fun n ↦ { n with child := item }
  modifyNode item fun n ↦ { n with prev := item }
  modifyNode item fun n ↦ { n with next := none }

/-- Append to a list that starts at `child`. -/
def extendList (array item child : Option A) : Action A ν Unit := do
  let last := (← loadNode child).prev
  if last.isSome then
    suffixObject last item
    let head := (← loadNode array).child
    modifyNode head fun n ↦ { n with prev := item }

/-- `add_item_to_array` -/
def addItemToArray (array item : Option A) : Action A ν Bool := do
  if item.isNone || array.isNone || decide (array = item) then
    return false
  else
    let child := (← loadNode array).child
    (if child.isNone then startList array item else extendList array item child)
    return true

/-- A list and a tree behind it become one list. -/
theorem suffixObject_spec {ts : List (Item A ν)} {p : Option A} (c : Item A ν)
    (prev prev' : Option A) (hts : ts ≠ []) (hp : p = last Item.addr none ts) :
    Spec (suffixObject p (some c.addr)) (forest none prev ts + c.cells none prev')
      fun _ P ↦ P = forest none prev (ts ++ [c]) := by
  obtain ⟨ts, l, rfl⟩ : ∃ us l, ts = us ++ [l] :=
    ⟨_, _, (List.dropLast_append_getLast hts).symm⟩
  rw [last_concat] at hp
  rw [forest_concat]
  refine Spec.setNext (R := forest (some l.addr) prev ts + c.cells none prev') (some c.addr) hp
    (by abel) (Memory.Spec.last ?_)
  have hP : l.cells (some c.addr) (last Item.addr prev ts) +
      (forest (some l.addr) prev ts + c.cells none prev') =
      c.cells none prev' + forest (some c.addr) prev (ts ++ [l]) := by
    rw [forest_concat]
    abel
  refine Spec.setPrev p rfl hP (Spec.pure ?_)
  rw [forest_concat _ _ (ts ++ [l]), last_concat, hp, add_comm]

/-- The last step of building a list: the first tree learns the address of the last one. -/
theorem closeList_spec (ts : List (Item A ν)) (prev : Option A) :
    Spec (if (first Item.addr none ts).isSome then
        modifyNode (first Item.addr none ts) fun n ↦ { n with prev := last Item.addr none ts }
      else pure ()) (forest none prev ts)
      fun _ P ↦ P = forest none (last Item.addr none ts) ts := by
  cases ts with
  | nil => exact Spec.pure rfl
  | cons t ts =>
      rw [if_pos (by simp)]
      exact Memory.Spec.last (Spec.setHeadPrev (R := 0) _ (List.cons_ne_nil t ts) rfl
        (add_zero _).symm (Spec.pure (add_zero _)))

/-- The first child becomes its own predecessor, and its old links do not matter. -/
theorem startList_spec (a : A) (n : Node A ν) (c : Item A ν) (next prev : Option A) :
    Spec (startList (some a) (some c.addr)) ({(a, .node n)} + c.cells next prev)
      fun _ P ↦ P = {(a, .node { n with child := some c.addr })} +
        c.cells none (some c.addr) := by
  refine Spec.modifyNode rfl rfl (Spec.setPrev (some c.addr) rfl (add_comm _ _)
    (Memory.Spec.last (Spec.setNext none rfl rfl (Spec.pure (add_comm _ _)))))

/-- A list that is not empty is extended at its end, which is found without a walk. -/
theorem extendList_spec (a : A) (n : Node A ν) {ts : List (Item A ν)} (c : Item A ν)
    (prev : Option A) (hts : ts ≠ []) (hn : n.child = first Item.addr none ts) :
    Spec (extendList (some a) (some c.addr) n.child)
      ({(a, .node n)} + (forest none (last Item.addr none ts) ts + c.cells none prev))
      fun _ P ↦ P = {(a, .node n)} + forest none (some c.addr) (ts ++ [c]) := by
  obtain ⟨t, us, rfl⟩ := List.exists_cons_of_ne_nil hts
  have hhead : {(a, Cell.node n)} + (forest none (last Item.addr none (t :: us)) (t :: us) +
      c.cells none prev) = t.cells (first Item.addr none us) (last Item.addr none (t :: us)) +
        (forest none (some t.addr) us + ({(a, .node n)} + c.cells none prev)) := by
    rw [forest_cons]
    abel
  refine Spec.loadItem hn hhead ?_
  change Spec (if (last Item.addr none (t :: us)).isSome then _ else _) _ _
  rw [if_pos (isSome_last hts)]
  refine Memory.Spec.call (suffixObject_spec c (last Item.addr none (t :: us)) prev hts rfl)
    (add_comm _ _) ?_
  rintro _ _ rfl
  refine Spec.loadNode rfl (add_comm _ _) (Memory.Spec.last ?_)
  exact Spec.setHeadPrev (some c.addr) (by simp) (by rw [hn]; rfl) rfl
    (Spec.pure (add_comm _ _))

theorem addItemToArray_spec (t c : Item A ν) (next prev prev' : Option A) :
    Spec (addItemToArray (some t.addr) (some c.addr)) (t.cells next prev + c.cells none prev')
      fun r P ↦ r = true ∧ P = (t.push c).cells next prev := by
  refine Memory.Spec.of_nodup fun hd ↦ ?_
  have hne : t.addr ≠ c.addr := addr_ne_of_nodup (R := 0) (by rwa [add_zero])
  obtain ⟨a, d, cs⟩ := t
  rw [addItemToArray, if_neg (by simpa using hne), Item.cells_mk]
  refine Spec.loadNode rfl (add_assoc _ _ _) ?_
  rw [Item.push, Item.cells_mk, Item.addr_mk, Item.fields_mk, Item.children_mk, last_concat]
  cases cs with
  | nil =>
      refine Memory.Spec.call (R := d.cells) (startList_spec a
        (d.node none next prev) c none prev') ?_ ?_
      · simp only [first_nil, last_nil, forest_nil]
        abel
      rintro _ _ rfl
      refine Spec.pure ⟨rfl, ?_⟩
      simp only [List.nil_append, first_cons, forest_singleton]
      change {(a, Cell.node (d.node (some c.addr) next prev))} + c.cells none (some c.addr) +
        d.cells = _
      abel
  | cons e es =>
      refine Memory.Spec.call (R := d.cells) (extendList_spec a
        (d.node (first Item.addr none (e :: es)) next prev) c prev' (List.cons_ne_nil e es) rfl)
        (by abel) ?_
      rintro _ _ rfl
      refine Spec.pure ⟨rfl, ?_⟩
      rw [first_append]
      simp only [first_cons]
      abel

end KernelTests.CJson
