import KernelTests.CJson.Links

/-!
# Building trees

The constructors of cJSON and the functions that add a new node to an object.  Each of
them either delivers what it is for, or gives back the null pointer after it released
everything it had requested; the second happens only if a request fails.
-/

namespace KernelTests.CJson

open Memory

variable {A ν β : Type} [DecidableEq A] [CDouble ν] (M : Allocator A (Cell A ν))

/-! ## Constructors -/

/-- `cJSON_CreateArray` and its siblings: a new node of some type. -/
def createTyped (kind : Kind) : Action A ν (Option A) := do
  let item ← newItem M
  (if item.isSome then modifyNode item (·.setType kind) else return ())
  return item

/-- `cJSON_CreateArray` -/
def createArray : Action A ν (Option A) := createTyped M .array

/-- `cJSON_CreateObject` -/
def createObject : Action A ν (Option A) := createTyped M .object

/-- `cJSON_CreateNumber` -/
def createNumber (num : ν) : Action A ν (Option A) := do
  let item ← newItem M
  if item.isSome then
    modifyNode item (·.setType .number)
    modifyNode item fun n ↦ { n with valuedouble := num }
    modifyNode item fun n ↦ { n with valueint := valueintOf num }
    return item
  else return item

/-- `cJSON_CreateString` -/
def createString (string : Option CString) : Action A ν (Option A) := do
  let item ← newItem M
  if item.isSome then
    modifyNode item (·.setType .string)
    let copy ← strdup M string
    modifyNode item fun n ↦ { n with valuestring := copy }
    if copy.isNone then
      delete item
      return none
    else return item
  else return item

/-- The null pointer and nothing else, for a reason; or a new tree. -/
def Delivers (why : Prop) (p : Item A ν → Prop) (r : Option A)
    (P : Multiset (A × Cell A ν)) : Prop :=
  (r = none ∧ P = 0 ∧ why) ∨ ∃ t, r = some t.addr ∧ P = t.cells none none ∧ p t

/-- The fields of a node that was only given a type. -/
def Fields.blank (kind : Kind) : Fields A ν where
  kind := kind
  valuestring := none
  valueint := 0
  valuedouble := CDouble.zero
  string := none

variable {M}

omit [DecidableEq A] [CDouble ν] in
theorem Item.cells_leaf (a : A) (d : Fields A ν) (next prev : Option A) :
    (Item.mk a d []).cells next prev = {(a, .node (d.node none next prev))} + d.cells := by
  rw [Item.cells_mk, forest_nil, add_zero]
  rfl

omit [CDouble ν] in
/-- A tree that is not linked to a successor is released as a whole. -/
theorem delete_item (t : Item A ν) (prev : Option A) :
    Spec (delete (some t.addr)) (t.cells none prev) fun _ P ↦ P = 0 := by
  have h := delete_forest [t] prev
  rwa [first_cons, forest_singleton] at h

omit [CDouble ν] in
theorem delete_null (P : Multiset (A × Cell A ν)) :
    Spec (delete (none : Option A)) P fun _ P' ↦ P' = P := by
  refine Memory.Spec.walk fun fuel hfuel ↦ ?_
  obtain ⟨fuel, rfl⟩ := Nat.exists_eq_add_of_lt hfuel
  exact Spec.pure rfl

/-- A new node, followed by what is done with it. -/
theorem Spec.newItem {k : Option A → Action A ν β} {P : Multiset (A × Cell A ν)}
    {Q : β → Multiset (A × Cell A ν) → Prop} (hnone : ¬ M.Unfailing → Spec (k none) P Q)
    (hsome : ∀ a, Spec (k (some a)) ({(a, .node .zero)} + P) Q) :
    Spec (CJson.newItem M >>= k) P Q :=
  Memory.Spec.alloc hnone hsome

theorem createTyped_spec (kind : Kind) :
    Spec (createTyped M kind) 0 (Delivers (¬ M.Unfailing) fun t ↦
      t.fields = .blank kind ∧ t.children = []) := by
  refine Spec.newItem (fun hM ↦ Spec.pure (Or.inl ⟨rfl, rfl, hM⟩)) fun a ↦ ?_
  refine Spec.modifyNode rfl rfl (Spec.pure (Or.inr ⟨.mk a (.blank kind) [], rfl, ?_, rfl, rfl⟩))
  rw [Item.cells_leaf]
  rfl

/-- The fields of a number. -/
def Fields.ofNumber (num : ν) : Fields A ν :=
  { (Fields.blank .number : Fields A ν) with valuedouble := num, valueint := valueintOf num }

theorem createNumber_spec (num : ν) :
    Spec (createNumber M num) 0 (Delivers (¬ M.Unfailing) fun t ↦
      t.fields = .ofNumber num ∧ t.children = []) := by
  refine Spec.newItem (fun hM ↦ Spec.pure (Or.inl ⟨rfl, rfl, hM⟩)) fun a ↦ ?_
  refine Spec.modifyNode rfl rfl (Spec.modifyNode rfl rfl (Spec.modifyNode rfl rfl
    (Spec.pure (Or.inr ⟨.mk a (.ofNumber num) [], rfl, ?_, rfl, rfl⟩))))
  rw [Item.cells_leaf]
  rfl

/-- A copy of a string. -/
def StringBlock.copy (a : A) (s : CString) : StringBlock A := ⟨a, .ofCString s, s, by simp⟩

theorem createString_spec (s : CString) :
    Spec (createString M (some s)) 0 (Delivers (¬ M.Unfailing) fun t ↦
      (∃ b, t.fields = { Fields.blank .string with valuestring := some b } ∧ b.value = s) ∧
        t.children = []) := by
  refine Spec.newItem (fun hM ↦ Spec.pure (Or.inl ⟨rfl, rfl, hM⟩)) fun a ↦ ?_
  refine Spec.modifyNode rfl rfl (Memory.Spec.alloc (fun hM ↦ ?_) fun b ↦ ?_)
  · refine Spec.modifyNode rfl rfl ?_
    refine Memory.Spec.call (R := 0) (delete_item (.mk a (.blank .string) []) none) ?_ ?_
    · rw [Item.cells_leaf, add_zero]
      rfl
    rintro _ _ rfl
    exact Spec.pure (Or.inl ⟨rfl, rfl, hM⟩)
  · refine Spec.modifyNode rfl (add_left_comm _ _ _) (Spec.pure (Or.inr ⟨.mk a
      { Fields.blank .string with valuestring := some (.copy b s) } [], rfl, ?_, ⟨_, rfl, rfl⟩, rfl⟩))
    rw [Item.cells_leaf]
    rfl

/-! ## Members -/

variable (M)

/-- `add_item_to_object`, with a key that is copied -/
def addItemToObject (object : Option A) (string : Option CString) (item : Option A) :
    Action A ν Bool := do
  if object.isNone || string.isNone || item.isNone || decide (object = item) then
    return false
  else
    let newKey ← strdup M string
    if newKey.isNone then
      return false
    else
      let n ← loadNode item
      (if !n.stringIsConst && n.string.isSome then free n.string else return ())
      modifyNode item fun n ↦ { n with string := newKey }
      modifyNode item fun n ↦ { n with stringIsConst := false }
      addItemToArray object item

/-- `cJSON_AddNullToObject` and its siblings: a new item, unless one of the two steps
fails. -/
def addNewToObject (create : Action A ν (Option A)) (object : Option A)
    (name : Option CString) : Action A ν (Option A) := do
  let item ← create
  let added ← addItemToObject M object name item
  if added then
    return item
  else
    delete item
    return none

/-- `cJSON_AddNumberToObject` -/
def addNumberToObject (object : Option A) (name : Option CString) (number : ν) :
    Action A ν (Option A) :=
  addNewToObject M (createNumber M number) object name

/-- `cJSON_AddStringToObject` -/
def addStringToObject (object : Option A) (name string : Option CString) :
    Action A ν (Option A) :=
  addNewToObject M (createString M string) object name

/-- `cJSON_AddObjectToObject` -/
def addObjectToObject (object : Option A) (name : Option CString) : Action A ν (Option A) :=
  addNewToObject M (createObject M) object name

/-- `cJSON_AddArrayToObject` -/
def addArrayToObject (object : Option A) (name : Option CString) : Action A ν (Option A) :=
  addNewToObject M (createArray M) object name

variable {M}

/-- The tree under another key. -/
def Item.withKey (t : Item A ν) (key : StringBlock A) : Item A ν :=
  .mk t.addr { t.fields with string := some key } t.children

omit [DecidableEq A] [CDouble ν] in
@[simp] theorem Item.addr_withKey (t : Item A ν) (key : StringBlock A) :
    (t.withKey key).addr = t.addr := rfl

omit [CDouble ν] in
/-- Where the key of a node is released, if it has one. -/
theorem freeKey_spec {k : Unit → Action A ν β} {n : Node A ν} {s : Option (StringBlock A)}
    {P R : Multiset (A × Cell A ν)} {Q : β → Multiset (A × Cell A ν) → Prop}
    (hc : n.stringIsConst = false) (hs : n.string = s.map StringBlock.addr)
    (hP : P = stringCells s + R) (hk : Spec (k ()) R Q) :
    Spec ((if !n.stringIsConst && n.string.isSome then free n.string else pure ()) >>= k) P Q := by
  subst hP
  cases s with
  | none =>
      have hn : n.string = none := hs
      rw [if_neg (by simp [hn]), stringCells, zero_add, pure_bind]
      exact hk
  | some s =>
      have hn : n.string = some s.addr := hs
      rw [if_pos (by simp [hn, hc])]
      exact Memory.Spec.free hn rfl hk

omit [CDouble ν] in
/-- The item becomes the last child under a copy of the key, or nothing changes because the
key could not be copied. -/
theorem addItemToObject_spec (t c : Item A ν) (key : CString) (next prev prev' : Option A) :
    Spec (addItemToObject M (some t.addr) (some key) (some c.addr))
      (t.cells next prev + c.cells none prev') fun r P ↦
        (r = false ∧ P = t.cells next prev + c.cells none prev' ∧ ¬ M.Unfailing) ∨
        ∃ b, r = true ∧ b.value = key ∧ P = (t.push (c.withKey b)).cells next prev := by
  refine Memory.Spec.of_nodup fun hd ↦ ?_
  have hne : t.addr ≠ c.addr := addr_ne_of_nodup (R := 0) (by rwa [add_zero])
  rw [addItemToObject, if_neg (by simpa using hne)]
  refine Memory.Spec.alloc (fun hM ↦ Spec.pure (Or.inl ⟨rfl, rfl, hM⟩)) fun b ↦ ?_
  obtain ⟨a, d, cs⟩ := c
  let n := d.node (first Item.addr none cs) none prev'
  let rest := t.cells next prev + (stringCells d.valuestring +
    forest none (last Item.addr none cs) cs + {(b, Cell.chars (.ofCString key))})
  have hn : {(b, Cell.chars (.ofCString key))} + (t.cells next prev +
      (Item.mk a d cs).cells none prev') = {(a, .node n)} + (stringCells d.string + rest) := by
    rw [Item.cells_mk, Fields.cells]
    simp only [rest, n]
    abel
  rw [hn]
  refine Spec.loadNode rfl rfl (freeKey_spec (n := n) (R := {(a, .node n)} + rest) rfl rfl
    (add_left_comm _ _ _) ?_)
  refine Spec.modifyNode rfl rfl (Spec.modifyNode rfl rfl ?_)
  refine Memory.Spec.tail (R := 0) (addItemToArray_spec t
    ((Item.mk a d cs).withKey (.copy b key)) next prev prev') ?_ ?_
  · rw [Item.withKey, Item.cells_mk, Fields.cells, add_zero]
    simp only [rest, stringCells, Item.addr_mk, Item.fields_mk, Item.children_mk]
    change {(a, Cell.node ((⟨d.kind, d.valuestring, d.valueint, d.valuedouble,
      some (.copy b key)⟩ : Fields A ν).node (first Item.addr none cs) none prev'))} + _ = _
    simp only [StringBlock.copy]
    abel
  · rintro _ _ ⟨rfl, rfl⟩
    rw [add_zero]
    exact Or.inr ⟨.copy b key, rfl, rfl, rfl⟩

omit [CDouble ν] in
/-- A new item is added under a copy of the name, or the object stays as it is. -/
theorem addNewToObject_spec {create : Action A ν (Option A)} {p : Item A ν → Prop}
    (hcreate : Spec create 0 (Delivers (¬ M.Unfailing) p)) (t : Item A ν) (name : CString)
    (next prev : Option A) :
    Spec (addNewToObject M create (some t.addr) (some name)) (t.cells next prev) fun r P ↦
      (r = none ∧ P = t.cells next prev ∧ ¬ M.Unfailing) ∨
      ∃ c b, r = some c.addr ∧ p c ∧ b.value = name ∧
        P = (t.push (c.withKey b)).cells next prev := by
  refine Memory.Spec.call (R := t.cells next prev) hcreate (zero_add _).symm ?_
  rintro _ _ (⟨rfl, rfl, hM⟩ | ⟨c, rfl, rfl, hc⟩)
  · rw [zero_add, addItemToObject, if_pos (by simp), pure_bind, if_neg (by simp)]
    refine Spec.bind (delete_null _) fun _ P h ↦ Spec.pure (Or.inl ⟨rfl, h, hM⟩)
  · refine Memory.Spec.call (R := 0) (addItemToObject_spec t c name next prev none)
      (by rw [add_zero, add_comm]) ?_
    rintro _ _ (⟨rfl, rfl, hM⟩ | ⟨b, rfl, hb, rfl⟩)
    · refine Memory.Spec.call (R := t.cells next prev) (delete_item c none)
        (by rw [add_zero, add_comm]) ?_
      rintro _ _ rfl
      exact Spec.pure (Or.inl ⟨rfl, zero_add _, hM⟩)
    · rw [add_zero]
      exact Spec.pure (Or.inr ⟨c, b, rfl, hc, hb, rfl⟩)

end KernelTests.CJson
