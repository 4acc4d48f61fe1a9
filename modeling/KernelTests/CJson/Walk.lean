import KernelTests.CJson.Links

/-!
# Looking into trees

`cJSON_GetArraySize`, `cJSON_GetArrayItem` and `cJSON_GetObjectItem` walk along the children
of a node.  On a tree in memory they end, change nothing and find what the accessors of
`Json` find in the value the tree stands for.
-/

namespace KernelTests.CJson

open Memory

variable {A ν : Type} [DecidableEq A]

/-! ## Walks -/

/-- The loop of `cJSON_GetArraySize` -/
def countFrom : ℕ → Option A → ℕ → Action A ν ℕ
  | 0, _, _ => failure
  | fuel + 1, child, size => do
    if child.isSome then
      countFrom fuel (← loadNode child).next (size + 1)
    else return size

/-- `cJSON_GetArraySize`; the size is converted to `int`. -/
def getArraySize (array : Option A) : Action A ν ℤ := do
  if array.isNone then
    return 0
  else
    let child := (← loadNode array).child
    let size ← walk fun fuel ↦ countFrom fuel child 0
    return Int.bmod size (2 ^ 32)

/-- The loop of `get_array_item` -/
def itemFrom : ℕ → Option A → ℕ → Action A ν (Option A)
  | 0, _, _ => failure
  | fuel + 1, child, index => do
    if child.isSome && decide (0 < index) then
      itemFrom fuel (← loadNode child).next (index - 1)
    else return child

/-- `cJSON_GetArrayItem` -/
def getArrayItem (array : Option A) (index : ℤ) : Action A ν (Option A) := do
  if index < 0 then
    return none
  else if array.isNone then
    return none
  else
    let child := (← loadNode array).child
    walk fun fuel ↦ itemFrom fuel child index.toNat

/-- `case_insensitive_strcmp(name, string) == 0` -/
def agreesWith (name : CString) (string : Option A) : Action A ν Bool := do
  if string.isNone then
    return false
  else
    let s ← loadText string
    return Json.sameKey name s

/-- The loop of `get_object_item` -/
def findFrom : ℕ → CString → Option A → Action A ν (Option A)
  | 0, _, _ => failure
  | fuel + 1, name, child => do
    if child.isSome then
      let n ← loadNode child
      let found ← agreesWith name n.string
      (if found then return child else findFrom fuel name n.next)
    else return child

/-- `cJSON_GetObjectItem` -/
def getObjectItem (object : Option A) (name : Option CString) : Action A ν (Option A) := do
  match object, name with
  | some a, some name =>
    let child := (← loadNode (some a)).child
    let found ← walk fun fuel ↦ findFrom fuel name child
    if found.isSome then
      let n ← loadNode found
      return if n.string.isNone then none else found
    else return none
  | _, _ => return none

/-- `cJSON_IsString` and its siblings -/
def hasKind (item : Option A) (kind : Kind) : Action A ν Bool := do
  if item.isNone then
    return false
  else
    let n ← loadNode item
    return decide (n.kind = kind)

/-! ## What they find -/

theorem countFrom_spec (ts : List (Item A ν)) (prev : Option A) (size fuel : ℕ)
    (hfuel : (forest none prev ts).card < fuel) :
    Spec (countFrom fuel (first Item.addr none ts) size) (forest none prev ts)
      fun r P ↦ r = size + ts.length ∧ P = forest none prev ts := by
  induction ts generalizing prev size fuel with
  | nil =>
      obtain ⟨fuel, rfl⟩ := Nat.exists_eq_add_of_lt hfuel
      exact Spec.pure ⟨rfl, rfl⟩
  | cons t ts ih =>
      have hlt := card_forest_lt none prev t ts
      obtain ⟨fuel, rfl⟩ : ∃ k, fuel = k + 1 := ⟨fuel - 1, by omega⟩
      rw [first_cons, countFrom, if_pos Option.isSome_some]
      refine Spec.loadItem rfl (forest_cons none prev t ts) ?_
      refine Memory.Spec.tail (ih (some t.addr) (size + 1) fuel (by omega))
        ((forest_cons none prev t ts).trans (add_comm _ _)) ?_
      rintro _ _ ⟨rfl, rfl⟩
      exact ⟨by rw [List.length_cons]; omega, by rw [forest_cons, add_comm]⟩

theorem itemFrom_spec (ts : List (Item A ν)) (prev : Option A) (index fuel : ℕ)
    (hfuel : (forest none prev ts).card < fuel) :
    Spec (itemFrom fuel (first Item.addr none ts) index) (forest none prev ts)
      fun r P ↦ r = ts[index]?.map Item.addr ∧ P = forest none prev ts := by
  induction ts generalizing prev index fuel with
  | nil =>
      obtain ⟨fuel, rfl⟩ := Nat.exists_eq_add_of_lt hfuel
      exact Spec.pure ⟨rfl, rfl⟩
  | cons t ts ih =>
      have hlt := card_forest_lt none prev t ts
      obtain ⟨fuel, rfl⟩ : ∃ k, fuel = k + 1 := ⟨fuel - 1, by omega⟩
      rw [first_cons, itemFrom]
      cases index with
      | zero => exact Spec.pure ⟨rfl, rfl⟩
      | succ index =>
          rw [if_pos (by simp)]
          refine Spec.loadItem rfl (forest_cons none prev t ts) ?_
          refine Memory.Spec.tail (ih (some t.addr) index fuel (by omega))
            ((forest_cons none prev t ts).trans (add_comm _ _)) ?_
          rintro _ _ ⟨rfl, rfl⟩
          exact ⟨rfl, by rw [forest_cons, add_comm]⟩

/-- The tree has a key that agrees with the name up to case. -/
def Item.agrees (name : CString) (t : Item A ν) : Bool :=
  match t.fields.string with
  | some key => Json.sameKey name key.value
  | none => false

theorem agreesWith_spec (name : CString) (t : Item A ν) (next prev : Option A) :
    Spec (agreesWith name (t.fields.string.map StringBlock.addr)) (t.cells next prev)
      fun r P ↦ r = t.agrees name ∧ P = t.cells next prev := by
  rw [agreesWith, Item.agrees]
  cases h : t.fields.string with
  | none => exact Spec.pure ⟨rfl, rfl⟩
  | some s =>
      rw [if_neg (by simp)]
      exact Spec.loadText rfl (t.string_mem h next prev) s.text (Spec.pure ⟨rfl, rfl⟩)

theorem findFrom_spec (name : CString) (ts : List (Item A ν)) (prev : Option A) (fuel : ℕ)
    (hfuel : (forest none prev ts).card < fuel) :
    Spec (findFrom fuel name (first Item.addr none ts)) (forest none prev ts)
      fun r P ↦ r = (ts.find? (Item.agrees name)).map Item.addr ∧ P = forest none prev ts := by
  induction ts generalizing prev fuel with
  | nil =>
      obtain ⟨fuel, rfl⟩ := Nat.exists_eq_add_of_lt hfuel
      exact Spec.pure ⟨rfl, rfl⟩
  | cons t ts ih =>
      have hlt := card_forest_lt none prev t ts
      obtain ⟨fuel, rfl⟩ : ∃ k, fuel = k + 1 := ⟨fuel - 1, by omega⟩
      rw [first_cons, findFrom, if_pos Option.isSome_some]
      refine Spec.loadItem rfl (forest_cons none prev t ts) ?_
      refine Memory.Spec.call (agreesWith_spec name t _ _) (forest_cons none prev t ts) ?_
      rintro _ _ ⟨rfl, rfl⟩
      cases hname : t.agrees name with
      | true =>
          rw [if_pos rfl, List.find?_cons_of_pos hname]
          exact Spec.pure ⟨rfl, rfl⟩
      | false =>
          rw [if_neg (by simp), List.find?_cons_of_neg (by simp [hname])]
          refine Memory.Spec.tail (ih (some t.addr) fuel (by omega)) (add_comm _ _) ?_
          rintro _ _ ⟨rfl, rfl⟩
          exact ⟨rfl, by rw [forest_cons, add_comm]⟩

/-! ## Accessors -/

theorem getArraySize_spec (t : Item A ν) (next prev : Option A) :
    Spec (getArraySize (some t.addr)) (t.cells next prev) fun r P ↦
      r = Int.bmod t.children.length (2 ^ 32) ∧ P = t.cells next prev := by
  rw [getArraySize, if_neg (by simp)]
  refine Spec.loadItem (R := 0) rfl (add_zero _).symm ?_
  refine Memory.Spec.call (Memory.Spec.walk fun fuel hfuel ↦
    countFrom_spec t.children _ 0 fuel hfuel) (t.cells_children next prev) ?_
  rintro _ _ ⟨rfl, rfl⟩
  exact Spec.pure ⟨by rw [Nat.zero_add], (t.cells_children next prev).symm⟩

theorem getArrayItem_spec (t : Item A ν) (index : ℕ) (next prev : Option A) :
    Spec (getArrayItem (some t.addr) index) (t.cells next prev) fun r P ↦
      r = t.children[index]?.map Item.addr ∧ P = t.cells next prev := by
  rw [getArrayItem, if_neg (by omega), if_neg (by simp)]
  refine Spec.loadItem (R := 0) rfl (add_zero _).symm ?_
  refine Memory.Spec.tail (Memory.Spec.walk fun fuel hfuel ↦
    itemFrom_spec t.children _ index fuel hfuel) (t.cells_children next prev) ?_
  rintro _ _ ⟨rfl, rfl⟩
  exact ⟨rfl, (t.cells_children next prev).symm⟩

theorem getObjectItem_spec (t : Item A ν) (name : CString) (next prev : Option A) :
    Spec (getObjectItem (some t.addr) (some name)) (t.cells next prev) fun r P ↦
      r = (t.children.find? (Item.agrees name)).map Item.addr ∧ P = t.cells next prev := by
  refine Spec.loadItem (R := 0) rfl (add_zero _).symm ?_
  refine Memory.Spec.call (Memory.Spec.walk fun fuel hfuel ↦
    findFrom_spec name t.children _ fuel hfuel) (t.cells_children next prev) ?_
  rintro _ _ ⟨rfl, rfl⟩
  rw [← t.cells_children]
  cases h : t.children.find? (Item.agrees name) with
  | none => exact Spec.pure ⟨rfl, rfl⟩
  | some c =>
      obtain ⟨n, p, R, hR⟩ := Item.cells_child (List.mem_of_find?_eq_some h) next prev
      have hkey : c.agrees name = true := List.find?_some h
      refine Spec.loadItem rfl hR (Spec.pure ⟨?_, rfl⟩)
      have hs : (c.node n p).string.isNone = false := by
        change (c.fields.string.map StringBlock.addr).isNone = false
        cases hc : c.fields.string with
        | none => simp [Item.agrees, hc] at hkey
        | some s => rfl
      rw [hs]
      rfl

theorem hasKind_spec (t : Item A ν) (kind : Kind) (next prev : Option A) :
    Spec (hasKind (some t.addr) kind) (t.cells next prev) fun r P ↦
      r = decide (t.fields.kind = kind) ∧ P = t.cells next prev := by
  rw [hasKind, if_neg (by simp)]
  exact Spec.loadItem (R := 0) rfl (add_zero _).symm (Spec.pure ⟨rfl, rfl⟩)

end KernelTests.CJson
