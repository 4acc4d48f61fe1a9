import KernelTests.CString

/-!
# cJSON values

A `cJSON` node is a tagged union with a list of children; the children of an
object carry their key.  `Json ν` is the tree it represents, over an arbitrary
type `ν` of C doubles.  The accessors keep cJSON's behaviour on the wrong kind of
node and on `NULL`, which is `none` here: they return `NULL` rather than fail.
-/

namespace KernelTests

/-- A `cJSON` tree.  Strings and keys are C strings. -/
inductive Json (ν : Type) where
  | null
  | bool (b : Bool)
  | number (d : ν)
  | string (s : CString)
  | array (items : List (Json ν))
  | object (members : List (CString × Json ν))

namespace Json

variable {ν : Type}

/-- Induction on a tree, with the hypothesis for every child. -/
@[induction_eliminator]
theorem ind {P : Json ν → Prop} (null : P .null) (bool : ∀ b, P (.bool b))
    (number : ∀ d, P (.number d)) (string : ∀ s, P (.string s))
    (array : ∀ items, (∀ v ∈ items, P v) → P (.array items))
    (object : ∀ members, (∀ m ∈ members, P m.2) → P (.object members)) : ∀ v, P v
  | .null => null
  | .bool b => bool b
  | .number d => number d
  | .string s => string s
  | .array items => array items fun v _ ↦ ind null bool number string array object v
  | .object members => object members fun m _ ↦ ind null bool number string array object m.2
decreasing_by
  · rename_i h
    have := List.sizeOf_lt_of_mem h
    simp only [Json.array.sizeOf_spec]
    omega
  · rename_i h
    have := List.sizeOf_lt_of_mem h
    obtain ⟨k, v⟩ := m
    simp only [Json.object.sizeOf_spec, Prod.mk.sizeOf_spec] at *
    omega

/-! ## Nesting -/

mutual

/-- How many arrays and objects are nested in each other. -/
def height : Json ν → ℕ
  | .array items => heightItems items + 1
  | .object members => heightMembers members + 1
  | _ => 0

/-- The largest height among array elements. -/
def heightItems : List (Json ν) → ℕ
  | [] => 0
  | v :: vs => max v.height (heightItems vs)

/-- The largest height among object members. -/
def heightMembers : List (CString × Json ν) → ℕ
  | [] => 0
  | (_, v) :: ms => max v.height (heightMembers ms)

end

theorem heightItems_cons_le {v : Json ν} {vs : List (Json ν)} {n : ℕ} :
    heightItems (v :: vs) ≤ n ↔ v.height ≤ n ∧ heightItems vs ≤ n := Nat.max_le

theorem heightMembers_cons_le {k : CString} {v : Json ν} {ms : List (CString × Json ν)} {n : ℕ} :
    heightMembers ((k, v) :: ms) ≤ n ↔ v.height ≤ n ∧ heightMembers ms ≤ n := Nat.max_le

theorem heightItems_le_iff {items : List (Json ν)} {n : ℕ} :
    heightItems items ≤ n ↔ ∀ v ∈ items, v.height ≤ n := by
  induction items with
  | nil => simp [heightItems]
  | cons v vs ih => rw [heightItems_cons_le, ih, List.forall_mem_cons]

theorem heightMembers_le_iff {members : List (CString × Json ν)} {n : ℕ} :
    heightMembers members ≤ n ↔ ∀ m ∈ members, m.2.height ≤ n := by
  induction members with
  | nil => simp [heightMembers]
  | cons m ms ih => rw [heightMembers_cons_le, ih, List.forall_mem_cons]

/-! ## Accessors -/

/-- `valuestring`: `NULL` unless the node is a string. -/
def valuestring : Json ν → Option CString
  | .string s => some s
  | _ => none

/-- `cJSON_IsString` -/
def isString : Json ν → Bool
  | .string _ => true
  | _ => false

/-- The children of an array.  The test `!v || !cJSON_IsArray(v) ||
cJSON_GetArraySize(v) == 0` succeeds exactly when there are none. -/
def elements : Option (Json ν) → List (Json ν)
  | some (.array items) => items
  | _ => []

/-- `case_insensitive_strcmp(a, b) == 0` -/
def sameKey (a b : CString) : Bool := a.bytes.map tolower = b.bytes.map tolower

/-- The walk of `get_object_item` along the members: the first whose key agrees up
to case. -/
def lookup (name : CString) (members : List (CString × Json ν)) : Option (Json ν) :=
  (members.find? fun m ↦ sameKey name m.1).map Prod.snd

/-- `cJSON_GetObjectItem`.  The children of an array have no key, so nothing but an
object has members. -/
def getObjectItem : Option (Json ν) → CString → Option (Json ν)
  | some (.object members), name => lookup name members
  | _, _ => none

@[simp] theorem getObjectItem_none (name : CString) :
    getObjectItem (none : Option (Json ν)) name = none := rfl

/-- The string a lookup delivers to a caller that checks `cJSON_IsString`. -/
def getString (v : Option (Json ν)) (name : CString) : Option CString :=
  (getObjectItem v name).bind valuestring

/-- What a lookup finds is one of the members. -/
theorem mem_of_lookup {name : CString} {members : List (CString × Json ν)} {v : Json ν}
    (h : lookup name members = some v) : ∃ k, (k, v) ∈ members ∧ sameKey name k := by
  obtain ⟨⟨k, w⟩, hf, rfl⟩ := Option.map_eq_some_iff.mp h
  exact ⟨k, List.mem_of_find?_eq_some hf, by simpa using List.find?_some hf⟩

/-- Looking up a member goes one level down. -/
theorem height_getObjectItem {u v : Json ν} {name : CString} {n : ℕ}
    (h : getObjectItem (some u) name = some v) (hu : u.height ≤ n + 1) : v.height ≤ n := by
  cases u with
  | object members =>
      obtain ⟨k, hk, _⟩ := mem_of_lookup h
      exact heightMembers_le_iff.mp (Nat.le_of_succ_le_succ hu) _ hk
  | _ => simp [getObjectItem] at h

/-- An element of an array is one level down. -/
theorem height_elements {u v : Json ν} {n : ℕ} (h : v ∈ elements (some u))
    (hu : u.height ≤ n + 1) : v.height ≤ n := by
  cases u with
  | array items => exact heightItems_le_iff.mp (Nat.le_of_succ_le_succ hu) _ h
  | _ => simp [elements] at h

end Json

end KernelTests
