import KernelTests.CJson.Node

/-!
# Trees in memory

`Item` says where a tree lies: the address of each node, what the node holds besides its
links, and the blocks of its strings.  The tree owns the cells `Item.cells`.  Its children
form a doubly linked list, except that the first child holds the address of the last one
in `prev`.  `Item.Denotes` is the value a tree stands for.
-/

namespace KernelTests.CJson

open Memory

variable {A ν : Type}

/-! ## Layout -/

/-- A C string with the block it lies in. -/
structure StringBlock (A : Type) where
  addr : A
  block : Block UInt8
  value : CString
  /-- The block holds the string. -/
  text : block.text = some value

/-- What a node holds besides its links. -/
structure Fields (A ν : Type) where
  kind : Kind
  valuestring : Option (StringBlock A)
  valueint : ℤ
  valuedouble : ν
  string : Option (StringBlock A)

/-- A tree of nodes that own their strings and their children. -/
inductive Item (A ν : Type) where
  | mk (addr : A) (fields : Fields A ν) (children : List (Item A ν))

namespace Item

/-- The address of the root. -/
def addr : Item A ν → A
  | mk a _ _ => a

/-- What the root holds. -/
def fields : Item A ν → Fields A ν
  | mk _ d _ => d

/-- The subtrees below the root. -/
def children : Item A ν → List (Item A ν)
  | mk _ _ cs => cs

@[simp] theorem addr_mk (a : A) (d : Fields A ν) (cs : List (Item A ν)) : (mk a d cs).addr = a := rfl

@[simp] theorem fields_mk (a : A) (d : Fields A ν) (cs : List (Item A ν)) :
    (mk a d cs).fields = d := rfl

@[simp] theorem children_mk (a : A) (d : Fields A ν) (cs : List (Item A ν)) :
    (mk a d cs).children = cs := rfl

end Item

/-- Induction on the children of a node and on the trees behind it. -/
theorem Item.forest_ind {P : List (Item A ν) → Prop} (nil : P [])
    (cons : ∀ a d cs ts, P cs → P ts → P (.mk a d cs :: ts)) : ∀ ts, P ts
  | [] => nil
  | .mk a d cs :: ts => cons a d cs ts (forest_ind nil cons cs) (forest_ind nil cons ts)

/-- Induction on a tree, with the hypothesis for every child. -/
theorem Item.ind {P : Item A ν → Prop}
    (mk : ∀ a d cs, (∀ c ∈ cs, P c) → P (.mk a d cs)) : ∀ t, P t := by
  have h : ∀ ts : List (Item A ν), ∀ t ∈ ts, P t := by
    intro ts
    induction ts using Item.forest_ind with
    | nil => simp
    | cons a d cs ts hcs hts => exact List.forall_mem_cons.mpr ⟨mk a d cs hcs, hts⟩
  exact fun t ↦ h [t] t List.mem_cons_self

/-- The node of a tree whose first child lies at `child`. -/
@[simps]
def Fields.node (d : Fields A ν) (child next prev : Option A) : Node A ν where
  next := next
  prev := prev
  child := child
  kind := d.kind
  isReference := false
  stringIsConst := false
  valuestring := d.valuestring.map StringBlock.addr
  valueint := d.valueint
  valuedouble := d.valuedouble
  string := d.string.map StringBlock.addr

/-- The block of a string, if there is one. -/
def stringCells : Option (StringBlock A) → Multiset (A × Cell A ν)
  | none => 0
  | some s => {(s.addr, .chars s.block)}

/-- The blocks of the strings a node owns. -/
def Fields.cells (d : Fields A ν) : Multiset (A × Cell A ν) :=
  stringCells d.valuestring + stringCells d.string

mutual

/-- The cells of a tree whose root is linked to `next` and `prev`. -/
def Item.cells : Item A ν → Option A → Option A → Multiset (A × Cell A ν)
  | .mk a d cs, next, prev =>
      {(a, .node (d.node (first Item.addr none cs) next prev))} +
        (d.cells + forestCells none (last Item.addr none cs) cs)

/-- The cells of linked trees. -/
def forestCells (next prev : Option A) : List (Item A ν) → Multiset (A × Cell A ν)
  | [] => 0
  | t :: ts => t.cells (first Item.addr next ts) prev + forestCells next (some t.addr) ts

end

/-- The cells of the trees of a linked list. -/
def forest (next prev : Option A) (ts : List (Item A ν)) : Multiset (A × Cell A ν) :=
  chain Item.addr Item.cells next prev ts

@[simp] theorem forest_nil (next prev : Option A) :
    forest next prev ([] : List (Item A ν)) = 0 := rfl

theorem forest_cons (next prev : Option A) (t : Item A ν) (ts : List (Item A ν)) :
    forest next prev (t :: ts) =
      t.cells (first Item.addr next ts) prev + forest next (some t.addr) ts := rfl

@[simp] theorem forest_singleton (next prev : Option A) (t : Item A ν) :
    forest next prev [t] = t.cells next prev := chain_singleton t

theorem forest_concat (next prev : Option A) (ts : List (Item A ν)) (t : Item A ν) :
    forest next prev (ts ++ [t]) =
      forest (some t.addr) prev ts + t.cells next (last Item.addr prev ts) := chain_concat ts t

theorem forest_split (next prev : Option A) (ts us : List (Item A ν)) (t : Item A ν) :
    forest next prev (ts ++ t :: us) = forest (some t.addr) prev ts +
      (t.cells (first Item.addr next us) (last Item.addr prev ts) +
        forest next (some t.addr) us) := chain_split ts t us

theorem forestCells_eq (next prev : Option A) (ts : List (Item A ν)) :
    forestCells next prev ts = forest next prev ts := by
  induction ts generalizing prev with
  | nil => rfl
  | cons t ts ih => rw [forestCells, forest_cons, ih]

theorem Item.cells_mk (a : A) (d : Fields A ν) (cs : List (Item A ν)) (next prev : Option A) :
    (Item.mk a d cs).cells next prev =
      {(a, .node (d.node (first Item.addr none cs) next prev))} +
        (d.cells + forest none (last Item.addr none cs) cs) := by
  rw [Item.cells, forestCells_eq]

/-- The cells below the root. -/
def Item.body (t : Item A ν) : Multiset (A × Cell A ν) :=
  t.fields.cells + forest none (last Item.addr none t.children) t.children

/-- The node at the root. -/
def Item.node (t : Item A ν) (next prev : Option A) : Node A ν :=
  t.fields.node (first Item.addr none t.children) next prev

/-- A tree is its root and what lies below, which does not depend on the links of the root. -/
theorem Item.cells_eq (t : Item A ν) (next prev : Option A) :
    t.cells next prev = {(t.addr, .node (t.node next prev))} + t.body := by
  cases t
  exact Item.cells_mk _ _ _ next prev

theorem Item.node_mem (t : Item A ν) (next prev : Option A) :
    (t.addr, .node (t.node next prev)) ∈ t.cells next prev := by
  rw [t.cells_eq]
  exact Multiset.mem_add.mpr (Or.inl (Multiset.mem_singleton_self _))

theorem card_forest_lt (next prev : Option A) (t : Item A ν) (ts : List (Item A ν)) :
    (forest next (some t.addr) ts).card < (forest next prev (t :: ts)).card := by
  rw [forest_cons, Item.cells_eq, Multiset.card_add, Multiset.card_add, Multiset.card_singleton]
  omega

theorem Item.card_cells (t : Item A ν) (next prev : Option A) :
    (t.cells next prev).card = t.body.card + 1 := by
  rw [t.cells_eq, Multiset.card_add, Multiset.card_singleton, add_comm]

theorem Item.card_cells_le {c : Item A ν} {cs : List (Item A ν)} (h : c ∈ cs)
    (n p next prev : Option A) : (c.cells n p).card ≤ (forest next prev cs).card := by
  obtain ⟨ts, us, rfl⟩ := List.append_of_mem h
  rw [forest_split, Multiset.card_add, Multiset.card_add, c.card_cells, c.card_cells]
  omega

theorem length_le_card_forest (next prev : Option A) (ts : List (Item A ν)) :
    ts.length ≤ (forest next prev ts).card := by
  induction ts generalizing prev with
  | nil => exact Nat.zero_le _
  | cons t ts ih =>
      have h := ih (some t.addr)
      have hlt := card_forest_lt next prev t ts
      rw [List.length_cons]
      omega

/-- A child has its cells among those of the tree. -/
theorem Item.cells_child {t c : Item A ν} (h : c ∈ t.children) (next prev : Option A) :
    ∃ n p R, t.cells next prev = c.cells n p + R := by
  obtain ⟨ts, us, hts⟩ := List.append_of_mem h
  have hforest : forest none (last Item.addr none t.children) t.children =
      forest (some c.addr) (last Item.addr none t.children) ts +
        (c.cells (first Item.addr none us) (last Item.addr (last Item.addr none t.children) ts) +
          forest none (some c.addr) us) := by
    rw [← forest_split, ← hts]
  refine ⟨first Item.addr none us, last Item.addr (last Item.addr none t.children) ts,
    {(t.addr, .node (t.node next prev))} + (t.fields.cells +
      (forest (some c.addr) (last Item.addr none t.children) ts +
        forest none (some c.addr) us)), ?_⟩
  rw [t.cells_eq, Item.body, hforest]
  abel

/-- The strings of a node are among the cells of the tree. -/
theorem Item.string_mem {t : Item A ν} {s : StringBlock A} (h : t.fields.string = some s)
    (next prev : Option A) : (s.addr, .chars s.block) ∈ t.cells next prev := by
  rw [t.cells_eq, Item.body, Fields.cells, h]
  simp [stringCells]

theorem Item.valuestring_mem {t : Item A ν} {s : StringBlock A}
    (h : t.fields.valuestring = some s) (next prev : Option A) :
    (s.addr, .chars s.block) ∈ t.cells next prev := by
  rw [t.cells_eq, Item.body, Fields.cells, h]
  simp [stringCells]

/-- The children and the rest of a tree. -/
theorem Item.cells_children (t : Item A ν) (next prev : Option A) : t.cells next prev =
    forest none (last Item.addr none t.children) t.children +
      ({(t.addr, .node (t.node next prev))} + t.fields.cells) := by
  rw [t.cells_eq, Item.body]
  abel

/-- The tree with one more child. -/
def Item.push (t c : Item A ν) : Item A ν := .mk t.addr t.fields (t.children ++ [c])

@[simp] theorem Item.addr_push (t c : Item A ν) : (t.push c).addr = t.addr := rfl

@[simp] theorem Item.fields_push (t c : Item A ν) : (t.push c).fields = t.fields := rfl

@[simp] theorem Item.children_push (t c : Item A ν) : (t.push c).children = t.children ++ [c] := rfl

/-- Two trees side by side have different roots. -/
theorem addr_ne_of_nodup {t c : Item A ν} {next prev next' prev' : Option A}
    {R : Multiset (A × Cell A ν)}
    (h : ((t.cells next prev + (c.cells next' prev' + R)).map Prod.fst).Nodup) :
    t.addr ≠ c.addr := by
  rw [Multiset.map_add, Multiset.nodup_add, Multiset.map_add] at h
  have ht : t.addr ∈ (t.cells next prev).map Prod.fst :=
    Multiset.mem_map_of_mem Prod.fst (t.node_mem next prev)
  have hc : c.addr ∈ (c.cells next' prev').map Prod.fst :=
    Multiset.mem_map_of_mem Prod.fst (c.node_mem next' prev')
  intro he
  rw [he] at ht
  exact Multiset.disjoint_left.mp h.2.2 ht (Multiset.mem_add.mpr (Or.inl hc))

/-! ## Values -/

/-- The key of the root. -/
def Item.key (t : Item A ν) : Option CString := t.fields.string.map StringBlock.value

mutual

/-- The tree carries the value.  The key of the root is not part of it, and of the keys of
array elements only `K` is known. -/
def Item.Carries [CDouble ν] (K : Option CString → Prop) : Item A ν → Json ν → Prop
  | .mk _ d cs, .null => d.kind = .null ∧ d.valuestring = none ∧ cs = []
  | .mk _ d cs, .bool b =>
      d.kind = (if b then .true else .false) ∧ d.valuestring = none ∧ cs = []
  | .mk _ d cs, .number x =>
      d.kind = .number ∧ d.valuestring = none ∧ d.valuedouble = x ∧ d.valueint = valueintOf x ∧
        cs = []
  | .mk _ d cs, .string s => d.kind = .string ∧ d.valuestring.map StringBlock.value = some s ∧
      cs = []
  | .mk _ d cs, .array vs => d.kind = .array ∧ d.valuestring = none ∧ CarryItems K cs vs
  | .mk _ d cs, .object ms => d.kind = .object ∧ d.valuestring = none ∧ CarryMembers K cs ms

/-- The trees carry the elements of an array. -/
def CarryItems [CDouble ν] (K : Option CString → Prop) : List (Item A ν) → List (Json ν) → Prop
  | [], [] => True
  | c :: cs, v :: vs => K c.key ∧ c.Carries K v ∧ CarryItems K cs vs
  | _, _ => False

/-- The trees carry the members of an object. -/
def CarryMembers [CDouble ν] (K : Option CString → Prop) :
    List (Item A ν) → List (CString × Json ν) → Prop
  | [], [] => True
  | c :: cs, m :: ms => c.key = some m.1 ∧ c.Carries K m.2 ∧ CarryMembers K cs ms
  | _, _ => False

end

section Values

variable [CDouble ν] {K : Option CString → Prop}

/-- What stands for an element. -/
def Item.IsElement (K : Option CString → Prop) (i : Item A ν) (v : Json ν) : Prop :=
  K i.key ∧ i.Carries K v

/-- What stands for a member. -/
def Item.IsMember (K : Option CString → Prop) (i : Item A ν) (m : CString × Json ν) : Prop :=
  i.key = some m.1 ∧ i.Carries K m.2

theorem carryItems_iff {cs : List (Item A ν)} {vs : List (Json ν)} :
    CarryItems K cs vs ↔ List.Forall₂ (Item.IsElement K) cs vs := by
  induction cs generalizing vs with
  | nil => cases vs <;> simp [CarryItems]
  | cons c cs ih => cases vs <;> simp [CarryItems, Item.IsElement, ih, and_assoc]

theorem carryMembers_iff {cs : List (Item A ν)} {ms : List (CString × Json ν)} :
    CarryMembers K cs ms ↔ List.Forall₂ (Item.IsMember K) cs ms := by
  induction cs generalizing ms with
  | nil => cases ms <;> simp [CarryMembers]
  | cons c cs ih => cases ms <;> simp [CarryMembers, Item.IsMember, ih, and_assoc]

/-- The keys of array elements that the parser makes: there are none. -/
def NoKey (key : Option CString) : Prop := key = none

/-- Any keys of array elements. -/
def AnyKey (_ : Option CString) : Prop := True

/-- The tree stands for the value, as the parser builds it. -/
def Item.Denotes (t : Item A ν) (v : Json ν) : Prop := t.Carries NoKey v

/-- The tree is printed as the value. -/
def Item.Shows (t : Item A ν) (v : Json ν) : Prop := t.Carries AnyKey v

end Values

end KernelTests.CJson
