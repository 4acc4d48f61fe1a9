import KernelTests.Json.Number
import KernelTests.Json.Value
import KernelTests.Memory.Chain
import KernelTests.Memory.Text

/-!
# cJSON nodes in memory

The nodes of cJSON as they lie on the heap, linked to their neighbours and to their first
child, and the blocks of characters that hold strings and keys.  A pointer is an address or
`none`, the null pointer.  Reading a node where characters lie is undefined.
-/

namespace KernelTests.CJson

open Memory

variable {A ν α : Type}

/-! ## Numbers -/

/-- What cJSON does with a double besides reading and printing it: the comparisons and the
conversion that fill `valueint`, and the text `print_number` chooses from the two fields. -/
class CDouble (ν : Type) extends CNumber ν where
  /-- The double whose bytes are all zero. -/
  zero : ν
  /-- `number >= INT_MAX` -/
  geIntMax : ν → Bool
  /-- `number <= (double)INT_MIN` -/
  leIntMin : ν → Bool
  /-- `(int)number`, in between -/
  toInt : ν → ℤ
  /-- What `print_number` writes for `valuedouble` and `valueint`. -/
  numberText : ν → ℤ → Bytes
  /-- For the fields as they are filled, it is the text of the number. -/
  numberText_eq : ∀ d, numberText d
    (if geIntMax d then 2147483647 else if leIntMin d then -2147483648 else toInt d) = text d

/-- `valueint` of a number: saturation in case of overflow. -/
def valueintOf [CDouble ν] (d : ν) : ℤ :=
  if CDouble.geIntMax d then 2147483647
  else if CDouble.leIntMin d then -2147483648
  else CDouble.toInt d

/-- Integers for doubles. -/
instance : CDouble ℤ where
  zero := 0
  geIntMax d := 2147483647 ≤ d
  leIntMin d := d ≤ -2147483648
  toInt := id
  numberText d _ := CNumber.text d
  numberText_eq _ := rfl

/-! ## Nodes -/

/-- `type & 0xFF` -/
inductive Kind where
  | invalid
  | false
  | true
  | null
  | number
  | string
  | array
  | object
  | raw
deriving DecidableEq

/-- `struct cJSON` -/
structure Node (A ν : Type) where
  next : Option A
  prev : Option A
  child : Option A
  kind : Kind
  /-- `type & cJSON_IsReference` -/
  isReference : Bool
  /-- `type & cJSON_StringIsConst` -/
  stringIsConst : Bool
  valuestring : Option A
  valueint : ℤ
  valuedouble : ν
  string : Option A

/-- What lies at an address. -/
inductive Cell (A ν : Type) where
  | node (n : Node A ν)
  | chars (b : Block UInt8)

/-- A function of cJSON. -/
abbrev Action (A ν α : Type) := Prog A (Cell A ν) α

/-- `item->type = kind`, which clears the flags. -/
def Node.setType (n : Node A ν) (kind : Kind) : Node A ν :=
  { n with kind := kind, isReference := false, stringIsConst := false }

/-- A node whose bytes are all zero. -/
def Node.zero [CDouble ν] : Node A ν where
  next := none
  prev := none
  child := none
  kind := .invalid
  isReference := false
  stringIsConst := false
  valuestring := none
  valueint := 0
  valuedouble := CDouble.zero
  string := none

section Operations

variable [DecidableEq A]

/-- Read a node. -/
def loadNode (p : Option A) : Action A ν (Node A ν) := do
  match ← load p with
  | .node n => return n
  | .chars _ => failure

/-- Write to fields of a node. -/
def modifyNode (p : Option A) (f : Node A ν → Node A ν) : Action A ν Unit := do
  let n ← loadNode p
  store p (.node (f n))

/-- Read a block of characters. -/
def loadChars (p : Option A) : Action A ν (Block UInt8) := do
  match ← load p with
  | .node _ => failure
  | .chars b => return b

/-- Read the C string a pointer points to. -/
def loadText (p : Option A) : Action A ν CString := do
  let b ← loadChars p
  match b.text with
  | some s => return s
  | none => failure

/-- Write a character of a block. -/
def storeByte (p : Option A) (i : ℕ) (c : UInt8) : Action A ν Unit := do
  let b ← loadChars p
  match b.store i c with
  | some b' => store p (.chars b')
  | none => failure

/-- Write characters of a block, one behind the other. -/
def storeBytes (p : Option A) (i : ℕ) (bytes : Bytes) : Action A ν Unit := do
  let b ← loadChars p
  match b.storeAll i bytes with
  | some b' => store p (.chars b')
  | none => failure

variable (M : Allocator A (Cell A ν))

/-- `cJSON_strdup`.  The argument is what the pointer points to, if it is not null. -/
def strdup : Option CString → Action A ν (Option A)
  | none => return none
  | some s => alloc M (.chars (.ofCString s))

/-- `cJSON_New_Item` -/
def newItem [CDouble ν] : Action A ν (Option A) := alloc M (.node .zero)

/-! ## Rules -/

variable {β : Type} {P R : Multiset (A × Cell A ν)} {Q : β → Multiset (A × Cell A ν) → Prop}
  {a : A} {n : Node A ν} {b : Block UInt8} {p : Option A}

theorem Spec.loadNode_mem {k : Node A ν → Action A ν β} (hp : p = some a)
    (ha : (a, .node n) ∈ P) (hk : Spec (k n) P Q) : Spec (loadNode p >>= k) P Q := by
  rw [CJson.loadNode, bind_assoc]
  exact Memory.Spec.load hp ha hk

theorem Spec.loadNode {k : Node A ν → Action A ν β} (hp : p = some a)
    (hP : P = {(a, .node n)} + R) (hk : Spec (k n) P Q) : Spec (loadNode p >>= k) P Q :=
  Spec.loadNode_mem hp (by simp [hP]) hk

theorem Spec.modifyNode {f : Node A ν → Node A ν} {k : Unit → Action A ν β} (hp : p = some a)
    (hP : P = {(a, .node n)} + R) (hk : Spec (k ()) ({(a, .node (f n))} + R) Q) :
    Spec (modifyNode p f >>= k) P Q := by
  rw [CJson.modifyNode, bind_assoc]
  exact Spec.loadNode hp hP (Memory.Spec.store hp hP hk)

theorem Spec.loadChars_mem {k : Block UInt8 → Action A ν β} (hp : p = some a)
    (ha : (a, .chars b) ∈ P) (hk : Spec (k b) P Q) : Spec (loadChars p >>= k) P Q := by
  rw [CJson.loadChars, bind_assoc]
  exact Memory.Spec.load hp ha hk

theorem Spec.loadChars {k : Block UInt8 → Action A ν β} (hp : p = some a)
    (hP : P = {(a, .chars b)} + R) (hk : Spec (k b) P Q) : Spec (loadChars p >>= k) P Q :=
  Spec.loadChars_mem hp (by simp [hP]) hk

theorem Spec.loadText {s : CString} {k : CString → Action A ν β} (hp : p = some a)
    (ha : (a, .chars b) ∈ P) (hb : b.text = some s) (hk : Spec (k s) P Q) :
    Spec (loadText p >>= k) P Q := by
  rw [CJson.loadText, bind_assoc]
  refine Spec.loadChars_mem hp ha ?_
  rw [hb]
  exact hk

theorem Spec.loadCString {s : CString} {k : CString → Action A ν β} (hp : p = some a)
    (ha : (a, .chars (.ofCString s)) ∈ P) (hk : Spec (k s) P Q) :
    Spec (CJson.loadText p >>= k) P Q :=
  Spec.loadText hp ha (Block.text_ofCString s) hk

theorem Spec.storeByte {w : Bytes} {rest : List (Option UInt8)} {i : ℕ} {c : UInt8}
    {k : Unit → Action A ν β} (j : ℕ) (hi : i = w.length + j) (hj : j < rest.length)
    (hP : P = {(a, .chars (.written w rest))} + R)
    (hk : Spec (k ()) ({(a, .chars (.written w (rest.set j (some c))))} + R) Q) :
    Spec (CJson.storeByte (some a) i c >>= k) P Q := by
  rw [CJson.storeByte, bind_assoc, hi]
  refine Spec.loadChars rfl hP ?_
  rw [Block.store_written hj]
  exact Memory.Spec.store rfl hP hk

/-- Write behind what was written. -/
theorem Spec.storeBytes {w bytes : Bytes} {rest : List (Option UInt8)} {i : ℕ}
    {k : Unit → Action A ν β} (hp : p = some a) (hi : i = w.length)
    (hlen : bytes.length ≤ rest.length) (hP : P = {(a, .chars (.written w rest))} + R)
    (hk : Spec (k ()) ({(a, .chars (.written (w ++ bytes) (rest.drop bytes.length)))} + R) Q) :
    Spec (CJson.storeBytes p i bytes >>= k) P Q := by
  rw [CJson.storeBytes, bind_assoc, hp, hi]
  refine Spec.loadChars rfl hP ?_
  rw [Block.storeAll_written hlen]
  exact Memory.Spec.store rfl hP hk

end Operations

end KernelTests.CJson
