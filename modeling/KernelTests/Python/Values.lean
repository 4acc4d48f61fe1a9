import KernelTests.Python.Float

/-!
# Values of a JSON document

`json.load` delivers nested dictionaries and lists.  A number of the document is an `int`
or any `float`, since `NaN` and `Infinity` are literals too.  `float` converts some of
these values and raises an exception for the others.
-/

namespace KernelTests.Python

/-! ## The range of a float -/

/-- The `float` next to an exact value: beyond the largest one it is infinite, and below half of
the smallest one it is zero. -/
def Float.ofRat (q : ℚ) : Float :=
  if 2 ^ 1024 - 2 ^ 970 ≤ |q| then .inf (q < 0)
  else if |q| ≤ 1 / 2 ^ 1075 then .finite 0
  else .finite q

/-! ## Values -/

/-- What `json.load` delivers.  The members of a dictionary are in the order of the document. -/
inductive Value where
  | none
  | bool (b : Bool)
  | int (z : ℤ)
  | float (x : Float)
  | str (s : Str)
  | list (items : List Value)
  | dict (members : List (Str × Value))

namespace Value

/-- `value.get(key)`: the last member with this key, or `None`.  What is not a dictionary raises an
`AttributeError`. -/
def get (key : Str) : Value → Option Value
  | .dict members => some ((members.reverse.lookup key).getD .none)
  | _ => Option.none

/-- `value is None` -/
def isNone : Value → Bool
  | .none => true
  | _ => false

variable [Unicode]

/-- `float(value)`; without a result it raises a `TypeError`, a `ValueError` or, for an integer that
is too large, an `OverflowError`. -/
def toFloat : Value → Option Float
  | .bool b => some (.finite (if b then 1 else 0))
  | .int z =>
    match Float.ofRat z with
    | .finite q => some (.finite q)
    | _ => Option.none
  | .float x => some x
  | .str s =>
    match Python.toFloat s with
    | some (.finite q) => some (Float.ofRat q)
    | x => x
  | _ => Option.none

end Value

end KernelTests.Python
