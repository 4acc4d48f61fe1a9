import KernelTests.Json.Bounds

/-!
# Arrays and objects alike

The loops of `parse_array` and `parse_object` are one loop over children; what a child is
and which bracket closes the list make the difference.
-/

namespace KernelTests.CJson

open Json

variable {ν : Type}

/-- The loops of `parse_array` and `parse_object`: one child after the other, up to the
closing bracket. -/
def readList {α : Type} (one : Bytes → Option (α × Bytes)) (closing : UInt8) :
    ℕ → Bytes → Option (List α × Bytes)
  | 0, _ => none
  | fuel + 1, s => do
    let (x, s) ← one s
    match skipWs s with
    | [] => none
    | c :: s =>
      if c = 44 then do
        let (xs, s) ← readList one closing fuel s
        return (x :: xs, s)
      else if c = closing then some ([x], s)
      else none

/-- A child of an object. -/
def readMember (readValue : Parser ν) (s : Bytes) : Option ((CString × Json ν) × Bytes) := do
  let (k, s) ← Json.parseString (skipWs s)
  let s := skipWs s
  if s.head? = some 58 then do
    let (v, s) ← readValue (skipWs s.tail)
    return ((k, v), s)
  else none

theorem parseElements_eq_readList (pv : Parser ν) (fuel : ℕ) (s : Bytes) :
    parseElements pv fuel s = readList (fun s ↦ pv (skipWs s)) 93 fuel s := by
  induction fuel generalizing s with
  | zero => rfl
  | succ fuel ih =>
      have hrest : parseElements pv fuel = readList (fun s ↦ pv (skipWs s)) 93 fuel := funext ih
      rw [parseElements, readList]
      exact hrest ▸ rfl

theorem parseMembers_eq_readList (pv : Parser ν) (fuel : ℕ) (s : Bytes) :
    parseMembers pv fuel s = readList (readMember pv) 125 fuel s := by
  induction fuel generalizing s with
  | zero => rfl
  | succ fuel ih =>
      rw [parseMembers, readList, readMember]
      simp only [ih, Option.bind_eq_bind, Option.bind_assoc]
      refine Option.bind_congr fun p _ ↦ ?_
      split
      · rw [Option.bind_assoc]
        rfl
      · rfl

end KernelTests.CJson
