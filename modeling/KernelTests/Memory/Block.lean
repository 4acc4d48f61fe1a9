import Mathlib.Data.List.Basic
import Mathlib.Data.Nat.Notation

/-!
# Blocks of memory

A block is what an allocation delivers: so many cells, none of which holds a value
before one is stored.  A store outside the block is undefined.  Values that are stored
one behind the other are one store, `storeAll`, and `storeAll_alloc` says when it is
defined and what the block holds afterwards.
-/

namespace KernelTests.Memory

variable {α : Type}

/-- An allocated block.  A cell that was never written holds nothing. -/
@[ext]
structure Block (α : Type) where
  cells : List (Option α)
deriving DecidableEq

namespace Block

/-- A new block. -/
def alloc (n : ℕ) : Block α := ⟨List.replicate n none⟩

/-- The number of cells. -/
def size (b : Block α) : ℕ := b.cells.length

/-- Write a value to a cell; outside the block this is undefined. -/
def store (b : Block α) (i : ℕ) (a : α) : Option (Block α) :=
  if i < b.size then some ⟨b.cells.set i (some a)⟩ else none

/-- Write values to the cells from `i` on, one after the other. -/
def storeAll (b : Block α) (i : ℕ) : List α → Option (Block α)
  | [] => some b
  | a :: as => b.store i a >>= fun b' ↦ b'.storeAll (i + 1) as

@[simp] theorem size_alloc (n : ℕ) : (alloc n : Block α).size = n := List.length_replicate

theorem store_of_lt {b : Block α} {i : ℕ} (h : i < b.size) (a : α) :
    b.store i a = some ⟨b.cells.set i (some a)⟩ := if_pos h

theorem store_of_le {b : Block α} {i : ℕ} (h : b.size ≤ i) (a : α) : b.store i a = none :=
  if_neg (Nat.not_lt.mpr h)

@[simp] theorem size_set (b : Block α) (i : ℕ) (c : Option α) :
    (⟨b.cells.set i c⟩ : Block α).size = b.size := List.length_set

theorem storeAll_singleton (b : Block α) (i : ℕ) (a : α) : b.storeAll i [a] = b.store i a := by
  rw [storeAll]
  exact bind_pure (b.store i a)

/-- Two runs of values, the second behind the first, are one run. -/
theorem storeAll_append (b : Block α) (i : ℕ) (as as' : List α) :
    b.storeAll i (as ++ as') = b.storeAll i as >>= fun b' ↦ b'.storeAll (i + as.length) as' := by
  induction as generalizing b i with
  | nil => rfl
  | cons a as ih =>
      rw [List.cons_append, storeAll, storeAll, bind_assoc]
      refine congrArg (b.store i a >>= ·) (funext fun b' ↦ ?_)
      rw [ih, List.length_cons, Nat.add_assoc, Nat.add_comm 1]

/-- Inside the block the values replace the cells, and the other cells are kept. -/
theorem storeAll_of_le {b : Block α} {i : ℕ} {as : List α} (h : i + as.length ≤ b.size) :
    b.storeAll i as =
      some ⟨b.cells.take i ++ (as.map some ++ b.cells.drop (i + as.length))⟩ := by
  induction as generalizing b i with
  | nil => simp [storeAll]
  | cons a as ih =>
      rw [List.length_cons] at h
      have hi : i < b.size := by omega
      have hrest : i + 1 + as.length ≤ (⟨b.cells.set i (some a)⟩ : Block α).size := by
        rw [size_set]
        omega
      have htake : (b.cells.set i (some a)).take (i + 1) = b.cells.take i ++ [some a] := by
        rw [List.take_add_one, List.take_set_of_le (Nat.le_refl i), List.getElem?_set_self hi,
          Option.toList_some]
      rw [storeAll, store_of_lt hi, Option.bind_eq_bind, Option.bind_some, ih hrest, htake,
        List.drop_set_of_lt (by omega)]
      simp [Nat.add_assoc, Nat.add_comm 1]

/-- A run of values that leaves the block is undefined. -/
theorem storeAll_of_lt {b : Block α} {i : ℕ} {as : List α} (hi : i ≤ b.size)
    (h : b.size < i + as.length) : b.storeAll i as = none := by
  induction as generalizing b i with
  | nil => exact absurd hi (Nat.not_le.mpr h)
  | cons a as ih =>
      rw [List.length_cons] at h
      rw [storeAll]
      rcases Nat.lt_or_eq_of_le hi with hi | rfl
      · rw [store_of_lt hi, Option.bind_eq_bind, Option.bind_some]
        refine ih ?_ ?_
        · rwa [size_set]
        · rw [size_set]
          omega
      · rw [store_of_le (Nat.le_refl _)]
        rfl

/-- What a new block holds after values were stored from its start. -/
theorem storeAll_alloc (n : ℕ) (as : List α) :
    (alloc n).storeAll 0 as =
      if as.length ≤ n then some ⟨as.map some ++ List.replicate (n - as.length) none⟩
      else none := by
  split
  · next h =>
      rw [storeAll_of_le (by rwa [Nat.zero_add, size_alloc])]
      simp [alloc]
  · next h =>
      refine storeAll_of_lt (Nat.zero_le _) ?_
      rw [Nat.zero_add, size_alloc]
      exact Nat.not_le.mp h

/-- Values with a last one behind them need one cell more. -/
theorem storeAll_alloc_store (n : ℕ) (as : List α) (a : α) :
    ((alloc n).storeAll 0 as >>= fun b ↦ b.store as.length a) =
      if as.length < n then
        some ⟨as.map some ++ some a :: List.replicate (n - (as.length + 1)) none⟩
      else none := by
  have hone : ((alloc n).storeAll 0 as >>= fun b ↦ b.store as.length a) =
      (alloc n).storeAll 0 (as ++ [a]) := by
    rw [storeAll_append, Nat.zero_add]
    exact congrArg (_ >>= ·) (funext fun b ↦ (storeAll_singleton b as.length a).symm)
  rw [hone, storeAll_alloc, List.length_append, List.length_singleton, List.map_append,
    List.append_assoc]
  rfl

end Block

end KernelTests.Memory
