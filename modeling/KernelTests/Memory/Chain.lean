import KernelTests.Memory.Heap

/-!
# Doubly linked lists

A stretch of a doubly linked list, described by the elements that lie in it.  What an
element owns depends on the two pointers it holds: `cells x next prev`.  The pointers that
leave the stretch at its two ends are parameters, so a stretch can be cut at every place.
-/

namespace KernelTests.Memory

variable {A N ι : Type}

/-- The address of the first element, or what stands behind an empty stretch. -/
def first (addr : ι → A) (next : Option A) : List ι → Option A
  | [] => next
  | x :: _ => some (addr x)

/-- The address of the last element, or what stands in front of an empty stretch. -/
def last (addr : ι → A) : Option A → List ι → Option A
  | prev, [] => prev
  | _, x :: xs => last addr (some (addr x)) xs

/-- The cells of a stretch. -/
def chain (addr : ι → A) (cells : ι → Option A → Option A → Multiset (A × N)) (next : Option A) :
    Option A → List ι → Multiset (A × N)
  | _, [] => 0
  | prev, x :: xs =>
      cells x (first addr next xs) prev + chain addr cells next (some (addr x)) xs

variable {addr : ι → A} {cells : ι → Option A → Option A → Multiset (A × N)}
  {next prev : Option A}

@[simp] theorem first_nil : first addr next [] = next := rfl

@[simp] theorem first_cons (x : ι) (xs : List ι) : first addr next (x :: xs) = some (addr x) := rfl

@[simp] theorem last_nil : last addr prev [] = prev := rfl

@[simp] theorem last_cons (x : ι) (xs : List ι) :
    last addr prev (x :: xs) = last addr (some (addr x)) xs := rfl

@[simp] theorem chain_nil : chain addr cells next prev [] = 0 := rfl

theorem chain_cons (x : ι) (xs : List ι) : chain addr cells next prev (x :: xs) =
    cells x (first addr next xs) prev + chain addr cells next (some (addr x)) xs := rfl

@[simp] theorem chain_singleton (x : ι) :
    chain addr cells next prev [x] = cells x next prev := add_zero _

theorem first_append (xs ys : List ι) :
    first addr next (xs ++ ys) = first addr (first addr next ys) xs := by
  cases xs <;> rfl

@[simp] theorem last_append (xs ys : List ι) :
    last addr prev (xs ++ ys) = last addr (last addr prev xs) ys := by
  induction xs generalizing prev with
  | nil => rfl
  | cons x xs ih => exact ih

/-- A list that is not empty has its last address among its elements. -/
theorem last_concat (xs : List ι) (x : ι) : last addr prev (xs ++ [x]) = some (addr x) := by
  rw [last_append]
  rfl

theorem isSome_last {xs : List ι} (h : xs ≠ []) : (last addr prev xs).isSome := by
  rw [← List.dropLast_append_getLast h, last_concat]
  rfl

/-- Two stretches, one behind the other. -/
theorem chain_append (xs ys : List ι) : chain addr cells next prev (xs ++ ys) =
    chain addr cells (first addr next ys) prev xs +
      chain addr cells next (last addr prev xs) ys := by
  induction xs generalizing prev with
  | nil => simp
  | cons x xs ih =>
      rw [List.cons_append, chain_cons, chain_cons, ih, first_append, add_assoc]
      rfl

/-- A stretch with its last element split off. -/
theorem chain_concat (xs : List ι) (x : ι) : chain addr cells next prev (xs ++ [x]) =
    chain addr cells (some (addr x)) prev xs + cells x next (last addr prev xs) := by
  rw [chain_append, chain_singleton]
  rfl

/-- A stretch cut at one of its elements. -/
theorem chain_split (xs : List ι) (x : ι) (ys : List ι) :
    chain addr cells next prev (xs ++ x :: ys) = chain addr cells (some (addr x)) prev xs +
      (cells x (first addr next ys) (last addr prev xs) +
        chain addr cells next (some (addr x)) ys) := by
  rw [chain_append, chain_cons]
  rfl

end KernelTests.Memory
