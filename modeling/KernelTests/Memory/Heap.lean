import Mathlib.Algebra.GroupWithZero.Nat
import Mathlib.Algebra.Order.Group.Multiset
import Mathlib.Data.Set.Finite.Basic
import Mathlib.Order.Nat
import Mathlib.Tactic.Abel

/-!
# Dynamic memory

Programs over a heap: blocks are requested, read, written and released, and a request
may fail.  A result of `none` is undefined behaviour: an access to memory that is not
allocated, or a walk that does not end.

What the heap holds is described by a multiset of cells, so the description of two
parts side by side is a sum.  `Spec c P Q` is a total triple with its frame built in: from
every heap that consists of the cells `P` and of any others, `c` ends, leaves the others
as they were, and replaces `P` by what `Q` says.
-/

namespace KernelTests.Memory

variable {A N α β : Type}

/-- What is stored at each address that is allocated, how many addresses that are, and how
many requests there were so far. -/
@[ext]
structure Heap (A N : Type) where
  cells : A → Option N
  live : ℕ
  requests : ℕ

/-- Where a request is served, given the number of requests before it and what is
allocated.  A request may fail; an address that is in use is never handed out again. -/
structure Allocator (A N : Type) where
  place : ℕ → (A → Option N) → Option A
  fresh : ∀ {k : ℕ} {m : A → Option N} {a : A}, place k m = some a → m a = none

/-- No request fails, as long as only finitely many addresses are in use. -/
def Allocator.Unfailing (M : Allocator A N) : Prop :=
  ∀ k m, {a | m a ≠ none}.Finite → M.place k m ≠ none

open Classical in
/-- Every request is served, at the least free address. -/
noncomputable def Allocator.leastFree : Allocator ℕ N where
  place _ m := if h : ∃ a, m a = none then some (Nat.find h) else none
  fresh := by
    intro k m a ha
    split at ha
    · next h =>
        cases ha
        exact Nat.find_spec h
    · cases ha

theorem Allocator.unfailing_leastFree : (leastFree : Allocator ℕ N).Unfailing := by
  intro k m hfin
  obtain ⟨a, ha⟩ := hfin.exists_notMem
  have hfree : ∃ a, m a = none := ⟨a, not_not.mp ha⟩
  unfold leastFree
  dsimp only
  rw [dif_pos hfree]
  exact Option.some_ne_none _

/-- A program over a heap. -/
abbrev Prog (A N α : Type) := StateT (Heap A N) Option α

/-! ## Operations -/

section Operations

variable [DecidableEq A]

/-- Read a cell. -/
def load : Option A → Prog A N N
  | none => fun _ ↦ none
  | some a => fun h ↦ (h.cells a).map fun n ↦ (n, h)

/-- Overwrite a cell. -/
def store : Option A → N → Prog A N Unit
  | none, _ => fun _ ↦ none
  | some a, n => fun h ↦
    (h.cells a).map fun _ ↦ ((), { h with cells := Function.update h.cells a (some n) })

/-- Release a cell.  Releasing the null pointer does nothing. -/
def free : Option A → Prog A N Unit
  | none => fun h ↦ some ((), h)
  | some a => fun h ↦
    (h.cells a).map fun _ ↦ ((), ⟨Function.update h.cells a none, h.live - 1, h.requests⟩)

/-- Request a cell and fill it; the null pointer if the request fails. -/
def alloc (M : Allocator A N) (n : N) : Prog A N (Option A) := fun h ↦
  match M.place h.requests h.cells with
  | none => some (none, { h with requests := h.requests + 1 })
  | some a => some (some a, ⟨Function.update h.cells a (some n), h.live + 1, h.requests + 1⟩)

/-- Replace a cell by another one, which may lie at the same address; the null pointer if the
request fails, and then the cell is kept. -/
def realloc (M : Allocator A N) (f : N → N) : Option A → Prog A N (Option A)
  | none => fun _ ↦ none
  | some a => fun h ↦
    (h.cells a).map fun n ↦
      let cells := Function.update h.cells a none
      match M.place h.requests cells with
      | none => (none, { h with requests := h.requests + 1 })
      | some b => (some b, ⟨Function.update cells b (some (f n)), h.live, h.requests + 1⟩)

/-- A walk along pointers.  If it takes more steps than there are blocks, it comes back to
a block it has seen, and does not end. -/
def walk (f : ℕ → Prog A N α) : Prog A N α := fun h ↦ f (h.live + 1) h

end Operations

/-! ## Descriptions -/

/-- The allocated cells are exactly the listed ones. -/
structure Holds (m : A → Option N) (P : Multiset (A × N)) : Prop where
  nodup : (P.map Prod.fst).Nodup
  mem : ∀ a n, m a = some n ↔ (a, n) ∈ P

theorem Holds.finite {m : A → Option N} {P : Multiset (A × N)} (h : Holds m P) :
    {a | m a ≠ none}.Finite := by
  classical
  refine Set.Finite.subset (P.map Prod.fst).toFinset.finite_toSet fun a ha ↦ ?_
  obtain ⟨n, hn⟩ := Option.ne_none_iff_exists'.mp ha
  simpa using ⟨n, (h.mem a n).mp hn⟩

/-- A description determines the cells. -/
theorem Holds.cells_eq {m m' : A → Option N} {P : Multiset (A × N)} (h : Holds m P)
    (h' : Holds m' P) : m = m' := by
  funext a
  ext n
  rw [h.mem, h'.mem]

/-- One cell in front of the others. -/
theorem holds_cons_iff [DecidableEq A] {m : A → Option N} {a : A} {n : N}
    {P : Multiset (A × N)} :
    Holds m ((a, n) ::ₘ P) ↔ m a = some n ∧ Holds (Function.update m a none) P := by
  constructor
  · rintro ⟨hd, hm⟩
    rw [Multiset.map_cons, Multiset.nodup_cons] at hd
    refine ⟨(hm a n).mpr (Multiset.mem_cons_self _ _), hd.2, fun b k ↦ ?_⟩
    by_cases hb : b = a
    · subst hb
      rw [Function.update_self]
      refine ⟨fun h0 ↦ absurd h0 (by simp), fun hk ↦ ?_⟩
      exact absurd (Multiset.mem_map_of_mem Prod.fst hk) hd.1
    · rw [Function.update_of_ne hb, hm, Multiset.mem_cons]
      exact ⟨fun hk ↦ hk.resolve_left fun he ↦ hb (Prod.ext_iff.mp he).1, Or.inr⟩
  · rintro ⟨ha, hd, hm⟩
    have hnot : ∀ k, (a, k) ∉ P := by
      intro k hk
      simpa using (hm a k).mpr hk
    refine ⟨?_, fun b k ↦ ?_⟩
    · rw [Multiset.map_cons, Multiset.nodup_cons]
      refine ⟨fun h0 ↦ ?_, hd⟩
      obtain ⟨⟨b, k⟩, hk, rfl⟩ := Multiset.mem_map.mp h0
      exact hnot k hk
    · rw [Multiset.mem_cons, Prod.mk.injEq]
      by_cases hb : b = a
      · subst hb
        rw [ha, Option.some.injEq]
        exact ⟨fun he ↦ Or.inl ⟨rfl, he.symm⟩,
          fun he ↦ he.elim (fun h0 ↦ h0.2.symm) fun hk ↦ absurd hk (hnot k)⟩
      · rw [← hm, Function.update_of_ne hb]
        exact ⟨Or.inr, fun h0 ↦ h0.resolve_left fun he ↦ hb he.1⟩

/-- A cell after it was written. -/
theorem holds_update_iff [DecidableEq A] {m : A → Option N} {a : A} {n : N}
    {P : Multiset (A × N)} :
    Holds (Function.update m a (some n)) ((a, n) ::ₘ P) ↔ Holds (Function.update m a none) P := by
  rw [holds_cons_iff, Function.update_self, Function.update_idem]
  exact and_iff_right rfl

/-- What is listed is allocated. -/
theorem Holds.read [DecidableEq A] {m : A → Option N} {a : A} {n : N} {P F : Multiset (A × N)}
    (h : Holds m (P + F)) (ha : (a, n) ∈ P) : m a = some n :=
  (h.mem a n).mpr (Multiset.mem_add.mpr (Or.inl ha))

/-- The heap consists of the listed cells. -/
structure Heap.Holds (h : Heap A N) (P : Multiset (A × N)) : Prop where
  cells : Memory.Holds h.cells P
  live : h.live = P.card

/-- A description determines what a heap holds. -/
theorem Heap.Holds.unique {h h' : Heap A N} {P : Multiset (A × N)} (hP : h.Holds P)
    (hP' : h'.Holds P) : h.cells = h'.cells ∧ h.live = h'.live :=
  ⟨hP.cells.cells_eq hP'.cells, hP.live.trans hP'.live.symm⟩

theorem Heap.holds_empty : Heap.Holds (⟨fun _ ↦ none, 0, 0⟩ : Heap A N) 0 where
  cells := ⟨Multiset.nodup_zero, fun _ _ ↦ by simp⟩
  live := rfl

/-! ## Triples -/

/-- From a heap that consists of the cells `P` and of any others, the program ends without
undefined behaviour; the others are kept, and the result and what `P` became satisfy `Q`. -/
def Spec (c : Prog A N α) (P : Multiset (A × N)) (Q : α → Multiset (A × N) → Prop) : Prop :=
  ∀ F h, h.Holds (P + F) → ∃ r h' P', c h = some (r, h') ∧ h'.Holds (P' + F) ∧ Q r P'

namespace Spec

variable {c : Prog A N α} {k : α → Prog A N β} {P R : Multiset (A × N)}
  {Q : α → Multiset (A × N) → Prop} {Q' : β → Multiset (A × N) → Prop}

theorem pure {r : α} (h : Q r P) : Spec (pure r : Prog A N α) P Q :=
  fun _ s hs ↦ ⟨r, s, P, rfl, hs, h⟩

theorem bind (hc : Spec c P Q) (hk : ∀ r P', Q r P' → Spec (k r) P' Q') :
    Spec (c >>= k) P Q' := by
  intro F s hs
  obtain ⟨r, s', P', hr, hs', hq⟩ := hc F s hs
  obtain ⟨r', s'', P'', hr', hs'', hq'⟩ := hk r P' hq F s' hs'
  refine ⟨r', s'', P'', ?_, hs'', hq'⟩
  change (c s).bind (fun p ↦ k p.1 p.2) = _
  rw [hr]
  exact hr'

/-- The last step of a program, as a step with nothing behind it. -/
theorem last (hc : Spec (c >>= Pure.pure) P Q) : Spec c P Q := by
  rwa [bind_pure] at hc

theorem mono {Q' : α → Multiset (A × N) → Prop} (hc : Spec c P Q)
    (h : ∀ r P', Q r P' → Q' r P') : Spec c P Q' := by
  intro F s hs
  obtain ⟨r, s', P', hr, hs', hq⟩ := hc F s hs
  exact ⟨r, s', P', hr, hs', h r P' hq⟩

/-- Further cells take no part. -/
theorem frame (hc : Spec c P Q) (R : Multiset (A × N)) :
    Spec c (P + R) fun r P' ↦ ∃ P₀, P' = P₀ + R ∧ Q r P₀ := by
  intro F s hs
  rw [add_assoc] at hs
  obtain ⟨r, s', P', hr, hs', hq⟩ := hc (R + F) s hs
  exact ⟨r, s', P' + R, hr, by rwa [add_assoc], P', rfl, hq⟩

/-- A program that works on a part of the cells, and what follows it. -/
theorem call {P₀ : Multiset (A × N)} (hc : Spec c P₀ Q) (hP : P = P₀ + R)
    (hk : ∀ r P', Q r P' → Spec (k r) (P' + R) Q') : Spec (c >>= k) P Q' := by
  subst hP
  refine bind (hc.frame R) fun r P' h ↦ ?_
  obtain ⟨P₁, rfl, hq⟩ := h
  exact hk r P₁ hq

/-- A program that works on a part of the cells and comes last. -/
theorem tail {P₀ : Multiset (A × N)} {Q' : α → Multiset (A × N) → Prop} (hc : Spec c P₀ Q)
    (hP : P = P₀ + R) (h : ∀ r P', Q r P' → Q' r (P' + R)) : Spec c P Q' := by
  subst hP
  refine (hc.frame R).mono fun r P' h' ↦ ?_
  obtain ⟨P₁, rfl, hq⟩ := h'
  exact h r P₁ hq

/-- Different cells have different addresses. -/
theorem of_nodup (h : (P.map Prod.fst).Nodup → Spec c P Q) : Spec c P Q := by
  intro F s hs
  have hd := hs.cells.nodup
  rw [Multiset.map_add, Multiset.nodup_add] at hd
  exact h hd.1 F s hs

/-- A walk is a bounded walk, for every bound above the number of cells it works on. -/
theorem walk {f : ℕ → Prog A N α} (h : ∀ n, P.card < n → Spec (f n) P Q) :
    Spec (walk f) P Q := by
  intro F s hs
  refine h (s.live + 1) ?_ F s hs
  rw [hs.live, Multiset.card_add]
  omega

section Operations

variable [DecidableEq A] {a : A} {n : N} {p : Option A}

theorem load {k : N → Prog A N β} (hp : p = some a) (ha : (a, n) ∈ P)
    (hk : Spec (k n) P Q') : Spec (load p >>= k) P Q' := by
  subst hp
  refine bind (Q := fun r P' ↦ r = n ∧ P' = P) (fun F s hs ↦ ?_) fun r P' h ↦ h.1 ▸ h.2 ▸ hk
  refine ⟨n, s, P, ?_, hs, rfl, rfl⟩
  change (s.cells a).map (fun n ↦ (n, s)) = _
  rw [hs.cells.read ha]
  rfl

theorem store {n' : N} {k : Unit → Prog A N β} (hp : p = some a) (hP : P = {(a, n)} + R)
    (hk : Spec (k ()) ({(a, n')} + R) Q') : Spec (store p n' >>= k) P Q' := by
  subst hp hP
  refine bind (Q := fun _ P' ↦ P' = {(a, n')} + R) (fun F s hs ↦ ?_) fun r P' h ↦ h ▸ hk
  obtain ⟨hc, hl⟩ := hs
  rw [Multiset.singleton_add, Multiset.cons_add] at hc hl
  obtain ⟨ha, hrest⟩ := holds_cons_iff.mp hc
  refine ⟨(), { s with cells := Function.update s.cells a (some n') }, _, ?_, ⟨?_, ?_⟩, rfl⟩
  · change (s.cells a).map _ = _
    rw [ha]
    rfl
  · rw [Multiset.singleton_add, Multiset.cons_add]
    exact holds_update_iff.mpr hrest
  · rw [Multiset.singleton_add, Multiset.cons_add, Multiset.card_cons]
    rwa [Multiset.card_cons] at hl

theorem free {k : Unit → Prog A N β} (hp : p = some a) (hP : P = {(a, n)} + R)
    (hk : Spec (k ()) R Q') : Spec (free p >>= k) P Q' := by
  subst hp hP
  refine bind (Q := fun _ P' ↦ P' = R) (fun F s hs ↦ ?_) fun r P' h ↦ h ▸ hk
  obtain ⟨hc, hl⟩ := hs
  rw [Multiset.singleton_add, Multiset.cons_add] at hc hl
  obtain ⟨ha, hrest⟩ := holds_cons_iff.mp hc
  refine ⟨(), ⟨Function.update s.cells a none, s.live - 1, s.requests⟩, _, ?_,
    ⟨hrest, ?_⟩, rfl⟩
  · change (s.cells a).map _ = _
    rw [ha]
    rfl
  · rw [Multiset.card_cons] at hl
    exact Nat.sub_eq_of_eq_add hl

theorem free_null {k : Unit → Prog A N β} (hk : Spec (k ()) P Q') :
    Spec (Memory.free (none : Option A) >>= k) P Q' :=
  bind (Q := fun _ P' ↦ P' = P) (fun _ s hs ↦ ⟨(), s, P, rfl, hs, rfl⟩) fun _ _ h ↦ h ▸ hk

/-- A request fails, which an unfailing allocator never does, or delivers a new cell. -/
theorem alloc {M : Allocator A N} {k : Option A → Prog A N β}
    (hnone : ¬ M.Unfailing → Spec (k none) P Q')
    (hsome : ∀ a, Spec (k (some a)) ({(a, n)} + P) Q') : Spec (alloc M n >>= k) P Q' := by
  refine bind (Q := fun r P' ↦ (r = none ∧ P' = P ∧ ¬ M.Unfailing) ∨
    ∃ a, r = some a ∧ P' = {(a, n)} + P) (fun F s hs ↦ ?_) ?_
  · unfold Memory.alloc
    cases h : M.place s.requests s.cells with
    | none =>
        refine ⟨none, _, P, rfl, ⟨hs.cells, hs.live⟩, Or.inl ⟨rfl, rfl, fun hM ↦ ?_⟩⟩
        exact hM _ _ hs.cells.finite h
    | some a =>
        refine ⟨some a, _, _, rfl, ⟨?_, ?_⟩, Or.inr ⟨a, rfl, rfl⟩⟩
        · rw [Multiset.singleton_add, Multiset.cons_add]
          refine holds_update_iff.mpr ?_
          rw [← M.fresh h, Function.update_eq_self]
          exact hs.cells
        · rw [Multiset.singleton_add, Multiset.cons_add, Multiset.card_cons, hs.live]
  · rintro r P' (⟨rfl, rfl, hM⟩ | ⟨a, rfl, rfl⟩)
    · exact hnone hM
    · exact hsome a

/-- A request for another size fails, or the cell has moved. -/
theorem realloc {M : Allocator A N} {f : N → N} {k : Option A → Prog A N β} (hp : p = some a)
    (hP : P = {(a, n)} + R) (hnone : ¬ M.Unfailing → Spec (k none) P Q')
    (hsome : ∀ b, Spec (k (some b)) ({(b, f n)} + R) Q') : Spec (realloc M f p >>= k) P Q' := by
  subst hp hP
  refine bind (Q := fun r P' ↦ (r = none ∧ P' = {(a, n)} + R ∧ ¬ M.Unfailing) ∨
    ∃ b, r = some b ∧ P' = {(b, f n)} + R) (fun F s hs ↦ ?_) ?_
  · obtain ⟨hc, hl⟩ := hs
    have hcons := hc
    rw [Multiset.singleton_add, Multiset.cons_add] at hcons
    obtain ⟨ha, hrest⟩ := holds_cons_iff.mp hcons
    unfold Memory.realloc
    simp only [ha, Option.map_some]
    cases h : M.place s.requests (Function.update s.cells a none) with
    | none =>
        refine ⟨none, _, _, rfl, ⟨hc, hl⟩, Or.inl ⟨rfl, rfl, fun hM ↦ ?_⟩⟩
        exact hM _ _ hrest.finite h
    | some b =>
        refine ⟨some b, _, _, rfl, ⟨?_, ?_⟩, Or.inr ⟨b, rfl, rfl⟩⟩
        · rw [Multiset.singleton_add, Multiset.cons_add]
          refine holds_update_iff.mpr ?_
          rwa [Function.update_eq_self_iff.mpr (M.fresh h).symm]
        · rw [Multiset.singleton_add, Multiset.cons_add, Multiset.card_cons] at hl ⊢
          exact hl
  · rintro r P' (⟨rfl, rfl, hM⟩ | ⟨b, rfl, rfl⟩)
    · exact hnone hM
    · exact hsome b

end Operations

end Spec

end KernelTests.Memory
