import Mathlib.Computability.Language
import Mathlib.Data.List.Infix

/-!
# Regular expressions with backtracking

Expressions over an arbitrary alphabet, with greedy repetition and word boundaries,
and a matcher that lists all results in the order in which a backtracking engine
tries them.  `Spans` says which stretches of a text an expression matches;
`mem_run_iff` connects the two.  Expressions without boundaries match a language.
-/

namespace KernelTests

/-- Regular expressions. -/
inductive Regex (α : Type) where
  | empty
  | char (p : α → Bool)
  | seq (r q : Regex α)
  | alt (r q : Regex α)
  | star (r : Regex α)
  | boundary (word : α → Bool)

namespace Regex

variable {α : Type}

/-- A place in a text: the character in front of it and the text behind it. -/
@[ext]
structure Cursor (α : Type) where
  before : Option α
  rest : List α

/-- The place at the start of a text. -/
def Cursor.start (s : List α) : Cursor α := ⟨none, s⟩

/-- One of the neighbours is a word character, and the other is not. -/
def AtBoundary (word : α → Bool) (x : Cursor α) : Prop :=
  x.before.any word ≠ x.rest.head?.any word

instance (word : α → Bool) (x : Cursor α) : Decidable (AtBoundary word x) :=
  inferInstanceAs (Decidable (_ ≠ _))

/-- `Spans r x y`: the text between the places `x` and `y` matches `r`. -/
inductive Spans : Regex α → Cursor α → Cursor α → Prop
  | empty (x : Cursor α) : Spans .empty x x
  | char {p : α → Bool} {b : Option α} {c : α} {s : List α} :
      p c → Spans (.char p) ⟨b, c :: s⟩ ⟨some c, s⟩
  | seq {r q : Regex α} {x y z : Cursor α} : Spans r x y → Spans q y z → Spans (.seq r q) x z
  | altLeft {r q : Regex α} {x y : Cursor α} : Spans r x y → Spans (.alt r q) x y
  | altRight {r q : Regex α} {x y : Cursor α} : Spans q x y → Spans (.alt r q) x y
  | starNil {r : Regex α} (x : Cursor α) : Spans (.star r) x x
  | starCons {r : Regex α} {x y z : Cursor α} :
      Spans r x y → Spans (.star r) y z → Spans (.star r) x z
  | boundary {word : α → Bool} {x : Cursor α} : AtBoundary word x → Spans (.boundary word) x x

/-- Matching goes forward, or stays where it is. -/
theorem Spans.eq_or_lt {r : Regex α} {x y : Cursor α} (h : Spans r x y) :
    y = x ∨ y.rest.length < x.rest.length := by
  induction h with
  | empty | starNil | boundary => exact Or.inl rfl
  | char => exact Or.inr (Nat.lt_succ_self _)
  | altLeft _ ih | altRight _ ih => exact ih
  | seq _ _ ih₁ ih₂ | starCons _ _ ih₁ ih₂ =>
      rcases ih₁ with rfl | h₁
      · exact ih₂
      · rcases ih₂ with rfl | h₂
        · exact Or.inr h₁
        · exact Or.inr (h₂.trans h₁)

/-! ## The matcher -/

/-- Greedy repetition: rounds that make progress first, then the end of the repetition. -/
def greedy (f : Cursor α → List (Cursor α)) : ℕ → Cursor α → List (Cursor α)
  | 0, x => [x]
  | n + 1, x =>
    ((f x).filter fun y ↦ y.rest.length < x.rest.length).flatMap (greedy f n) ++ [x]

/-- The ends of all matches from a place, in the order in which they are tried. -/
def run : Regex α → Cursor α → List (Cursor α)
  | .empty, x => [x]
  | .char p, x =>
    match x.rest with
    | [] => []
    | c :: s => if p c then [⟨some c, s⟩] else []
  | .seq r q, x => (run r x).flatMap (run q)
  | .alt r q, x => run r x ++ run q x
  | .star r, x => greedy (run r) x.rest.length x
  | .boundary word, x => if AtBoundary word x then [x] else []

/-- A repetition can always stop at once. -/
theorem mem_greedy_self (f : Cursor α → List (Cursor α)) (n : ℕ) (x : Cursor α) :
    x ∈ greedy f n x := by
  cases n <;> simp [greedy]

theorem spans_of_mem_greedy {r : Regex α} (h : ∀ x y, y ∈ run r x → Spans r x y) (n : ℕ) :
    ∀ x y, y ∈ greedy (run r) n x → Spans (.star r) x y := by
  induction n with
  | zero =>
      intro x y hy
      rw [List.mem_singleton.mp hy]
      exact .starNil x
  | succ n ih =>
      intro x y hy
      simp only [greedy, List.mem_append, List.mem_flatMap, List.mem_filter,
        List.mem_singleton] at hy
      rcases hy with ⟨z, ⟨hz, _⟩, hy⟩ | rfl
      · exact .starCons (h x z hz) (ih z y hy)
      · exact .starNil y

/-- Every result of the matcher is a match. -/
theorem spans_of_mem_run (r : Regex α) : ∀ x y, y ∈ run r x → Spans r x y := by
  induction r with
  | empty =>
      intro x y hy
      rw [List.mem_singleton.mp hy]
      exact .empty x
  | char p =>
      rintro ⟨b, _ | ⟨c, s⟩⟩ y hy
      · cases hy
      · simp only [run] at hy
        split at hy
        · next hp =>
            rw [List.mem_singleton.mp hy]
            exact .char hp
        · cases hy
  | seq r q ihr ihq =>
      intro x y hy
      obtain ⟨z, hz, hy⟩ := List.mem_flatMap.mp hy
      exact .seq (ihr x z hz) (ihq z y hy)
  | alt r q ihr ihq =>
      intro x y hy
      rcases List.mem_append.mp hy with hy | hy
      · exact .altLeft (ihr x y hy)
      · exact .altRight (ihq x y hy)
  | star r ih =>
      intro x y hy
      exact spans_of_mem_greedy ih _ x y hy
  | boundary word =>
      intro x y hy
      by_cases hb : AtBoundary word x
      · rw [run, if_pos hb] at hy
        rw [List.mem_singleton.mp hy]
        exact .boundary hb
      · rw [run, if_neg hb] at hy
        cases hy

/-- The matcher finds every match. -/
theorem mem_run_of_spans {r : Regex α} {x y : Cursor α} (h : Spans r x y) : y ∈ run r x := by
  induction r generalizing x y with
  | empty =>
      cases h
      exact List.mem_singleton.mpr rfl
  | char p =>
      cases h with
      | char hp => simp [run, hp]
  | seq r q ihr ihq =>
      cases h with
      | seq h₁ h₂ => exact List.mem_flatMap.mpr ⟨_, ihr h₁, ihq h₂⟩
  | alt r q ihr ihq =>
      cases h with
      | altLeft h => exact List.mem_append_left _ (ihr h)
      | altRight h => exact List.mem_append_right _ (ihq h)
  | star r ih =>
      -- fuel that covers the rest of the text covers every round that makes progress
      have hgreedy : ∀ {q : Regex α} {x y : Cursor α}, Spans q x y → q = .star r →
          ∀ n, x.rest.length ≤ n → y ∈ greedy (run r) n x := by
        intro q x y h
        induction h with
        | starNil x => exact fun _ n _ ↦ mem_greedy_self _ n x
        | @starCons r' x z y hr _ _ ihs =>
            intro hq n hn
            cases hq
            rcases hr.eq_or_lt with rfl | hlt
            · exact ihs rfl n hn
            · obtain ⟨n, rfl⟩ := Nat.exists_eq_succ_of_ne_zero (Nat.ne_of_gt
                (Nat.lt_of_lt_of_le (Nat.zero_lt_of_lt hlt) hn))
              refine List.mem_append_left _ (List.mem_flatMap.mpr ⟨z, ?_, ihs rfl n (by omega)⟩)
              exact List.mem_filter.mpr ⟨ih hr, by simpa using hlt⟩
        | _ => intro hq; cases hq
      exact hgreedy h rfl _ le_rfl
  | boundary word =>
      cases h with
      | boundary hb => simp [run, hb]

theorem mem_run_iff {r : Regex α} {x y : Cursor α} : y ∈ run r x ↔ Spans r x y :=
  ⟨spans_of_mem_run r x y, mem_run_of_spans⟩

/-! ## Searching -/

/-- The places of a text, from left to right. -/
def places : Option α → List α → List (Cursor α)
  | b, [] => [⟨b, []⟩]
  | b, c :: s => ⟨b, c :: s⟩ :: places (some c) s

/-- The expression matches somewhere in the text. -/
def found (r : Regex α) (s : List α) : Bool := (places none s).any fun x ↦ run r x ≠ []

theorem found_iff {r : Regex α} {s : List α} :
    found r s ↔ ∃ x ∈ places none s, ∃ y, Spans r x y := by
  simp only [found, List.any_eq_true, decide_eq_true_eq, ne_eq, ← mem_run_iff,
    List.ne_nil_iff_exists_cons]
  refine exists_congr fun x ↦ and_congr_right fun _ ↦ ⟨?_, ?_⟩
  · rintro ⟨y, l, h⟩
    exact ⟨y, h ▸ List.mem_cons_self⟩
  · rintro ⟨y, hy⟩
    exact List.exists_cons_of_ne_nil (List.ne_nil_of_mem hy)

/-! ## Languages -/

/-- The language of an expression, where boundaries count as empty. -/
def language : Regex α → Language α
  | .empty => 1
  | .char p => {w | ∃ c, p c ∧ w = [c]}
  | .seq r q => language r * language q
  | .alt r q => language r + language q
  | .star r => KStar.kstar (language r)
  | .boundary _ => 1

/-- No boundary occurs in the expression. -/
def BoundaryFree : Regex α → Prop
  | .empty | .char _ => True
  | .seq r q | .alt r q => BoundaryFree r ∧ BoundaryFree q
  | .star r => BoundaryFree r
  | .boundary _ => False

instance : DecidablePred (BoundaryFree (α := α)) := decideBoundaryFree
where
  decideBoundaryFree : ∀ r : Regex α, Decidable r.BoundaryFree
    | .empty | .char _ => inferInstanceAs (Decidable True)
    | .seq r q | .alt r q =>
      have := decideBoundaryFree r
      have := decideBoundaryFree q
      inferInstanceAs (Decidable (r.BoundaryFree ∧ q.BoundaryFree))
    | .star r => decideBoundaryFree r
    | .boundary _ => inferInstanceAs (Decidable False)

/-- The place behind a word. -/
def Cursor.skip (x : Cursor α) (w : List α) : Cursor α :=
  ⟨w.getLast?.or x.before, x.rest.drop w.length⟩

@[simp] theorem Cursor.skip_nil (x : Cursor α) : x.skip [] = x := rfl

theorem Cursor.skip_append (x : Cursor α) (u v : List α) : x.skip (u ++ v) = (x.skip u).skip v := by
  ext1
  · simp [skip, List.getLast?_append, Option.or_assoc]
  · simp [skip, List.drop_drop]

/-- A match stretches over a word of the language. -/
theorem exists_mem_language {r : Regex α} {x y : Cursor α} (h : Spans r x y) :
    ∃ w ∈ language r, w <+: x.rest ∧ y = x.skip w := by
  induction h with
  | empty x | boundary => exact ⟨[], Language.nil_mem_one, List.nil_prefix, rfl⟩
  | char hp => exact ⟨[_], ⟨_, hp, rfl⟩, List.prefix_append [_] _, rfl⟩
  | altLeft _ ih =>
      obtain ⟨w, hw, h⟩ := ih
      exact ⟨w, Or.inl hw, h⟩
  | altRight _ ih =>
      obtain ⟨w, hw, h⟩ := ih
      exact ⟨w, Or.inr hw, h⟩
  | @seq r q x y z _ _ ih₁ ih₂ =>
      obtain ⟨u, hu, ⟨t, ht⟩, rfl⟩ := ih₁
      obtain ⟨v, hv, hp, rfl⟩ := ih₂
      refine ⟨u ++ v, Language.append_mem_mul hu hv, ?_, (x.skip_append u v).symm⟩
      rw [← ht]
      simpa [Cursor.skip, ← ht] using hp
  | starNil x => exact ⟨[], Language.nil_mem_kstar _, List.nil_prefix, rfl⟩
  | @starCons r x y z _ _ ih₁ ih₂ =>
      obtain ⟨u, hu, ⟨t, ht⟩, rfl⟩ := ih₁
      obtain ⟨v, hv, hp, rfl⟩ := ih₂
      obtain ⟨S, rfl, hS⟩ := Language.mem_kstar.mp hv
      refine ⟨u ++ S.flatten, Language.mem_kstar.mpr ⟨u :: S, rfl, ?_⟩, ?_,
        (x.skip_append u S.flatten).symm⟩
      · exact List.forall_mem_cons.mpr ⟨hu, hS⟩
      · rw [← ht]
        simpa [Cursor.skip, ← ht] using hp

/-- Without boundaries every word of the language is matched where it stands. -/
theorem spans_skip {r : Regex α} (h : BoundaryFree r) :
    ∀ {x : Cursor α} {w : List α}, w ∈ language r → w <+: x.rest → Spans r x (x.skip w) := by
  induction r with
  | empty =>
      intro x w hw _
      rw [(Language.mem_one w).mp hw]
      exact .empty x
  | char p =>
      rintro ⟨b, s⟩ w ⟨c, hc, rfl⟩ ⟨t, rfl⟩
      exact .char hc
  | seq r q ihr ihq =>
      rintro x w ⟨u, hu, v, hv, rfl⟩ ⟨t, ht⟩
      rw [Cursor.skip_append]
      refine .seq (ihr h.1 hu ⟨v ++ t, by simpa using ht⟩) (ihq h.2 hv ⟨t, ?_⟩)
      simp [Cursor.skip, ← ht]
  | alt r q ihr ihq =>
      rintro x w (hw | hw) hp
      · exact .altLeft (ihr h.1 hw hp)
      · exact .altRight (ihq h.2 hw hp)
  | star r ih =>
      intro x w hw hp
      obtain ⟨S, rfl, hS⟩ := Language.mem_kstar.mp hw
      clear hw
      induction S generalizing x with
      | nil => exact .starNil x
      | cons u S ihS =>
          obtain ⟨hu, hS⟩ := List.forall_mem_cons.mp hS
          obtain ⟨t, ht⟩ := hp
          rw [List.flatten_cons, Cursor.skip_append]
          refine .starCons (ih h hu ⟨S.flatten ++ t, by simpa using ht⟩) (ihS hS ⟨t, ?_⟩)
          simp [Cursor.skip, ← ht]
  | boundary word => exact h.elim

/-- The places of a text are its suffixes. -/
theorem map_rest_places (b : Option α) (s : List α) :
    (places b s).map Cursor.rest = s.tails := by
  induction s generalizing b with
  | nil => rfl
  | cons c s ih => rw [places, List.map_cons, ih, List.tails]

/-- **Searching.**  An expression without boundaries is found in the texts that contain a word of
its language. -/
theorem found_iff_exists_infix {r : Regex α} (h : BoundaryFree r) {s : List α} :
    found r s ↔ ∃ w ∈ language r, w <:+: s := by
  rw [found_iff]
  constructor
  · rintro ⟨x, hx, y, hs⟩
    obtain ⟨w, hw, hp, _⟩ := exists_mem_language hs
    have hsuffix : x.rest ∈ s.tails := map_rest_places none s ▸ List.mem_map_of_mem hx
    exact ⟨w, hw, hp.isInfix.trans (((List.mem_tails _ _).mp hsuffix)).isInfix⟩
  · rintro ⟨w, hw, t, u, rfl⟩
    have hsuffix : w ++ u ∈ (places none (t ++ w ++ u)).map Cursor.rest := by
      rw [map_rest_places, List.mem_tails]
      exact ⟨t, (List.append_assoc t w u).symm⟩
    obtain ⟨x, hx, hr⟩ := List.mem_map.mp hsuffix
    exact ⟨x, hx, _, spans_skip h hw ⟨u, hr.symm⟩⟩

/-! ## Languages without a character, languages without the empty word -/

/-- The expression accepts the empty word. -/
def nullable : Regex α → Bool
  | .empty | .star _ | .boundary _ => true
  | .char _ => false
  | .seq r q => nullable r && nullable q
  | .alt r q => nullable r || nullable q

theorem ne_nil_of_mem_language {r : Regex α} (h : nullable r = false) :
    ∀ w ∈ language r, w ≠ [] := by
  induction r with
  | empty | star | boundary => cases h
  | char p =>
      rintro w ⟨c, _, rfl⟩
      exact List.cons_ne_nil c []
  | seq r q ihr ihq =>
      rintro w ⟨u, hu, v, hv, rfl⟩ he
      obtain ⟨rfl, rfl⟩ := List.append_eq_nil_iff.mp he
      rcases Bool.and_eq_false_iff.mp h with h | h
      · exact ihr h [] hu rfl
      · exact ihq h [] hv rfl
  | alt r q ihr ihq =>
      rcases Bool.or_eq_false_iff.mp h with ⟨hr, hq⟩
      rintro w (hw | hw)
      · exact ihr hr w hw
      · exact ihq hq w hw

/-- No character class of the expression contains the character. -/
def avoids (c : α) : Regex α → Bool
  | .empty | .boundary _ => true
  | .char p => !p c
  | .seq r q | .alt r q => avoids c r && avoids c q
  | .star r => avoids c r

theorem notMem_of_mem_language {c : α} {r : Regex α} (h : avoids c r) :
    ∀ w ∈ language r, c ∉ w := by
  induction r with
  | empty | boundary =>
      intro w hw
      rw [(Language.mem_one w).mp hw]
      exact List.not_mem_nil
  | char p =>
      rintro w ⟨d, hd, rfl⟩ hc
      rw [List.mem_singleton.mp hc, avoids, hd] at h
      cases h
  | seq r q ihr ihq =>
      obtain ⟨hr, hq⟩ := Bool.and_eq_true_iff.mp h
      rintro w ⟨u, hu, v, hv, rfl⟩ hc
      rcases List.mem_append.mp hc with hc | hc
      · exact ihr hr u hu hc
      · exact ihq hq v hv hc
  | alt r q ihr ihq =>
      obtain ⟨hr, hq⟩ := Bool.and_eq_true_iff.mp h
      rintro w (hw | hw)
      · exact ihr hr w hw
      · exact ihq hq w hw
  | star r ih =>
      intro w hw hc
      obtain ⟨S, rfl, hS⟩ := Language.mem_kstar.mp hw
      obtain ⟨u, hu, hc⟩ := List.mem_flatten.mp hc
      exact ih h u (hS u hu) hc

/-! ## Common expressions -/

/-- `r+` -/
def plus (r : Regex α) : Regex α := .seq r (.star r)

/-- `r?` -/
def opt (r : Regex α) : Regex α := .alt r .empty

/-- A literal. -/
def word [DecidableEq α] : List α → Regex α
  | [] => .empty
  | c :: w => .seq (.char (· = c)) (word w)

end Regex

end KernelTests
