import KernelTests.Regex.Basic
import KernelTests.Text.Words

/-!
# Matches with groups

A pattern is a list of expressions that stand one behind the other; the stretches
they match are its groups.  `finditer` lists the groups of all matches in a text, from
left to right and without overlaps; of the matches that start at a place it takes the
first one a backtracking engine finds.

The lemmas say when that first match is the one in which every repetition takes all it
can, and when a stretch of text contains no match at all.
-/

namespace KernelTests.Regex

variable {α : Type}

/-! ## Matching the parts of a pattern -/

/-- The places between the parts, for every match from a place, in the order in which the matches
are tried. -/
def runParts : List (Regex α) → Cursor α → List (List (Cursor α))
  | [], _ => [[]]
  | r :: rs, x => (run r x).flatMap fun y ↦ (runParts rs y).map (y :: ·)

/-- The match an engine stops at. -/
def matchAt (rs : List (Regex α)) (x : Cursor α) : Option (List (Cursor α)) := (runParts rs x).head?

/-- The text between two places. -/
def between (x y : Cursor α) : List α := x.rest.take (x.rest.length - y.rest.length)

/-- The groups of a match: the texts between consecutive places. -/
def groups (x : Cursor α) : List (Cursor α) → List (List α)
  | [] => []
  | y :: ys => between x y :: groups y ys

/-- The groups of the matches in a text, behind `n` characters that belong to a match already. -/
def finditer (rs : List (Regex α)) : ℕ → Option α → List α → List (List (List α))
  | 0, b, [] => ((matchAt rs ⟨b, []⟩).map (groups ⟨b, []⟩)).toList
  | _ + 1, _, [] => []
  | n + 1, _, c :: s => finditer rs n (some c) s
  | 0, b, c :: s =>
    match matchAt rs ⟨b, c :: s⟩ with
    | none => finditer rs 0 (some c) s
    | some ys =>
      groups ⟨b, c :: s⟩ ys ::
        finditer rs ((groups ⟨b, c :: s⟩ ys).flatten.length - 1) (some c) s

/-- The first match of the parts, if the first match of the head lets the others match. -/
theorem matchAt_cons {r : Regex α} {rs : List (Regex α)} {x y : Cursor α} {ys : List (Cursor α)}
    (hr : (run r x).head? = some y) (hrs : matchAt rs y = some ys) :
    matchAt (r :: rs) x = some (y :: ys) := by
  obtain ⟨l, hl⟩ := List.head?_eq_some_iff.mp hr
  rw [matchAt, runParts, hl, List.flatMap_cons, List.head?_append, List.head?_map]
  rw [matchAt] at hrs
  rw [hrs]
  rfl

/-- A head with a single match leaves no choice. -/
theorem matchAt_cons_of_singleton {r : Regex α} {rs : List (Regex α)} {x y : Cursor α}
    (hr : run r x = [y]) : matchAt (r :: rs) x = (matchAt rs y).map (y :: ·) := by
  rw [matchAt, runParts, hr, List.flatMap_singleton, List.head?_map]
  rfl

/-- Without a match of the head there is none of the pattern. -/
theorem matchAt_cons_of_nil {r : Regex α} {rs : List (Regex α)} {x : Cursor α}
    (hr : run r x = []) : matchAt (r :: rs) x = none := by
  rw [matchAt, runParts, hr]
  rfl

/-! ## Places behind a text -/

theorem skip_append_rest (b : Option α) (u v : List α) :
    (⟨b, u ++ v⟩ : Cursor α).skip u = ⟨u.getLast?.or b, v⟩ := by
  ext1
  · rfl
  · exact List.drop_left

theorem between_append (b b' : Option α) (u v : List α) :
    between (⟨b, u ++ v⟩ : Cursor α) ⟨b', v⟩ = u := by
  simp [between]

theorem skip_cons (b : Option α) (c : α) (s u : List α) :
    (⟨b, c :: s⟩ : Cursor α).skip (c :: u) = (⟨some c, s⟩ : Cursor α).skip u :=
  Cursor.skip_append ⟨b, c :: s⟩ [c] u

/-- What does not change at a character of a stretch does not change over the stretch. -/
theorem eq_of_suffix_steps {β : Type} {f : Option α → List α → β} {u v : List α}
    (h : ∀ b c t, c :: t <:+ u → f b (c :: (t ++ v)) = f (some c) (t ++ v)) (b : Option α) :
    f b (u ++ v) = f (u.getLast?.or b) v := by
  induction u generalizing b with
  | nil => rfl
  | cons c u ih =>
      have hrest := ih (fun b c' t ht ↦ h b c' t (ht.trans (List.suffix_cons c u))) (some c)
      rw [List.cons_append, h b c u (List.suffix_refl _), hrest, List.getLast?_cons]
      cases u.getLast? <;> rfl

/-! ## First matches -/

theorem run_char_of_pos {p : α → Bool} {c : α} (h : p c) (b : Option α) (s : List α) :
    run (.char p) ⟨b, c :: s⟩ = [⟨some c, s⟩] := if_pos h

theorem run_char_of_neg {p : α → Bool} {c : α} (h : ¬ p c) (b : Option α) (s : List α) :
    run (.char p) ⟨b, c :: s⟩ = [] := if_neg h

theorem run_word [DecidableEq α] (w : List α) (x : Cursor α) :
    run (word w) x = if w <+: x.rest then [x.skip w] else [] := by
  induction w generalizing x with
  | nil => simp [word, run]
  | cons c w ih =>
      obtain ⟨b, _ | ⟨d, s⟩⟩ := x
      · simp [word, run]
      · by_cases hd : d = c
        · subst hd
          rw [word, run, run_char_of_pos (by simp), List.flatMap_singleton, ih, skip_cons]
          simp
        · have hcd : c ≠ d := fun he ↦ hd he.symm
          rw [word, run, run_char_of_neg (by simpa using hd)]
          simp [hcd]

/-- A literal at its place. -/
theorem run_word_append [DecidableEq α] (w : List α) (b : Option α) (s : List α) :
    run (word w) ⟨b, w ++ s⟩ = [⟨w.getLast?.or b, s⟩] := by
  rw [run_word, if_pos (List.prefix_append w s), skip_append_rest]

/-- A repetition of one character class takes all it can first, then one character less at a
time. -/
theorem greedy_char (p : α → Bool) (n : ℕ) (b : Option α) (s : List α) (h : s.length ≤ n) :
    greedy (run (.char p)) n ⟨b, s⟩ =
      (s.takeWhile p).inits.reverse.map (⟨b, s⟩ : Cursor α).skip := by
  induction n generalizing b s with
  | zero =>
      rw [List.length_eq_zero_iff.mp (Nat.le_zero.mp h)]
      rfl
  | succ n ih =>
      cases s with
      | nil => rfl
      | cons c s =>
          by_cases hc : p c
          · rw [greedy, run_char_of_pos hc, List.takeWhile_cons_of_pos hc, List.inits_cons,
              List.filter_cons_of_pos (by simp), List.filter_nil,
              List.flatMap_singleton, ih (some c) s (Nat.le_of_succ_le_succ h), List.reverse_cons,
              List.map_append, ← List.map_reverse, List.map_map]
            refine congrArg (· ++ _) (List.map_congr_left fun u _ ↦ ?_)
            exact (skip_cons b c s u).symm
          · rw [greedy, run_char_of_neg hc, List.takeWhile_cons_of_neg hc]
            rfl

/-- The matches of `p+`. -/
theorem run_plus_char (p : α → Bool) (b : Option α) (s : List α) :
    run (plus (.char p)) ⟨b, s⟩ =
      (s.takeWhile p).inits.tail.reverse.map (⟨b, s⟩ : Cursor α).skip := by
  cases s with
  | nil => rfl
  | cons c s =>
      by_cases hc : p c
      · rw [plus, run, run_char_of_pos hc, List.flatMap_singleton, run,
          greedy_char p _ _ _ le_rfl, List.takeWhile_cons_of_pos hc, List.inits_cons,
          List.tail_cons, ← List.map_reverse, List.map_map]
        exact List.map_congr_left fun u _ ↦ (skip_cons b c s u).symm
      · rw [plus, run, run_char_of_neg hc, List.takeWhile_cons_of_neg hc]
        rfl

theorem getLast?_inits (u : List α) : u.inits.getLast? = some u := by
  induction u with
  | nil => rfl
  | cons c u ih => rw [List.inits_cons, List.getLast?_cons, List.getLast?_map, ih]; rfl

/-- A stretch of a class ends where the class does. -/
theorem takeWhile_stretch {p : α → Bool} {u v : List α} (hu : ∀ c ∈ u, p c)
    (hv : ∀ c ∈ v.head?, ¬ p c) : (u ++ v).takeWhile p = u := by
  rw [List.takeWhile_append_of_pos hu]
  cases v with
  | nil => exact List.append_nil u
  | cons c v => rw [List.takeWhile_cons_of_neg (hv c rfl), List.append_nil]

/-- The first match of `p+` takes the whole stretch. -/
theorem head?_run_plus_char {p : α → Bool} {u v : List α} (hu : ∀ c ∈ u, p c) (hne : u ≠ [])
    (hv : ∀ c ∈ v.head?, ¬ p c) (b : Option α) :
    (run (plus (.char p)) ⟨b, u ++ v⟩).head? = some ⟨u.getLast?.or b, v⟩ := by
  have hlast : u.inits.tail.getLast? = some u := by
    obtain ⟨c, u, rfl⟩ := List.exists_cons_of_ne_nil hne
    rw [List.inits_cons, List.tail_cons, List.getLast?_map, getLast?_inits]
    rfl
  rw [run_plus_char, takeWhile_stretch hu hv, List.head?_map, List.head?_reverse, hlast, Option.map_some,
    skip_append_rest]

/-- Where the class does not occur, `p+` does not match. -/
theorem run_plus_char_of_neg {p : α → Bool} {s : List α} (h : ∀ c ∈ s.head?, ¬ p c)
    (b : Option α) : run (plus (.char p)) ⟨b, s⟩ = [] := by
  rw [run_plus_char]
  cases s with
  | nil => rfl
  | cons c s => rw [List.takeWhile_cons_of_neg (h c rfl)]; rfl

/-- A stretch of one character leaves no choice. -/
theorem run_plus_char_single {p : α → Bool} {c : α} {s : List α} (hc : p c)
    (hs : ∀ d ∈ s.head?, ¬ p d) (b : Option α) :
    run (plus (.char p)) ⟨b, c :: s⟩ = [⟨some c, s⟩] := by
  have htake : (c :: s).takeWhile p = [c] :=
    takeWhile_stretch (u := [c]) (List.forall_mem_singleton.mpr hc) hs
  rw [run_plus_char, htake]
  rfl

theorem runParts_eq_nil_iff {rs : List (Regex α)} {x : Cursor α} :
    runParts rs x = [] ↔ matchAt rs x = none := List.head?_eq_none_iff.symm

/-- `p+` takes the whole stretch if nothing behind it can begin inside the stretch. -/
theorem matchAt_plus_char {p : α → Bool} {rs : List (Regex α)} {u v : List α} (hu : ∀ c ∈ u, p c)
    (hne : u ≠ []) (hv : ∀ c ∈ v.head?, ¬ p c)
    (hrs : ∀ (b : Option α) (c : α) (s : List α), p c → matchAt rs ⟨b, c :: s⟩ = none)
    (b : Option α) :
    matchAt (plus (.char p) :: rs) ⟨b, u ++ v⟩ =
      (matchAt rs ⟨u.getLast?.or b, v⟩).map (⟨u.getLast?.or b, v⟩ :: ·) := by
  cases hm : matchAt rs ⟨u.getLast?.or b, v⟩ with
  | some ys => exact matchAt_cons (head?_run_plus_char hu hne hv b) hm
  | none =>
      refine runParts_eq_nil_iff.mp (List.flatMap_eq_nil_iff.mpr fun y hy ↦ ?_)
      rw [run_plus_char, takeWhile_stretch hu hv] at hy
      obtain ⟨t, ht, rfl⟩ := List.mem_map.mp hy
      have hprefix : t <+: u :=
        (List.mem_inits _ _).mp (List.mem_of_mem_tail (List.mem_reverse.mp ht))
      obtain ⟨r, rfl⟩ := hprefix
      rw [List.map_eq_nil_iff, List.append_assoc, skip_append_rest, runParts_eq_nil_iff]
      cases r with
      | nil => simpa using hm
      | cons c r => exact hrs _ c (r ++ v) (hu c (by simp))

/-! ## All matches of a text -/

section Finditer

variable (rs : List (Regex α)) (b : Option α)

theorem finditer_length_append (u v : List α) :
    finditer rs u.length b (u ++ v) = finditer rs 0 (u.getLast?.or b) v := by
  induction u generalizing b with
  | nil => rfl
  | cons c u ih =>
      rw [List.length_cons, List.cons_append, finditer, ih, List.getLast?_cons]
      cases u.getLast? <;> rfl

/-- Every listed match is the first match at some place. -/
theorem exists_place_of_mem_finditer {us : List (List α)} {n : ℕ} {s : List α}
    (h : us ∈ finditer rs n b s) :
    ∃ x ∈ places b s, ∃ ys, matchAt rs x = some ys ∧ us = groups x ys := by
  induction s generalizing n b with
  | nil =>
      cases n with
      | zero =>
          rw [finditer, Option.mem_toList] at h
          obtain ⟨ys, hys, rfl⟩ := Option.map_eq_some_iff.mp h
          exact ⟨_, List.mem_singleton_self _, ys, hys, rfl⟩
      | succ n => cases h
  | cons c s ih =>
      have hlater : ∀ {n}, us ∈ finditer rs n (some c) s →
          ∃ x ∈ places b (c :: s), ∃ ys, matchAt rs x = some ys ∧ us = groups x ys := by
        intro n hus
        obtain ⟨x, hx, hmatch⟩ := ih (some c) hus
        exact ⟨x, List.mem_cons_of_mem _ hx, hmatch⟩
      cases n with
      | succ n => exact hlater h
      | zero =>
          rw [finditer] at h
          split at h
          · exact hlater h
          · next ys hys =>
              rcases List.mem_cons.mp h with rfl | h
              · exact ⟨_, List.mem_cons_self, ys, hys, rfl⟩
              · exact hlater h

theorem forall_mem_finditer {P : List (List α) → Prop}
    (h : ∀ b s ys, matchAt rs ⟨b, s⟩ = some ys → P (groups ⟨b, s⟩ ys)) (n : ℕ) (s : List α) :
    ∀ us ∈ finditer rs n b s, P us := by
  intro us hus
  obtain ⟨⟨b', t⟩, _, ys, hys, rfl⟩ := exists_place_of_mem_finditer rs b hus
  exact h b' t ys hys

/-- A match is listed, and the search goes on behind it. -/
theorem finditer_of_match {u v : List α} {ys : List (Cursor α)} (hu : u ≠ [])
    (hm : matchAt rs ⟨b, u ++ v⟩ = some ys) (hg : (groups ⟨b, u ++ v⟩ ys).flatten = u) :
    finditer rs 0 b (u ++ v) =
      groups ⟨b, u ++ v⟩ ys :: finditer rs 0 (u.getLast?.or b) v := by
  obtain ⟨c, u, rfl⟩ := List.exists_cons_of_ne_nil hu
  rw [List.cons_append] at hm hg ⊢
  rw [finditer, hm]
  simp only [hg, List.length_cons, Nat.add_sub_cancel, finditer_length_append]
  rw [List.getLast?_cons]
  cases u.getLast? <;> rfl

/-- A stretch in which no match starts is passed over. -/
theorem finditer_append_of_none {u v : List α}
    (h : ∀ (b : Option α) (t : List α), t <:+ u → t ≠ [] → matchAt rs ⟨b, t ++ v⟩ = none) :
    finditer rs 0 b (u ++ v) = finditer rs 0 (u.getLast?.or b) v := by
  refine eq_of_suffix_steps (f := finditer rs 0) (fun b c t ht ↦ ?_) b
  have hnone := h b (c :: t) ht (List.cons_ne_nil c t)
  rw [List.cons_append] at hnone
  rw [finditer, hnone]

variable [DecidableEq α] {w : List α}

/-- A pattern that begins with a literal is only matched where the literal stands. -/
theorem matchAt_word_of_not_prefix {x : Cursor α} (h : ¬ w <+: x.rest) :
    matchAt (word w :: rs) x = none :=
  matchAt_cons_of_nil (by rw [run_word, if_neg h])

theorem finditer_append_of_no_prefix {u v : List α}
    (h : ∀ t, t <:+ u → t ≠ [] → ¬ w <+: t ++ v) :
    finditer (word w :: rs) 0 b (u ++ v) = finditer (word w :: rs) 0 (u.getLast?.or b) v :=
  finditer_append_of_none (word w :: rs) b fun _ t ht hne ↦
    matchAt_word_of_not_prefix rs (h t ht hne)

/-- Without the literal there is no match. -/
theorem finditer_of_not_infix {u : List α} (hw : w ≠ []) (h : ¬ w <:+: u) :
    finditer (word w :: rs) 0 b u = [] := by
  have hskip := finditer_append_of_no_prefix (v := []) rs b fun t ht _ hp ↦
    h ((List.append_nil t ▸ hp).isInfix.trans ht.isInfix)
  rw [List.append_nil] at hskip
  have hnil : matchAt (word w :: rs) ⟨u.getLast?.or b, []⟩ = none :=
    matchAt_word_of_not_prefix rs (by simpa using hw)
  rw [hskip, finditer, hnil]
  rfl

/-- The search reaches the first place of a literal that does not overlap itself. -/
theorem finditer_append_word {u v : List α} (hw : Text.Borderless w) (h : ¬ w <:+: u) :
    finditer (word w :: rs) 0 b (u ++ (w ++ v)) =
      finditer (word w :: rs) 0 (u.getLast?.or b) (w ++ v) :=
  finditer_append_of_no_prefix rs b fun _ ht hne hp ↦ hw.not_prefix h ht hne hp

end Finditer

/-! ## Searching behind a text -/

/-- The expression matches somewhere in the text, which stands behind a character. -/
def foundFrom (r : Regex α) (b : Option α) (s : List α) : Bool :=
  (places b s).any fun x ↦ run r x ≠ []

theorem found_eq_foundFrom (r : Regex α) (s : List α) : found r s = foundFrom r none s := rfl

theorem foundFrom_cons (r : Regex α) (b : Option α) (c : α) (s : List α) :
    foundFrom r b (c :: s) = (decide (run r ⟨b, c :: s⟩ ≠ []) || foundFrom r (some c) s) := rfl

/-- A stretch in which no match starts is passed over. -/
theorem foundFrom_append_of_nil {r : Regex α} (b : Option α) {u v : List α}
    (h : ∀ b t, t <:+ u → t ≠ [] → run r ⟨b, t ++ v⟩ = []) :
    foundFrom r b (u ++ v) = foundFrom r (u.getLast?.or b) v := by
  refine eq_of_suffix_steps (f := foundFrom r) (fun b c t ht ↦ ?_) b
  have hnone := h b (c :: t) ht (List.cons_ne_nil c t)
  rw [List.cons_append] at hnone
  rw [foundFrom_cons, hnone]
  rfl

/-! ## Patterns that take a text apart -/

/-- The first match of an expression in front of `v` takes the text `u`. -/
def Takes (r : Regex α) (u v : List α) : Prop :=
  ∀ b, (run r ⟨b, u ++ v⟩).head? = some ⟨u.getLast?.or b, v⟩

/-- The first match of a pattern in front of `v` has the groups `us`. -/
def Splits (rs : List (Regex α)) (us : List (List α)) (v : List α) : Prop :=
  ∀ b, ∃ ys, matchAt rs ⟨b, us.flatten ++ v⟩ = some ys ∧ groups ⟨b, us.flatten ++ v⟩ ys = us

theorem takes_word [DecidableEq α] (w v : List α) : Takes (word w) w v := fun b ↦ by
  rw [run_word_append]
  rfl

theorem takes_plus_char {p : α → Bool} {u v : List α} (hne : u ≠ []) (hu : ∀ c ∈ u, p c)
    (hv : ∀ c ∈ v.head?, ¬ p c) : Takes (plus (.char p)) u v :=
  head?_run_plus_char hu hne hv

theorem Takes.altLeft {r q : Regex α} {u v : List α} (h : Takes r u v) : Takes (.alt r q) u v := by
  intro b
  rw [run, List.head?_append, h b]
  rfl

theorem Takes.altRight {r q : Regex α} {u v : List α} (h : Takes q u v)
    (hr : ∀ b, run r ⟨b, u ++ v⟩ = []) : Takes (.alt r q) u v := by
  intro b
  rw [run, hr b]
  exact h b

theorem splits_nil (v : List α) : Splits [] [] v := fun _ ↦ ⟨[], rfl, rfl⟩

theorem Takes.splits {r : Regex α} {rs : List (Regex α)} {u v : List α} {us : List (List α)}
    (h : Takes r u (us.flatten ++ v)) (hs : Splits rs us v) : Splits (r :: rs) (u :: us) v := by
  intro b
  obtain ⟨ys, hm, hg⟩ := hs (u.getLast?.or b)
  rw [List.flatten_cons, List.append_assoc]
  refine ⟨⟨u.getLast?.or b, us.flatten ++ v⟩ :: ys, matchAt_cons (h b) hm, ?_⟩
  rw [groups, between_append, hg]

/-- Such a match is listed, and the search goes on behind it. -/
theorem Splits.finditer {rs : List (Regex α)} {us : List (List α)} {v : List α}
    (h : Splits rs us v) (hne : us.flatten ≠ []) (b : Option α) :
    Regex.finditer rs 0 b (us.flatten ++ v) =
      us :: Regex.finditer rs 0 (us.flatten.getLast?.or b) v := by
  obtain ⟨ys, hm, hg⟩ := h b
  rw [finditer_of_match rs b hne hm (by rw [hg]), hg]

/-! ## Texts without a match at the front -/

/-- The pattern has no match in front of the text. -/
def NoMatch (rs : List (Regex α)) (s : List α) : Prop := ∀ b, matchAt rs ⟨b, s⟩ = none

theorem NoMatch.word [DecidableEq α] {rs : List (Regex α)} {s : List α} (h : NoMatch rs s)
    (w : List α) : NoMatch (Regex.word w :: rs) (w ++ s) := by
  intro b
  rw [matchAt_cons_of_singleton (run_word_append w b s), h]
  rfl

theorem noMatch_word [DecidableEq α] (rs : List (Regex α)) {w s : List α} (h : ¬ w <+: s) :
    NoMatch (word w :: rs) s := fun _ ↦ matchAt_word_of_not_prefix rs h

/-- A literal does not begin with a character it does not begin with. -/
theorem noMatch_word_cons [DecidableEq α] (rs : List (Regex α)) {c d : α} {w : List α} (h : d ≠ c)
    (s : List α) : NoMatch (word (d :: w) :: rs) (c :: s) :=
  noMatch_word rs fun hp ↦ h (List.cons_prefix_cons.mp hp).1

theorem NoMatch.plus_char {p : α → Bool} {rs : List (Regex α)} {u v : List α} (h : NoMatch rs v)
    (hne : u ≠ []) (hu : ∀ c ∈ u, p c) (hv : ∀ c ∈ v.head?, ¬ p c)
    (hrs : ∀ c s, p c → NoMatch rs (c :: s)) : NoMatch (plus (.char p) :: rs) (u ++ v) := by
  intro b
  rw [matchAt_plus_char hu hne hv (fun b c s hc ↦ hrs c s hc b), h]
  rfl

theorem noMatch_plus_char {p : α → Bool} (rs : List (Regex α)) {s : List α}
    (h : ∀ c ∈ s.head?, ¬ p c) : NoMatch (plus (.char p) :: rs) s :=
  fun b ↦ matchAt_cons_of_nil (run_plus_char_of_neg h b)

theorem NoMatch.alt {r q : Regex α} {rs : List (Regex α)} {s : List α} (hr : NoMatch (r :: rs) s)
    (hq : NoMatch (q :: rs) s) : NoMatch (.alt r q :: rs) s := by
  intro b
  have hr' := runParts_eq_nil_iff.mpr (hr b)
  have hq' := runParts_eq_nil_iff.mpr (hq b)
  rw [runParts] at hr' hq'
  rw [← runParts_eq_nil_iff, runParts, run, List.flatMap_append, hr', hq']
  rfl

end KernelTests.Regex
