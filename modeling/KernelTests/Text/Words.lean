import Mathlib.Data.List.Infix
import Mathlib.Data.List.Basic

/-!
# Words inside texts

Texts are lists over an arbitrary alphabet.  This file collects what the rest of
the development needs to know about a word occurring in a text: where the first
occurrence ends, how an occurrence sits relative to a separator the word avoids,
and how occurrences relate to the lines of the text.

Nothing here mentions a program; the alphabet only needs decidable equality.
-/

namespace KernelTests.Text

variable {α : Type*} [DecidableEq α]

/-! ## The text behind the first occurrence -/

/-- The text behind the first occurrence of `w` in a text, if `w` occurs. -/
def after (w : List α) : List α → Option (List α)
  | [] => if w = [] then some [] else none
  | c :: s => if w <+: c :: s then some ((c :: s).drop w.length) else after w s

/-- What `after` finds really stands behind an occurrence of the word. -/
theorem after_eq_some {w s t : List α} (h : after w s = some t) : ∃ p, s = p ++ w ++ t := by
  induction s with
  | nil =>
      rw [after] at h
      split at h
      · next hw => exact ⟨[], by simp_all⟩
      · simp at h
  | cons c s ih =>
      rw [after] at h
      split at h
      · next hw =>
          obtain ⟨u, hu⟩ := hw
          refine ⟨[], ?_⟩
          rw [← hu, List.drop_left, Option.some.injEq] at h
          rw [List.nil_append, ← h, hu]
      · obtain ⟨p, hp⟩ := ih h
        exact ⟨c :: p, by rw [hp]; simp⟩

/-- Finding a word does not depend on what follows the place where it was found. -/
theorem after_append {w s t : List α} (h : after w s = some t) (u : List α) :
    after w (s ++ u) = some (t ++ u) := by
  induction s with
  | nil =>
      rw [after] at h
      split at h
      · next hw =>
          rw [Option.some.injEq] at h
          subst hw h
          cases u <;> simp [after]
      · simp at h
  | cons c s ih =>
      rw [after] at h
      rw [List.cons_append, after]
      split at h
      · next hw =>
          rw [Option.some.injEq] at h
          have hp : w <+: c :: (s ++ u) := hw.trans (List.prefix_append (c :: s) u)
          rw [if_pos hp, ← h, ← List.cons_append, List.drop_append_of_le_length hw.length_le]
      · next hw =>
          have hle : w.length ≤ (c :: s).length := by
            obtain ⟨p, hp⟩ := after_eq_some h
            have hlen := congrArg List.length hp
            simp only [List.length_append] at hlen
            simp only [List.length_cons]
            omega
          have hp : ¬ w <+: c :: (s ++ u) := fun hc ↦
            hw (List.prefix_of_prefix_length_le hc (List.prefix_append (c :: s) u) hle)
          rw [if_neg hp]
          exact ih h

/-- Characters that cannot begin the word are skipped. -/
theorem after_skip {c : α} {w l : List α} (h : c ∉ l) (s : List α) :
    after (c :: w) (l ++ s) = after (c :: w) s := by
  induction l with
  | nil => rfl
  | cons d l ih =>
      have hcd : c ≠ d := fun he ↦ h (he ▸ List.mem_cons_self)
      rw [List.cons_append, after, if_neg (by simp [hcd])]
      exact ih fun hc ↦ h (List.mem_cons_of_mem d hc)

/-- A word that stands at the front is found at once. -/
theorem after_self_append {w : List α} (hw : w ≠ []) (s : List α) : after w (w ++ s) = some s := by
  cases w with
  | nil => exact absurd rfl hw
  | cons c w =>
      rw [List.cons_append, after, if_pos (by simp)]
      simp

/-- The text up to the first occurrence. -/
theorem exists_of_after_eq_some {w s t : List α} (hw : w ≠ []) (h : after w s = some t) :
    ∃ u, s = u ++ t ∧ after w u = some [] := by
  induction s with
  | nil => simp [after, hw] at h
  | cons c s ih =>
      rw [after] at h
      split at h
      · next hp =>
          obtain ⟨v, hv⟩ := hp
          rw [← hv, List.drop_left, Option.some.injEq] at h
          refine ⟨w, by rw [← hv, h], ?_⟩
          have hself := after_self_append hw []
          rwa [List.append_nil] at hself
      · next hp =>
          obtain ⟨u, rfl, hu⟩ := ih h
          refine ⟨c :: u, rfl, ?_⟩
          have hpu : ¬ w <+: c :: u := fun hcu ↦ hp (hcu.trans (List.prefix_append (c :: u) t))
          rw [after, if_neg hpu, hu]

/-- An occurrence is found. -/
theorem after_isSome_iff {w s : List α} (hw : w ≠ []) : (after w s).isSome ↔ w <:+: s := by
  constructor
  · intro h
    obtain ⟨t, ht⟩ := Option.isSome_iff_exists.mp h
    obtain ⟨p, rfl⟩ := after_eq_some ht
    exact ⟨p, t, rfl⟩
  · intro h
    induction s with
    | nil => exact absurd (List.infix_nil.mp h) hw
    | cons c s ih =>
        rw [after]
        split
        · rfl
        · next hp => exact ih ((List.infix_cons_iff.mp h).resolve_left hp)

/-- A word that does not occur in a text cannot begin there either, if the text goes on with a
character the word avoids. -/
theorem after_append_cons {c : α} {w s : List α} (h : ¬ w <:+: s) (hc : c ∉ w) (t : List α) :
    after w (s ++ c :: t) = after w (c :: t) := by
  induction s with
  | nil => rfl
  | cons d s ih =>
      have hp : ¬ w <+: d :: s ++ c :: t := by
        intro hw
        rcases List.prefix_or_prefix_of_prefix hw (List.prefix_append (d :: s) (c :: t)) with
          hds | ⟨v, rfl⟩
        · exact h hds.isInfix
        · rw [List.prefix_append_right_inj] at hw
          cases v with
          | nil => exact h (by simp)
          | cons e v =>
              obtain rfl : e = c := (List.cons_prefix_cons.mp hw).1
              exact hc (by simp)
      rw [List.cons_append] at hp ⊢
      rw [after, if_neg hp]
      exact ih fun hi ↦ h (hi.trans (List.infix_cons (List.infix_refl s)))

/-! ## Occurrences and separators -/

omit [DecidableEq α] in
/-- An occurrence of a word cannot straddle a character the word avoids. -/
theorem infix_append_cons_iff {c : α} {w a b : List α} (hw : w ≠ []) (h : c ∉ w) :
    w <:+: a ++ c :: b ↔ w <:+: a ∨ w <:+: b := by
  constructor
  · intro hi
    rcases List.infix_append_iff_ne_nil.mp hi with ha | hb | ⟨l₁, l₂, _, h₂, rfl, _, hp⟩
    · exact Or.inl ha
    · rcases List.infix_cons_iff.mp hb with hp | hb
      · rcases List.prefix_cons_iff.mp hp with rfl | ⟨t, rfl, _⟩
        · exact absurd rfl hw
        · exact absurd List.mem_cons_self h
      · exact Or.inr hb
    · rcases List.prefix_cons_iff.mp hp with rfl | ⟨t, rfl, _⟩
      · exact absurd rfl h₂
      · exact absurd (by simp) h
  · rintro (ha | hb)
    · exact List.infix_append_of_infix_left ha
    · exact List.infix_append_of_infix_right (List.infix_cons hb)

omit [DecidableEq α] in
/-- Whether a word stands at the front is decided by as many characters as it has. -/
theorem not_prefix_append {w u : List α} (h : ¬ w <+: u) (hl : w.length ≤ u.length) (v : List α) :
    ¬ w <+: u ++ v := fun hp ↦
  h (List.prefix_of_prefix_length_le hp (List.prefix_append u v) hl)

/-- A word none of whose proper beginnings is also an end of it. -/
def Borderless (w : List α) : Prop := ∀ v ∈ w.tails, v <+: w → v = [] ∨ v = w

instance (w : List α) : Decidable (Borderless w) := List.decidableBAll _ _

omit [DecidableEq α] in
/-- In front of a place of such a word no other place begins, unless the word occurs there. -/
theorem Borderless.not_prefix {w u v t : List α} (hw : Borderless w) (hu : ¬ w <:+: u)
    (ht : t <:+ u) (hne : t ≠ []) : ¬ w <+: t ++ (w ++ v) := by
  rintro ⟨r, hr⟩
  rcases List.append_eq_append_iff.mp hr with ⟨a, rfl, _⟩ | ⟨s, rfl, hs⟩
  · exact hu ((List.prefix_append w a).isInfix.trans ht.isInfix)
  · have hsw : s <+: t ++ s :=
      List.prefix_of_prefix_length_le ⟨r, hs.symm⟩ (List.prefix_append _ v) (by simp)
    rcases hw s ((List.mem_tails _ _).mpr (List.suffix_append t s)) hsw with rfl | he
    · exact hu ((List.append_nil t).symm ▸ ht.isInfix)
    · exact hne (List.self_eq_append_left.mp he)

/-- Every character of a text is a separator or stands in one of the parts. -/
theorem mem_splitOn {c sep : α} {s : List α} (h : c ∈ s) :
    c = sep ∨ ∃ part ∈ s.splitOn sep, c ∈ part := by
  induction s with
  | nil => cases h
  | cons d s ih =>
      obtain ⟨part, parts, hs⟩ := List.exists_cons_of_ne_nil (List.splitOn_ne_nil sep s)
      rw [List.splitOn_cons_eq_if_modifyHead, hs]
      rw [hs] at ih
      by_cases hd : d = sep
      · rcases List.mem_cons.mp h with rfl | h
        · exact Or.inl hd
        · exact (ih h).imp_right fun ⟨p, hp, hc⟩ ↦ ⟨p, by simp [hd, hp], hc⟩
      · rcases List.mem_cons.mp h with rfl | h
        · exact Or.inr ⟨c :: part, by simp [hd], List.mem_cons_self⟩
        · refine (ih h).imp_right fun ⟨p, hp, hc⟩ ↦ ?_
          rcases List.mem_cons.mp hp with rfl | hp
          · exact ⟨d :: p, by simp [hd], List.mem_cons_of_mem d hc⟩
          · exact ⟨p, by simp [hd, hp], hc⟩

/-! ## Lines -/

/-- The lines of a text, without their terminators.  A final line may lack its
terminator; nothing follows a final terminator. -/
def lines (nl : α) : List α → List (List α)
  | [] => []
  | c :: s =>
    if c = nl then [] :: lines nl s
    else match lines nl s with
      | [] => [[c]]
      | l :: ls => (c :: l) :: ls

/-- The first line carries the prefixes that contain no terminator. -/
theorem prefix_head_lines_iff {nl : α} {w : List α} (hw : w ≠ []) (h : nl ∉ w) (s : List α) :
    (∃ l, (lines nl s).head? = some l ∧ w <+: l) ↔ w <+: s := by
  induction s generalizing w with
  | nil => simp [lines, hw]
  | cons c s ih =>
      by_cases hc : c = nl
      · subst hc
        have hno : ¬ w <+: c :: s := by
          rintro hp
          rcases List.prefix_cons_iff.mp hp with rfl | ⟨t, rfl, _⟩
          · exact hw rfl
          · exact h List.mem_cons_self
        simp [lines, hno, hw]
      · obtain ⟨d, w, rfl⟩ := List.exists_cons_of_ne_nil hw
        rw [List.cons_prefix_cons]
        by_cases hw' : w = []
        · subst hw'
          rw [lines, if_neg hc]
          cases lines nl s <;> simp
        · rw [← ih hw' fun hm ↦ h (List.mem_cons_of_mem d hm), lines, if_neg hc]
          cases lines nl s with
          | nil => simp [hw']
          | cons l ls => simp

/-- A word without terminators occurs in a text iff it occurs in one of its lines. -/
theorem exists_mem_lines_infix_iff {nl : α} {w : List α} (hw : w ≠ []) (h : nl ∉ w)
    (s : List α) : (∃ l ∈ lines nl s, w <:+: l) ↔ w <:+: s := by
  induction s with
  | nil => simp [lines, hw]
  | cons c s ih =>
      rw [List.infix_cons_iff, ← ih, ← prefix_head_lines_iff hw h (c :: s), lines]
      by_cases hc : c = nl
      · simp [hc, hw]
      · rw [if_neg hc]
        cases lines nl s with
        | nil => simp [List.infix_cons_iff, hw]
        | cons l ls => simp [List.infix_cons_iff, or_assoc]

end KernelTests.Text
