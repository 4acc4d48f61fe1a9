import KernelTests.BuildStorm.Records

/-!
# The tokens of a match

The repetition in the pattern may take a word apart in several ways, and its pieces may
abut.  Whatever way it takes, splitting the captured text at white space gives words with
an equals sign inside, so every one of them is a key with a value.
-/

namespace KernelTests

namespace Regex

variable {α : Type}

/-! ## What fields match -/

theorem mem_language_star_char {p : α → Bool} {w : List α} (h : w ∈ language (.star (.char p))) :
    ∀ c ∈ w, p c := by
  obtain ⟨S, rfl, hS⟩ := Language.mem_kstar.mp h
  intro c hc
  obtain ⟨u, hu, hcu⟩ := List.mem_flatten.mp hc
  obtain ⟨d, hd, rfl⟩ := hS u hu
  rwa [List.mem_singleton.mp hcu]

theorem mem_language_plus_char {p : α → Bool} {w : List α} (h : w ∈ language (plus (.char p))) :
    w ≠ [] ∧ ∀ c ∈ w, p c := by
  obtain ⟨_, ⟨c, hc, rfl⟩, v, hv, rfl⟩ := h
  exact ⟨List.cons_ne_nil c v, List.forall_mem_cons.mpr ⟨hc, mem_language_star_char hv⟩⟩

variable {token blank : α → Bool} {sep : α} [DecidableEq α]

/-- However a field is matched, it is a word with the separator inside, and blanks. -/
theorem exists_isField_of_mem_language (hsep : token sep) {s : List α}
    (h : s ∈ language (field token blank sep)) :
    ∃ p, IsField token blank sep p ∧ s = p.1 ++ p.2 := by
  obtain ⟨t, ht, _, ⟨_, ⟨c, hc, rfl⟩, _, ⟨r, hr, w, hw, rfl⟩, rfl⟩, rfl⟩ := h
  obtain rfl : c = sep := by simpa using hc
  obtain ⟨ht, htoken⟩ := mem_language_plus_char ht
  obtain ⟨hr, hrtoken⟩ := mem_language_plus_char hr
  refine ⟨(t ++ c :: r, w), ⟨?_, separated_iff.mpr ⟨t, r, ht, hr, rfl⟩,
    mem_language_star_char hw⟩, by simp⟩
  intro d hd
  rcases List.mem_append.mp hd with hd | hd
  · exact htoken d hd
  · exact (List.mem_cons.mp hd).elim (fun he ↦ he ▸ hsep) (hrtoken d)

/-- A repetition of fields, however it is matched. -/
theorem exists_joinFields_of_mem_language (hsep : token sep) {s : List α}
    (h : s ∈ language (plus (field token blank sep))) :
    ∃ l, (∀ p ∈ l, IsField token blank sep p) ∧ s = joinFields l := by
  obtain ⟨u, hu, v, hv, rfl⟩ := h
  obtain ⟨S, rfl, hS⟩ := Language.mem_kstar.mp hv
  have hrest : ∃ l, (∀ p ∈ l, IsField token blank sep p) ∧ S.flatten = joinFields l := by
    clear hv
    induction S with
    | nil => exact ⟨[], List.forall_mem_nil _, rfl⟩
    | cons w S ih =>
        obtain ⟨hw, hrest⟩ := List.forall_mem_cons.mp hS
        obtain ⟨l, hl, hflat⟩ := ih hrest
        obtain ⟨p, hp, rfl⟩ := exists_isField_of_mem_language hsep hw
        exact ⟨p :: l, List.forall_mem_cons.mpr ⟨hp, hl⟩, by
          rw [List.flatten_cons, hflat, joinFields, joinFields, List.flatMap_cons]⟩
  obtain ⟨p, hp, rfl⟩ := exists_isField_of_mem_language hsep hu
  obtain ⟨l, hl, hflat⟩ := hrest
  refine ⟨p :: l, List.forall_mem_cons.mpr ⟨hp, hl⟩, ?_⟩
  change p.1 ++ p.2 ++ S.flatten = joinFields (p :: l)
  rw [hflat, joinFields, joinFields, List.flatMap_cons]

/-! ## Groups of any match -/

omit [DecidableEq α] in
theorem between_skip {x : Cursor α} {w : List α} (h : w <+: x.rest) : between x (x.skip w) = w := by
  obtain ⟨b, s⟩ := x
  obtain ⟨t, rfl⟩ := h
  rw [skip_append_rest]
  exact between_append b _ w t

omit [DecidableEq α] in
/-- The groups of a match are words of the languages of its parts. -/
theorem forall₂_groups {rs : List (Regex α)} {x : Cursor α} {ys : List (Cursor α)}
    (h : ys ∈ runParts rs x) : List.Forall₂ (fun r u ↦ u ∈ language r) rs (groups x ys) := by
  induction rs generalizing x ys with
  | nil =>
      rw [List.mem_singleton.mp h]
      exact .nil
  | cons r rs ih =>
      obtain ⟨y, hy, hys⟩ := List.mem_flatMap.mp h
      obtain ⟨zs, hzs, rfl⟩ := List.mem_map.mp hys
      obtain ⟨w, hw, hp, rfl⟩ := exists_mem_language (spans_of_mem_run r x y hy)
      refine .cons ?_ (ih hzs)
      rwa [between_skip hp]

end Regex

namespace BuildStorm

open Python Regex

/-! ## Splitting the captured text -/

/-- Fields that may abut are split into words with an equals sign inside. -/
theorem separated_of_mem_splitFrom {l : List (Str × Str)}
    (h : ∀ p ∈ l, IsField isToken isBlank '=' p) {u : Str} (hu : u = [] ∨ Separated '=' u) :
    ∀ v ∈ splitFrom u (joinFields l), Separated '=' v := by
  induction l generalizing u with
  | nil =>
      intro v hv
      rw [joinFields, List.flatMap_nil, splitFrom] at hv
      split at hv
      · cases hv
      · next hne =>
        rw [List.mem_singleton.mp hv]
        exact hu.resolve_left hne
  | cons p l ih =>
      obtain ⟨⟨htoken, hsep, hblank⟩, hl⟩ := List.forall_mem_cons.mp h
      obtain ⟨t, r, ht, hr, hp⟩ := separated_iff.mp hsep
      have hjoined : Separated '=' (u ++ p.1) := separated_iff.mpr
        ⟨u ++ t, r, by simp [ht], hr, by rw [hp, List.append_assoc]⟩
      intro v hv
      rw [joinFields, List.flatMap_cons, ← joinFields, List.append_assoc,
        splitFrom_append htoken] at hv
      by_cases hnil : p.2 = []
      · -- the next field abuts
        rw [hnil, List.nil_append] at hv
        exact ih hl (.inr hjoined) v hv
      · rw [splitFrom_space (by simp [hp]) (fun c hc ↦ isSpace_of_isBlank (hblank c hc)) hnil] at hv
        rcases List.mem_cons.mp hv with rfl | hv
        · exact hjoined
        · exact ih hl (.inl rfl) v hv

/-- A word of the text can be split, and its value is not empty. -/
def IsPair (token : Str) : Prop :=
  ∃ k v, v ≠ [] ∧ token = k ++ '=' :: v ∧ splitEq token = some (k, v)

theorem isPair_of_separated {u : Str} (h : Separated '=' u) : IsPair u := by
  have hmem : '=' ∈ u.dropLast := by
    rw [Separated, ← List.tail_dropLast] at h
    exact List.mem_of_mem_tail h
  obtain ⟨k, v, rfl, hk⟩ := List.eq_append_cons_of_mem (List.mem_of_mem_dropLast hmem)
  refine ⟨k, v, ?_, rfl, ?_⟩
  · rintro rfl
    rw [List.dropLast_concat] at hmem
    exact hk hmem
  · have hkey : ∀ c ∈ k, decide (c ≠ '=') = true := fun c hc ↦
      decide_eq_true fun he ↦ hk (he ▸ hc)
    rw [splitEq, if_pos (by simp), List.takeWhile_append_of_pos hkey,
      List.dropWhile_append_of_pos hkey]
    simp

/-- The groups of a match of the pattern in a text, in any of the ways it matches. -/
def Matched (out : Str) (us : List Str) : Prop :=
  ∃ x ∈ places none out, ∃ ys ∈ runParts compilePattern x, us = groups x ys

theorem matched_of_mem_finditer {out : Str} {us : List Str}
    (h : us ∈ finditer compilePattern 0 none out) : Matched out us := by
  obtain ⟨x, hx, ys, hys, rfl⟩ := exists_place_of_mem_finditer _ none h
  exact ⟨x, hx, ys, List.mem_of_mem_head? hys, rfl⟩

/-- **The dictionary.**  In whatever way the pattern matches, every token of the captured text is
a key, an equals sign and a value; no text makes `parse_compile` raise an exception. -/
theorem isPair_of_matched (out : Str) :
    (∀ us, Matched out us → ∃ w u body, us = [w, u, body] ∧ ∀ token ∈ split body, IsPair token) ∧
      (∀ us ∈ finditer compilePattern 0 none out, Matched out us) ∧ parseCompile out ≠ none := by
  refine ⟨?_, fun us hus ↦ matched_of_mem_finditer hus, by simp [parseCompile_eq]⟩
  rintro us ⟨x, _, ys, hys, rfl⟩
  have hgroups := forall₂_groups hys
  generalize groups x ys = us at hgroups
  obtain _ | ⟨_, _ | ⟨_, _ | ⟨hbody, _ | _⟩⟩⟩ := hgroups
  obtain ⟨l, hl, rfl⟩ := exists_joinFields_of_mem_language isToken_equals hbody
  exact ⟨_, _, _, rfl, fun token htoken ↦
    isPair_of_separated (separated_of_mem_splitFrom hl (.inl rfl) token htoken)⟩

end BuildStorm

end KernelTests
