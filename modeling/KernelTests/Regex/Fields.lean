import KernelTests.Regex.Search
import Mathlib.Data.List.TakeWhile

/-!
# Repeated fields

A field is a word with a separator inside it, and the blanks behind the word.  The
pattern for it repeats inside a repetition, so an engine has many ways to match a line
of fields.  The first one takes the words whole, one after the other, and stops in
front of the first word that has no separator inside.
-/

namespace KernelTests.Regex

variable {α : Type}

/-! ## First results -/

theorem head?_flatMap_of_head? {β γ : Type} {l : List β} {f : β → List γ} {x : β} {y : γ}
    (hl : l.head? = some x) (hf : (f x).head? = some y) : (l.flatMap f).head? = some y := by
  obtain ⟨l, rfl⟩ := List.head?_eq_some_iff.mp hl
  rw [List.flatMap_cons, List.head?_append, hf]
  rfl

/-- Where all results begin in the same way, it does not matter which comes first. -/
theorem head?_flatMap_of_forall {β γ : Type} {l : List β} {f : β → List γ} {y : γ}
    (h : ∀ x ∈ l, f x = [] ∨ (f x).head? = some y) (hex : ∃ x ∈ l, f x ≠ []) :
    (l.flatMap f).head? = some y := by
  induction l with
  | nil =>
      obtain ⟨x, hx, _⟩ := hex
      cases hx
  | cons x l ih =>
      rw [List.flatMap_cons]
      rcases h x List.mem_cons_self with hx | hx
      · rw [hx, List.nil_append]
        refine ih (fun z hz ↦ h z (List.mem_cons_of_mem x hz)) ?_
        obtain ⟨z, hz, hne⟩ := hex
        rcases List.mem_cons.mp hz with rfl | hz
        · exact absurd hx hne
        · exact ⟨z, hz, hne⟩
      · rw [List.head?_append, hx]
        rfl

theorem head?_filter_of_head? {β : Type} {l : List β} {p : β → Bool} {x : β}
    (hl : l.head? = some x) (hp : p x) : (l.filter p).head? = some x := by
  obtain ⟨l, rfl⟩ := List.head?_eq_some_iff.mp hl
  rw [List.filter_cons_of_pos hp]
  rfl

theorem head?_run_seq {r q : Regex α} {x y z : Cursor α} (hr : (run r x).head? = some y)
    (hq : (run q y).head? = some z) : (run (.seq r q) x).head? = some z :=
  head?_flatMap_of_head? hr hq

/-- The first match of `p*` takes the whole stretch. -/
theorem head?_run_star_char (p : α → Bool) (x : Cursor α) :
    (run (.star (.char p)) x).head? = some (x.skip (x.rest.takeWhile p)) := by
  rw [run, greedy_char p _ _ _ le_rfl, List.head?_map, List.head?_reverse, getLast?_inits]
  rfl

/-! ## Fields -/

section Fields

variable (token blank : α → Bool) (sep : α)

/-- The separator stands inside a word, neither first nor last. -/
def Separated (u : List α) : Prop := sep ∈ u.tail.dropLast

variable {sep} in
theorem separated_iff {u : List α} :
    Separated sep u ↔ ∃ t r, t ≠ [] ∧ r ≠ [] ∧ u = t ++ sep :: r := by
  constructor
  · intro h
    cases u with
    | nil => cases h
    | cons c u =>
        obtain ⟨t, r, hr⟩ := List.append_of_mem h
        have hne : u ≠ [] := fun he ↦ by rw [Separated, he] at h; cases h
        refine ⟨c :: t, r ++ [u.getLast hne], List.cons_ne_nil _ _, by simp, ?_⟩
        rw [List.tail_cons] at hr
        have hu := List.dropLast_append_getLast hne
        rw [hr] at hu
        simpa using hu.symm
  · rintro ⟨t, r, ht, hr, rfl⟩
    obtain ⟨c, t, rfl⟩ := List.exists_cons_of_ne_nil ht
    rw [Separated, List.cons_append, List.tail_cons,
      List.dropLast_append_of_ne_nil (List.cons_ne_nil sep r), List.dropLast_cons_of_ne_nil hr]
    simp

variable {token} in
/-- A word, and a text it cannot be continued into. -/
theorem takeWhile_word {u v : List α} (hu : ∀ c ∈ u, token c) (hv : ∀ c ∈ v.head?, ¬ token c) :
    (u ++ v).takeWhile token = u ∧ (u ++ v).dropWhile token = v := by
  refine ⟨takeWhile_stretch hu hv, ?_⟩
  rw [List.dropWhile_append_of_pos hu]
  cases v with
  | nil => rfl
  | cons c v => exact List.dropWhile_cons_of_neg (hv c rfl)

theorem not_of_mem_head?_dropWhile (s : List α) : ∀ c ∈ (s.dropWhile token).head?, ¬ token c := by
  intro c hc
  have hhead := List.head?_dropWhile_not token s
  rw [Option.mem_def.mp hc] at hhead
  simpa using hhead

/-- The word at the start of a text. -/
theorem exists_word (s : List α) :
    ∃ u v, s = u ++ v ∧ (∀ c ∈ u, token c) ∧ ∀ c ∈ v.head?, ¬ token c :=
  ⟨_, _, (List.takeWhile_append_dropWhile (p := token) (l := s)).symm,
    fun _ hc ↦ List.mem_takeWhile_imp hc, not_of_mem_head?_dropWhile token s⟩

variable [DecidableEq α]

instance : DecidablePred (Separated sep) := fun u ↦
  inferInstanceAs (Decidable (sep ∈ u.tail.dropLast))

/-- A field: word characters, the separator, word characters, blanks. -/
def field : Regex α :=
  .seq (plus (.char token)) (.seq (.char (· = sep))
    (.seq (plus (.char token)) (.star (.char blank))))

/-- The fields at the start of a text, as words and the blanks behind them. -/
def fields (s : List α) : List (List α × List α) :=
  if Separated sep (s.takeWhile token) then
    (s.takeWhile token, (s.dropWhile token).takeWhile blank) ::
      fields ((s.dropWhile token).dropWhile blank)
  else []
termination_by s.length
decreasing_by
  rename_i h
  have hne : s.takeWhile token ≠ [] := by
    intro he
    rw [he] at h
    cases h
  have hlen := congrArg List.length (List.takeWhile_append_dropWhile (p := token) (l := s))
  have hdrop := (List.dropWhile_suffix blank (l := s.dropWhile token)).length_le
  have hpos := List.length_pos_of_ne_nil hne
  rw [List.length_append] at hlen
  omega

/-- The text of fields. -/
def joinFields (l : List (List α × List α)) : List α := l.flatMap fun p ↦ p.1 ++ p.2

variable {token blank sep}

/-! ### The fields of a text -/

/-- A field at the start of a text. -/
theorem fields_cons {u w v : List α} (hu : ∀ c ∈ u, token c) (hsep : Separated sep u)
    (hw : ∀ c ∈ w, blank c) (hv : ∀ c ∈ v.head?, ¬ blank c)
    (hwv : ∀ c ∈ (w ++ v).head?, ¬ token c) :
    fields token blank sep (u ++ (w ++ v)) = (u, w) :: fields token blank sep v := by
  obtain ⟨htake, hdrop⟩ := takeWhile_word hu hwv
  obtain ⟨htake', hdrop'⟩ := takeWhile_word hw hv
  rw [fields, htake, if_pos hsep, hdrop, htake', hdrop']

/-- A word without separator ends the fields. -/
theorem fields_of_not_separated {s : List α} (h : ¬ Separated sep (s.takeWhile token)) :
    fields token blank sep s = [] := by
  rw [fields, if_neg h]

theorem fields_of_head {s : List α} (h : ∀ c ∈ s.head?, ¬ token c) :
    fields token blank sep s = [] := by
  refine fields_of_not_separated fun hsep ↦ ?_
  have htake := (takeWhile_word (u := []) (by simp) h).1
  rw [List.nil_append] at htake
  rw [htake] at hsep
  cases hsep

variable (token blank sep) in
/-- What is known about every field of a text. -/
structure IsField (p : List α × List α) : Prop where
  token_of_mem : ∀ c ∈ p.1, token c
  separated : Separated sep p.1
  blank_of_mem : ∀ c ∈ p.2, blank c

theorem isField_of_mem {s : List α} :
    ∀ p ∈ fields token blank sep s, IsField token blank sep p := by
  induction s using fields.induct token blank sep with
  | case1 s h ih =>
      rw [fields, if_pos h]
      exact List.forall_mem_cons.mpr ⟨⟨fun c hc ↦ List.mem_takeWhile_imp hc, h,
        fun c hc ↦ List.mem_takeWhile_imp hc⟩, ih⟩
  | case2 s h =>
      rw [fields_of_not_separated h]
      exact List.forall_mem_nil _

variable (token blank sep) in
/-- The fields are a prefix of the text. -/
theorem joinFields_prefix (s : List α) : joinFields (fields token blank sep s) <+: s := by
  induction s using fields.induct token blank sep with
  | case1 s h ih =>
      obtain ⟨rest, hrest⟩ := ih
      rw [fields, if_pos h, joinFields, List.flatMap_cons]
      refine ⟨rest, ?_⟩
      rw [List.append_assoc, ← joinFields, hrest, List.append_assoc, List.takeWhile_append_dropWhile,
        List.takeWhile_append_dropWhile]
  | case2 s h =>
      rw [fields_of_not_separated h]
      exact List.nil_prefix

/-! ### The pattern -/

omit [DecidableEq α] in
theorem head?_run_word_blanks {r v : List α} (hr : ∀ c ∈ r, token c)
    (hv : ∀ c ∈ v.head?, ¬ token c) (hne : r ≠ []) (b : Option α) :
    (run (.seq (plus (.char token)) (.star (.char blank))) ⟨b, r ++ v⟩).head? =
      some ((⟨b, r ++ v⟩ : Cursor α).skip (r ++ v.takeWhile blank)) := by
  rw [Cursor.skip_append, skip_append_rest]
  exact head?_run_seq (head?_run_plus_char hr hne hv b) (head?_run_star_char blank _)

variable (blank) in
/-- The pattern behind the first word. -/
theorem run_separator {r v : List α} (hsep : token sep) (hr : ∀ c ∈ r, token c)
    (hv : ∀ c ∈ v.head?, ¬ token c) (b : Option α) :
    let ys := run (.seq (.char (· = sep)) (.seq (plus (.char token)) (.star (.char blank))))
      ⟨b, r ++ v⟩
    if r.head? = some sep ∧ r.tail ≠ [] then
      ys.head? = some ((⟨b, r ++ v⟩ : Cursor α).skip (r ++ v.takeWhile blank))
    else ys = [] := by
  intro ys
  cases r with
  | nil =>
      have hys : ys = [] := by
        cases v with
        | nil => rfl
        | cons c v =>
            have hc : ¬ (c = sep) := fun he ↦ hv c rfl (he ▸ hsep)
            exact congrArg (List.flatMap _) (run_char_of_neg (by simpa using hc) b v)
      simpa using hys
  | cons c r =>
      by_cases hc : c = sep
      · subst hc
        have hys : ys = run (.seq (plus (.char token)) (.star (.char blank))) ⟨some c, r ++ v⟩ := by
          refine (congrArg (List.flatMap _) (run_char_of_pos (by simp) b (r ++ v))).trans ?_
          rw [List.flatMap_singleton]
        have hr := (List.forall_mem_cons.mp hr).2
        rw [hys]
        by_cases hne : r = []
        · subst hne
          simp only [List.head?_cons, List.tail_cons, ne_eq, not_true, and_false, if_false]
          exact congrArg (List.flatMap _) (run_plus_char_of_neg hv (some c))
        · rw [if_pos ⟨rfl, hne⟩, head?_run_word_blanks hr hv hne, List.cons_append, List.cons_append,
            skip_cons]
      · have hys : ys = [] :=
          congrArg (List.flatMap _) (run_char_of_neg (by simpa using hc) b (r ++ v))
        simpa [hc] using hys

omit [DecidableEq α] in
/-- The beginnings of a word, except the empty one. -/
theorem mem_tail_inits {t u : List α} : t ∈ u.inits.tail ↔ t <+: u ∧ t ≠ [] := by
  cases u with
  | nil => simp
  | cons c u =>
      rw [List.inits_cons, List.tail_cons, List.mem_map]
      constructor
      · rintro ⟨r, hr, rfl⟩
        exact ⟨List.cons_prefix_cons.mpr ⟨rfl, (List.mem_inits _ _).mp hr⟩, List.cons_ne_nil c r⟩
      · rintro ⟨hp, hne⟩
        obtain ⟨d, t, rfl⟩ := List.exists_cons_of_ne_nil hne
        obtain ⟨rfl, htail⟩ := List.cons_prefix_cons.mp hp
        exact ⟨t, (List.mem_inits _ _).mpr htail, rfl⟩

omit [DecidableEq α] in
/-- `p+` in front of a pattern that matches at no character of the class `p`. -/
theorem run_seq_plus_char_ne_nil_iff {p : α → Bool} {q : Regex α}
    (hq : ∀ b c s, p c → run q ⟨b, c :: s⟩ = []) (b : Option α) (s : List α) :
    run (.seq (plus (.char p)) q) ⟨b, s⟩ ≠ [] ↔ s.head?.map p = some true ∧
      run q ⟨(s.takeWhile p).getLast?.or b, s.dropWhile p⟩ ≠ [] := by
  obtain ⟨u, v, rfl, hu, hv⟩ := exists_word p s
  obtain ⟨htake, hdrop⟩ := takeWhile_word hu hv
  have hnone : ∀ t, t <+: u → t ≠ u → run q ((⟨b, u ++ v⟩ : Cursor α).skip t) = [] := by
    rintro t ⟨r, rfl⟩ hne
    cases r with
    | nil => exact absurd (List.append_nil t).symm hne
    | cons c r =>
        rw [List.append_assoc, skip_append_rest]
        exact hq _ c _ (hu c (by simp))
  have hlast : (⟨b, u ++ v⟩ : Cursor α).skip u = ⟨u.getLast?.or b, v⟩ := skip_append_rest b u v
  have hhead : (u ++ v).head?.map p = some true ↔ u ≠ [] := by
    cases u with
    | nil =>
        cases v with
        | nil => simp
        | cons c v => simpa using hv c rfl
    | cons c u => simpa using hu c List.mem_cons_self
  have hrun : run (.seq (plus (.char p)) q) ⟨b, u ++ v⟩ =
      u.inits.tail.reverse.flatMap fun t ↦ run q ((⟨b, u ++ v⟩ : Cursor α).skip t) := by
    refine (congrArg (List.flatMap _) (run_plus_char p b (u ++ v))).trans ?_
    rw [htake, List.flatMap_map]
  rw [hrun, htake, hdrop, hhead, ← hlast, Ne, List.flatMap_eq_nil_iff, not_forall]
  constructor
  · rintro ⟨t, ht⟩
    obtain ⟨hmem, hne⟩ := Classical.not_imp.mp ht
    obtain ⟨hstart, hnil⟩ := mem_tail_inits.mp (List.mem_reverse.mp hmem)
    obtain rfl : t = u := by_contra fun h ↦ hne (hnone t hstart h)
    exact ⟨hnil, hne⟩
  · rintro ⟨hnil, hne⟩
    exact ⟨u, Classical.not_imp.mpr ⟨List.mem_reverse.mpr (mem_tail_inits.mpr ⟨List.prefix_refl u, hnil⟩),
      hne⟩⟩

variable (blank) in
/-- A field takes a whole word that has a separator inside, and the blanks behind it; there is no
other way to begin. -/
theorem run_field (hsep : token sep) {u v : List α} (hu : ∀ c ∈ u, token c)
    (hv : ∀ c ∈ v.head?, ¬ token c) (b : Option α) :
    let ys := run (field token blank sep) ⟨b, u ++ v⟩
    if Separated sep u then
      ys.head? = some ((⟨b, u ++ v⟩ : Cursor α).skip (u ++ v.takeWhile blank))
    else ys = [] := by
  intro ys
  let rest := Regex.seq (.char (· = sep)) (.seq (plus (.char token)) (.star (.char blank)))
  have hys : ys = u.inits.tail.reverse.flatMap fun t ↦ run rest ((⟨b, u ++ v⟩ : Cursor α).skip t) := by
    refine (congrArg (List.flatMap _) (run_plus_char token b (u ++ v))).trans ?_
    rw [(takeWhile_word hu hv).1, List.flatMap_map]
  -- from every end of the first word
  have hend : ∀ t r, u = t ++ r →
      if r.head? = some sep ∧ r.tail ≠ [] then
        (run rest ((⟨b, u ++ v⟩ : Cursor α).skip t)).head? =
          some ((⟨b, u ++ v⟩ : Cursor α).skip (u ++ v.takeWhile blank))
      else run rest ((⟨b, u ++ v⟩ : Cursor α).skip t) = [] := by
    rintro t r rfl
    have hr : ∀ c ∈ r, token c := fun c hc ↦ hu c (List.mem_append_right t hc)
    have hrun := run_separator blank hsep hr hv (t.getLast?.or b)
    rw [List.append_assoc t r (v.takeWhile blank), Cursor.skip_append, List.append_assoc t r v,
      skip_append_rest]
    exact hrun
  split
  · next h =>
      rw [hys]
      refine head?_flatMap_of_forall (fun t ht ↦ ?_) ?_
      · obtain ⟨⟨r, hr⟩, _⟩ := mem_tail_inits.mp (List.mem_reverse.mp ht)
        have := hend t r hr.symm
        split at this
        · exact Or.inr this
        · exact Or.inl this
      · obtain ⟨t, r, ht, hr, rfl⟩ := separated_iff.mp h
        refine ⟨t, List.mem_reverse.mpr (mem_tail_inits.mpr ⟨List.prefix_append t _, ht⟩), ?_⟩
        have hfirst := hend t (sep :: r) rfl
        rw [if_pos ⟨rfl, hr⟩] at hfirst
        intro he
        rw [he] at hfirst
        cases hfirst
  · next h =>
      rw [hys]
      refine List.flatMap_eq_nil_iff.mpr fun t ht ↦ ?_
      obtain ⟨⟨r, hr⟩, hne⟩ := mem_tail_inits.mp (List.mem_reverse.mp ht)
      have hnone := hend t r hr.symm
      rwa [if_neg] at hnone
      rintro ⟨hhead, htail⟩
      exact h (separated_iff.mpr ⟨t, r.tail, hne, htail, by rw [← hr, List.cons_head?_tail hhead]⟩)

/-- Repeated fields. -/
theorem head?_greedy_field (hsep : token sep) (n : ℕ) {b : Option α} {s : List α}
    (hn : s.length ≤ n) :
    (greedy (run (field token blank sep)) n ⟨b, s⟩).head? =
      some ((⟨b, s⟩ : Cursor α).skip (joinFields (fields token blank sep s))) := by
  induction n generalizing b s with
  | zero =>
      rw [List.length_eq_zero_iff.mp (Nat.le_zero.mp hn), fields_of_head (by simp)]
      rfl
  | succ n ih =>
      obtain ⟨u, v, rfl, hu, hv⟩ := exists_word token s
      have hrun := run_field blank hsep hu hv b
      by_cases h : Separated sep u
      · obtain ⟨w, v, rfl, hw, hv'⟩ := exists_word blank v
        have hne : u ≠ [] := fun he ↦ by rw [he] at h; cases h
        rw [if_pos h, (takeWhile_word hw hv').1, ← List.append_assoc, skip_append_rest] at hrun
        have hshort : v.length < (u ++ (w ++ v)).length := by
          have := List.length_pos_of_ne_nil hne
          simp only [List.length_append]
          omega
        rw [fields_cons hu h hw hv' hv, joinFields, List.flatMap_cons, ← joinFields,
          Cursor.skip_append, ← List.append_assoc, skip_append_rest, greedy, List.head?_append,
          head?_flatMap_of_head? (head?_filter_of_head? hrun (by simpa using hshort)) (ih (by omega))]
        rfl
      · rw [if_neg h] at hrun
        rw [fields_of_not_separated (by rwa [(takeWhile_word hu hv).1]), greedy, hrun]
        rfl

/-- The pattern takes all fields at its place. -/
theorem head?_run_plus_field (hsep : token sep) {s : List α}
    (hne : fields token blank sep s ≠ []) (b : Option α) :
    (run (plus (field token blank sep)) ⟨b, s⟩).head? =
      some ((⟨b, s⟩ : Cursor α).skip (joinFields (fields token blank sep s))) := by
  obtain ⟨u, v, rfl, hu, hv⟩ := exists_word token s
  have hrun := run_field blank hsep hu hv b
  by_cases h : Separated sep u
  · obtain ⟨w, v, rfl, hw, hv'⟩ := exists_word blank v
    rw [if_pos h, (takeWhile_word hw hv').1] at hrun
    rw [fields_cons hu h hw hv' hv, joinFields, List.flatMap_cons, ← joinFields,
      Cursor.skip_append]
    refine head?_run_seq hrun ?_
    rw [← List.append_assoc, skip_append_rest]
    exact head?_greedy_field hsep _ le_rfl
  · exact absurd (fields_of_not_separated (by rwa [(takeWhile_word hu hv).1])) hne

theorem takes_plus_field (hsep : token sep) {s v : List α}
    (hs : joinFields (fields token blank sep s) ++ v = s) (hne : fields token blank sep s ≠ []) :
    Takes (plus (field token blank sep)) (joinFields (fields token blank sep s)) v := by
  intro b
  have hrun := head?_run_plus_field hsep hne b
  have hskip := skip_append_rest b (joinFields (fields token blank sep s)) v
  rw [hs] at hskip
  rw [hs, hrun, hskip]

/-- Without a field at its place the pattern has no match. -/
theorem run_plus_field_of_nil (hsep : token sep) {s : List α} (h : fields token blank sep s = [])
    (b : Option α) : run (plus (field token blank sep)) ⟨b, s⟩ = [] := by
  obtain ⟨u, v, rfl, hu, hv⟩ := exists_word token s
  have hrun := run_field blank hsep hu hv b
  rw [if_neg] at hrun
  · exact congrArg (List.flatMap _) hrun
  · intro hsep
    rw [fields, (takeWhile_word hu hv).1, if_pos hsep] at h
    cases h

/-! ### Lines of fields -/

omit [DecidableEq α] in
theorem takeWhile_append_cons {p : α → Bool} {c : α} (hc : ¬ p c) (l s : List α) :
    (l ++ c :: s).takeWhile p = l.takeWhile p ∧
      (l ++ c :: s).dropWhile p = l.dropWhile p ++ c :: s := by
  obtain ⟨u, v, rfl, hu, hv⟩ := exists_word p l
  have hv' : ∀ d ∈ (v ++ c :: s).head?, ¬ p d := by
    cases v with
    | nil => simpa using hc
    | cons d v => simpa using hv
  rw [List.append_assoc, (takeWhile_word hu hv).1, (takeWhile_word hu hv).2]
  exact takeWhile_word hu hv'

/-- Fields do not go on behind a character that is neither part of a word nor a blank. -/
theorem fields_append_cons {c : α} (ht : ¬ token c) (hb : ¬ blank c) (l s : List α) :
    fields token blank sep (l ++ c :: s) = fields token blank sep l := by
  induction l using fields.induct token blank sep with
  | case1 l h ih =>
      have hword := takeWhile_append_cons ht l s
      have hblanks := takeWhile_append_cons hb (l.dropWhile token) s
      rw [fields, hword.1, if_pos h, hword.2, hblanks.1, hblanks.2, ih]
      rw [fields.eq_def token blank sep l, if_pos h]
  | case2 l h =>
      rw [fields_of_not_separated h, fields_of_not_separated]
      rwa [(takeWhile_append_cons ht l s).1]

/-- Behind a word at the end of a text, a blank and more text: if the fields take the whole text,
they go on behind the blank, and otherwise they stop where they did. -/
theorem fields_append_word (hdisjoint : ∀ c, token c → ¬ blank c) {w y : List α} {d : α}
    (hw : ∀ c ∈ w, token c) (hne : w ≠ []) (hd : blank d) (hy : ∀ c ∈ y.head?, ¬ blank c)
    (f : List α) :
    (joinFields (fields token blank sep (f ++ w)) = f ++ w ∧
        (fields token blank sep (f ++ (w ++ d :: y))).map Prod.fst =
          (fields token blank sep (f ++ w)).map Prod.fst ++
            (fields token blank sep y).map Prod.fst ∧
        joinFields (fields token blank sep (f ++ (w ++ d :: y))) =
          f ++ (w ++ d :: joinFields (fields token blank sep y))) ∨
      ∃ v, joinFields (fields token blank sep (f ++ w)) ++ v = f ∧
        fields token blank sep (f ++ (w ++ d :: y)) = fields token blank sep (f ++ w) := by
  have hd' : ¬ token d := fun ht ↦ hdisjoint d ht hd
  have hhead : ∀ s, ∀ c ∈ (w ++ s).head?, ¬ blank c := by
    intro s c hc
    rw [List.head?_append_of_ne_nil _ hne] at hc
    exact hdisjoint c (hw c (List.mem_of_mem_head? hc))
  induction hn : f.length using Nat.strong_induction_on generalizing f with
  | _ n ih =>
  subst hn
  obtain ⟨u, x, rfl, hu, hx⟩ := exists_word token f
  cases x with
  | nil =>
      -- the text is one word, which the word behind it makes longer
      have hword : ∀ c ∈ u ++ w, token c := fun c hc ↦ (List.mem_append.mp hc).elim (hu c) (hw c)
      rw [List.append_nil, ← List.append_assoc]
      by_cases hsep : Separated sep (u ++ w)
      · have halone : fields token blank sep ((u ++ w) ++ ([] ++ [])) =
            (u ++ w, []) :: fields token blank sep [] :=
          fields_cons hword hsep (by simp) (by simp) (by simp)
        have hmore := fields_cons (w := [d]) (v := y) hword hsep (by simpa using hd) hy
          (by simpa using hd')
        have hnil : fields token blank sep [] = [] := fields_of_head (by simp)
        rw [List.append_nil, List.append_nil, hnil] at halone
        rw [List.singleton_append] at hmore
        rw [halone, hmore]
        simp [joinFields]
      · have halone : ¬ Separated sep ((u ++ w).takeWhile token) := by
          rwa [List.takeWhile_eq_self_iff.mpr hword]
        have hmore : ¬ Separated sep (((u ++ w) ++ d :: y).takeWhile token) := by
          rwa [(takeWhile_word hword (by simpa using hd')).1]
        rw [fields_of_not_separated halone, fields_of_not_separated hmore]
        exact .inr ⟨u, rfl, rfl⟩
  | cons c x =>
      have htake : ∀ s, ((u ++ c :: x) ++ s).takeWhile token = u := fun s ↦ by
        rw [List.append_assoc]
        exact (takeWhile_word hu (by simpa using hx)).1
      by_cases hsep : Separated sep u
      · obtain ⟨b, f, hbf, hb, hf⟩ := exists_word blank (c :: x)
        have hfields : ∀ s, fields token blank sep ((u ++ c :: x) ++ (w ++ s)) =
            (u, b) :: fields token blank sep (f ++ (w ++ s)) := by
          intro s
          rw [hbf, List.append_assoc, List.append_assoc]
          refine fields_cons hu hsep hb ?_ ?_
          · cases f with
            | nil => exact hhead s
            | cons e f => simpa using hf
          · rw [← List.append_assoc, ← hbf]
            simpa using hx
        have hshort : f.length < (u ++ c :: x).length := by
          have hpos : 0 < u.length := List.length_pos_of_ne_nil fun he ↦ by
            rw [he] at hsep
            cases hsep
          rw [List.length_append, hbf, List.length_append]
          omega
        have halone := hfields []
        rw [List.append_nil] at halone
        rw [halone, hfields, hbf]
        rcases ih f.length hshort f rfl with ⟨hjoin, hmap, hjoin'⟩ | ⟨v, hv, hsame⟩
        · rw [joinFields] at hjoin hjoin'
          refine .inl ⟨?_, ?_, ?_⟩
          · simp [joinFields, hjoin]
          · rw [List.map_cons, hmap, List.map_cons, List.cons_append]
          · simp [joinFields, hjoin']
        · rw [joinFields] at hv
          exact .inr ⟨v, by simp [joinFields, hv], by rw [hsame]⟩
      · rw [fields_of_not_separated (by rwa [htake]), fields_of_not_separated (by rwa [htake])]
        exact .inr ⟨_, rfl, rfl⟩

variable {space : α → Bool} {w : List α}

variable (token blank sep space w) in
/-- A record: a literal, white space and fields. -/
def record : List (Regex α) :=
  [word w, plus (.char space), plus (field token blank sep)]

/-- A record in front of fields. -/
theorem splits_record (hsep : token sep) (hspace : ∀ c, space c → ¬ token c) {u s v : List α}
    (hu : ∀ c ∈ u, space c) (hu' : u ≠ [])
    (hs : joinFields (fields token blank sep s) ++ v = s) (hne : fields token blank sep s ≠ []) :
    Splits (record token blank sep space w) [w, u, joinFields (fields token blank sep s)] v := by
  have hhead : ∀ c ∈ s.head?, ¬ space c := by
    intro c hc hcs
    exact hne (fields_of_head fun d hd ↦ by rw [hc] at hd; cases hd; exact hspace c hcs)
  refine (takes_word w _).splits (Takes.splits ?_ ((Takes.splits ?_ (splits_nil v))))
  · refine takes_plus_char hu' hu ?_
    simpa [hs] using hhead
  · exact takes_plus_field hsep hs hne

/-- Without fields there is no record. -/
theorem noMatch_record (hsep : token sep) (hspace : ∀ c, space c → ¬ token c) {u s : List α}
    (hu : ∀ c ∈ u, space c) (hhead : ∀ c ∈ s.head?, ¬ space c)
    (h : fields token blank sep s = []) :
    NoMatch (record token blank sep space w) (w ++ (u ++ s)) := by
  refine NoMatch.word ?_ w
  have hnone : ∀ {t : List α}, fields token blank sep t = [] →
      NoMatch [plus (field token blank sep)] t := fun ht b ↦
    matchAt_cons_of_nil (run_plus_field_of_nil hsep ht b)
  by_cases hne : u = []
  · rw [hne, List.nil_append]
    exact noMatch_plus_char _ hhead
  · refine (hnone h).plus_char hne hu hhead fun c t hc ↦ hnone (fields_of_head ?_)
    intro d hd
    cases hd
    exact hspace c hc

/-- Every match of a record is of this form. -/
theorem groups_of_matchAt_record (hsep : token sep) (hspace : ∀ c, space c → ¬ token c)
    {b : Option α} {s : List α} {ys : List (Cursor α)}
    (h : matchAt (record token blank sep space w) ⟨b, s⟩ = some ys) :
    ∃ u t, s = w ++ (u ++ t) ∧ (∀ c ∈ u, space c) ∧ u ≠ [] ∧ fields token blank sep t ≠ [] ∧
      groups ⟨b, s⟩ ys = [w, u, joinFields (fields token blank sep t)] := by
  by_cases hw : w <+: s
  · obtain ⟨s, rfl⟩ := hw
    obtain ⟨u, t, rfl, hu, ht⟩ := exists_word space s
    have hsome : fields token blank sep t ≠ [] := fun hnil ↦ by
      rw [noMatch_record hsep hspace hu ht hnil] at h
      cases h
    by_cases hne : u = []
    · subst hne
      have hnone : NoMatch (record token blank sep space w) (w ++ ([] ++ t)) :=
        (noMatch_plus_char _ ht).word w
      rw [hnone] at h
      cases h
    · obtain ⟨v, hv⟩ := joinFields_prefix token blank sep t
      obtain ⟨zs, hzs, hgroups⟩ := splits_record (w := w) hsep hspace hu hne hv hsome b
      have htext : [w, u, joinFields (fields token blank sep t)].flatten ++ v = w ++ (u ++ t) := by
        rw [List.flatten_cons, List.flatten_cons, List.flatten_singleton, List.append_assoc,
          List.append_assoc, hv]
      rw [htext] at hzs hgroups
      rw [hzs] at h
      cases h
      exact ⟨u, t, rfl, hu, hne, hsome, hgroups⟩
  · rw [record, matchAt_word_of_not_prefix (x := ⟨b, s⟩) _ hw] at h
    cases h

end Fields

end KernelTests.Regex
