import KernelTests.Json.Parse

/-!
# The characters of a literal

The two passes of `parse_string` over a literal: where it ends, and how many characters
it stands for.  Every escape sequence counts as one character at least, and stands for no
more bytes than it counts.
-/

namespace KernelTests.Json

/-! ## The end of a literal -/

/-- What the scan of a string leaves behind the closing quote. -/
theorem scanString_eq_append {s raw rest : Bytes} (h : scanString s = some (raw, rest)) :
    s = raw ++ 34 :: rest := by
  induction s using scanString.induct generalizing raw with
  | case1 => simp at h
  | case2 s =>
      rw [scanString_quote] at h
      cases h
      rfl
  | case3 _ => simp [scanString] at h
  | case4 _ d s ih =>
      rw [scanString_backslash, Option.map_eq_some_iff] at h
      obtain ⟨p, hs, he⟩ := h
      cases he
      rw [ih hs]
      rfl
  | case5 c s h₁ h₂ ih =>
      rw [scanString_plain h₁ h₂, Option.map_eq_some_iff] at h
      obtain ⟨p, hs, he⟩ := h
      cases he
      rw [ih hs]
      rfl

theorem scanString_length {s raw r : Bytes} (h : scanString s = some (raw, r)) :
    r.length < s.length := by
  rw [scanString_eq_append h, List.length_append, List.length_cons]
  omega

/-- A string without backslashes ends at the first quote. -/
theorem quote_notMem_of_scanString {s raw rest : Bytes} (h : scanString s = some (raw, rest))
    (hraw : 92 ∉ raw) : 34 ∉ raw := by
  induction s using scanString.induct generalizing raw with
  | case1 => simp at h
  | case2 s =>
      rw [scanString_quote] at h
      cases h
      exact List.not_mem_nil
  | case3 _ => simp [scanString] at h
  | case4 _ d s ih =>
      rw [scanString_backslash, Option.map_eq_some_iff] at h
      obtain ⟨p, hs, he⟩ := h
      cases he
      exact absurd List.mem_cons_self hraw
  | case5 c s h₁ h₂ ih =>
      rw [scanString_plain h₁ h₂, Option.map_eq_some_iff] at h
      obtain ⟨p, hs, he⟩ := h
      cases he
      exact List.not_mem_cons_of_ne_of_not_mem (Ne.symm h₁)
        (ih hs (List.not_mem_of_not_mem_cons hraw))

/-- Without quotes and backslashes a string is scanned to its end. -/
theorem scanString_of_notMem {s : Bytes} (hquote : 34 ∉ s) (hbackslash : 92 ∉ s) (rest : Bytes) :
    scanString (s ++ 34 :: rest) = some (s, rest) := by
  induction s with
  | nil => exact scanString_quote rest
  | cons c s ih =>
      obtain ⟨hc₁, hs₁⟩ := List.ne_and_not_mem_of_not_mem_cons hquote
      obtain ⟨hc₂, hs₂⟩ := List.ne_and_not_mem_of_not_mem_cons hbackslash
      rw [List.cons_append, scanString_plain hc₁.symm hc₂.symm, ih hs₁ hs₂]
      rfl

/-! ## How many characters a literal stands for -/

/-- The number of characters and of escape sequences of two. -/
def tokens : Bytes → ℕ
  | [] => 0
  | c :: s =>
    if c = 92 then
      match s with
      | [] => 1
      | _ :: s => tokens s + 1
    else tokens s + 1

theorem tokens_plain {c : UInt8} (h : c ≠ 92) (s : Bytes) : tokens (c :: s) = tokens s + 1 := by
  rw [tokens.eq_def]
  simp [h]

theorem tokens_pair (d : UInt8) (s : Bytes) : tokens (92 :: d :: s) = tokens s + 1 := by
  rw [tokens.eq_def]
  simp

/-- One character in front makes at most one more. -/
theorem tokens_cons (c : UInt8) (s : Bytes) :
    tokens s ≤ tokens (c :: s) ∧ tokens (c :: s) ≤ tokens s + 1 := by
  induction s generalizing c with
  | nil => by_cases hc : c = 92 <;> simp [tokens, hc]
  | cons d s ih =>
      by_cases hc : c = 92
      · subst hc
        rw [tokens_pair]
        have h := ih d
        omega
      · rw [tokens_plain hc]
        omega

theorem tokens_drop_le (n : ℕ) (s : Bytes) : tokens (s.drop n) ≤ tokens s := by
  induction n generalizing s with
  | zero => exact le_rfl
  | succ n ih =>
      cases s with
      | nil => exact le_rfl
      | cons c s => exact (ih s).trans (tokens_cons c s).1

/-- A digit is not a backslash, so what is not zero was written with four of them. -/
theorem tokens_hex {a b c d : UInt8} (h : parseHex4 a b c d ≠ 0) (s : Bytes) :
    tokens (a :: b :: c :: d :: s) = tokens s + 4 := by
  have hdigit : ∀ {x : UInt8}, hexValue x ≠ none → x ≠ 92 := by
    rintro x hx rfl
    exact hx rfl
  unfold parseHex4 at h
  split at h
  · next ha hb hc hd =>
      rw [tokens_plain (hdigit (by simp [ha])), tokens_plain (hdigit (by simp [hb])),
        tokens_plain (hdigit (by simp [hc])), tokens_plain (hdigit (by simp [hd]))]
  · exact absurd rfl h

theorem length_utf8Encode_le (codepoint : ℕ) : (utf8Encode codepoint).length ≤ 4 := by
  unfold utf8Encode
  split
  · simp
  · split
    · simp
    · split <;> simp

theorem parseHex4_lt (a b c d : UInt8) : parseHex4 a b c d < 65536 := by
  have hdigit : ∀ {x : UInt8} {n : ℕ}, hexValue x = some n → n < 16 := by
    intro x n h
    have hx := x.toNat_lt
    simp only [hexValue, UInt8.le_iff_toNat_le] at h
    grind
  unfold parseHex4
  split
  · next ha hb hc hd =>
      have h₁ := hdigit ha
      have h₂ := hdigit hb
      have h₃ := hdigit hc
      have h₄ := hdigit hd
      omega
  · decide

/-- The bytes of a sequence fit into the room its characters leave. -/
theorem length_utf8Encode_literal {s : Bytes} {p : ℕ × ℕ} (h : literal s = some p) :
    p.2 ≤ 0x10FFFF ∧ p.1 - 2 ≤ s.length ∧ 6 ≤ p.1 ∧
      (utf8Encode p.2).length + tokens (s.drop (p.1 - 2)) ≤ tokens (92 :: 117 :: s) := by
  have hlen := length_utf8Encode_le p.2
  rw [tokens_pair]
  unfold literal at h
  split at h
  · next h₁ h₂ h₃ h₄ s =>
      have hlt := parseHex4_lt h₁ h₂ h₃ h₄
      simp only at h
      split at h
      · cases h
      split at h
      · next hhigh =>
          split at h
          · next l₁ l₂ l₃ l₄ s =>
              split at h
              · cases h
              · next hlow =>
                  cases h
                  simp only [List.length_cons, List.drop_succ_cons, List.drop_zero] at hlen ⊢
                  rw [tokens_hex (by omega), tokens_pair, tokens_hex (by omega)]
                  refine ⟨?_, by omega, by omega, by omega⟩
                  omega
          · cases h
      · cases h
        have hdrop := tokens_drop_le 4 (h₁ :: h₂ :: h₃ :: h₄ :: s)
        simp only [List.length_cons, List.drop_succ_cons, List.drop_zero] at hlen hdrop ⊢
        refine ⟨by omega, by omega, le_rfl, ?_⟩
        by_cases h0 : parseHex4 h₁ h₂ h₃ h₄ = 0
        · rw [h0]
          have hone : (utf8Encode 0).length = 1 := rfl
          omega
        · rw [tokens_hex h0]
          omega
  · cases h

/-- No literal stands for more bytes than it has characters. -/
theorem length_unescape_le_tokens {s out : Bytes} (h : unescape s = some out) :
    out.length ≤ tokens s := by
  induction hn : s.length using Nat.strong_induction_on generalizing s out with
  | _ n ih =>
  subst hn
  have hcons : ∀ {d : UInt8} {t : Bytes}, t.length < s.length → (unescape t).map (d :: ·) = some out →
      out.length ≤ tokens t + 1 := by
    intro d t ht hmap
    obtain ⟨u, hu, rfl⟩ := Option.map_eq_some_iff.mp hmap
    exact Nat.succ_le_succ (ih _ ht hu rfl)
  cases s with
  | nil =>
      cases h
      exact le_rfl
  | cons c s =>
      by_cases hc : c = 92
      · subst hc
        cases s with
        | nil =>
            cases h
            rfl
        | cons e s =>
            cases hletter : unescapeLetter e with
            | some d =>
                rw [unescape_letter hletter] at h
                rw [tokens_pair]
                exact hcons (by simp only [List.length_cons]; omega) h
            | none =>
                by_cases he : e = 117
                · subst he
                  rw [unescape_literal] at h
                  obtain ⟨p, hp, h⟩ := Option.bind_eq_some_iff.mp h
                  obtain ⟨u, hu, rfl⟩ := Option.map_eq_some_iff.mp h
                  obtain ⟨-, -, -, hfits⟩ := length_utf8Encode_literal hp
                  have hrest := ih _ (by simp; omega) hu rfl
                  rw [List.length_append]
                  omega
                · rw [unescape_unknown hletter he] at h
                  cases h
      · rw [unescape_plain hc] at h
        rw [tokens_plain hc]
        exact hcons (by simp) h

theorem tokens_le_length (s : Bytes) : tokens s ≤ s.length := by
  induction s with
  | nil => exact le_rfl
  | cons c s ih => exact (tokens_cons c s).2.trans (Nat.succ_le_succ ih)

/-- A literal with a backslash has fewer characters than bytes. -/
theorem tokens_lt_of_scanString {s raw rest : Bytes} (h : scanString s = some (raw, rest))
    (hraw : 92 ∈ raw) : tokens raw < raw.length := by
  induction s using scanString.induct generalizing raw with
  | case1 => simp at h
  | case2 s =>
      rw [scanString_quote] at h
      cases h
      exact absurd hraw List.not_mem_nil
  | case3 _ => simp [scanString] at h
  | case4 _ d s ih =>
      rw [scanString_backslash, Option.map_eq_some_iff] at h
      obtain ⟨p, hs, he⟩ := h
      cases he
      rw [tokens_pair]
      exact Nat.succ_lt_succ (Nat.lt_succ_of_le (tokens_le_length p.1))
  | case5 c s h₁ h₂ ih =>
      rw [scanString_plain h₁ h₂, Option.map_eq_some_iff] at h
      obtain ⟨p, hs, he⟩ := h
      cases he
      rw [tokens_plain h₂]
      exact Nat.succ_lt_succ (ih hs ((List.mem_cons.mp hraw).resolve_left (Ne.symm h₂)))

theorem unescape_of_notMem {s : Bytes} (h : 92 ∉ s) : unescape s = some s := by
  induction s with
  | nil => rfl
  | cons c s ih =>
      obtain ⟨hc, hs⟩ := List.ne_and_not_mem_of_not_mem_cons h
      rw [unescape_plain hc.symm, ih hs]
      rfl

end KernelTests.Json
