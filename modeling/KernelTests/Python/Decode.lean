import KernelTests.Python.Text
import KernelTests.Regex.Fields

/-!
# Reading bytes as text

A stream in a UTF-8 locale is decoded character by character.  What stands at a byte
that starts no character depends on the error handler: `strict` raises an exception,
`ignore` goes on behind the byte.  A file that is opened in text mode has its line ends
translated as well; standard input has not.
-/

namespace KernelTests.Python

/-- `str.encode` -/
def encode (s : Str) : List UInt8 := s.flatMap String.utf8EncodeChar

/-- The character at the front of some bytes. -/
def decodeChar (s : List UInt8) : Option Char := ByteArray.utf8DecodeChar? s.toByteArray 0

/-- What is read behind `n` bytes: characters, and bytes that start none. -/
def units : ℕ → List UInt8 → List (Option Char)
  | _, [] => []
  | n + 1, _ :: s => units n s
  | 0, b :: s => decodeChar (b :: s) ::
    units (((decodeChar (b :: s)).elim 1 Char.utf8Size) - 1) s

/-- `bytes.decode(errors="strict")`; a `UnicodeDecodeError` has no result. -/
def decode (s : List UInt8) : Option Str := (units 0 s).allSome

/-- `bytes.decode(errors="ignore")` -/
def decodeIgnore (s : List UInt8) : Str := (units 0 s).reduceOption

/-- Universal newlines; `cr` says that a carriage return has just been translated. -/
def newlinesFrom : Bool → Str → Str
  | _, [] => []
  | cr, c :: s =>
    if c = '\r' then '\n' :: newlinesFrom true s
    else if c = '\n' ∧ cr then newlinesFrom false s
    else c :: newlinesFrom false s

/-- Universal newlines: every line end becomes a single newline. -/
def newlines (s : Str) : Str := newlinesFrom false s

/-- `sys.stdin.read()` -/
def readStdin (input : List UInt8) : Option Str := decode input

/-- `open(p, errors="ignore").read()` -/
def readFile (content : List UInt8) : Str := newlines (decodeIgnore content)

/-! ## Encoded text -/

theorem encode_append (s t : Str) : encode (s ++ t) = encode s ++ encode t := List.flatMap_append

theorem encode_cons (c : Char) (s : Str) : encode (c :: s) = String.utf8EncodeChar c ++ encode s :=
  rfl

theorem decodeChar_encode (c : Char) (s : List UInt8) :
    decodeChar (String.utf8EncodeChar c ++ s) = some c := by
  rw [decodeChar, List.toByteArray_append]
  exact ByteArray.utf8DecodeChar?_utf8EncodeChar_append

theorem exists_of_decodeChar {c : Char} {s : List UInt8} (h : decodeChar s = some c) :
    ∃ t, s = String.utf8EncodeChar c ++ t := by
  obtain ⟨t, ht⟩ := ByteArray.exists_of_utf8DecodeChar?_eq_some h
  refine ⟨t.data.toList, ?_⟩
  have hlist := congrArg (fun b ↦ b.data.toList) ht
  simpa using hlist

theorem units_append (u s : List UInt8) : units u.length (u ++ s) = units 0 s := by
  induction u with
  | nil => rfl
  | cons b u ih => exact ih

/-- A character is read as one. -/
theorem units_encodeChar (c : Char) (s : List UInt8) :
    units 0 (String.utf8EncodeChar c ++ s) = some c :: units 0 s := by
  obtain ⟨b, u, hu⟩ : ∃ b u, String.utf8EncodeChar c = b :: u := by
    refine List.exists_cons_of_length_pos ?_
    rw [String.length_utf8EncodeChar]
    exact c.utf8Size_pos
  have hdecode := decodeChar_encode c s
  have hsize : c.utf8Size - 1 = u.length := by
    rw [← String.length_utf8EncodeChar, hu]
    rfl
  rw [hu, List.cons_append] at hdecode ⊢
  rw [units, hdecode, Option.elim_some, hsize, units_append]

theorem units_encode (s : Str) : units 0 (encode s) = s.map some := by
  induction s with
  | nil => rfl
  | cons c s ih => rw [encode_cons, units_encodeChar, ih, List.map_cons]

theorem encode_of_units {s : Str} {bytes : List UInt8} (h : units 0 bytes = s.map some) :
    encode s = bytes := by
  induction s generalizing bytes with
  | nil =>
      cases bytes with
      | nil => rfl
      | cons b bytes => cases h
  | cons c s ih =>
      obtain ⟨b, u, rfl⟩ : ∃ b u, bytes = b :: u := by
        cases bytes with
        | nil => cases h
        | cons b u => exact ⟨b, u, rfl⟩
      have hc : decodeChar (b :: u) = some c := (List.cons.inj h).1
      obtain ⟨t, ht⟩ := exists_of_decodeChar hc
      rw [ht, units_encodeChar] at h
      rw [encode_cons, ih (List.cons.inj h).2, ht]

theorem allSome_eq_some_iff {α : Type} {l : List (Option α)} {s : List α} :
    l.allSome = some s ↔ l = s.map some := by
  induction l generalizing s with
  | nil => cases s <;> simp [List.allSome]
  | cons o l ih =>
      rw [List.allSome, List.mapM_cons, ← List.allSome]
      cases o with
      | none => cases s <;> simp
      | some a =>
          rw [id, Option.bind_eq_bind, Option.bind_some, Option.bind_eq_bind, Option.bind_eq_some_iff]
          cases s with
          | nil => simp
          | cons b s => simp [ih, and_comm]

/-- Reading strictly inverts encoding, and nothing else can be read. -/
theorem decode_eq_some_iff {bytes : List UInt8} {s : Str} :
    decode bytes = some s ↔ encode s = bytes := by
  rw [decode, allSome_eq_some_iff]
  exact ⟨encode_of_units, fun h ↦ h ▸ units_encode s⟩

theorem decode_encode (s : Str) : decode (encode s) = some s := decode_eq_some_iff.mpr rfl

/-- On encoded text nothing is left out. -/
theorem decodeIgnore_encode (s : Str) : decodeIgnore (encode s) = s := by
  rw [decodeIgnore, units_encode]
  change (s.map some).filterMap id = s
  rw [List.filterMap_map, Function.id_comp, List.filterMap_some]

/-- The bytes are encoded text. -/
def IsUtf8 (bytes : List UInt8) : Prop := ∃ s, encode s = bytes

theorem isUtf8_iff {bytes : List UInt8} : IsUtf8 bytes ↔ (decode bytes).isSome := by
  rw [Option.isSome_iff_exists]
  exact exists_congr fun s ↦ decode_eq_some_iff.symm

instance : DecidablePred IsUtf8 := fun _ ↦ decidable_of_iff _ isUtf8_iff.symm

/-! ## Boundaries between characters -/

/-- Encoded text that has a first byte of a character in it falls apart there. -/
theorem encode_split {s : Str} {u v : List UInt8} {b : UInt8} (hb : b.IsUTF8FirstByte)
    (h : encode s = u ++ b :: v) : ∃ s' t', encode s' = u ∧ encode t' = b :: v ∧ s = s' ++ t' := by
  induction s generalizing u with
  | nil => cases u <;> cases h
  | cons c s ih =>
      by_cases hu : u = []
      · exact ⟨[], c :: s, by simp [hu, encode], by simpa [hu] using h, rfl⟩
      rw [encode_cons] at h
      have hsplit := List.append_eq_append_iff.mp h
      rcases hsplit with ⟨r, rfl, hr⟩ | ⟨r, hc, hr⟩
      · obtain ⟨s', t', rfl, ht, rfl⟩ := ih hr
        exact ⟨c :: s', t', rfl, ht, rfl⟩
      · cases r with
        | nil =>
            obtain ⟨s', t', hs, ht, rfl⟩ := ih (u := []) hr.symm
            refine ⟨c :: s', t', ?_, ht, rfl⟩
            rw [encode_cons, hs, hc, List.append_nil, List.append_nil]
        | cons b' r =>
            -- a byte in the middle of a character is not the first one
            obtain ⟨rfl, _⟩ := List.cons.inj hr
            have hlen : u.length < (String.utf8EncodeChar c).length := by simp [hc]
            have hget : (String.utf8EncodeChar c)[u.length] = b := by simp [hc]
            have hzero := UInt8.isUTF8FirstByte_getElem_utf8EncodeChar.mp (hget ▸ hb)
            exact absurd (List.length_eq_zero_iff.mp hzero) hu

theorem exists_first_byte (c : Char) (s : Str) :
    ∃ b v, b.IsUTF8FirstByte ∧ encode (c :: s) = b :: v := by
  have hpos : 0 < (String.utf8EncodeChar c).length := by
    rw [String.length_utf8EncodeChar]
    exact c.utf8Size_pos
  obtain ⟨b, u, hu⟩ := List.exists_cons_of_length_pos hpos
  refine ⟨b, u ++ encode s, ?_, by rw [encode_cons, hu, List.cons_append]⟩
  have hget : (String.utf8EncodeChar c)[0] = b := by simp [hu]
  rw [← hget]
  exact UInt8.isUTF8FirstByte_getElem_utf8EncodeChar.mpr rfl

/-- What is left behind encoded text that is cut off in front is encoded text. -/
theorem of_encode_eq_append {s w : Str} {v : List UInt8} (h : encode s = encode w ++ v) :
    ∃ t, encode t = v ∧ s = w ++ t := by
  induction w generalizing s with
  | nil => exact ⟨s, h, rfl⟩
  | cons c w ih =>
      rw [encode_cons, List.append_assoc] at h
      have hunits := units_encode s
      rw [h, units_encodeChar] at hunits
      cases s with
      | nil => cases hunits
      | cons d s =>
          obtain ⟨he, _⟩ := List.cons.inj hunits
          obtain rfl := Option.some.inj he
          obtain ⟨t, ht, rfl⟩ := ih (List.append_cancel_left h)
          exact ⟨t, ht, rfl⟩

/-- Encoded text with an encoded word in it falls apart around the word. -/
theorem encode_eq_append_encode {s w : Str} (hw : w ≠ []) {u v : List UInt8}
    (h : encode s = u ++ (encode w ++ v)) :
    ∃ s' t', encode s' = u ∧ encode t' = v ∧ s = s' ++ (w ++ t') := by
  obtain ⟨c, w, rfl⟩ := List.exists_cons_of_ne_nil hw
  obtain ⟨b, r, hb, hr⟩ := exists_first_byte c w
  rw [hr, List.cons_append] at h
  obtain ⟨s', t, hs, ht, rfl⟩ := encode_split hb h
  rw [← List.cons_append, ← hr] at ht
  obtain ⟨t', ht', rfl⟩ := of_encode_eq_append ht
  exact ⟨s', t', hs, ht', rfl⟩

/-- An encoded word that does not occur in the bytes does not occur in their text. -/
theorem not_infix_of_encode {s w : Str} (h : ¬ encode w <:+: encode s) : ¬ w <:+: s := by
  rintro ⟨u, v, rfl⟩
  exact h ⟨encode u, encode v, by rw [encode_append, encode_append]⟩

/-! ## Line ends -/

/-- Text within a line. -/
def WithinLine (s : Str) : Prop := ∀ c ∈ s, c ≠ '\r' ∧ c ≠ '\n'

instance : DecidablePred WithinLine := fun s ↦ List.decidableBAll _ s

theorem newlinesFrom_cons {c : Char} (h : c ≠ '\r' ∧ c ≠ '\n') (cr : Bool) (s : Str) :
    newlinesFrom cr (c :: s) = c :: newlines s := by
  rw [newlinesFrom, if_neg h.1, if_neg fun hc ↦ h.2 hc.1, newlines]

theorem newlines_append {u : Str} (hu : WithinLine u) (s : Str) :
    newlines (u ++ s) = u ++ newlines s := by
  induction u with
  | nil => rfl
  | cons c u ih =>
      obtain ⟨hc, hu⟩ := List.forall_mem_cons.mp hu
      rw [List.cons_append, newlines, newlinesFrom_cons hc, ih hu, List.cons_append]

/-- What stands at the front of a line stands there before the translation. -/
theorem eq_append_of_newlines {w s t : Str} (hw : WithinLine w) (h : newlines s = w ++ t) :
    ∃ r, s = w ++ r ∧ newlines r = t := by
  induction w generalizing s with
  | nil => exact ⟨s, rfl, h⟩
  | cons c w ih =>
      obtain ⟨hc, hw'⟩ := List.forall_mem_cons.mp hw
      cases s with
      | nil => cases h
      | cons d s =>
          by_cases hd : d ≠ '\r' ∧ d ≠ '\n'
          · rw [newlines, newlinesFrom_cons hd] at h
            obtain ⟨rfl, htail⟩ := List.cons.inj h
            obtain ⟨r, rfl, hr⟩ := ih hw' htail
            exact ⟨r, rfl, hr⟩
          · have hnewline : '\n' = c := by
              rw [newlines, newlinesFrom] at h
              rcases not_and_or.mp hd with hd | hd
              · rw [if_pos (not_not.mp hd)] at h
                exact (List.cons.inj h).1
              · rw [not_not.mp hd, if_neg (by decide), if_neg (by simp)] at h
                exact (List.cons.inj h).1
            exact absurd hnewline.symm hc.2

/-- A translated line end looks like the one it comes from. -/
theorem head?_newlines {p : Char → Bool} (hp : p '\r' = p '\n') (s : Str) :
    (newlines s).head?.map p = s.head?.map p := by
  cases s with
  | nil => rfl
  | cons c s =>
      rw [newlines, newlinesFrom]
      split
      · next hc => simp [hc, hp]
      · simp

theorem takeWhile_newlines {p : Char → Bool} (hr : ¬ p '\r') (hn : ¬ p '\n') (s : Str) :
    (newlines s).takeWhile p = s.takeWhile p ∧
      (newlines s).dropWhile p = newlines (s.dropWhile p) := by
  have hline : WithinLine (s.takeWhile p) := by
    intro c hc
    have hpc := List.mem_takeWhile_imp hc
    exact ⟨fun he ↦ hr (he ▸ hpc), fun he ↦ hn (he ▸ hpc)⟩
  have hhead : ∀ c ∈ (newlines (s.dropWhile p)).head?, ¬ p c := by
    intro c hc
    have hmap := head?_newlines (p := p) (by simp [hr, hn]) (s.dropWhile p)
    have hdrop := List.head?_dropWhile_not p s
    rw [Option.mem_def.mp hc] at hmap
    cases hs : (s.dropWhile p).head? with
    | none => rw [hs] at hmap; cases hmap
    | some d =>
        rw [hs] at hmap hdrop
        rw [Option.some.inj hmap]
        simpa using hdrop
  have hsplit := newlines_append hline (s.dropWhile p)
  rw [List.takeWhile_append_dropWhile] at hsplit
  have hp : ∀ c ∈ s.takeWhile p, p c := fun c hc ↦ List.mem_takeWhile_imp hc
  rw [hsplit]
  exact Regex.takeWhile_word hp hhead

/-- White space with line ends in it. -/
theorem dropWhile_newlinesFrom {p : Char → Bool} (hr : p '\r') (hn : p '\n') (cr : Bool)
    (s : Str) : (newlinesFrom cr s).dropWhile p = newlines (s.dropWhile p) := by
  induction s generalizing cr with
  | nil => rfl
  | cons c s ih =>
      rw [newlinesFrom]
      split
      · next hc => rw [hc, List.dropWhile_cons_of_pos hn, List.dropWhile_cons_of_pos hr, ih]
      · next hne =>
        split
        · next hc => rw [hc.1, List.dropWhile_cons_of_pos hn, ih]
        · by_cases hc : p c
          · rw [List.dropWhile_cons_of_pos hc, List.dropWhile_cons_of_pos hc, ih]
          · have hline : c ≠ '\r' ∧ c ≠ '\n' := ⟨hne, fun he ↦ hc (he ▸ hn)⟩
            rw [List.dropWhile_cons_of_neg hc, List.dropWhile_cons_of_neg hc, newlines,
              newlinesFrom_cons hline]
            rfl

end KernelTests.Python
