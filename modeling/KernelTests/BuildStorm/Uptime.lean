import KernelTests.BuildStorm.Doubles
import KernelTests.BuildStorm.RoundTrip

/-!
# The clock of the test script

The script reads `/proc/uptime` before and after the build and has `awk` print the
difference.  A reading that is missing counts as zero there, which the judge takes for
a measurement.  Both `awk` and the judge compute with doubles here.
-/

namespace KernelTests.BuildStorm

open Python

/-! ## Readings -/

/-- A decimal number, as `/proc/uptime` shows it. -/
structure Decimal where
  whole : Str
  fraction : Str
  whole_ne_nil : whole ≠ []
  isDigit_whole : ∀ c ∈ whole, c.isDigit
  isDigit_fraction : ∀ c ∈ fraction, c.isDigit

/-- Its text. -/
def Decimal.text (d : Decimal) : Str :=
  d.whole ++ if d.fraction = [] then [] else '.' :: d.fraction

/-- The number that digits and decimals stand for. -/
def decimalValue (whole fraction : Str) : ℚ :=
  (value ((whole ++ fraction).map fun c ↦ c.toNat - 48) : ℚ) / 10 ^ fraction.length

/-- Its value. -/
def Decimal.value (d : Decimal) : ℚ := decimalValue d.whole d.fraction

/-- `$(cut -d' ' -f1 /proc/uptime 2>/dev/null)`; a reading may be missing. -/
def reading (t : Option Decimal) : Str := t.elim [] Decimal.text

/-! ## The difference -/

/-- The number a text of digits and a point starts with, zero if there is none. -/
def numericPrefix (s : Str) : ℚ :=
  decimalValue (s.takeWhile Char.isDigit) <|
    match s.dropWhile Char.isDigit with
    | '.' :: t => t.takeWhile Char.isDigit
    | _ => []

/-- `"..."+0` -/
def awkNumber (s : Str) : Python.Float := .double (.finite (numericPrefix s))

/-- `("$T1"+0)-("$T0"+0)` -/
def difference (t0 t1 : Str) : Python.Float := .double (.sub (awkNumber t1) (awkNumber t0))

/-- Two digits. -/
def twoDigits (n : ℕ) : Str := [Nat.digitChar (n / 10), Nat.digitChar (n % 10)]

/-- `printf "%.2f"` -/
def printfFixed : Python.Float → Str
  | .finite q =>
    let n := (roundHalfEven (q * 10 ^ 2)).natAbs
    (if q < 0 then ['-'] else []) ++ (Nat.toDigits 10 (n / 100) ++ '.' :: twoDigits (n % 100))
  | .inf negative => if negative then lit "-inf" else lit "inf"
  | .nan => lit "nan"

/-- `awk "BEGIN{printf \"%.2f\", (\"$T1\"+0)-(\"$T0\"+0)}"` -/
def awk (t0 t1 : Str) : Str := printfFixed (difference t0 t1)

example : awk (lit "0.00") (lit "3226.115") = lit "3226.11" := by decide +kernel

/-- `ELAPSED` -/
def elapsed (t0 t1 : Str) : Str := if awk t0 t1 = [] then lit "0" else awk t0 t1

theorem numericPrefix_nil : numericPrefix [] = 0 := by
  simp [numericPrefix, decimalValue, value]

theorem numericPrefix_text (d : Decimal) : numericPrefix d.text = d.value := by
  have hword : ∀ {s t : Str}, (∀ c ∈ s, c.isDigit) → (∀ c ∈ t.head?, ¬ c.isDigit) →
      (s ++ t).takeWhile Char.isDigit = s ∧ (s ++ t).dropWhile Char.isDigit = t :=
    fun hs ht ↦ Regex.takeWhile_word hs ht
  rw [Decimal.text, Decimal.value, numericPrefix]
  split
  · next h =>
    obtain ⟨htake, hdrop⟩ := hword (t := []) d.isDigit_whole (by simp)
    rw [htake, hdrop, h]
  · next h =>
    obtain ⟨htake, hdrop⟩ := hword (t := '.' :: d.fraction) d.isDigit_whole (by simp)
    have hfraction := (hword (t := []) d.isDigit_fraction (by simp)).1
    rw [List.append_nil] at hfraction
    rw [htake, hdrop]
    simp only [hfraction]

theorem isDigit_digitChar {n : ℕ} (h : n < 10) :
    (Nat.digitChar n).isDigit ∧ (Nat.digitChar n).toNat - 48 = n := by
  have hall : ∀ n < 10, (Nat.digitChar n).isDigit ∧ (Nat.digitChar n).toNat - 48 = n := by decide
  exact hall n h

theorem isDigit_of_mem_twoDigits {n : ℕ} (h : n < 100) : ∀ c ∈ twoDigits n, c.isDigit := by
  simp only [twoDigits, List.forall_mem_cons]
  exact ⟨(isDigit_digitChar (by omega)).1, (isDigit_digitChar (by omega)).1, List.forall_mem_nil _⟩

theorem value_twoDigits (whole : List ℕ) {n : ℕ} (h : n < 100) :
    value (whole ++ (twoDigits n).map fun c ↦ c.toNat - 48) = 100 * value whole + n := by
  have htens := (isDigit_digitChar (n := n / 10) (by omega)).2
  have hunits := (isDigit_digitChar (n := n % 10) (by omega)).2
  rw [value, List.foldl_append, twoDigits, List.map_cons, List.map_singleton, htens, hunits]
  change 10 * (10 * value whole + n / 10) + n % 10 = 100 * value whole + n
  omega

/-- The characters of a printed number. -/
theorem mem_printfFixed {q : ℚ} {c : Char} (h : c ∈ printfFixed (.finite q)) :
    c.isDigit ∨ c = '.' ∨ c = '-' := by
  simp only [printfFixed, List.mem_append, List.mem_cons] at h
  rcases h with h | h | h | h
  · split at h
    · exact .inr (.inr (List.mem_singleton.mp h))
    · cases h
  · exact .inl (isDigit_of_mem_toDigits h)
  · exact .inr (.inl h)
  · exact .inl (isDigit_of_mem_twoDigits (Nat.mod_lt _ (by decide)) c h)

theorem printfFixed_ne_nil (x : Python.Float) : printfFixed x ≠ [] := by
  rcases x with q | negative | _
  · simp [printfFixed]
  · cases negative <;> decide
  · decide

/-- A printed number is a value. -/
theorem isPlain_printfFixed (x : Python.Float) : IsPlain (printfFixed x) := by
  rcases x with q | negative | _
  · refine ⟨fun c hc ↦ ?_, fun h ↦ ?_⟩
    · rcases mem_printfFixed hc with h | rfl | rfl
      · simpa [isToken] using not_isSpace_of_isDigit h
      · decide
      · decide
    · have hb : 'B' ∈ compileWord := by decide
      rcases mem_printfFixed (h.subset hb) with h | h | h <;> revert h <;> decide
  · cases negative <;> decide
  · decide

/-! ## What the judge reads -/

section

variable [Unicode]

/-- Digits, a point and digits are a mantissa. -/
theorem mantissa_of_isDigit {whole fraction : Str} (hw : ∀ c ∈ whole, c.isDigit) (hne : whole ≠ [])
    (hf : ∀ c ∈ fraction, c.isDigit) (hnf : fraction ≠ []) :
    mantissa (whole ++ '.' :: fraction) = some (decimalValue whole fraction) := by
  have hpoint : ∀ c ∈ whole, decide (c ≠ '.') = true := by
    intro c hc
    refine decide_eq_true fun he ↦ ?_
    have hdigit := hw c hc
    rw [he] at hdigit
    exact absurd hdigit (by decide)
  have htake : (whole ++ '.' :: fraction).takeWhile (· ≠ '.') = whole ∧
      (whole ++ '.' :: fraction).dropWhile (· ≠ '.') = '.' :: fraction :=
    Regex.takeWhile_word hpoint (by simp)
  rw [mantissa, htake.1, htake.2, List.tail_cons, digitsOrNil, digitsOrNil, if_neg hne, if_neg hnf,
    digits_of_isDigit hne hw, digits_of_isDigit hnf hf]
  simp [hne, decimalValue]

/-- With a sign in front or not, it is a number. -/
theorem toFloat_of_isDigit {whole fraction : Str} (hw : ∀ c ∈ whole, c.isDigit) (hne : whole ≠ [])
    (hf : ∀ c ∈ fraction, c.isDigit) (hnf : fraction ≠ []) (negative : Bool) :
    toFloat ((if negative then ['-'] else []) ++ (whole ++ '.' :: fraction)) =
      some (.finite (if negative then -decimalValue whole fraction
        else decimalValue whole fraction)) := by
  have hchars : ∀ c ∈ whole ++ '.' :: fraction, c.isDigit ∨ c = '.' := by
    intro c hc
    rcases List.mem_append.mp hc with hc | hc
    · exact .inl (hw c hc)
    · exact (List.mem_cons.mp hc).symm.imp_left (hf c)
  have hspace : ∀ c ∈ (if negative then ['-'] else []) ++ (whole ++ '.' :: fraction),
      ¬ isSpace c := by
    intro c hc
    rcases List.mem_append.mp hc with hc | hc
    · split at hc
      · rw [List.mem_singleton.mp hc]
        decide
      · cases hc
    · rcases hchars c hc with hc | rfl
      · exact not_isSpace_of_isDigit hc
      · decide
  have hsign : sign ((if negative then ['-'] else []) ++ (whole ++ '.' :: fraction)) =
      (negative, whole ++ '.' :: fraction) := by
    cases negative with
    | true => rfl
    | false =>
        obtain ⟨d, whole, rfl⟩ := List.exists_cons_of_ne_nil hne
        have hd : d.isDigit := hw d List.mem_cons_self
        simp only [Bool.false_eq_true, if_false, List.nil_append, List.cons_append]
        rw [sign]
        · rintro _ ⟨⟩
          cases hd
        · rintro _ ⟨⟩
          cases hd
  have hspecial : ∀ w ∈ [lit "inf", lit "infinity", lit "nan"],
      lower (whole ++ '.' :: fraction) ≠ w := by
    intro w hw he
    have hmem : '.' ∈ lower (whole ++ '.' :: fraction) :=
      List.mem_map.mpr ⟨'.', by simp, by decide⟩
    have hall : ∀ w ∈ [lit "inf", lit "infinity", lit "nan"], '.' ∉ w := by decide
    exact hall w hw (he ▸ hmem)
  have hexponent : ∀ c ∈ whole ++ '.' :: fraction, decide (¬ (c = 'e' ∨ c = 'E')) = true := by
    intro c hc
    refine decide_eq_true ?_
    rintro (rfl | rfl)
    · rcases hchars _ hc with h | h <;> revert h <;> decide
    · rcases hchars _ hc with h | h <;> revert h <;> decide
  have htake := List.takeWhile_eq_self_iff.mpr hexponent
  have hdrop := List.dropWhile_eq_nil_iff.mpr hexponent
  simp only [List.forall_mem_cons] at hspecial
  rw [toFloat, strip_eq_self hspace, hsign]
  simp only [hspecial.1, hspecial.2.1, hspecial.2.2.1, or_self, if_false, htake, hdrop,
    mantissa_of_isDigit hw hne hf hnf, exponent]
  cases negative <;> simp

omit [Unicode] in
/-- The whole part and the decimals of a number of hundredths. -/
theorem decimalValue_hundredths (n : ℕ) :
    decimalValue (Nat.toDigits 10 (n / 100)) (twoDigits (n % 100)) = n / 10 ^ 2 := by
  have hvalue : value ((Nat.toDigits 10 (n / 100) ++ twoDigits (n % 100)).map
      fun c ↦ c.toNat - 48) = n := by
    rw [List.map_append, value_twoDigits _ (Nat.mod_lt _ (by decide)), value_map,
      Nat.ofDigitChars_ten_toDigits]
    exact Nat.div_add_mod n 100
  rw [decimalValue, hvalue]
  rfl

/-- A printed number is read back, rounded to two decimals. -/
theorem toFloat_printfFixed_finite (q : ℚ) :
    toFloat (printfFixed (.finite q)) = some (.finite (Python.round 2 q)) := by
  have hlt : (roundHalfEven (q * 10 ^ 2)).natAbs % 100 < 100 := Nat.mod_lt _ (by decide)
  have hread := toFloat_of_isDigit (fun c ↦ isDigit_of_mem_toDigits)
    (Nat.toDigits_ne_nil (n := (roundHalfEven (q * 10 ^ 2)).natAbs / 100))
    (isDigit_of_mem_twoDigits hlt) (List.cons_ne_nil _ _) (decide (q < 0))
  rw [decimalValue_hundredths] at hread
  have hzero : roundHalfEven 0 = 0 := roundHalfEven_intCast 0
  rw [printfFixed, Python.round]
  by_cases hq : q < 0
  · have hneg : roundHalfEven (q * 10 ^ 2) ≤ 0 :=
      hzero ▸ roundHalfEven_mono (mul_nonpos_of_nonpos_of_nonneg hq.le (by norm_num))
    have hcast : (((roundHalfEven (q * 10 ^ 2)).natAbs : ℕ) : ℚ) = -roundHalfEven (q * 10 ^ 2) := by
      rw [Nat.cast_natAbs, abs_of_nonpos hneg, Int.cast_neg]
    simp only [hq, decide_true, if_true, hcast, neg_div, neg_neg] at hread ⊢
    exact hread
  · have hpos : 0 ≤ roundHalfEven (q * 10 ^ 2) :=
      hzero ▸ roundHalfEven_mono (mul_nonneg (not_lt.mp hq) (by norm_num))
    have hcast : (((roundHalfEven (q * 10 ^ 2)).natAbs : ℕ) : ℚ) = roundHalfEven (q * 10 ^ 2) := by
      rw [Nat.cast_natAbs, abs_of_nonneg hpos]
    simp only [hq, decide_false, Bool.false_eq_true, if_false, hcast] at hread ⊢
    exact hread

theorem toFloat_printfFixed (x : Python.Float) :
    toFloat (printfFixed x) = some (.round 2 x) := by
  rcases x with q | negative | _
  · exact toFloat_printfFixed_finite q
  · cases negative <;> rw [toFloat, strip_eq_self (by decide)] <;> rfl
  · rw [toFloat, strip_eq_self (by decide)]
    rfl

end

/-- The script never falls back to its default. -/
theorem elapsed_eq (t0 t1 : Str) : elapsed t0 t1 = awk t0 t1 :=
  if_neg (printfFixed_ne_nil _)

/-! ## The record of a measured build -/

/-- The values the script prints for a successful build, for the readings of the clock, the number
of cores, the size of the artifact and the machine. -/
def measured (t0 t1 : Option Decimal) (cores : UInt64) (bytes : ℕ) (uname : Str) : Values where
  ok := true
  rc := none
  elapsed := elapsed (reading t0) (reading t1)
  nproc := Nat.toDigits 10 cores.toNat
  bytes := Nat.toDigits 10 bytes
  arch := axarch uname

/-- The seconds between two readings, as the script prints them. -/
def seconds (t0 t1 : Option Decimal) : Python.Float :=
  .round 2 (difference (reading t0) (reading t1))

/-- The doubles next to the readings are in range, and their difference, again as a double, has the
hundredths of the exact one. -/
structure SameHundredths (d0 d1 : Decimal) : Prop where
  first : |toDouble d0.value| < 2 ^ 1024
  second : |toDouble d1.value| < 2 ^ 1024
  difference : |toDouble (toDouble d1.value - toDouble d0.value)| < 2 ^ 1024
  round_eq : Python.round 2 (toDouble (toDouble d1.value - toDouble d0.value)) =
    Python.round 2 (d1.value - d0.value)

theorem awkNumber_reading (t : Option Decimal) :
    awkNumber (reading t) = .double (.finite (t.elim 0 Decimal.value)) := by
  cases t with
  | none => rw [reading, Option.elim_none, awkNumber, numericPrefix_nil, Option.elim_none]
  | some d => rw [reading, Option.elim_some, awkNumber, numericPrefix_text, Option.elim_some]

theorem Decimal.value_nonneg (d : Decimal) : 0 ≤ d.value :=
  div_nonneg (Nat.cast_nonneg _) (by positivity)

/-- Then, and only then, the script prints those hundredths. -/
theorem seconds_eq_iff (d0 d1 : Decimal) :
    seconds (some d0) (some d1) = .finite (Python.round 2 (d1.value - d0.value)) ↔
      SameHundredths d0 d1 := by
  rw [seconds, BuildStorm.difference, awkNumber_reading, awkNumber_reading, Option.elim_some,
    Option.elim_some]
  constructor
  · intro h
    obtain ⟨_, hdouble, hround⟩ := Python.Float.round_eq_finite h
    obtain ⟨_, hsub, hdifference, rfl⟩ := Python.Float.double_eq_finite_iff.mp hdouble
    obtain ⟨_, _, hread1, hread0, rfl⟩ := Python.Float.sub_eq_finite hsub
    obtain ⟨_, ⟨⟩, hsecond, rfl⟩ := Python.Float.double_eq_finite_iff.mp hread1
    obtain ⟨_, ⟨⟩, hfirst, rfl⟩ := Python.Float.double_eq_finite_iff.mp hread0
    exact ⟨hfirst, hsecond, hdifference, hround⟩
  · rintro ⟨h0, h1, hd, hr⟩
    have hdouble : ∀ {q : ℚ}, |toDouble q| < 2 ^ 1024 →
        Python.Float.double (.finite q) = .finite (toDouble q) :=
      fun h ↦ Python.Float.double_eq_finite_iff.mpr ⟨_, rfl, h, rfl⟩
    rw [hdouble h0, hdouble h1, Python.Float.sub, hdouble hd, Python.Float.round, hr]

/-! ### Readings with two decimals -/

/-- A reading as `/proc/uptime` shows it, of less than 2^43 seconds. -/
structure Decimal.IsUptime (d : Decimal) : Prop where
  fraction : d.fraction.length ≤ 2
  lt : d.value < 2 ^ 43

/-- It is a number of hundredths. -/
theorem Decimal.IsUptime.exists_eq {d : Decimal} (h : d.IsUptime) : ∃ n : ℤ, d.value = n / 100 := by
  refine ⟨Python.value ((d.whole ++ d.fraction).map fun c ↦ c.toNat - 48) *
    10 ^ (2 - d.fraction.length), ?_⟩
  have hpow : (10 : ℚ) ^ (2 - d.fraction.length) * 10 ^ d.fraction.length = 100 := by
    rw [← pow_add, Nat.sub_add_cancel h.fraction]
    norm_num
  rw [Decimal.value, decimalValue, div_eq_div_iff (by positivity) (by norm_num)]
  push_cast
  rw [mul_assoc, hpow]

/-- What is near a number of hundredths is rounded to it. -/
theorem round_eq_of_near {q : ℚ} {n : ℤ} (h : |q - n / 100| < 1 / 200) :
    Python.round 2 q = n / 100 := by
  have hround : roundHalfEven (q * 10 ^ 2) = n := by
    refine roundHalfEven_of_abs_lt ?_
    have hscale : q * 10 ^ 2 - n = (q - n / 100) * 100 := by ring
    rw [hscale, abs_mul, abs_of_pos (by norm_num : (0 : ℚ) < 100)]
    linarith
  rw [Python.round, hround]
  norm_num

/-- The hundredths between such readings are exact. -/
theorem sameHundredths_of_isUptime {d0 d1 : Decimal} (h0 : d0.IsUptime) (h1 : d1.IsUptime) :
    SameHundredths d0 d1 := by
  have hread : ∀ {d : Decimal}, d.IsUptime → awkNumber (reading (some d)) =
      .finite (toDouble d.value) ∧ |toDouble d.value - d.value| ≤ 1 / 1000 := by
    intro d h
    rw [awkNumber_reading]
    refine double_of_abs_le ?_
    rw [Option.elim_some, abs_of_nonneg d.value_nonneg]
    linarith [h.lt]
  obtain ⟨hnumber0, herror0⟩ := hread h0
  obtain ⟨hnumber1, herror1⟩ := hread h1
  obtain ⟨n0, hn0⟩ := h0.exists_eq
  obtain ⟨n1, hn1⟩ := h1.exists_eq
  rw [abs_le] at herror0 herror1
  obtain ⟨hdifference, herror⟩ := double_of_abs_le (q := toDouble d1.value - toDouble d0.value) (by
    have hnonneg0 := d0.value_nonneg
    have hnonneg1 := d1.value_nonneg
    have hlt0 := h0.lt
    have hlt1 := h1.lt
    rw [abs_le]
    constructor <;> linarith)
  rw [abs_le] at herror
  have hcast : ((n1 - n0 : ℤ) : ℚ) / 100 = n1 / 100 - n0 / 100 := by
    push_cast
    ring
  have hnear : |toDouble (toDouble d1.value - toDouble d0.value) - ((n1 - n0 : ℤ) : ℚ) / 100| <
      1 / 200 := by
    rw [hcast, ← hn0, ← hn1, abs_lt]
    constructor <;> linarith
  have hexact : Python.round 2 (d1.value - d0.value) = ((n1 - n0 : ℤ) : ℚ) / 100 := by
    refine round_eq_of_near ?_
    rw [hcast, hn0, hn1, sub_self, abs_zero]
    norm_num
  refine (seconds_eq_iff d0 d1).mp ?_
  rw [seconds, difference, hnumber0, hnumber1, Python.Float.sub, hdifference, Python.Float.round,
    round_eq_of_near hnear, hexact]

/-- A reading as `/proc/uptime` shows it is printed as it is, if it stands alone. -/
theorem seconds_none {d : Decimal} (h : d.IsUptime) : seconds none (some d) = .finite d.value := by
  obtain ⟨n, hn⟩ := h.exists_eq
  have hzero : Python.Float.double (.finite 0) = .finite 0 := by decide +kernel
  have hbound : |d.value| ≤ 2 ^ 43 := by
    rw [abs_of_nonneg d.value_nonneg]
    exact h.lt.le
  obtain ⟨hread, herror⟩ := double_of_abs_le (hbound.trans (by norm_num))
  rw [abs_le] at hbound herror
  obtain ⟨hdifference, herror'⟩ := double_of_abs_le (q := toDouble d.value) (by
    rw [abs_le]
    constructor <;> linarith)
  have hnear : |toDouble (toDouble d.value) - n / 100| < 1 / 200 := by
    rw [abs_le] at herror'
    rw [← hn, abs_lt]
    constructor <;> linarith
  rw [seconds, difference, awkNumber_reading, awkNumber_reading, Option.elim_none, Option.elim_some,
    hzero, hread, Python.Float.sub, sub_zero, hdifference, Python.Float.round,
    round_eq_of_near hnear, hn]

/-- What exhausts a baseline of two decimals. -/
theorem exhausted_seconds_iff {d : Decimal} {b : ℚ} (hd : d.IsUptime) (hb : IsBaseline b) :
    Exhausted (seconds none (some d)) b ↔ 2 * b - b / 2400 ≤ d.value := by
  obtain ⟨n, hn⟩ := hd.exists_eq
  rw [seconds_none hd]
  exact exhausted_iff hb hn d.value_nonneg hd.lt

/-! ### The score -/

section

variable (t0 t1 : Option Decimal) (cores : UInt64) (bytes : ℕ) (uname : Str)

theorem printed_measured : (measured t0 t1 cores bytes uname).Printed where
  rc _ h := nomatch h
  elapsed := by
    change IsPlain (elapsed _ _)
    rw [elapsed_eq]
    exact isPlain_printfFixed _
  elapsed_ne_nil := by
    change elapsed _ _ ≠ []
    rw [elapsed_eq]
    exact printfFixed_ne_nil _
  nproc c hc := by
    have hdigit : c.isDigit := isDigit_of_mem_toDigits hc
    refine ⟨fun hb ↦ not_isSpace_of_isDigit hdigit (isSpace_of_isBlank hb), ?_⟩
    rintro rfl
    exact absurd hdigit (by decide)
  bytes := by
    have hharmless := isHarmless_toDigits bytes
    exact ⟨hharmless.isValue, hharmless.markerless _ List.mem_cons_self⟩
  arch := by
    change axarch uname = _ ∨ axarch uname = _
    rw [axarch]
    split
    · exact .inr rfl
    · exact .inl rfl

theorem readable_measured : (measured t0 t1 cores bytes uname).Readable where
  rc := nofun
  nproc := (isHarmless_toDigits cores.toNat).isValue
  nproc_ne_nil := Nat.toDigits_ne_nil
  bytes := Nat.toDigits_ne_nil

variable [Unicode] {baselines : Baselines} {b : ℚ}

/-- The judge calls `time_score` with the seconds between the readings. -/
theorem scored_measured (hb : baselines.get (axarch uname) = some b) (hne : b ≠ 0) :
    scored baselines (measured t0 t1 cores bytes uname).fields.reverse =
      some (seconds t0 t1, b) := by
  have hread : toFloat (elapsed (reading t0) (reading t1)) = some (seconds t0 t1) := by
    rw [elapsed_eq, awk, toFloat_printfFixed, seconds]
  have hlookup : ∀ p ∈ (measured t0 t1 cores bytes uname).kept,
      (measured t0 t1 cores bytes uname).fields.reverse.lookup p.1 = some p.2 := fun p hp ↦
    Values.lookup_fields_reverse.mpr (Values.kept_subset_fields p hp)
  simp only [Values.kept, List.forall_mem_cons] at hlookup
  obtain ⟨_, _, helapsed, _, harch, _⟩ := hlookup
  have hok : compileOk (measured t0 t1 cores bytes uname).fields.reverse := Values.compileOk_fields
  have harchitecture : (measured t0 t1 cores bytes uname).arch = axarch uname := rfl
  have htime : (measured t0 t1 cores bytes uname).elapsed = elapsed (reading t0) (reading t1) := rfl
  rw [scored, if_pos hok, helapsed, harch, htime, Option.bind_eq_bind, Option.bind_some, hread,
    Option.bind_some, Option.getD_some, harchitecture, hb, Option.bind_eq_bind, Option.bind_some,
    if_pos hne]

omit [Unicode] in
theorem exists_baseline (baselines : Baselines) : ∃ b, baselines.get (axarch uname) = some b ∧
    (b = baselines.riscv64 ∨ b = baselines.loongarch64) := by
  have hne : lit "loongarch64" ≠ lit "riscv64" := by decide
  rw [axarch]
  split
  · exact ⟨baselines.loongarch64, by simp [Baselines.get, hne], .inr rfl⟩
  · exact ⟨baselines.riscv64, by simp [Baselines.get], .inl rfl⟩

/-- Only a real measurement earns points for the time: a missing reading earns none, and two
readings are scored as the time between them, rounded to two decimals. -/
structure ScoresMeasurement (baselines : Baselines) (t0 t1 : Option Decimal) (uname out : Str) :
    Prop where
  missing : t0 = none ∨ t1 = none → printedTimeScoreDouble baselines out = some (.finite 0)
  present : ∀ d0 ∈ t0, ∀ d1 ∈ t1, d0.value ≤ d1.value → ∀ b ∈ baselines.get (axarch uname),
    scored baselines (lastFields out) =
        some (.finite (Python.round 2 (d1.value - d0.value)), b) ∧
      printedTimeScoreDouble baselines out =
        some (timeScoreDouble (.finite (Python.round 2 (d1.value - d0.value))) b)

/-- What the judge works with, and what it prints. -/
theorem printed_measured_log (hb : baselines.get (axarch uname) = some b) (hne : b ≠ 0)
    {first last : Str} (hfirst : Unmarked first) (hlast : Unmarked last) :
    scored baselines (lastFields ((measured t0 t1 cores bytes uname).log first last)) =
        some (seconds t0 t1, b) ∧
      printedTimeScoreDouble baselines ((measured t0 t1 cores bytes uname).log first last) =
        some (timeScoreDouble (seconds t0 t1) b) := by
  have hfields : lastFields ((measured t0 t1 cores bytes uname).log first last) =
      (measured t0 t1 cores bytes uname).fields.reverse := by
    rw [lastFields, Values.matchedFields_log (printed_measured t0 t1 cores bytes uname)
      (readable_measured t0 t1 cores bytes uname) hfirst hlast]
    rfl
  have hcores : toInt (Nat.toDigits 10 cores.toNat) ≠ none := by
    have hlen : (Nat.toDigits 10 cores.toNat).length ≤ 20 :=
      (Nat.length_toDigits_le_iff (by decide) (by decide)).mpr (cores.toNat_lt.trans (by norm_num))
    rw [toInt_toDigits (hlen.trans (by norm_num))]
    exact Option.some_ne_none _
  have hgood : ¬ BadCores (measured t0 t1 cores bytes uname).fields.reverse := fun hbad ↦
    hcores ((Values.badCores_fields (readable_measured t0 t1 cores bytes uname)).mp hbad).2
  have hscored := scored_measured t0 t1 cores bytes uname hb hne
  rw [printedTimeScoreDouble, hfields, if_neg hgood, hscored]
  exact ⟨rfl, rfl⟩

omit [Unicode] in
/-- Without a second reading the time is not positive. -/
theorem notPositive_seconds_none : NotPositive (seconds t0 none).double := by
  have hround : Python.round 2 0 = 0 := round_of_mul_eq (z := 0) (by simp)
  have hdouble : ∀ {x : Python.Float}, NotPositive x → NotPositive (x.round 2).double := by
    rintro _ (rfl | ⟨q, hq, rfl, _⟩)
    · exact .inl rfl
    · exact notPositive_double ((round_mono 2 hq).trans_eq hround)
  refine hdouble ?_
  have hzero : Python.Float.double (.finite 0) = .finite 0 := by decide +kernel
  have hnonneg : 0 ≤ t0.elim 0 Decimal.value := by
    cases t0 with
    | none => exact le_refl (0 : ℚ)
    | some d0 => exact d0.value_nonneg
  rw [difference, awkNumber_reading, awkNumber_reading, Option.elim_none, hzero]
  rcases double_finite (t0.elim 0 Decimal.value) with hd | hd
  · rw [hd, Python.Float.sub, zero_sub]
    exact notPositive_double (neg_nonpos.mpr (toDouble_nonneg hnonneg))
  · rw [hd, decide_eq_false (not_lt.mpr hnonneg)]
    exact .inl rfl

/-- **Measurements.**  Only real measurements earn points for the time exactly if the second
reading is there, and the first one as well unless the second one alone exhausts the baseline, and
doubles do not carry the difference of two readings to other hundredths.  They never do that to
readings as `/proc/uptime` shows them, and such a reading exhausts a baseline of two decimals from
the exact bound on. -/
theorem scoresMeasurement_iff (hrv : 0 < toDouble baselines.riscv64)
    (hla : 0 < toDouble baselines.loongarch64) {first last : Str} (hfirst : Unmarked first)
    (hlast : Unmarked last) :
    (ScoresMeasurement baselines t0 t1 uname
        ((measured t0 t1 cores bytes uname).log first last) ↔
      ∃ d1, t1 = some d1 ∧
        (t0 = none → ∀ b ∈ baselines.get (axarch uname),
          Exhausted (seconds none (some d1)) b) ∧
        ∀ d0 ∈ t0, d0.value ≤ d1.value → SameHundredths d0 d1) ∧
      (∀ d0 d1 : Decimal, d0.IsUptime → d1.IsUptime → SameHundredths d0 d1) ∧
      ∀ (d : Decimal) (b : ℚ), d.IsUptime → IsBaseline b →
        (Exhausted (seconds none (some d)) b ↔ 2 * b - b / 2400 ≤ d.value) := by
  refine ⟨?_, fun _ _ ↦ sameHundredths_of_isUptime, fun _ _ ↦ exhausted_seconds_iff⟩
  obtain ⟨b, hb, harch⟩ := exists_baseline uname baselines
  have hpos : 0 < toDouble b := by
    rcases harch with rfl | rfl
    · exact hrv
    · exact hla
  have hne : b ≠ 0 := by
    rintro rfl
    rw [toDouble_zero] at hpos
    exact lt_irrefl _ hpos
  obtain ⟨hscored, hprinted⟩ := printed_measured_log t0 t1 cores bytes uname hb hne hfirst hlast
  constructor
  · rintro ⟨hzero, hpresent⟩
    cases t1 with
    | none =>
        have hfull := timeScoreDouble_of_notPositive (notPositive_seconds_none t0) hpos
        have hnone := hzero (.inr rfl)
        rw [hprinted, hfull] at hnone
        cases hnone
    | some d1 =>
        refine ⟨d1, rfl, ?_, ?_⟩
        · rintro rfl b' hb'
          obtain rfl := Option.some.inj (hb.symm.trans hb')
          have hnone := Option.some.inj (hprinted.symm.trans (hzero (.inl rfl)))
          exact (timeScoreDouble_eq_zero_iff _ b).mp hnone
        · intro d0 hd0 hle
          obtain rfl : t0 = some d0 := hd0
          have hcall := (hpresent d0 rfl d1 rfl hle b hb).1
          rw [hscored, Option.some.injEq, Prod.mk.injEq] at hcall
          exact (seconds_eq_iff d0 d1).mp hcall.1
  · rintro ⟨d1, rfl, hlate, hsame⟩
    refine ⟨fun hnone ↦ ?_, ?_⟩
    · obtain rfl : t0 = none := hnone.resolve_right (Option.some_ne_none _)
      rw [hprinted, (timeScoreDouble_eq_zero_iff _ b).mpr (hlate rfl b hb)]
    · intro d0 hd0 d1' hd1 hle b' hb'
      obtain rfl := Option.some.inj (hb.symm.trans hb')
      cases hd1
      obtain rfl : t0 = some d0 := hd0
      rw [hscored, hprinted, (seconds_eq_iff d0 d1).mpr (hsame d0 rfl hle)]
      exact ⟨rfl, rfl⟩

end

/-- A reading of whole seconds. -/
def wholeSeconds (n : ℕ) : Decimal where
  whole := Nat.toDigits 10 n
  fraction := lit "00"
  whole_ne_nil := toDigits_ne_nil n
  isDigit_whole _ hc := isDigit_of_mem_toDigits hc
  isDigit_fraction := by decide

theorem isUptime_wholeSeconds {n : ℕ} (h : n < 2 ^ 43) : (wholeSeconds n).IsUptime where
  fraction := le_refl 2
  lt := by
    have hvalue := decimalValue_hundredths (100 * n)
    rw [Nat.mul_div_cancel_left n (by norm_num), Nat.mul_mod_right] at hvalue
    change decimalValue (Nat.toDigits 10 n) (twoDigits 0) < 2 ^ 43
    rw [hvalue]
    push_cast
    have hlt : (n : ℚ) < 2 ^ 43 := by exact_mod_cast h
    linarith

/-- A build between two readings is scored by them. -/
theorem scoresMeasurement_wholeSeconds : @ScoresMeasurement asciiOnly referenceBaselines
    (some (wholeSeconds 100)) (some (wholeSeconds 500)) (lit "riscv64")
    ((measured (some (wholeSeconds 100)) (some (wholeSeconds 500)) 8 524288 (lit "riscv64")).log
      [] []) := by
  let _ := asciiOnly
  have hrv : 0 < toDouble referenceBaselines.riscv64 := by decide +kernel
  have hla : 0 < toDouble referenceBaselines.loongarch64 := by decide +kernel
  obtain ⟨hiff, hsame, _⟩ := scoresMeasurement_iff (some (wholeSeconds 100))
    (some (wholeSeconds 500)) 8 524288 (lit "riscv64") hrv hla unmarked_nil unmarked_nil
  refine hiff.mpr ⟨_, rfl, fun hnone ↦ absurd hnone (Option.some_ne_none _), ?_⟩
  rintro _ ⟨⟩ _
  exact hsame _ _ (isUptime_wholeSeconds (by norm_num)) (isUptime_wholeSeconds (by norm_num))

/-- Without a clock a build is given points for its time. -/
theorem not_scoresMeasurement_none : ¬ @ScoresMeasurement asciiOnly referenceBaselines none none
    (lit "riscv64") ((measured none none 8 524288 (lit "riscv64")).log [] []) := by
  let _ := asciiOnly
  rintro ⟨hzero, _⟩
  have hb : referenceBaselines.get (axarch (lit "riscv64")) = some referenceBaselines.riscv64 :=
    if_pos (by decide)
  have hne : referenceBaselines.riscv64 ≠ 0 := by norm_num [referenceBaselines]
  have hpos : 0 < toDouble referenceBaselines.riscv64 := by decide +kernel
  have hnone := hzero (.inl rfl)
  rw [(printed_measured_log none none 8 524288 (lit "riscv64") hb hne unmarked_nil unmarked_nil).2,
    timeScoreDouble_of_notPositive (notPositive_seconds_none none) hpos] at hnone
  cases hnone

end KernelTests.BuildStorm
