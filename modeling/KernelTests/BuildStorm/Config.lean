import KernelTests.BuildStorm.Awards
import KernelTests.Python.Values

/-!
# The configuration file

The judge takes baselines from `config.json`, key by key, inside one `try` block whose
handler ignores every exception.  Here is what becomes of the baselines for every content
of the file, and for which contents they are all replaced or none, and can be scored
with.
-/

namespace KernelTests.BuildStorm

open Python

/-! ## Loading -/

/-- `BASELINES`, when any `float` may be one. -/
@[ext]
structure BaselineTable where
  riscv64 : Python.Float
  loongarch64 : Python.Float
deriving DecidableEq

/-- The table without a configuration file. -/
def builtinTable : BaselineTable :=
  ⟨.finite referenceBaselines.riscv64, .finite referenceBaselines.loongarch64⟩

/-- `BASELINES.get` -/
def BaselineTable.get (table : BaselineTable) (arch : Str) : Option Python.Float :=
  if arch = lit "riscv64" then some table.riscv64
  else if arch = lit "loongarch64" then some table.loongarch64
  else none

/-- The keys of the file. -/
def rvKey : Str := lit "baseline.rv_s"

/-- The key for the other architecture. -/
def laKey : Str := lit "baseline.la_s"

variable [Unicode]

/-- `if cfg.get(key) is not None: ... = float(cfg[key])`: the new baseline, if there is one.  An
exception has no result. -/
def override (cfg : Value) (key : Str) : Option (Option Python.Float) := do
  let value ← cfg.get key
  if value.isNone then return none
  else return some (← value.toFloat)

/-- `BASELINES` after the module is loaded.  A file that is missing or not JSON has no value. -/
def loadBaselines (config : Option Value) : BaselineTable :=
  match config with
  | none => builtinTable
  | some cfg =>
    match override cfg rvKey with
    | none => builtinTable
    | some rv =>
      let table := { builtinTable with riscv64 := rv.getD builtinTable.riscv64 }
      match override cfg laKey with
      | none => table
      | some la => { table with loongarch64 := la.getD table.loongarch64 }

/-! ## Scoring -/

/-- `time_score`, for any baseline that is not zero. -/
def timeScoreFloat (t baseline : Python.Float) : Python.Float :=
  .round 1 (.scale 120 (.clamp (.divide (.sub (.scale 2 baseline) t) baseline)))

/-- The time score of a build; an architecture without a baseline, or with zero, has none. -/
def BaselineTable.score (table : BaselineTable) (arch : Str) (t : Python.Float) : Python.Float :=
  match table.get arch with
  | some baseline => if baseline ≠ .finite 0 then timeScoreFloat t baseline else .finite 0
  | none => .finite 0

omit [Unicode] in
theorem timeScoreFloat_finite (t : Python.Float) (b : ℚ) :
    timeScoreFloat t (.finite b) = timeScore t b := by
  rw [timeScoreFloat, timeScore, Python.Float.divide_finite]
  exact congrArg (fun x ↦ Python.Float.round 1 (.scale 120 (.clamp (.div x b))))
    (Python.Float.sub_finite _ t)

/-- The table of finite baselines. -/
def Baselines.table (baselines : Baselines) : BaselineTable :=
  ⟨.finite baselines.riscv64, .finite baselines.loongarch64⟩

/-- Where the baselines are finite, this is the score `main` computes for a record. -/
theorem timePoints_eq_score (baselines : Baselines) {kv : Fields} {t : Python.Float}
    (h : (kv.lookup (lit "elapsed_s")).bind toFloat = some t) :
    timePoints baselines kv = baselines.table.score ((kv.lookup (lit "arch")).getD []) t := by
  have hget (arch : Str) : baselines.table.get arch = (baselines.get arch).map .finite := by
    rw [BaselineTable.get, Baselines.get]
    split_ifs <;> rfl
  rw [timePoints, BaselineTable.score, h, hget]
  cases baselines.get ((kv.lookup (lit "arch")).getD []) with
  | none => rfl
  | some b => simp [timeScoreFloat_finite]

/-! ## What is asked for -/

/-- The override under a key: its value, unless it is missing or `None`. -/
def present (config : Option Value) (key : Str) : Option Value := do
  let value ← (← config).get key
  if value.isNone then none else some value

/-- A baseline holds its override; without one it has the value it had. -/
def Holds (value : Option Value) (builtin baseline : Python.Float) : Prop :=
  match value with
  | none => baseline = builtin
  | some value => value.toFloat = some baseline

/-- The table holds every override of the file. -/
def HoldsAll (config : Option Value) (table : BaselineTable) : Prop :=
  Holds (present config rvKey) builtinTable.riscv64 table.riscv64 ∧
    Holds (present config laKey) builtinTable.loongarch64 table.loongarch64

/-- A finite positive number. -/
def IsPositive : Python.Float → Prop
  | .finite q => 0 < q
  | _ => False

/-- All overrides are in force or none, every baseline is a finite positive number, and a slower
build never scores more than a faster one. -/
structure Sound (config : Option Value) : Prop where
  allOrNothing : loadBaselines config = builtinTable ∨ HoldsAll config (loadBaselines config)
  positive : IsPositive (loadBaselines config).riscv64 ∧ IsPositive (loadBaselines config).loongarch64
  fair : ∀ (arch : Str) (s t : ℚ), s ≤ t → Python.Float.lt
    ((loadBaselines config).score arch (.finite s)) ((loadBaselines config).score arch (.finite t)) =
      false

/-- Every override that comes into force is a finite positive number, and the first one does not come
into force alone. -/
def Harmless (config : Option Value) : Prop :=
  (∀ rv ∈ present config rvKey, ∀ x ∈ rv.toFloat, IsPositive x ∧
    (x = builtinTable.riscv64 ∨ ∀ la ∈ present config laKey, la.toFloat ≠ none)) ∧
  ∀ la ∈ present config laKey, (∀ rv ∈ present config rvKey, rv.toFloat ≠ none) →
    ∀ y ∈ la.toFloat, IsPositive y

/-! ## What is loaded -/

/-- What an override of a dictionary does. -/
theorem override_dict (members : List (Str × Value)) (key : Str) :
    override (.dict members) key = match present (some (.dict members)) key with
      | none => some none
      | some value => value.toFloat.map some := by
  obtain ⟨value, hvalue⟩ : ∃ value, (Value.dict members).get key = some value := ⟨_, rfl⟩
  cases hnone : value.isNone <;> cases hfloat : value.toFloat <;>
    simp [override, present, hvalue, hnone, hfloat]

/-- The baselines that are loaded: an override that cannot be converted leaves its own baseline and
the ones behind it as they were. -/
theorem loadBaselines_eq (config : Option Value) : loadBaselines config =
    { riscv64 := ((present config rvKey).bind Value.toFloat).getD builtinTable.riscv64
      loongarch64 := if ∃ rv ∈ present config rvKey, rv.toFloat = none then builtinTable.loongarch64
        else ((present config laKey).bind Value.toFloat).getD builtinTable.loongarch64 } := by
  rcases config with _ | cfg
  · simp [present, loadBaselines]
  cases cfg with
  | dict members =>
      simp only [loadBaselines, override_dict]
      rcases present (some (.dict members)) rvKey with _ | rv
      · rcases present (some (.dict members)) laKey with _ | la
        · simp
        · cases h : la.toFloat <;> simp [h]
      · cases hrv : rv.toFloat with
        | none => simp [hrv]
        | some x =>
            rcases present (some (.dict members)) laKey with _ | la
            · simp [hrv]
            · cases h : la.toFloat <;> simp [hrv, h]
  | _ => simp [present, loadBaselines, override, Value.get]

omit [Unicode] in
theorem isPositive_builtinTable :
    IsPositive builtinTable.riscv64 ∧ IsPositive builtinTable.loongarch64 :=
  ⟨show (0 : ℚ) < 1616.09 by norm_num, show (0 : ℚ) < 1985.21 by norm_num⟩

/-- All overrides or none are in force exactly if the first one does not come into force alone. -/
theorem allOrNothing_iff (config : Option Value) :
    loadBaselines config = builtinTable ∨ HoldsAll config (loadBaselines config) ↔
      ∀ rv ∈ present config rvKey, ∀ x ∈ rv.toFloat,
        x = builtinTable.riscv64 ∨ ∀ la ∈ present config laKey, la.toFloat ≠ none := by
  rw [HoldsAll, loadBaselines_eq]
  rcases present config rvKey with _ | rv
  · rcases present config laKey with _ | la
    · simp [Holds]
    · cases h : la.toFloat <;> simp [Holds, h]
  · cases hrv : rv.toFloat with
    | none => simp [hrv]
    | some x =>
        rcases present config laKey with _ | la
        · simp [Holds, hrv]
        · cases h : la.toFloat <;> simp [Holds, hrv, h, BaselineTable.ext_iff]

/-- Which overrides come into force, and have to be positive. -/
theorem positive_iff (config : Option Value) :
    IsPositive (loadBaselines config).riscv64 ∧ IsPositive (loadBaselines config).loongarch64 ↔
      (∀ rv ∈ present config rvKey, ∀ x ∈ rv.toFloat, IsPositive x) ∧
      ∀ la ∈ present config laKey, (∀ rv ∈ present config rvKey, rv.toFloat ≠ none) →
        ∀ y ∈ la.toFloat, IsPositive y := by
  obtain ⟨hrv0, hla0⟩ := isPositive_builtinTable
  rw [loadBaselines_eq]
  rcases present config rvKey with _ | rv
  · rcases present config laKey with _ | la
    · simp [hrv0, hla0]
    · cases h : la.toFloat <;> simp [h, hrv0, hla0]
  · cases hrv : rv.toFloat with
    | none => simp [hrv, hrv0, hla0]
    | some x =>
        rcases present config laKey with _ | la
        · simp [hrv, hla0]
        · cases h : la.toFloat <;> simp [hrv, h, hla0]

/-! ## Scores -/

omit [Unicode] in
/-- With a positive baseline a slower build does not score more. -/
theorem timeScore_antitone {b s t : ℚ} (hb : 0 < b) (h : s ≤ t) :
    Python.Float.lt (timeScore (.finite s) b) (timeScore (.finite t) b) = false := by
  rw [timeScore_of_clamp (t := .finite s) (Python.Float.clamp_finite ((2 * b - s) / b)),
    timeScore_of_clamp (t := .finite t) (Python.Float.clamp_finite ((2 * b - t) / b))]
  have hq : (2 * b - t) / b ≤ (2 * b - s) / b := by gcongr
  have hround : Python.round 1 (120 * max 0 (min 1 ((2 * b - t) / b))) ≤
      Python.round 1 (120 * max 0 (min 1 ((2 * b - s) / b))) := round_mono 1 (by gcongr)
  exact decide_eq_false (not_lt.mpr hround)

omit [Unicode] in
/-- With a baseline that is not positive, every build gets full marks. -/
theorem timeScoreFloat_of_not_isPositive {x : Python.Float} (h : ¬ IsPositive x)
    (hzero : x ≠ .finite 0) {t : ℚ} (ht : 0 ≤ t) : timeScoreFloat (.finite t) x = .finite 120 := by
  have hround : Python.round 1 (120 * 1) = 120 := by
    rw [mul_one]
    exact round_one_natCast 120
  suffices hclamp : Python.Float.clamp (.divide (.sub (.scale 2 x) (.finite t)) x) = .finite 1 by
    rw [timeScoreFloat, hclamp]
    exact congrArg Python.Float.finite hround
  cases x with
  | finite b =>
      have hb : b < 0 := lt_of_le_of_ne (not_lt.mp h) fun hb ↦ hzero (congrArg _ hb)
      have hq : 1 ≤ (2 * b - t) / b := by
        rw [le_div_iff_of_neg hb]
        linarith
      exact (Python.Float.clamp_finite _).trans (congrArg _ (by
        rw [min_eq_left hq, max_eq_right zero_le_one]))
  | inf negative => exact Python.Float.clamp_nan
  | nan => exact Python.Float.clamp_nan

omit [Unicode] in
theorem exists_of_isPositive {x : Python.Float} (h : IsPositive x) : ∃ q, x = .finite q ∧ 0 < q := by
  cases x with
  | finite q => exact ⟨q, rfl, h⟩
  | _ => cases h

omit [Unicode] in
theorem score_antitone {table : BaselineTable}
    (h : IsPositive table.riscv64 ∧ IsPositive table.loongarch64) (arch : Str) {s t : ℚ}
    (hst : s ≤ t) : Python.Float.lt (table.score arch (.finite s)) (table.score arch (.finite t)) =
      false := by
  have hget : ∀ baseline ∈ table.get arch, IsPositive baseline := by
    intro baseline hbaseline
    rw [BaselineTable.get, Option.mem_def] at hbaseline
    split at hbaseline
    · exact Option.some.inj hbaseline ▸ h.1
    split at hbaseline
    · exact Option.some.inj hbaseline ▸ h.2
    · cases hbaseline
  rw [BaselineTable.score, BaselineTable.score]
  cases harch : table.get arch with
  | none => rfl
  | some baseline =>
      obtain ⟨b, rfl, hb⟩ := exists_of_isPositive (hget baseline harch)
      have hne : Python.Float.finite b ≠ .finite 0 := fun h ↦ hb.ne' (Python.Float.finite.inj h)
      simp only [if_pos hne, timeScoreFloat_finite]
      exact timeScore_antitone hb hst

/-- **The configuration file.**  For every content of the file, the overrides are all in force or
none, the baselines are positive and the scores fair, if and only if the overrides that come into
force are positive and the first one does not come into force alone. -/
theorem sound_iff (config : Option Value) : Sound config ↔ Harmless config := by
  have hharmless : Harmless config ↔
      (∀ rv ∈ present config rvKey, ∀ x ∈ rv.toFloat,
        x = builtinTable.riscv64 ∨ ∀ la ∈ present config laKey, la.toFloat ≠ none) ∧
      (∀ rv ∈ present config rvKey, ∀ x ∈ rv.toFloat, IsPositive x) ∧
      ∀ la ∈ present config laKey, (∀ rv ∈ present config rvKey, rv.toFloat ≠ none) →
        ∀ y ∈ la.toFloat, IsPositive y := by
    rw [Harmless, ← and_assoc, ← forall₂_and]
    refine and_congr_left fun _ ↦ forall₂_congr fun rv _ ↦ ?_
    rw [← forall₂_and]
    exact forall₂_congr fun x _ ↦ and_comm
  rw [hharmless, ← allOrNothing_iff, ← positive_iff]
  constructor
  · exact fun h ↦ ⟨h.allOrNothing, h.positive⟩
  · exact fun h ↦ ⟨h.1, h.2, fun arch _ _ hst ↦ score_antitone h.2 arch hst⟩

/-- A file in which the second override is not a number. -/
def halfConfig : Value :=
  .dict [(rvKey, .int 1000), (laKey, .str (lit "fast"))]

omit [Unicode] in
/-- Only the first override comes into force. -/
theorem not_sound_halfConfig :
    @loadBaselines asciiOnly (some halfConfig) = ⟨.finite 1000, builtinTable.loongarch64⟩ ∧
      ¬ @Sound asciiOnly (some halfConfig) := by
  let _ : Unicode := asciiOnly
  have hload : loadBaselines (some halfConfig) = ⟨.finite 1000, builtinTable.loongarch64⟩ := by
    decide +kernel
  refine ⟨hload, fun h ↦ ?_⟩
  have hla : present (some halfConfig) laKey = some (.str (lit "fast")) := rfl
  have hfloat : (Value.str (lit "fast")).toFloat = none := by decide +kernel
  have hall := h.allOrNothing
  rw [hload, HoldsAll, hla] at hall
  rcases hall with hbuiltin | ⟨_, hholds⟩
  · exact absurd (congrArg BaselineTable.riscv64 hbuiltin) (by decide +kernel)
  · cases hfloat.symm.trans hholds

end KernelTests.BuildStorm
