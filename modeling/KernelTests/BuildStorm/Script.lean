import KernelTests.BuildStorm.Logs
import KernelTests.Python.Decimal

/-!
# The test script

`buildstorm_testcode` prints one compile record.  Its values are texts that other
programs have printed: `nproc`, `awk`, `wc` and the exit status of the build, which
comes out of a file.
-/

namespace KernelTests.BuildStorm

open Python

/-! ## What the script prints -/

/-- `AXARCH`, for what `uname -m` prints. -/
def axarch (uname : Str) : Str :=
  if uname = lit "loongarch64" then lit "loongarch64" else lit "riscv64"

/-- `AXTGT`, for what `uname -m` prints. -/
def axtgt (uname : Str) : Str :=
  if uname = lit "loongarch64" then lit "loongarch64-unknown-linux-musl"
  else lit "riscv64gc-unknown-linux-musl"

/-- The fields of the record of a failed build. -/
def failureFields (rc elapsed nproc bytes arch : Str) : List (Str × Str) :=
  [(lit "mode", lit "multi"), (lit "ok", lit "false"), (lit "rc", rc), (lit "elapsed_s", elapsed),
    (lit "cores", nproc), (lit "bytes", bytes), (lit "arch", arch)]

/-- The fields of the record without a working directory. -/
def abortFields (nproc arch : Str) : List (Str × Str) :=
  [(lit "mode", lit "multi"), (lit "ok", lit "false"), (lit "elapsed_s", lit "0"),
    (lit "cores", nproc), (lit "bytes", lit "0"), (lit "arch", arch)]

/-- The fields of the record behind the timed build. -/
def buildFields (ok : Bool) (rc elapsed nproc bytes arch : Str) : List (Str × Str) :=
  if ok then successFields elapsed nproc bytes arch
  else failureFields rc elapsed nproc bytes arch

/-! ## Reading the fields back -/

/-- With distinct keys a lookup finds exactly the entries. -/
theorem lookup_eq_some_iff_mem {α β : Type} [BEq α] [LawfulBEq α] {l : List (α × β)}
    (h : (l.map Prod.fst).Nodup) {a : α} {b : β} : l.lookup a = some b ↔ (a, b) ∈ l := by
  rw [List.lookup_eq_some_iff]
  constructor
  · rintro ⟨l₁, l₂, rfl, _⟩
    exact List.mem_append_right l₁ List.mem_cons_self
  · intro hmem
    obtain ⟨l₁, l₂, rfl⟩ := List.append_of_mem hmem
    refine ⟨l₁, l₂, rfl, fun p hp ↦ ?_⟩
    rw [List.map_append, List.map_cons] at h
    have hne : p.1 ≠ a := fun he ↦
      (List.disjoint_of_nodup_append h) (List.mem_map_of_mem hp) (he ▸ List.mem_cons_self)
    simpa using hne.symm

/-- The dictionary of a list of fields with distinct keys has exactly these entries. -/
theorem lookup_reverse_eq_some_iff {l : List (Str × Str)} (h : (l.map Prod.fst).Nodup)
    {k v : Str} : l.reverse.lookup k = some v ↔ (k, v) ∈ l := by
  rw [lookup_eq_some_iff_mem, List.mem_reverse]
  rwa [List.map_reverse, List.nodup_reverse]

/-- The values that are read from printed fields. -/
theorem lookup_fieldsAt_eq_some_iff {l : List (Str × Str)} (h : ∀ p ∈ l, IsKey p.1 ∧ IsValue p.2)
    (hkeys : (l.map Prod.fst).Nodup) {k v : Str} :
    (fieldsAt (printFields l)).lookup k = some v ↔ (k, v) ∈ l.takeWhile (·.2 ≠ []) := by
  rw [fieldsAt_printFields h]
  exact lookup_reverse_eq_some_iff (hkeys.sublist ((List.takeWhile_sublist _).map _))

/-! ## Markers in printed fields -/

theorem markerless_append_cons {c : Char} (hc : ∀ w ∈ markers, c ∉ w) {s t : Str} :
    Markerless (s ++ c :: t) ↔ Markerless s ∧ Markerless t := by
  have hne : markers.all fun w ↦ w ≠ [] := by decide
  have hsplit : ∀ w ∈ markers, ¬ w <:+: s ++ c :: t ↔ ¬ w <:+: s ∧ ¬ w <:+: t := by
    intro w hw
    rw [Text.infix_append_cons_iff (of_decide_eq_true (List.all_eq_true.mp hne w hw)) (hc w hw),
      not_or]
  exact ⟨fun h ↦ ⟨fun w hw ↦ ((hsplit w hw).mp (h w hw)).1, fun w hw ↦ ((hsplit w hw).mp (h w hw)).2⟩,
    fun h w hw ↦ (hsplit w hw).mpr ⟨h.1 w hw, h.2 w hw⟩⟩

theorem markerless_printFields {l : List (Str × Str)}
    (h : ∀ p ∈ l, Markerless p.1 ∧ Markerless p.2) : Markerless (printFields l) := by
  have hequals : ∀ w ∈ markers, '=' ∉ w := by decide
  have hblank : ∀ w ∈ markers, ' ' ∉ w := by decide
  induction l using printFields.induct with
  | case1 => exact markerless_nil
  | case2 p => exact (markerless_append_cons hequals).mpr (h p List.mem_cons_self)
  | case3 p q l ih =>
      obtain ⟨hp, hl⟩ := List.forall_mem_cons.mp h
      exact (markerless_append_cons hblank).mpr ⟨(markerless_append_cons hequals).mpr hp, ih hl⟩

/-- A value that takes nothing away from a record. -/
structure IsHarmless (v : Str) : Prop where
  isValue : IsValue v
  markerless : Markerless v

theorem isHarmless_nil : IsHarmless [] := ⟨by decide, markerless_nil⟩

/-- A printed number contains no marker. -/
theorem isHarmless_of_isDigit {s : Str} (h : ∀ c ∈ s, c.isDigit) : IsHarmless s where
  isValue c hc := by simpa [isToken] using not_isSpace_of_isDigit (h c hc)
  markerless w hw hi := by
    have hall : markers.all fun w ↦ w.any fun c ↦ !c.isDigit := by decide
    obtain ⟨c, hc, hdigit⟩ := List.any_eq_true.mp (List.all_eq_true.mp hall w hw)
    rw [h c (hi.subset hc)] at hdigit
    cases hdigit

theorem isHarmless_toDigits (n : ℕ) : IsHarmless (Nat.toDigits 10 n) :=
  isHarmless_of_isDigit fun _ ↦ isDigit_of_mem_toDigits

theorem isHarmless_axarch (uname : Str) : IsHarmless (axarch uname) := by
  rw [axarch]
  split
  · exact ⟨by decide, by decide⟩
  · exact ⟨by decide, by decide⟩

theorem axarch_ne_nil (uname : Str) : axarch uname ≠ [] := by
  rw [axarch]
  split <;> decide

/-! ## The record behind the timed build -/

section Build

variable {ok : Bool} {rc elapsed nproc bytes arch : Str}

/-- The keys of a record. -/
theorem keys_buildFields : ((buildFields ok rc elapsed nproc bytes arch).map Prod.fst).Nodup ∧
    ∀ k ∈ (buildFields ok rc elapsed nproc bytes arch).map Prod.fst, IsKey k ∧ Markerless k := by
  have hall : ∀ k ∈ [lit "mode", lit "ok", lit "rc", lit "elapsed_s", lit "cores", lit "bytes",
      lit "arch"], IsKey k ∧ Markerless k := by
    simp only [List.forall_mem_cons]
    decide
  have hnodup : [lit "mode", lit "ok", lit "rc", lit "elapsed_s", lit "cores", lit "bytes",
      lit "arch"].Nodup := by decide
  have hsublist : List.Sublist ((buildFields ok rc elapsed nproc bytes arch).map Prod.fst)
      [lit "mode", lit "ok", lit "rc", lit "elapsed_s", lit "cores", lit "bytes", lit "arch"] := by
    cases ok with
    | true => exact ((List.sublist_cons_self (lit "rc") _).cons_cons _).cons_cons _
    | false => exact List.Sublist.refl _
  exact ⟨hnodup.sublist hsublist, fun k hk ↦ hall k (hsublist.subset hk)⟩

/-- The fields of a record without markers in its values. -/
theorem isHarmless_buildFields (hrc : IsHarmless rc) (he : IsHarmless elapsed)
    (hn : IsHarmless nproc) (hb : IsHarmless bytes) (ha : IsHarmless arch) :
    ∀ p ∈ buildFields ok rc elapsed nproc bytes arch,
      (IsKey p.1 ∧ Markerless p.1) ∧ IsHarmless p.2 := by
  intro p hp
  refine ⟨keys_buildFields.2 p.1 (List.mem_map_of_mem hp), ?_⟩
  have hmulti : IsHarmless (lit "multi") := ⟨by decide, by decide⟩
  have htrue : IsHarmless (lit "true") := ⟨by decide, by decide⟩
  have hfalse : IsHarmless (lit "false") := ⟨by decide, by decide⟩
  revert p
  cases ok with
  | true =>
      change ∀ p ∈ successFields elapsed nproc bytes arch, IsHarmless p.2
      simp only [successFields, List.forall_mem_cons]
      exact ⟨hmulti, htrue, he, hn, hb, ha, List.forall_mem_nil _⟩
  | false =>
      change ∀ p ∈ failureFields rc elapsed nproc bytes arch, IsHarmless p.2
      simp only [failureFields, List.forall_mem_cons]
      exact ⟨hmulti, hfalse, hrc, he, hn, hb, ha, List.forall_mem_nil _⟩

/-- A record says `ok=true` if the script found it so. -/
theorem compileOk_buildFields
    (h : ∀ p ∈ buildFields ok rc elapsed nproc bytes arch, IsKey p.1 ∧ IsValue p.2) :
    compileOk (fieldsAt (printFields (buildFields ok rc elapsed nproc bytes arch))) = ok := by
  have hlookup := lookup_fieldsAt_eq_some_iff h keys_buildFields.1 (k := lit "ok") (v := lit "true")
  have hmulti : lit "multi" ≠ [] := by decide
  have htrue : lit "true" ≠ [] := by decide
  rw [compileOk]
  cases ok with
  | true =>
      refine decide_eq_true (hlookup.mpr ?_)
      simp [buildFields, successFields, hmulti, htrue]
  | false =>
      refine decide_eq_false fun hsome ↦ ?_
      have hmem := (List.takeWhile_sublist _).subset (hlookup.mp hsome)
      have hkeys : ∀ k ∈ [lit "mode", lit "rc", lit "elapsed_s", lit "cores", lit "bytes",
          lit "arch"], lit "ok" ≠ k := by decide
      have hne : lit "true" ≠ lit "false" := by decide
      simp only [List.forall_mem_cons] at hkeys
      simp [buildFields, failureFields, hkeys, hne] at hmem

variable [Unicode]

/-- The number of cores of a record is what `nproc` has printed, as far as it is read. -/
theorem not_badCores_buildFields
    (h : ∀ p ∈ buildFields ok rc elapsed nproc bytes arch, IsKey p.1 ∧ IsValue p.2)
    (hn : nproc = [] ∨ (toInt nproc).isSome) :
    ¬ BadCores (fieldsAt (printFields (buildFields ok rc elapsed nproc bytes arch))) := by
  rintro ⟨_, hcores⟩
  have hlookup := fun v ↦ lookup_fieldsAt_eq_some_iff h keys_buildFields.1 (k := lit "cores") (v := v)
  rw [cores] at hcores
  cases hv : (fieldsAt (printFields (buildFields ok rc elapsed nproc bytes arch))).lookup
      (lit "cores") with
  | none => simp [hv] at hcores
  | some v =>
      have hmem := (hlookup v).mp hv
      have hne : v ≠ [] := by simpa using List.mem_takeWhile_imp hmem
      have hkeys : ∀ k ∈ [lit "mode", lit "ok", lit "rc", lit "elapsed_s", lit "bytes",
          lit "arch"], lit "cores" ≠ k := by decide
      have hmem' := (List.takeWhile_sublist _).subset hmem
      simp only [List.forall_mem_cons] at hkeys
      have hvalue : v = nproc := by
        cases ok with
        | true => simpa [buildFields, successFields, hkeys] using hmem'
        | false => simpa [buildFields, failureFields, hkeys] using hmem'
      rw [hv] at hcores
      simp only [hne, if_false] at hcores
      rcases hn with hn | hn
      · exact hne (hvalue.trans hn)
      · rw [← hvalue, hcores] at hn
        cases hn

end Build

end KernelTests.BuildStorm
