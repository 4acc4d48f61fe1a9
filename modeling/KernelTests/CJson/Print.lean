import KernelTests.CJson.PrintBuffer

/-!
# Printing a tree

`print_value` and `cJSON_PrintUnformatted`.  A tree that stands for a value is printed as
`Json.print` prints the value, into a block that is exactly as long as the text, and it is
not changed; if a request fails on the way, nothing of the text is left behind.
-/

namespace KernelTests.CJson

open Memory

variable {A ν : Type} [DecidableEq A] [CDouble ν] (M : Allocator A (Cell A ν))

/-! ## The program -/

/-- The loop of `print_array` -/
def printElements (printValue : Option A → PrintBuffer A → Action A ν (Printed A)) :
    ℕ → (currentElement : Option A) → PrintBuffer A → Action A ν (Printed A)
  | 0, _, _ => failure
  | fuel + 1, currentElement, p => do
    if currentElement.isSome then
      orFail (printValue currentElement p) fun p ↦ do
        let p ← updateOffset p
        let next := (← loadNode currentElement).next
        if next.isSome then
          orFail (ensure M p 2) fun p ↦ do
            storeBytes p.buffer p.offset [44, 0]
            printElements printValue fuel next { p with offset := p.offset + 1 }
        else printElements printValue fuel next p
    else return (true, p)

/-- Print a character and move behind it; there is no terminator yet. -/
def printChar (c : UInt8) (room : ℕ) (p : PrintBuffer A) : Action A ν (Printed A) :=
  orFail (ensure M p room) fun p ↦ do
    storeBytes p.buffer p.offset [c]
    return (true, { p with offset := p.offset + 1 })

/-- `print_array` -/
def printArray (printValue : Option A → PrintBuffer A → Action A ν (Printed A)) (n : Node A ν)
    (p : PrintBuffer A) : Action A ν (Printed A) :=
  orFail (printChar M 91 1 p) fun p ↦
    orFail (walk fun fuel ↦ printElements M printValue fuel n.child p) fun p ↦
      orFail (ensure M p 2) fun p ↦ do
        storeBytes p.buffer p.offset [93, 0]
        return (true, p)

/-- The loop of `print_object` -/
def printMembers (printValue : Option A → PrintBuffer A → Action A ν (Printed A)) :
    ℕ → (currentItem : Option A) → PrintBuffer A → Action A ν (Printed A)
  | 0, _, _ => failure
  | fuel + 1, currentItem, p => do
    if currentItem.isSome then
      let n ← loadNode currentItem
      orFail (printStringPtr M n.string p) fun p ↦ do
        let p ← updateOffset p
        orFail (printChar M 58 1 p) fun p ↦
          orFail (printValue currentItem p) fun p ↦ do
            let p ← updateOffset p
            let next := (← loadNode currentItem).next
            let comma := if next.isSome then [44] else []
            orFail (ensure M p (comma.length + 1)) fun p ↦ do
              storeBytes p.buffer p.offset (comma ++ [0])
              printMembers printValue fuel next { p with offset := p.offset + comma.length }
    else return (true, p)

/-- `print_object` -/
def printObject (printValue : Option A → PrintBuffer A → Action A ν (Printed A)) (n : Node A ν)
    (p : PrintBuffer A) : Action A ν (Printed A) :=
  orFail (printChar M 123 2 p) fun p ↦
    orFail (walk fun fuel ↦ printMembers M printValue fuel n.child p) fun p ↦
      orFail (ensure M p 2) fun p ↦ do
        storeBytes p.buffer p.offset [125, 0]
        return (true, p)

/-- `print_value`; the fuel bounds the nesting. -/
def printValue : ℕ → Option A → PrintBuffer A → Action A ν (Printed A)
  | 0, _, _ => failure
  | fuel + 1, item, p => do
    if item.isNone then
      return (false, p)
    else
      let n ← loadNode item
      match n.kind with
      | .null => printConstant M (ascii "null") p
      | .false => printConstant M (ascii "false") p
      | .true => printConstant M (ascii "true") p
      | .number => printNumber M n p
      | .raw =>
        if n.valuestring.isNone then
          return (false, p)
        else
          let s ← loadText n.valuestring
          printConstant M s.bytes p
      | .string => printStringPtr M n.valuestring p
      | .array => printArray M (printValue fuel) n p
      | .object => printObject M (printValue fuel) n p
      | .invalid => return (false, p)

/-- `default_buffer_size` -/
def defaultBufferSize : ℕ := 256

/-- `print` -/
def print (item : Option A) : Action A ν (Option A) := do
  let buffer ← alloc M (.chars (.alloc defaultBufferSize))
  if buffer.isNone then
    return none
  else
    let (printed, p) ← walk fun fuel ↦
      printValue M fuel item ⟨buffer, defaultBufferSize, 0⟩
    if printed then
      let p ← updateOffset p
      let printed ← reallocChars M (p.offset + 1) p.buffer
      (if printed.isNone then free p.buffer else return ())
      return printed
    else
      (if p.buffer.isSome then free p.buffer else return ())
      return none

/-- `cJSON_PrintUnformatted` -/
def printUnformatted (item : Option A) : Action A ν (Option A) := print M item

variable {M}

/-! ## Parts of a value -/

omit [CDouble ν] in
theorem printChar_spec (c : UInt8) {room : ℕ} (hroom : 0 < room) {p : PrintBuffer A} {w : Bytes}
    {P : Multiset (A × Cell A ν)} (hp : p.At w P) (R : Multiset (A × Cell A ν)) :
    Spec (printChar M c room p) (P + R)
      (Prints (¬ M.Unfailing ∨ intMax < w.length + room + 1) R (·.At (w ++ [c]))) := by
  refine Spec.orFail (T := 0) (ensure_spec hp room R) (add_zero _).symm (add_zero R) id ?_
  rintro p _ ⟨a, rest, hbuffer, hoffset, hlength, hrest, rfl⟩
  refine Spec.storeBytes hbuffer hoffset (by rw [List.length_singleton]; omega) rfl
    (Spec.pure ⟨_, rfl, Or.inr ⟨rfl, a, _, hbuffer, ?_, ?_, ?_, rfl⟩⟩)
  · rw [List.length_append, hoffset, List.length_singleton]
  · rw [List.length_append, List.length_drop, List.length_singleton, hlength]
    omega
  · rw [List.length_drop, List.length_singleton]
    omega

/-- A tree is printed as a value, wherever it lies. -/
def PrintsValue (M : Allocator A (Cell A ν))
    (printValue : Option A → PrintBuffer A → Action A ν (Printed A)) (t : Item A ν) (v : Json ν) :
    Prop :=
  ∀ (next prev : Option A) (p : PrintBuffer A) (w : Bytes) (P : Multiset (A × Cell A ν)),
    p.At w P → Spec (printValue (some t.addr) p) (P + t.cells next prev)
      (Prints (Overlong M (w ++ v.print).length) (t.cells next prev) (·.Wrote w v.print))

/-- What the loop of `print_array` prints. -/
def elementsText : List (Json ν) → Bytes
  | [] => []
  | v :: vs => v.print ++ Json.printItems vs

theorem print_array (vs : List (Json ν)) :
    (Json.array vs).print = [91] ++ elementsText vs ++ [93] := by
  cases vs <;> simp [Json.print, elementsText]

/-- What the loop of `print_object` prints. -/
def membersText : List (CString × Json ν) → Bytes
  | [] => []
  | (k, v) :: ms => Json.printString k ++ [58] ++ v.print ++ Json.printMembers ms

theorem print_object (ms : List (CString × Json ν)) :
    (Json.object ms).print = [123] ++ membersText ms ++ [125] := by
  cases ms <;> simp [Json.print, membersText]

theorem printElements_spec
    {printValue : Option A → PrintBuffer A → Action A ν (Printed A)} {ts : List (Item A ν)}
    {vs : List (Json ν)} (h : List.Forall₂ (PrintsValue M printValue) ts vs) (prev : Option A)
    {fuel : ℕ} (hfuel : ts.length < fuel) {p : PrintBuffer A} {w : Bytes}
    {P : Multiset (A × Cell A ν)} (hp : p.At w P) :
    Spec (printElements M printValue fuel (first Item.addr none ts) p) (P + forest none prev ts)
      (Prints (Overlong M (w ++ elementsText vs).length) (forest none prev ts)
        (·.At (w ++ elementsText vs))) := by
  induction h generalizing prev fuel p w P with
  | nil =>
      obtain ⟨fuel, rfl⟩ := Nat.exists_eq_add_of_lt hfuel
      refine Spec.pure ⟨P, rfl, Or.inr ⟨rfl, ?_⟩⟩
      rwa [elementsText, List.append_nil]
  | @cons t v ts vs hv hvs ih =>
      obtain ⟨fuel, rfl⟩ : ∃ k, fuel = k + 1 := ⟨fuel - 1, by omega⟩
      rw [List.length_cons] at hfuel
      have hrest : forest none (some t.addr) ts + t.cells (first Item.addr none ts) prev =
          forest none prev (t :: ts) := by
        rw [forest_cons, add_comm]
      have hlen : (w ++ v.print).length ≤ (w ++ elementsText (v :: vs)).length := by
        simp only [elementsText, List.length_append]
        omega
      rw [first_cons, printElements, if_pos Option.isSome_some]
      refine Spec.orFail (hv _ prev p w P hp) (by rw [forest_cons, add_assoc])
        (forest_cons none prev t ts).symm (fun h ↦ h.mono hlen) fun p P₁ hp ↦ ?_
      refine Spec.bind (updateOffset_spec hp (Json.zero_notMem_print v) _) ?_
      rintro p _ ⟨P₂, rfl, hp, -⟩
      have hnode : (t.addr, Cell.node (t.node (first Item.addr none ts) prev)) ∈
          P₂ + forest none prev (t :: ts) := by
        rw [forest_cons]
        exact Multiset.mem_add.mpr (Or.inr (Multiset.mem_add.mpr (Or.inl (t.node_mem _ _))))
      refine Spec.loadNode_mem rfl hnode ?_
      cases hvs with
      | nil =>
          have hnil : w ++ elementsText [v] = w ++ v.print ++ elementsText ([] : List (Json ν)) := by
            simp [elementsText, Json.printItems]
          rw [hnil]
          exact Spec.prints_mono (ih (some t.addr) (by omega) hp) hrest id fun _ _ h ↦ h
      | @cons t' v' ts vs hv' hvs =>
          have hcons : w ++ elementsText (v :: v' :: vs) =
              w ++ v.print ++ [44] ++ elementsText (v' :: vs) := by
            simp [elementsText, Json.printItems]
          rw [hcons]
          have hnext : (t.node (first Item.addr none (t' :: ts)) prev).next = some t'.addr := rfl
          simp only [hnext, Option.isSome_some, if_true]
          refine Spec.orFail (T := 0) (ensure_spec hp 2 _) (add_zero _).symm (add_zero _)
            (fun h ↦ h.imp_right fun h ↦ ?_) fun p P₁ hp ↦ ?_
          · simp only [List.length_append, List.length_singleton] at h ⊢
            omega
          refine hp.store [44] (by simp) fun P₃ h ↦ ?_
          have hat : { p with offset := p.offset + 1 }.At (w ++ v.print ++ [44]) P₃ := by
            obtain ⟨a, rest, -, hoffset, -⟩ := hp
            exact (h 1 le_rfl).at_end (by rw [List.length_append, ← hoffset]; rfl)
          exact Spec.prints_mono (ih (some t.addr) (by omega) hat) hrest id fun _ _ h ↦ h

theorem printMembers_spec
    {printValue : Option A → PrintBuffer A → Action A ν (Printed A)} {ts : List (Item A ν)}
    {ms : List (CString × Json ν)} (h : List.Forall₂ (fun t m ↦
      t.fields.string.map StringBlock.value = some m.1 ∧ PrintsValue M printValue t m.2) ts ms)
    (prev : Option A) {fuel : ℕ} (hfuel : ts.length < fuel) {p : PrintBuffer A} {w : Bytes}
    {P : Multiset (A × Cell A ν)} (hp : p.At w P) :
    Spec (printMembers M printValue fuel (first Item.addr none ts) p) (P + forest none prev ts)
      (Prints (Overlong M (w ++ membersText ms).length) (forest none prev ts)
        (·.At (w ++ membersText ms))) := by
  induction h generalizing prev fuel p w P with
  | nil =>
      obtain ⟨fuel, rfl⟩ := Nat.exists_eq_add_of_lt hfuel
      refine Spec.pure ⟨P, rfl, Or.inr ⟨rfl, ?_⟩⟩
      rwa [membersText, List.append_nil]
  | @cons t m ts ms hm hms ih =>
      obtain ⟨k, v⟩ := m
      obtain ⟨hkey, hv⟩ := hm
      obtain ⟨key, hfields, rfl⟩ := Option.map_eq_some_iff.mp hkey
      obtain ⟨fuel, rfl⟩ : ∃ k, fuel = k + 1 := ⟨fuel - 1, by omega⟩
      rw [List.length_cons] at hfuel
      have hrest : forest none (some t.addr) ts + t.cells (first Item.addr none ts) prev =
          forest none prev (t :: ts) := by
        rw [forest_cons, add_comm]
      have hmem : ∀ {c : A × Cell A ν}, c ∈ t.cells (first Item.addr none ts) prev →
          c ∈ forest none prev (t :: ts) := by
        intro c hc
        rw [forest_cons]
        exact Multiset.mem_add.mpr (Or.inl hc)
      have hnode := t.node_mem (first Item.addr none ts) prev
      have hstring := t.string_mem hfields (first Item.addr none ts) prev
      have hzero := Json.zero_notMem_printString key.value
      have hname : (t.node (first Item.addr none ts) prev).string = some key.addr := by
        change t.fields.string.map StringBlock.addr = _
        rw [hfields]
        rfl
      have htext : membersText ((key.value, v) :: ms) =
          Json.printString key.value ++ [58] ++ v.print ++ Json.printMembers ms := rfl
      rw [first_cons, printMembers, if_pos Option.isSome_some]
      refine Spec.loadNode_mem rfl (Multiset.mem_add.mpr (Or.inr (hmem hnode))) ?_
      rw [hname]
      refine Spec.orFail (T := 0) (printStringPtr_spec (hmem hstring) hp) (add_zero _).symm
        (add_zero _) (fun h ↦ h.mono ?_) fun p P₁ hp ↦ ?_
      · simp only [htext, List.length_append]
        omega
      refine Spec.bind (updateOffset_spec hp hzero _) ?_
      rintro p _ ⟨P₂, rfl, hp, -⟩
      refine Spec.orFail (T := 0) (printChar_spec 58 (by decide) hp _) (add_zero _).symm
        (add_zero _) (fun h ↦ h.imp_right fun h ↦ ?_) fun p P₃ hp ↦ ?_
      · simp only [htext, List.length_append, List.length_singleton] at h ⊢
        omega
      refine Spec.orFail (hv _ prev p _ P₃ hp) (by rw [forest_cons, add_assoc])
        (forest_cons none prev t ts).symm (fun h ↦ h.mono ?_) fun p P₄ hp ↦ ?_
      · simp only [htext, List.length_append]
        omega
      refine Spec.bind (updateOffset_spec hp (Json.zero_notMem_print v) _) ?_
      rintro p _ ⟨P₅, rfl, hp, -⟩
      refine Spec.loadNode_mem rfl (Multiset.mem_add.mpr (Or.inr (hmem hnode))) ?_
      have hcomma : w ++ membersText ((key.value, v) :: ms) =
          w ++ Json.printString key.value ++ [58] ++ v.print ++
            (if (first Item.addr none ts).isSome then [44] else []) ++ membersText ms := by
        rw [htext]
        cases hms with
        | nil => simp [membersText, Json.printMembers]
        | @cons t' m' ts ms hm' hms => simp [membersText, Json.printMembers]
      have hnext : (t.node (first Item.addr none ts) prev).next = first Item.addr none ts := rfl
      simp only [hnext, hcomma]
      generalize (if (first Item.addr none ts).isSome then ([44] : Bytes) else []) = comma
      refine Spec.orFail (T := 0) (ensure_spec hp _ _) (add_zero _).symm (add_zero _)
        (fun h ↦ h.imp_right fun h ↦ ?_) fun p P₆ hp ↦ ?_
      · simp only [List.length_append, List.length_singleton] at h ⊢
        omega
      refine hp.store comma (Nat.le_succ _) fun P₇ h ↦ ?_
      have hat : { p with offset := p.offset + comma.length }.At
          (w ++ Json.printString key.value ++ [58] ++ v.print ++ comma) P₇ := by
        obtain ⟨a, rest, -, hoffset, -⟩ := hp
        exact (h comma.length le_rfl).at_end (by rw [List.length_append, ← hoffset])
      exact Spec.prints_mono (ih (some t.addr) (by omega) hat) hrest id fun _ _ h ↦ h

/-! ## Values -/

omit [CDouble ν] in
/-- The closing bracket. -/
theorem printClosing_spec (c : UInt8) {p : PrintBuffer A} {w u : Bytes}
    {P : Multiset (A × Cell A ν)} (hp : p.At (w ++ u) P) (R : Multiset (A × Cell A ν)) :
    Spec (orFail (ensure M p 2) fun p ↦ do
        storeBytes p.buffer p.offset [c, 0]
        return (true, p)) (P + R)
      (Prints (Overlong M (w ++ (u ++ [c])).length) R (·.Wrote w (u ++ [c]))) := by
  refine Spec.orFail (T := 0) (ensure_spec hp 2 R) (add_zero _).symm (add_zero R)
    (fun h ↦ h.imp_right fun h ↦ ?_) fun p P₁ hp ↦ ?_
  · simp only [List.length_append, List.length_singleton] at h ⊢
    omega
  · exact hp.store [c] (by simp) fun P₂ h ↦
      Spec.pure ⟨P₂, rfl, Or.inr ⟨rfl, (h 0 (Nat.zero_le _)).append⟩⟩

omit [DecidableEq A] [CDouble ν] in
/-- The text of a number fits the buffer it is printed into first. -/
theorem length_text_le [CNumber ν] (x : ν) : (CNumber.text x).length ≤ 25 := by
  rcases CNumber.text_spec x with h | h
  · rw [h]
    decide
  · exact h.short

omit [DecidableEq A] [CDouble ν] in
/-- The loop over the children of a node, inside the walk that bounds it. -/
theorem printChildren_spec {t : Item A ν} {next prev : Option A}
    {loop : ℕ → Option A → PrintBuffer A → Action A ν (Printed A)} {p : PrintBuffer A}
    {P : Multiset (A × Cell A ν)} {why : Prop}
    {good : PrintBuffer A → Multiset (A × Cell A ν) → Prop}
    (h : ∀ fuel, t.children.length < fuel →
      Spec (loop fuel (first Item.addr none t.children) p)
        (P + forest none (last Item.addr none t.children) t.children)
        (Prints why (forest none (last Item.addr none t.children) t.children) good)) :
    Spec (walk fun fuel ↦ loop fuel (first Item.addr none t.children) p)
      (P + t.cells next prev) (Prints why (t.cells next prev) good) := by
  refine Spec.prints_mono (Memory.Spec.walk fun fuel hfuel ↦ h fuel ?_)
    (t.cells_children next prev).symm id fun _ _ h ↦ h
  refine lt_of_le_of_lt (length_le_card_forest none (last Item.addr none t.children) _) ?_
  rw [Multiset.card_add] at hfuel
  omega

/-- An array is printed with its elements. -/
theorem printArray_spec {t : Item A ν} {vs : List (Json ν)}
    {printValue : Option A → PrintBuffer A → Action A ν (Printed A)}
    (h : List.Forall₂ (PrintsValue M printValue) t.children vs) (next prev : Option A)
    {p : PrintBuffer A} {w : Bytes} {P : Multiset (A × Cell A ν)} (hp : p.At w P) :
    Spec (printArray M printValue (t.node next prev) p) (P + t.cells next prev)
      (Prints (Overlong M (w ++ (Json.array vs).print).length) (t.cells next prev)
        (·.Wrote w (Json.array vs).print)) := by
  rw [print_array]
  refine Spec.orFail (T := 0) (printChar_spec 91 Nat.one_pos hp _) (add_zero _).symm
    (add_zero _) (fun h ↦ h.imp_right fun h ↦ ?_) fun p P₁ hp ↦ ?_
  · simp only [List.length_append, List.length_singleton] at h ⊢
    omega
  refine Spec.orFail (T := 0) (printChildren_spec (t := t) fun k hk ↦
    printElements_spec h _ hk hp) (add_zero _).symm (add_zero _) (fun h ↦ h.mono ?_) fun p P₂ hp ↦ ?_
  · simp only [List.length_append]
    omega
  rw [List.append_assoc] at hp
  exact printClosing_spec 93 hp _

/-- An object is printed with its members. -/
theorem printObject_spec {t : Item A ν} {ms : List (CString × Json ν)}
    {printValue : Option A → PrintBuffer A → Action A ν (Printed A)}
    (h : List.Forall₂ (fun t m ↦ t.fields.string.map StringBlock.value = some m.1 ∧
      PrintsValue M printValue t m.2) t.children ms) (next prev : Option A)
    {p : PrintBuffer A} {w : Bytes} {P : Multiset (A × Cell A ν)} (hp : p.At w P) :
    Spec (printObject M printValue (t.node next prev) p) (P + t.cells next prev)
      (Prints (Overlong M (w ++ (Json.object ms).print).length) (t.cells next prev)
        (·.Wrote w (Json.object ms).print)) := by
  rw [print_object]
  refine Spec.orFail (T := 0) (printChar_spec 123 Nat.two_pos hp _) (add_zero _).symm
    (add_zero _) (fun h ↦ h.imp_right fun h ↦ ?_) fun p P₁ hp ↦ ?_
  · simp only [List.length_append, List.length_singleton] at h ⊢
    omega
  refine Spec.orFail (T := 0) (printChildren_spec (t := t) fun k hk ↦
    printMembers_spec h _ hk hp) (add_zero _).symm (add_zero _) (fun h ↦ h.mono ?_) fun p P₂ hp ↦ ?_
  · simp only [List.length_append]
    omega
  rw [List.append_assoc] at hp
  exact printClosing_spec 125 hp _

omit [DecidableEq A] [CDouble ν] in
theorem Item.card_body_lt {t c : Item A ν} (h : c ∈ t.children) : c.body.card < t.body.card := by
  obtain ⟨a, d, cs⟩ := t
  have hle := Item.card_cells_le h none none none (last Item.addr none cs)
  rw [Item.card_cells] at hle
  exact (Nat.lt_of_succ_le hle).trans_le (Multiset.card_le_card (Multiset.le_add_left _ _))

/-- A tree is printed as the value it stands for. -/
theorem printValue_spec (t : Item A ν) : ∀ (fuel : ℕ) (v : Json ν), t.body.card < fuel →
    t.Shows v → PrintsValue M (printValue M fuel) t v := by
  induction t using Item.ind with
  | mk a d cs ih =>
      intro fuel v hfuel hv next prev p w P hp
      obtain ⟨fuel, rfl⟩ : ∃ k, fuel = k + 1 := ⟨fuel - 1, by omega⟩
      let t : Item A ν := .mk a d cs
      have hnode : (t.addr, Cell.node (t.node next prev)) ∈ P + t.cells next prev :=
        Multiset.mem_add.mpr (Or.inr (t.node_mem next prev))
      have hchild : ∀ c ∈ cs, c.body.card < fuel := fun c hc ↦
        (Item.card_body_lt (t := t) hc).trans_le (Nat.le_of_lt_succ hfuel)
      rw [printValue, if_neg (by simp)]
      refine Spec.loadNode_mem rfl hnode ?_
      cases v with
      | null =>
          rw [Item.Shows, Item.Carries] at hv
          have hkind : (t.node next prev).kind = .null := hv.1
          simp only [hkind]
          exact printConstant_spec _ hp _
      | bool b =>
          rw [Item.Shows, Item.Carries] at hv
          cases b with
          | false =>
              have hkind : (t.node next prev).kind = .false := hv.1
              simp only [hkind]
              exact printConstant_spec _ hp _
          | true =>
              have hkind : (t.node next prev).kind = .true := hv.1
              simp only [hkind]
              exact printConstant_spec _ hp _
      | number x =>
          rw [Item.Shows, Item.Carries] at hv
          obtain ⟨hkind, -, hd, hi, -⟩ := hv
          have hkind : (t.node next prev).kind = .number := hkind
          have htext : CDouble.numberText (t.node next prev).valuedouble
              (t.node next prev).valueint = CNumber.text x := by
            change CDouble.numberText d.valuedouble d.valueint = _
            rw [hd, hi]
            exact CDouble.numberText_eq x
          simp only [hkind]
          exact printNumber_spec _ htext (length_text_le x) hp _
      | string s =>
          rw [Item.Shows, Item.Carries] at hv
          obtain ⟨hkind, hs, -⟩ := hv
          obtain ⟨b, hb, rfl⟩ := Option.map_eq_some_iff.mp hs
          have hkind : (t.node next prev).kind = .string := hkind
          have hstring : (t.node next prev).valuestring = some b.addr := by
            change d.valuestring.map StringBlock.addr = _
            rw [hb]
            rfl
          simp only [hkind, hstring]
          exact printStringPtr_spec (t.valuestring_mem hb next prev) hp
      | array vs =>
          rw [Item.Shows, Item.Carries] at hv
          obtain ⟨hkind, -, hvs⟩ := hv
          have hkind : (t.node next prev).kind = .array := hkind
          simp only [hkind]
          refine printArray_spec (t := t) ?_ next prev hp
          refine ((List.forall₂_and_left _ _).mpr ⟨fun c hc ↦ hc, carryItems_iff.mp hvs⟩).imp ?_
          rintro c v ⟨hc, -, hv⟩
          exact ih c hc fuel v (hchild c hc) hv
      | object ms =>
          rw [Item.Shows, Item.Carries] at hv
          obtain ⟨hkind, -, hms⟩ := hv
          have hkind : (t.node next prev).kind = .object := hkind
          simp only [hkind]
          refine printObject_spec (t := t) ?_ next prev hp
          refine ((List.forall₂_and_left _ _).mpr ⟨fun c hc ↦ hc, carryMembers_iff.mp hms⟩).imp ?_
          rintro c m ⟨hc, hkey, hv⟩
          exact ⟨hkey, ih c hc fuel m.2 (hchild c hc) hv⟩

/-- The text of a tree in a block of its own, or the null pointer; nothing else is left. -/
theorem printUnformatted_spec {t : Item A ν} {v : Json ν} (h : t.Shows v)
    (next prev : Option A) :
    Spec (printUnformatted M (some t.addr)) (t.cells next prev) fun r P ↦
      (r = none ∧ P = t.cells next prev ∧ Overlong M v.print.length) ∨
      ∃ a, r = some a ∧ P = {(a, .chars (.ofCString (Json.printUnformatted v)))} +
        t.cells next prev := by
  refine Memory.Spec.alloc (fun hM ↦ Spec.pure (Or.inl ⟨rfl, rfl, Or.inl hM⟩)) fun a ↦ ?_
  rw [if_neg (by simp), Block.alloc_eq_written]
  have hbuffer : PrintBuffer.At ⟨some a, defaultBufferSize, 0⟩ []
      ({(a, .chars (.written [] (List.replicate defaultBufferSize none)))} :
        Multiset (A × Cell A ν)) :=
    ⟨a, _, rfl, rfl, by simp, by rw [List.length_replicate]; decide, rfl⟩
  refine Memory.Spec.bind (Memory.Spec.walk fun fuel hfuel ↦
    printValue_spec t fuel v ?_ h next prev _ _ _ hbuffer) ?_
  · rw [Multiset.card_add, t.card_cells] at hfuel
    omega
  rintro ⟨printed, p⟩ _ ⟨P₁, rfl, ⟨rfl, hfail, hwhy⟩ | ⟨rfl, hp⟩⟩
  · rw [List.nil_append] at hwhy
    simp only [Bool.false_eq_true, if_false]
    rcases hfail with ⟨hb, rfl⟩ | ⟨b, block, hb, rfl⟩
    · rw [hb, if_neg (by simp), zero_add]
      exact Spec.pure (Or.inl ⟨rfl, rfl, hwhy⟩)
    · rw [hb, if_pos (by simp)]
      exact Memory.Spec.free rfl rfl (Spec.pure (Or.inl ⟨rfl, rfl, hwhy⟩))
  · simp only [if_true]
    refine Memory.Spec.bind (updateOffset_spec hp (Json.zero_notMem_print v) _) ?_
    rintro p _ ⟨_, rfl, ⟨b, -, hb, hoffset, -⟩, ⟨b', rest, hb', -, -, -, rfl⟩⟩
    obtain rfl : b' = b := Option.some.inj (hb'.symm.trans hb)
    have hcut : (Block.written (v.print ++ [0]) rest).resize (p.offset + 1) =
        .ofCString (Json.printUnformatted v) := by
      rw [hoffset, List.nil_append, ← Json.bytes_printUnformatted]
      exact Block.resize_terminated _ _
    refine Memory.Spec.realloc hb rfl (fun hM ↦ ?_) fun c ↦ ?_
    · rw [if_pos Option.isNone_none]
      exact Memory.Spec.free hb rfl (Spec.pure (Or.inl ⟨rfl, rfl, Or.inl hM⟩))
    · rw [if_neg (by simp)]
      refine Spec.pure (Or.inr ⟨c, rfl, ?_⟩)
      rw [← hcut]
      rfl

end KernelTests.CJson
