import KernelTests.CJson.ParseString

/-!
# Parsing into memory

`parse_value` and the functions around it, up to `cJSON_Parse`.  Each of them fills a node
that its caller has requested.  If it succeeds, the node has become a tree that stands for
what was read; if not, the node is as it was, and everything that was requested below it has
been released.
-/

namespace KernelTests.CJson

open Memory

variable {A ν : Type} [DecidableEq A] [CDouble ν] (M : Allocator A (Cell A ν))

/-! ## The program -/

/-- `parse_number` -/
def parseNumber (item : Option A) (b : ParseBuffer) : Action A ν (Bool × ParseBuffer) := do
  let numberCString := ((b.content.drop b.offset).take 63).takeWhile numberChar
  let n := strtodEnd numberCString
  if n = 0 then
    return (false, b)
  else
    let number := CNumber.strtod (numberCString.take n)
    modifyNode item fun n ↦ { n with valuedouble := number }
    modifyNode item fun n ↦ { n with valueint := valueintOf number }
    modifyNode item (·.setType .number)
    return (true, b.advance n)

/-- The label `fail` of `parse_array` and `parse_object` -/
def parseFail (head : Option A) (b : ParseBuffer) : Action A ν (Bool × ParseBuffer) := do
  (if head.isSome then delete head else return ())
  return (false, b)

/-- The label `success` of `parse_array` and `parse_object` -/
def parseSuccess (kind : Kind) (item head currentItem : Option A) (b : ParseBuffer) :
    Action A ν (Bool × ParseBuffer) := do
  (if head.isSome then modifyNode head fun n ↦ { n with prev := currentItem } else return ())
  modifyNode item (·.setType kind)
  modifyNode item fun n ↦ { n with child := head }
  return (true, { b with depth := b.depth - 1 }.advance 1)

/-- Attach the next item to the list; the head of the list. -/
def attach (head currentItem newItem : Option A) : Action A ν (Option A) := do
  if head.isNone then
    return newItem
  else
    suffixObject currentItem newItem
    return head

/-- A reader that fills a node. -/
abbrev Filler (A ν : Type) := Option A → ParseBuffer → Action A ν (Bool × ParseBuffer)

/-- The loops of `parse_array` and `parse_object`, and what stands behind them. -/
def parseChildren (fill : Filler A ν) (closing : UInt8) (kind : Kind) (item : Option A) :
    ℕ → (head currentItem : Option A) → ParseBuffer → Action A ν (Bool × ParseBuffer)
  | 0, _, _, _ => failure
  | fuel + 1, head, currentItem, b => do
    let newItem ← newItem M
    if newItem.isNone then
      parseFail head b
    else
      let head ← attach head currentItem newItem
      let (parsed, b) ← fill newItem b
      if !parsed then
        parseFail head b
      else
        let b := b.skipWhitespace
        if b.sees 44 then parseChildren fill closing kind item fuel head newItem b
        else if b.sees closing then parseSuccess kind item head newItem b
        else parseFail head b

/-- `parse_array` and `parse_object` behind the opening bracket. -/
def parseList (fill : Filler A ν) (closing : UInt8) (kind : Kind) (item : Option A)
    (b : ParseBuffer) : Action A ν (Bool × ParseBuffer) :=
  let b := (b.advance 1).skipWhitespace
  if b.sees closing then parseSuccess kind item none none b
  else if !b.canRead 1 then parseFail none b
  else parseChildren M fill closing kind item b.content.length none none b.back

/-- The next element, behind the bracket or the comma. -/
def parseElement (parseValue : Filler A ν) : Filler A ν := fun newItem b ↦
  parseValue newItem (b.advance 1).skipWhitespace

/-- `parse_array` -/
def parseArray (parseValue : Filler A ν) (item : Option A) (b : ParseBuffer) :
    Action A ν (Bool × ParseBuffer) := do
  if Json.nestingLimit ≤ b.depth then
    return (false, b)
  else
    let b := { b with depth := b.depth + 1 }
    if (← byteAt b.content b.offset) ≠ 91 then parseFail none b
    else parseList M (parseElement parseValue) 93 .array item b

/-- The next member, behind the brace or the comma.  The key is parsed as a string, which
is moved from `valuestring` to `string`. -/
def parseMember (parseValue : Filler A ν) : Filler A ν := fun newItem b ↦ do
  if !b.canRead 2 then
    return (false, b)
  else
    let (parsed, b) ← parseString M newItem (b.advance 1).skipWhitespace
    if !parsed then
      return (false, b)
    else
      let b := b.skipWhitespace
      modifyNode newItem fun n ↦ { n with string := n.valuestring }
      modifyNode newItem fun n ↦ { n with valuestring := none }
      if !b.sees 58 then return (false, b)
      else parseValue newItem (b.advance 1).skipWhitespace

/-- `parse_object` -/
def parseObject (parseValue : Filler A ν) (item : Option A) (b : ParseBuffer) :
    Action A ν (Bool × ParseBuffer) := do
  if Json.nestingLimit ≤ b.depth then
    return (false, b)
  else
    let b := { b with depth := b.depth + 1 }
    if !b.sees 123 then parseFail none b
    else parseList M (parseMember M parseValue) 125 .object item b

/-- `parse_value`, given itself for the children. -/
def parseStep (parseValue : Filler A ν) (item : Option A) (b : ParseBuffer) :
    Action A ν (Bool × ParseBuffer) := do
  if b.startsWith (ascii "null") then
    modifyNode item (·.setType .null)
    return (true, b.advance 4)
  else if b.startsWith (ascii "false") then
    modifyNode item (·.setType .false)
    return (true, b.advance 5)
  else if b.startsWith (ascii "true") then
    modifyNode item (·.setType .true)
    modifyNode item fun n ↦ { n with valueint := 1 }
    return (true, b.advance 4)
  else
    match b.content[b.offset]? with
    | none => return (false, b)
    | some c =>
      if c = 34 then parseString M item b
      else if c = 45 ∨ isDigit c then parseNumber item b
      else if c = 91 then parseArray M parseValue item b
      else if c = 123 then parseObject M parseValue item b
      else return (false, b)

/-- `parse_value`; the fuel bounds the nesting. -/
def parseValue : ℕ → Filler A ν
  | 0 => fun _ _ ↦ failure
  | fuel + 1 => parseStep M (parseValue fuel)

/-- `cJSON_Parse` -/
def parse (value : Option CString) : Action A ν (Option A) := do
  match value with
  | none => return none
  | some s =>
    let b : ParseBuffer := ⟨s.bytes ++ [0], 0, 0⟩
    let item ← newItem M
    if item.isNone then
      return none
    else
      let (parsed, _) ← parseValue M (Json.nestingLimit + 1) item b.skipBom.skipWhitespace
      if parsed then
        return item
      else
        delete item
        return none

variable {M}

/-! ## Numbers -/

/-- The NUL is no character of a number. -/
theorem takeWhile_numberChar_nul (s : Bytes) (n : ℕ) :
    ((s ++ [0]).take n).takeWhile numberChar = (s.take n).takeWhile numberChar := by
  induction s generalizing n with
  | nil => cases n <;> simp [numberChar, isDigit]
  | cons c s ih =>
      cases n with
      | zero => rfl
      | succ n =>
          rw [List.cons_append, List.take_succ_cons, List.take_succ_cons]
          by_cases hc : numberChar c
          · rw [List.takeWhile_cons_of_pos hc, List.takeWhile_cons_of_pos hc, ih]
          · rw [List.takeWhile_cons_of_neg hc, List.takeWhile_cons_of_neg hc]

/-- What becomes of a node that a value is parsed into: nothing, or a tree for the value. -/
def Parses (M : Allocator A (Cell A ν)) (b : ParseBuffer) (s : Bytes) (a : A) (d : Fields A ν)
    (next prev : Option A) (l : Option (Json ν × Bytes)) (r : Bool × ParseBuffer)
    (P : Multiset (A × Cell A ν)) : Prop :=
  (r.1 = false ∧ P = (Item.mk a d []).cells next prev ∧ (l = none ∨ ¬ M.Unfailing)) ∨
  ∃ v t, ∃ i : Item A ν, l = some (v, t) ∧ r.1 = true ∧ t.length < s.length ∧ b.MovedTo t r.2 ∧
    i.addr = a ∧ i.fields.string = d.string ∧ i.Denotes v ∧ P = i.cells next prev

/-- The fields of a node that was given a number. -/
def Fields.withNumber (d : Fields A ν) (number : ν) : Fields A ν :=
  { d with kind := .number, valuedouble := number, valueint := valueintOf number }

theorem parseNumber_spec {b : ParseBuffer} {s : Bytes} (hb : b.At s) (a : A) (d : Fields A ν)
    (next prev : Option A) (hd : d.valuestring = none) :
    Spec (parseNumber (some a) b) ((Item.mk a d []).cells next prev)
      (Parses M b s a d next prev (Json.parseNumber s)) := by
  have hchars : ((b.content.drop b.offset).take 63).takeWhile numberChar =
      (s.take 63).takeWhile numberChar := by
    rw [hb.content, takeWhile_numberChar_nul]
  rw [parseNumber, Json.parseNumber, hchars]
  simp only
  split
  · exact Spec.pure (Or.inl ⟨rfl, rfl, Or.inl rfl⟩)
  · next hn =>
      have hle := Json.strtodEnd_le ((s.take 63).takeWhile numberChar)
      have hlen : ((s.take 63).takeWhile numberChar).length ≤ s.length :=
        (List.takeWhile_sublist _).length_le.trans (List.take_sublist _ _).length_le
      generalize CNumber.strtod (ν := ν) (((s.take 63).takeWhile numberChar).take _) = x
      rw [Item.cells_leaf]
      refine Spec.modifyNode rfl rfl (Spec.modifyNode rfl rfl (Spec.modifyNode rfl rfl
        (Spec.pure (Or.inr ⟨_, _, .mk a (d.withNumber x) [], rfl, rfl, ?_,
          hb.advance (hle.trans hlen), rfl, rfl, ?_, ?_⟩))))
      · rw [List.length_drop]
        omega
      · rw [Item.Denotes, Item.Carries]
        exact ⟨rfl, hd, rfl, rfl, rfl⟩
      · rw [Item.cells_leaf]
        rfl

/-! ## Lists of children -/

omit [CDouble ν] in
/-- The next item stands at the end of the list. -/
theorem attach_spec (ts : List (Item A ν)) (c : Item A ν) :
    Spec (attach (first Item.addr none ts) (last Item.addr none ts) (some c.addr))
      (forest none none ts + c.cells none none) fun r P ↦
        r = first Item.addr none (ts ++ [c]) ∧ P = forest none none (ts ++ [c]) := by
  cases ts with
  | nil =>
      refine Spec.pure ⟨rfl, ?_⟩
      rw [forest_nil, zero_add, List.nil_append, forest_singleton]
  | cons t ts =>
      rw [attach, if_neg (by simp)]
      refine Spec.bind (suffixObject_spec c none none (List.cons_ne_nil t ts) rfl) ?_
      rintro _ _ rfl
      exact Spec.pure ⟨rfl, rfl⟩

omit [CDouble ν] in
/-- A list that cannot be finished is released. -/
theorem parseFail_spec (ts : List (Item A ν)) (b : ParseBuffer) :
    Spec (parseFail (first Item.addr none ts) b) (forest none none ts) fun r P ↦
      r.1 = false ∧ P = 0 := by
  cases ts with
  | nil => exact Spec.pure ⟨rfl, rfl⟩
  | cons t ts =>
      rw [parseFail, if_pos (by simp)]
      refine Spec.bind (delete_forest (t :: ts) none) ?_
      rintro _ _ rfl
      exact Spec.pure ⟨rfl, rfl⟩

/-- The fields of a node that was given a type. -/
def Fields.withKind (d : Fields A ν) (kind : Kind) : Fields A ν := { d with kind := kind }

omit [CDouble ν] in
/-- A finished list becomes the children of the node. -/
theorem parseSuccess_spec (kind : Kind) (a : A) (d : Fields A ν) (ts : List (Item A ν))
    (next prev : Option A) (b : ParseBuffer) :
    Spec (parseSuccess kind (some a) (first Item.addr none ts) (last Item.addr none ts) b)
      ((Item.mk a d []).cells next prev + forest none none ts) fun r P ↦
        r = (true, { b with depth := b.depth - 1 }.advance 1) ∧
          P = (Item.mk a (d.withKind kind) ts).cells next prev := by
  refine Memory.Spec.call (closeList_spec ts none) (add_comm _ _) ?_
  rintro _ _ rfl
  have hP : forest none (last Item.addr none ts) ts + (Item.mk a d []).cells next prev =
      {(a, .node (d.node none next prev))} + (d.cells + forest none (last Item.addr none ts) ts) := by
    rw [Item.cells_leaf]
    abel
  refine Spec.modifyNode rfl hP (Spec.modifyNode rfl rfl (Spec.pure ⟨rfl, ?_⟩))
  rw [Item.cells_mk]
  rfl

/-- A reader of children, given what is read as a child and what the child stands for. -/
def FillsChild {α : Type} (M : Allocator A (Cell A ν)) (one : Bytes → Option (α × Bytes))
    (D : Item A ν → α → Prop) (depth : ℕ) (fill : Filler A ν) : Prop :=
  ∀ (b : ParseBuffer) (s : Bytes), (b.advance 1).At s → b.depth = depth →
    ∀ (a : A) (prev : Option A),
      Spec (fill (some a) b) ((Item.mk a (.blank .invalid) []).cells none prev) fun r P ↦
        (r.1 = false ∧ (∃ i : Item A ν, i.addr = a ∧ P = i.cells none prev) ∧
          (one s = none ∨ ¬ M.Unfailing)) ∨
        ∃ x t, ∃ i : Item A ν, one s = some (x, t) ∧ r.1 = true ∧ t.length < s.length ∧
          b.MovedTo t r.2 ∧ i.addr = a ∧ D i x ∧ P = i.cells none prev

/-- What becomes of a node whose children are parsed. -/
def ParsesList {α : Type} (M : Allocator A (Cell A ν)) (D : Item A ν → α → Prop) (kind : Kind)
    (b : ParseBuffer) (s : Bytes) (a : A) (d : Fields A ν) (next prev : Option A)
    (l : Option (List α × Bytes)) (r : Bool × ParseBuffer) (P : Multiset (A × Cell A ν)) : Prop :=
  (r.1 = false ∧ P = (Item.mk a d []).cells next prev ∧ (l = none ∨ ¬ M.Unfailing)) ∨
  ∃ xs t cs, l = some (xs, t) ∧ r.1 = true ∧ t.length < s.length ∧
    { b with depth := b.depth - 1 }.MovedTo t r.2 ∧ List.Forall₂ D cs xs ∧
      P = (Item.mk a (d.withKind kind) cs).cells next prev

omit [DecidableEq A] [CDouble ν] in
/-- The head of a list does not change when its last node is filled. -/
theorem first_concat_of_addr (ts : List (Item A ν)) {c i : Item A ν} (h : i.addr = c.addr) :
    first Item.addr none (ts ++ [c]) = first Item.addr none (ts ++ [i]) := by
  rw [first_append, first_append, first_cons, first_cons, h]

omit [DecidableEq A] [CDouble ν] in
/-- The last node, put back to the list. -/
theorem cells_add_forest (ts : List (Item A ν)) (i : Item A ν) (R : Multiset (A × Cell A ν)) :
    i.cells none (last Item.addr none ts) + (forest (some i.addr) none ts + R) =
      R + forest none none (ts ++ [i]) := by
  rw [forest_concat]
  abel

omit [CDouble ν] in
/-- A list that cannot be finished leaves the node as it was. -/
theorem parseFail_children {α : Type} {D : Item A ν → α → Prop} {kind : Kind} {b : ParseBuffer}
    {s : Bytes} {a : A} {d : Fields A ν} {next prev : Option A} {l : Option (List α × Bytes)}
    (ts : List (Item A ν)) (b' : ParseBuffer) (hl : l = none ∨ ¬ M.Unfailing) :
    Spec (parseFail (first Item.addr none ts) b')
      ((Item.mk a d []).cells next prev + forest none none ts)
      (ParsesList M D kind b s a d next prev l) := by
  refine Memory.Spec.tail (parseFail_spec ts b') (add_comm _ _) ?_
  rintro r _ ⟨hr, rfl⟩
  exact Or.inl ⟨hr, zero_add _, hl⟩

omit [DecidableEq A] [CDouble ν] in
/-- Behind a comma: what becomes of the rest becomes of the whole list. -/
theorem ParsesList.cons {α : Type} {D : Item A ν → α → Prop} {kind : Kind} {b b' : ParseBuffer}
    {s s' : Bytes} {a : A} {d : Fields A ν} {next prev : Option A} {xs : List α} {x : α}
    {l : Option (List α × Bytes)} {r : Bool × ParseBuffer} {P : Multiset (A × Cell A ν)}
    (h : ParsesList M D kind b' s' a d next prev (l.map fun p ↦ (xs ++ [x] ++ p.1, p.2)) r P)
    (hcontent : b'.content = b.content) (hdepth : b'.depth = b.depth) (hlt : s'.length < s.length) :
    ParsesList M D kind b s a d next prev (l.map fun p ↦ (xs ++ x :: p.1, p.2)) r P := by
  have heq : (l.map fun p ↦ (xs ++ x :: p.1, p.2)) = l.map fun p ↦ (xs ++ [x] ++ p.1, p.2) := by
    simp
  rw [heq]
  refine h.imp_right ?_
  rintro ⟨ys, u, cs, hl, hr, hlt', hmoved, hcs, hP⟩
  exact ⟨ys, u, cs, hl, hr, hlt'.trans hlt, ⟨hmoved.content.trans hcontent,
    hmoved.depth.trans (congrArg (· - 1) hdepth), hmoved.left⟩, hcs, hP⟩

theorem parseChildren_spec {α : Type} {one : Bytes → Option (α × Bytes)}
    {D : Item A ν → α → Prop} {fill : Filler A ν} {b : ParseBuffer} {s : Bytes}
    (hfill : FillsChild M one D b.depth fill) (hb : (b.advance 1).At s) {closing : UInt8}
    (hclosing : closing ≠ 0) (kind : Kind) (a : A) (d : Fields A ν) (next prev : Option A)
    {ts : List (Item A ν)} {xs : List α} (hts : List.Forall₂ D ts xs) (fuel fuel' : ℕ)
    (hfuel : s.length < fuel) (hfuel' : s.length < fuel') :
    Spec (parseChildren M fill closing kind (some a) fuel (first Item.addr none ts)
        (last Item.addr none ts) b) ((Item.mk a d []).cells next prev + forest none none ts)
      (ParsesList M D kind b s a d next prev
        ((readList one closing fuel' s).map fun p ↦ (xs ++ p.1, p.2))) := by
  induction fuel generalizing b s ts xs fuel' with
  | zero => exact absurd hfuel (Nat.not_lt_zero _)
  | succ fuel ih =>
      obtain ⟨fuel', rfl⟩ : ∃ k, fuel' = k + 1 := ⟨fuel' - 1, by omega⟩
      rw [parseChildren, readList]
      refine Spec.newItem (fun hM ↦ parseFail_children ts b (Or.inr hM)) fun a₀ ↦ ?_
      rw [if_neg (by simp)]
      let c : Item A ν := .mk a₀ (.blank .invalid) []
      have hc : {(a₀, Cell.node .zero)} = c.cells none none := by
        rw [Item.cells_leaf]
        exact (add_zero _).symm
      refine Memory.Spec.call (R := (Item.mk a d []).cells next prev) (attach_spec ts c)
        (by rw [hc]; abel) ?_
      rintro _ _ ⟨rfl, rfl⟩
      rw [forest_concat]
      refine Memory.Spec.call (R := forest (some a₀) none ts + (Item.mk a d []).cells next prev)
        (hfill b s hb rfl a₀ (last Item.addr none ts)) ?_ ?_
      · simp only [c, Item.addr_mk]
        abel
      rintro ⟨parsed, b'⟩ P (⟨rfl, ⟨i, rfl, rfl⟩, hl⟩ | ⟨x, t, i, hl, rfl, hlt, hb', rfl, hx, rfl⟩)
      · rw [first_concat_of_addr ts (c := c) (i := i) rfl, cells_add_forest]
        exact parseFail_children _ b' (hl.imp_left fun h ↦ by rw [h]; rfl)
      · have hws := hb'.left.skipWhitespace
        have hle := Json.length_skipWs_le t
        rw [first_concat_of_addr ts (c := c) (i := i) rfl, cells_add_forest]
        simp only [Bool.not_true, Bool.false_eq_true, if_false, hl, Option.bind_eq_bind,
          Option.bind_some, hws.left.sees (show (44 : UInt8) ≠ 0 by decide), hws.left.sees hclosing]
        cases hs : Json.skipWs t with
        | nil => exact parseFail_children _ _ (Or.inl rfl)
        | cons e w =>
            rw [hs] at hws hle
            have hnext := hws.left.advance (n := 1) (by simp)
            have hlast : some i.addr = last Item.addr none (ts ++ [i]) := (last_concat ts i).symm
            have hall : List.Forall₂ D (ts ++ [i]) (xs ++ [x]) :=
              List.rel_append hts (.cons hx .nil)
            have hcontent : b'.skipWhitespace.content = b.content :=
              hws.content.trans hb'.content
            have hdepth : b'.skipWhitespace.depth = b.depth := hws.depth.trans hb'.depth
            rw [List.length_cons] at hle
            rw [List.drop_succ_cons, List.drop_zero] at hnext
            simp only [List.head?_cons, Option.some.injEq, decide_eq_true_eq]
            split
            · rw [hlast]
              refine (ih (b := b'.skipWhitespace) (hdepth ▸ hfill) hnext.left hall fuel'
                (by omega) (by omega)).mono fun r P h ↦ ?_
              have hshort : w.length < s.length := by omega
              have hrest := ParsesList.cons h hcontent hdepth hshort
              generalize readList one closing fuel' w = l at hrest ⊢
              cases l <;> exact hrest
            · split
              · rw [hlast]
                refine (parseSuccess_spec kind a d (ts ++ [i]) next prev _).mono ?_
                rintro r P ⟨rfl, rfl⟩
                exact Or.inr ⟨_, w, _, rfl, rfl, by omega, ⟨hcontent, congrArg (· - 1) hdepth,
                  hnext.left.content, hnext.left.inside⟩, hall, rfl⟩
              · exact parseFail_children _ _ (Or.inl rfl)

/-- Behind the opening bracket. -/
theorem parseList_spec {α : Type} {one : Bytes → Option (α × Bytes)} {D : Item A ν → α → Prop}
    {fill : Filler A ν} {b : ParseBuffer} {s : Bytes} (hfill : FillsChild M one D b.depth fill)
    (hb : (b.advance 1).At s) {closing : UInt8} (hclosing : closing ≠ 0) (kind : Kind) (a : A)
    (d : Fields A ν) (next prev : Option A) :
    Spec (parseList M fill closing kind (some a) b) ((Item.mk a d []).cells next prev)
      (ParsesList M D kind b s a d next prev
        (if (Json.skipWs s).head? = some closing then some ([], (Json.skipWs s).tail)
          else readList one closing ((Json.skipWs s).length + 1) (Json.skipWs s))) := by
  have hws := hb.skipWhitespace
  have hle := Json.length_skipWs_le s
  have hlen := hb.length
  have hlen' := hws.left.length
  rw [hws.content] at hlen'
  rw [parseList]
  simp only [hws.left.sees hclosing, decide_eq_true_eq]
  split
  · next hhead =>
      obtain ⟨t, ht⟩ : ∃ t, Json.skipWs s = closing :: t := by
        cases h : Json.skipWs s with
        | nil => simp [h] at hhead
        | cons e t => exact ⟨t, by simpa [h] using hhead⟩
      rw [ht] at hws hle
      have hnext := hws.left.advance (n := 1) (by simp)
      have h := parseSuccess_spec kind a d [] next prev (b.advance 1).skipWhitespace
      rw [first_nil, last_nil, forest_nil, add_zero] at h
      refine h.mono ?_
      rintro r P ⟨rfl, rfl⟩
      refine Or.inr ⟨[], t, [], by rw [ht]; rfl, rfl, hle, ?_, .nil, rfl⟩
      exact ⟨hws.content, congrArg (· - 1) hws.depth, hnext.left.content, hnext.left.inside⟩
  · have hread : (b.advance 1).skipWhitespace.canRead 1 = true := by
      simpa [ParseBuffer.canRead, Nat.succ_le_iff] using hws.left.inside
    have hback : (b.advance 1).skipWhitespace.back.advance 1 = (b.advance 1).skipWhitespace := by
      have hoff : (b.advance 1).offset = b.offset + 1 := rfl
      have hpos : (b.advance 1).skipWhitespace.offset - 1 + 1 =
          (b.advance 1).skipWhitespace.offset := by omega
      rw [ParseBuffer.advance, ParseBuffer.back]
      simp only [hpos]
    have hfuel : (Json.skipWs s).length < (b.advance 1).skipWhitespace.content.length := by
      rw [hws.content]
      omega
    have h := parseChildren_spec (b := (b.advance 1).skipWhitespace.back) (s := Json.skipWs s)
      (hws.depth ▸ hfill) (hback ▸ hws.left) hclosing kind a d next prev .nil _
      ((Json.skipWs s).length + 1) hfuel (Nat.lt_succ_self _)
    have hmap : ∀ l : Option (List α × Bytes), (l.map fun p ↦ ([] ++ p.1, p.2)) = l := by
      rintro (_ | _) <;> rfl
    rw [first_nil, last_nil, forest_nil, add_zero, hmap] at h
    rw [hread]
    refine h.mono ?_
    rintro r P (hr | ⟨xs, t, cs, hxs, hr, hlt, hmoved, hcs, rfl⟩)
    · exact Or.inl hr
    · exact Or.inr ⟨xs, t, cs, hxs, hr, hlt.trans_le hle, ⟨hmoved.content.trans hws.content,
        hmoved.depth.trans (congrArg (· - 1) hws.depth), hmoved.left⟩, hcs, rfl⟩

/-! ## Values -/

/-- A reader that fills a node with what is read. -/
def Fills (M : Allocator A (Cell A ν)) (read : Json.Parser ν) (depth : ℕ) (fill : Filler A ν) :
    Prop :=
  ∀ (b : ParseBuffer) (s : Bytes), b.At s → b.depth = depth →
    ∀ (a : A) (d : Fields A ν) (next prev : Option A), d.valuestring = none →
      Spec (fill (some a) b) ((Item.mk a d []).cells next prev)
        (Parses M b s a d next prev (read s))

omit [DecidableEq A] in
theorem parseElement_fills {read : Json.Parser ν} {depth : ℕ} {fill : Filler A ν}
    (h : Fills M read depth fill) :
    FillsChild M (fun s ↦ read (Json.skipWs s)) (Item.IsElement NoKey) depth (parseElement fill) := by
  intro b s hb hd a prev
  have hws := hb.skipWhitespace
  have hle := Json.length_skipWs_le s
  refine (h _ _ hws.left (hws.depth.trans hd) a (.blank .invalid) none prev rfl).mono ?_
  rintro r P (⟨hr, rfl, hl⟩ | ⟨v, t, i, hl, hr, hlt, hmoved, hi, hkey, hv, rfl⟩)
  · exact Or.inl ⟨hr, ⟨_, rfl, rfl⟩, hl⟩
  · exact Or.inr ⟨v, t, i, hl, hr, hlt.trans_le hle, ⟨hmoved.content.trans hws.content,
      hmoved.depth.trans hws.depth, hmoved.left⟩, hi, ⟨congrArg _ hkey, hv⟩, rfl⟩

/-- The fields of a new node that was given a key. -/
def Fields.ofKey (key : StringBlock A) : Fields A ν :=
  { (Fields.blank .string : Fields A ν) with string := some key }

theorem parseMember_fills {read : Json.Parser ν} {depth : ℕ} {fill : Filler A ν}
    (h : Fills M read depth fill) :
    FillsChild M (readMember read) (Item.IsMember NoKey) depth (parseMember M fill) := by
  intro b s hb hd a prev
  have hws := hb.skipWhitespace
  have hle := Json.length_skipWs_le s
  have hlen := hb.length
  rw [parseMember, readMember]
  have hread : b.canRead 2 = true := by
    simp only [ParseBuffer.canRead, decide_eq_true_eq]
    have hoff : (b.advance 1).content.length = b.content.length := rfl
    have hoff' : (b.advance 1).offset = b.offset + 1 := rfl
    omega
  rw [hread, Item.cells_leaf]
  refine Memory.Spec.call (R := 0) (parseString_spec hws.left a (.blank .invalid) none prev)
    (add_zero _).symm ?_
  rintro ⟨parsed, b₁⟩ P (⟨rfl, rfl, hl⟩ | ⟨key, t, hl, rfl, hmoved, rfl⟩)
  · refine Spec.pure (Or.inl ⟨rfl, ⟨.mk a (.blank .invalid) [], rfl, ?_⟩, hl.imp_left fun h ↦ ?_⟩)
    · rw [Item.cells_leaf]
      rfl
    · rw [h]
      rfl
  let i : Item A ν := .mk a (.ofKey key) []
  have hws' := hmoved.left.skipWhitespace
  have hle' := Json.length_skipWs_le t
  have hi : {(a, Cell.node ((Fields.ofKey key).node none none prev))} +
      ({(key.addr, Cell.chars key.block)} + 0) = i.cells none prev := by
    rw [Item.cells_leaf, Fields.cells]
    simp only [Fields.ofKey, Fields.blank, stringCells]
    abel
  simp only [hl, Option.bind_eq_bind, Option.bind_some]
  refine Spec.modifyNode rfl (add_assoc _ _ _) (Spec.modifyNode rfl rfl ?_)
  change Spec _ ({(a, Cell.node ((Fields.ofKey key).node none none prev))} + _) _
  rw [hi]
  have hkey := Json.parseString_length hl
  simp only [hws'.left.sees (show (58 : UInt8) ≠ 0 by decide)]
  split
  · next hcolon =>
      refine Spec.pure (Or.inl ⟨rfl, ⟨i, rfl, rfl⟩, Or.inl ?_⟩)
      rw [if_neg (by simpa using hcolon)]
  next hcolon =>
  have hhead : (Json.skipWs t).head? = some 58 := by simpa using hcolon
  obtain ⟨w, hw⟩ : ∃ w, Json.skipWs t = 58 :: w := by
    cases ht : Json.skipWs t with
    | nil => simp [ht] at hhead
    | cons c w => exact ⟨w, by simpa [ht] using hhead⟩
  rw [if_pos hhead, hw, List.tail_cons]
  rw [hw] at hws' hle'
  rw [List.length_cons] at hle'
  have hnext := hws'.left.advance (n := 1) (by simp)
  rw [List.drop_succ_cons, List.drop_zero] at hnext
  have hvalue := hnext.left.skipWhitespace
  have hle'' := Json.length_skipWs_le w
  have hmoved' := (((hws.trans hmoved).trans hws').trans hnext).trans hvalue
  refine (h _ _ hvalue.left (hmoved'.depth.trans hd) a (.ofKey key) none prev rfl).mono ?_
  rintro r P (⟨hr, rfl, hv⟩ | ⟨v, u, j, hv, hr, hlt, hend, hj, hstring, hden, rfl⟩)
  · exact Or.inl ⟨hr, ⟨i, rfl, rfl⟩, hv.imp_left fun h ↦ by rw [h]; rfl⟩
  · refine Or.inr ⟨(key.value, v), u, j, by rw [hv]; rfl, hr, by omega, ?_, hj, ⟨?_, hden⟩, rfl⟩
    · exact ⟨hend.content.trans hmoved'.content, hend.depth.trans hmoved'.depth, hend.left⟩
    · rw [Item.key, hstring]
      rfl

omit [DecidableEq A] in
/-- The node with its children stands for a value. -/
theorem ParsesList.value {α : Type} {D : Item A ν → α → Prop} {kind : Kind} {b : ParseBuffer}
    {s : Bytes} {a : A} {d : Fields A ν} {next prev : Option A} {l : Option (List α × Bytes)}
    {r : Bool × ParseBuffer} {P : Multiset (A × Cell A ν)} (c : UInt8) (f : List α → Json ν)
    (hf : ∀ cs xs, List.Forall₂ D cs xs → (Item.mk a (d.withKind kind) cs).Denotes (f xs))
    (h : ParsesList M D kind { b with depth := b.depth + 1 } s a d next prev l r P) :
    Parses M b (c :: s) a d next prev (l.map fun p ↦ (f p.1, p.2)) r P := by
  obtain ⟨hr, rfl, hl⟩ | ⟨xs, t, cs, rfl, hr, hlt, hmoved, hcs, rfl⟩ := h
  · exact Or.inl ⟨hr, rfl, hl.imp_left fun h ↦ by rw [h]; rfl⟩
  · exact Or.inr ⟨f xs, t, _, rfl, hr, Nat.lt_succ_of_lt hlt,
      ⟨hmoved.content, hmoved.depth, hmoved.left⟩, rfl, rfl, hf cs xs hcs, rfl⟩

theorem parseArray_spec {read : Json.Parser ν} {fill : Filler A ν} {b : ParseBuffer} {s : Bytes}
    (h : Fills M read (b.depth + 1) fill) (hb : b.At (91 :: s))
    (hdepth : b.depth < Json.nestingLimit) (a : A) (d : Fields A ν) (next prev : Option A)
    (hd : d.valuestring = none) :
    Spec (parseArray M fill (some a) b) ((Item.mk a d []).cells next prev)
      (Parses M b (91 :: s) a d next prev (Json.parseArray read s)) := by
  have hnext := hb.advance (n := 1) (by simp)
  have hread : Json.parseArray read s = (if (Json.skipWs s).head? = some 93 then
      some ([], (Json.skipWs s).tail)
      else readList (fun s ↦ read (Json.skipWs s)) 93 ((Json.skipWs s).length + 1)
        (Json.skipWs s)).map fun p ↦ (Json.array p.1, p.2) := by
    simp only [Json.parseArray, parseElements_eq_readList]
    split <;> rfl
  rw [parseArray, if_neg (Nat.not_le.mpr hdepth), hread]
  refine Spec.byteAt (getElem?_of_drop hb.content 0) ?_
  rw [if_neg (by simp)]
  refine (parseList_spec (b := { b with depth := b.depth + 1 }) (parseElement_fills h)
    ⟨hnext.left.content, hnext.left.inside⟩ (by decide) .array a d next prev).mono
      fun r P hr ↦ hr.value 91 Json.array fun cs vs hcs ↦ ?_
  rw [Item.Denotes, Item.Carries]
  exact ⟨rfl, hd, carryItems_iff.mpr hcs⟩

theorem parseObject_spec {read : Json.Parser ν} {fill : Filler A ν} {b : ParseBuffer} {s : Bytes}
    (h : Fills M read (b.depth + 1) fill) (hb : b.At (123 :: s))
    (hdepth : b.depth < Json.nestingLimit) (a : A) (d : Fields A ν) (next prev : Option A)
    (hd : d.valuestring = none) :
    Spec (parseObject M fill (some a) b) ((Item.mk a d []).cells next prev)
      (Parses M b (123 :: s) a d next prev (Json.parseObject read s)) := by
  have hnext := hb.advance (n := 1) (by simp)
  have hread : Json.parseObject read s = (if (Json.skipWs s).head? = some 125 then
      some ([], (Json.skipWs s).tail)
      else readList (readMember read) 125 ((Json.skipWs s).length + 1)
        (Json.skipWs s)).map fun p ↦ (Json.object p.1, p.2) := by
    simp only [Json.parseObject, parseMembers_eq_readList]
    split <;> rfl
  have hb' : { b with depth := b.depth + 1 }.At (123 :: s) := ⟨hb.content, hb.inside⟩
  rw [parseObject, if_neg (Nat.not_le.mpr hdepth), hread]
  simp only [hb'.sees (show (123 : UInt8) ≠ 0 by decide)]
  refine (parseList_spec (b := { b with depth := b.depth + 1 }) (parseMember_fills h)
    ⟨hnext.left.content, hnext.left.inside⟩ (by decide) .object a d next prev).mono
      fun r P hr ↦ hr.value 123 Json.object fun cs ms hcs ↦ ?_
  rw [Item.Denotes, Item.Carries]
  exact ⟨rfl, hd, carryMembers_iff.mpr hcs⟩

omit [DecidableEq A] in
/-- A constant was read. -/
theorem parses_constant {b : ParseBuffer} {s word : Bytes} (hb : b.At s) (hp : word <+: s)
    (hword : word ≠ []) {a : A} {d e : Fields A ν} (next prev : Option A) {v : Json ν}
    (hkey : e.string = d.string) (hv : (Item.mk a e []).Denotes v) :
    Parses M b s a d next prev (some (v, s.drop word.length)) (true, b.advance word.length)
      ((Item.mk a e []).cells next prev) := by
  have hpos := List.length_pos_iff.mpr hword
  have hle := hp.length_le
  refine Or.inr ⟨v, _, .mk a e [], rfl, rfl, ?_, hb.advance hle, rfl, hkey, hv, rfl⟩
  rw [List.length_drop]
  omega

/-- A string is the value of the node. -/
theorem parseStringValue_spec {b : ParseBuffer} {s : Bytes} (hb : b.At s) (a : A) (d : Fields A ν)
    (next prev : Option A) (hd : d.valuestring = none) :
    Spec (parseString M (some a) b) ((Item.mk a d []).cells next prev)
      (Parses M b s a d next prev ((Json.parseString s).map fun p ↦ (.string p.1, p.2))) := by
  refine Memory.Spec.tail (parseString_spec hb a d next prev) (Item.cells_leaf a d next prev) ?_
  rintro r P (⟨hr, rfl, hl⟩ | ⟨x, u, hl, hr, hmoved, rfl⟩)
  · refine Or.inl ⟨hr, (Item.cells_leaf a d next prev).symm, hl.imp_left fun h ↦ ?_⟩
    rw [h]
    rfl
  · refine Or.inr ⟨.string x.value, u, .mk a (d.withString x) [], by rw [hl]; rfl, hr,
      Json.parseString_length hl, hmoved, rfl, rfl, ?_, ?_⟩
    · rw [Item.Denotes, Item.Carries]
      exact ⟨rfl, rfl, rfl⟩
    · rw [Item.cells_leaf, Fields.cells, Fields.cells, hd]
      simp only [Fields.withString, stringCells]
      abel

/-- One step of the recursion: at the nesting limit there are no children. -/
theorem parseStep_fills {children : Option (Json.Parser ν)} {depth : ℕ} {fill : Filler A ν}
    (hlimit : children = none → Json.nestingLimit ≤ depth)
    (h : ∀ read, children = some read → depth < Json.nestingLimit ∧ Fills M read (depth + 1) fill) :
    Fills M (Json.valueStep children) depth (parseStep M fill) := by
  intro b s hb hdepth a d next prev hd
  subst hdepth
  unfold parseStep Json.valueStep
  rw [hb.startsWith (by decide), hb.startsWith (by decide), hb.startsWith (by decide)]
  simp only [decide_eq_true_eq]
  split
  · next hp =>
      rw [Item.cells_leaf]
      refine Spec.modifyNode rfl rfl (Spec.pure ?_)
      have hv := parses_constant (M := M) (a := a) (d := d) (e := d.withKind .null) hb hp
        (by decide) next prev rfl
        (by rw [Item.Denotes, Item.Carries]; exact ⟨rfl, hd, rfl⟩)
      rw [Item.cells_leaf] at hv
      exact hv
  split
  · next hp =>
      rw [Item.cells_leaf]
      refine Spec.modifyNode rfl rfl (Spec.pure ?_)
      have hv := parses_constant (M := M) (a := a) (d := d) (e := d.withKind .false)
        (v := .bool false) hb hp (by decide) next prev rfl
        (by rw [Item.Denotes, Item.Carries]; exact ⟨rfl, hd, rfl⟩)
      rw [Item.cells_leaf] at hv
      exact hv
  split
  · next hp =>
      rw [Item.cells_leaf]
      refine Spec.modifyNode rfl rfl (Spec.modifyNode rfl rfl (Spec.pure ?_))
      have hv := parses_constant (M := M) (a := a) (d := d)
        (e := { d.withKind .true with valueint := 1 }) (v := .bool true) hb hp
        (by decide) next prev rfl (by rw [Item.Denotes, Item.Carries]; exact ⟨rfl, hd, rfl⟩)
      rw [Item.cells_leaf] at hv
      exact hv
  cases s with
  | nil =>
      have hget : b.content[b.offset]? = some 0 := getElem?_of_drop hb.content 0
      rw [hget]
      exact Spec.pure (Or.inl ⟨rfl, rfl, Or.inl rfl⟩)
  | cons c t =>
      have hget : b.content[b.offset]? = some c := getElem?_of_drop hb.content 0
      rw [hget]
      simp only
      split
      · exact parseStringValue_spec hb a d next prev hd
      split
      · exact parseNumber_spec hb a d next prev hd
      split
      · next hc =>
          subst hc
          cases children with
          | none =>
              rw [parseArray, if_pos (hlimit rfl)]
              exact Spec.pure (Or.inl ⟨rfl, rfl, Or.inl rfl⟩)
          | some read =>
              obtain ⟨hlt, hread⟩ := h read rfl
              exact parseArray_spec hread hb hlt a d next prev hd
      split
      · next hc =>
          subst hc
          cases children with
          | none =>
              rw [parseObject, if_pos (hlimit rfl)]
              exact Spec.pure (Or.inl ⟨rfl, rfl, Or.inl rfl⟩)
          | some read =>
              obtain ⟨hlt, hread⟩ := h read rfl
              exact parseObject_spec hread hb hlt a d next prev hd
      · exact Spec.pure (Or.inl ⟨rfl, rfl, Or.inl rfl⟩)

/-- With `n` levels left, a node is filled with what is read with `n` levels left. -/
theorem parseValue_fills (n depth : ℕ) (h : depth + n = Json.nestingLimit) :
    Fills M (Json.parseValue n) depth (parseValue M (n + 1)) := by
  induction n generalizing depth with
  | zero => exact parseStep_fills (fun _ ↦ by omega) (fun _ h ↦ by cases h)
  | succ n ih =>
      refine parseStep_fills (fun h ↦ by cases h) fun read hread ↦ ⟨by omega, ?_⟩
      cases hread
      exact ih (depth + 1) (by omega)

/-! ## Whole texts -/

/-- Either the text becomes a tree that stands for what is read, or the result is the null
pointer and the heap is as it was: because nothing is read, or because a request failed. -/
theorem parse_spec (s : CString) :
    Spec (parse M (some s)) 0 (Delivers (Json.parse (ν := ν) s = none ∨ ¬ M.Unfailing) fun t ↦
      t.key = none ∧ ∃ v, Json.parse s = some v ∧ t.Denotes v) := by
  refine Spec.newItem (fun hM ↦ Spec.pure (Or.inl ⟨rfl, rfl, Or.inr hM⟩)) fun a ↦ ?_
  have hbom := ParseBuffer.skipBom_start s.bytes
  have hws := hbom.left.skipWhitespace
  have hcells : {(a, Cell.node .zero)} + (0 : Multiset (A × Cell A ν)) =
      (Item.mk a (.blank .invalid) []).cells none none := by
    rw [Item.cells_leaf]
    rfl
  rw [if_neg (by simp), hcells]
  refine Spec.bind (parseValue_fills Json.nestingLimit 0 (Nat.zero_add _) _ _ hws.left
    (hws.depth.trans hbom.depth) a (.blank .invalid) none none rfl) ?_
  rintro ⟨parsed, b⟩ P (⟨rfl, rfl, hl⟩ | ⟨v, t, i, hl, rfl, -, -, rfl, hkey, hv, rfl⟩)
  · refine Spec.bind (delete_item (.mk a (.blank .invalid) []) none) ?_
    rintro _ _ rfl
    refine Spec.pure (Or.inl ⟨rfl, rfl, hl.imp_left fun h ↦ ?_⟩)
    rw [Json.parse, h]
    rfl
  · refine Spec.pure (Or.inr ⟨i, rfl, rfl, congrArg _ hkey, v, ?_, hv⟩)
    rw [Json.parse, hl]
    rfl

end KernelTests.CJson
