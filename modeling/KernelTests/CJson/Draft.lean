import KernelTests.CJson.Pointer
import KernelTests.CJson.Print

/-!
# Values under construction

Both programs build a value by a long sequence of requests, and do not look whether one of
them fails.  `Draft` is what a pointer leads to on the way.  As long as no request fails it
is a tree for the value, and no cell is lost.  Otherwise the tree may be missing or lack some
children, and cells may be lost, but every further step is still defined.
-/

namespace KernelTests.CJson

open Memory

variable {A ν β : Type} [DecidableEq A] [CDouble ν] (M : Allocator A (Cell A ν))

/-- The pointer leads to a tree for the value, under the key, beside cells that are lost. -/
def Draft (key : Option CString) (v : Json ν) (next prev p : Option A)
    (P : Multiset (A × Cell A ν)) : Prop :=
  (p = none ∧ ¬ M.Unfailing) ∨
  ∃ (t : Item A ν) (w : Json ν) (L : Multiset (A × Cell A ν)), p = some t.addr ∧
    P = t.cells next prev + L ∧ t.key = key ∧ t.Shows w ∧ kindOf w = kindOf v ∧
    (M.Unfailing → w = v ∧ L = 0)

/-- A request for a new tree that stands for the value. -/
def Creates (create : Action A ν (Option A)) (v : Json ν) : Prop :=
  Spec create 0 (Delivers (¬ M.Unfailing) fun t ↦ t.key = none ∧ t.Shows v)

variable {M} {key : Option CString} {v : Json ν} {next prev p q : Option A}
  {P P' R : Multiset (A × Cell A ν)} {vs : List (Json ν)} {ms : List (CString × Json ν)}
  {create : Action A ν (Option A)}

/-! ## New trees -/

omit [DecidableEq A] in
theorem Creates.mono {q : Item A ν → Prop}
    (h : Spec create 0 (Delivers (¬ M.Unfailing) q)) (hq : ∀ t, q t → t.key = none ∧ t.Shows v) :
    Creates M create v :=
  Memory.Spec.mono h fun _ _ h ↦ h.imp_right fun ⟨t, ht, hP, h⟩ ↦ ⟨t, ht, hP, hq t h⟩

theorem creates_object : Creates M (createObject M) (.object []) := by
  refine Creates.mono (createTyped_spec .object) ?_
  rintro ⟨a, d, cs⟩ ⟨rfl, rfl⟩
  exact ⟨rfl, rfl, rfl, trivial⟩

theorem creates_array : Creates M (createArray M) (.array []) := by
  refine Creates.mono (createTyped_spec .array) ?_
  rintro ⟨a, d, cs⟩ ⟨rfl, rfl⟩
  exact ⟨rfl, rfl, rfl, trivial⟩

theorem creates_number (x : ν) : Creates M (createNumber M x) (.number x) := by
  refine Creates.mono (createNumber_spec x) ?_
  rintro ⟨a, d, cs⟩ ⟨rfl, rfl⟩
  exact ⟨rfl, rfl, rfl, rfl, rfl, rfl⟩

theorem creates_string (s : CString) : Creates M (createString M (some s)) (.string s) := by
  refine Creates.mono (createString_spec s) ?_
  rintro ⟨a, d, cs⟩ ⟨⟨b, rfl, rfl⟩, rfl⟩
  exact ⟨rfl, rfl, rfl, rfl⟩

omit [DecidableEq A] in
theorem Creates.draft (h : Creates M create v) : Spec create 0 (Draft M none v none none) := by
  refine Memory.Spec.mono h ?_
  rintro r P (⟨rfl, -, hM⟩ | ⟨t, rfl, rfl, hkey, hv⟩)
  · exact Or.inl ⟨rfl, hM⟩
  · exact Or.inr ⟨t, v, 0, rfl, (add_zero _).symm, hkey, hv, rfl, fun _ ↦ ⟨rfl, rfl⟩⟩

/-! ## Children -/

/-- The cells around the last child, which is at `a`. -/
def Item.around (t : Item A ν) (a : A) (next prev : Option A) : Multiset (A × Cell A ν) :=
  {(t.addr, .node (t.fields.node (first Item.addr (some a) t.children) next prev))} +
    (t.fields.cells + forest (some a) (some a) t.children)

omit [DecidableEq A] [CDouble ν] in
/-- Work on the last child leaves the cells around it alone. -/
theorem Item.cells_push (t c : Item A ν) (next prev : Option A) :
    (t.push c).cells next prev = c.cells none (last Item.addr (some c.addr) t.children) +
      t.around c.addr next prev := by
  rw [Item.push, Item.cells_mk, last_concat, forest_concat, first_append, first_cons, Item.around]
  abel

/-- Without an object, what was requested is released again. -/
theorem addNewToObject_null (h : Creates M create v) (name : CString) :
    Spec (addNewToObject M create none (some name)) P fun r P' ↦ r = none ∧ P' = P := by
  refine Memory.Spec.call (R := P) h (zero_add _).symm ?_
  rintro _ _ (⟨rfl, rfl, -⟩ | ⟨t, rfl, rfl, -⟩)
  · rw [zero_add, addItemToObject, if_pos (by simp), pure_bind, if_neg (by simp)]
    exact Spec.bind (delete_null _) fun _ _ h ↦ Spec.pure ⟨rfl, h⟩
  · rw [addItemToObject, if_pos (by simp), pure_bind, if_neg (by simp)]
    refine Memory.Spec.call (R := P) (delete_item t none) rfl ?_
    rintro _ _ rfl
    exact Spec.pure ⟨rfl, zero_add P⟩

/-- A new member can be worked on by itself; whatever is made of it becomes the member. -/
theorem Draft.addChild (h : Draft M key (.object ms) next prev p P) (hcreate : Creates M create v)
    (name : CString) :
    Spec (addNewToObject M create p (some name)) P fun r P' ↦ ∃ prev' P₁ R, P' = P₁ + R ∧
      Draft M (some name) v none prev' r P₁ ∧
      ∀ w P₂, Draft M (some name) w none prev' r P₂ → kindOf w = kindOf v →
        Draft M key (.object (ms ++ [(name, w)])) next prev p (P₂ + R) := by
  rcases h with ⟨rfl, hM⟩ | ⟨t, w, L, rfl, rfl, hkey, hw, hkind, hexact⟩
  · refine (addNewToObject_null hcreate name).mono ?_
    rintro _ P ⟨rfl, rfl⟩
    exact ⟨none, 0, P, (zero_add P).symm, Or.inl ⟨rfl, hM⟩, fun _ _ _ _ ↦ Or.inl ⟨rfl, hM⟩⟩
  obtain ⟨ms', rfl⟩ := kindOf_object hkind
  refine Memory.Spec.tail (addNewToObject_spec hcreate t name next prev) rfl ?_
  rintro _ _ (⟨rfl, rfl, hM⟩ | ⟨c, b, rfl, ⟨-, hc⟩, rfl, rfl⟩)
  · refine ⟨none, 0, t.cells next prev + L, (zero_add _).symm, Or.inl ⟨rfl, hM⟩,
      fun w P₂ _ _ ↦ Or.inr ⟨t, _, L + P₂, rfl, ?_, hkey, hw, rfl, fun h ↦ absurd h hM⟩⟩
    abel
  · refine ⟨last Item.addr (some c.addr) t.children, _, t.around c.addr next prev + L, ?_,
      Or.inr ⟨c.withKey b, v, 0, rfl, (add_zero _).symm, rfl, hc.withKey b, rfl,
        fun _ ↦ ⟨rfl, rfl⟩⟩, fun w P₂ h _ ↦ ?_⟩
    · rw [Item.cells_push, add_assoc]
      rfl
    rcases h with ⟨hc, -⟩ | ⟨c', w', L', hc', rfl, hkey', hw', -, hexact'⟩
    · cases hc
    · have haddr : c.addr = c'.addr := Option.some.inj hc'
      refine Or.inr ⟨t.push c', .object (ms' ++ [(b.value, w')]), L + L', rfl, ?_, hkey,
        hw.push_member ⟨hkey', hw'⟩, rfl, fun hM ↦ ?_⟩
      · rw [Item.cells_push, haddr]
        abel
      · obtain ⟨he, rfl⟩ := hexact hM
        obtain ⟨rfl, rfl⟩ := hexact' hM
        cases he
        exact ⟨rfl, add_zero 0⟩

/-- A new member. -/
theorem Draft.addNew (h : Draft M key (.object ms) next prev p P) (hcreate : Creates M create v)
    (name : CString) : Spec (addNewToObject M create p (some name)) P fun _ P' ↦
      Draft M key (.object (ms ++ [(name, v)])) next prev p P' := by
  refine (h.addChild hcreate name).mono ?_
  rintro r _ ⟨_, P₁, R, rfl, hchild, hclose⟩
  exact hclose v P₁ hchild rfl

theorem Draft.addString (h : Draft M key (.object ms) next prev p P) (name s : CString) :
    Spec (addStringToObject M p (some name) (some s)) P fun _ P' ↦
      Draft M key (.object (ms ++ [(name, .string s)])) next prev p P' :=
  h.addNew (creates_string s) name

theorem Draft.addNumber (h : Draft M key (.object ms) next prev p P) (name : CString) (x : ν) :
    Spec (addNumberToObject M p (some name) x) P fun _ P' ↦
      Draft M key (.object (ms ++ [(name, .number x)])) next prev p P' :=
  h.addNew (creates_number x) name

/-- A member that was built apart. -/
theorem Draft.addMember (h : Draft M key (.object ms) next prev p P)
    (hq : Draft M none v none none q P') (name : CString) :
    Spec (addItemToObject M p (some name) q) (P + P') fun _ P'' ↦
      Draft M key (.object (ms ++ [(name, v)])) next prev p P'' := by
  rcases h with ⟨rfl, hM⟩ | ⟨t, w, L, rfl, rfl, hkey, hw, hkind, hexact⟩
  · rw [addItemToObject, if_pos (by simp)]
    exact Spec.pure (Or.inl ⟨rfl, hM⟩)
  obtain ⟨ms', rfl⟩ := kindOf_object hkind
  rcases hq with ⟨rfl, hM⟩ | ⟨c, w', L', rfl, rfl, -, hw', -, hexact'⟩
  · rw [addItemToObject, if_pos (by simp)]
    refine Spec.pure (Or.inr ⟨t, _, L + P', rfl, add_assoc _ _ _, hkey, hw, rfl,
      fun h ↦ absurd h hM⟩)
  · refine Memory.Spec.tail (R := L + L') (addItemToObject_spec t c name next prev none)
      (by abel) ?_
    rintro _ _ (⟨rfl, rfl, hM⟩ | ⟨b, rfl, rfl, rfl⟩)
    · refine Or.inr ⟨t, _, c.cells none none + (L + L'), rfl, by abel, hkey, hw, rfl,
        fun h ↦ absurd h hM⟩
    · refine Or.inr ⟨t.push (c.withKey b), _, L + L', rfl, rfl, hkey,
        hw.push_member (m := (b.value, w')) ⟨rfl, hw'.withKey b⟩, rfl, fun hM ↦ ?_⟩
      obtain ⟨he, rfl⟩ := hexact hM
      obtain ⟨rfl, rfl⟩ := hexact' hM
      cases he
      exact ⟨rfl, add_zero 0⟩

/-- An element. -/
theorem Draft.addElement {key' : Option CString} (h : Draft M key (.array vs) next prev p P)
    (hq : Draft M key' v none none q P') :
    Spec (addItemToArray p q) (P + P') fun _ P'' ↦
      Draft M key (.array (vs ++ [v])) next prev p P'' := by
  rcases h with ⟨rfl, hM⟩ | ⟨t, w, L, rfl, rfl, hkey, hw, hkind, hexact⟩
  · rw [addItemToArray, if_pos (by simp)]
    exact Spec.pure (Or.inl ⟨rfl, hM⟩)
  obtain ⟨vs', rfl⟩ := kindOf_array hkind
  rcases hq with ⟨rfl, hM⟩ | ⟨c, w', L', rfl, rfl, -, hw', -, hexact'⟩
  · rw [addItemToArray, if_pos (by simp)]
    refine Spec.pure (Or.inr ⟨t, _, L + P', rfl, add_assoc _ _ _, hkey, hw, rfl,
      fun h ↦ absurd h hM⟩)
  · refine Memory.Spec.tail (R := L + L') (addItemToArray_spec t c next prev none) (by abel) ?_
    rintro _ _ ⟨rfl, rfl⟩
    refine Or.inr ⟨t.push c, _, L + L', rfl, rfl, hkey, hw.push_element ⟨trivial, hw'⟩, rfl,
      fun hM ↦ ?_⟩
    obtain ⟨he, rfl⟩ := hexact hM
    obtain ⟨rfl, rfl⟩ := hexact' hM
    cases he
    exact ⟨rfl, add_zero 0⟩

/-! ## Whole values -/

omit [DecidableEq A] in
/-- If no request failed, only the exact value counts. -/
theorem Draft.congr {w : Json ν} (h : Draft M key v next prev p P) (hkind : kindOf v = kindOf w)
    (hvw : M.Unfailing → v = w) : Draft M key w next prev p P := by
  rcases h with h | ⟨t, u, L, hp, hP, hkey, hu, hk, hexact⟩
  · exact Or.inl h
  · exact Or.inr ⟨t, u, L, hp, hP, hkey, hu, hk.trans hkind,
      fun hM ↦ ⟨(hexact hM).1.trans (hvw hM), (hexact hM).2⟩⟩

theorem Draft.delete (h : Draft M key v none prev p P) :
    Spec (delete p) P fun _ P' ↦ M.Unfailing → P' = 0 := by
  rcases h with ⟨rfl, hM⟩ | ⟨t, w, L, rfl, rfl, -, -, -, hexact⟩
  · exact (delete_null P).mono fun _ _ _ h ↦ absurd h hM
  · refine Memory.Spec.tail (delete_item t prev) rfl ?_
    rintro _ _ rfl hM
    rw [(hexact hM).2, add_zero]

theorem Draft.getArraySize (h : Draft M key (.array vs) next prev p P) :
    Spec (getArraySize p) P fun r P' ↦ P' = P ∧ (M.Unfailing → r = Int.bmod vs.length (2 ^ 32)) := by
  rcases h with ⟨rfl, hM⟩ | ⟨t, w, L, rfl, rfl, -, hw, hkind, hexact⟩
  · rw [CJson.getArraySize, if_pos Option.isNone_none]
    exact Spec.pure ⟨rfl, fun h ↦ absurd h hM⟩
  obtain ⟨vs', rfl⟩ := kindOf_array hkind
  refine Memory.Spec.tail (getArraySize_spec t next prev) rfl ?_
  rintro r _ ⟨hr, rfl⟩
  refine ⟨rfl, fun hM ↦ ?_⟩
  cases (hexact hM).1
  obtain ⟨a, d, cs⟩ := t
  rw [hr, Item.children_mk, (carryItems_iff.mp hw.2.2).length_eq]

theorem duplicate_null (P : Multiset (A × Cell A ν)) :
    Spec (duplicate M none true) P fun r P' ↦ r = none ∧ P' = P := by
  refine Memory.Spec.walk fun fuel hfuel ↦ ?_
  obtain ⟨fuel, rfl⟩ := Nat.exists_eq_add_of_lt hfuel
  exact Spec.pure ⟨rfl, rfl⟩

/-- The copy is complete, or a request failed. -/
theorem Draft.duplicate (h : Draft M key v next prev p P) :
    Spec (duplicate M p true) P fun r P' ↦ ∃ P₁, P' = P₁ + P ∧ Draft M key v none none r P₁ := by
  rcases h with ⟨rfl, hM⟩ | ⟨t, w, L, rfl, rfl, hkey, hw, hkind, hexact⟩
  · refine (duplicate_null P).mono ?_
    rintro _ _ ⟨rfl, rfl⟩
    exact ⟨0, (zero_add _).symm, Or.inl ⟨rfl, hM⟩⟩
  · refine Memory.Spec.tail (duplicate_spec t next prev) rfl ?_
    rintro _ _ (⟨rfl, rfl, hM⟩ | ⟨t', rfl, hcopy, rfl⟩)
    · exact ⟨0, (zero_add _).symm, Or.inl ⟨rfl, hM⟩⟩
    · exact ⟨t'.cells none none, add_assoc _ _ _, Or.inr ⟨t', w, 0, rfl, (add_zero _).symm,
        hcopy.key.trans hkey, hcopy.carries hw, hkind, fun hM ↦ ⟨(hexact hM).1, rfl⟩⟩⟩

variable (M) in
/-- The null pointer, for a reason, or the text in a block of its own. -/
def Text (why : Prop) (s : CString) (r : Option A) (P : Multiset (A × Cell A ν)) : Prop :=
  (r = none ∧ P = 0 ∧ why) ∨
  ∃ a s', r = some a ∧ P = {(a, .chars (.ofCString s'))} ∧ (M.Unfailing → s' = s)

omit [DecidableEq A] [CDouble ν] in
theorem Text.congr {why why' : Prop} {s s' : CString} {r : Option A} (h : Text M why s r P)
    (hwhy : why → why') (hs : M.Unfailing → s = s') : Text M why' s' r P := by
  rcases h with ⟨hr, hP, h⟩ | ⟨a, u, hr, hP, hu⟩
  · exact Or.inl ⟨hr, hP, hwhy h⟩
  · exact Or.inr ⟨a, u, hr, hP, fun hM ↦ (hu hM).trans (hs hM)⟩

theorem printUnformatted_null (P : Multiset (A × Cell A ν)) :
    Spec (printUnformatted M none) P fun r P' ↦ r = none ∧ P' = P := by
  refine Memory.Spec.alloc (fun _ ↦ Spec.pure ⟨rfl, rfl⟩) fun a ↦ ?_
  rw [if_neg (by simp)]
  refine Memory.Spec.bind (Q := fun r P' ↦ r = (false, ⟨some a, defaultBufferSize, 0⟩) ∧
    P' = {(a, .chars (.alloc defaultBufferSize))} + P) (Memory.Spec.walk fun fuel hfuel ↦ ?_) ?_
  · obtain ⟨fuel, rfl⟩ := Nat.exists_eq_add_of_lt hfuel
    exact Spec.pure ⟨rfl, rfl⟩
  · rintro _ _ ⟨rfl, rfl⟩
    simp only [Bool.false_eq_true, if_false, Option.isSome_some, if_true]
    exact Memory.Spec.free rfl rfl (Spec.pure ⟨rfl, rfl⟩)

/-- The text of the value, or nothing: because a request failed, or because it is too long. -/
theorem Draft.print (h : Draft M key v next prev p P) :
    Spec (printUnformatted M p) P fun r P' ↦ ∃ P₁, P' = P₁ + P ∧
      Text M (Overlong M v.print.length) (Json.printUnformatted v) r P₁ := by
  rcases h with ⟨rfl, hM⟩ | ⟨t, w, L, rfl, rfl, hkey, hw, hkind, hexact⟩
  · refine (printUnformatted_null P).mono ?_
    rintro _ _ ⟨rfl, rfl⟩
    exact ⟨0, (zero_add _).symm, Or.inl ⟨rfl, rfl, Or.inl hM⟩⟩
  · refine Memory.Spec.tail (printUnformatted_spec hw next prev) rfl ?_
    rintro _ _ (⟨rfl, rfl, hwhy⟩ | ⟨a, rfl, rfl⟩)
    · refine ⟨0, (zero_add _).symm, Or.inl ⟨rfl, rfl, ?_⟩⟩
      by_cases hM : M.Unfailing
      · rwa [(hexact hM).1] at hwhy
      · exact Or.inl hM
    · exact ⟨_, add_assoc _ _ _, Or.inr ⟨a, _, rfl, rfl, fun hM ↦ by rw [(hexact hM).1]⟩⟩

end KernelTests.CJson
