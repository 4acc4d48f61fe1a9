import KernelTests.CJson.Duplicate
import KernelTests.CJson.Walk

/-!
# Trees and values

How the value of a tree changes when the tree is copied, put under a key or given another
child, and what the lookups deliver in terms of values: a pointer into a tree stands for the
part of the value that the lookups on `Json` deliver.
-/

namespace KernelTests.CJson

open Memory

variable {A ν β : Type}

/-- The type of the node that stands for a value. -/
def kindOf : Json ν → Kind
  | .null => .null
  | .bool b => if b then .true else .false
  | .number _ => .number
  | .string _ => .string
  | .array _ => .array
  | .object _ => .object

theorem kindOf_object {v : Json ν} {ms : List (CString × Json ν)}
    (h : kindOf v = kindOf (.object ms)) : ∃ ms', v = .object ms' := by
  cases v with
  | object ms' => exact ⟨ms', rfl⟩
  | bool b => cases b <;> cases h
  | _ => cases h

theorem kindOf_array {v : Json ν} {vs : List (Json ν)} (h : kindOf v = kindOf (.array vs)) :
    ∃ vs', v = .array vs' := by
  cases v with
  | array vs' => exact ⟨vs', rfl⟩
  | bool b => cases b <;> cases h
  | _ => cases h

/-- `cJSON_IsArray` tells the values with elements apart. -/
theorem array_or (v : Option (Json ν)) : (∃ vs, v = some (.array vs)) ∨
    (v.map kindOf ≠ some .array ∧ Json.elements v = []) := by
  match v with
  | some (.array vs) => exact Or.inl ⟨vs, rfl⟩
  | some (.bool b) => cases b <;> exact Or.inr ⟨nofun, rfl⟩
  | none | some .null | some (.number _) | some (.string _) | some (.object _) =>
      exact Or.inr ⟨nofun, rfl⟩

/-- `cJSON_IsString` tells the values with a string apart. -/
theorem string_or (v : Option (Json ν)) : (∃ s, v = some (.string s)) ∨
    (v.map kindOf ≠ some .string ∧ v.bind Json.valuestring = none) := by
  match v with
  | some (.string s) => exact Or.inl ⟨s, rfl⟩
  | some (.bool b) => cases b <;> exact Or.inr ⟨nofun, rfl⟩
  | none | some .null | some (.number _) | some (.array _) | some (.object _) =>
      exact Or.inr ⟨nofun, rfl⟩

section Keys

variable {t t' : Item A ν}

@[simp] theorem Item.key_withKey (t : Item A ν) (key : StringBlock A) :
    (t.withKey key).key = some key.value := rfl

@[simp] theorem Item.key_push (t c : Item A ν) : (t.push c).key = t.key := rfl

theorem Item.CopyOf.key (h : t.CopyOf t') : t'.key = t.key := by
  cases t
  cases t'
  exact h.1.string

/-- What holds of every copy of a tree holds of the copies of the trees in a list. -/
theorem ForestCopyOf.forall₂ {α : Type} {D : Item A ν → α → Prop} {cs cs' : List (Item A ν)}
    {xs : List α} (h : ForestCopyOf cs cs') (hx : List.Forall₂ D cs xs)
    (hD : ∀ c ∈ cs, ∀ c' x, c.CopyOf c' → D c x → D c' x) : List.Forall₂ D cs' xs := by
  induction hx generalizing cs' with
  | nil =>
      cases cs' with
      | nil => exact .nil
      | cons => cases h
  | cons hd _ ih =>
      cases cs' with
      | nil => cases h
      | cons =>
          exact .cons (hD _ List.mem_cons_self _ _ h.1 hd)
            (ih h.2 fun c hc ↦ hD c (List.mem_cons_of_mem _ hc))

end Keys

section Values

variable [CDouble ν] {K : Option CString → Prop} {t t' c : Item A ν} {v : Json ν}

theorem Item.Carries.kind (h : t.Carries K v) : t.fields.kind = kindOf v := by
  cases t
  cases v <;> exact h.1

/-- What is known of the keys can be forgotten. -/
theorem Item.Carries.mono {K' : Option CString → Prop} (hK : ∀ key, K key → K' key)
    (h : t.Carries K v) : t.Carries K' v := by
  induction t using Item.ind generalizing v with
  | mk a d cs ih =>
      have hall : ∀ {α : Type} {D D' : Item A ν → α → Prop} {xs : List α},
          (∀ c ∈ cs, ∀ x, D c x → D' c x) → List.Forall₂ D cs xs → List.Forall₂ D' cs xs :=
        fun hD h ↦ ((List.forall₂_and_left _ _).mpr ⟨fun c hc ↦ hc, h⟩).imp
          fun c x hx ↦ hD c hx.1 x hx.2
      cases v with
      | array vs =>
          rw [Item.Carries, carryItems_iff] at h ⊢
          exact ⟨h.1, h.2.1, hall (fun c hc v hv ↦ ⟨hK _ hv.1, ih c hc hv.2⟩) h.2.2⟩
      | object ms =>
          rw [Item.Carries, carryMembers_iff] at h ⊢
          exact ⟨h.1, h.2.1, hall (fun c hc m hm ↦ ⟨hm.1, ih c hc hm.2⟩) h.2.2⟩
      | _ => exact h

theorem Item.Denotes.shows (h : t.Denotes v) : t.Shows v := h.mono fun _ _ ↦ trivial

/-! ## Changes -/

/-- The key of the root is not part of the value. -/
theorem Item.Carries.withKey (h : t.Carries K v) (key : StringBlock A) :
    (t.withKey key).Carries K v := by
  cases t
  cases v <;> exact h

theorem Item.Carries.push_element {vs : List (Json ν)} (h : t.Carries K (.array vs))
    (hc : c.IsElement K v) : (t.push c).Carries K (.array (vs ++ [v])) := by
  cases t
  rw [Item.Carries, carryItems_iff] at h
  rw [Item.push, Item.Carries, carryItems_iff]
  exact ⟨h.1, h.2.1, List.rel_append h.2.2 (.cons hc .nil)⟩

theorem Item.Carries.push_member {ms : List (CString × Json ν)} {m : CString × Json ν}
    (h : t.Carries K (.object ms)) (hc : c.IsMember K m) :
    (t.push c).Carries K (.object (ms ++ [m])) := by
  cases t
  rw [Item.Carries, carryMembers_iff] at h
  rw [Item.push, Item.Carries, carryMembers_iff]
  exact ⟨h.1, h.2.1, List.rel_append h.2.2 (.cons hc .nil)⟩

/-! ## Copies -/

/-- A copy of a tree carries the same value. -/
theorem Item.CopyOf.carries (h : t.CopyOf t') (hv : t.Carries K v) : t'.Carries K v := by
  induction t using Item.ind generalizing t' v with
  | mk a d cs ih =>
      obtain ⟨a', d', cs'⟩ := t'
      obtain ⟨hd, hcs⟩ := h
      have hnone : d.valuestring = none → d'.valuestring = none := by
        intro h
        have hs := hd.valuestring
        rw [h] at hs
        exact Option.map_eq_none_iff.mp hs
      have hnil : cs = [] → cs' = [] := by
        rintro rfl
        cases cs' with
        | nil => rfl
        | cons => cases hcs
      have hkind := hd.kind
      cases v with
      | null => exact ⟨hkind.trans hv.1, hnone hv.2.1, hnil hv.2.2⟩
      | bool b => exact ⟨hkind.trans hv.1, hnone hv.2.1, hnil hv.2.2⟩
      | number x =>
          obtain ⟨hk, hs, hx, hi, hc⟩ := hv
          exact ⟨hkind.trans hk, hnone hs, hd.valuedouble.trans hx, hd.valueint.trans hi, hnil hc⟩
      | string s => exact ⟨hkind.trans hv.1, hd.valuestring.trans hv.2.1, hnil hv.2.2⟩
      | array vs =>
          rw [Item.Carries, carryItems_iff] at hv ⊢
          exact ⟨hkind.trans hv.1, hnone hv.2.1, hcs.forall₂ hv.2.2
            fun c hc c' v h hv ↦ ⟨h.key.symm ▸ hv.1, ih c hc h hv.2⟩⟩
      | object ms =>
          rw [Item.Carries, carryMembers_iff] at hv ⊢
          exact ⟨hkind.trans hv.1, hnone hv.2.1, hcs.forall₂ hv.2.2
            fun c hc c' m h hm ↦ ⟨h.key.trans hm.1, ih c hc h hm.2⟩⟩

end Values

end KernelTests.CJson
