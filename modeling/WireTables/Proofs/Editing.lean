import WireTables.Proofs.Schema.References
import WireTables.Proofs.Schema.Shape

/-!
# Editing registries

What the steps of an edit do to a registry, and the invariant that all edits keep: every constant
has a value, and the types have a shape (`Registry.Sound`). An edit reads the schema before it
changes it, so a pass is taken apart into its steps, and each step is looked at on its own.
-/

namespace WireTables

section Loops

variable {ε σ α β : Type} {I : σ → Prop} {s s' : σ}

/-- What every round of a loop keeps, the loop keeps. -/
theorem Yields.foldlM {f : β → α → ExceptT ε (StateM σ) β} {xs : List α} {b c : β}
    (h : Yields (xs.foldlM f b) s c s') (hs : I s)
    (hf : ∀ x ∈ xs, ∀ b s c s', I s → Yields (f b x) s c s' → I s') : I s' := by
  induction xs generalizing s b with
  | nil =>
    obtain ⟨-, rfl⟩ := yields_pure.mp h
    exact hs
  | cons x xs ih =>
    rw [List.foldlM_cons] at h
    obtain ⟨next, s₁, hx, h⟩ := yields_bind.mp h
    exact ih h (hf x List.mem_cons_self _ _ _ _ hs hx) fun y hy =>
      hf y (List.mem_cons_of_mem _ hy)

theorem Yields.forM {f : α → ExceptT ε (StateM σ) PUnit} {xs : List α} {u : PUnit}
    (h : Yields (xs.forM f) s u s') (hs : I s)
    (hf : ∀ x ∈ xs, ∀ s s', I s → Yields (f x) s ⟨⟩ s' → I s') : I s' := by
  induction xs generalizing s with
  | nil =>
    obtain ⟨-, rfl⟩ := yields_pure.mp h
    exact hs
  | cons x xs ih =>
    obtain ⟨s₁, hx, h⟩ := yields_forM_cons.mp h
    exact ih h (hf x List.mem_cons_self _ _ hs hx) fun y hy => hf y (List.mem_cons_of_mem _ hy)

/-- A filtered list is worked through; what is kept of it has a property of its own. -/
theorem Yields.filterMapM {R : β → Prop} {f : α → ExceptT ε (StateM σ) (Option β)} {xs : List α}
    {ys : List β} (h : Yields (xs.filterMapM f) s ys s') (hs : I s)
    (hf : ∀ x ∈ xs, ∀ s y s', I s → Yields (f x) s y s' → I s' ∧ ∀ b, y = some b → R b) :
    I s' ∧ ∀ y ∈ ys, R y := by
  induction xs generalizing s ys with
  | nil =>
    obtain ⟨rfl, rfl⟩ := yields_filterMapM_nil.mp h
    exact ⟨hs, fun _ hy => (List.not_mem_nil hy).elim⟩
  | cons x xs ih =>
    obtain ⟨y, s₁, zs, hx, hrest, rfl⟩ := yields_filterMapM_cons.mp h
    obtain ⟨hs₁, hy⟩ := hf x List.mem_cons_self _ _ _ hs hx
    obtain ⟨hs', hzs⟩ := ih hrest hs₁ fun z hz => hf z (List.mem_cons_of_mem _ hz)
    refine ⟨hs', fun z hz => ?_⟩
    rcases List.mem_append.mp hz with hz | hz
    · exact hy z (Option.mem_toList.mp hz)
    · exact hzs z hz

end Loops

namespace Edit

variable {r r' : Registry} {u : Unit}

@[simp] theorem yields_schema {s : Schema} :
    Yields Edit.schema r s r' ↔ s = r.toSchema ∧ r' = r := by
  show Yields ((fun r : Registry => r.toSchema) <$> (get : Edit Registry)) r s r' ↔ _
  rw [yields_map]
  constructor
  · rintro ⟨t, ht, rfl⟩
    obtain ⟨rfl, rfl⟩ := yields_get.mp ht
    exact ⟨rfl, rfl⟩
  · rintro ⟨rfl, rfl⟩
    exact ⟨r', yields_get.mpr ⟨rfl, rfl⟩, rfl⟩

@[simp] theorem yields_update {f : Schema → Schema} :
    Yields (Edit.update f) r u r' ↔ r' = { r with toSchema := f r.toSchema } :=
  yields_modify

@[simp] theorem yields_ofExcept {α : Type} {result : Except Error α} {a : α} :
    Yields (Edit.ofExcept result) r a r' ↔ result = .ok a ∧ r' = r :=
  yields_mk_pure

@[simp] theorem yields_tryUpdate {f : Schema → Except Error Schema} :
    Yields (Edit.tryUpdate f) r u r' ↔
      ∃ s, f r.toSchema = .ok s ∧ r' = { r with toSchema := s } := by
  unfold Edit.tryUpdate
  simp only [yields_bind, yields_schema, yields_ofExcept, yields_update]
  constructor
  · rintro ⟨_, _, ⟨rfl, rfl⟩, s, _, ⟨hs, rfl⟩, rfl⟩
    exact ⟨s, hs, rfl⟩
  · rintro ⟨s, hs, rfl⟩
    exact ⟨_, r, ⟨rfl, rfl⟩, s, r, ⟨hs, rfl⟩, rfl⟩

theorem yields_calculate {α : Type} {m : Schema → Eval α} {a : α}
    (h : Yields (Edit.calculate m) r a r') :
    ∃ known, Yields (m r.toSchema) r.known a known ∧ r' = { r with known } :=
  Registry.yields_of_calculate h

end Edit

/-- Every constant has a value, and the types have a shape. -/
structure Registry.Sound (record : Record → Prop) (union : Bool → Prop) (r : Registry) : Prop where
  settled : r.Settled
  shaped : r.toSchema.Shaped (TypeEntry.Meets record union)

namespace Schema

variable {s s' : Schema} {name : String}

/-- An element is found under its name, if names are different. -/
theorem find?_of_mem {α : Type} {key : α → String} {xs : List α} (hkeys : (xs.map key).Nodup)
    {x : α} (hx : x ∈ xs) : xs.find? (key · == key x) = some x := by
  cases hy : xs.find? (key · == key x) with
  | none =>
    have := List.find?_eq_none.mp hy x hx
    simp at this
  | some y =>
    have hname : key y = key x := by simpa using List.find?_some hy
    rw [List.inj_on_of_nodup_map hkeys (List.mem_of_find?_eq_some hy) hx hname]

/-- The only type of a name is the one that is found under it. -/
theorem lookup?_of_mem (h : s.names.Nodup) {t : TypeEntry} (ht : t ∈ s.types) :
    s.lookup? t.specName = some t :=
  find?_of_mem h ht

/-- Elements with different names are found by them in any order. -/
theorem find?_perm {α : Type} {key : α → String} {xs ys : List α} (hperm : ys.Perm xs)
    (hkeys : (xs.map key).Nodup) (name : String) :
    ys.find? (key · == name) = xs.find? (key · == name) := by
  cases hx : xs.find? (key · == name) with
  | none =>
    refine List.find?_eq_none.mpr fun y hy => ?_
    exact List.find?_eq_none.mp hx y (hperm.mem_iff.mp hy)
  | some x =>
    have hname : key x = name := by simpa using List.find?_some hx
    have hmem := List.mem_of_find?_eq_some hx
    cases hy : ys.find? (key · == name) with
    | none =>
      exact absurd hname (by simpa using List.find?_eq_none.mp hy x (hperm.mem_iff.mpr hmem))
    | some y =>
      have hname' : key y = name := by simpa using List.find?_some hy
      have hmem' := hperm.mem_iff.mp (List.mem_of_find?_eq_some hy)
      rw [List.inj_on_of_nodup_map hkeys hmem' hmem (hname'.trans hname.symm)]

/-- In another order the same types are found. -/
theorem lookup?_of_perm (hs : s.names.Nodup) (hperm : s'.types.Perm s.types) :
    s'.lookup? name = s.lookup? name :=
  find?_perm hperm hs name

/-- The type that is changed is found under its name as it is now, and all others as they were. -/
theorem lookup?_modifyType {changed : String} {change : TypeEntry → TypeEntry}
    (hchange : ∀ t, (change t).specName = t.specName) :
    (s.modifyType changed change).lookup? name =
      (s.lookup? name).map fun t => if name = changed then change t else t := by
  unfold lookup? modifyType
  rw [List.find?_map]
  have hname : ((·.specName == name) ∘ fun t : TypeEntry =>
      if t.specName == changed then change t else t) = (·.specName == name) := by
    funext t
    show ((if t.specName == changed then change t else t).specName == name) = _
    split
    · rw [hchange]
    · rfl
  rw [hname]
  cases hl : s.types.find? (·.specName == name) with
  | none => rfl
  | some t =>
    have ht : t.specName = name := by simpa using List.find?_some hl
    simp only [Option.map_some, ht, beq_iff_eq]

/-- A type that is added is found under its name, and all others as they were. -/
theorem lookup?_addType (hs : s.names.Nodup) {t : TypeEntry} {anchor : Option String}
    (h : s.addType t anchor = .ok s') : s'.lookup? name =
      if name = t.specName then some { t with id := s.types.length } else s.lookup? name := by
  obtain ⟨hfresh, hperm⟩ := perm_of_addType h
  have hs' : s'.names.Nodup :=
    (hperm.map _).nodup_iff.mpr (List.nodup_cons.mpr ⟨hfresh, hs⟩)
  by_cases hname : name = t.specName
  · subst hname
    rw [if_pos rfl]
    exact lookup?_of_mem hs' (t := { t with id := s.types.length })
      (hperm.mem_iff.mpr List.mem_cons_self)
  · rw [if_neg hname]
    cases hl : s.lookup? name with
    | some t =>
      obtain ⟨hmem, rfl⟩ := mem_of_lookup? hl
      exact lookup?_of_mem hs' (hperm.mem_iff.mpr (List.mem_cons_of_mem _ hmem))
    | none =>
      refine List.find?_eq_none.mpr fun u hu => ?_
      rcases List.mem_cons.mp (hperm.mem_iff.mp hu) with rfl | hu
      · simpa using Ne.symm hname
      · exact List.find?_eq_none.mp hl u hu

/-- A type that is found stays found when another one is added. -/
theorem lookup?_of_addType (hs : s.names.Nodup) {t x : TypeEntry} {anchor : Option String}
    (h : s.addType t anchor = .ok s') (hx : s.lookup? name = some x) :
    s'.lookup? name = some x := by
  rw [lookup?_addType hs h, if_neg, hx]
  rintro rfl
  obtain ⟨hmem, hname⟩ := mem_of_lookup? hx
  exact (perm_of_addType h).1 (hname ▸ List.mem_map_of_mem hmem)

end Schema

namespace Registry.Sound

variable {record record' : Record → Prop} {union union' : Bool → Prop} {r : Registry}

/-- A change of the schema leaves the constants alone. -/
theorem change {s : Schema} (h : r.Sound record union) (hconstants : s.constants = r.constants)
    (hstart : s.algPrefix = r.algPrefix) (hs : s.Shaped (TypeEntry.Meets record' union')) :
    Registry.Sound record' union' { r with toSchema := s } :=
  ⟨h.settled.of_constants rfl hconstants hstart, hs⟩

/-- The structure that was found under a name is changed. -/
theorem modifyRecord {name : String} {found : Record} {f : Record → Record}
    (h : r.Sound record union) (hl : (r.lookup? name).bind TypeEntry.record? = some found)
    (hf : record found → record (f found)) (hempty : found.fields = [] → (f found).fields = []) :
    Registry.Sound record union { r with toSchema := r.toSchema.modifyRecord name f } := by
  refine h.change rfl rfl
    (h.shaped.modifyType (TypeEntry.specName_mapRecord f) fun t ht hn hp => ?_)
  obtain ⟨t', ht', hfound⟩ := Option.bind_eq_some_iff.mp hl
  have hlookup := Schema.lookup?_of_mem h.shaped.names ht
  rw [hn, ht', Option.some.injEq] at hlookup
  subst hlookup
  refine hp.mapRecord (fun x hx hr => ?_) fun x hx hr => ?_
  · cases hfound.symm.trans hx
    exact hf hr
  · cases hfound.symm.trans hx
    exact hempty hr

end Registry.Sound

theorem Registry.Sound.imp {record record' : Record → Prop} {union union' : Bool → Prop}
    {r : Registry} (h : r.Sound record union) (hr : ∀ r, record r → record' r)
    (hu : ∀ b, union b → union' b) : r.Sound record' union' :=
  ⟨h.settled, h.shaped.names, fun t ht => (h.shaped.entries t ht).imp hr hu⟩

end WireTables
