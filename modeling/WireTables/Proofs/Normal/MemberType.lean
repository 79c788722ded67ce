import WireTables.Proofs.Normal.NullTail

/-!
# Types for selectors

The structures that members get for themselves have a base and no fields of their own. So what is
put out and what fields are of does not change, wherever the new types are placed.
-/

namespace WireTables

/-- A structure derived from another one has no fields of its own. -/
theorem Record.Normal.derive {base : String} {errorCode : Option String} :
    ({ base := some base, errorCode } : Record).Normal :=
  ⟨ordered_nil, fun _ => ⟨rfl, rfl⟩, nofun, nofun⟩

namespace Schema

variable {s s' : Schema}

/-- The types of a schema with one more are the new one and those before. -/
theorem mem_of_addType {t : TypeEntry} {anchor : Option String} (h : s.addType t anchor = .ok s')
    {u : TypeEntry} (hu : u ∈ s'.types) : u = { t with id := s.types.length } ∨ u ∈ s.types :=
  List.mem_cons.mp ((perm_of_addType h).2.mem_iff.mp hu)

theorem same_of_addType {t : TypeEntry} {anchor : Option String} (h : s.addType t anchor = .ok s') :
    s'.constants = s.constants ∧ s'.algPrefix = s.algPrefix := by
  unfold addType at h
  split at h
  · cases h
  · cases anchor with
    | none =>
      cases h
      exact ⟨rfl, rfl⟩
    | some anchor =>
      dsimp only at h
      split at h
      · cases h
        exact ⟨rfl, rfl⟩
      · cases h

theorem same_of_ensureAfter {name anchor : String} (h : s.ensureAfter name anchor = .ok s') :
    s'.constants = s.constants ∧ s'.algPrefix = s.algPrefix := by
  unfold ensureAfter at h
  split at h
  · split at h
    · cases h
      exact ⟨rfl, rfl⟩
    · cases h
      exact ⟨rfl, rfl⟩
  · cases h

theorem mem_of_ensureAfter {name anchor : String} (h : s.ensureAfter name anchor = .ok s')
    {u : TypeEntry} (hu : u ∈ s'.types) : u ∈ s.types :=
  (perm_of_ensureAfter h).mem_iff.mp hu

theorem UnionsPut.modifyType {name : String} {change : TypeEntry → TypeEntry} (h : s.UnionsPut)
    (hchange : ∀ t : TypeEntry, t.Within (change t)) : (s.modifyType name change).UnionsPut := by
  refine h.of_within fun t' ht' => ?_
  obtain ⟨t, ht, rfl⟩ := List.mem_map.mp ht'
  refine .inl ⟨t, ht, ?_⟩
  split
  · exact hchange t
  · exact .refl t

end Schema

theorem TypeEntry.Within.derive {r : Record} (h : r.fields = []) (t : TypeEntry) :
    t.Within { t with kind := .record r } := by
  refine ⟨rfl, nofun, ?_⟩
  rintro _ ⟨⟩
  exact .inl h

theorem TypeEntry.Within.mapUnion (f : UnionType → UnionType) (t : TypeEntry) :
    t.Within (t.mapUnion f) := by
  obtain ⟨id, specName, name, comment, implemented, kind⟩ := t
  cases kind with
  | union u => exact ⟨rfl, fun _ => ⟨rfl, rfl⟩, nofun⟩
  | _ => exact .refl _

theorem TypeEntry.Within.mapRecord {f : Record → Record} (h : ∀ r, (f r).fields = r.fields)
    (t : TypeEntry) : t.Within (t.mapRecord f) := by
  obtain ⟨id, specName, name, comment, implemented, kind⟩ := t
  cases kind with
  | record r =>
    refine ⟨rfl, nofun, ?_⟩
    rintro _ ⟨⟩
    exact .inr ⟨r, rfl, h r⟩
  | _ => exact .refl _

namespace Edit

variable {config : Config} {r r' : Registry} {u : Unit} {n : Nat}

/-- A further name becomes a structure with a base, and may be moved. -/
theorem tailed_deriveFromAlias {name : String} (h : r.Tailed)
    (hy : Yields (deriveFromAlias name) r u r') : r'.Tailed := by
  unfold deriveFromAlias at hy
  obtain ⟨_, _, hs, hy⟩ := yields_bind.mp hy
  obtain ⟨rfl, rfl⟩ := yields_schema.mp hs
  obtain ⟨base, r₁, hof, hchange⟩ := yields_bind.mp hy
  obtain ⟨-, rfl⟩ := yields_ofExcept.mp hof
  obtain ⟨_, r₂, hupdate, hmove⟩ := yields_bind.mp hchange
  obtain ⟨s, hs, rfl⟩ := yields_tryUpdate.mp hmove
  have h₂ : r₂.Tailed := by
    rw [yields_update.mp hupdate]
    exact ⟨h.sound.change rfl rfl (h.sound.shaped.modifyType (fun _ => rfl) fun _ _ _ _ =>
      ⟨Record.Normal.derive, .inr rfl⟩), h.put.modifyType fun t => .derive rfl t⟩
  refine ⟨?_, h₂.put.of_within fun t ht => .inl ⟨t, Schema.mem_of_ensureAfter hs ht, .refl t⟩⟩
  have hsame := Schema.same_of_ensureAfter hs
  exact h₂.sound.change hsame.1 hsame.2 (h₂.sound.shaped.ensureAfter hs)

/-- A member is of another type from now on. -/
theorem tailed_retype {union type : String} {index : Nat} (h : r.Tailed) :
    Registry.Tailed { r with toSchema := r.toSchema.modifyType union (·.mapUnion fun u =>
      { u with members := u.members.modify index ({ · with typeName := type }) }) } := by
  refine ⟨h.sound.change rfl rfl (h.sound.shaped.modifyType (TypeEntry.specName_mapUnion _)
    fun t _ _ ht => ?_), h.put.modifyType (TypeEntry.Within.mapUnion _)⟩
  obtain ⟨id, specName, name, comment, implemented, kind⟩ := t
  cases kind <;> exact ht

/-- A structure derived for a selector is added, and a member is of it from then on. -/
theorem tailed_addDerived {union : String} {anchors : List (String × String)} {change : Renaming}
    {result : List (String × String) × Nat} (h : r.Tailed)
    (hy : Yields (addDerived union anchors change) r result r') : r'.Tailed := by
  unfold addDerived at hy
  obtain ⟨_, r₀, hs, hy⟩ := yields_bind.mp hy
  obtain ⟨rfl, rfl⟩ := yields_schema.mp hs
  dsimp only at hy
  split at hy
  · obtain ⟨_, r₁, hadd, hy⟩ := yields_bind.mp hy
    obtain ⟨s, hs, rfl⟩ := yields_tryUpdate.mp hadd
    obtain ⟨_, _, hupdate, hend⟩ := yields_bind.mp hy
    obtain ⟨-, rfl⟩ := yields_pure.mp hend
    rw [yields_update.mp hupdate]
    have hsame := Schema.same_of_addType hs
    refine tailed_retype (r := { r₀ with toSchema := s })
      ⟨h.sound.change hsame.1 hsame.2 (h.sound.shaped.addType hs fun id =>
        ⟨Record.Normal.derive, .inl rfl⟩), h.put.of_within fun t ht => ?_⟩
    rcases Schema.mem_of_addType hs ht with rfl | ht
    · exact .inr ⟨_, rfl, rfl⟩
    · exact .inl ⟨t, ht, .refl t⟩
  · obtain ⟨_, _, hupdate, hend⟩ := yields_bind.mp hy
    obtain ⟨-, rfl⟩ := yields_pure.mp hend
    rw [yields_update.mp hupdate]
    exact tailed_retype h

theorem tailed_addAllDerived {union : String} {renamings : List Renaming}
    {anchors : List (String × String)} (h : r.Tailed)
    (hy : Yields (addAllDerived union anchors renamings) r n r') : r'.Tailed := by
  induction renamings generalizing r n anchors with
  | nil =>
    obtain ⟨-, rfl⟩ := yields_pure.mp hy
    exact h
  | cons change rest ih =>
    unfold addAllDerived at hy
    obtain ⟨⟨anchors', count⟩, r₁, hadd, hy⟩ := yields_bind.mp hy
    obtain ⟨m, r₂, hrest, hend⟩ := yields_bind.mp hy
    obtain ⟨-, rfl⟩ := yields_pure.mp hend
    exact ih (tailed_addDerived h hadd) hrest

theorem tailed_separateUnion {union : String} (h : r.Tailed)
    (hy : Yields (separateUnion config union) r n r') : r'.Tailed := by
  unfold separateUnion at hy
  obtain ⟨_, _, hs, hy⟩ := yields_bind.mp hy
  obtain ⟨rfl, rfl⟩ := yields_schema.mp hs
  split at hy
  · obtain ⟨-, rfl⟩ := yields_pure.mp hy
    exact h
  · obtain ⟨_, r₁, hderive, hy⟩ := yields_bind.mp hy
    obtain ⟨_, _, hs, hy⟩ := yields_bind.mp hy
    obtain ⟨rfl, rfl⟩ := yields_schema.mp hs
    obtain ⟨renamings, r₂, hof, hadd⟩ := yields_bind.mp hy
    obtain ⟨-, rfl⟩ := yields_ofExcept.mp hof
    obtain ⟨m, r₃, hrest, hend⟩ := yields_bind.mp hadd
    obtain ⟨-, rfl⟩ := yields_pure.mp hend
    exact tailed_addAllDerived (hderive.forM h fun _ _ _ _ => tailed_deriveFromAlias) hrest

/-- Members of all unions get types of their own. -/
theorem tailed_separateUnions (h : r.Tailed) (hy : Yields (separateUnions config) r n r') :
    r'.Tailed := by
  unfold separateUnions at hy
  obtain ⟨_, _, hs, hy⟩ := yields_bind.mp hy
  obtain ⟨rfl, rfl⟩ := yields_schema.mp hs
  refine hy.foldlM h fun union _ count r n r' hr hy => ?_
  obtain ⟨m, r₂, hm, hy⟩ := yields_bind.mp hy
  obtain ⟨-, rfl⟩ := yields_pure.mp hy
  exact tailed_separateUnion hr hm

end Edit

end WireTables
