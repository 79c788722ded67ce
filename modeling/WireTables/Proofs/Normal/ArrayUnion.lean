import WireTables.Proofs.Normal.Steps

/-!
# Unions of arrays

A field of a union of arrays is an array of bytes from the start (`apart_of_extract`), and no pass
makes a union of arrays or a union-typed field of a union that no such field was of (`Narrows`). So
a union-typed field of a registry in normal form is of a union with a member that is no array.
-/

namespace WireTables

namespace Schema

/-- All members of the union of this name are arrays. -/
def HasArrayUnion (s : Schema) (name : String) : Prop :=
  ∃ t ∈ s.types, t.specName = name ∧ ∃ u, t.union? = some u ∧ u.isArrayUnion = true

/-- Some union-typed field is of this type. -/
def HasUnionField (s : Schema) (type : String) : Prop :=
  ∃ t ∈ s.types, ∃ r, t.record? = some r ∧
    ∃ f ∈ r.fields, f.marshal = .unionBody ∧ f.typeName = type

/-- No union-typed field is of a union of arrays. -/
def ArraysApart (s : Schema) : Prop :=
  ∀ name, s.HasArrayUnion name → ¬ s.HasUnionField name

/-- The second schema has only unions of arrays and types of union-typed fields that the first one
has. -/
structure Narrows (s s' : Schema) : Prop where
  arrays : ∀ name, s'.HasArrayUnion name → s.HasArrayUnion name
  fields : ∀ type, s'.HasUnionField type → s.HasUnionField type

/-- As a type of the schema, this one would be no new union of arrays, and none of its union-typed
fields would be of a new type. -/
structure Admits (s : Schema) (t : TypeEntry) : Prop where
  arrays : ∀ u, t.union? = some u → u.isArrayUnion = true → s.HasArrayUnion t.specName
  fields : ∀ r, t.record? = some r → ∀ f ∈ r.fields, f.marshal = .unionBody →
    s.HasUnionField f.typeName

variable {s s' s'' : Schema}

theorem Narrows.refl (s : Schema) : s.Narrows s :=
  ⟨fun _ h => h, fun _ h => h⟩

theorem Narrows.trans (h : s.Narrows s') (h' : s'.Narrows s'') : s.Narrows s'' :=
  ⟨fun name hn => h.arrays name (h'.arrays name hn),
    fun type ht => h.fields type (h'.fields type ht)⟩

theorem Narrows.apart (h : s.Narrows s') (hs : s.ArraysApart) : s'.ArraysApart :=
  fun name hunion hfield => hs name (h.arrays name hunion) (h.fields name hfield)

theorem Narrows.of_admits (h : ∀ t ∈ s'.types, s.Admits t) : s.Narrows s' where
  arrays := by
    rintro _ ⟨t, ht, rfl, u, hu, harray⟩
    exact (h t ht).arrays u hu harray
  fields := by
    rintro _ ⟨t, ht, r, hr, f, hf, hm, rfl⟩
    exact (h t ht).fields r hr f hf hm

namespace Admits

variable {t : TypeEntry}

theorem of_mem (ht : t ∈ s.types) : s.Admits t where
  arrays u hu harray := ⟨t, ht, rfl, u, hu, harray⟩
  fields r hr f hf hm := ⟨t, ht, r, hr, f, hf, hm, rfl⟩

/-- A structure is changed. -/
theorem mapRecord {change : Record → Record} (ht : t ∈ s.types)
    (h : ∀ r, t.record? = some r → ∀ f ∈ (change r).fields, f.marshal = .unionBody →
      s.HasUnionField f.typeName) : s.Admits (t.mapRecord change) := by
  have hmem := of_mem ht
  obtain ⟨id, specName, name, comment, implemented, kind⟩ := t
  cases kind with
  | record r =>
    refine ⟨nofun, ?_⟩
    rintro _ ⟨⟩
    exact h r rfl
  | _ => exact hmem

/-- A structure is changed without new union-typed fields. -/
theorem mapRecord_of_subset {change : Record → Record} (ht : t ∈ s.types)
    (h : ∀ r, t.record? = some r → ∀ f ∈ (change r).fields, f.marshal = .unionBody →
      f ∈ r.fields) : s.Admits (t.mapRecord change) :=
  mapRecord ht fun r hr f hf hm => ⟨t, ht, r, hr, f, h r hr f hf hm, hm, rfl⟩

/-- A structure without fields of its own is new. -/
theorem of_derived {r : Record} (hkind : t.kind = .record r) (hr : r.fields = []) :
    s.Admits t := by
  obtain ⟨id, specName, name, comment, implemented, kind⟩ := t
  cases hkind
  refine ⟨nofun, ?_⟩
  rintro _ ⟨⟩ f hf
  rw [hr] at hf
  cases hf

end Admits

theorem Narrows.modifyType {name : String} {change : TypeEntry → TypeEntry}
    (h : ∀ t ∈ s.types, t.specName = name → s.Admits (change t)) :
    s.Narrows (s.modifyType name change) := by
  refine .of_admits fun t' ht' => ?_
  obtain ⟨t, ht, rfl⟩ := List.mem_map.mp ht'
  split
  · next hn => exact h t ht (by simpa using hn)
  · exact .of_mem ht

theorem hasUnionField_of_lookup? {name : String} {r : Record} {f : Field}
    (hl : (s.lookup? name).bind TypeEntry.record? = some r) (hf : f ∈ r.fields)
    (hm : f.marshal = .unionBody) : s.HasUnionField f.typeName := by
  obtain ⟨t, ht, hr⟩ := Option.bind_eq_some_iff.mp hl
  exact ⟨t, (mem_of_lookup? ht).1, r, hr, f, hf, hm, rfl⟩

end Schema

open Schema

section Passes

variable {s : Schema} {config : Config} {owner : String}

theorem narrows_linkSizedPairs : s.Narrows s.linkSizedPairs := by
  refine .of_admits fun t' ht' => ?_
  obtain ⟨t, ht, rfl⟩ := List.mem_map.mp ht'
  refine .mapRecord_of_subset ht fun r _ f hf hm => ?_
  have hf : f ∈ (s.linkSizedPair r.fields).getD r.fields := hf
  unfold linkSizedPair at hf
  split at hf
  · split at hf
    · rcases List.mem_cons.mp hf with rfl | hf
      · cases hm
      · rw [List.mem_singleton.mp hf] at hm
        cases hm
    · exact hf
  · exact hf

/-- A union-typed field that comes with a wrapper is of the union that it was of there. -/
theorem hasUnionField_of_pieces {f g : Field} (hg : g ∈ s.pieces config owner f)
    (hm : g.marshal = .unionBody) : g = f ∨ s.HasUnionField g.typeName := by
  unfold pieces at hg
  split at hg
  · next tag data hw =>
    obtain ⟨-, t, r, hrecord, -, hwraps⟩ := wrapperOf?_eq_some.mp hw
    rcases List.mem_cons.mp hg with rfl | hg
    · have hm : tag.marshal = .unionBody := hm
      rcases hwraps.marshal with ⟨ht, -⟩ | ⟨ht, -⟩ <;> cases hm.symm.trans ht
    · rw [List.mem_singleton.mp hg] at hm ⊢
      obtain ⟨ht, hr⟩ := recordOf?_eq_some.mp hrecord
      refine .inr ⟨t, mem_of_target ht, r, hr, data, ?_, hm, rfl⟩
      rw [hwraps.fields]
      exact List.mem_cons_of_mem _ List.mem_cons_self
  · exact .inl (List.mem_singleton.mp hg)

theorem isArrayUnion_modify {u : UnionType} {index : Nat} {type : String} :
    ({ u with members := u.members.modify index ({ · with typeName := type }) } :
      UnionType).isArrayUnion = u.isArrayUnion := by
  have sizes : ∀ u : UnionType, u.present.map (·.arraySize) =
      (((u.members.map (·.arraySize)).zipIdx).filter fun x =>
        some x.2 != u.nullMember).map (·.1) := by
    intro u
    unfold UnionType.present
    rw [List.zipIdx_map, List.filter_map, List.map_map, List.map_map]
    rfl
  have all : ∀ u : UnionType, u.isArrayUnion =
      (!(u.present.map (·.arraySize)).isEmpty && (u.present.map (·.arraySize)).all (·.isSome)) := by
    intro u
    unfold UnionType.isArrayUnion
    rw [List.isEmpty_map, List.all_map]
    rfl
  have hmembers : (u.members.modify index ({ · with typeName := type })).map (·.arraySize) =
      u.members.map (·.arraySize) := by
    refine List.ext_getElem? fun i => ?_
    rw [List.getElem?_map, List.getElem?_map, List.getElem?_modify]
    cases u.members[i]? with
    | none => rfl
    | some m => by_cases hi : index = i <;> simp [hi]
  rw [all, all, sizes, sizes, hmembers]

theorem narrows_linkUnions : s.Narrows s.linkUnions := by
  refine .of_admits fun t' ht' => ?_
  obtain ⟨t, ht, rfl⟩ := List.mem_map.mp ht'
  exact .mapRecord_of_subset ht fun _ _ _ hf _ => hf

end Passes

namespace Edit

variable {config : Config} {r r' : Registry} {n : Nat} {u : Unit}

/-- A member of another type is an array as before. -/
theorem narrows_retype {s : Schema} {union type : String} {index : Nat} :
    s.Narrows (s.modifyType union (·.mapUnion fun u =>
      { u with members := u.members.modify index ({ · with typeName := type }) })) := by
  refine .modifyType fun t ht _ => ?_
  have hmem := Admits.of_mem ht
  obtain ⟨id, specName, name, comment, implemented, kind⟩ := t
  cases kind with
  | union u =>
    refine ⟨?_, nofun⟩
    rintro _ ⟨⟩ harray
    exact hmem.arrays u rfl (isArrayUnion_modify.symm.trans harray)
  | _ => exact hmem

theorem narrows_of_reshapes (h : Reshapes config r r') : r.Narrows r'.toSchema := by
  cases h with
  | pairs => exact narrows_linkSizedPairs
  | rewrite h =>
    cases h with
    | inline lookup inlined =>
      refine .modifyType fun t ht _ => .mapRecord ht fun _ _ g hg hm => ?_
      dsimp only at hg
      rw [inlineFields_eq_ok inlined] at hg
      obtain ⟨f, hf, hg⟩ := List.mem_flatMap.mp hg
      rcases hasUnionField_of_pieces hg hm with rfl | hfield
      · exact hasUnionField_of_lookup? lookup hf hm
      · exact hfield
    | imply =>
      refine .modifyType fun t ht _ => .mapRecord_of_subset ht fun _ _ f hf hm => ?_
      rcases mem_implyLength hf with hf | hrest
      · exact hf
      · cases hm.symm.trans hrest
    | remember => exact .refl _
    | note => exact .modifyType fun t ht _ => .mapRecord_of_subset ht fun _ _ _ hf _ => hf
    | tail =>
      refine .modifyType fun t ht _ => .mapRecord_of_subset ht fun r _ f hf hm => ?_
      rcases mem_makePlain hf with hf | hplain
      · rcases mem_withPlain hf with hf | hplain
        · exact hf
        · cases hm.symm.trans hplain
      · cases hm.symm.trans hplain
    | drop =>
      exact .modifyType fun t ht _ => ⟨(Admits.of_mem ht).arrays, (Admits.of_mem ht).fields⟩

theorem narrows_of_separates {union : String} (h : Separates union r r') :
    r.Narrows r'.toSchema := by
  cases h with
  | derive target moved =>
    refine Narrows.trans (.modifyType fun t ht _ => ?_)
      (.of_admits fun t ht => .of_mem (mem_of_ensureAfter moved ht))
    exact .of_derived rfl rfl
  | add added =>
    refine .of_admits fun t ht => ?_
    rcases mem_of_addType added ht with rfl | ht
    · exact .of_derived rfl rfl
    · exact .of_mem ht
  | rename => exact narrows_retype

theorem narrows_separateUnion {union : String} (hy : Yields (separateUnion config union) r n r') :
    r.Narrows r'.toSchema :=
  invariant_of_steps (I := fun r' => r.Narrows r'.toSchema) (separates_separateUnion hy) (.refl _)
    fun _ _ h hstep => h.trans (narrows_of_separates hstep)

/-- Normal form has no new unions of arrays, and no union-typed fields of other unions. -/
theorem narrows_normalize (hy : Yields (normalize config) r u r') : r.Narrows r'.toSchema :=
  invariant_of_passes (I := fun r' => r.Narrows r'.toSchema) (passes_of_normalize hy).1 (.refl _)
    (fun _ _ h hstep => h.trans (narrows_of_reshapes hstep))
    (fun _ _ _ _ h hy => h.trans (narrows_separateUnion hy))
    fun _ h => h.trans narrows_linkUnions

end Edit

namespace Extraction

/-- Fields of unions of arrays are no union-typed fields. -/
theorem apart_selectArrays {s : Schema} (h : s.Tabled) : (selectArrays s).ArraysApart := by
  rintro _ ⟨t', ht', rfl, u, hu, harray⟩ ⟨x', hx', r', hr', f', hf', hm, hname⟩
  obtain ⟨t, ht, rfl⟩ := List.mem_map.mp ht'
  obtain ⟨x, hx, rfl⟩ := List.mem_map.mp hx'
  have harrays : t.specName ∈ (s.unions.filter (·.2.isArrayUnion)).map (·.1.specName) := by
    have hmeets := h.entries t ht
    obtain ⟨id, specName, name, comment, implemented, kind⟩ := t
    cases kind with
    | union v =>
      cases hu
      refine List.mem_map.mpr ⟨(_, u), List.mem_filter.mpr ⟨?_, harray⟩, rfl⟩
      exact List.mem_filterMap.mpr ⟨_, List.mem_filter.mpr ⟨ht, hmeets⟩, rfl⟩
    | _ => cases hu
  rw [TypeEntry.specName_mapRecord] at hname
  obtain ⟨id, specName, name, comment, implemented, kind⟩ := x
  cases kind with
  | record r =>
    cases hr'
    obtain ⟨f, hf, rfl⟩ := List.mem_map.mp hf'
    split at hm
    · cases hm
    · next hother =>
      rw [if_neg hother] at hname
      rw [hm, hname] at hother
      exact hother (by simpa using harrays)
  | _ => cases hr'

theorem apart_of_extract {tables : List Table} {config : Config} {r : Registry}
    {report : ExtractionReport} (h : extract tables config = .ok (r, report)) :
    r.ArraysApart := by
  unfold extract at h
  obtain ⟨⟨report', s⟩, hadd, h⟩ := bind_eq_ok.mp h
  have htabled : s.Tabled := (addTables_keeps tables _ _ _ hadd (tabled_initial config.algPrefix)).1
  simp only at h
  split at h
  · next r' hcheck =>
    cases h
    obtain ⟨known, -, rfl⟩ := Registry.yields_of_calculate hcheck
    exact narrows_linkUnions.apart (apart_selectArrays htabled)
  · cases h

end Extraction

/-- In normal form no union-typed field is of a union of arrays. -/
theorem Registry.Normalized.apart {tables : List Table} {config : Config} {r : Registry}
    (h : r.Normalized tables config) : r.ArraysApart := by
  obtain ⟨r₀, report, hextract, hy⟩ := h
  exact (Edit.narrows_normalize hy).apart (Extraction.apart_of_extract hextract)

end WireTables
