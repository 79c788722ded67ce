import WireTables.Proofs.Schema.Inheritance
import WireTables.Schema.Link

/-!
# Structures that change in place

Most passes change structures under their names and leave the other types as they are. Such a change
is `InPlace`: names go on to denote what they denoted, changed where it is a structure
(`recordOf?_mapTypes`), and elementary values are the same (`scalar?_mapTypes`). Where bases stay
too, all fields of a structure are made of all fields that it had (`HasFields.mapTypes`,
`exists_of_hasFields`); linking structures to unions leaves them as they are
(`hasFields_linkUnions`).
-/

namespace WireTables

/-- Types keep their names, and what they are if they are no structures. -/
structure TypeEntry.InPlace (change : TypeEntry → TypeEntry) : Prop where
  name : ∀ t, (change t).specName = t.specName
  record : ∀ t, (change t).record?.isSome = t.record?.isSome
  other : ∀ t, t.record? = none → (change t).kind = t.kind

namespace TypeEntry

theorem InPlace.mapRecord (f : String → Record → Record) :
    InPlace fun t => t.mapRecord (f t.specName) where
  name t := specName_mapRecord _ t
  record t := by
    obtain ⟨id, specName, name, comment, implemented, kind⟩ := t
    cases kind <;> rfl
  other t ht := by
    obtain ⟨id, specName, name, comment, implemented, kind⟩ := t
    cases kind with
    | record r => cases ht
    | _ => rfl

theorem record?_mapRecord (f : Record → Record) (t : TypeEntry) :
    (t.mapRecord f).record? = t.record?.map f := by
  obtain ⟨id, specName, name, comment, implemented, kind⟩ := t
  cases kind <;> rfl

theorem implemented_mapRecord (f : Record → Record) (t : TypeEntry) :
    (t.mapRecord f).implemented = t.implemented := by
  obtain ⟨id, specName, name, comment, implemented, kind⟩ := t
  cases kind <;> rfl

theorem InPlace.alias {change : TypeEntry → TypeEntry} (h : InPlace change) {t : TypeEntry}
    {a : AliasType} (hk : t.kind = .aliasOf a) : (change t).kind = .aliasOf a := by
  rw [h.other t (by unfold record?; rw [hk]), hk]

theorem InPlace.not_alias {change : TypeEntry → TypeEntry} (h : InPlace change) {t : TypeEntry}
    (hk : ∀ a, t.kind ≠ .aliasOf a) (a : AliasType) : (change t).kind ≠ .aliasOf a := by
  intro hk'
  cases hr : t.record? with
  | none => exact hk a (h.other t hr ▸ hk')
  | some r =>
    have hsome := h.record t
    rw [hr] at hsome
    unfold record? at hsome
    rw [hk'] at hsome
    cases hsome

/-- A union stays the same union, and what is none does not become one. -/
theorem InPlace.union {change : TypeEntry → TypeEntry} (h : InPlace change) (t : TypeEntry) :
    (change t).union? = t.union? := by
  unfold union?
  cases hr : t.record? with
  | none => rw [h.other t hr]
  | some r =>
    have hsome := h.record t
    rw [hr] at hsome
    obtain ⟨r', hr'⟩ := Option.isSome_iff_exists.mp hsome
    rw [TypeEntry.kind_of_record? hr, TypeEntry.kind_of_record? hr']

/-- Only the type of a name is changed. -/
theorem InPlace.modify {change : TypeEntry → TypeEntry} (h : InPlace change) (name : String) :
    InPlace fun t => if t.specName == name then change t else t where
  name t := by
    split
    · exact h.name t
    · rfl
  record t := by
    split
    · exact h.record t
    · rfl
  other t ht := by
    split
    · exact h.other t ht
    · rfl

end TypeEntry

namespace Schema

/-- The schema with each of its types changed. -/
def mapTypes (change : TypeEntry → TypeEntry) (s : Schema) : Schema :=
  { s with types := s.types.map change }

variable {s : Schema} {change : TypeEntry → TypeEntry} {name : String}

section InPlace

variable (h : TypeEntry.InPlace change)

include h

theorem lookup?_mapTypes : (s.mapTypes change).lookup? name = (s.lookup? name).map change := by
  unfold lookup? mapTypes
  rw [List.find?_map]
  congr 2
  funext t
  exact congrArg (· == name) (h.name t)

theorem names_mapTypes : (s.mapTypes change).names = s.names := by
  unfold names mapTypes
  rw [List.map_map]
  exact List.map_congr_left fun t _ => h.name t

theorem require_mapTypes {referrer : String} : (s.mapTypes change).require name referrer =
    (s.require name referrer).map change := by
  unfold require
  rw [lookup?_mapTypes h]
  cases s.lookup? name <;> rfl

theorem followAliases_mapTypes {hops : Nat} {t : TypeEntry} :
    (s.mapTypes change).followAliases name hops (change t) =
      (s.followAliases name hops t).map change := by
  induction hops generalizing t with
  | zero => rfl
  | succ hops ih =>
    by_cases halias : ∃ a, t.kind = .aliasOf a
    · obtain ⟨a, hk⟩ := halias
      unfold followAliases
      simp only [h.alias hk, hk, h.name t]
      rw [require_mapTypes h]
      cases s.require a.base t.specName with
      | error e => rfl
      | ok t => exact ih
    · have hk : ∀ a, t.kind ≠ .aliasOf a := fun a ha => halias ⟨a, ha⟩
      rw [followAliases_self hk, followAliases_self (h.not_alias hk)]
      rfl

theorem target_mapTypes : (s.mapTypes change).target name = (s.target name).map change := by
  unfold target
  rw [require_mapTypes h]
  cases s.require name "typedef resolution" with
  | error e => rfl
  | ok t => exact followAliases_mapTypes h

/-- A name denotes the same structure, as it is after the change. -/
theorem recordOf?_mapTypes : (s.mapTypes change).recordOf? name = (s.recordOf? name).bind fun p =>
    (change p.1).record?.map (change p.1, ·) := by
  unfold recordOf?
  rw [target_mapTypes h]
  cases s.target name with
  | error e => rfl
  | ok t =>
    show (change t).record?.map _ = (t.record?.map _).bind _
    cases hr : t.record? with
    | some r => rfl
    | none =>
      have hnone := h.record t
      rw [hr, Option.isSome_none, Option.isSome_eq_false_iff, Option.isNone_iff_eq_none] at hnone
      rw [hnone]
      rfl

theorem recordOf?_of_mapTypes {t' : TypeEntry} {x' : Record}
    (hrecord : (s.mapTypes change).recordOf? name = some (t', x')) :
    ∃ t x, s.recordOf? name = some (t, x) ∧ t' = change t ∧ (change t).record? = some x' := by
  rw [recordOf?_mapTypes h] at hrecord
  obtain ⟨⟨t, x⟩, ht, hrecord⟩ := Option.bind_eq_some_iff.mp hrecord
  obtain ⟨y, hy, heq⟩ := Option.map_eq_some_iff.mp hrecord
  cases heq
  exact ⟨t, x, ht, rfl, hy⟩

theorem recordOf?_mapTypes_of {t : TypeEntry} {x : Record}
    (hrecord : s.recordOf? name = some (t, x)) :
    ∃ x', (s.mapTypes change).recordOf? name = some (change t, x') ∧
      (change t).record? = some x' := by
  have hsome := h.record t
  rw [(recordOf?_eq_some.mp hrecord).2] at hsome
  obtain ⟨x', hx'⟩ := Option.isSome_iff_exists.mp hsome
  refine ⟨x', ?_, hx'⟩
  rw [recordOf?_mapTypes h, hrecord]
  exact congrArg (Option.map _) hx'

theorem isRecord_mapTypes : (s.mapTypes change).isRecord name = s.isRecord name := by
  unfold isRecord
  cases hr : s.recordOf? name with
  | none =>
    rw [recordOf?_mapTypes h, hr]
    rfl
  | some p =>
    obtain ⟨x', hx', -⟩ := recordOf?_mapTypes_of h hr
    rw [hx']
    rfl

theorem followScalar?_mapTypes {hops : Nat} {t : TypeEntry} :
    (s.mapTypes change).followScalar? hops (change t) =
      (s.followScalar? hops t).map fun p => (change p.1, p.2) := by
  induction hops generalizing t with
  | zero => rfl
  | succ hops ih =>
    have next : ∀ base, ((s.mapTypes change).lookup? base >>=
        (s.mapTypes change).followScalar? hops) =
          (s.lookup? base >>= s.followScalar? hops).map fun p => (change p.1, p.2) := by
      intro base
      rw [lookup?_mapTypes h]
      cases s.lookup? base with
      | none => rfl
      | some t => exact ih
    cases hr : t.record? with
    | some r =>
      have hsome := h.record t
      rw [hr] at hsome
      obtain ⟨r', hr'⟩ := Option.isSome_iff_exists.mp hsome
      unfold followScalar?
      rw [TypeEntry.kind_of_record? hr, TypeEntry.kind_of_record? hr']
      rfl
    | none =>
      have hkind := h.other t hr
      unfold followScalar?
      rw [hkind]
      split <;> first | rfl | exact next _

/-- A name denotes the same elementary value, of a type that is changed like all others. -/
theorem scalarOf?_mapTypes : (s.mapTypes change).scalarOf? name =
    (s.scalarOf? name).map fun p => (change p.1, p.2) := by
  unfold scalarOf?
  rw [lookup?_mapTypes h]
  -- Both sides follow up to sixty-four names; nothing here may be left to evaluation.
  cases s.lookup? name with
  | none => simp only [Option.map_none, Option.bind_eq_bind, Option.bind_none]
  | some t =>
    simp only [Option.map_some, Option.bind_eq_bind, Option.bind_some]
    exact followScalar?_mapTypes h

/-- A name denotes the same elementary value. -/
theorem scalar?_mapTypes : (s.mapTypes change).scalar? name = s.scalar? name := by
  unfold scalar?
  rw [scalarOf?_mapTypes h, Option.map_map]
  rfl

end InPlace

section Inherited

variable {P : List Field → List Field → Prop} (h : TypeEntry.InPlace change)
  (happend : ∀ a a' b b', P a a' → P b b' → P (a ++ b) (a' ++ b'))
  (hown : ∀ t ∈ s.types, ∀ x x', t.record? = some x → (change t).record? = some x' →
    x'.base = x.base ∧ P x.fields x'.fields)

include h happend hown

/-- All fields are what is made of all fields, if this holds of the fields of each structure. -/
theorem HasFields.mapTypes {fields : List Field} (hf : s.HasFields name fields) :
    ∃ fields', (s.mapTypes change).HasFields name fields' ∧ P fields fields' := by
  induction hf with
  | own hrecord hnone =>
    obtain ⟨hmem, hx⟩ := mem_of_recordOf? hrecord
    obtain ⟨x', hrecord', hx'⟩ := recordOf?_mapTypes_of h hrecord
    obtain ⟨hbase, hp⟩ := hown _ hmem _ _ hx hx'
    exact ⟨_, .own hrecord' (hbase.trans hnone), hp⟩
  | derived hrecord hlink _ ih =>
    obtain ⟨hmem, hx⟩ := mem_of_recordOf? hrecord
    obtain ⟨x', hrecord', hx'⟩ := recordOf?_mapTypes_of h hrecord
    obtain ⟨hbase, hp⟩ := hown _ hmem _ _ hx hx'
    obtain ⟨inherited, hinherited, hp'⟩ := ih
    exact ⟨_, .derived hrecord' (hbase.trans hlink) hinherited, happend _ _ _ _ hp' hp⟩

theorem exists_of_hasFields {fields' : List Field}
    (hf : (s.mapTypes change).HasFields name fields') :
    ∃ fields, s.HasFields name fields ∧ P fields fields' := by
  induction hf with
  | own hrecord' hnone =>
    obtain ⟨t, x, hrecord, rfl, hx'⟩ := recordOf?_of_mapTypes h hrecord'
    obtain ⟨hmem, hx⟩ := mem_of_recordOf? hrecord
    obtain ⟨hbase, hp⟩ := hown _ hmem _ _ hx hx'
    exact ⟨x.fields, .own hrecord (hbase.symm.trans hnone), hp⟩
  | derived hrecord' hlink _ ih =>
    obtain ⟨t, x, hrecord, rfl, hx'⟩ := recordOf?_of_mapTypes h hrecord'
    obtain ⟨hmem, hx⟩ := mem_of_recordOf? hrecord
    obtain ⟨hbase, hp⟩ := hown _ hmem _ _ hx hx'
    obtain ⟨inherited, hinherited, hp'⟩ := ih
    exact ⟨_, .derived hrecord (hbase.symm.trans hlink) hinherited, happend _ _ _ _ hp' hp⟩

end Inherited

/-- The schema is the other one with types changed in place, and each structure in a way that `P`
allows for its name. -/
inductive RecastBy (P : String → Record → Record → Prop) (s : Schema) : Schema → Prop where
  | intro {change : TypeEntry → TypeEntry} (place : TypeEntry.InPlace change)
    (records : ∀ t ∈ s.types, ∀ x x', t.record? = some x → (change t).record? = some x' →
      P t.specName x x') : RecastBy P s (s.mapTypes change)

section RecastBy

variable {P : String → Record → Record → Prop} {s' s'' : Schema}

theorem RecastBy.refl (hP : ∀ name x, P name x x) : s.RecastBy P s := by
  have h : s.RecastBy P (s.mapTypes id) :=
    ⟨⟨fun _ => rfl, fun _ => rfl, fun _ _ => rfl⟩, fun t _ x x' hx hx' => by
      cases hx.symm.trans hx'
      exact hP _ _⟩
  rwa [mapTypes, List.map_id] at h

theorem RecastBy.trans (hP : ∀ name x y z, P name x y → P name y z → P name x z)
    (h : s.RecastBy P s') (h' : s'.RecastBy P s'') : s.RecastBy P s'' := by
  obtain @⟨change, place, records⟩ := h
  obtain @⟨change', place', records'⟩ := h'
  have hboth : s.RecastBy P (s.mapTypes (change' ∘ change)) := by
    refine ⟨⟨fun t => (place'.name _).trans (place.name t),
      fun t => (place'.record _).trans (place.record t), fun t ht => ?_⟩,
      fun t ht x x'' hx hx'' => ?_⟩
    · have hnone : (change t).record? = none := by
        have := place.record t
        rwa [ht, Option.isSome_none, Option.isSome_eq_false_iff, Option.isNone_iff_eq_none] at this
      exact (place'.other _ hnone).trans (place.other t ht)
    · have hsome := place.record t
      rw [hx] at hsome
      obtain ⟨x', hx'⟩ := Option.isSome_iff_exists.mp hsome
      have hlater := records' (change t) (List.mem_map_of_mem ht) x' x'' hx' hx''
      rw [place.name] at hlater
      exact hP _ _ _ _ (records t ht x x' hx hx') hlater
  rwa [mapTypes, ← List.map_map] at hboth

theorem RecastBy.imp {Q : String → Record → Record → Prop}
    (hPQ : ∀ name x y, P name x y → Q name x y) (h : s.RecastBy P s') : s.RecastBy Q s' := by
  obtain ⟨place, records⟩ := h
  exact ⟨place, fun t ht x x' hx hx' => hPQ _ _ _ (records t ht x x' hx hx')⟩

theorem RecastBy.mapRecord {f : String → Record → Record} (hf : ∀ name x, P name x (f name x)) :
    s.RecastBy P (s.mapTypes fun t => t.mapRecord (f t.specName)) := by
  refine ⟨.mapRecord f, fun t _ x x' hx hx' => ?_⟩
  rw [TypeEntry.record?_mapRecord, hx] at hx'
  cases hx'
  exact hf _ x

theorem RecastBy.modifyRecord {f : Record → Record} (hP : ∀ name x, P name x x)
    (hf : ∀ x, P name x (f x)) : s.RecastBy P (s.modifyRecord name f) := by
  refine ⟨(TypeEntry.InPlace.mapRecord fun _ => f).modify name, fun t _ x x' hx hx' => ?_⟩
  split at hx'
  · next hname =>
    rw [TypeEntry.record?_mapRecord, hx] at hx'
    cases hx'
    rw [show t.specName = name by simpa using hname]
    exact hf x
  · cases hx.symm.trans hx'
    exact hP _ _

theorem RecastBy.modifyType {change : TypeEntry → TypeEntry} (hplace : TypeEntry.InPlace change)
    (hrecord : ∀ t, (change t).record? = t.record?) (hP : ∀ name x, P name x x) :
    s.RecastBy P (s.modifyType name change) := by
  refine ⟨hplace.modify name, fun t _ x x' hx hx' => ?_⟩
  have hsame : x' = x := by
    split at hx'
    · rw [hrecord, hx] at hx'
      exact (Option.some.inj hx').symm
    · exact Option.some.inj (hx'.symm.trans hx)
  rw [hsame]
  exact hP _ _

theorem RecastBy.names_eq (h : s.RecastBy P s') : s'.names = s.names := by
  obtain ⟨place, -⟩ := h
  exact names_mapTypes place

theorem RecastBy.scalar? (h : s.RecastBy P s') : s'.scalar? name = s.scalar? name := by
  obtain ⟨place, -⟩ := h
  exact scalar?_mapTypes place

/-- Each structure is what a structure of its name has become. -/
theorem RecastBy.exists_record (h : s.RecastBy P s') {t' : TypeEntry} {x' : Record}
    (ht' : t' ∈ s'.types) (hx : t'.record? = some x') :
    ∃ t ∈ s.types, ∃ x, t'.specName = t.specName ∧ t.record? = some x ∧ P t.specName x x' := by
  obtain ⟨place, records⟩ := h
  obtain ⟨t, ht, rfl⟩ := List.mem_map.mp ht'
  have hsome := place.record t
  rw [hx] at hsome
  obtain ⟨x, hx₀⟩ := Option.isSome_iff_exists.mp hsome.symm
  exact ⟨t, ht, x, place.name t, hx₀, records t ht x x' hx₀ hx⟩

/-- Under a name there still is a structure, as it has become. -/
theorem RecastBy.exists_found (h : s.RecastBy P s') {x : Record}
    (hx : (s.lookup? name).bind TypeEntry.record? = some x) :
    ∃ x', (s'.lookup? name).bind TypeEntry.record? = some x' ∧ P name x x' := by
  obtain ⟨place, records⟩ := h
  obtain ⟨t, ht, hr⟩ := Option.bind_eq_some_iff.mp hx
  obtain ⟨hmem, rfl⟩ := mem_of_lookup? ht
  have hsome := place.record t
  rw [hr] at hsome
  obtain ⟨x', hx'⟩ := Option.isSome_iff_exists.mp hsome
  refine ⟨x', ?_, records t hmem x x' hr hx'⟩
  rw [lookup?_mapTypes place, ht]
  exact hx'

/-- A name goes on to denote a structure, as it has become. -/
theorem RecastBy.recordOf? (h : s.RecastBy P s') {t : TypeEntry} {x : Record}
    (hrecord : s.recordOf? name = some (t, x)) :
    ∃ t' x', s'.recordOf? name = some (t', x') ∧ P t.specName x x' := by
  obtain ⟨place, records⟩ := h
  obtain ⟨hmem, hx⟩ := mem_of_recordOf? hrecord
  obtain ⟨x', hrecord', hx'⟩ := recordOf?_mapTypes_of place hrecord
  exact ⟨_, x', hrecord', records t hmem x x' hx hx'⟩

end RecastBy

section Links

/-- The structure knows the unions that structures of its name are members of. -/
def relink (s : Schema) (name : String) (x : Record) : Record :=
  { x with memberOf := ((s.memberships.filter (·.1 == name)).map (·.2)).eraseDups }

/-- The type knows the unions that it is a member of, if it is a structure. -/
def relinkType (s : Schema) (t : TypeEntry) : TypeEntry :=
  t.mapRecord (s.relink t.specName)

theorem inPlace_relinkType : TypeEntry.InPlace s.relinkType :=
  .mapRecord s.relink

theorem record?_relinkType {t : TypeEntry} {x : Record} (hx : t.record? = some x) :
    (s.relinkType t).record? = some (s.relink t.specName x) := by
  unfold relinkType
  rw [TypeEntry.record?_mapRecord, hx, Option.map_some]

theorem linkUnions_eq_mapTypes : s.linkUnions = s.mapTypes s.relinkType :=
  rfl

theorem recast_linkUnions : s.RecastBy (fun name x x' => x' = s.relink name x) s.linkUnions :=
  .mapRecord (f := s.relink) fun _ _ => rfl

theorem scalar?_linkUnions : s.linkUnions.scalar? name = s.scalar? name :=
  scalar?_mapTypes inPlace_relinkType

theorem isRecord_linkUnions : s.linkUnions.isRecord name = s.isRecord name :=
  isRecord_mapTypes inPlace_relinkType

/-- Linking structures to unions changes no fields. -/
theorem hasFields_linkUnions {fields : List Field} :
    s.linkUnions.HasFields name fields ↔ s.HasFields name fields := by
  have hown : ∀ t ∈ s.types, ∀ x x', t.record? = some x → (s.relinkType t).record? = some x' →
      x'.base = x.base ∧ x.fields = x'.fields := by
    intro t _ x x' hx hx'
    rw [record?_relinkType hx] at hx'
    cases hx'
    exact ⟨rfl, rfl⟩
  have happend : ∀ a a' b b' : List Field, a = a' → b = b' → a ++ b = a' ++ b' := by
    rintro a _ b _ rfl rfl
    rfl
  rw [linkUnions_eq_mapTypes]
  constructor <;> intro h
  · obtain ⟨_, hbefore, rfl⟩ := exists_of_hasFields (P := Eq) inPlace_relinkType happend hown h
    exact hbefore
  · obtain ⟨_, hafter, rfl⟩ := h.mapTypes (P := Eq) inPlace_relinkType happend hown
    exact hafter

end Links

end Schema

end WireTables
