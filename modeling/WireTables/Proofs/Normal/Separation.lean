import WireTables.Proofs.Normal.Division

/-!
# Separated unions

A pass over the unions works on one union after the other, and what it makes of one it does not
touch again. So what holds of a union right after it has been separated holds in the end: its
members are those that it had, with types of their own where they shared them (`Divided`). Each of
them names a structure, unless its name denoted none, or was a further name already and is the name
that a type for the selector of the member gets (`Separated`).

What the changes leave of all other types is kept from the first union to the last (`Grows`): the
structures that are new are derived from shared types, structures have the fields that they had, and
a name that denotes something else goes on to do so.

Separating unions only adds structures without fields, each derived from a structure that is there.
So what there was is left as it was: structures, elementary values and what names denote; and every
structure has the fields that one of the structures before had (`outgrows_separateUnions`).
-/

namespace WireTables

open Relation (ReflTransGen)

namespace Schema

/-- What the schema has grown from, by structures that are derived from types that members of unions
share. -/
structure Grows (config : Config) (s₀ s : Schema) : Prop where
  becomes : s₀.Becomes (fun _ => True) s
  derived : ∀ name t, s.lookup? name = some t → name ∉ s₀.names →
    ∃ p ∈ s₀.sharedPairs, derivedName config p.1 p.2 = name ∧
      ∃ r, t.record? = some r ∧ r.Derives p.1
  fields : ∀ name fields, s₀.HasFields name fields → s.HasFields name fields
  others : ∀ name, s₀.DenotesOther name → s.DenotesOther name

/-- The union has been separated: its members have types of their own where they shared them, these
types are there, and members that denote structures name them. -/
structure Divided (config : Config) (s₀ s : Schema) (t : TypeEntry) (u : UnionType) : Prop where
  union : s.lookup? t.specName = some { t with kind := .union (u.divide config) }
  derived : ∀ m ∈ u.members, u.isShared m.typeName = true →
    s.contains (derivedName config m.typeName m.selector) = true
  node : ∀ m ∈ u.members, s₀.isRecord m.typeName = true → s.IsNode m.typeName

/-- Each member of a union is a structure itself, denoted none under its name in `s₀`, or has the
name that the type for its selector gets. -/
def Separated (config : Config) (s₀ s : Schema) (union : String) : Prop :=
  ∀ t ∈ s.types, t.specName = union → ∀ u, t.union? = some u → ∀ m ∈ u.members,
    s.IsNode m.typeName ∨ s₀.isRecordAlias m.typeName = false ∨
      ∃ t₀ ∈ s₀.types, t₀.specName = union ∧ ∃ u₀, t₀.union? = some u₀ ∧ ∃ m₀ ∈ u₀.members,
        m₀.selector = m.selector ∧ m.typeName = derivedName config m₀.typeName m₀.selector

variable {config : Config} {s₀ s s' : Schema} {t : TypeEntry} {u : UnionType}

theorem Grows.refl (s : Schema) : s.Grows config s where
  becomes := .refl s
  derived _ _ ht hnot := by
    obtain ⟨hmem, rfl⟩ := mem_of_lookup? ht
    exact (hnot (List.mem_map_of_mem hmem)).elim
  fields _ _ h := h
  others _ h := h

/-- Other unions that are separated do not matter. -/
theorem Divided.later {touched : String → Prop} (h : Divided config s₀ s t u)
    (hb : s.Becomes touched s')
    (hstays : ∀ x, s.lookup? t.specName = some x → x.union?.isSome = true →
      s'.lookup? t.specName = some x) : Divided config s₀ s' t u :=
  ⟨hstays _ h.union rfl, fun m hm hshared => hb.contains (h.derived m hm hshared),
    fun m hm hrecord => hb.isNode (h.node m hm hrecord)⟩

/-- The selectors of members that share a type, with the type. -/
theorem mem_sharedPairs {p : String × String} : p ∈ s.sharedPairs ↔
    ∃ t u, (t, u) ∈ s.unions ∧ ∃ m ∈ u.members, u.isShared m.typeName = true ∧
      (m.typeName, m.selector) = p := by
  unfold sharedPairs
  simp only [List.mem_flatMap, List.mem_map, List.mem_filter, Prod.exists, and_assoc]

theorem pair_mem_sharedPairs {m : UnionMember} (htu : (t, u) ∈ s.unions) (hm : m ∈ u.members)
    (hshared : u.isShared m.typeName = true) : (m.typeName, m.selector) ∈ s.sharedPairs :=
  mem_sharedPairs.mpr ⟨t, u, htu, m, hm, hshared, rfl⟩

end Schema

namespace Edit

open Schema

variable {config : Config} {r r' : Registry} {s₀ : Schema} {found : UnionType} {union : String}
  {n : Nat}

/-- A type that is new is derived from one that members share. -/
theorem Divides.exists_of_new (h : Divides config found union r r') (hr : r.names.Nodup)
    {name : String} {t : TypeEntry} (hnew : r.lookup? name = none)
    (ht : r'.lookup? name = some t) : ∃ m ∈ found.members, found.isShared m.typeName = true ∧
      derivedName config m.typeName m.selector = name ∧
        ∃ x, t.record? = some x ∧ x.Derives m.typeName := by
  cases h with
  | @derive changed base errorCode s further target moved =>
    have hlookup : s.lookup? name = _ := lookup?_of_moved hr moved
    rw [hnew] at hlookup
    cases hlookup.symm.trans ht
  | @add m comment anchor s member shared added =>
    have hlookup : s.lookup? name = _ := lookup?_addType hr added
    split at hlookup
    · next hname =>
      cases hlookup.symm.trans ht
      exact ⟨m, member, shared, hname.symm, _, rfl, rfl, rfl⟩
    · rw [hnew] at hlookup
      cases hlookup.symm.trans ht
  | rename index type =>
    have hlookup : (r.toSchema.modifyType union _).lookup? name = _ :=
      lookup?_modifyType (TypeEntry.specName_mapUnion fun u =>
        { u with members := u.members.modify index ({ · with typeName := type }) })
    rw [hnew] at hlookup
    cases hlookup.symm.trans ht

/-- One change lets the schema grow. -/
theorem Divides.grows (h : Divides config found union r r') (hnames : s₀.names.Nodup)
    (hfound : ∀ m ∈ found.members, found.isShared m.typeName = true →
      (m.typeName, m.selector) ∈ s₀.sharedPairs)
    (hg : s₀.Grows config r.toSchema) : s₀.Grows config r'.toSchema := by
  have hr := hg.becomes.names hnames
  have hretains := h.retains hr
  refine ⟨hg.becomes.trans ((becomes_of_separates h.separates).mono fun _ _ => trivial),
    fun name t' ht' hnot => ?_, fun name fields hf => hretains.hasFields (hg.fields _ _ hf),
    fun name ho => hretains.denotesOther (hg.others _ ho)⟩
  cases ht : r.lookup? name with
  | some t =>
    obtain ⟨p, hp, hname, x, hx, hderives⟩ := hg.derived name t ht hnot
    cases (hretains.lookup?_record ht hx).symm.trans ht'
    exact ⟨p, hp, hname, x, hx, hderives⟩
  | none =>
    obtain ⟨m, hm, hshared, hname, hx⟩ := h.exists_of_new hr ht ht'
    exact ⟨_, hfound m hm hshared, hname, hx⟩

/-- What the changes to one union keep. -/
theorem grows_of_divides (hnames : s₀.names.Nodup)
    (hfound : ∀ m ∈ found.members, found.isShared m.typeName = true →
      (m.typeName, m.selector) ∈ s₀.sharedPairs)
    (h : ReflTransGen (Divides config found union) r r') (hg : s₀.Grows config r.toSchema) :
    s₀.Grows config r'.toSchema :=
  invariant_of_steps (I := fun r' => s₀.Grows config r'.toSchema) h hg
    fun _ _ hg hlast => hlast.grows hnames hfound hg

/-- Other unions are found as they were. -/
theorem other_of_divides (hr : r.names.Nodup)
    (h : ReflTransGen (Divides config found union) r r') {name : String} {t : TypeEntry}
    (ht : r.lookup? name = some t) (hu : t.union?.isSome = true) (hname : name ≠ union) :
    r'.lookup? name = some t :=
  (invariant_of_steps (I := fun r' => r'.names.Nodup ∧ r'.lookup? name = some t) h ⟨hr, ht⟩
    fun _ _ hi hlast => ⟨hlast.names hi.1, hlast.other hi.1 hi.2 hu hname⟩).2

/-- One union after the other is separated, and none is touched again. -/
theorem divided_foldlM (hnames : s₀.names.Nodup) {unions : List String} {count : Nat}
    (hunions : unions.Nodup) (hg : s₀.Grows config r.toSchema)
    (hleft : ∀ union ∈ unions, ∃ t u, (t, u) ∈ s₀.unions ∧ r.lookup? union = some t)
    (hy : Yields (unions.foldlM (fun count union => do
      return count + (← separateUnion config union)) count) r n r') :
    s₀.Grows config r'.toSchema ∧ r.Becomes (· ∈ unions) r'.toSchema ∧
      (∀ name t, name ∉ unions → r.lookup? name = some t → t.union?.isSome = true →
        r'.lookup? name = some t) ∧
      ∀ t u, (t, u) ∈ s₀.unions → t.specName ∈ unions → Divided config s₀ r'.toSchema t u := by
  induction unions generalizing r count with
  | nil =>
    obtain ⟨-, rfl⟩ := yields_pure.mp hy
    exact ⟨hg, .refl _, fun _ _ _ ht _ => ht, fun _ _ _ h => (List.not_mem_nil h).elim⟩
  | cons first rest ih =>
    rw [List.foldlM_cons] at hy
    obtain ⟨count', r₁, hround, hlater⟩ := yields_bind.mp hy
    obtain ⟨m, _, hfirst, hround⟩ := yields_bind.mp hround
    obtain ⟨-, rfl⟩ := yields_pure.mp hround
    obtain ⟨hfresh, hrest⟩ := List.nodup_cons.mp hunions
    have hr := hg.becomes.names hnames
    obtain ⟨t, u, htu, ht⟩ := hleft first List.mem_cons_self
    obtain ⟨hmem, -, hu⟩ := mem_unions.mp htu
    obtain rfl : t.specName = first := (mem_of_lookup? ht).2
    obtain ⟨hsteps, hunion, hcontains, hnode⟩ := divides_separateUnion hr ht hu hfirst
    have hb := becomes_of_divides hsteps
    have hg₁ := grows_of_divides hnames (fun m => pair_mem_sharedPairs htu) hsteps hg
    -- the unions that are left have not been touched
    obtain ⟨hg', hb', hkept, hall⟩ := ih hrest hg₁ (fun union hmem => by
      obtain ⟨t', u', htu', ht'⟩ := hleft union (List.mem_cons_of_mem _ hmem)
      have hu' := (mem_unions.mp htu').2.2
      exact ⟨t', u', htu', other_of_divides hr hsteps ht' (hu' ▸ rfl)
        fun heq => hfresh (heq ▸ hmem)⟩) hlater
    refine ⟨hg', (hb.mono fun _ heq => heq ▸ List.mem_cons_self).trans
      (hb'.mono fun _ => List.mem_cons_of_mem _), fun name x hname hx hux => ?_,
      fun t' u' htu' hname => ?_⟩
    · obtain ⟨hne, hnot⟩ := not_or.mp (mt List.mem_cons.mpr hname)
      exact hkept name x hnot (other_of_divides hr hsteps hx hux hne) hux
    · rcases List.mem_cons.mp hname with heq | hname
      · obtain ⟨hmem', -, hu'⟩ := mem_unions.mp htu'
        obtain rfl := List.inj_on_of_nodup_map hnames hmem' hmem heq
        cases hu.symm.trans hu'
        have hdivided : Divided config s₀ r₁.toSchema t' u :=
          ⟨hunion, hcontains, fun m hm hrecord => hnode m hm (hg.becomes.isRecord hnames hrecord)⟩
        exact hdivided.later hb' fun x hx hux => hkept _ x hfresh hx hux
      · exact hall t' u' htu' hname

/-- All unions that are put out are separated. -/
theorem divided_separateUnions (hnames : r.names.Nodup)
    (hy : Yields (separateUnions config) r n r') :
    r.toSchema.Grows config r'.toSchema ∧
      ∀ t u, (t, u) ∈ r.unions → Divided config r.toSchema r'.toSchema t u := by
  unfold separateUnions at hy
  obtain ⟨_, _, hs, hy⟩ := yields_bind.mp hy
  obtain ⟨rfl, rfl⟩ := yields_schema.mp hs
  obtain ⟨hg, -, -, hall⟩ := divided_foldlM hnames (nodup_unions hnames) (.refl _)
    (fun union hmem => by
      obtain ⟨⟨t, u⟩, htu, rfl⟩ := List.mem_map.mp hmem
      exact ⟨t, u, htu, lookup?_of_mem hnames (mem_unions.mp htu).1⟩) hy
  exact ⟨hg, fun t u htu => hall t u htu (List.mem_map_of_mem htu)⟩

/-- The unions that are put out are the same ones, separated. -/
theorem mem_unions_separateUnions (hnames : r.names.Nodup)
    (hy : Yields (separateUnions config) r n r') {t' : TypeEntry} {u' : UnionType} :
    (t', u') ∈ r'.unions ↔ ∃ t u, (t, u) ∈ r.unions ∧
      t' = { t with kind := .union (u.divide config) } ∧ u' = u.divide config := by
  obtain ⟨hg, hall⟩ := divided_separateUnions hnames hy
  constructor
  · intro htu'
    obtain ⟨ht', himplemented', hu'⟩ := mem_unions.mp htu'
    obtain ⟨t, ht, hname, u, hu, himplemented, -⟩ := hg.becomes.exists_union ht' hu'
    have htu : (t, u) ∈ r.unions := mem_unions.mpr ⟨ht, himplemented himplemented', hu⟩
    have hlookup := lookup?_of_mem (hg.becomes.names hnames) ht'
    rw [← hname, (hall t u htu).union] at hlookup
    obtain rfl := Option.some.inj hlookup
    exact ⟨t, u, htu, rfl, Option.some.inj hu'.symm⟩
  · rintro ⟨t, u, htu, rfl, rfl⟩
    exact mem_unions.mpr ⟨(mem_of_lookup? (hall t u htu).union).1, (mem_unions.mp htu).2.1, rfl⟩

/-- In all unions that are put out a member names a structure, but for names that denoted none or
are taken. -/
theorem separated_separateUnions (hnames : s₀.names.Nodup)
    (h : s₀.Becomes (fun _ => False) r.toSchema) (hy : Yields (separateUnions config) r n r') :
    s₀.Becomes (fun _ => True) r'.toSchema ∧
      ∀ t u, (t, u) ∈ r'.unions → Separated config s₀ r'.toSchema t.specName := by
  have hr := h.names hnames
  obtain ⟨hg, hall⟩ := divided_separateUnions hr hy
  refine ⟨(h.mono fun _ _ => trivial).trans hg.becomes, ?_⟩
  intro t₁ u₁ htu₁ t' ht' hname' u' hu' m' hm'
  obtain ⟨t, u, htu, rfl, rfl⟩ := (mem_unions_separateUnions hr hy).mp htu₁
  obtain ⟨ht, -, hu⟩ := mem_unions.mp htu
  have hdivided := hall t u htu
  obtain rfl := List.inj_on_of_nodup_map (hg.becomes.names hr) ht'
    (mem_of_lookup? hdivided.union).1 hname'
  cases hu'
  obtain ⟨m, hm, rfl⟩ := List.mem_map.mp hm'
  dsimp only
  by_cases hshared : u.isShared m.typeName = true
  · rw [UnionType.typeFor_of_shared hshared]
    obtain ⟨t₀, ht₀, hname₀, u₀, hu₀, -, hkept⟩ := h.exists_union ht hu
    obtain rfl := hkept id
    exact .inr (.inr ⟨t₀, ht₀, hname₀, u, hu₀, m, hm, rfl, rfl⟩)
  · rw [UnionType.typeFor_of_not_shared hshared]
    by_cases hrecord : r.isRecord m.typeName = true
    · exact .inl (hdivided.node m hm hrecord)
    · -- a name that denotes no structure now denoted none before
      have hdenotes : r.isRecordAlias m.typeName = false := by
        unfold isRecordAlias
        rw [Bool.eq_false_iff.mpr hrecord, Bool.and_false]
      exact (h.isNode_or_isRecordAlias hnames hdenotes).imp hg.becomes.isNode .inl

end Edit

/-! ## Where structures come from -/

/-- Names go on to denote elementary values and structures. -/
structure Schema.Upholds (s₀ s : Schema) : Prop where
  scalar : ∀ name c, s₀.scalar? name = some c → s.scalar? name = some c
  record : ∀ name, s₀.isRecord name = true → s.isRecord name = true

/-- What has been added to a schema is derived from what was there. -/
structure Schema.Outgrows (s₀ s : Schema) : Prop extends Upholds s₀ s where
  names : s.names.Nodup
  kept : ∀ name t, s₀.lookup? name = some t → t.record?.isSome = true → s.lookup? name = some t
  fields : ∀ name t, s.lookup? name = some t → t.record?.isSome = true →
    ∃ origin fields, s₀.HasFields origin fields ∧ s.HasFields name fields

namespace Edit

open Schema

variable {config : Config} {r r' : Registry} {s₀ : Schema} {found : UnionType} {union name : String}
  {n : Nat}

/-- A structure after one change was there before, or is derived from one that was. -/
theorem Divides.record_cases (h : Divides config found union r r') (hr : r.names.Nodup)
    {t' : TypeEntry} {x : Record} (ht' : r'.lookup? name = some t') (hx : t'.record? = some x) :
    r.lookup? name = some t' ∨ ∃ base, x.Derives base ∧ r.isRecord base = true := by
  have named : ∀ {base : TypeEntry}, r.target name = .ok base → base.record?.isSome = true →
      r.isRecord base.specName = true := by
    intro base htarget hrecord
    obtain ⟨b, hb⟩ := Option.isSome_iff_exists.mp hrecord
    unfold isRecord
    rw [recordOf?_specName (recordOf?_eq_some.mpr ⟨htarget, hb⟩)]
    rfl
  cases ht : r.lookup? name with
  | some t =>
    rcases h.lookup? hr ht with hsame | ⟨-, index, type, hunion⟩ |
      ⟨a, base, errorCode, -, htarget, hbase, hderived⟩
    · exact .inl (hsame.symm.trans ht')
    · cases hunion.symm.trans ht'
      obtain ⟨id, specName, tname, comment, implemented, kind⟩ := t
      cases kind with
      | record y => exact .inl rfl
      | _ => cases hx
    · cases hderived.symm.trans ht'
      cases hx
      exact .inr ⟨base.specName, ⟨rfl, rfl⟩, named htarget hbase⟩
  | none =>
    cases h with
    | @derive changed base errorCode s further target moved =>
      have hlookup : s.lookup? name = _ := lookup?_of_moved hr moved
      rw [ht] at hlookup
      cases hlookup.symm.trans ht'
    | @add m comment anchor s member shared added record =>
      have hlookup : s.lookup? name = _ := lookup?_addType hr added
      split at hlookup
      · cases hlookup.symm.trans ht'
        cases hx
        exact .inr ⟨m.typeName, ⟨rfl, rfl⟩, record⟩
      · rw [ht] at hlookup
        cases hlookup.symm.trans ht'
    | rename index type =>
      have hlookup : (r.toSchema.modifyType union _).lookup? name = _ :=
        lookup?_modifyType (TypeEntry.specName_mapUnion fun u =>
          { u with members := u.members.modify index ({ · with typeName := type }) })
      rw [ht] at hlookup
      cases hlookup.symm.trans ht'

/-- What is found after one change was found before, or is a union or a structure without fields. -/
theorem Divides.found_cases (h : Divides config found union r r') (hr : r.names.Nodup)
    {t' : TypeEntry} (ht' : r'.lookup? name = some t') : r.lookup? name = some t' ∨
      t'.union?.isSome = true ∨ ∃ x, t'.record? = some x ∧ x.fields = [] := by
  cases ht : r.lookup? name with
  | some t =>
    rcases h.lookup? hr ht with hsame | ⟨-, index, type, hunion⟩ |
      ⟨a, base, errorCode, -, -, -, hderived⟩
    · exact .inl (hsame.symm.trans ht')
    · cases hunion.symm.trans ht'
      obtain ⟨id, specName, tname, comment, implemented, kind⟩ := t
      cases kind with
      | union u => exact .inr (.inl rfl)
      | _ => exact .inl rfl
    · cases hderived.symm.trans ht'
      exact .inr (.inr ⟨_, rfl, rfl⟩)
  | none =>
    obtain ⟨-, -, -, -, x, hx, -, hnone⟩ := h.exists_of_new hr ht ht'
    exact .inr (.inr ⟨x, hx, hnone⟩)

theorem Divides.outgrows (h : Divides config found union r r') (hg : s₀.Outgrows r.toSchema) :
    s₀.Outgrows r'.toSchema := by
  have hr := hg.names
  have hretains := h.retains hr
  refine ⟨⟨fun name c hc => hretains.scalar? (hg.scalar name c hc),
    fun name hrecord => (becomes_of_separates h.separates).isRecord hr (hg.record name hrecord)⟩,
    h.names hr, fun name t ht hrecord => ?_, fun name t' ht' hrecord => ?_⟩
  · obtain ⟨x, hx⟩ := Option.isSome_iff_exists.mp hrecord
    exact hretains.lookup?_record (hg.kept name t ht hrecord) hx
  · obtain ⟨x, hx⟩ := Option.isSome_iff_exists.mp hrecord
    rcases h.record_cases hr ht' hx with ht | ⟨base, ⟨hbase, hnone⟩, hisRecord⟩
    · obtain ⟨origin, fields, horigin, hfields⟩ := hg.fields name t' ht hrecord
      exact ⟨origin, fields, horigin, hretains.hasFields hfields⟩
    · obtain ⟨⟨b, y⟩, hb⟩ := Option.isSome_iff_exists.mp hisRecord
      obtain ⟨htarget, hy⟩ := recordOf?_eq_some.mp hb
      obtain ⟨origin, fields, horigin, hfields⟩ :=
        hg.fields b.specName b (lookup?_of_target htarget).1 (hy ▸ rfl)
      have habove : r.HasFields base fields := hfields.of_recordOf? (recordOf?_specName hb) hb
      refine ⟨origin, fields, horigin, ?_⟩
      have hderived := HasFields.derived (recordOf?_of_lookup? ht' hx) hbase
        (hretains.hasFields habove)
      rwa [hnone, List.append_nil] at hderived

/-- What separating unions leaves of the structures that there were, and where the others come from.
-/
theorem outgrows_separateUnions (hnames : r.names.Nodup)
    (hcomplete : ∀ t ∈ r.types, t.record?.isSome = true → ∃ fields, r.HasFields t.specName fields)
    (hy : Yields (separateUnions config) r n r') : r.toSchema.Outgrows r'.toSchema := by
  refine invariant_of_separateUnions (I := fun r' => r.toSchema.Outgrows r'.toSchema) hy
    ⟨⟨fun _ _ h => h, fun _ h => h⟩, hnames, fun _ _ h _ => h, fun name t ht hrecord => ?_⟩
    fun union m r₁ r₂ hg hy => ?_
  · obtain ⟨hmem, rfl⟩ := mem_of_lookup? ht
    obtain ⟨fields, hfields⟩ := hcomplete t hmem hrecord
    exact ⟨t.specName, fields, hfields, hfields⟩
  · rcases separateUnion_cases hy with ⟨-, rfl⟩ | ⟨found, hfound, -⟩
    · exact hg
    · obtain ⟨t, ht, hu⟩ := Option.bind_eq_some_iff.mp hfound
      exact invariant_of_steps (I := fun r' => r.toSchema.Outgrows r'.toSchema)
        (divides_separateUnion hg.names ht hu hy).1 hg fun _ _ hg hstep => hstep.outgrows hg

end Edit

end WireTables
