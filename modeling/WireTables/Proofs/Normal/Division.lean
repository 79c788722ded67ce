import WireTables.Proofs.Normal.Concrete
import WireTables.Proofs.Schema.Inheritance

/-!
# Divided types

What is done to one union: further names of structures among the types of its members become
structures, and members that share a type get types of their own. Every change is one of three
(`Divides`), and it leaves all types under their names, but for the members of the union and for
further names that become structures (`Divides.retains`). The members are renamed one after the
other, each by what the union was before, so it comes down to one change of all of them
(`renamed_eq_divide`).
-/

namespace WireTables

open Relation (ReflTransGen)

namespace UnionType

/-- More than one member of the union is of the type. -/
def isShared (u : UnionType) (type : String) : Bool :=
  1 < u.members.countP (·.typeName == type)

/-- The type of a member after its union has been separated: one of its own if it shared its type. -/
def typeFor (config : Config) (u : UnionType) (m : UnionMember) : String :=
  if u.isShared m.typeName then Schema.derivedName config m.typeName m.selector else m.typeName

/-- The union with a type of its own for each member that shares its type. -/
def divide (config : Config) (u : UnionType) : UnionType :=
  { u with members := u.members.map fun m => { m with typeName := u.typeFor config m } }

variable {config : Config} {u : UnionType} {m m' : UnionMember}

theorem typeFor_of_shared (h : u.isShared m.typeName = true) :
    u.typeFor config m = Schema.derivedName config m.typeName m.selector :=
  if_pos h

theorem typeFor_of_not_shared (h : ¬ u.isShared m.typeName = true) :
    u.typeFor config m = m.typeName :=
  if_neg h

/-- Different members of one type share it. -/
theorem isShared_of_ne (hm : m ∈ u.members) (hm' : m' ∈ u.members) (hne : m ≠ m')
    (htype : m.typeName = m'.typeName) : u.isShared m.typeName = true := by
  unfold isShared
  rw [decide_eq_true_eq, List.countP_eq_length_filter]
  by_contra hone
  have hmem : m ∈ u.members.filter (·.typeName == m.typeName) :=
    List.mem_filter.mpr ⟨hm, by simp⟩
  have hmem' : m' ∈ u.members.filter (·.typeName == m.typeName) :=
    List.mem_filter.mpr ⟨hm', by simp [htype]⟩
  obtain ⟨first, hfirst⟩ := List.length_eq_one_iff.mp
    (Nat.le_antisymm (Nat.not_lt.mp hone) (List.length_pos_of_mem hmem))
  rw [hfirst, List.mem_singleton] at hmem hmem'
  exact hne (hmem.trans hmem'.symm)

end UnionType

namespace Schema

/-- The types that members of a union share, for each union that is put out, with the selectors of
these members. -/
def sharedPairs (s : Schema) : List (String × String) :=
  s.unions.flatMap fun p =>
    (p.2.members.filter fun m => p.2.isShared m.typeName).map fun m => (m.typeName, m.selector)

section Renamings

variable {s : Schema} {config : Config} {union type : String} {u : UnionType}

/-- The places of the members of a type. -/
theorem mem_places {i : Nat} :
    i ∈ (u.members.zipIdx.filter (·.1.typeName == type)).map (·.2) ↔
      ∃ m, u.members[i]? = some m ∧ m.typeName = type := by
  simp only [List.mem_map, List.mem_filter, beq_iff_eq, Prod.exists]
  constructor
  · rintro ⟨m, j, ⟨hm, hname⟩, rfl⟩
    exact ⟨m, List.mem_zipIdx_iff_getElem?.mp hm, hname⟩
  · rintro ⟨m, hm, hname⟩
    exact ⟨m, i, ⟨List.mem_zipIdx_iff_getElem?.mpr hm, hname⟩, rfl⟩

theorem length_places : ((u.members.zipIdx.filter (·.1.typeName == type)).map (·.2)).length =
    u.members.countP (·.typeName == type) := by
  rw [List.length_map, ← List.countP_eq_length_filter]
  conv_rhs => rw [← List.zipIdx_map_fst 0 u.members, List.countP_map]
  rfl

/-- The types that are shared, with the places of their members. -/
theorem mem_sharedTypes {places : List Nat} : (type, places) ∈ u.sharedTypes ↔
    u.isShared type = true ∧
      places = (u.members.zipIdx.filter (·.1.typeName == type)).map (·.2) := by
  unfold UnionType.sharedTypes UnionType.isShared
  simp only [List.mem_filter, List.mem_map, List.mem_eraseDups, decide_eq_true_eq, gt_iff_lt]
  constructor
  · rintro ⟨⟨name, -, heq⟩, hlength⟩
    cases heq
    rw [length_places] at hlength
    exact ⟨hlength, rfl⟩
  · rintro ⟨hshared, rfl⟩
    obtain ⟨m, hm, hname⟩ := List.countP_pos_iff.mp (Nat.lt_trans Nat.one_pos hshared)
    refine ⟨⟨type, ⟨m, hm, beq_iff_eq.mp hname⟩, rfl⟩, ?_⟩
    rw [length_places]
    exact hshared

/-- The change gives a member that shares its type the type for its selector. -/
def Renames (config : Config) (u : UnionType) (change : Edit.Renaming) : Prop :=
  ∃ m, u.members[change.index]? = some m ∧ u.isShared m.typeName = true ∧
    change.shared = m.typeName ∧ change.derived = derivedName config m.typeName m.selector

/-- The members that share their types are renamed, and no others. -/
theorem renames_of_renamings {changes : List Edit.Renaming}
    (h : s.renamings config union u = .ok changes) :
    (∀ change ∈ changes, Renames config u change) ∧
      ∀ i m, u.members[i]? = some m → u.isShared m.typeName = true →
        i ∈ changes.map (·.index) := by
  obtain ⟨groups, hgroups, hpure⟩ := bind_eq_ok.mp h
  cases hpure
  refine ⟨fun change hc => ?_, fun i m hm hshared => ?_⟩
  · obtain ⟨group, hgroup, hc⟩ := List.mem_flatten.mp hc
    obtain ⟨⟨shared, places⟩, hp, hgroup⟩ := exists_of_mem_mapM hgroups hgroup
    obtain ⟨hshared, hplaces⟩ := mem_sharedTypes.mp hp
    dsimp only at hgroup
    split at hgroup
    · cases hgroup
      obtain ⟨i, hi, rfl⟩ := List.mem_map.mp hc
      obtain ⟨m, hm, hname⟩ := mem_places.mp (hplaces ▸ hi)
      refine ⟨m, hm, hname ▸ hshared, hname.symm, ?_⟩
      dsimp only
      rw [hm, hname]
      rfl
    · cases hgroup
  · have hp := mem_sharedTypes.mpr ⟨hshared, rfl⟩
    obtain ⟨group, hgroup, hmade⟩ := exists_of_forall₂ (mapM_eq_ok.mp hgroups).flip hp
    dsimp only at hmade
    split at hmade
    · cases hmade
      refine List.mem_map.mpr ⟨_, List.mem_flatten.mpr ⟨_, hgroup,
        List.mem_map_of_mem (mem_places.mpr ⟨m, hm, rfl⟩)⟩, rfl⟩
    · cases hmade

/-- Only structures are shared by members that get types of their own. -/
theorem isRecord_of_renamings {changes : List Edit.Renaming}
    (h : s.renamings config union u = .ok changes) {change : Edit.Renaming} (hc : change ∈ changes) :
    s.isRecord change.shared = true := by
  obtain ⟨groups, hgroups, hpure⟩ := bind_eq_ok.mp h
  cases hpure
  obtain ⟨group, hgroup, hc⟩ := List.mem_flatten.mp hc
  obtain ⟨⟨shared, places⟩, -, hgroup⟩ := exists_of_mem_mapM hgroups hgroup
  dsimp only at hgroup
  split at hgroup
  · next hrecord =>
    cases hgroup
    obtain ⟨i, -, rfl⟩ := List.mem_map.mp hc
    exact hrecord
  · cases hgroup

/-- Members after changes of their types. -/
def renamed (changes : List Edit.Renaming) (members : List UnionMember) : List UnionMember :=
  changes.foldl (fun ms c => ms.modify c.index ({ · with typeName := c.derived })) members

/-- Changes that depend only on the places of members can be made all at once. -/
theorem getElem?_renamed {changes : List Edit.Renaming} (type : Nat → String)
    (h : ∀ c ∈ changes, c.derived = type c.index) (members : List UnionMember) (i : Nat) :
    (renamed changes members)[i]? = members[i]?.map fun m =>
      if i ∈ changes.map (·.index) then { m with typeName := type i } else m := by
  induction changes generalizing members with
  | nil => simp [renamed]
  | cons c changes ih =>
    have hrest := ih (fun c hc => h c (List.mem_cons_of_mem _ hc))
      (members.modify c.index ({ · with typeName := c.derived }))
    show (renamed changes _)[i]? = _
    rw [hrest, List.getElem?_modify, h c List.mem_cons_self, Option.map_eq_map, Option.map_map]
    congr 1
    funext m
    by_cases hi : c.index = i
    · subst hi
      simp
    · simp [hi, Ne.symm hi]

/-- The members that share their types get types of their own. -/
theorem renamed_eq_divide {changes : List Edit.Renaming}
    (h : s.renamings config union u = .ok changes) :
    renamed changes u.members = (u.divide config).members := by
  obtain ⟨hchanges, hall⟩ := renames_of_renamings h
  have hderived : ∀ c ∈ changes, c.derived =
      ((u.members[c.index]?.map fun m => derivedName config m.typeName m.selector).getD "") := by
    intro c hc
    obtain ⟨m, hm, -, -, hderived⟩ := hchanges c hc
    rw [hm, hderived]
    rfl
  refine List.ext_getElem? fun i => ?_
  rw [getElem?_renamed (fun i =>
    (u.members[i]?.map fun m => derivedName config m.typeName m.selector).getD "") hderived]
  unfold UnionType.divide
  rw [List.getElem?_map]
  cases hm : u.members[i]? with
  | none => rfl
  | some m =>
    have hiff : i ∈ changes.map (·.index) ↔ u.isShared m.typeName = true := by
      constructor
      · intro hi
        obtain ⟨c, hc, rfl⟩ := List.mem_map.mp hi
        obtain ⟨m', hm', hshared, -⟩ := hchanges c hc
        cases hm.symm.trans hm'
        exact hshared
      · exact hall i m hm
    simp only [Option.map_some, Option.getD_some, hiff, UnionType.typeFor]
    split <;> rfl

end Renamings

section Types

variable {s s' : Schema} {name : String} {t : TypeEntry} {u : UnionType}

/-- A further name of a structure. -/
theorem exists_of_isRecordAlias (h : s.isRecordAlias name = true) : ∃ t a x,
    s.lookup? name = some t ∧ t.kind = .aliasOf a ∧ s.target name = .ok x ∧
      x.record?.isSome = true := by
  obtain ⟨halias, hrecord⟩ := Bool.and_eq_true_iff.mp h
  obtain ⟨a, ha⟩ := Option.isSome_iff_exists.mp halias
  obtain ⟨t, ht, ha⟩ := Option.bind_eq_some_iff.mp ha
  obtain ⟨⟨x, r⟩, hx⟩ := Option.isSome_iff_exists.mp hrecord
  obtain ⟨htarget, hr⟩ := recordOf?_eq_some.mp hx
  refine ⟨t, a, x, ht, ?_, htarget, hr ▸ rfl⟩
  unfold TypeEntry.alias? at ha
  split at ha
  · next hk => exact hk.trans (congrArg _ (Option.some.inj ha))
  · cases ha

/-- The names of the unions that are put out are different. -/
theorem nodup_unions (h : s.names.Nodup) : (s.unions.map (·.1.specName)).Nodup := by
  have sublist : ∀ types : List TypeEntry,
      ((types.filterMap fun t => t.union?.map (t, ·)).map (·.1.specName)).Sublist
        (types.map (·.specName)) := by
    intro types
    induction types with
    | nil => exact .slnil
    | cons t types ih =>
      rw [List.filterMap_cons]
      cases ht : t.union? with
      | none => exact ih.cons _
      | some u => exact ih.cons_cons _
  exact h.sublist ((sublist _).trans (List.filter_sublist.map _))

theorem mem_unions :
    (t, u) ∈ s.unions ↔ t ∈ s.types ∧ t.implemented = true ∧ t.union? = some u := by
  unfold unions implemented
  simp only [List.mem_filterMap, List.mem_filter, Option.map_eq_some_iff, Prod.mk.injEq]
  constructor
  · rintro ⟨t', ⟨ht, himplemented⟩, u', hu, rfl, rfl⟩
    exact ⟨ht, himplemented, hu⟩
  · rintro ⟨ht, himplemented, hu⟩
    exact ⟨t, ⟨ht, himplemented⟩, u, hu, rfl, rfl⟩

theorem Becomes.contains {touched : String → Prop} (h : s.Becomes touched s')
    (hc : s.contains name = true) : s'.contains name = true := by
  obtain ⟨t, ht, rfl⟩ := List.mem_map.mp (contains_iff.mp hc)
  obtain ⟨t', ht', hb⟩ := h.kept t ht
  exact contains_iff.mpr (hb.name ▸ List.mem_map_of_mem ht')

end Types

end Schema

/-- No element is left twice. -/
theorem nodup_eraseDups {α : Type} [BEq α] [LawfulBEq α] : ∀ l : List α, l.eraseDups.Nodup
  | [] => by simp
  | a :: l => by
    rw [List.eraseDups_cons, List.nodup_cons, List.mem_eraseDups]
    exact ⟨by simp, nodup_eraseDups _⟩
termination_by l => l.length
decreasing_by
  exact Nat.lt_succ_of_le (List.length_filter_le _ _)

namespace Edit

open Schema

/-- One change by which a union with these members is separated. -/
inductive Divides (config : Config) (found : UnionType) (union : String) (r : Registry) :
    Registry → Prop where
  | derive {name : String} {base : TypeEntry} {errorCode : Option String} {s : Schema}
    (further : r.isRecordAlias name = true) (target : r.target name = .ok base)
    (moved : (r.toSchema.modifyType name
      ({ · with kind := .record { base := some base.specName, errorCode } })).ensureAfter
        name base.specName = .ok s) :
    Divides config found union r { r with toSchema := s }
  | add {m : UnionMember} {comment anchor : String} {s : Schema} (member : m ∈ found.members)
    (shared : found.isShared m.typeName = true)
    (added : r.toSchema.addType (TypeEntry.new (derivedName config m.typeName m.selector)
      (.record { base := some m.typeName }) comment) (some anchor) = .ok s)
    (record : r.isRecord m.typeName = true) :
    Divides config found union r { r with toSchema := s }
  | rename (index : Nat) (type : String) :
    Divides config found union r { r with
      toSchema := r.toSchema.modifyType union (·.mapUnion fun u =>
        { u with members := u.members.modify index ({ · with typeName := type }) }) }

variable {config : Config} {r r' : Registry} {found : UnionType} {union name : String} {n : Nat}

theorem Divides.separates (h : Divides config found union r r') : Separates union r r' := by
  cases h with
  | derive _ target moved => exact .derive target moved
  | add _ _ added => exact .add added
  | rename index type => exact .rename index type

/-- Only the further name that is turned into a structure is found in another way. -/
theorem lookup?_of_moved (hr : r.names.Nodup) {changed : String} {base : TypeEntry}
    {errorCode : Option String} {s : Schema} (moved : (r.toSchema.modifyType changed
      ({ · with kind := .record { base := some base.specName, errorCode } })).ensureAfter
        changed base.specName = .ok s) : s.lookup? name = (r.lookup? name).map fun t =>
          if name = changed then
            { t with kind := .record { base := some base.specName, errorCode } }
          else t := by
  have hb : r.Becomes (fun _ => False) (r.toSchema.modifyType changed
      ({ · with kind := .record { base := some base.specName, errorCode } })) :=
    .modifyType fun t _ _ => .derived t _
  rw [lookup?_of_perm (hb.names hr) (perm_of_ensureAfter moved)]
  exact lookup?_modifyType fun _ => rfl

/-- What a change leaves of a type: it is the same, it is the union with another type for a member,
or it was a further name of a structure and is derived from the structure by now. -/
theorem Divides.lookup? (h : Divides config found union r r') (hr : r.names.Nodup)
    {t : TypeEntry} (ht : r.lookup? name = some t) : r'.lookup? name = some t ∨
      (name = union ∧ ∃ index type, r'.lookup? name = some (t.mapUnion fun u =>
        { u with members := u.members.modify index ({ · with typeName := type }) })) ∨
      ∃ a base errorCode, t.kind = .aliasOf a ∧ r.target name = .ok base ∧
        base.record?.isSome = true ∧ r'.lookup? name =
          some { t with kind := .record { base := some base.specName, errorCode } } := by
  cases h with
  | @derive changed base errorCode s further target moved =>
    have hlookup : s.lookup? name = _ := lookup?_of_moved hr moved
    rw [ht, Option.map_some] at hlookup
    by_cases hname : name = changed
    · subst hname
      rw [if_pos rfl] at hlookup
      obtain ⟨t', a, x, ht', ha, htarget, hx⟩ := exists_of_isRecordAlias further
      cases ht.symm.trans ht'
      cases target.symm.trans htarget
      exact .inr (.inr ⟨a, base, errorCode, ha, target, hx, hlookup⟩)
    · rw [if_neg hname] at hlookup
      exact .inl hlookup
  | @add m comment anchor s member shared added =>
    exact .inl (lookup?_of_addType hr added ht)
  | rename index type =>
    have hlookup : (r.toSchema.modifyType union _).lookup? name = _ :=
      lookup?_modifyType (TypeEntry.specName_mapUnion fun u =>
        { u with members := u.members.modify index ({ · with typeName := type }) })
    rw [ht, Option.map_some] at hlookup
    by_cases hname : name = union
    · rw [if_pos hname] at hlookup
      exact .inr (.inl ⟨hname, index, type, hlookup⟩)
    · rw [if_neg hname] at hlookup
      exact .inl hlookup

/-- Types are retained under their names. -/
theorem Divides.retains (h : Divides config found union r r') (hr : r.names.Nodup) :
    r.Retains r'.toSchema := by
  intro name t ht
  rcases h.lookup? hr ht with hsame | ⟨-, index, type, hunion⟩ |
    ⟨a, base, errorCode, ha, htarget, hbase, hderived⟩
  · exact ⟨t, hsame, .same⟩
  · refine ⟨_, hunion, ?_⟩
    obtain ⟨id, specName, name, comment, implemented, kind⟩ := t
    cases kind with
    | union u => exact .union rfl rfl
    | _ => exact .same
  · obtain ⟨-, hname⟩ := mem_of_lookup? ht
    exact ⟨_, hderived, .derived ha (hname ▸ htarget) hbase rfl ⟨rfl, rfl⟩⟩

/-- Other unions stay as they are. -/
theorem Divides.other (h : Divides config found union r r') (hr : r.names.Nodup) {t : TypeEntry}
    (ht : r.lookup? name = some t) (hu : t.union?.isSome = true) (hname : name ≠ union) :
    r'.lookup? name = some t := by
  rcases h.lookup? hr ht with hsame | ⟨rfl, -⟩ | ⟨a, -, -, ha, -⟩
  · exact hsame
  · exact (hname rfl).elim
  · obtain ⟨u, hu⟩ := Option.isSome_iff_exists.mp hu
    cases ha.symm.trans (TypeEntry.kind_of_union? hu)

theorem Divides.names (h : Divides config found union r r') (hr : r.names.Nodup) :
    r'.names.Nodup :=
  (becomes_of_separates h.separates).names hr

theorem becomes_of_divides (h : ReflTransGen (Divides config found union) r r') :
    r.Becomes (· = union) r'.toSchema :=
  becomes_of_steps h fun _ _ h => becomes_of_separates h.separates

/-- All other names are found as they were when a further name becomes a structure. -/
theorem lookup?_deriveFromAlias (hr : r.names.Nodup) {changed : String} {u : Unit}
    (hy : Yields (deriveFromAlias changed) r u r') (hne : name ≠ changed) :
    r'.lookup? name = r.lookup? name := by
  obtain ⟨base, errorCode, s, -, hmoved, rfl⟩ := exists_of_deriveFromAlias hy
  rw [show s.lookup? name = _ from lookup?_of_moved hr hmoved]
  simp only [if_neg hne, Option.map_id']

/-- Another further name of a structure stays one. -/
theorem isRecordAlias_deriveFromAlias (hr : r.names.Nodup) {changed : String} {u : Unit}
    (hy : Yields (deriveFromAlias changed) r u r') (hne : name ≠ changed)
    (hfurther : r.isRecordAlias name = true) : r'.isRecordAlias name = true := by
  have hb : r.Becomes (fun _ => False) r'.toSchema := becomes_deriveFromAlias hy
  obtain ⟨halias, hrecord⟩ := Bool.and_eq_true_iff.mp hfurther
  refine Bool.and_eq_true_iff.mpr ⟨?_, hb.isRecord hr hrecord⟩
  rw [lookup?_deriveFromAlias hr hy hne]
  exact halias

/-- Further names of structures become structures one after the other, and all other names stay. -/
theorem divides_forM_deriveFromAlias {names : List String} (hnames : names.Nodup)
    (hr : r.names.Nodup) (hfurther : ∀ name ∈ names, r.isRecordAlias name = true)
    (hy : Yields (names.forM deriveFromAlias) r ⟨⟩ r') :
    ReflTransGen (Divides config found union) r r' ∧
      ∀ name ∉ names, r'.lookup? name = r.lookup? name := by
  induction names generalizing r with
  | nil =>
    obtain ⟨-, rfl⟩ := yields_pure.mp hy
    exact ⟨.refl, fun _ _ => rfl⟩
  | cons first rest ih =>
    obtain ⟨r₁, hfirst, hrest⟩ := yields_forM_cons.mp hy
    obtain ⟨hfresh, hnames⟩ := List.nodup_cons.mp hnames
    have hb : r.Becomes (fun _ => False) r₁.toSchema := becomes_deriveFromAlias hfirst
    have hstill : ∀ name ∈ rest, r₁.isRecordAlias name = true := fun name hname =>
      isRecordAlias_deriveFromAlias hr hfirst (fun heq => hfresh (heq ▸ hname))
        (hfurther name (List.mem_cons_of_mem _ hname))
    have hstays : ∀ name, name ≠ first → r₁.lookup? name = r.lookup? name :=
      fun name hne => lookup?_deriveFromAlias hr hfirst hne
    obtain ⟨base, errorCode, s, htarget, hmoved, rfl⟩ := exists_of_deriveFromAlias hfirst
    obtain ⟨hsteps, hothers⟩ := ih hnames (hb.names hr) hstill hrest
    refine ⟨.head (.derive (hfurther first List.mem_cons_self) htarget hmoved) hsteps,
      fun name hname => ?_⟩
    obtain ⟨hne, hnot⟩ := not_or.mp (mt List.mem_cons.mpr hname)
    exact (hothers name hnot).trans (hstays name hne)

theorem isNode_deriveFromAlias {name : String} {u : Unit}
    (hy : Yields (deriveFromAlias name) r u r') : r'.toSchema.IsNode name := by
  obtain ⟨base, errorCode, s, hbase, hs, rfl⟩ := exists_of_deriveFromAlias hy
  obtain ⟨t, ht, -⟩ := bind_eq_ok.mp hbase
  obtain ⟨hmem, hname⟩ := mem_of_lookup? (require_eq_ok.mp ht)
  have hmoved : Becomes (· = name) _ s := .ensureAfter hs
  refine hmoved.isNode ⟨_, List.mem_map_of_mem hmem, ?_, ?_⟩
  · rw [if_pos (beq_iff_eq.mpr hname)]
    exact hname
  · rw [if_pos (beq_iff_eq.mpr hname)]
    rfl

/-- The further names that a union separates become structures. -/
theorem isNode_of_forM_deriveFromAlias {names : List String}
    (hy : Yields (names.forM deriveFromAlias) r ⟨⟩ r') :
    ∀ name ∈ names, r'.toSchema.IsNode name := by
  induction names generalizing r with
  | nil => exact fun _ h => (List.not_mem_nil h).elim
  | cons first rest ih =>
    obtain ⟨r₁, hfirst, hrest⟩ := yields_forM_cons.mp hy
    intro name hname
    rcases List.mem_cons.mp hname with rfl | hname
    · have hb : r₁.Becomes (· = name) r'.toSchema :=
        hrest.forM (I := fun r' => r₁.Becomes (· = name) r'.toSchema) (.refl _)
          fun _ _ _ _ hs hy => hs.trans (becomes_of_separates (separates_deriveFromAlias hy))
      exact hb.isNode (isNode_deriveFromAlias hfirst)
    · exact ih hrest name hname

/-- The union itself, when one of its members is renamed. -/
theorem lookup?_rename {t : TypeEntry} {u : UnionType} (ht : r.lookup? union = some t)
    (hu : t.union? = some u) (change : UnionType → UnionType) :
    (r.toSchema.modifyType union (·.mapUnion change)).lookup? union =
      some { t with kind := .union (change u) } := by
  rw [lookup?_modifyType (TypeEntry.specName_mapUnion _), ht, Option.map_some, if_pos rfl]
  unfold TypeEntry.mapUnion
  rw [TypeEntry.kind_of_union? hu]

/-- The type of a member is there, whether it is added or was there before, and the member is of this
type. -/
theorem divides_addDerived {change : Renaming} {anchors : List (String × String)}
    {result : List (String × String) × Nat} (hr : r.names.Nodup)
    (hchange : Renames config found change) (hrecord : r.isRecord change.shared = true)
    (hy : Yields (addDerived union anchors change) r result r') :
    ReflTransGen (Divides config found union) r r' ∧ r'.contains change.derived = true ∧
      ∀ t u, r.lookup? union = some t → t.union? = some u → r'.lookup? union =
        some { t with kind := .union { u with
          members := u.members.modify change.index ({ · with typeName := change.derived }) } } := by
  obtain ⟨r₁, hadded, rfl⟩ := exists_of_addDerived hy
  obtain ⟨hstep, hcontains, hkept⟩ : ReflTransGen (Divides config found union) r r₁ ∧
      r₁.contains change.derived = true ∧
        ∀ t, r.lookup? union = some t → r₁.lookup? union = some t := by
    rcases hadded with ⟨htaken, rfl⟩ | ⟨comment, anchor, s, hs, rfl⟩
    · exact ⟨.refl, htaken, fun t ht => ht⟩
    · obtain ⟨m, hm, hshared, hname, hderived⟩ := hchange
      refine ⟨?_, ?_, fun t ht => lookup?_of_addType hr hs ht⟩
      · rw [hname, hderived] at hs
        exact .single (.add (List.mem_of_getElem? hm) hshared hs (hname ▸ hrecord))
      · exact contains_iff.mpr (List.mem_map.mpr
          ⟨_, (perm_of_addType hs).2.mem_iff.mpr List.mem_cons_self, rfl⟩)
  have hrename : Divides config found union r₁ _ := .rename change.index change.derived
  exact ⟨hstep.tail hrename, (becomes_of_separates hrename.separates).contains hcontains,
    fun t u ht hu => lookup?_rename (hkept t ht) hu _⟩

/-- The types of members are added unless there are types of these names, and the members are of
these types afterwards. -/
theorem divides_addAllDerived {changes : List Renaming} {anchors : List (String × String)}
    (hr : r.names.Nodup) (hchanges : ∀ c ∈ changes, Renames config found c)
    (hrecords : ∀ c ∈ changes, r.isRecord c.shared = true)
    (hy : Yields (addAllDerived union anchors changes) r n r') :
    ReflTransGen (Divides config found union) r r' ∧
      (∀ c ∈ changes, r'.contains c.derived = true) ∧
      ∀ t u, r.lookup? union = some t → t.union? = some u → r'.lookup? union =
        some { t with kind := .union { u with members := renamed changes u.members } } := by
  induction changes generalizing r n anchors with
  | nil =>
    obtain ⟨-, rfl⟩ := yields_pure.mp hy
    refine ⟨.refl, fun _ hc => (List.not_mem_nil hc).elim, fun t u ht hu => ?_⟩
    rw [ht]
    obtain ⟨id, specName, name, comment, implemented, kind⟩ := t
    cases TypeEntry.kind_of_union? hu
    rfl
  | cons change rest ih =>
    unfold addAllDerived at hy
    obtain ⟨⟨anchors', count⟩, r₁, hadd, hy⟩ := yields_bind.mp hy
    obtain ⟨m, r₂, hrest, hend⟩ := yields_bind.mp hy
    obtain ⟨-, rfl⟩ := yields_pure.mp hend
    obtain ⟨hstep, hcontains, hunion⟩ := divides_addDerived hr
      (hchanges change List.mem_cons_self) (hrecords change List.mem_cons_self) hadd
    have hb := becomes_of_divides hstep
    obtain ⟨hsteps, hrestContains, hrestUnion⟩ := ih (hb.names hr)
      (fun c hc => hchanges c (List.mem_cons_of_mem _ hc))
      (fun c hc => hb.isRecord hr (hrecords c (List.mem_cons_of_mem _ hc))) hrest
    refine ⟨hstep.trans hsteps, fun c hc => ?_, fun t u ht hu => ?_⟩
    · rcases List.mem_cons.mp hc with rfl | hc
      · exact (becomes_of_divides hsteps).contains hcontains
      · exact hrestContains c hc
    · exact hrestUnion _ _ (hunion t u ht hu) rfl

/-- What separating a union makes of it: its members have types of their own where they shared
them, these types are there, and what was a structure under a further name is one itself. -/
theorem divides_separateUnion (hr : r.names.Nodup) {t : TypeEntry} (ht : r.lookup? union = some t)
    (hu : t.union? = some found) (hy : Yields (separateUnion config union) r n r') :
    ReflTransGen (Divides config found union) r r' ∧
      r'.lookup? union = some { t with kind := .union (found.divide config) } ∧
      (∀ m ∈ found.members, found.isShared m.typeName = true →
        r'.contains (derivedName config m.typeName m.selector) = true) ∧
      ∀ m ∈ found.members, r.isRecord m.typeName = true → r'.toSchema.IsNode m.typeName := by
  rcases separateUnion_cases hy with
    ⟨hnone, rfl⟩ | ⟨found', hfound, r₁, changes, m, hderive, hchanges, hadd⟩
  · rw [ht, Option.bind_some, hu] at hnone
    cases hnone
  · rw [ht, Option.bind_some, hu] at hfound
    cases hfound
    have hfurther : ∀ name ∈ r.memberAliases found, r.isRecordAlias name = true :=
      fun name hname => (List.mem_filter.mp (List.mem_eraseDups.mp hname)).2
    obtain ⟨hsteps, hothers⟩ : ReflTransGen (Divides config found union) r r₁ ∧ _ :=
      divides_forM_deriveFromAlias (nodup_eraseDups _) hr hfurther hderive
    have hb := becomes_of_divides hsteps
    have hunion : r₁.lookup? union = some t := by
      refine (hothers union fun hmem => ?_).trans ht
      obtain ⟨t', a, -, ht', ha, -⟩ := exists_of_isRecordAlias (hfurther union hmem)
      cases ht.symm.trans ht'
      cases ha.symm.trans (TypeEntry.kind_of_union? hu)
    obtain ⟨hrenames, hall⟩ := renames_of_renamings hchanges
    obtain ⟨hsteps', hcontains, hrenamed⟩ := divides_addAllDerived (hb.names hr) hrenames
      (fun _ => isRecord_of_renamings hchanges) hadd
    have hb' := becomes_of_divides hsteps'
    refine ⟨hsteps.trans hsteps', ?_, fun m hm hshared => ?_, fun m hm hrecord => ?_⟩
    · rw [hrenamed t found hunion hu, renamed_eq_divide hchanges]
      rfl
    · obtain ⟨i, hi⟩ := List.mem_iff_getElem?.mp hm
      obtain ⟨c, hc, hindex⟩ := List.mem_map.mp (hall i m hi hshared)
      obtain ⟨m', hm', -, -, hderived⟩ := hrenames c hc
      rw [hindex, hi] at hm'
      cases hm'
      exact hderived ▸ hcontains c hc
    · refine hb'.isNode ?_
      rcases isNode_or_alias hrecord with hnode | ⟨a, ha⟩
      · exact hb.isNode hnode
      · have halias : r.isRecordAlias m.typeName = true :=
          Bool.and_eq_true_iff.mpr ⟨ha ▸ rfl, hrecord⟩
        exact isNode_of_forM_deriveFromAlias hderive _
          (List.mem_eraseDups.mpr (List.mem_filter.mpr ⟨List.mem_map_of_mem hm, halias⟩))

end Edit

end WireTables
