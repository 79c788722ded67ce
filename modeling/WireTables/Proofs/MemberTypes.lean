import WireTables.Proofs.Normal.Separation

/-!
# Types of members

What becomes of the members of unions when these are separated. Each member is what it was but for
its type, and its type has the fields of a type that there was before, its `Origin`. That is the one
that the member had, unless names clash (`Clashes`): a member that shares its type gets the fields of
whatever has the name of the type for its selector (`memberFields_of_separateUnions`). If all names
of new types are fresh, no names clash, and members under different selectors denote different
structures as far as they denoted anything (`memberTypes_of_separateUnions`).

Fields are kept up to the number of bases that are followed: a structure that is derived from another
has one base more. Nor are further names followed without end, so a name that denoted nothing may
denote a structure when another one on its way has become a structure (`memberTypes_not_kept`).
-/

namespace WireTables

namespace Schema

/-- What the names of the types for selectors are made of can be told from them, and no type has
such a name. -/
structure FreshNames (config : Config) (s : Schema) : Prop where
  new : ∀ p ∈ s.sharedPairs, derivedName config p.1 p.2 ∉ s.names
  unique : ∀ p ∈ s.sharedPairs, ∀ q ∈ s.sharedPairs,
    derivedName config p.1 p.2 = derivedName config q.1 q.2 → p = q

/-- The name of the type for the selector of the member is that of another type, or that of a type
which is derived from another one. -/
def Clashes (config : Config) (s : Schema) (u : UnionType) (m : UnionMember) : Prop :=
  u.isShared m.typeName = true ∧
    (derivedName config m.typeName m.selector ∈ s.names ∨ ∃ p ∈ s.sharedPairs,
      derivedName config p.1 p.2 = derivedName config m.typeName m.selector ∧ p.1 ≠ m.typeName)

instance (config : Config) (s : Schema) : Decidable (s.FreshNames config) :=
  decidable_of_iff
    ((∀ p ∈ s.sharedPairs, derivedName config p.1 p.2 ∉ s.names) ∧
      ∀ p ∈ s.sharedPairs, ∀ q ∈ s.sharedPairs,
        derivedName config p.1 p.2 = derivedName config q.1 q.2 → p = q)
    ⟨fun h => ⟨h.1, h.2⟩, fun h => ⟨h.new, h.unique⟩⟩

instance (config : Config) (s : Schema) (u : UnionType) (m : UnionMember) :
    Decidable (s.Clashes config u m) :=
  inferInstanceAs (Decidable (_ ∧ _))

/-- The fields of the structure that `name` denotes in `s` are those of the one that `name'` denotes
in `s'`, which are found unless it has more bases than are followed. -/
def SameFields (s s' : Schema) (name name' : String) : Prop :=
  ∀ fields, s.allFields name = .ok fields → s'.HasFields name' fields ∧
    (s'.allFields name' = .ok fields ∨
      s'.allFields name' = .error (.inconsistent name' .baseCycle))

/-- A type that may give its fields to a member: the one that the member has, if it has it alone, or
what has the name of the type for its selector, or is what that type is derived from. -/
inductive Origin (config : Config) (s : Schema) (u : UnionType) (m : UnionMember) : String → Prop
    where
  | own (alone : ¬ u.isShared m.typeName = true) : Origin config s u m m.typeName
  | taken (shared : u.isShared m.typeName = true)
    (taken : derivedName config m.typeName m.selector ∈ s.names) :
    Origin config s u m (derivedName config m.typeName m.selector)
  | derived {type selector : String} (shared : u.isShared m.typeName = true)
    (fresh : derivedName config m.typeName m.selector ∉ s.names)
    (pair : (type, selector) ∈ s.sharedPairs)
    (same : derivedName config type selector = derivedName config m.typeName m.selector) :
    Origin config s u m type

/-- The same unions are put out, and each is related to what it was. -/
structure SameUnions (R : UnionType → UnionType → Prop) (s s' : Schema) : Prop where
  kept : ∀ t u, (t, u) ∈ s.unions → ∃ u', ({ t with kind := .union u' }, u') ∈ s'.unions ∧ R u u'
  old : ∀ t' u', (t', u') ∈ s'.unions → ∃ t u, (t, u) ∈ s.unions ∧
    t' = { t with kind := .union u' } ∧ R u u'

end Schema

open Schema

/-- The member is the same but for its type, which has the same fields. -/
structure UnionMember.Retyped (s s' : Schema) (m m' : UnionMember) : Prop where
  same : m' = { m with typeName := m'.typeName }
  fields : s.SameFields s' m.typeName m'.typeName

/-- The member is the same but for its type, which is one of its own if it shared its type, and has
the fields of what it comes from; unless names clash these are the fields that the member had. -/
structure UnionMember.Reassigned (config : Config) (s s' : Schema) (u : UnionType)
    (m m' : UnionMember) : Prop where
  same : m' = { m with typeName := m'.typeName }
  type : m'.typeName = u.typeFor config m
  origin : ∃ origin, s.Origin config u m origin ∧ s.SameFields s' origin m'.typeName
  fields : ¬ s.Clashes config u m → s.SameFields s' m.typeName m'.typeName

namespace UnionType

/-- The union is the same but for the types of its members, which tell selectors apart: if two
members denote one structure they have the same selector, as far as their types denoted anything. -/
structure Resolved (s s' : Schema) (u u' : UnionType) : Prop where
  same : u' = { u with members := u'.members }
  members : List.Forall₂ (UnionMember.Retyped s s') u.members u'.members
  selectors : ∀ p ∈ u.members.zip u'.members, ∀ q ∈ u.members.zip u'.members,
    (∃ t, s.target p.1.typeName = .ok t) → (∃ t, s.target q.1.typeName = .ok t) →
      ∀ x, s'.recordOf? p.2.typeName = some x → s'.recordOf? q.2.typeName = some x →
        p.2.selector = q.2.selector

/-- The union is the same but for the types of its members. -/
structure Reassigned (config : Config) (s s' : Schema) (u u' : UnionType) : Prop where
  same : u' = { u with members := u'.members }
  members : List.Forall₂ (UnionMember.Reassigned config s s' u) u.members u'.members

end UnionType

section Types

variable {config : Config} {s s' : Schema} {name name' : String} {t : TypeEntry} {u : UnionType}
  {m m' : UnionMember}

theorem Schema.sameFields_of_hasFields
    (h : ∀ fields, s.HasFields name fields → s'.HasFields name' fields) :
    s.SameFields s' name name' := by
  intro fields hfields
  have hsame := h fields (hasFields_of_allFields hfields)
  exact ⟨hsame, hsame.allFields⟩

/-- The type of a member has the fields of what it comes from. -/
theorem Schema.Divided.exists_origin (hg : s.Grows config s') (h : Divided config s s' t u)
    (hm : m ∈ u.members) :
    ∃ origin, s.Origin config u m origin ∧ s.SameFields s' origin (u.typeFor config m) := by
  by_cases hshared : u.isShared m.typeName = true
  · rw [UnionType.typeFor_of_shared hshared]
    by_cases htaken : derivedName config m.typeName m.selector ∈ s.names
    · exact ⟨_, .taken hshared htaken, sameFields_of_hasFields (hg.fields _)⟩
    · -- the type has been added, for this member or for another one
      obtain ⟨t', ht'⟩ := Option.isSome_iff_exists.mp (h.derived m hm hshared)
      obtain ⟨p, hp, hname, r, hr, hbase, hnone⟩ := hg.derived _ t' ht' htaken
      refine ⟨p.1, .derived hshared htaken hp hname, sameFields_of_hasFields fun fields hf => ?_⟩
      have hderived := HasFields.derived (recordOf?_of_lookup? ht' hr) hbase (hg.fields _ _ hf)
      rwa [hnone, List.append_nil] at hderived
  · rw [UnionType.typeFor_of_not_shared hshared]
    exact ⟨_, .own hshared, sameFields_of_hasFields (hg.fields _)⟩

/-- Without a clash of names the fields are those of the type that the member had. -/
theorem Schema.Origin.eq_of_not_clashes {origin : String} (ho : s.Origin config u m origin)
    (hno : ¬ s.Clashes config u m) : origin = m.typeName := by
  cases ho with
  | own => rfl
  | taken hshared htaken => exact (hno ⟨hshared, .inl htaken⟩).elim
  | derived hshared _ hp hsame =>
    by_contra hne
    exact hno ⟨hshared, .inr ⟨_, hp, hsame, hne⟩⟩

theorem Schema.Divided.sameFields (hg : s.Grows config s') (h : Divided config s s' t u)
    (hm : m ∈ u.members) (hno : ¬ s.Clashes config u m) :
    s.SameFields s' m.typeName (u.typeFor config m) := by
  obtain ⟨origin, ho, hfields⟩ := h.exists_origin hg hm
  rwa [ho.eq_of_not_clashes hno] at hfields

/-- Fresh names do not clash. -/
theorem Schema.FreshNames.not_clashes (h : s.FreshNames config) (htu : (t, u) ∈ s.unions)
    (hm : m ∈ u.members) : ¬ s.Clashes config u m := by
  rintro ⟨hshared, hclash⟩
  have hpair := pair_mem_sharedPairs htu hm hshared
  rcases hclash with htaken | ⟨p, hp, hsame, hne⟩
  · exact h.new _ hpair htaken
  · exact hne (congrArg Prod.fst (h.unique _ hp _ hpair hsame))

/-- With fresh names the types of two members are different unless they have the same selector. -/
theorem Schema.FreshNames.selector_eq (h : s.FreshNames config) (htu : (t, u) ∈ s.unions)
    (hm : m ∈ u.members) (hm' : m' ∈ u.members) (hname : m.typeName ∈ s.names)
    (hname' : m'.typeName ∈ s.names) (hsame : u.typeFor config m = u.typeFor config m') :
    m.selector = m'.selector := by
  by_cases hshared : u.isShared m.typeName = true <;>
    by_cases hshared' : u.isShared m'.typeName = true
  · rw [UnionType.typeFor_of_shared hshared, UnionType.typeFor_of_shared hshared'] at hsame
    exact congrArg Prod.snd (h.unique _ (pair_mem_sharedPairs htu hm hshared) _
      (pair_mem_sharedPairs htu hm' hshared') hsame)
  · rw [UnionType.typeFor_of_shared hshared, UnionType.typeFor_of_not_shared hshared'] at hsame
    exact (h.new _ (pair_mem_sharedPairs htu hm hshared) (hsame ▸ hname')).elim
  · rw [UnionType.typeFor_of_not_shared hshared, UnionType.typeFor_of_shared hshared'] at hsame
    exact (h.new _ (pair_mem_sharedPairs htu hm' hshared') (hsame ▸ hname)).elim
  · rw [UnionType.typeFor_of_not_shared hshared, UnionType.typeFor_of_not_shared hshared'] at hsame
    by_contra hne
    exact hshared (UnionType.isShared_of_ne hm hm' (fun heq => hne (heq ▸ rfl)) hsame)

/-- With fresh names a member names the structure that it denotes, if it had denoted anything. -/
theorem Schema.Divided.specName_eq (hfresh : s.FreshNames config) (hg : s.Grows config s')
    (h : Divided config s s' t u) (htu : (t, u) ∈ s.unions) (hm : m ∈ u.members)
    (hs' : s'.names.Nodup) (hdenoted : ∃ t, s.target m.typeName = .ok t) {x : TypeEntry × Record}
    (hx : s'.recordOf? (u.typeFor config m) = some x) : x.1.specName = u.typeFor config m := by
  refine IsNode.specName_eq ?_ hs' hx
  by_cases hshared : u.isShared m.typeName = true
  · rw [UnionType.typeFor_of_shared hshared]
    obtain ⟨t', ht'⟩ := Option.isSome_iff_exists.mp (h.derived m hm hshared)
    obtain ⟨-, -, -, r, hr, -⟩ :=
      hg.derived _ t' ht' (hfresh.new _ (pair_mem_sharedPairs htu hm hshared))
    obtain ⟨hmem, hname⟩ := mem_of_lookup? ht'
    exact ⟨t', hmem, hname, hr ▸ rfl⟩
  · rw [UnionType.typeFor_of_not_shared hshared] at hx ⊢
    by_cases hrecord : s.isRecord m.typeName = true
    · exact h.node m hm hrecord
    · -- what denoted something else denotes no structure now
      obtain ⟨y, hy⟩ := hdenoted
      have hnone := (hg.others _ (denotesOther_of_target hy hrecord)).recordOf?_eq_none
      cases hnone.symm.trans hx

/-- With fresh names two members denote different structures unless they have the same selector. -/
theorem Schema.Divided.selectors (hfresh : s.FreshNames config) (hg : s.Grows config s')
    (h : Divided config s s' t u) (htu : (t, u) ∈ s.unions) (hs' : s'.names.Nodup)
    (hm : m ∈ u.members) (hm' : m' ∈ u.members) (hdenoted : ∃ t, s.target m.typeName = .ok t)
    (hdenoted' : ∃ t, s.target m'.typeName = .ok t) {x : TypeEntry × Record}
    (hx : s'.recordOf? (u.typeFor config m) = some x)
    (hx' : s'.recordOf? (u.typeFor config m') = some x) : m.selector = m'.selector := by
  have hsame : u.typeFor config m = u.typeFor config m' :=
    (h.specName_eq hfresh hg htu hm hs' hdenoted hx).symm.trans
      (h.specName_eq hfresh hg htu hm' hs' hdenoted' hx')
  obtain ⟨y, hy⟩ := hdenoted
  obtain ⟨y', hy'⟩ := hdenoted'
  exact hfresh.selector_eq htu hm hm' (mem_names_of_target hy) (mem_names_of_target hy') hsame

end Types

section Unions

variable {config : Config} {r r' : Registry} {n : Nat}

/-- What holds of each union and what it is divided into holds of all unions that are put out. -/
theorem sameUnions_separateUnions {R : UnionType → UnionType → Prop} (hnames : r.names.Nodup)
    (hy : Yields (Edit.separateUnions config) r n r')
    (h : ∀ t u, (t, u) ∈ r.unions → R u (u.divide config)) :
    r.toSchema.SameUnions R r'.toSchema where
  kept t u htu := ⟨u.divide config, (Edit.mem_unions_separateUnions hnames hy).mpr
    ⟨t, u, htu, rfl, rfl⟩, h t u htu⟩
  old t' u' htu' := by
    obtain ⟨t, u, htu, rfl, rfl⟩ := (Edit.mem_unions_separateUnions hnames hy).mp htu'
    exact ⟨t, u, htu, rfl, h t u htu⟩

/-- What holds of each member and the same member with its new type holds member by member. -/
theorem UnionType.forall₂_divide {R : UnionMember → UnionMember → Prop} {u : UnionType}
    (h : ∀ m ∈ u.members, R m { m with typeName := u.typeFor config m }) :
    List.Forall₂ R u.members (u.divide config).members :=
  List.forall₂_map_right_iff.mpr (List.forall₂_same.mpr h)

/-- When unions are separated and the names of new types are fresh, the unions that are put out stay
the same but for the types of their members; these have the fields that they had, and tell
selectors apart. -/
theorem memberTypes_of_separateUnions (hnames : r.names.Nodup)
    (hfresh : r.toSchema.FreshNames config) (hy : Yields (Edit.separateUnions config) r n r') :
    r.toSchema.SameUnions (UnionType.Resolved r.toSchema r'.toSchema) r'.toSchema := by
  obtain ⟨hg, hall⟩ := Edit.divided_separateUnions hnames hy
  have hnames' := hg.becomes.names hnames
  refine sameUnions_separateUnions hnames hy fun t u htu => ⟨rfl, ?_, ?_⟩
  · exact UnionType.forall₂_divide fun m hm =>
      ⟨rfl, (hall t u htu).sameFields hg hm (hfresh.not_clashes htu hm)⟩
  · intro p hp q hq hdenoted hdenoted' x hx hx'
    have hzip : u.members.zip (u.divide config).members =
        u.members.map fun m => (m, { m with typeName := u.typeFor config m }) :=
      List.map_prod_left_eq_zip.symm
    rw [hzip] at hp hq
    obtain ⟨m, hm, rfl⟩ := List.mem_map.mp hp
    obtain ⟨m', hm', rfl⟩ := List.mem_map.mp hq
    show m.selector = m'.selector
    exact (hall t u htu).selectors hfresh hg htu hnames' hm hm' hdenoted hdenoted' hx hx'

/-- A structure of one number. -/
def numberRecord (specName field typeName : String) : TypeEntry :=
  TypeEntry.new specName (.record { fields := [{ name := field, typeName }] })

/-- A registry with types after the elementary ones. -/
def registryOf (types : List TypeEntry) : Registry :=
  { types := elementary ++ types }

/-- The registry after its unions have been separated. -/
def separated (r : Registry) : Registry :=
  (Id.run ((Edit.separateUnions {}).run r)).2

/-- The union of a color that two selectors choose, with further members. -/
def splitColorUnion (members : List UnionMember) : TypeEntry :=
  TypeEntry.new "TPMU_COLOR" (.union { members :=
    [{ name := "red", typeName := "TPMS_COLOR", selector := "TPM_ALG_RED" },
      { name := "blue", typeName := "TPMS_COLOR", selector := "TPM_ALG_BLUE" }] ++ members })

/-- Colors under two selectors, and under a further name; another union has them alone. -/
def palette : Registry :=
  registryOf [numberRecord "TPMS_COLOR" "shade" "UINT8",
    TypeEntry.new "TPMS_TINT" (.aliasOf { base := "TPMS_COLOR" }),
    splitColorUnion [{ name := "tint", typeName := "TPMS_TINT", selector := "TPM_ALG_TINT" }],
    TypeEntry.new "TPMU_SHADE" (.union { members :=
      [{ name := "color", typeName := "TPMS_COLOR", selector := "TPM_ALG_RED" },
        { name := "dark", typeName := "UINT8", selector := "TPM_ALG_DARK" }] })]

/-- The names are fresh, so each color keeps its fields and gets a structure of its own. -/
theorem memberTypes_of_palette :
    (palette.names.Nodup ∧ palette.toSchema.FreshNames {} ∧
      Yields (Edit.separateUnions {}) palette 3 (separated palette)) ∧
    palette.toSchema.SameUnions
      (UnionType.Resolved palette.toSchema (separated palette).toSchema)
      (separated palette).toSchema ∧
    (separated palette).unions.map (·.2.members.map (·.typeName)) =
      [["TPMS_COLOR_RED", "TPMS_COLOR_BLUE", "TPMS_TINT"], ["TPMS_COLOR", "UINT8"]] ∧
    ["TPMS_COLOR_RED", "TPMS_COLOR_BLUE", "TPMS_TINT"].map (fun name =>
      ((separated palette).recordOf? name).map (·.1.specName)) =
      [some "TPMS_COLOR_RED", some "TPMS_COLOR_BLUE", some "TPMS_TINT"] := by
  have hnames : palette.names.Nodup := by decide +kernel
  have hfresh : palette.toSchema.FreshNames {} := by decide +kernel
  have hy : Yields (Edit.separateUnions {}) palette 3 (separated palette) :=
    yields_of_toOption (by decide +kernel)
  refine ⟨⟨hnames, hfresh, hy⟩, memberTypes_of_separateUnions hnames hfresh hy, ?_, ?_⟩
  · decide +kernel
  · decide +kernel

/-- A structure, types that each refer to the one before, and a union of two of them. -/
def chain (link : String → TypeKind) (length first second : Nat) : Registry :=
  let name (i : Nat) : String := "S" ++ toString i
  registryOf (numberRecord (name 0) "x" "UINT8" ::
    (List.range length).map (fun i => TypeEntry.new (name (i + 1)) (link (name i))) ++
      [TypeEntry.new "U" (.union { members :=
        [{ name := "a", typeName := name first, selector := "A" },
          { name := "b", typeName := name second, selector := "B" }] })])

/-- More further names than are followed. -/
def aliasChain : Registry :=
  chain (fun base => .aliasOf { base }) 70 70 30

/-- As many bases as are followed. -/
def baseChain : Registry :=
  chain (fun base => .record { base := some base }) 64 64 64

/-- A name that denoted nothing denotes a structure of another selector when a further name on its
way becomes a structure; and a structure that is derived from one with as many bases as are followed
has none of its fields. -/
theorem memberTypes_not_kept :
    (aliasChain.names.Nodup ∧ aliasChain.toSchema.FreshNames {} ∧
      Yields (Edit.separateUnions {}) aliasChain 1 (separated aliasChain) ∧
      (separated aliasChain).unions.map (·.2.members.map fun m => (m.typeName, m.selector)) =
        [[("S70", "A"), ("S30", "B")]] ∧
      ((separated aliasChain).recordOf? "S70").map (·.1.specName) = some "S30" ∧
      ((separated aliasChain).recordOf? "S30").map (·.1.specName) = some "S30") ∧
    baseChain.names.Nodup ∧ baseChain.toSchema.FreshNames {} ∧
      Yields (Edit.separateUnions {}) baseChain 2 (separated baseChain) ∧
      baseChain.unions.map (·.2.members.map (·.typeName)) = [["S64", "S64"]] ∧
      (baseChain.allFields "S64").toOption.map (·.map (·.name)) = some ["x"] ∧
      (separated baseChain).unions.map (·.2.members.map (·.typeName)) = [["S64_A", "S64_B"]] ∧
      (separated baseChain).allFields "S64_A" = .error (.inconsistent "S64_A" .baseCycle) := by
  refine ⟨⟨?_, ?_, yields_of_toOption ?_, ?_⟩, ?_, ?_, yields_of_toOption ?_, ?_⟩ <;>
    decide +kernel

/-- When unions are separated, each member is the same but for its type, which is one of its own if
it shared its type. It has the fields that it had before unless names clash; then it may have those
of another type that there was. -/
theorem memberFields_of_separateUnions (hnames : r.names.Nodup)
    (hy : Yields (Edit.separateUnions config) r n r') :
    r.toSchema.SameUnions (UnionType.Reassigned config r.toSchema r'.toSchema) r'.toSchema := by
  obtain ⟨hg, hall⟩ := Edit.divided_separateUnions hnames hy
  refine sameUnions_separateUnions hnames hy fun t u htu => ⟨rfl, ?_⟩
  refine UnionType.forall₂_divide fun m hm => ⟨rfl, rfl, ?_, fun hno => ?_⟩
  · exact (hall t u htu).exists_origin hg hm
  · exact (hall t u htu).sameFields hg hm hno

/-- Colors under two selectors, with another structure that has the name of the one for red. -/
def stain : Registry :=
  registryOf [numberRecord "TPMS_COLOR" "shade" "UINT8",
    numberRecord "TPMS_COLOR_RED" "depth" "UINT16", splitColorUnion []]

/-- Blue keeps its fields, and red gets those of the structure that has the name. -/
theorem memberFields_of_stain :
    (stain.names.Nodup ∧ Yields (Edit.separateUnions {}) stain 1 (separated stain)) ∧
    stain.toSchema.SameUnions
      (UnionType.Reassigned {} stain.toSchema (separated stain).toSchema)
      (separated stain).toSchema ∧
    stain.unions.map (fun p => p.2.members.map fun m =>
      decide (stain.toSchema.Clashes {} p.2 m)) = [[true, false]] ∧
    (separated stain).unions.map (fun p => p.2.members.map fun m =>
      ((separated stain).allFields m.typeName).toOption.map (·.map (·.name))) =
      [[some ["depth"], some ["shade"]]] := by
  have hnames : stain.names.Nodup := by decide +kernel
  have hy : Yields (Edit.separateUnions {}) stain 1 (separated stain) :=
    yields_of_toOption (by decide +kernel)
  refine ⟨⟨hnames, hy⟩, memberFields_of_separateUnions hnames hy, ?_, ?_⟩
  · decide +kernel
  · decide +kernel

end Unions

end WireTables
