import WireTables.Proofs.Extraction
import WireTables.Proofs.Normal.Division
import WireTables.Proofs.Schema.Places
import WireTables.Proofs.Schema.Resolved

/-!
# Bases precede what is derived from them

Definitions are put out in one order, and a class can only be derived from one that has been defined
before it. A structure gets a base when unions are separated: a further name is derived from the
structure that it stood for and is moved behind it, and the structures that members get for
themselves are put behind the type that they shared. What has a base or is one is not moved after
that, for only further names are. So bases come before what is derived from them (`BasesFirst`), as
long as the type that members shared is a structure itself and not a further name of one. It is one
if its further names were followed to the end when the union was separated (`MembersNear`).

In the normal form of tables every base is a structure that comes before the structures derived from
it (`bases_precede_derived`). Further names are followed up to a limit, so the types of members have
to be within it: a name beyond the limit may come within it when another name on its way becomes a
structure, and then structures are derived from the name, which is none (`bases_not_first`).
-/

namespace WireTables

open Relation (ReflTransGen)

namespace TypeEntry

/-- The base of a structure, if it has one; nothing for other types. -/
def base? (t : TypeEntry) : Option (Option String) :=
  t.record?.map (·.base)

theorem base?_mapRecord {f : Record → Record} (hf : ∀ r, (f r).base = r.base) (t : TypeEntry) :
    (t.mapRecord f).base? = t.base? := by
  obtain ⟨id, specName, name, comment, implemented, kind⟩ := t
  cases kind with
  | record r => exact congrArg some (hf r)
  | _ => rfl

theorem base?_mapUnion (f : UnionType → UnionType) (t : TypeEntry) :
    (t.mapUnion f).base? = t.base? := by
  obtain ⟨id, specName, name, comment, implemented, kind⟩ := t
  cases kind <;> rfl

end TypeEntry

namespace Schema

/-- The base of a structure is a structure that is put out before it. -/
def BasesFirst (s : Schema) : Prop :=
  ∀ t ∈ s.types, ∀ base, t.base? = some (some base) →
    s.IsNode base ∧ s.ComesBefore base t.specName

/-- The name is that of a structure, or a further name that leads to one, however far away. -/
inductive LeadsToRecord (s : Schema) : String → Prop where
  | node {name : String} (node : s.IsNode name) : LeadsToRecord s name
  | further {name : String} {t : TypeEntry} {a : AliasType} (lookup : s.lookup? name = some t)
    (further : t.alias? = some a) (leads : LeadsToRecord s a.base) : LeadsToRecord s name

/-- No union that is put out has a member whose type leads to a structure that is too far away to be
denoted by it. -/
def MembersNear (s : Schema) : Prop :=
  ∀ t u, (t, u) ∈ s.unions → ∀ m ∈ u.members, s.LeadsToRecord m.typeName →
    s.isRecord m.typeName = true

/-- What further names stand for is there. -/
def AliasesHold (s : Schema) : Prop :=
  ∀ t ∈ s.types, ∀ a, t.alias? = some a → a.base ∈ s.names

/-- The names of all types in order, with the bases of structures. -/
def bases (s : Schema) : List (String × Option (Option String)) :=
  s.types.map fun t => (t.specName, t.base?)

section Bases

variable {s s' : Schema} {name : String}

theorem leadsToRecord_of_isRecord (h : s.isRecord name = true) : s.LeadsToRecord name := by
  have follow : ∀ {hops : Nat} {t x : TypeEntry}, s.lookup? t.specName = some t →
      s.followAliases name hops t = .ok x → x.record?.isSome = true →
        s.LeadsToRecord t.specName := by
    intro hops
    induction hops with
    | zero => exact fun _ hf => nomatch hf
    | succ hops ih =>
      intro t x ht hf hx
      unfold followAliases at hf
      split at hf
      · next a hkind =>
        obtain ⟨next, hnext, hf⟩ := bind_eq_ok.mp hf
        have hnext := require_eq_ok.mp hnext
        obtain ⟨-, hname⟩ := mem_of_lookup? hnext
        refine .further ht (by unfold TypeEntry.alias?; rw [hkind]) ?_
        rw [← hname] at hnext ⊢
        exact ih hnext hf hx
      · cases hf
        exact .node ⟨t, (mem_of_lookup? ht).1, rfl, hx⟩
  obtain ⟨⟨x, r⟩, hrecord⟩ := Option.isSome_iff_exists.mp h
  obtain ⟨htarget, hr⟩ := recordOf?_eq_some.mp hrecord
  obtain ⟨t, ht, hf⟩ := bind_eq_ok.mp htarget
  have ht := require_eq_ok.mp ht
  obtain ⟨-, rfl⟩ := mem_of_lookup? ht
  exact follow ht hf (hr ▸ rfl)

theorem names_eq_bases : s.names = s.bases.map (·.1) := by
  rw [names, bases, List.map_map]
  rfl

theorem isNode_iff_base? : s.IsNode name ↔ ∃ base, (name, some base) ∈ s.bases := by
  simp only [IsNode, bases, List.mem_map, Prod.mk.injEq]
  constructor
  · rintro ⟨t, ht, rfl, hr⟩
    obtain ⟨r, hr⟩ := Option.isSome_iff_exists.mp hr
    exact ⟨r.base, t, ht, rfl, by unfold TypeEntry.base?; rw [hr]; rfl⟩
  · rintro ⟨base, t, ht, rfl, hbase⟩
    obtain ⟨r, hr, -⟩ := Option.map_eq_some_iff.mp hbase
    exact ⟨t, ht, rfl, hr ▸ rfl⟩

theorem isNode_of_bases (h : s'.bases = s.bases) : s'.IsNode name ↔ s.IsNode name := by
  rw [isNode_iff_base?, isNode_iff_base?, h]

theorem bases_of_map {change : TypeEntry → TypeEntry} (hs : s'.types = s.types.map change)
    (hchange : ∀ t, (change t).specName = t.specName ∧ (change t).base? = t.base?) :
    s'.bases = s.bases := by
  rw [bases, hs, List.map_map]
  exact List.map_congr_left fun t _ => Prod.ext (hchange t).1 (hchange t).2

theorem bases_modifyType {change : TypeEntry → TypeEntry}
    (hname : ∀ t, (change t).specName = t.specName) (hbase : ∀ t, (change t).base? = t.base?) :
    (s.modifyType name change).bases = s.bases := by
  refine bases_of_map rfl fun t => ?_
  split
  · exact ⟨hname t, hbase t⟩
  · exact ⟨rfl, rfl⟩

theorem bases_modifyRecord {f : Record → Record} (hf : ∀ r, (f r).base = r.base) :
    (s.modifyRecord name f).bases = s.bases :=
  bases_modifyType (TypeEntry.specName_mapRecord f) (TypeEntry.base?_mapRecord hf)

theorem bases_linkUnions : s.linkUnions.bases = s.bases :=
  bases_of_map rfl fun t =>
    ⟨TypeEntry.specName_mapRecord _ t, TypeEntry.base?_mapRecord (by exact fun _ => rfl) t⟩

/-- Bases come first whatever else changes. -/
theorem BasesFirst.of_bases (hs : s.BasesFirst) (h : s'.bases = s.bases) : s'.BasesFirst := by
  intro t' ht' base hbase
  have hmem : (t'.specName, t'.base?) ∈ s.bases := h ▸ List.mem_map_of_mem ht'
  obtain ⟨t, ht, heq⟩ := List.mem_map.mp hmem
  obtain ⟨hname, hsame⟩ := Prod.mk.inj heq
  obtain ⟨hnode, hbefore⟩ := hs t ht base (hsame.trans hbase)
  rw [hname] at hbefore
  refine ⟨(isNode_of_bases h).mpr hnode, comesBefore_of_names ?_ hbefore⟩
  rw [names_eq_bases, names_eq_bases, h]

end Bases

/-- The schema has come about from `s₀` by separating unions, and bases come first: what was there
before and is a structure now led to one. -/
structure InOrder (s₀ s : Schema) : Prop where
  becomes : s₀.Becomes (fun _ => True) s
  nodes : ∀ name ∈ s₀.names, s.IsNode name → s₀.LeadsToRecord name
  first : s.BasesFirst

section InOrder

variable {s₀ s s' : Schema} {name : String}

theorem InOrder.of_bases (h : s₀.InOrder s) (hb : s.Becomes (fun _ => True) s')
    (hbases : s'.bases = s.bases) : s₀.InOrder s' :=
  ⟨h.becomes.trans hb, fun name hn hnode => h.nodes name hn ((isNode_of_bases hbases).mp hnode),
    h.first.of_bases hbases⟩

/-- What leads to a structure by now led to one from the start. -/
theorem InOrder.leads (h : s₀.InOrder s) (hnames : s₀.names.Nodup) (hhold : s₀.AliasesHold)
    (hl : s.LeadsToRecord name) (hn : name ∈ s₀.names) : s₀.LeadsToRecord name := by
  induction hl with
  | node hnode => exact h.nodes _ hn hnode
  | further hlookup halias _ ih =>
    obtain ⟨hmem, rfl⟩ := mem_of_lookup? hlookup
    obtain ⟨t₀, ht₀, hname, ha⟩ := h.becomes.exists_alias hmem halias
    refine .further (hname ▸ lookup?_of_mem hnames ht₀) ha (ih (hhold t₀ ht₀ _ ha))

/-- A further name was one from the start. -/
theorem InOrder.mem_names_of_alias (h : s₀.InOrder s) {t : TypeEntry} {a : AliasType}
    (ht : s.lookup? name = some t) (ha : t.alias? = some a) : name ∈ s₀.names := by
  obtain ⟨hmem, rfl⟩ := mem_of_lookup? ht
  obtain ⟨t₀, ht₀, hname, -⟩ := h.becomes.exists_alias hmem ha
  exact hname ▸ List.mem_map_of_mem ht₀

/-- The name of a structure is no further name. -/
theorem IsNode.alias?_eq_none (h : s.IsNode name) (hs : s.names.Nodup) {t : TypeEntry}
    (ht : s.lookup? name = some t) : t.alias? = none := by
  obtain ⟨u, hu, rfl, hr⟩ := h
  obtain rfl := Option.some.inj ((lookup?_of_mem hs hu).symm.trans ht)
  obtain ⟨r, hr⟩ := Option.isSome_iff_exists.mp hr
  unfold TypeEntry.alias?
  rw [TypeEntry.kind_of_record? hr]

/-- A structure that is added after its base, or after what comes after its base, comes after its
base, and all others stay in order. -/
theorem InOrder.addType (h : s₀.InOrder s) (hs : s.names.Nodup)
    {derived shared comment anchor : String} (hshared : s.IsNode shared)
    (hanchor : anchor = shared ∨ s.ComesBefore shared anchor)
    (ha : s.addType (TypeEntry.new derived (.record { base := some shared }) comment)
      (some anchor) = .ok s') :
    s₀.InOrder s' ∧ s.Becomes (fun _ => True) s' ∧ s'.ComesBefore shared derived ∧
      ∀ first second, s.ComesBefore first second → s'.ComesBefore first second := by
  have hb : s.Becomes (fun _ => True) s' := .addType ha rfl
  have hs' := hb.names hs
  have hadded := added_of_addType hs ha
  obtain ⟨hfresh, hperm⟩ := perm_of_addType ha
  have hkept : ∀ first second, s.ComesBefore first second → s'.ComesBefore first second := by
    intro first second hbefore
    rw [comesBefore_iff hs] at hbefore
    rw [comesBefore_iff hs']
    have hsub : s.types.Sublist s'.types := hadded.others ▸ List.filter_sublist
    exact hbefore.trans (hsub.map _)
  have hafter : s'.ComesBefore shared derived := by
    obtain ⟨i, hi, hnext⟩ := hadded.place
    rcases hanchor with rfl | hbefore
    · exact ⟨i, i + 1, hi, hnext, Nat.lt_succ_self i⟩
    · obtain ⟨k, j, hk, hj, hlt⟩ := hkept _ _ hbefore
      cases hi.symm.trans hj
      exact ⟨k, i + 1, hk, hnext, Nat.lt_succ_of_lt hlt⟩
  refine ⟨⟨h.becomes.trans hb, fun name hn hnode => ?_, fun t ht base hbase => ?_⟩, hb, hafter,
    hkept⟩
  · obtain ⟨t, ht, rfl, hr⟩ := hnode
    rcases List.mem_cons.mp (hperm.mem_iff.mp ht) with rfl | ht
    · obtain ⟨t₀, ht₀, hname⟩ := List.mem_map.mp hn
      obtain ⟨t', ht', hbecomes⟩ := h.becomes.kept t₀ ht₀
      exact absurd (List.mem_map.mpr ⟨t', ht', hbecomes.name.trans hname⟩) hfresh
    · exact h.nodes _ hn ⟨t, ht, rfl, hr⟩
  · rcases List.mem_cons.mp (hperm.mem_iff.mp ht) with rfl | ht
    · obtain rfl : shared = base := Option.some.inj (Option.some.inj hbase)
      exact ⟨hb.isNode hshared, hafter⟩
    · obtain ⟨hnode, hbefore⟩ := h.first t ht base hbase
      exact ⟨hb.isNode hnode, hkept _ _ hbefore⟩

end InOrder

end Schema

namespace Edit

open Schema

variable {config : Config} {r r' : Registry} {s₀ : Schema} {union name : String} {n : Nat}
  {u : Unit}

/-- The passes before unions are separated leave names, their order and bases as they are. -/
theorem bases_of_reshapes (h : Reshapes config r r') : r'.bases = r.bases := by
  cases h with
  | pairs => exact bases_of_map rfl fun t =>
      ⟨TypeEntry.specName_mapRecord _ t, TypeEntry.base?_mapRecord (by exact fun _ => rfl) t⟩
  | rewrite h =>
    cases h with
    | inline => exact bases_modifyRecord fun _ => rfl
    | imply => exact bases_modifyRecord fun _ => rfl
    | remember => rfl
    | note => exact bases_modifyRecord fun _ => rfl
    | tail => exact bases_modifyRecord fun _ => rfl
    | drop => exact bases_modifyType (fun _ => rfl) fun _ => rfl

/-- A further name is derived from what it stood for, and comes after it. -/
theorem inOrder_deriveFromAlias (hnames : s₀.names.Nodup) (hhold : s₀.AliasesHold)
    (h : s₀.InOrder r.toSchema) (halias : r.isRecordAlias name = true)
    (hy : Yields (deriveFromAlias name) r u r') : s₀.InOrder r'.toSchema := by
  have hr := h.becomes.names hnames
  have hb : r.Becomes (fun _ => True) r'.toSchema := becomes_deriveFromAlias hy
  obtain ⟨t, a, x, ht, ha, htarget, hx⟩ := exists_of_isRecordAlias halias
  have halias? : t.alias? = some a := by
    unfold TypeEntry.alias?
    rw [ha]
  obtain ⟨base, errorCode, s, hbase, hs, rfl⟩ := exists_of_deriveFromAlias hy
  obtain rfl : x = base := Except.ok.inj (htarget.symm.trans hbase)
  obtain ⟨hlookup, hnoalias⟩ := lookup?_of_target hbase
  -- a structure has another name
  have hne : ∀ {other : String}, r.IsNode other → other ≠ name := by
    rintro other hnode rfl
    cases (hnode.alias?_eq_none hr ht).symm.trans halias?
  have hxnode : r.IsNode x.specName := ⟨x, (mem_of_lookup? hlookup).1, rfl, hx⟩
  have hnamed : (r.toSchema.modifyType name
      ({ · with kind := .record { base := some x.specName, errorCode } })).names = r.names := by
    rw [names, names, Schema.modifyType, List.map_map]
    refine List.map_congr_left fun t _ => ?_
    show (if t.specName == name then _ else t).specName = t.specName
    split <;> rfl
  have hmoved := moved_of_ensureAfter (hnamed ▸ hr) hs
  have hs' : s.names.Nodup := hb.names hr
  have hkept : ∀ {first second : String}, first ≠ name → second ≠ name →
      r.ComesBefore first second → s.ComesBefore first second := fun hfirst hsecond hbefore =>
    comesBefore_of_others (hnamed ▸ hr) hs' hmoved.others hfirst hsecond
      (comesBefore_of_names hnamed hbefore)
  -- each type is one that there was, or the one that has been derived
  have hcases : ∀ t' ∈ s.types, t'.specName = name ∧ t'.base? = some (some x.specName) ∨
      t'.specName ≠ name ∧ t' ∈ r.types := by
    intro t' ht'
    obtain ⟨t₀, ht₀, rfl⟩ := List.mem_map.mp ((perm_of_ensureAfter hs).mem_iff.mp ht')
    by_cases hname : t₀.specName = name
    · rw [if_pos (beq_iff_eq.mpr hname)]
      exact .inl ⟨hname, rfl⟩
    · rw [if_neg (mt beq_iff_eq.mp hname)]
      exact .inr ⟨hname, ht₀⟩
  refine ⟨h.becomes.trans hb, fun other hother hnode => ?_, fun t' ht' base hbase' => ?_⟩
  · obtain ⟨t', ht', rfl, hr'⟩ := hnode
    rcases hcases t' ht' with ⟨hname, -⟩ | ⟨-, hmem⟩
    · rw [hname] at hother ⊢
      exact h.leads hnames hhold (leadsToRecord_of_isRecord (Bool.and_eq_true_iff.mp halias).2)
        hother
    · exact h.nodes _ hother ⟨t', hmem, rfl, hr'⟩
  · rcases hcases t' ht' with ⟨hname, hderived⟩ | ⟨hname, hmem⟩
    · obtain rfl : x.specName = base :=
        Option.some.inj (Option.some.inj (hderived.symm.trans hbase'))
      rw [hname]
      exact ⟨hb.isNode hxnode, hmoved.after (hne hxnode).symm⟩
    · obtain ⟨hnode, hbefore⟩ := h.first t' hmem base hbase'
      exact ⟨hb.isNode hnode, hkept (hne hnode) hname hbefore⟩

/-- The structure of a member is put behind its base, or behind the last one that was derived from
it. -/
theorem inOrder_addDerived (hnames : s₀.names.Nodup) (h : s₀.InOrder r.toSchema)
    {change : Renaming} {anchors : List (String × String)} {result : List (String × String) × Nat}
    (hshared : r.IsNode change.shared) (hanchors : ∀ p ∈ anchors, r.ComesBefore p.1 p.2)
    (hy : Yields (addDerived union anchors change) r result r') :
    s₀.InOrder r'.toSchema ∧ r.Becomes (fun _ => True) r'.toSchema ∧
      ∀ p ∈ result.1, r'.ComesBefore p.1 p.2 := by
  obtain ⟨r₁, hadded, rfl⟩ := anchored_of_addDerived hy
  obtain ⟨h₁, hb₁, hresult⟩ : s₀.InOrder r₁.toSchema ∧ r.Becomes (fun _ => True) r₁.toSchema ∧
      ∀ p ∈ result.1, r₁.ComesBefore p.1 p.2 := by
    rcases hadded with ⟨-, rfl, hsame⟩ | ⟨comment, s, hs, rfl, hmore⟩
    · exact ⟨h, .refl _, hsame ▸ hanchors⟩
    · have hanchor : (anchors.lookup change.shared).getD change.shared = change.shared ∨
          r.ComesBefore change.shared ((anchors.lookup change.shared).getD change.shared) := by
        cases hl : anchors.lookup change.shared with
        | none => exact .inl rfl
        | some last =>
          obtain ⟨before, after, hsplit, -⟩ := List.lookup_eq_some_iff.mp hl
          exact .inr (hanchors (change.shared, last) (hsplit ▸ by simp))
      obtain ⟨h₁, hb₁, hafter, hkept⟩ := h.addType (h.becomes.names hnames) hshared hanchor hs
      refine ⟨h₁, hb₁, fun p hp => ?_⟩
      rw [hmore] at hp
      rcases List.mem_cons.mp hp with rfl | hp
      · exact hafter
      · exact hkept _ _ (hanchors p hp)
  have hrename : Separates union r₁ _ := .rename change.index change.derived
  have hb : r₁.Becomes (fun _ => True) _ := (becomes_of_separates hrename).mono fun _ _ => trivial
  have hbases : (r₁.toSchema.modifyType union (·.mapUnion fun u => { u with
      members := u.members.modify change.index ({ · with typeName := change.derived }) })).bases =
        r₁.bases :=
    bases_modifyType (TypeEntry.specName_mapUnion _) (TypeEntry.base?_mapUnion _)
  refine ⟨h₁.of_bases hb hbases, hb₁.trans hb, fun p hp => comesBefore_of_names ?_ (hresult p hp)⟩
  rw [names_eq_bases, names_eq_bases]
  exact congrArg _ hbases

theorem inOrder_addAllDerived (hnames : s₀.names.Nodup) {changes : List Renaming}
    {anchors : List (String × String)} (h : s₀.InOrder r.toSchema)
    (hshared : ∀ c ∈ changes, r.IsNode c.shared) (hanchors : ∀ p ∈ anchors, r.ComesBefore p.1 p.2)
    (hy : Yields (addAllDerived union anchors changes) r n r') : s₀.InOrder r'.toSchema := by
  induction changes generalizing r n anchors with
  | nil =>
    obtain ⟨-, rfl⟩ := yields_pure.mp hy
    exact h
  | cons change rest ih =>
    unfold addAllDerived at hy
    obtain ⟨⟨anchors', count⟩, r₁, hadd, hy⟩ := yields_bind.mp hy
    obtain ⟨m, r₂, hrest, hend⟩ := yields_bind.mp hy
    obtain ⟨-, rfl⟩ := yields_pure.mp hend
    obtain ⟨h₁, hb, hanchors'⟩ :=
      inOrder_addDerived hnames h (hshared change List.mem_cons_self) hanchors hadd
    exact ih h₁ (fun c hc => hb.isNode (hshared c (List.mem_cons_of_mem _ hc))) hanchors' hrest

/-- One further name after the other is derived from what it stood for. -/
theorem inOrder_forM_deriveFromAlias (hnames : s₀.names.Nodup) (hhold : s₀.AliasesHold)
    {further : List String} (hfurther : further.Nodup)
    (halias : ∀ name ∈ further, r.isRecordAlias name = true) (h : s₀.InOrder r.toSchema)
    (hy : Yields (further.forM deriveFromAlias) r ⟨⟩ r') : s₀.InOrder r'.toSchema := by
  induction further generalizing r with
  | nil =>
    obtain ⟨-, rfl⟩ := yields_pure.mp hy
    exact h
  | cons first rest ih =>
    obtain ⟨r₁, hfirst, hrest⟩ := yields_forM_cons.mp hy
    obtain ⟨hfresh, hfurther⟩ := List.nodup_cons.mp hfurther
    have h₁ := inOrder_deriveFromAlias hnames hhold h (halias first List.mem_cons_self) hfirst
    refine ih hfurther (fun name hname => ?_) h₁ hrest
    exact isRecordAlias_deriveFromAlias (h.becomes.names hnames) hfirst
      (fun heq => hfresh (heq ▸ hname)) (halias name (List.mem_cons_of_mem _ hname))

/-- Separating a union keeps bases first if what its members share is not too far away. -/
theorem inOrder_separateUnion (hnames : s₀.names.Nodup) (hhold : s₀.AliasesHold)
    (h : s₀.InOrder r.toSchema)
    (hnear : ∀ u, (r.lookup? union).bind TypeEntry.union? = some u → ∀ m ∈ u.members,
      s₀.LeadsToRecord m.typeName → s₀.isRecord m.typeName = true)
    (hy : Yields (separateUnion config union) r n r') : s₀.InOrder r'.toSchema := by
  rcases separateUnion_cases hy with ⟨-, rfl⟩ |
    ⟨found, hfound, r₁, changes, m, hderive, hchanges, hadd⟩
  · exact h
  · have hfurther : ∀ name ∈ r.memberAliases found, r.isRecordAlias name = true :=
      fun name hname => (List.mem_filter.mp (List.mem_eraseDups.mp hname)).2
    have h₁ := inOrder_forM_deriveFromAlias hnames hhold (nodup_eraseDups _) hfurther h hderive
    refine inOrder_addAllDerived hnames h₁ (fun c hc => ?_)
      (fun _ hp => (List.not_mem_nil hp).elim) hadd
    -- what denotes a structure now is one; it would be a further name otherwise, and derived by now
    have hrecord := isRecord_of_renamings hchanges hc
    obtain ⟨m, hm, -, hshared, -⟩ := (renames_of_renamings hchanges).1 c hc
    rcases isNode_or_alias hrecord with hnode | ⟨a, ha⟩
    · exact hnode
    · obtain ⟨t, ht, ha⟩ := Option.bind_eq_some_iff.mp ha
      have hleads := h₁.leads hnames hhold (leadsToRecord_of_isRecord hrecord)
        (h₁.mem_names_of_alias ht ha)
      rw [hshared] at hleads
      have hdenotes := h.becomes.isRecord hnames
        (hnear found hfound m (List.mem_of_getElem? hm) hleads)
      rw [← hshared] at hdenotes
      have hb : r.Becomes (fun _ => False) r₁.toSchema :=
        hderive.forM (I := fun r' => r.Becomes (fun _ => False) r'.toSchema) (.refl _)
          fun _ _ _ _ hs hy => hs.trans (becomes_deriveFromAlias hy)
      obtain ⟨hmem, hname⟩ := mem_of_lookup? ht
      obtain ⟨t', ht', hname', ha'⟩ := hb.exists_alias hmem ha
      have halias : r.isRecordAlias c.shared = true := by
        refine Bool.and_eq_true_iff.mpr ⟨?_, hdenotes⟩
        rw [← hname, ← hname', lookup?_of_mem (h.becomes.names hnames) ht', Option.bind_some, ha']
        rfl
      exact isNode_of_forM_deriveFromAlias hderive _ (List.mem_eraseDups.mpr
        (List.mem_filter.mpr ⟨hshared ▸ List.mem_map_of_mem (List.mem_of_getElem? hm), halias⟩))

/-- One union after the other is separated, and the members of those that are left are the same. -/
theorem inOrder_foldlM (hnames : s₀.names.Nodup) (hhold : s₀.AliasesHold) {unions : List String}
    (hunions : unions.Nodup) {count : Nat} (h : s₀.InOrder r.toSchema)
    (hnear : ∀ union ∈ unions, ∀ t ∈ r.types, t.specName = union → ∀ u, t.union? = some u →
      ∀ m ∈ u.members, s₀.LeadsToRecord m.typeName → s₀.isRecord m.typeName = true)
    (hy : Yields (unions.foldlM (fun count union => do
      return count + (← separateUnion config union)) count) r n r') : s₀.InOrder r'.toSchema := by
  induction unions generalizing r count with
  | nil =>
    obtain ⟨-, rfl⟩ := yields_pure.mp hy
    exact h
  | cons first rest ih =>
    rw [List.foldlM_cons] at hy
    obtain ⟨count', r₁, hround, hlater⟩ := yields_bind.mp hy
    obtain ⟨m, _, hfirst, hround⟩ := yields_bind.mp hround
    obtain ⟨-, rfl⟩ := yields_pure.mp hround
    obtain ⟨hfresh, hrest⟩ := List.nodup_cons.mp hunions
    have h₁ := inOrder_separateUnion hnames hhold h (fun u hu => by
      obtain ⟨t, ht, hu⟩ := Option.bind_eq_some_iff.mp hu
      obtain ⟨hmem, hname⟩ := mem_of_lookup? ht
      exact hnear first List.mem_cons_self t hmem hname u hu) hfirst
    refine ih hrest h₁ (fun union hunion t' ht' hname u' hu' => ?_) hlater
    have hb : r.Becomes (· = first) r₁.toSchema :=
      becomes_of_steps (separates_separateUnion hfirst) fun _ _ => becomes_of_separates
    obtain ⟨t, ht, hsame, u, hu, -, hkept⟩ := hb.exists_union ht' hu'
    obtain rfl : u' = u := hkept fun heq => hfresh (by rwa [← heq, hsame, hname])
    exact hnear union (List.mem_cons_of_mem _ hunion) t ht (hsame.trans hname) u' hu

/-- The passes keep bases first, from a registry of structures without bases on in which the types
of members are not too far away. -/
theorem basesFirst_of_passes (hnames : r.names.Nodup)
    (hbases : ∀ t ∈ r.types, ∀ x, t.record? = some x → x.base = none) (hhold : r.AliasesHold)
    (hnear : r.MembersNear) (h : Passes config r r') : r'.BasesFirst := by
  obtain ⟨r₅, r₆, n₆, hreshaped, hseparated, rfl⟩ := reshapes_of_passes h
  have hsame : r₅.bases = r.bases :=
    invariant_of_steps (I := fun r' => r'.bases = r.bases) hreshaped rfl
      fun _ _ hr hlast => (bases_of_reshapes hlast).trans hr
  have hb : r.Becomes (fun _ => False) r₅.toSchema :=
    becomes_of_steps hreshaped fun _ _ => becomes_of_reshapes
  have hstart : r.InOrder r₅.toSchema := by
    refine ⟨hb.mono fun _ => False.elim,
      fun name _ hnode => .node ((isNode_of_bases hsame).mp hnode),
      .of_bases (fun t ht base hbase => ?_) hsame⟩
    obtain ⟨x, hx, hxbase⟩ := Option.map_eq_some_iff.mp hbase
    cases (hbases t ht x hx).symm.trans hxbase
  unfold separateUnions at hseparated
  obtain ⟨_, _, hs, hloop⟩ := yields_bind.mp hseparated
  obtain ⟨rfl, rfl⟩ := yields_schema.mp hs
  have hnames₅ := hb.names hnames
  refine (inOrder_foldlM hnames hhold (nodup_unions hnames₅) hstart ?_ hloop).first.of_bases
    bases_linkUnions
  intro union hunion t ht hname u hu
  obtain ⟨⟨t', u'⟩, htu, rfl⟩ := List.mem_map.mp hunion
  obtain ⟨ht', himplemented, hu'⟩ := mem_unions.mp htu
  obtain rfl : t = t' := List.inj_on_of_nodup_map hnames₅ ht ht' hname
  obtain ⟨t₀, ht₀, -, u₀, hu₀, himplemented₀, hkept⟩ := hb.exists_union ht hu
  obtain rfl : u = u₀ := hkept id
  exact hnear t₀ u (mem_unions.mpr ⟨ht₀, himplemented₀ himplemented, hu₀⟩)

end Edit

/-! ## The normal form of tables -/

namespace Schema

variable {s : Schema} {name : String}

/-- What further names stand for has been looked up when the references of a schema hold. -/
theorem aliasesHold_of_checkReferences {known : Known} (h : Yields s.checkReferences [] () known) :
    s.AliasesHold := by
  intro t ht a ha
  refine (resolves_of_checkReferences h t ht).references a.base ?_
  obtain ⟨id, specName, name, comment, implemented, kind⟩ := t
  cases kind <;> cases ha
  exact List.mem_singleton_self _

instance (s : Schema) (name : String) : Decidable (s.IsNode name) :=
  inferInstanceAs (Decidable (∃ t ∈ s.types, t.specName = name ∧ t.record?.isSome = true))

end Schema

variable {tables : List Table} {config : Config} {r₀ r : Registry} {report : ExtractionReport}

/-- In the normal form of tables every base is a structure that is put out before the structures
that are derived from it, if no member of a union is of a type that leads to a structure beyond the
limit up to which further names are followed. -/
theorem bases_precede_derived (hextract : Extraction.extract tables config = .ok (r₀, report))
    (hnear : r₀.MembersNear) (hy : Yields (Edit.normalize config) r₀ () r) : r.BasesFirst := by
  obtain ⟨hchecked, htabled⟩ := Extraction.checked_of_extract hextract
  exact Edit.basesFirst_of_passes htabled.names htabled.bases
    (Schema.aliasesHold_of_checkReferences hchecked) hnear (Edit.passes_of_normalize hy).1

section Tints

/-- A further name of a color. -/
def tint (i : Nat) : String :=
  "T" ++ toString i

/-- Colors under two selectors, each as the last of some tints, and the first tint under another
one. The first tint is a further name of a color, and each of the others one of the tint before it;
they are defined before the color itself. -/
def tintChain (others : Nat) : List Table :=
  [{ caption := "Table 1 — Definition of (UINT16) TPM_KIND Constants", comment := "",
     rows := [["KIND_RED", "1", ""], ["KIND_BLUE", "2", ""], ["KIND_GRAY", "3", ""]],
     handleCount := 0 },
   { caption := "Table 2 — Definition of Types for Tints", comment := "",
     rows := ["TPMS_COLOR", tint 0, ""] ::
       (List.range others).map fun i => [tint i, tint (i + 1), ""], handleCount := 0 },
   { caption := "Table 3 — Definition of TPMS_COLOR Structure", comment := "",
     rows := [["shade", "UINT8", ""]], handleCount := 0 },
   { caption := "Table 4 — Definition of TPMU_COLOR Union", comment := "",
     rows := [["red", tint others, "KIND_RED", ""], ["blue", tint others, "KIND_BLUE", ""],
       ["gray", tint 0, "KIND_GRAY", ""]], handleCount := 0 }]

/-- The structures that have a base, with it, and whether that is a structure. -/
def derivations (r : Registry) : List (String × String × Bool) :=
  r.bases.filterMap fun (name, base) =>
    base.join.map fun base => (name, base, decide (r.IsNode base))

/-- Tints are derived from the color, and what the second one stands for under red and blue is
derived from it; each comes after its base, though the color was defined last. -/
theorem bases_precede_derived_tints : ∃ r₀ r,
    ((∃ report, Extraction.extract (tintChain 1) {} = .ok (r₀, report)) ∧ r₀.MembersNear ∧
      Yields (Edit.normalize {}) r₀ () r) ∧
    r.BasesFirst ∧
    derivations r = [("T0", "TPMS_COLOR", true), ("T1", "TPMS_COLOR", true),
      ("T1_KIND_RED", "T1", true), ("T1_KIND_BLUE", "T1", true)] ∧
    r.names.drop 11 = ["TPMS_COLOR", "T0", "T1", "T1_KIND_RED", "T1_KIND_BLUE", "TPMU_COLOR"] := by
  have hfacts : (normalForms? (tintChain 1)).map (fun p =>
      (decide (∀ q ∈ p.1.unions, ∀ m ∈ q.2.members, p.1.isRecord m.typeName = true),
        derivations p.2, p.2.names.drop 11)) =
      some (true, [("T0", "TPMS_COLOR", true), ("T1", "TPMS_COLOR", true),
          ("T1_KIND_RED", "T1", true), ("T1_KIND_BLUE", "T1", true)],
        ["TPMS_COLOR", "T0", "T1", "T1_KIND_RED", "T1_KIND_BLUE", "TPMU_COLOR"]) := by
    decide +kernel
  obtain ⟨⟨r₀, r⟩, hforms, hfacts⟩ := Option.map_eq_some_iff.mp hfacts
  obtain ⟨⟨report, hextract⟩, hy⟩ := exists_of_normalForms? hforms
  simp only [Prod.mk.injEq, decide_eq_true_eq] at hfacts
  obtain ⟨hdenoted, hderived, hnames⟩ := hfacts
  have hnear : r₀.MembersNear := fun t u htu m hm _ => hdenoted (t, u) htu m hm
  exact ⟨r₀, r, ⟨⟨report, hextract⟩, hnear, hy⟩, bases_precede_derived hextract hnear hy,
    hderived, hnames⟩

/-- The last of 64 tints is beyond the limit, so it is not turned into a structure with the first
one; but then it denotes a color, and structures are derived from it. -/
theorem bases_not_first : ∃ r : Registry, r.Normalized (tintChain 63) {} ∧
    derivations r = [("T63_KIND_RED", "T63", false), ("T63_KIND_BLUE", "T63", false),
      ("T0", "TPMS_COLOR", true)] ∧ ¬ r.BasesFirst := by
  have hfacts : (normalForms? (tintChain 63)).map (fun p => derivations p.2) =
      some [("T63_KIND_RED", "T63", false), ("T63_KIND_BLUE", "T63", false),
        ("T0", "TPMS_COLOR", true)] := by decide +kernel
  obtain ⟨⟨r₀, r⟩, hforms, hderived⟩ := Option.map_eq_some_iff.mp hfacts
  obtain ⟨⟨report, hextract⟩, hy⟩ := exists_of_normalForms? hforms
  refine ⟨r, ⟨r₀, report, hextract, hy⟩, hderived, fun hfirst => ?_⟩
  have hmem : ("T63_KIND_RED", "T63", false) ∈ derivations r := hderived ▸ List.mem_cons_self
  obtain ⟨⟨name, base⟩, hbase, hmem⟩ := List.mem_filterMap.mp hmem
  obtain ⟨t, ht, heq⟩ := List.mem_map.mp hbase
  obtain ⟨base', hbase', hmem⟩ := Option.map_eq_some_iff.mp hmem
  simp only [Prod.mk.injEq, decide_eq_false_iff_not] at hmem heq
  obtain ⟨-, rfl, hnot⟩ := hmem
  refine hnot (hfirst t ht _ ?_).1
  rw [heq.2]
  exact Option.join_eq_some_iff.mp hbase'

end Tints

end WireTables
