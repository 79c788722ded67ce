import WireTables.Proofs.Normal.Steps
import WireTables.Proofs.Schema.Resolve

/-!
# Structures for members

What the passes leave of the kinds of types: a structure stays one, a further name stays one or
becomes a structure, and a union only changes when it is separated (`Becomes`). So a name that
denotes a structure denotes one ever after (`Becomes.isRecord`), and the name of a structure is the
name of one ever after (`Becomes.isNode`).
-/

namespace WireTables

open Relation (ReflTransGen)

/-- The same type after some passes; only unions among the `touched` have other members. -/
structure TypeEntry.Becomes (touched : String → Prop) (t t' : TypeEntry) : Prop where
  name : t'.specName = t.specName
  record : t.record?.isSome = true → t'.record?.isSome = true
  further : ∀ a, t.alias? = some a → t'.alias? = some a ∨ t'.record?.isSome = true
  old : ∀ a, t'.alias? = some a → t.alias? = some a
  union : ∀ u', t'.union? = some u' → ∃ u, t.union? = some u ∧
    (t'.implemented = true → t.implemented = true) ∧ (¬ touched t.specName → u' = u)

namespace TypeEntry.Becomes

variable {touched : String → Prop} {t t' t'' : TypeEntry}

theorem refl (t : TypeEntry) : t.Becomes touched t :=
  ⟨rfl, fun h => h, fun _ h => .inl h, fun _ h => h, fun u h => ⟨u, h, fun h => h, fun _ => rfl⟩⟩

theorem trans (h : t.Becomes touched t') (h' : t'.Becomes touched t'') :
    t.Becomes touched t'' where
  name := h'.name.trans h.name
  record hr := h'.record (h.record hr)
  further a ha := (h.further a ha).elim (h'.further a) fun hr => .inr (h'.record hr)
  old a ha := h.old a (h'.old a ha)
  union u'' hu'' := by
    obtain ⟨u', hu', himplemented', hsame'⟩ := h'.union u'' hu''
    obtain ⟨u, hu, himplemented, hsame⟩ := h.union u' hu'
    exact ⟨u, hu, fun hi => himplemented (himplemented' hi),
      fun hnot => (hsame' (h.name ▸ hnot)).trans (hsame hnot)⟩

theorem mono {touched' : String → Prop} (h : t.Becomes touched t')
    (hsub : ∀ name, touched name → touched' name) : t.Becomes touched' t' :=
  ⟨h.name, h.record, h.further, h.old, fun u' hu' =>
    let ⟨u, hu, himplemented, hsame⟩ := h.union u' hu'
    ⟨u, hu, himplemented, fun hnot => hsame fun htouched => hnot (hsub _ htouched)⟩⟩

theorem mapRecord (f : Record → Record) (t : TypeEntry) :
    t.Becomes touched (t.mapRecord f) ∧ (t.mapRecord f).Becomes touched t := by
  obtain ⟨id, specName, name, comment, implemented, kind⟩ := t
  cases kind with
  | record r =>
    exact ⟨⟨rfl, fun _ => rfl, nofun, nofun, nofun⟩, rfl, fun _ => rfl, nofun, nofun, nofun⟩
  | _ => exact ⟨.refl _, .refl _⟩

/-- A structure is what any type but a union may become. -/
theorem derived (t : TypeEntry) (r : Record) :
    t.Becomes touched { t with kind := .record r } :=
  ⟨rfl, fun _ => rfl, fun _ _ => .inr rfl, nofun, nofun⟩

end TypeEntry.Becomes

namespace Schema

/-- The same schema after some passes, perhaps with new structures. -/
structure Becomes (touched : String → Prop) (s s' : Schema) : Prop where
  names : s.names.Nodup → s'.names.Nodup
  kept : ∀ t ∈ s.types, ∃ t' ∈ s'.types, t.Becomes touched t'
  old : ∀ t' ∈ s'.types, t'.record?.isSome = true ∨ ∃ t ∈ s.types, t.Becomes touched t'

/-- The name is that of a structure itself. -/
def IsNode (s : Schema) (name : String) : Prop :=
  ∃ t ∈ s.types, t.specName = name ∧ t.record?.isSome = true

/-- The name of a structure denotes it. -/
theorem IsNode.specName_eq {s : Schema} {name : String} (h : s.IsNode name) (hs : s.names.Nodup)
    {x : TypeEntry × Record} (hx : s.recordOf? name = some x) : x.1.specName = name := by
  obtain ⟨t, hmem, rfl, hr⟩ := h
  obtain ⟨r, hr⟩ := Option.isSome_iff_exists.mp hr
  cases (recordOf?_of_lookup? (lookup?_of_mem hs hmem) hr).symm.trans hx
  rfl

/-- A name that denotes a structure is the name of the structure or a further name. -/
theorem isNode_or_alias {s : Schema} {name : String} (h : s.isRecord name = true) :
    s.IsNode name ∨ ∃ a, (s.lookup? name).bind TypeEntry.alias? = some a := by
  obtain ⟨⟨x, r⟩, hrecord⟩ := Option.isSome_iff_exists.mp h
  obtain ⟨htarget, hr⟩ := recordOf?_eq_some.mp hrecord
  obtain ⟨t, ht, -⟩ := bind_eq_ok.mp htarget
  have hlookup := require_eq_ok.mp ht
  by_cases halias : ∃ a, t.alias? = some a
  · obtain ⟨a, ha⟩ := halias
    exact .inr ⟨a, by rw [hlookup]; exact ha⟩
  · have hself : s.target name = .ok t := target_of_lookup? hlookup fun a hk =>
      halias ⟨a, by unfold TypeEntry.alias?; rw [hk]⟩
    cases htarget.symm.trans hself
    obtain ⟨hmem, hname⟩ := mem_of_lookup? hlookup
    exact .inl ⟨x, hmem, hname, hr ▸ rfl⟩

namespace Becomes

variable {touched : String → Prop} {s s' s'' : Schema}

theorem refl (s : Schema) : s.Becomes touched s :=
  ⟨id, fun t ht => ⟨t, ht, .refl t⟩, fun t ht => .inr ⟨t, ht, .refl t⟩⟩

theorem trans (h : s.Becomes touched s') (h' : s'.Becomes touched s'') :
    s.Becomes touched s'' where
  names hs := h'.names (h.names hs)
  kept t ht := by
    obtain ⟨t', ht', hb⟩ := h.kept t ht
    obtain ⟨t'', ht'', hb'⟩ := h'.kept t' ht'
    exact ⟨t'', ht'', hb.trans hb'⟩
  old t'' ht'' := by
    rcases h'.old t'' ht'' with hr | ⟨t', ht', hb'⟩
    · exact .inl hr
    · rcases h.old t' ht' with hr | ⟨t, ht, hb⟩
      · exact .inl (hb'.record hr)
      · exact .inr ⟨t, ht, hb.trans hb'⟩

theorem mono {touched' : String → Prop} (h : s.Becomes touched s')
    (hsub : ∀ name, touched name → touched' name) : s.Becomes touched' s' where
  names := h.names
  kept t ht := let ⟨t', ht', hb⟩ := h.kept t ht; ⟨t', ht', hb.mono hsub⟩
  old t' ht' := (h.old t' ht').imp_right fun ⟨t, ht, hb⟩ => ⟨t, ht, hb.mono hsub⟩

/-- Each type is changed on its own. -/
theorem of_map {change : TypeEntry → TypeEntry} (hs : s'.types = s.types.map change)
    (hchange : ∀ t ∈ s.types, t.Becomes touched (change t)) : s.Becomes touched s' where
  names hnames := by
    have : s'.names = s.names := by
      unfold Schema.names
      rw [hs, List.map_map]
      exact List.map_congr_left fun t ht => (hchange t ht).name
    rwa [this]
  kept t ht := ⟨change t, hs ▸ List.mem_map_of_mem ht, hchange t ht⟩
  old t' ht' := by
    rw [hs] at ht'
    obtain ⟨t, ht, rfl⟩ := List.mem_map.mp ht'
    exact .inr ⟨t, ht, hchange t ht⟩

theorem modifyType {name : String} {change : TypeEntry → TypeEntry}
    (hchange : ∀ t ∈ s.types, t.specName = name → t.Becomes touched (change t)) :
    s.Becomes touched (s.modifyType name change) := by
  refine .of_map rfl fun t ht => ?_
  split
  · next hn => exact hchange t ht (by simpa using hn)
  · exact .refl t

/-- The order of the types does not matter. -/
theorem of_perm (hperm : s'.types.Perm s.types) : s.Becomes touched s' where
  names hnames := (hperm.map _).nodup_iff.mpr hnames
  kept t ht := ⟨t, hperm.mem_iff.mpr ht, .refl t⟩
  old t ht := .inr ⟨t, hperm.mem_iff.mp ht, .refl t⟩

theorem ensureAfter {name anchor : String} (h : s.ensureAfter name anchor = .ok s') :
    s.Becomes touched s' :=
  .of_perm (perm_of_ensureAfter h)

/-- A structure is added. -/
theorem addType {t : TypeEntry} {anchor : Option String} (h : s.addType t anchor = .ok s')
    (hr : t.record?.isSome = true) : s.Becomes touched s' := by
  obtain ⟨hfresh, hperm⟩ := perm_of_addType h
  refine ⟨fun hnames => ?_, fun u hu => ?_, fun u hu => ?_⟩
  · exact (hperm.map _).nodup_iff.mpr (List.nodup_cons.mpr ⟨hfresh, hnames⟩)
  · exact ⟨u, hperm.mem_iff.mpr (List.mem_cons_of_mem _ hu), .refl u⟩
  · rcases List.mem_cons.mp (hperm.mem_iff.mp hu) with rfl | hu
    · exact .inl hr
    · exact .inr ⟨u, hu, .refl u⟩

section Lookup

variable (h : s.Becomes touched s')

include h

theorem isNode {name : String} (hn : s.IsNode name) : s'.IsNode name := by
  obtain ⟨t, ht, rfl, hr⟩ := hn
  obtain ⟨t', ht', hb⟩ := h.kept t ht
  exact ⟨t', ht', hb.name, hb.record hr⟩

/-- A further name was one before. -/
theorem exists_alias {t' : TypeEntry} (ht' : t' ∈ s'.types) {a : AliasType}
    (ha : t'.alias? = some a) : ∃ t ∈ s.types, t.specName = t'.specName ∧ t.alias? = some a := by
  rcases h.old t' ht' with hr | ⟨t, ht, hb⟩
  · obtain ⟨id, specName, name, comment, implemented, kind⟩ := t'
    cases kind with
    | record r => cases ha
    | _ => cases hr
  · exact ⟨t, ht, hb.name.symm, hb.old a ha⟩

/-- A union was one before, with the same members unless it was touched. -/
theorem exists_union {t' : TypeEntry} (ht' : t' ∈ s'.types) {u' : UnionType}
    (hu' : t'.union? = some u') : ∃ t ∈ s.types, t.specName = t'.specName ∧
      ∃ u, t.union? = some u ∧ (t'.implemented = true → t.implemented = true) ∧
        (¬ touched t.specName → u' = u) := by
  rcases h.old t' ht' with hr | ⟨t, ht, hb⟩
  · obtain ⟨id, specName, name, comment, implemented, kind⟩ := t'
    cases kind with
    | record r => cases hu'
    | _ => cases hr
  · exact ⟨t, ht, hb.name.symm, hb.union u' hu'⟩

/-- What a name stood for after some further names is a structure still, perhaps an earlier one. -/
theorem followAliases (hs : s.names.Nodup) {name : String} {hops : Nat} {t t' x : TypeEntry}
    (hb : t.Becomes touched t') (hf : s.followAliases name hops t = .ok x)
    (hx : x.record?.isSome = true) :
    ∃ x', s'.followAliases name hops t' = .ok x' ∧ x'.record?.isSome = true := by
  induction hops generalizing t t' with
  | zero => cases hf
  | succ hops ih =>
    by_cases hr : t'.record?.isSome = true
    · refine ⟨t', ?_, hr⟩
      obtain ⟨id, specName, name, comment, implemented, kind⟩ := t'
      cases kind with
      | record r => rfl
      | _ => cases hr
    · unfold Schema.followAliases at hf
      split at hf
      · next a hkind =>
        have halias : t'.alias? = some a :=
          (hb.further a (by unfold TypeEntry.alias?; rw [hkind])).resolve_right hr
        obtain ⟨next, hnext, hf⟩ := bind_eq_ok.mp hf
        have hnext := require_eq_ok.mp hnext
        obtain ⟨hmem, hname⟩ := mem_of_lookup? hnext
        obtain ⟨next', hmem', hb'⟩ := h.kept next hmem
        have hnext' : s'.lookup? a.base = some next' := by
          rw [← hname, ← hb'.name]
          exact lookup?_of_mem (h.names hs) hmem'
        obtain ⟨x', hx', hr'⟩ := ih hb' hf
        refine ⟨x', ?_, hr'⟩
        obtain ⟨id, specName, name, comment, implemented, kind⟩ := t'
        cases kind with
        | aliasOf b =>
          cases halias
          exact bind_eq_ok.mpr ⟨next', require_eq_ok.mpr hnext', hx'⟩
        | _ => cases halias
      · cases hf
        exact (hr (hb.record hx)).elim

/-- A name that denotes a structure does so ever after. -/
theorem isRecord (hs : s.names.Nodup) {name : String} (hr : s.isRecord name = true) :
    s'.isRecord name = true := by
  obtain ⟨⟨x, r⟩, hrecord⟩ := Option.isSome_iff_exists.mp hr
  obtain ⟨htarget, hr⟩ := recordOf?_eq_some.mp hrecord
  obtain ⟨t, ht, hf⟩ := bind_eq_ok.mp htarget
  have ht := require_eq_ok.mp ht
  obtain ⟨hmem, hname⟩ := mem_of_lookup? ht
  obtain ⟨t', hmem', hb⟩ := h.kept t hmem
  obtain ⟨x', hx', hr'⟩ := h.followAliases hs hb hf (hr ▸ rfl)
  obtain ⟨r', hr'⟩ := Option.isSome_iff_exists.mp hr'
  have ht' : s'.lookup? name = some t' := by
    rw [← hname, ← hb.name]
    exact lookup?_of_mem (h.names hs) hmem'
  have : s'.recordOf? name = some (x', r') :=
    recordOf?_eq_some.mpr ⟨bind_eq_ok.mpr ⟨t', require_eq_ok.mpr ht', hx'⟩, hr'⟩
  unfold Schema.isRecord
  rw [this]
  rfl

/-- What is no further name of a structure was none before, or is a structure itself by now. -/
theorem isNode_or_isRecordAlias (hs : s.names.Nodup) {name : String}
    (hr : s'.isRecordAlias name = false) : s'.IsNode name ∨ s.isRecordAlias name = false := by
  by_cases hold : s.isRecordAlias name = true
  · refine .inl ?_
    obtain ⟨halias, hrecord⟩ := Bool.and_eq_true_iff.mp hold
    obtain ⟨a, ha⟩ := Option.isSome_iff_exists.mp halias
    obtain ⟨t, ht, ha⟩ := Option.bind_eq_some_iff.mp ha
    obtain ⟨hmem, hname⟩ := mem_of_lookup? ht
    obtain ⟨t', hmem', hb⟩ := h.kept t hmem
    rcases hb.further a ha with ha' | hr'
    · have hlookup : s'.lookup? name = some t' := by
        rw [← hname, ← hb.name]
        exact lookup?_of_mem (h.names hs) hmem'
      unfold isRecordAlias at hr
      rw [hlookup, h.isRecord hs hrecord, Option.bind_some, ha'] at hr
      cases hr
    · exact ⟨t', hmem', hb.name.trans hname, hr'⟩
  · exact .inr (by simpa using hold)

end Lookup

end Becomes

/-- Linking structures to unions changes neither. -/
theorem becomes_linkUnions (s : Schema) (touched : String → Prop) :
    s.Becomes touched s.linkUnions ∧ s.linkUnions.Becomes touched s := by
  have hnames : s.linkUnions.names = s.names := by
    unfold names linkUnions
    rw [List.map_map]
    exact List.map_congr_left fun t _ => TypeEntry.specName_mapRecord _ t
  refine ⟨.of_map rfl fun t _ => (TypeEntry.Becomes.mapRecord _ t).1,
    fun h => hnames ▸ h, fun t' ht' => ?_, fun t ht => .inr ?_⟩
  · obtain ⟨t, ht, rfl⟩ := List.mem_map.mp ht'
    exact ⟨t, ht, (TypeEntry.Becomes.mapRecord _ t).2⟩
  · exact ⟨_, List.mem_map_of_mem ht, (TypeEntry.Becomes.mapRecord _ t).2⟩

end Schema

namespace Edit

variable {config : Config} {r r' : Registry} {n : Nat} {touched : String → Prop}

/-- The passes before unions are separated leave them as they are. -/
theorem becomes_of_reshapes (h : Reshapes config r r') : r.Becomes touched r'.toSchema := by
  have record : ∀ {name : String} {f : Record → Record},
      r.Becomes touched (r.toSchema.modifyRecord name f) := fun {_ f} =>
    .modifyType fun t _ _ => (TypeEntry.Becomes.mapRecord f t).1
  cases h with
  | pairs => exact .of_map rfl fun t _ => (TypeEntry.Becomes.mapRecord _ t).1
  | rewrite h =>
    cases h with
    | inline => exact record
    | imply => exact record
    | remember => exact .refl _
    | note => exact record
    | tail => exact record
    | drop =>
      exact .modifyType fun t _ _ =>
        ⟨rfl, fun h => h, fun _ h => .inl h, fun _ h => h, fun u h => ⟨u, h, nofun, fun _ => rfl⟩⟩

/-- Only the union that is separated has other members afterwards. -/
theorem becomes_of_separates {union : String} (h : Separates union r r') :
    r.Becomes (· = union) r'.toSchema := by
  cases h with
  | derive _ moved =>
    exact (Schema.Becomes.modifyType fun t _ _ => .derived t _).trans (.ensureAfter moved)
  | add added => exact .addType added rfl
  | rename index type =>
    refine .modifyType fun t _ hname => ?_
    obtain ⟨id, specName, name, comment, implemented, kind⟩ := t
    cases kind with
    | union u =>
      refine ⟨rfl, nofun, nofun, nofun, ?_⟩
      rintro _ ⟨⟩
      exact ⟨u, rfl, fun h => h, fun hnot => (hnot hname).elim⟩
    | _ => exact .refl _

theorem becomes_of_steps {R : Registry → Registry → Prop} (h : ReflTransGen R r r')
    (hstep : ∀ r₁ r₂, R r₁ r₂ → r₁.Becomes touched r₂.toSchema) : r.Becomes touched r'.toSchema :=
  invariant_of_steps (I := fun r' => r.Becomes touched r'.toSchema) h (.refl _)
    fun _ _ hr hlast => hr.trans (hstep _ _ hlast)

/-- No union changes when a further name becomes a structure. -/
theorem becomes_deriveFromAlias {name : String} {u : Unit}
    (hy : Yields (deriveFromAlias name) r u r') : r.Becomes touched r'.toSchema := by
  obtain ⟨base, errorCode, s, -, hs, rfl⟩ := exists_of_deriveFromAlias hy
  exact (Schema.Becomes.modifyType fun t _ _ => .derived t _).trans (.ensureAfter hs)

theorem becomes_separateUnion {union : String} (hy : Yields (separateUnion config union) r n r') :
    r.Becomes (· = union) r'.toSchema :=
  becomes_of_steps (separates_separateUnion hy) fun _ _ => becomes_of_separates

/-- What bringing a registry to normal form leaves of its types. -/
theorem becomes_of_passes (h : Passes config r r') : r.Becomes (fun _ => True) r'.toSchema :=
  invariant_of_passes (I := fun r' => r.Becomes (fun _ => True) r'.toSchema) h (.refl _)
    (fun _ _ h hstep => h.trans (becomes_of_reshapes hstep))
    (fun _ _ _ _ h hy => h.trans ((becomes_separateUnion hy).mono fun _ _ => trivial))
    fun _ h => h.trans (Schema.becomes_linkUnions _ _).1

end Edit

end WireTables
