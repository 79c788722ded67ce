import WireTables.Proofs.Schema.Resolve

/-!
# Inherited fields

The fields of a structure are those of its bases and its own, however many bases there are
(`HasFields`). What is collected are these fields (`hasFields_of_collectFields`), and whoever has
them either has them collected or has more bases than are followed (`HasFields.allFields`). They
survive a change of the schema in which types stay what they are, except that unions may have other
members and further names of structures may turn into structures derived from these
(`Retains.hasFields`); and so does what a structure adds to them (`Retains.shows`).
-/

namespace WireTables

namespace Schema

/-- The structure that the name denotes has these fields, those of its bases first. -/
inductive HasFields (s : Schema) : String → List Field → Prop where
  | own {name : String} {t : TypeEntry} {r : Record} (record : s.recordOf? name = some (t, r))
    (base : r.base = none) : HasFields s name r.fields
  | derived {name base : String} {t : TypeEntry} {r : Record} {inherited : List Field}
    (record : s.recordOf? name = some (t, r)) (link : r.base = some base)
    (above : HasFields s base inherited) : HasFields s name (inherited ++ r.fields)

section Fields

variable {s : Schema} {owner name : String} {fields : List Field}

theorem hasFields_of_collectFields {room : Nat}
    (h : s.collectFields owner room name = .ok fields) : s.HasFields name fields := by
  induction room generalizing name fields with
  | zero => cases h
  | succ room ih =>
    obtain ⟨t, r, ht, hr, h⟩ := collectFields_succ.mp h
    have hrecord := recordOf?_eq_some.mpr ⟨ht, hr⟩
    rcases h with ⟨hbase, rfl⟩ | ⟨base, inherited, hbase, hinherited, rfl⟩
    · exact .own hrecord hbase
    · exact .derived hrecord hbase (ih hinherited)

/-- Only the room may be missing for fields that there are. -/
theorem HasFields.collectFields (h : s.HasFields name fields) (owner : String) (room : Nat) :
    s.collectFields owner room name = .ok fields ∨
      s.collectFields owner room name = .error (.inconsistent owner .baseCycle) := by
  induction h generalizing room with
  | own hrecord hbase =>
    cases room with
    | zero => exact .inr rfl
    | succ room =>
      obtain ⟨ht, hr⟩ := recordOf?_eq_some.mp hrecord
      exact .inl (collectFields_succ.mpr ⟨_, _, ht, hr, .inl ⟨hbase, rfl⟩⟩)
  | @derived name base t r inherited hrecord hbase _ ih =>
    cases room with
    | zero => exact .inr rfl
    | succ room =>
      obtain ⟨ht, hr⟩ := recordOf?_eq_some.mp hrecord
      rcases ih room with hinherited | hlimit
      · exact .inl (collectFields_succ.mpr ⟨t, r, ht, hr, .inr ⟨base, _, hbase, hinherited, rfl⟩⟩)
      · right
        obtain ⟨first, hfirst, -⟩ := bind_eq_ok.mp ht
        have hfirst : s.require name owner = .ok first :=
          require_eq_ok.mpr (require_eq_ok.mp hfirst)
        rw [collectFields_step, hfirst, ht]
        simp only [bind, Except.bind, hr, hbase]
        rw [hlimit]

theorem hasFields_of_allFields (h : s.allFields name = .ok fields) : s.HasFields name fields :=
  hasFields_of_collectFields h

/-- Fields that there are are found, or there are more bases than are followed. -/
theorem HasFields.allFields (h : s.HasFields name fields) :
    s.allFields name = .ok fields ∨ s.allFields name = .error (.inconsistent name .baseCycle) :=
  h.collectFields name (maxDepth + 1)

/-- Names of one structure have the same fields. -/
theorem HasFields.of_recordOf? {name' : String} {x : TypeEntry × Record}
    (h : s.HasFields name fields) (hname : s.recordOf? name = some x)
    (hname' : s.recordOf? name' = some x) : s.HasFields name' fields := by
  cases h with
  | own hrecord hbase =>
    cases hname.symm.trans hrecord
    exact .own hname' hbase
  | derived hrecord hbase habove =>
    cases hname.symm.trans hrecord
    exact .derived hname' hbase habove

/-- The fields of a structure itself come last. -/
theorem HasFields.exists_inherited {t : TypeEntry} {r : Record} (h : s.HasFields name fields)
    (hrecord : s.recordOf? name = some (t, r)) :
    ∃ inherited, fields = inherited ++ r.fields ∧ (r.base = none → inherited = []) := by
  cases h with
  | own hrecord' =>
    cases hrecord.symm.trans hrecord'
    exact ⟨[], rfl, fun _ => rfl⟩
  | @derived _ _ _ _ inherited hrecord' hbase =>
    cases hrecord.symm.trans hrecord'
    exact ⟨inherited, rfl, fun hnone => by cases hbase.symm.trans hnone⟩

/-- A field stands among the own fields of one structure, after those that this one inherits. -/
theorem HasFields.exists_level (h : s.HasFields name fields) {f : Field} (hf : f ∈ fields) :
    ∃ t ∈ s.types, ∃ r above below, t.record? = some r ∧ f ∈ r.fields ∧
      fields = above ++ r.fields ++ below ∧
        (above = [] ∨ ∃ base, r.base = some base ∧ s.HasFields base above) := by
  induction h with
  | @own name t r hrecord _ =>
    obtain ⟨ht, hr⟩ := mem_of_recordOf? hrecord
    exact ⟨t, ht, r, [], [], hr, hf, (List.append_nil _).symm, .inl rfl⟩
  | @derived name base t r inherited hrecord hbase habove ih =>
    rcases List.mem_append.mp hf with hf | hf
    · obtain ⟨u, hu, x, above, below, hx, hfx, rfl, hfrom⟩ := ih hf
      exact ⟨u, hu, x, above, below ++ r.fields, hx, hfx, by rw [List.append_assoc _ below],
        hfrom⟩
    · obtain ⟨ht, hr⟩ := mem_of_recordOf? hrecord
      exact ⟨t, ht, r, inherited, [], hr, hf, (List.append_nil _).symm, .inr ⟨base, hbase, habove⟩⟩

/-- What further names stand for does not depend on how many of them are followed. -/
theorem followAliases_unique {name name' : String} {hops hops' : Nat} {t x x' : TypeEntry}
    (h : s.followAliases name hops t = .ok x) (h' : s.followAliases name' hops' t = .ok x') :
    x = x' := by
  induction hops generalizing hops' t with
  | zero => cases h
  | succ hops ih =>
    cases hops' with
    | zero => cases h'
    | succ hops' =>
      unfold followAliases at h h'
      split at h
      · next a hk =>
        rw [hk] at h'
        obtain ⟨next, hnext, h⟩ := bind_eq_ok.mp h
        obtain ⟨next', hnext', h'⟩ := bind_eq_ok.mp h'
        cases hnext.symm.trans hnext'
        exact ih h h'
      · next hk =>
        split at h'
        · next a hk' => exact (hk a hk').elim
        · cases h
          cases h'
          rfl

/-- What stands for a structure is no elementary value. -/
theorem followScalar?_of_followAliases {hops hops' : Nat} {t x : TypeEntry}
    (hf : s.followAliases name hops t = .ok x) (hx : x.record?.isSome = true) :
    s.followScalar? hops' t = none := by
  induction hops generalizing hops' t with
  | zero => cases hf
  | succ hops ih =>
    cases hops' with
    | zero => rfl
    | succ hops' =>
      unfold followAliases at hf
      split at hf
      · next a hk =>
        obtain ⟨next, hnext, hf⟩ := bind_eq_ok.mp hf
        unfold followScalar?
        simp only [hk, require_eq_ok.mp hnext, Option.bind_eq_bind, Option.bind_some]
        exact ih hf
      · cases hf
        obtain ⟨r, hr⟩ := Option.isSome_iff_exists.mp hx
        unfold followScalar?
        simp only [TypeEntry.kind_of_record? hr]

theorem scalar?_of_isRecord (h : s.isRecord name = true) : s.scalar? name = none := by
  obtain ⟨⟨x, r⟩, hrecord⟩ := Option.isSome_iff_exists.mp h
  obtain ⟨ht, hr⟩ := recordOf?_eq_some.mp hrecord
  obtain ⟨t, hlookup, hf⟩ := bind_eq_ok.mp ht
  unfold scalar? scalarOf?
  rw [require_eq_ok.mp hlookup, Option.bind_eq_bind, Option.bind_some,
    followScalar?_of_followAliases hf (hr ▸ rfl)]
  rfl

end Fields

end Schema

/-- The structure is derived from the one of the name and has no fields of its own. -/
def Record.Derives (r : Record) (base : String) : Prop :=
  r.base = some base ∧ r.fields = []

/-- The name denotes a structure with these own fields, or one that is derived from such a structure
and adds none. -/
inductive Schema.Shows (s : Schema) : String → List Field → Prop where
  | own {name : String} {t : TypeEntry} {r : Record} (record : s.recordOf? name = some (t, r)) :
    Shows s name r.fields
  | derived {name base : String} {t : TypeEntry} {r : Record} {own : List Field}
    (record : s.recordOf? name = some (t, r)) (derives : r.Derives base)
    (above : Shows s base own) : Shows s name own

/-- What a name shows comes last among all fields. -/
theorem Schema.Shows.exists_above {s : Schema} {name : String} {own fields : List Field}
    (h : s.Shows name own) (hf : s.HasFields name fields) : ∃ above, fields = above ++ own := by
  induction h generalizing fields with
  | own hrecord =>
    obtain ⟨inherited, heq, -⟩ := hf.exists_inherited hrecord
    exact ⟨inherited, heq⟩
  | derived hrecord hderives _ ih =>
    cases hf with
    | own hrecord' hnone =>
      cases hrecord.symm.trans hrecord'
      cases hderives.1.symm.trans hnone
    | derived hrecord' hbase habove =>
      cases hrecord.symm.trans hrecord'
      cases hderives.1.symm.trans hbase
      obtain ⟨above, rfl⟩ := ih habove
      exact ⟨above, by rw [hderives.2, List.append_nil]⟩

/-- The type stays as it is, stays a union, or is derived by now from what it was a further name
of. -/
inductive TypeEntry.Retained (s : Schema) (t : TypeEntry) : TypeEntry → Prop where
  | same : Retained s t t
  | union {t' : TypeEntry} (before : t.union?.isSome = true) (after : t'.union?.isSome = true) :
    Retained s t t'
  | derived {t' x : TypeEntry} {a : AliasType} {r : Record} (before : t.kind = .aliasOf a)
    (target : s.target t.specName = .ok x) (record : x.record?.isSome = true)
    (after : t'.record? = some r) (derives : r.Derives x.specName) : Retained s t t'

namespace Schema

/-- Every type is retained under its name. -/
def Retains (s s' : Schema) : Prop :=
  ∀ name t, s.lookup? name = some t → ∃ t', s'.lookup? name = some t' ∧ t.Retained s t'

/-- The name denotes a type, which is no structure. -/
def DenotesOther (s : Schema) (name : String) : Prop :=
  ∃ t, s.target name = .ok t ∧ t.record? = none

theorem denotesOther_of_target {s : Schema} {name : String} {t : TypeEntry}
    (ht : s.target name = .ok t) (hnot : ¬ s.isRecord name = true) : s.DenotesOther name := by
  refine ⟨t, ht, ?_⟩
  by_contra hsome
  obtain ⟨r, hr⟩ := Option.ne_none_iff_exists'.mp hsome
  exact hnot (Option.isSome_iff_exists.mpr ⟨_, recordOf?_eq_some.mpr ⟨ht, hr⟩⟩)

theorem DenotesOther.recordOf?_eq_none {s : Schema} {name : String} (h : s.DenotesOther name) :
    s.recordOf? name = none := by
  obtain ⟨t, ht, hnone⟩ := h
  unfold recordOf?
  rw [ht]
  exact congrArg (Option.map _) hnone

namespace Retains

variable {s s' : Schema} {name : String} {t t' x : TypeEntry} {r : Record} (h : s.Retains s')

include h

/-- A structure stays as it is. -/
theorem lookup?_record (hx : s.lookup? name = some x) (hr : x.record? = some r) :
    s'.lookup? name = some x := by
  obtain ⟨x', hx', hret⟩ := h name x hx
  have hkind := TypeEntry.kind_of_record? hr
  cases hret with
  | same => exact hx'
  | union before =>
    obtain ⟨u, hu⟩ := Option.isSome_iff_exists.mp before
    cases hkind.symm.trans (TypeEntry.kind_of_union? hu)
  | derived before => cases hkind.symm.trans before

/-- A further name leads to what it led to, or to a structure that is derived from it. -/
theorem followAliases {hops : Nat} (ht : s.lookup? t.specName = some t)
    (hret : t.Retained s t') (hf : s.followAliases name hops t = .ok x) :
    ∃ z, s'.followAliases name hops t' = .ok z ∧
      (x.record? = none → z.record? = none) ∧
        (x.record?.isSome = true →
          z = x ∨ ∃ y, z.record? = some y ∧ y.Derives x.specName) := by
  induction hops generalizing t t' with
  | zero => cases hf
  | succ hops ih =>
    have hf₀ := hf
    unfold Schema.followAliases at hf
    split at hf
    · next a hk =>
      cases hret with
      | same =>
        obtain ⟨next, hnext, hf⟩ := bind_eq_ok.mp hf
        have hnext := require_eq_ok.mp hnext
        obtain ⟨next', hnext', hret⟩ := h _ _ hnext
        obtain ⟨z, hz, hdenotes⟩ := ih ((mem_of_lookup? hnext).2 ▸ hnext) hret hf
        refine ⟨z, ?_, hdenotes⟩
        unfold Schema.followAliases
        rw [hk]
        exact bind_eq_ok.mpr ⟨next', require_eq_ok.mpr hnext', hz⟩
      | union before =>
        obtain ⟨u, hu⟩ := Option.isSome_iff_exists.mp before
        cases hk.symm.trans (TypeEntry.kind_of_union? hu)
      | @derived _ x' _ y _ target record after derives =>
        obtain ⟨first, hfirst, htarget⟩ := bind_eq_ok.mp target
        cases (require_eq_ok.mp hfirst).symm.trans ht
        cases followAliases_unique hf₀ htarget
        refine ⟨t', followAliases_self fun a hk' => ?_, fun hnone => ?_,
          fun _ => .inr ⟨y, after, derives⟩⟩
        · cases (TypeEntry.kind_of_record? after).symm.trans hk'
        · rw [hnone] at record
          cases record
    · next hk =>
      cases hf
      cases hret with
      | same => exact ⟨_, followAliases_self hk, id, fun _ => .inl rfl⟩
      | union before after =>
        obtain ⟨u, hu⟩ := Option.isSome_iff_exists.mp before
        obtain ⟨u', hu'⟩ := Option.isSome_iff_exists.mp after
        refine ⟨t', followAliases_self fun a hk' => ?_, fun _ => ?_, fun hr => ?_⟩
        · cases (TypeEntry.kind_of_union? hu').symm.trans hk'
        · unfold TypeEntry.record?
          rw [TypeEntry.kind_of_union? hu']
        · unfold TypeEntry.record? at hr
          rw [TypeEntry.kind_of_union? hu] at hr
          cases hr
      | derived before => exact (hk _ before).elim

/-- What a name stands for, it goes on to stand for, or for a structure that is derived from it. -/
theorem target (ht : s.target name = .ok x) : ∃ z, s'.target name = .ok z ∧
    (x.record? = none → z.record? = none) ∧
      (x.record?.isSome = true → z = x ∨ ∃ y, z.record? = some y ∧ y.Derives x.specName) := by
  obtain ⟨t, hlookup, hf⟩ := bind_eq_ok.mp ht
  have hlookup := require_eq_ok.mp hlookup
  obtain ⟨t', hlookup', hret⟩ := h _ _ hlookup
  obtain ⟨z, hz, hdenotes⟩ := h.followAliases ((mem_of_lookup? hlookup).2 ▸ hlookup) hret hf
  exact ⟨z, bind_eq_ok.mpr ⟨t', require_eq_ok.mpr hlookup', hz⟩, hdenotes⟩

theorem denotesOther (hother : s.DenotesOther name) : s'.DenotesOther name := by
  obtain ⟨x, hx, hnone⟩ := hother
  obtain ⟨z, hz, hnone', -⟩ := h.target hx
  exact ⟨z, hz, hnone' hnone⟩

/-- An elementary value stays what it is. -/
theorem followScalar? {hops : Nat} {c : Scalar} (ht : s.lookup? t.specName = some t)
    (hret : t.Retained s t') (hf : s.followScalar? hops t = some (x, c)) :
    ∃ x', s'.followScalar? hops t' = some (x', c) := by
  induction hops generalizing t t' with
  | zero => cases hf
  | succ hops ih =>
    cases hret with
    | same =>
      have next : ∀ {base}, (s.lookup? base >>= s.followScalar? hops) = some (x, c) →
          ∃ x', (s'.lookup? base >>= s'.followScalar? hops) = some (x', c) := by
        intro base hb
        obtain ⟨next, hnext, hb⟩ := Option.bind_eq_some_iff.mp hb
        obtain ⟨next', hnext', hret⟩ := h _ _ hnext
        obtain ⟨x', hx'⟩ := ih ((mem_of_lookup? hnext).2 ▸ hnext) hret hb
        exact ⟨x', Option.bind_eq_some_iff.mpr ⟨next', hnext', hx'⟩⟩
      unfold Schema.followScalar? at hf ⊢
      split at hf
      · cases hf
        exact ⟨_, rfl⟩
      · exact next hf
      · exact next hf
      · exact next hf
      · cases hf
      · cases hf
    | union before =>
      obtain ⟨u, hu⟩ := Option.isSome_iff_exists.mp before
      unfold Schema.followScalar? at hf
      rw [TypeEntry.kind_of_union? hu] at hf
      cases hf
    | derived _ target record =>
      obtain ⟨first, hfirst, htarget⟩ := bind_eq_ok.mp target
      cases (require_eq_ok.mp hfirst).symm.trans ht
      cases (followScalar?_of_followAliases htarget record).symm.trans hf

theorem scalar? {c : Scalar} (hc : s.scalar? name = some c) : s'.scalar? name = some c := by
  obtain ⟨⟨x, c'⟩, hscalar, rfl⟩ := Option.map_eq_some_iff.mp hc
  obtain ⟨t, ht, hf⟩ := Option.bind_eq_some_iff.mp hscalar
  obtain ⟨t', ht', hret⟩ := h _ _ ht
  obtain ⟨x', hx'⟩ := h.followScalar? ((mem_of_lookup? ht).2 ▸ ht) hret hf
  exact Option.map_eq_some_iff.mpr
    ⟨(x', c'), Option.bind_eq_some_iff.mpr ⟨t', ht', hx'⟩, rfl⟩

/-- A structure stays, and a name goes on to denote it or denotes one that is derived from it. -/
theorem recordOf? (hrecord : s.recordOf? name = some (x, r)) :
    s'.recordOf? x.specName = some (x, r) ∧ (s'.recordOf? name = some (x, r) ∨
      ∃ z y, s'.recordOf? name = some (z, y) ∧ y.Derives x.specName) := by
  obtain ⟨ht, hr⟩ := recordOf?_eq_some.mp hrecord
  obtain ⟨z, hz, -, hdenotes⟩ := h.target ht
  refine ⟨recordOf?_of_lookup? (h.lookup?_record (lookup?_of_target ht).1 hr) hr, ?_⟩
  rcases hdenotes (hr ▸ rfl) with rfl | ⟨y, hy, hderives⟩
  · exact .inl (recordOf?_eq_some.mpr ⟨hz, hr⟩)
  · exact .inr ⟨z, y, recordOf?_eq_some.mpr ⟨hz, hy⟩, hderives⟩

/-- A structure has the fields that it had. -/
theorem hasFields {fields : List Field} (hf : s.HasFields name fields) :
    s'.HasFields name fields := by
  -- what the name denoted has the fields still; the name denotes it, or one derived from it
  have through : ∀ {name : String} {x : TypeEntry} {r : Record} {fields : List Field},
      s.recordOf? name = some (x, r) →
        (∀ name, s'.recordOf? name = some (x, r) → s'.HasFields name fields) →
          s'.HasFields name fields := by
    intro name x r fields hrecord hfields
    obtain ⟨hself, hsame | ⟨z, y, hz, hbase, hnone⟩⟩ := h.recordOf? hrecord
    · exact hfields name hsame
    · have hderived := HasFields.derived hz hbase (hfields _ hself)
      rwa [hnone, List.append_nil] at hderived
  induction hf with
  | own hrecord hbase => exact through hrecord fun _ hrecord' => .own hrecord' hbase
  | derived hrecord hbase _ ih => exact through hrecord fun _ hrecord' => .derived hrecord' hbase ih

/-- A name shows what it showed. -/
theorem shows {own : List Field} (hs : s.Shows name own) : s'.Shows name own := by
  have through : ∀ {name : String} {x : TypeEntry} {r : Record} {own : List Field},
      s.recordOf? name = some (x, r) →
        (∀ name, s'.recordOf? name = some (x, r) → s'.Shows name own) → s'.Shows name own := by
    intro name x r own hrecord hshown
    obtain ⟨hself, hsame | ⟨z, y, hz, hderives⟩⟩ := h.recordOf? hrecord
    · exact hshown name hsame
    · exact .derived hz hderives (hshown _ hself)
  induction hs with
  | own hrecord => exact through hrecord fun _ hrecord' => .own hrecord'
  | derived hrecord hderives _ ih =>
    exact through hrecord fun _ hrecord' => .derived hrecord' hderives ih

end Retains

end Schema

end WireTables
