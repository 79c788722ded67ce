import WireTables.Proofs.Calculation
import WireTables.Proofs.Schema.Shape

/-!
# What names stand for

A name is followed to a type that is no further name itself, and that type is found under its own
name (`lookup?_of_target`). The fields of a structure are taken apart along its bases
(`collectFields_succ`), and all of them are fields of types.
-/

namespace WireTables.Schema

section Resolve

variable {s : Schema} {type name : String} {t t' : TypeEntry} {fields : List Field}

theorem require_eq_ok {name referrer : String} {t : TypeEntry} :
    s.require name referrer = .ok t ↔ s.lookup? name = some t := by
  unfold require
  cases s.lookup? name <;> simp

/-- What further names stand for is found under its own name, and is no further name. -/
theorem lookup?_of_followAliases {hops : Nat} (ht : s.lookup? t.specName = some t)
    (hf : s.followAliases name hops t = .ok t') :
    s.lookup? t'.specName = some t' ∧ ∀ a, t'.kind ≠ .aliasOf a := by
  induction hops generalizing t with
  | zero => cases hf
  | succ hops ih =>
    unfold followAliases at hf
    split at hf
    · obtain ⟨next, hnext, hf⟩ := bind_eq_ok.mp hf
      have hnext := require_eq_ok.mp hnext
      exact ih ((mem_of_lookup? hnext).2 ▸ hnext) hf
    · next hkind =>
      cases hf
      exact ⟨ht, hkind⟩

theorem lookup?_of_target (ht : s.target type = .ok t) :
    s.lookup? t.specName = some t ∧ ∀ a, t.kind ≠ .aliasOf a := by
  obtain ⟨first, hfirst, hf⟩ := bind_eq_ok.mp ht
  have hfirst := require_eq_ok.mp hfirst
  exact lookup?_of_followAliases ((mem_of_lookup? hfirst).2 ▸ hfirst) hf

theorem followAliases_self {hops : Nat} (hkind : ∀ a, t.kind ≠ .aliasOf a) :
    s.followAliases name (hops + 1) t = .ok t := by
  unfold followAliases
  split
  · next a hk => exact (hkind a hk).elim
  · rfl

/-- The elementary type that a type is encoded as is found under its own name. -/
theorem lookup?_of_followScalar? {hops : Nat} {c : Scalar} (ht : s.lookup? t.specName = some t)
    (hf : s.followScalar? hops t = some (t', c)) :
    s.lookup? t'.specName = some t' ∧ t'.kind = .value c := by
  induction hops generalizing t with
  | zero => cases hf
  | succ hops ih =>
    have next : ∀ {base}, (s.lookup? base >>= s.followScalar? hops) = some (t', c) →
        s.lookup? t'.specName = some t' ∧ t'.kind = .value c := by
      intro base hb
      obtain ⟨next, hnext, hb⟩ := Option.bind_eq_some_iff.mp hb
      exact ih ((mem_of_lookup? hnext).2 ▸ hnext) hb
    unfold followScalar? at hf
    split at hf
    · next v hk =>
      cases hf
      exact ⟨ht, hk⟩
    · exact next hf
    · exact next hf
    · exact next hf
    · cases hf
    · cases hf

theorem followScalar?_self {hops : Nat} {c : Scalar} (hk : t.kind = .value c) :
    s.followScalar? (hops + 1) t = some (t, c) := by
  unfold followScalar?
  rw [hk]

/-- An elementary type is encoded as itself. -/
theorem scalar?_of_scalarOf? {c : Scalar} (h : s.scalarOf? type = some (t, c)) :
    s.scalar? t.specName = some c := by
  obtain ⟨first, hfirst, hf⟩ := Option.bind_eq_some_iff.mp h
  obtain ⟨hlookup, hk⟩ := lookup?_of_followScalar? ((mem_of_lookup? hfirst).2 ▸ hfirst) hf
  exact Option.map_eq_some_iff.mpr ⟨(t, c), Option.bind_eq_some_iff.mpr
    ⟨t, hlookup, followScalar?_self hk⟩, rfl⟩

/-- A type that is no further name stands for itself. -/
theorem target_of_lookup? (ht : s.lookup? name = some t) (hkind : ∀ a, t.kind ≠ .aliasOf a) :
    s.target name = .ok t :=
  bind_eq_ok.mpr ⟨t, require_eq_ok.mpr ht, followAliases_self hkind⟩

/-- A name that denotes a type is the name of one. -/
theorem mem_names_of_target (h : s.target name = .ok t) : name ∈ s.names := by
  obtain ⟨first, hfirst, -⟩ := bind_eq_ok.mp h
  obtain ⟨hmem, rfl⟩ := mem_of_lookup? (require_eq_ok.mp hfirst)
  exact List.mem_map_of_mem hmem

/-- A structure is denoted by the name that it is found under. -/
theorem recordOf?_of_lookup? {r : Record} (ht : s.lookup? name = some t)
    (hr : t.record? = some r) : s.recordOf? name = some (t, r) := by
  refine recordOf?_eq_some.mpr ⟨target_of_lookup? ht fun a hk => ?_, hr⟩
  cases (TypeEntry.kind_of_record? hr).symm.trans hk

/-- A structure that a name denotes is denoted by its own name. -/
theorem recordOf?_specName {r : Record} (h : s.recordOf? name = some (t, r)) :
    s.recordOf? t.specName = some (t, r) := by
  obtain ⟨ht, hr⟩ := recordOf?_eq_some.mp h
  exact recordOf?_of_lookup? (lookup?_of_target ht).1 hr

/-- The fields of a structure come after those of its base. -/
theorem collectFields_succ {owner : String} {room : Nat} :
    s.collectFields owner (room + 1) name = .ok fields ↔
      ∃ t r, s.target name = .ok t ∧ t.record? = some r ∧
        (r.base = none ∧ fields = r.fields ∨ ∃ base inherited, r.base = some base ∧
          s.collectFields owner room base = .ok inherited ∧ fields = inherited ++ r.fields) := by
  constructor
  · intro h
    unfold collectFields at h
    obtain ⟨_, -, h⟩ := bind_eq_ok.mp h
    obtain ⟨t, ht, h⟩ := bind_eq_ok.mp h
    split at h
    · cases h
    · next r hr =>
      split at h
      · next hbase =>
        cases h
        exact ⟨t, r, ht, hr, .inl ⟨hbase, rfl⟩⟩
      · next base hbase =>
        obtain ⟨inherited, hinherited, h⟩ := bind_eq_ok.mp h
        cases h
        exact ⟨t, r, ht, hr, .inr ⟨base, inherited, hbase, hinherited, rfl⟩⟩
  · rintro ⟨t, r, ht, hr, h⟩
    obtain ⟨first, hfirst, -⟩ := bind_eq_ok.mp ht
    have hfirst : s.require name owner = .ok first := require_eq_ok.mpr (require_eq_ok.mp hfirst)
    unfold collectFields
    refine bind_eq_ok.mpr ⟨first, hfirst, bind_eq_ok.mpr ⟨t, ht, ?_⟩⟩
    rw [hr]
    rcases h with ⟨hbase, rfl⟩ | ⟨base, inherited, hbase, hinherited, rfl⟩
    · simp only [hbase]
      rfl
    · simp only [hbase]
      exact bind_eq_ok.mpr ⟨inherited, hinherited, rfl⟩

theorem collectFields_step {owner : String} {room : Nat} : s.collectFields owner (room + 1) name =
    (s.require name owner >>= fun _ => s.target name >>= fun t =>
      match t.record? with
      | none => .error (.inconsistent owner (.baseNotStructure name))
      | some r =>
        match r.base with
        | none => .ok r.fields
        | some base => s.collectFields owner room base >>= fun inherited =>
            .ok (inherited ++ r.fields)) :=
  rfl

/-- For whom fields are collected makes no difference. -/
theorem collectFields_owner {owner owner' : String} {room : Nat}
    (h : s.collectFields owner room name = .ok fields) :
    s.collectFields owner' room name = .ok fields := by
  induction room generalizing name fields with
  | zero => cases h
  | succ room ih =>
    obtain ⟨t, r, ht, hr, h⟩ := collectFields_succ.mp h
    refine collectFields_succ.mpr ⟨t, r, ht, hr, h.imp_right ?_⟩
    rintro ⟨base, inherited, hbase, hinherited, hfields⟩
    exact ⟨base, inherited, hbase, ih hinherited, hfields⟩

/-- A name of a structure has the fields of the structure. -/
theorem allFields_of_target (ht : s.target type = .ok t) (h : s.allFields type = .ok fields) :
    s.allFields t.specName = .ok fields ∧ ∃ r, t.record? = some r := by
  obtain ⟨t', r, ht', hr, h⟩ := collectFields_succ.mp h
  cases ht.symm.trans ht'
  obtain ⟨hlookup, hkind⟩ := lookup?_of_target ht
  refine ⟨collectFields_succ.mpr ⟨t, r, target_of_lookup? hlookup hkind, hr, h.imp_right ?_⟩, r, hr⟩
  rintro ⟨base, inherited, hbase, hinherited, hfields⟩
  exact ⟨base, inherited, hbase, collectFields_owner hinherited, hfields⟩

/-- The fields of a structure are fields of types. -/
theorem exists_of_mem_collectFields {owner : String} {room : Nat}
    (h : s.collectFields owner room name = .ok fields) {f : Field} (hf : f ∈ fields) :
    ∃ t ∈ s.types, ∃ r, t.record? = some r ∧ f ∈ r.fields := by
  induction room generalizing name fields with
  | zero => cases h
  | succ room ih =>
    obtain ⟨t, r, ht, hr, h⟩ := collectFields_succ.mp h
    have hmem : t ∈ s.types := (mem_of_lookup? (lookup?_of_target ht).1).1
    rcases h with ⟨-, rfl⟩ | ⟨base, inherited, -, hinherited, rfl⟩
    · exact ⟨t, hmem, r, hr, hf⟩
    · rcases List.mem_append.mp hf with hf | hf
      · exact ih hinherited hf
      · exact ⟨t, hmem, r, hr, hf⟩

/-- The fields of a structure without a base are its own. -/
theorem allFields_eq_ok
    (hbases : ∀ t ∈ s.types, ∀ r, t.record? = some r → r.base = none) :
    s.allFields type = .ok fields ↔ ∃ t r, s.recordOf? type = some (t, r) ∧ fields = r.fields := by
  unfold allFields
  rw [collectFields_succ]
  constructor
  · rintro ⟨t, r, ht, hr, ⟨-, rfl⟩ | ⟨base, -, hbase, -⟩⟩
    · exact ⟨t, r, recordOf?_eq_some.mpr ⟨ht, hr⟩, rfl⟩
    · cases (hbases t (mem_of_lookup? (lookup?_of_target ht).1).1 r hr).symm.trans hbase
  · rintro ⟨t, r, hrecord, rfl⟩
    obtain ⟨ht, hr⟩ := recordOf?_eq_some.mp hrecord
    exact ⟨t, r, ht, hr, .inl ⟨hbases t (mem_of_lookup? (lookup?_of_target ht).1).1 r hr, rfl⟩⟩

theorem mem_of_recordOf? {r : Record}
    (h : s.recordOf? type = some (t, r)) : t ∈ s.types ∧ t.record? = some r :=
  let ⟨ht, hr⟩ := recordOf?_eq_some.mp h
  ⟨(mem_of_lookup? (lookup?_of_target ht).1).1, hr⟩

end Resolve

end WireTables.Schema
