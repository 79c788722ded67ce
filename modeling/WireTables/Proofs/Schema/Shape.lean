import Mathlib.Data.List.Nodup
import WireTables.Proofs.Schema.Fields
import WireTables.Proofs.Wire.Reading

/-!
# The shape of a schema

What holds of all types of a schema: names are unique, elementary types are standard encodings, and
structures and unions meet conditions that become stricter or laxer from pass to pass. Every change
of a schema adds a type, moves one or changes one under its name (`Shaped.addType`,
`Shaped.ensureAfter`, `Shaped.modifyType`).
-/

namespace WireTables

/-- An elementary type is standard, and a structure or union meets a condition. -/
def TypeEntry.Meets (record : Record → Prop) (union : Bool → Prop) (t : TypeEntry) : Prop :=
  match t.kind with
  | .value c => Wire.Standard c
  | .record r => record r ∧ (t.implemented = true ∨ r.fields = [])
  | .union _ => union t.implemented
  | _ => True

theorem TypeEntry.kind_of_record? {t : TypeEntry} {r : Record} (h : t.record? = some r) :
    t.kind = .record r := by
  obtain ⟨id, specName, name, comment, implemented, kind⟩ := t
  cases kind <;> cases h
  rfl

theorem TypeEntry.kind_of_union? {t : TypeEntry} {u : UnionType} (h : t.union? = some u) :
    t.kind = .union u := by
  obtain ⟨id, specName, name, comment, implemented, kind⟩ := t
  cases kind <;> cases h
  rfl

namespace Schema

/-- Names are unique, and every type meets a condition. -/
structure Shaped (p : TypeEntry → Prop) (s : Schema) : Prop where
  names : s.names.Nodup
  entries : ∀ t ∈ s.types, p t

section Lookup

variable {s : Schema} {name : String} {t : TypeEntry}

theorem mem_of_lookup? (h : s.lookup? name = some t) : t ∈ s.types ∧ t.specName = name :=
  ⟨List.mem_of_find?_eq_some h, by simpa using List.find?_some h⟩

theorem not_mem_of_lookup? (h : s.contains name = false) : name ∉ s.names := by
  intro hmem
  obtain ⟨t, ht, rfl⟩ := List.mem_map.mp hmem
  have hnone : s.lookup? t.specName = none := by
    cases hl : s.lookup? t.specName with
    | none => rfl
    | some u =>
      unfold contains at h
      rw [hl] at h
      cases h
  have := List.find?_eq_none.mp hnone t ht
  simp at this

theorem contains_iff : s.contains name = true ↔ name ∈ s.names := by
  constructor
  · intro h
    obtain ⟨t, ht⟩ := Option.isSome_iff_exists.mp h
    obtain ⟨hmem, rfl⟩ := mem_of_lookup? ht
    exact List.mem_map_of_mem hmem
  · intro h
    by_contra hnot
    exact not_mem_of_lookup? (by simpa using hnot) h

theorem recordOf?_eq_some {r : Record} :
    s.recordOf? name = some (t, r) ↔ s.target name = .ok t ∧ t.record? = some r := by
  unfold recordOf?
  cases s.target name with
  | error e => simp only [reduceCtorEq, false_and]
  | ok t' =>
    simp only [Option.map_eq_some_iff, Prod.mk.injEq, Except.ok.injEq]
    constructor
    · rintro ⟨r', hr, rfl, rfl⟩
      exact ⟨rfl, hr⟩
    · rintro ⟨rfl, hr⟩
      exact ⟨r, hr, rfl, rfl⟩

end Lookup

theorem insertAfter_perm {anchor : String} {t : TypeEntry} {types : List TypeEntry} :
    (insertAfter anchor t types).Perm (t :: types) := by
  induction types with
  | nil => exact .refl _
  | cons u rest ih =>
    unfold insertAfter
    split
    · exact .swap _ _ _
    · exact (ih.cons u).trans (.swap _ _ _)

/-- What a search finds is what stands at the place that it finds. -/
theorem cons_eraseIdx_perm {α : Type} {p : α → Bool} {l : List α} {a : α} {i : Nat}
    (ha : l.find? p = some a) (hi : l.findIdx? p = some i) : (a :: l.eraseIdx i).Perm l := by
  induction l generalizing i with
  | nil => cases ha
  | cons x l ih =>
    rw [List.findIdx?_cons] at hi
    by_cases hx : p x = true
    · rw [List.find?_cons_of_pos hx, Option.some.injEq] at ha
      rw [if_pos hx, Option.some.injEq] at hi
      subst ha hi
      exact .refl _
    · rw [List.find?_cons_of_neg hx] at ha
      rw [if_neg hx] at hi
      obtain ⟨j, hj, rfl⟩ := Option.map_eq_some_iff.mp hi
      exact (List.Perm.swap _ _ _).trans ((ih ha hj).cons x)

section Change

variable {s s' : Schema}

/-- A type that is added has a new name, and joins the types that there are. -/
theorem perm_of_addType {t : TypeEntry} {anchor : Option String} (h : s.addType t anchor = .ok s') :
    t.specName ∉ s.names ∧ s'.types.Perm ({ t with id := s.types.length } :: s.types) := by
  unfold addType at h
  split at h
  · cases h
  · next hnew =>
    refine ⟨not_mem_of_lookup? (by simpa using hnew), ?_⟩
    cases anchor with
    | none =>
      cases h
      exact List.perm_append_singleton _ _
    | some anchor =>
      simp only at h
      split at h
      · cases h
        exact insertAfter_perm
      · cases h

/-- A type that is moved stays among the types. -/
theorem perm_of_ensureAfter {name anchor : String} (h : s.ensureAfter name anchor = .ok s') :
    s'.types.Perm s.types := by
  unfold ensureAfter at h
  split at h
  · next t at_ anchorAt ht hat _ =>
    split at h
    · cases h
      exact insertAfter_perm.trans (cons_eraseIdx_perm ht hat)
    · cases h
      exact .refl _
  · cases h

end Change

namespace Shaped

variable {p q : TypeEntry → Prop} {s s' : Schema}

/-- The order of the types does not matter. -/
theorem of_perm (h : Shaped p s) (hperm : s'.types.Perm s.types) : Shaped p s' :=
  ⟨(hperm.map _).nodup_iff.mpr h.names, fun t ht => h.entries t (hperm.mem_iff.mp ht)⟩

/-- A type is added under a new name. -/
theorem addType {t : TypeEntry} {anchor : Option String} (h : Shaped p s)
    (ha : s.addType t anchor = .ok s') (ht : ∀ id, p { t with id }) : Shaped p s' := by
  obtain ⟨hfresh, hperm⟩ := perm_of_addType ha
  refine ⟨(hperm.map _).nodup_iff.mpr (List.nodup_cons.mpr ⟨hfresh, h.names⟩), fun u hu => ?_⟩
  rcases List.mem_cons.mp (hperm.mem_iff.mp hu) with rfl | hu
  · exact ht _
  · exact h.entries u hu

/-- A type is moved. -/
theorem ensureAfter {name anchor : String} (h : Shaped p s)
    (ha : s.ensureAfter name anchor = .ok s') : Shaped p s' :=
  h.of_perm (perm_of_ensureAfter ha)

/-- All types are changed under their names. -/
theorem map {change : TypeEntry → TypeEntry} (h : Shaped p s)
    (hs : s'.types = s.types.map change) (hname : ∀ t, (change t).specName = t.specName)
    (hchange : ∀ t ∈ s.types, p t → q (change t)) : Shaped q s' := by
  refine ⟨?_, fun t ht => ?_⟩
  · have : s'.names = s.names := by
      unfold Schema.names
      rw [hs, List.map_map]
      exact List.map_congr_left fun t _ => hname t
    rw [this]
    exact h.names
  · rw [hs] at ht
    obtain ⟨u, hu, rfl⟩ := List.mem_map.mp ht
    exact hchange u hu (h.entries u hu)

/-- A type is changed under its name. -/
theorem modifyType {name : String} {change : TypeEntry → TypeEntry} (h : Shaped p s)
    (hname : ∀ t, (change t).specName = t.specName)
    (hchange : ∀ t ∈ s.types, t.specName = name → p t → p (change t)) :
    Shaped p (s.modifyType name change) := by
  refine h.map (p := p) rfl (fun t => ?_) fun t ht hp => ?_
  · split
    · exact hname t
    · rfl
  · split
    · next hn => exact hchange t ht (by simpa using hn) hp
    · exact hp

end Shaped

end Schema

theorem TypeEntry.specName_mapRecord (f : Record → Record) (t : TypeEntry) :
    (t.mapRecord f).specName = t.specName := by
  unfold mapRecord
  split <;> rfl

theorem TypeEntry.specName_mapUnion (f : UnionType → UnionType) (t : TypeEntry) :
    (t.mapUnion f).specName = t.specName := by
  unfold mapUnion
  split <;> rfl

/-- A changed structure has to meet its condition, and gets no fields if it had none. -/
theorem TypeEntry.Meets.mapRecord {record record' : Record → Prop} {union : Bool → Prop}
    {t : TypeEntry} {f : Record → Record} (h : t.Meets record union)
    (hf : ∀ r, t.record? = some r → record r → record' (f r))
    (hempty : ∀ r, t.record? = some r → r.fields = [] → (f r).fields = []) :
    (t.mapRecord f).Meets record' union := by
  obtain ⟨id, specName, name, comment, implemented, kind⟩ := t
  cases kind with
  | record r => exact ⟨hf r rfl h.1, h.2.imp_right (hempty r rfl)⟩
  | _ => exact h

theorem TypeEntry.Meets.imp {record record' : Record → Prop} {union union' : Bool → Prop}
    {t : TypeEntry} (h : t.Meets record union) (hr : ∀ r, record r → record' r)
    (hu : ∀ b, union b → union' b) : t.Meets record' union' := by
  unfold TypeEntry.Meets at h ⊢
  split at h
  · exact h
  · exact ⟨hr _ h.1, h.2⟩
  · exact hu _ h
  · exact trivial

end WireTables
