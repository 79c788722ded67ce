import WireTables.Proofs.Normal.Concrete

/-!
# Structures without fields

A member of a union that stands for absence may have a structure without fields as its type. No pass
gives such a structure any fields, a base or an absent tail (`fieldless_of_passes`).
-/

namespace WireTables

open Relation (ReflTransGen)

/-- A structure that there is nothing to write or read of. -/
structure Record.Fieldless (x : Record) : Prop where
  fields : x.fields = []
  base : x.base = none
  tail : x.nullTail = none

namespace Schema

/-- The name is that of a structure without fields. -/
def Fieldless (s : Schema) (name : String) : Prop :=
  ∃ t ∈ s.types, t.specName = name ∧ ∃ x, t.record? = some x ∧ x.Fieldless

variable {s s' : Schema} {name : String}

theorem Fieldless.recordOf? (h : s.Fieldless name) (hnames : s.names.Nodup) :
    ∃ t x, s.recordOf? name = some (t, x) ∧ x.Fieldless := by
  obtain ⟨t, ht, rfl, x, hx, hless⟩ := h
  exact ⟨t, x, recordOf?_of_lookup? (lookup?_of_mem hnames ht) hx, hless⟩

theorem Fieldless.not_alias (h : s.Fieldless name) (hnames : s.names.Nodup) {a : AliasType}
    (ha : (s.lookup? name).bind TypeEntry.alias? = some a) : False := by
  obtain ⟨t, ht, rfl, y, hy, -⟩ := h
  rw [lookup?_of_mem hnames ht] at ha
  obtain ⟨id, specName, name, comment, implemented, kind⟩ := t
  cases kind with
  | record => cases ha
  | _ => cases hy

theorem Fieldless.perm (h : s.Fieldless name) (hperm : s'.types.Perm s.types) :
    s'.Fieldless name := by
  obtain ⟨t, ht, hname⟩ := h
  exact ⟨t, hperm.mem_iff.mpr ht, hname⟩

/-- Types that are changed by themselves leave it without fields if its own change does. -/
theorem Fieldless.map {change : TypeEntry → TypeEntry} (h : s.Fieldless name)
    (hs : s'.types = s.types.map change) (hchange : ∀ t ∈ s.types, t.specName = name → ∀ x,
      t.record? = some x → x.Fieldless → (change t).specName = name ∧
        ∃ x', (change t).record? = some x' ∧ x'.Fieldless) : s'.Fieldless name := by
  obtain ⟨t, ht, hname, x, hx, hless⟩ := h
  obtain ⟨hname', hx'⟩ := hchange t ht hname x hx hless
  exact ⟨change t, hs ▸ List.mem_map_of_mem ht, hname', hx'⟩

theorem record?_mapRecord {t : TypeEntry} {x : Record} (f : Record → Record)
    (hx : t.record? = some x) : (t.mapRecord f).record? = some (f x) := by
  obtain ⟨id, specName, name, comment, implemented, kind⟩ := t
  cases kind <;> cases hx
  rfl

/-- A structure of the same or another name is changed. -/
theorem Fieldless.modifyRecord {other : String} {f : Record → Record} (h : s.Fieldless name)
    (hnames : s.names.Nodup)
    (hf : ∀ x, (s.lookup? other).bind TypeEntry.record? = some x → x.Fieldless →
      (f x).Fieldless) : (s.modifyRecord other f).Fieldless name := by
  refine h.map rfl fun t ht hname x hx hless => ?_
  split
  · next hother =>
    have hlookup : (s.lookup? other).bind TypeEntry.record? = some x := by
      rw [← beq_iff_eq.mp hother, lookup?_of_mem hnames ht]
      exact hx
    exact ⟨(TypeEntry.specName_mapRecord f t).trans hname, _, record?_mapRecord f hx,
      hf x hlookup hless⟩
  · exact ⟨hname, x, hx, hless⟩

theorem Fieldless.addType {t : TypeEntry} {anchor : Option String} (h : s.Fieldless name)
    (hadd : s.addType t anchor = .ok s') : s'.Fieldless name := by
  unfold Schema.addType at hadd
  split at hadd
  · cases hadd
  · obtain ⟨u, hu, hname⟩ := h
    cases anchor with
    | none =>
      cases hadd
      exact ⟨u, List.mem_append_left _ hu, hname⟩
    | some anchor =>
      dsimp only at hadd
      split at hadd
      · cases hadd
        exact ⟨u, insertAfter_perm.mem_iff.mpr (List.mem_cons_of_mem _ hu), hname⟩
      · cases hadd

theorem Fieldless.ensureAfter {type anchor : String} (h : s.Fieldless name)
    (hmove : s.ensureAfter type anchor = .ok s') : s'.Fieldless name := by
  unfold Schema.ensureAfter at hmove
  split at hmove
  · next t at_ anchorAt ht hat _ =>
    split at hmove
    · cases hmove
      exact h.perm (insertAfter_perm.trans (cons_eraseIdx_perm ht hat))
    · cases hmove
      exact h
  · cases hmove

end Schema

namespace Edit

open Schema

variable {config : Config} {r r' : Registry} {n : Nat} {name : String}

theorem fieldless_of_reshapes (h : Reshapes config r r') (hnames : r.names.Nodup)
    (hless : r.Fieldless name) : r'.Fieldless name := by
  cases h with
  | pairs =>
    refine hless.map rfl fun t _ hname x hx hx' => ?_
    refine ⟨(TypeEntry.specName_mapRecord _ t).trans hname, _, record?_mapRecord _ hx, ?_⟩
    refine ⟨?_, hx'.base, hx'.tail⟩
    show (r.linkSizedPair x.fields).getD x.fields = []
    rw [hx'.fields]
    rfl
  | rewrite h =>
    cases h with
    | inline lookup inlined =>
      refine hless.modifyRecord hnames fun x hx hx' => ⟨?_, hx'.base, hx'.tail⟩
      cases lookup.symm.trans hx
      unfold inlineFields at inlined
      rw [hx'.fields] at inlined
      cases inlined
      rfl
    | imply listed lookup field =>
      refine hless.modifyRecord hnames fun x hx hx' => ?_
      cases lookup.symm.trans hx
      unfold Record.field? at field
      rw [hx'.fields] at field
      cases field
    | remember => exact hless
    | note other sizes =>
      exact hless.modifyRecord hnames fun x _ hx' => ⟨hx'.fields, hx'.base, hx'.tail⟩
    | tail lookup before tail last =>
      refine hless.modifyRecord hnames fun x hx hx' => ?_
      cases lookup.symm.trans hx
      unfold tailFields at tail
      rw [hx'.fields] at tail
      cases tail
      cases last
    | drop unused =>
      refine hless.map rfl fun t _ hname x hx hx' => ?_
      split
      · exact ⟨hname, x, hx, hx'⟩
      · exact ⟨hname, x, hx, hx'⟩

theorem fieldless_deriveFromAlias {other : String} {u : Unit} (hless : r.Fieldless name)
    (hother : other ≠ name) (hy : Yields (deriveFromAlias other) r u r') : r'.Fieldless name := by
  obtain ⟨base, errorCode, s, -, hs, rfl⟩ := exists_of_deriveFromAlias hy
  refine Fieldless.ensureAfter (hless.map rfl fun t _ hname x hx hx' => ?_) hs
  rw [if_neg (by simpa [hname] using hother.symm)]
  exact ⟨hname, x, hx, hx'⟩

theorem fieldless_addAllDerived {union : String} {renamings : List Renaming}
    {anchors : List (String × String)} (hless : r.Fieldless name)
    (hy : Yields (addAllDerived union anchors renamings) r n r') : r'.Fieldless name := by
  induction renamings generalizing r n anchors with
  | nil =>
    obtain ⟨-, rfl⟩ := yields_pure.mp hy
    exact hless
  | cons change rest ih =>
    unfold addAllDerived at hy
    obtain ⟨⟨anchors', count⟩, r₁, hadd, hy⟩ := yields_bind.mp hy
    obtain ⟨m, r₂, hrest, hend⟩ := yields_bind.mp hy
    obtain ⟨-, rfl⟩ := yields_pure.mp hend
    refine ih ?_ hrest
    obtain ⟨r₃, hadded, rfl⟩ := exists_of_addDerived hadd
    have h₃ : r₃.Fieldless name := by
      rcases hadded with ⟨-, rfl⟩ | ⟨comment, anchor, s, hs, rfl⟩
      · exact hless
      · exact hless.addType hs
    refine h₃.map rfl fun t _ hname x hx hx' => ?_
    split
    · obtain ⟨id, specName, name, comment, implemented, kind⟩ := t
      cases kind <;> cases hx
      exact ⟨hname, x, rfl, hx'⟩
    · exact ⟨hname, x, hx, hx'⟩

/-- The structure is not among the further names that are turned into structures. -/
theorem fieldless_separateUnion {union : String} (hnames : r.names.Nodup)
    (hless : r.Fieldless name) (hy : Yields (separateUnion config union) r n r') :
    r'.Fieldless name := by
  rcases separateUnion_cases hy with ⟨-, rfl⟩ | ⟨found, -, r₁, renamings, m, hderive, -, hadd⟩
  · exact hless
  · have hderived : r₁.Fieldless name := by
      refine hderive.forM (I := fun r => r.Fieldless name) hless
        fun other hother r₂ r₃ hless₂ hy => fieldless_deriveFromAlias hless₂ ?_ hy
      rintro rfl
      have halias := (List.mem_filter.mp (List.mem_eraseDups.mp hother)).2
      obtain ⟨a, ha⟩ := Option.isSome_iff_exists.mp (Bool.and_eq_true_iff.mp halias).1
      exact hless.not_alias hnames ha
    exact fieldless_addAllDerived hderived hadd

/-- What has no fields before normal form has none afterwards. -/
theorem fieldless_of_passes (hnames : r.names.Nodup) (hless : r.Fieldless name)
    (h : Passes config r r') : r'.Fieldless name := by
  refine (invariant_of_passes (I := fun r => r.names.Nodup ∧ r.Fieldless name) h ⟨hnames, hless⟩
    (fun r₁ r₂ ⟨hnames, hless⟩ hstep => ?_) (fun union m r₁ r₂ ⟨hnames, hless⟩ hy => ?_)
    fun r₁ ⟨hnames, hless⟩ => ?_).2
  · have hb : r₁.Becomes (fun _ => True) r₂.toSchema := becomes_of_reshapes hstep
    exact ⟨hb.names hnames, fieldless_of_reshapes hstep hnames hless⟩
  · exact ⟨(becomes_separateUnion hy).names hnames, fieldless_separateUnion hnames hless hy⟩
  · refine ⟨(Schema.becomes_linkUnions r₁.toSchema fun _ => True).1.names hnames,
      hless.map rfl fun t _ hname x hx hx' => ?_⟩
    exact ⟨(TypeEntry.specName_mapRecord _ t).trans hname, _, record?_mapRecord _ hx,
      hx'.fields, hx'.base, hx'.tail⟩

end Edit

end WireTables
