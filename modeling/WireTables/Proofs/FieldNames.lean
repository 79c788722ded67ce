import WireTables.Proofs.Flattening
import WireTables.Proofs.Normal.PlainTail

/-!
# Field names after inlining

A wrapper that is inlined brings its tag along, under a name made from those of the field and the
tag. Inlining fails if the structure has a field of that name already, so no tag takes the name of a
field that was there. The names of two tags are not compared with each other: where both are inlined
in one go, neither is there when the other is looked for, and inlining succeeds with two fields of
one name. So the field names of a structure stay distinct just when its tags have distinct names
(`distinct_iff_of_inlineWrappers`), as they have where no field name goes on after another one
(`nodup_inlinedTags`).
-/

namespace WireTables

open List (Perm)

namespace Schema

/-- The names of the tags that come with the fields of a structure. -/
def inlinedTags (s : Schema) (config : Config) (owner : String) (fields : List Field) :
    List String :=
  fields.filterMap fun f => (s.wrapperOf? config owner f).map fun p => inlinedTagName f p.1

variable {s : Schema} {config : Config} {owner : String} {fields : List Field}

/-- The pieces of the fields have the names of the fields and those of the tags. -/
theorem perm_names_pieces : Perm ((fields.flatMap (s.pieces config owner)).map (·.name))
    (fields.map (·.name) ++ s.inlinedTags config owner fields) := by
  induction fields with
  | nil => exact .nil
  | cons f rest ih =>
    rw [List.flatMap_cons, List.map_append, inlinedTags, List.filterMap_cons]
    cases hw : s.wrapperOf? config owner f with
    | none =>
      rw [pieces_of_kept hw]
      exact ih.cons f.name
    | some p =>
      rw [pieces_of_wrapper hw]
      -- the tag stands before its field, and after all fields on the other side
      have hmiddle : Perm (inlinedTagName f p.1 :: ((f :: rest).map (·.name) ++
          s.inlinedTags config owner rest)) _ := List.perm_middle.symm
      exact ((ih.cons f.name).cons (inlinedTagName f p.1)).trans hmiddle

/-- A tag that the structure has a field for is reported. -/
theorem fresh_of_inlineFields {x : Record} {n : Nat}
    (h : s.inlineFields config owner x = .ok (fields, n)) :
    ∀ tag ∈ s.inlinedTags config owner x.fields, tag ∉ x.fields.map (·.name) := by
  intro tag htag hmem
  obtain ⟨f, hf, htag⟩ := List.mem_filterMap.mp htag
  obtain ⟨p, hw, rfl⟩ := Option.map_eq_some_iff.mp htag
  unfold inlineFields at h
  obtain ⟨outs, houts, -⟩ := bind_eq_ok.mp h
  obtain ⟨out, -, hout⟩ := exists_of_forall₂ (mapM_eq_ok.mp houts).flip hf
  have hfound : (x.field? (inlinedTagName f p.1)).isSome = true := by
    obtain ⟨g, hg, hname⟩ := List.mem_map.mp hmem
    exact List.find?_isSome.mpr ⟨g, hg, beq_iff_eq.mpr hname⟩
  unfold inlineField at hout
  rw [hw] at hout
  dsimp only at hout
  rw [if_pos hfound] at hout
  cases hout

/-- Tags have different names where no field name goes on after another one. -/
theorem nodup_inlinedTags (hnames : (fields.map (·.name)).Nodup)
    (hstarts : ∀ f ∈ fields, ∀ g ∈ fields, f.name.toList <+: g.name.toList → f.name = g.name) :
    (s.inlinedTags config owner fields).Nodup := by
  refine List.pairwise_filterMap.mpr (List.Pairwise.imp_of_mem ?_ (List.pairwise_map.mp hnames))
  rintro f g hf hg hne tag htag tag' htag' rfl
  obtain ⟨p, -, hp⟩ := Option.map_eq_some_iff.mp htag
  obtain ⟨q, -, hq⟩ := Option.map_eq_some_iff.mp htag'
  have starts : ∀ (f tag : Field), f.name.toList <+: (inlinedTagName f tag).toList :=
    fun f tag => ⟨_, (String.toList_append).symm⟩
  rcases List.prefix_or_prefix_of_prefix (hp ▸ starts f p.1) (hq ▸ starts g q.1) with h | h
  · exact hne (hstarts f hf g hg h)
  · exact hne (hstarts g hg f hf h).symm

/-- The structure of a name has the fields that it had before, by their names, and others whose
names are new. -/
def KeepsNames (s : Schema) (name : String) (before : List Field) : Prop :=
  ∃ x, (s.lookup? name).bind TypeEntry.record? = some x ∧ ∃ new : List String,
    Perm (x.fields.map (·.name)) (before.map (·.name) ++ new) ∧
      ∀ tag ∈ new, tag ∉ before.map (·.name)

/-- Inlining in one structure adds new names to that structure, and none to others. -/
theorem KeepsNames.inline {name changed : String} {before : List Field} {x : Record} {n : Nat}
    (h : s.KeepsNames name before) (hx : (s.lookup? changed).bind TypeEntry.record? = some x)
    (hinline : s.inlineFields config changed x = .ok (fields, n)) :
    (s.modifyRecord changed ({ · with fields })).KeepsNames name before := by
  obtain ⟨y, hy, new, hperm, hnew⟩ := h
  by_cases hname : name = changed
  · subst hname
    cases hx.symm.trans hy
    refine ⟨_, found_modifyRecord hx, new ++ s.inlinedTags config name x.fields, ?_, ?_⟩
    · obtain rfl := inlineFields_eq_ok hinline
      rw [← List.append_assoc]
      exact perm_names_pieces.trans (hperm.append_right _)
    · intro tag htag hmem
      rcases List.mem_append.mp htag with htag | htag
      · exact hnew tag htag hmem
      · exact fresh_of_inlineFields hinline tag htag
          (hperm.mem_iff.mpr (List.mem_append_left _ hmem))
  · refine ⟨y, ?_, new, hperm, hnew⟩
    rw [modifyRecord, lookup?_modifyType fun t => TypeEntry.specName_mapRecord _ t]
    simpa only [if_neg hname, Option.map_id'] using hy

/-- Where each field is in pieces, so are those of a structure that is found by its name. -/
theorem found_of_eq_expand {s' : Schema} {parts : String → Field → List Field} {t : TypeEntry}
    {x : Record} (h : s' = s.expand parts) (hnames : s.names.Nodup) (ht : t ∈ s.types)
    (hx : t.record? = some x) :
    (s'.lookup? t.specName).bind TypeEntry.record? = some (x.expand (parts t.specName)) := by
  rw [h, lookup?_expand, lookup?_of_mem hnames ht, Option.map_some, Option.bind_some,
    TypeEntry.record?_expand, hx, Option.map_some]

end Schema

section Distinct

variable {config : Config} {r r' : Registry} {n : Nat} (hnames : r.names.Nodup)
  (hy : Yields (Edit.inlineWrappers config) r n r') {t : TypeEntry} (ht : t ∈ r.types) {x : Record}
  (hx : t.record? = some x)

include hnames hy ht hx

/-- The tags that a structure gets have none of the names that were there before. -/
theorem fresh_of_inlineWrappers :
    ∀ tag ∈ r'.inlinedTags config t.specName x.fields, tag ∉ x.fields.map (·.name) := by
  have hfound : (r.lookup? t.specName).bind TypeEntry.record? = some x := by
    rw [Schema.lookup?_of_mem hnames ht, Option.bind_some, hx]
  have hkeeps : r'.KeepsNames t.specName x.fields := by
    refine Edit.inlineWrappers_induction (I := fun r => r.KeepsNames t.specName x.fields)
      (fun h hfound hinline => h.inline hfound hinline) ⟨x, hfound, [], ?_, by simp⟩ hy
    rw [List.append_nil]
  obtain ⟨hinlined, -⟩ := Edit.inlined_of_inlineWrappers hnames hy
  obtain ⟨y, hy', new, hperm, hnew⟩ := hkeeps
  cases (Schema.found_of_eq_expand hinlined.eq_expand hnames ht hx).symm.trans hy'
  -- what is new along the way are the tags of the end, whatever their order
  have htags : Perm (r'.inlinedTags config t.specName x.fields) new :=
    (List.perm_append_left_iff _).mp (Schema.perm_names_pieces.symm.trans hperm)
  exact fun tag htag => hnew tag (htags.mem_iff.mp htag)

omit ht hx in
/-- Inlining keeps the field names of a structure distinct just when the tags that come in have
distinct names. Their names are never those of fields that were there. -/
theorem distinct_iff_of_inlineWrappers
    (hdistinct : ∀ t ∈ r.types, ∀ x, t.record? = some x → (x.fields.map (·.name)).Nodup) :
    ∀ t' ∈ r'.types, ∀ x', t'.record? = some x' →
      ∃ t ∈ r.types, t.specName = t'.specName ∧ ∃ x, t.record? = some x ∧
        (∀ tag ∈ r'.inlinedTags config t.specName x.fields, tag ∉ x.fields.map (·.name)) ∧
          ((x'.fields.map (·.name)).Nodup ↔
            (r'.inlinedTags config t.specName x.fields).Nodup) := by
  intro t' ht' x' hx'
  obtain ⟨hinlined, -⟩ := Edit.inlined_of_inlineWrappers hnames hy
  have htypes : r'.types = r.types.map fun t => t.expand (r'.pieces config t.specName) :=
    congrArg Schema.types hinlined.eq_expand
  rw [htypes] at ht'
  obtain ⟨t, ht, rfl⟩ := List.mem_map.mp ht'
  rw [TypeEntry.record?_expand] at hx'
  obtain ⟨x, hx, rfl⟩ := Option.map_eq_some_iff.mp hx'
  have hfresh := fresh_of_inlineWrappers hnames hy ht hx
  refine ⟨t, ht, TypeEntry.specName_expand.symm, x, hx, hfresh, ?_⟩
  show ((x.fields.flatMap (r'.pieces config t.specName)).map (·.name)).Nodup ↔ _
  rw [Schema.perm_names_pieces.nodup_iff, List.nodup_append]
  constructor
  · rintro ⟨-, htags, -⟩
    exact htags
  · intro htags
    refine ⟨hdistinct t ht x hx, htags, fun name hname tag htag heq => ?_⟩
    exact hfresh tag htag (heq ▸ hname)

end Distinct

section LongPair

/-- A pair in which the tag of the first half is called like that of the second one: `a` goes on
with `BSize`, and `aB` with `Size`. -/
def longPairTables : List Table :=
  [{ caption := "Table 1 — Definition of TPM2B_LONG Structure", comment := "",
     rows := [["bSize", "UINT16", ""], ["buffer[bSize]", "BYTE", ""]], handleCount := 0 },
   { caption := "Table 2 — Definition of TPM2B_DATA Structure", comment := "",
     rows := [["size", "UINT16", ""], ["buffer[size]", "BYTE", ""]], handleCount := 0 },
   { caption := "Table 3 — Definition of TPMS_PAIR Structure", comment := "",
     rows := [["a", "TPM2B_LONG", ""], ["aB", "TPM2B_DATA", ""]], handleCount := 0 }]

theorem longPair_facts : (extractedOf longPairTables).names.Nodup ∧
    ((extractedOf longPairTables).types.all fun t => t.record?.all fun x =>
      decide (x.fields.map (·.name)).Nodup) = true ∧
    (Id.run ((Edit.inlineWrappers {}).run (extractedOf longPairTables))).1.toOption = some 2 ∧
    (((inlinedOf longPairTables).lookup? "TPMS_PAIR").bind TypeEntry.record?).map
      (·.fields.map (·.name)) = some ["aBSize", "a", "aBSize", "aB"] := by
  decide +kernel

/-- Names are distinct before, inlining succeeds, and the two tags have one name afterwards. -/
theorem clash_of_longPair : (extractedOf longPairTables).names.Nodup ∧
    (∀ t ∈ (extractedOf longPairTables).types, ∀ x, t.record? = some x →
      (x.fields.map (·.name)).Nodup) ∧
    Yields (Edit.inlineWrappers {}) (extractedOf longPairTables) 2 (inlinedOf longPairTables) ∧
    ∃ t ∈ (extractedOf longPairTables).types, t.specName = "TPMS_PAIR" ∧ ∃ x, t.record? = some x ∧
      ¬ ((inlinedOf longPairTables).inlinedTags {} t.specName x.fields).Nodup := by
  obtain ⟨hnames, hall, hcount, hpair⟩ := longPair_facts
  have hdistinct : ∀ t ∈ (extractedOf longPairTables).types, ∀ x, t.record? = some x →
      (x.fields.map (·.name)).Nodup := fun t ht x hx => by
    have hfields := List.all_eq_true.mp hall t ht
    rw [hx] at hfields
    exact of_decide_eq_true hfields
  have hy : Yields (Edit.inlineWrappers {}) (extractedOf longPairTables) 2
      (inlinedOf longPairTables) := yields_of_toOption hcount
  obtain ⟨x', hx', hfields⟩ := Option.map_eq_some_iff.mp hpair
  obtain ⟨t', ht', hrecord⟩ := Option.bind_eq_some_iff.mp hx'
  obtain ⟨hmem, hname'⟩ := Schema.mem_of_lookup? ht'
  obtain ⟨t, ht, hname, x, hx, -, hiff⟩ :=
    distinct_iff_of_inlineWrappers hnames hy hdistinct t' hmem x' hrecord
  refine ⟨hnames, hdistinct, hy, t, ht, hname.trans hname', x, hx, fun htags => ?_⟩
  have hnodup := hiff.mpr htags
  rw [hfields] at hnodup
  revert hnodup
  decide

end LongPair

end WireTables
