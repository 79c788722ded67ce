import WireTables.Proofs.Normal.Readiness

/-!
# What the passes make of fields

Each pass before unions are separated reworks the fields of structures so that they stay ready.
Linking a sized pair makes a length of a marked number. A wrapper that is inlined brings a tag under
a name that was not there and data under the name of a field of structure type, so what either of
them shares its name with is no length and no selector. An array that takes the rest of its region
keeps the type of its elements or has that of a wrapper's array. An absent tail makes fields plain
that are of elementary types (`ready_of_rewrites`).
-/

namespace WireTables

open Wire

section Inlining

variable {config : Config} {chosen : String → Prop} {s : Schema} {owner : String} {x : Record}
  {fields : List Field} {n : Nat}

/-- A tag that has come with an inlined field. -/
structure Field.IsNewTag (s : Schema) (fields : List Field) (g : Field) : Prop where
  marshal : g.marshal = .count ∨ g.marshal = .selector
  fits : Suits s g
  scalar : (s.scalar? g.typeName).isSome = true
  fresh : ∀ f ∈ fields, f.name ≠ g.name
  present : ∃ f, f ∈ fields

/-- What an inlined field has become, under its own name. -/
structure Field.IsNewData (chosen : String → Prop) (s : Schema) (fields : List Field) (g : Field) :
    Prop where
  marshal : g.marshal = .countedArray ∨ g.marshal = .unionBody ∨ g.marshal = .selectedArray
  fits : Suits s g
  chosen : g.marshal = .selectedArray → chosen g.typeName
  place : ∃ f ∈ fields, g.name = f.name ∧ s.isRecord f.typeName = true
  tag : ∃ tag, g.partner = some tag ∧ ∀ f ∈ fields, f.name ≠ tag

/-- The parts of a wrapper fit like all fields. -/
theorem Schema.Ready.fits_wrapper (h : s.Ready Field.IsSize config chosen) {f tag data : Field}
    (hw : s.wrapperOf? config owner f = some (tag, data)) :
    Suits s tag ∧ Suits s data ∧ (data.marshal = .selectedArray → chosen data.typeName) := by
  obtain ⟨-, t, w, hrecord, -, hwraps⟩ := Schema.wrapperOf?_eq_some.mp hw
  obtain ⟨ht, hr⟩ := Schema.mem_of_recordOf? hrecord
  have hready := h.record t ht w hr
  have fits : ∀ g ∈ w.fields, g.marshal ≠ .restArray → Suits s g := fun g hg hm =>
    (hready.fits g hg).resolve_right fun hstray => hm hstray.marshal
  have htag : tag ∈ w.fields := hwraps.fields ▸ List.mem_cons_self
  have hdata : data ∈ w.fields := hwraps.fields ▸ List.mem_cons_of_mem _ List.mem_cons_self
  refine ⟨fits tag htag ?_, fits data hdata ?_, hready.array data hdata⟩ <;>
    rcases hwraps.marshal with ⟨ht, hd⟩ | ⟨ht, hd | hd⟩ <;> simp [ht, hd]

/-- No field has the name of a tag that comes with an inlined one. -/
theorem fresh_of_inlineFields (hi : s.inlineFields config owner x = .ok (fields, n))
    {f tag data : Field} (hf : f ∈ x.fields) (hw : s.wrapperOf? config owner f = some (tag, data)) :
    ∀ g ∈ x.fields, g.name ≠ Schema.inlinedTagName f tag := by
  obtain ⟨outs, houts, -⟩ := bind_eq_ok.mp hi
  obtain ⟨out, -, hout⟩ := exists_of_forall₂ (mapM_eq_ok.mp houts).flip hf
  unfold Schema.inlineField at hout
  simp only [hw] at hout
  split at hout
  · cases hout
  · next hnone =>
    intro g hg hname
    refine hnone (List.find?_isSome.mpr ⟨g, hg, by simpa using hname⟩)

/-- A field after inlining was there before, or is a part of a wrapper. -/
theorem Schema.Ready.inline_cases (h : s.Ready Field.IsSize config chosen)
    (hi : s.inlineFields config owner x = .ok (fields, n)) {g : Field} (hg : g ∈ fields) :
    g ∈ x.fields ∨ g.IsNewTag s x.fields ∨ g.IsNewData chosen s x.fields := by
  rw [Schema.inlineFields_eq_ok hi] at hg
  obtain ⟨f, hf, hg⟩ := List.mem_flatMap.mp hg
  cases hw : s.wrapperOf? config owner f with
  | none =>
    rw [Schema.pieces_of_kept hw, List.mem_singleton] at hg
    exact .inl (hg ▸ hf)
  | some parts =>
    obtain ⟨tag, data⟩ := parts
    have hfresh := fresh_of_inlineFields hi hf hw
    obtain ⟨htag, hdata, hchosen⟩ := h.fits_wrapper hw
    obtain ⟨-, t, w, hrecord, -, hwraps⟩ := Schema.wrapperOf?_eq_some.mp hw
    rw [Schema.pieces_of_wrapper hw, Schema.inlineParts, List.mem_pair] at hg
    rcases hg with rfl | rfl
    · refine .inr (.inl ⟨hwraps.tag_marshal, ?_, ?_, hfresh, f, hf⟩)
      · unfold Suits at htag ⊢
        rcases hwraps.tag_marshal with hm | hm <;> simp only [hm] at htag ⊢ <;>
          exact ⟨htag.1, rfl⟩
      · unfold Suits at htag
        rcases hwraps.tag_marshal with hm | hm <;> simp only [hm] at htag <;> exact htag.1
    · refine .inr (.inr ⟨?_, ?_, hchosen, ⟨f, hf, rfl, ?_⟩, _, rfl, hfresh⟩)
      · exact hwraps.marshal.imp And.right And.right
      · unfold Suits at hdata ⊢
        rcases hwraps.marshal with ⟨-, hm⟩ | ⟨-, hm | hm⟩ <;> simp only [hm] at hdata ⊢
        · exact ⟨hdata.1, rfl⟩
        · rfl
        · rfl
      · unfold Schema.isRecord
        rw [hrecord]
        rfl

/-- The first field of a name is the length of a structure only if it was before. -/
theorem find?_flatMap_inlines {parts : Field → List Field} (hparts : ∀ f, Inlines f (parts f))
    {all : List Field} {tag : String} {g : Field}
    (h : (all.flatMap parts).find? (·.name == tag) = some g) (hm : g.marshal = .bodySize) :
    all.find? (·.name == tag) = some g := by
  induction all with
  | nil => cases h
  | cons f rest ih =>
    rw [List.flatMap_cons, List.find?_append] at h
    have hf := hparts f
    generalize parts f = out at h hf
    cases hf with
    | kept =>
      rw [List.find?_cons] at h ⊢
      split
      · next hname =>
        rw [hname] at h
        exact h
      · next hname =>
        rw [hname] at h
        exact ih h
    | @pair t data _ htag _ hdata hname _ =>
      have ht : t ≠ g := by
        rintro rfl
        rcases htag with hm' | hm' <;> cases hm.symm.trans hm'
      have hd : data ≠ g := by
        rintro rfl
        rcases hdata with hm' | hm' | hm' <;> cases hm.symm.trans hm'
      rw [List.find?_cons, List.find?_cons] at h
      split at h
      · exact (ht (Option.some.inj h)).elim
      · split at h
        · exact (hd (Option.some.inj h)).elim
        · next hother =>
          rw [List.find?_cons, ← hname, hother]
          exact ih h

theorem Schema.Ready.reworks_inline (h : s.Ready Field.IsSize config chosen)
    (hi : s.inlineFields config owner x = .ok (fields, n)) :
    Reworks Field.IsSize config chosen s x.fields fields where
  origin g hg := by
    rcases h.inline_cases hi hg with hg | htag | hdata
    · exact ⟨g, hg, .refl s g⟩
    · obtain ⟨f, hf⟩ := htag.present
      exact ⟨f, hf, .inl htag.scalar⟩
    · obtain ⟨f, hf, hname, hrecord⟩ := hdata.place
      exact ⟨f, hf, .inr ⟨hname, .inr hrecord⟩⟩
  size g hg hm := by
    rcases h.inline_cases hi hg with hg | htag | hdata
    · exact ⟨g, hg, rfl, hm⟩
    · rcases htag.marshal with hm' | hm' <;> cases Eq.trans (Eq.symm hm) hm'
    · rcases hdata.marshal with hm' | hm' | hm' <;> cases Eq.trans (Eq.symm hm) hm'
  first tag g hg hm := by
    rw [Schema.inlineFields_eq_ok hi] at hg
    exact .inl (find?_flatMap_inlines Schema.inlines_pieces hg hm)
  body f hf hm := by
    rcases h.inline_cases hi hf with hf | htag | hdata
    · exact .inl hf
    · rcases htag.marshal with hm' | hm' <;> cases hm.symm.trans hm'
    · rcases hdata.marshal with hm' | hm' | hm' <;> cases hm.symm.trans hm'
  union u hu hm := by
    rcases h.inline_cases hi hu with hu | htag | hdata
    · exact .inl hu
    · rcases htag.marshal with hm' | hm' <;> cases hm.symm.trans hm'
    · -- its tag has a name that nothing had before
      obtain ⟨tag, htag, hfresh⟩ := hdata.tag
      refine .inr fun g hg hp => ?_
      obtain rfl := Option.some.inj (htag.symm.trans hp)
      rcases h.inline_cases hi hg with hg | hnew | hnew
      · exact (hfresh g hg rfl).elim
      · exact hnew.scalar
      · obtain ⟨f, hf, hname, -⟩ := hnew.place
        exact (hfresh f hf hname.symm).elim
  fits f hf := (h.inline_cases hi hf).imp_right fun hnew =>
    .inl (hnew.elim (fun htag => htag.fits) fun hdata => hdata.fits)
  array f hf hm := by
    rcases h.inline_cases hi hf with hf | htag | hdata
    · exact .inl hf
    · rcases htag.marshal with hm' | hm' <;> cases hm.symm.trans hm'
    · exact .inr (hdata.chosen hm)

end Inlining

section Pairs

variable {config : Config} {chosen : String → Prop} {s : Schema} {fields : List Field}

/-- A length of a sized pair is a number, and what it measures is a structure. -/
theorem reworks_linkSizedPair : Reworks Field.MayBeSize config chosen s fields
    ((s.linkSizedPair fields).getD fields) := by
  have same : Reworks Field.MayBeSize config chosen s fields fields :=
    ⟨fun f hf => ⟨f, hf, .refl s f⟩, fun g hg hm => ⟨g, hg, rfl, .inl hm⟩, fun _ _ h _ => .inl h,
      fun _ h _ => .inl h, fun _ h _ => .inl h, fun _ h => .inl h, fun _ h _ => .inl h⟩
  unfold Schema.linkSizedPair
  split
  · next tag body =>
    split
    · next hpair =>
      unfold Schema.isSizedPair at hpair
      simp only [Bool.and_eq_true] at hpair
      obtain ⟨⟨⟨⟨hmarked, -⟩, -⟩, hinteger⟩, hrecord⟩ := hpair
      have hscalar : (s.scalar? tag.typeName).isSome = true := by
        unfold Schema.isInteger at hinteger
        cases hc : s.scalar? tag.typeName with
        | none =>
          rw [hc] at hinteger
          cases hinteger
        | some c => rfl
      -- the only length is the first of the two
      have size : ∀ g ∈ [{ tag with marshal := .bodySize, partner := some body.name },
          { body with marshal := .sizedBody, partner := some tag.name }], g.IsSize →
            g.name = tag.name ∧ (s.scalar? g.typeName).isSome = true := by
        intro g hg hm
        rcases List.mem_pair.mp hg with rfl | rfl
        · exact ⟨rfl, hscalar⟩
        · cases hm
      refine ⟨fun g hg => ?_, fun g hg hm => ⟨tag, List.mem_cons_self, (size g hg hm).1.symm,
        .inr hmarked⟩, fun _ g hg hm => .inr (size g (List.mem_of_find?_eq_some hg) hm).2,
        fun _ _ _ => .inr fun _ g _ hg hm => (size g (List.mem_of_find?_eq_some hg) hm).2,
        fun g hg hm => ?_, fun g hg => ?_, fun g hg hm => ?_⟩
      · rcases List.mem_pair.mp hg with rfl | rfl
        · exact ⟨tag, List.mem_cons_self, .inr ⟨rfl, .inl rfl⟩⟩
        · exact ⟨body, List.mem_cons_of_mem _ List.mem_cons_self, .inr ⟨rfl, .inl rfl⟩⟩
      · rcases List.mem_pair.mp hg with rfl | rfl <;> cases hm
      · rcases List.mem_pair.mp hg with rfl | rfl
        · exact .inr (.inl trivial)
        · exact .inr (.inl ⟨.inl hrecord, fun _ => rfl⟩)
      · rcases List.mem_pair.mp hg with rfl | rfl <;> cases hm
    · exact same
  · exact same

/-- Linked pairs leave a schema ready if marked numbers are treated as lengths before. -/
theorem Schema.Ready.linkSizedPairs (h : s.Ready Field.MayBeSize config chosen) :
    s.linkSizedPairs.Ready Field.IsSize config chosen := by
  refine h.mapTypes (TypeEntry.InPlace.mapRecord fun _ r =>
    { r with fields := (s.linkSizedPair r.fields).getD r.fields }) (fun t _ _ => ?_)
    fun t _ x x' hx hx' => ?_
  · obtain ⟨id, specName, name, comment, implemented, kind⟩ := t
    cases kind <;> rfl
  · rw [TypeEntry.record?_mapRecord, hx] at hx'
    cases hx'
    exact ⟨rfl, reworks_linkSizedPair, id⟩

end Pairs

section Change

variable {config : Config} {chosen : String → Prop} {s : Schema} {fields rest : List Field}
  {name : String} {change : Field → Field}

/-- The field of a name may become one that no other belongs to, a plain one or the rest of a
region, where it fits as such. Some fields may be gone. -/
theorem reworks_changeFirst (hsub : ∀ g ∈ rest, g ∈ fields)
    (hfirst : ∀ tag g, rest.find? (·.name == tag) = some g →
      fields.find? (·.name == tag) = some g)
    (hname : ∀ f, (change f).name = f.name)
    (hmarshal : ∀ f, (change f).marshal = .plain ∨ (change f).marshal = .restArray)
    (hfits : ∀ f, fields.find? (·.name == name) = some f → f.Descends s (change f) ∧
      (Suits s (change f) ∨ (change f).Stray config chosen)) :
    Reworks Field.IsSize config chosen s fields (Extraction.changeFirst name change rest) := by
  have changed : ∀ g ∈ Extraction.changeFirst name change rest, g ∈ fields ∨
      ∃ f, fields.find? (·.name == name) = some f ∧ g = change f := by
    intro g hg
    rcases exists_of_changed hg with hg | ⟨f, hf, rfl⟩
    · exact .inl (hsub g hg)
    · exact .inr ⟨f, hfirst _ _ hf, rfl⟩
  -- a field with another one of its own is not the one that was changed
  have kept : ∀ g ∈ Extraction.changeFirst name change rest, g.marshal ≠ .plain →
      g.marshal ≠ .restArray → g ∈ fields := by
    intro g hg hplain hrest
    rcases changed g hg with hg | ⟨f, -, rfl⟩
    · exact hg
    · exact ((hmarshal f).elim hplain hrest).elim
  exact {
    origin := fun g hg => by
      rcases changed g hg with hg | ⟨f, hf, rfl⟩
      · exact ⟨g, hg, .refl s g⟩
      · exact ⟨f, List.mem_of_find?_eq_some hf, (hfits f hf).1⟩
    size := fun g hg (hm : g.marshal = .bodySize) =>
      ⟨g, kept g hg (by simp [hm]) (by simp [hm]), rfl, hm⟩
    first := fun tag g hg (hm : g.marshal = .bodySize) => by
      rcases find?_changeFirst hname hg with hg | ⟨f, rfl⟩
      · exact .inl (hfirst tag g hg)
      · rcases hmarshal f with hm' | hm' <;> cases hm.symm.trans hm'
    body := fun g hg hm => .inl (kept g hg (by simp [hm]) (by simp [hm]))
    union := fun g hg hm => .inl (kept g hg (by simp [hm]) (by simp [hm]))
    fits := fun g hg => by
      rcases changed g hg with hg | ⟨f, hf, rfl⟩
      · exact .inl hg
      · exact .inr (hfits f hf).2
    array := fun g hg hm => .inl (kept g hg (by simp [hm]) (by simp [hm])) }

end Change

section Imply

variable {config : Config} {chosen : String → Prop} {s : Schema}

/-- One field is changed, and the fields of one name may be gone. -/
theorem exists_implyLength (field element : String) (count : Option String) (domain : Domain)
    (fields : List Field) : ∃ rest, Schema.implyLength field count element domain fields =
      Extraction.changeFirst field
        (fun f => { f with marshal := .restArray, typeName := element, domain, partner := none })
        rest ∧
      (∀ g ∈ rest, g ∈ fields) ∧ ∀ tag g, rest.find? (·.name == tag) = some g →
        fields.find? (·.name == tag) = some g := by
  cases count with
  | none => exact ⟨fields, modify_findIdx?, fun _ => id, fun _ _ => id⟩
  | some count =>
    refine ⟨fields.filter (·.name != count), modify_findIdx?,
      fun g hg => (List.mem_filter.mp hg).1, fun tag g hg => ?_⟩
    rw [List.find?_filter] at hg
    have hkept := List.find?_some hg
    simp only [bne_iff_ne, beq_iff_eq, decide_eq_true_eq] at hkept
    rw [← hg]
    congr 1
    funext f
    by_cases hf : f.name = tag
    · rw [hf, ← hkept.2]
      simpa using hkept.1
    · simp [hf]

/-- The elements of a configured array are data, or of a type that selectors chose. -/
theorem Schema.Ready.arrayPart_cases (h : s.Ready Field.IsSize config chosen) {f : Field}
    {element : String} {domain : Domain} (hfits : Suits s f ∨ f.Stray config chosen)
    (part : s.arrayPart? f = some (element, domain)) :
    (element = f.typeName ∨ s.isRecord f.typeName = true) ∧
      (s.IsData element ∨ chosen element) := by
  unfold Schema.arrayPart? at part
  split at part
  · next hm =>
    cases part
    have hm : f.marshal = .countedArray := by simpa using hm
    have hfits : Suits s f := hfits.resolve_right fun hstray => by
      cases hm.symm.trans hstray.marshal
    unfold Suits at hfits
    simp only [hm] at hfits
    exact ⟨.inl rfl, .inl hfits.1⟩
  · obtain ⟨⟨t, w⟩, hrecord, part⟩ := Option.bind_eq_some_iff.mp part
    obtain ⟨⟨tag, data⟩, hparts, part⟩ := Option.bind_eq_some_iff.mp part
    dsimp only at part
    split at part
    · next harray =>
      cases part
      obtain ⟨ht, hr⟩ := Schema.mem_of_recordOf? hrecord
      have hready := h.record t ht w hr
      have hwraps := Record.wrapperParts?_eq_some.mp hparts
      have hdata : data ∈ w.fields := hwraps.fields ▸ List.mem_cons_of_mem _ List.mem_cons_self
      refine ⟨.inr ?_, ?_⟩
      · unfold Schema.isRecord
        rw [hrecord]
        rfl
      · rcases hwraps.marshal with ⟨-, hm⟩ | ⟨-, hm | hm⟩
        · have hfits : Suits s data := (hready.fits data hdata).resolve_right fun hstray => by
            cases hm.symm.trans hstray.marshal
          unfold Suits at hfits
          simp only [hm] at hfits
          exact .inl hfits.1
        · rw [hm] at harray
          cases harray
        · exact .inr (hready.array data hdata hm)
    · cases part

theorem Schema.Ready.reworks_imply (h : s.Ready Field.IsSize config chosen) {ref : FieldRef}
    {found : Record} {f : Field} {element : String} {domain : Domain}
    (listed : ref ∈ config.implicitLengths)
    (lookup : (s.lookup? ref.record).bind TypeEntry.record? = some found)
    (field : found.field? ref.field = some f) (part : s.arrayPart? f = some (element, domain))
    (count : Option String) : Reworks Field.IsSize config chosen s found.fields
      (Schema.implyLength ref.field count element domain found.fields) := by
  obtain ⟨t, ht, hfound⟩ := Option.bind_eq_some_iff.mp lookup
  have hf : f ∈ found.fields := List.mem_of_find?_eq_some field
  have hname : f.name = ref.field := by simpa using List.find?_some field
  obtain ⟨htype, helement⟩ := h.arrayPart_cases
    ((h.record t (Schema.mem_of_lookup? ht).1 found hfound).fits f hf) part
  obtain ⟨rest, hrest, hsub, hfirst⟩ :=
    exists_implyLength ref.field element count domain found.fields
  rw [hrest]
  refine reworks_changeFirst hsub hfirst (fun _ => rfl) (fun _ => .inr rfl) fun g hg => ?_
  obtain rfl := Option.some.inj (field.symm.trans hg)
  refine ⟨.inr ⟨rfl, htype⟩, helement.imp (fun hdata => ?_) fun hchosen => ?_⟩
  · unfold Suits
    exact hdata
  · exact ⟨rfl, ⟨ref, listed, hname.symm⟩, hchosen⟩

end Imply

section Tail

variable {config : Config} {chosen : String → Prop} {s : Schema} {fields : List Field}

/-- A field may become a plain one of an elementary type. -/
theorem reworks_makePlain {name : String} {typeName : Option String}
    (htype : ∀ g ∈ fields, g.name = name →
      (s.scalar? (typeName.getD g.typeName)).isSome = true) :
    Reworks Field.IsSize config chosen s fields (Schema.makePlain name typeName fields) := by
  rw [makePlain_eq]
  refine reworks_changeFirst (fun _ => id) (fun _ _ => id) (fun _ => rfl) (fun _ => .inl rfl)
    fun f hf => ?_
  have hscalar := htype f (List.mem_of_find?_eq_some hf) (by simpa using List.find?_some hf)
  refine ⟨.inl hscalar, .inl ?_⟩
  unfold Suits
  exact .inr hscalar

theorem reworks_withPlain {tail : List Schema.TailField}
    (ht : ∀ t ∈ tail, (s.scalar? t.scalar).isSome = true) :
    Reworks Field.IsSize config chosen s fields (withPlain tail fields) := by
  unfold withPlain
  induction tail generalizing fields with
  | nil => exact .refl fields
  | cons t tail ih =>
    exact (reworks_makePlain fun _ _ _ => ht t List.mem_cons_self).trans
      (ih fun t' ht' => ht t' (List.mem_cons_of_mem _ ht'))

/-- The selector becomes plain too, and is of an elementary type. -/
theorem Schema.Ready.reworks_tail (h : s.Ready Field.IsSize config chosen) {name selector : String}
    {found : Record} {parts : List Schema.TailField}
    (lookup : (s.lookup? name).bind TypeEntry.record? = some found)
    (before : found.nullTail = none) (tail : s.tailFields name found = .ok parts)
    (last : parts.getLast?.bind (·.selector) = some selector) (listed : name ∈ config.nullTails) :
    Reworks Field.IsSize config chosen s found.fields
      (Schema.withNullTail parts selector config.nullSelector found).fields := by
  obtain ⟨t, ht, hfound⟩ := Option.bind_eq_some_iff.mp lookup
  obtain ⟨hmem, rfl⟩ := Schema.mem_of_lookup? ht
  have hplain : Reworks Field.IsSize config chosen s found.fields
      (withPlain parts found.fields) :=
    reworks_withPlain fun _ hpart => (exists_of_mem_tailFields tail hpart).choose_spec.2.2.2
  obtain ⟨part, hpart, hselector⟩ := Option.bind_eq_some_iff.mp last
  obtain ⟨u, hu, hum, hpartner, -⟩ :=
    exists_of_mem_tailFields tail (List.mem_of_getLast? hpart)
  refine hplain.trans (reworks_makePlain fun g hg hname => ?_)
  obtain ⟨g', hg', hd⟩ := hplain.origin g hg
  refine hd.scalar fun hsame =>
    (h.record t hmem found hfound).selector listed before u hu hum g' hg' ?_
  rw [← hpartner, hselector, ← hname, hsame]

end Tail

namespace Edit

variable {config : Config} {chosen : String → Prop} {r r' : Registry}

/-- Structures stay ready from the linking of sized pairs to the separation of unions. -/
theorem ready_of_rewrites (h : r.Ready Field.IsSize config chosen) (hstep : Rewrites config r r') :
    r'.Ready Field.IsSize config chosen := by
  cases hstep with
  | inline lookup inlined =>
    refine h.modifyRecord fun x hx => ⟨rfl, ?_, id⟩
    cases lookup.symm.trans hx
    exact h.reworks_inline inlined
  | imply listed lookup field _ part =>
    refine h.modifyRecord fun x hx => ⟨rfl, ?_, id⟩
    cases lookup.symm.trans hx
    exact h.reworks_imply listed lookup field part _
  | remember => exact h
  | note => exact h.modifyRecord fun x _ => ⟨rfl, .refl _, id⟩
  | tail lookup before tail last listed =>
    refine h.modifyRecord fun x hx => ⟨rfl, ?_, nofun⟩
    cases lookup.symm.trans hx
    exact h.reworks_tail lookup before tail last listed
  | @drop union unused there =>
    have hin : TypeEntry.InPlace fun t => { t with implemented := false } :=
      ⟨fun _ => rfl, fun _ => rfl, fun _ _ => rfl⟩
    refine h.mapTypes (hin.modify union) (fun t ht hr => ?_) fun t _ x x' hx hx' => ?_
    · -- what is not put out any more is no structure
      obtain ⟨t', ht', rfl, hu⟩ := Schema.exists_of_mem_unionNames there
      split
      · next hname =>
        obtain rfl := List.inj_on_of_nodup_map h.names ht ht' (by simpa using hname)
        obtain ⟨id, specName, name, comment, implemented, kind⟩ := t
        cases kind with
        | union u => cases hr
        | _ => cases hu
      · rfl
    · have hsame : t.record? = some x' := by
        split at hx'
        · exact hx'
        · exact hx'
      cases hx.symm.trans hsame
      exact ⟨rfl, .refl _, id⟩

end Edit

end WireTables
