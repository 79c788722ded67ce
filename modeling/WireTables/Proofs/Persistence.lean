import WireTables.Proofs.Normal.Separation
import WireTables.Proofs.Normal.Reworking

/-!
# Layouts persist

A structure that has a layout before normal form has one afterwards, and so have the structures that
normal form adds (`layouts_persist`). Two things are beyond what the passes look at. Structures are
derived from further names and from shared types, so bases may come to nest deeper than they are
followed. And sizes change where structures are flattened: the length of an array may be an
expression that names the size of a type, and then it may fail to have a value, or be negative
(`layout_lost`).

The premises are those that the passes take for granted. What is not put out is empty. A length of a
structure does not share its name with an inherited field that is no elementary value. And what a
union-typed field names as its selector is elementary, if its structure gets an absent tail, for
then the selector becomes a plain field.
-/

namespace WireTables

open Relation (ReflTransGen)
open Wire

namespace Schema

/-- Structures that are not put out have no fields and no base. -/
def EmptyUnlessPut (s : Schema) : Prop :=
  ∀ t ∈ s.types, ∀ x, t.record? = some x →
    t.implemented = true ∨ x.fields = [] ∧ x.base = none

/-- If the length of a structure, or a number marked as one, has the name of an inherited field,
then both are of elementary types. -/
def SizesElementary (s : Schema) : Prop :=
  ∀ t ∈ s.types, ∀ x, t.record? = some x → ∀ base, x.base = some base →
    ∀ fields, s.HasFields base fields → ∀ g ∈ x.fields, g.MayBeSize → ∀ y ∈ fields,
      y.name = g.name →
        (s.scalar? g.typeName).isSome = true ∧ (s.scalar? y.typeName).isSome = true

/-- If a structure is to have an absent tail, the fields that its union-typed fields name as their
selectors are of elementary types. -/
def SelectorsElementary (config : Config) (s : Schema) : Prop :=
  ∀ t ∈ s.types, t.specName ∈ config.nullTails → ∀ x, t.record? = some x → x.nullTail = none →
    ∀ u ∈ x.fields, u.marshal = .unionBody → ∀ g ∈ x.fields, u.partner = some g.name →
      (s.scalar? g.typeName).isSome = true

section Premises

variable {config : Config} {s : Schema}

theorem emptyUnlessPut_of_implemented (h : ∀ t ∈ s.types, t.implemented = true) :
    s.EmptyUnlessPut :=
  fun t ht _ _ => .inl (h t ht)

theorem sizesElementary_of_baseless (h : ∀ t ∈ s.types, t.record?.bind (·.base) = none) :
    s.SizesElementary := by
  intro t ht x hx base hbase
  have := h t ht
  rw [hx, Option.bind_some, hbase] at this
  cases this

theorem selectorsElementary_of_unlisted (h : ∀ t ∈ s.types, t.specName ∉ config.nullTails) :
    s.SelectorsElementary config :=
  fun t ht hlisted => (h t ht hlisted).elim

end Premises

/-- The type is that of an array whose length a selector implies. -/
def IsChosen (s : Schema) (type : String) : Prop :=
  ∃ t ∈ s.types, ∃ x, t.record? = some x ∧
    ∃ f ∈ x.fields, f.marshal = .selectedArray ∧ f.typeName = type

/-- The own fields of a structure come after those that it inherits. -/
theorem exists_above {s : Schema} {t : TypeEntry} {x : Record} {fields : List Field}
    (ht : s.lookup? t.specName = some t) (hx : t.record? = some x)
    (h : s.allFields t.specName = .ok fields) : ∃ above, fields = above ++ x.fields ∧
      (above = [] ∨ ∃ base, x.base = some base ∧ s.HasFields base above) := by
  obtain ⟨htarget, -⟩ := recordOf?_eq_some.mp (recordOf?_of_lookup? ht hx)
  obtain ⟨t', x', ht', hx', hcases⟩ := collectFields_succ.mp h
  cases htarget.symm.trans ht'
  cases hx.symm.trans hx'
  rcases hcases with ⟨-, rfl⟩ | ⟨base, above, hbase, habove, rfl⟩
  · exact ⟨[], rfl, .inl rfl⟩
  · exact ⟨above, rfl, .inr ⟨base, hbase, hasFields_of_collectFields habove⟩⟩

end Schema

/-- Every structure that is put out has a layout. -/
def Registry.LaidOut (r : Registry) : Prop :=
  ∀ t ∈ r.types, t.implemented = true → t.record?.isSome = true →
    ∃ steps known, Yields (layout r.toSchema t.specName) r.known steps known

instance (r : Registry) : Decidable r.LaidOut :=
  inferInstanceAs (Decidable (∀ t ∈ r.types, t.implemented = true → t.record?.isSome = true → _))

section Before

variable {config : Config} {r : Registry}

/-- Structures that have layouts are ready for the passes. -/
theorem Registry.LaidOut.ready (h : r.LaidOut) (hnames : r.names.Nodup)
    (hput : r.EmptyUnlessPut) (hsizes : r.SizesElementary)
    (hselectors : r.SelectorsElementary config) :
    r.Ready Field.MayBeSize config r.IsChosen := by
  -- the fields of a structure fit, for it has a layout or no fields
  have laid : ∀ t ∈ r.types, ∀ x, t.record? = some x → x.fields = [] ∧ x.base = none ∨
      ∃ fields above, r.allFields t.specName = .ok fields ∧ fields = above ++ x.fields ∧
        (above = [] ∨ ∃ base, x.base = some base ∧ r.HasFields base above) ∧
          ∀ f ∈ fields, Suits r.toSchema f ∧ Measured r.toSchema fields f := by
    intro t ht x hx
    rcases hput t ht x hx with himplemented | hnone
    · obtain ⟨steps, known, hlayout⟩ := h t ht himplemented (hx ▸ rfl)
      obtain ⟨fields, hfields, hfits⟩ := fits_of_layout hlayout
      obtain ⟨above, hsplit, hfrom⟩ :=
        Schema.exists_above (Schema.lookup?_of_mem hnames ht) hx hfields
      exact .inr ⟨fields, above, hfields, hsplit, hfrom, hfits⟩
    · exact .inl hnone
  refine ⟨hnames, fun t ht x hx => (hput t ht x hx).imp_right And.left, fun t ht hr => ?_,
    fun t ht x hx => ⟨fun f hf => ?_, fun f hf hm => ⟨t, ht, x, hx, f, hf, hm, rfl⟩,
      fun f hf hm hr tag g hp hg hgm => ?_,
      fun hlisted hnone => hselectors t ht hlisted x hx hnone⟩,
    fun t ht x hx base hbase fields hfields g hg hgm y hy hname =>
      (hsizes t ht x hx base hbase fields hfields g hg hgm y hy hname).2⟩
  · obtain ⟨x, hx⟩ := Option.isSome_iff_exists.mp hr
    rcases laid t ht x hx with ⟨-, hbase⟩ | ⟨fields, -, hfields, -⟩
    · exact ⟨_, .own (Schema.recordOf?_of_lookup? (Schema.lookup?_of_mem hnames ht) hx) hbase⟩
    · exact ⟨fields, Schema.hasFields_of_allFields hfields⟩
  · rcases laid t ht x hx with ⟨hnone, -⟩ | ⟨fields, above, -, rfl, -, hfits⟩
    · rw [hnone] at hf
      cases hf
    · exact .inl (hfits f (List.mem_append_right _ hf)).1
  · rcases laid t ht x hx with ⟨hnone, -⟩ | ⟨fields, above, -, rfl, hfrom, hfits⟩
    · rw [hnone] at hf
      cases hf
    · obtain ⟨g', hg', hscalar⟩ := (hfits f (List.mem_append_right _ hf)).2 hm hr tag hp
      have hgname : g.name = tag := by simpa using List.find?_some hg
      rw [List.find?_append] at hg'
      cases hfirst : above.find? (·.name == tag) with
      | none =>
        rw [hfirst, Option.none_or, hg] at hg'
        cases hg'
        exact hscalar
      | some y =>
        have hy := List.mem_of_find?_eq_some hfirst
        have hyname : y.name = tag := by simpa using List.find?_some hfirst
        rcases hfrom with rfl | ⟨base, hbase, habove⟩
        · cases hy
        · exact (hsizes t ht x hx base hbase above habove g (List.mem_of_find?_eq_some hg)
            (.inl hgm) y hy (hyname.trans hgname.symm)).1

end Before

section After

variable {config : Config} {chosen : String → Prop} {s₀ s : Schema} {f : Field}

namespace Schema

theorem Upholds.scalar_isSome (h : s₀.Upholds s) {type : String}
    (hc : (s₀.scalar? type).isSome = true) : (s.scalar? type).isSome = true := by
  obtain ⟨c, hc⟩ := Option.isSome_iff_exists.mp hc
  rw [h.scalar type c hc]
  rfl

theorem Upholds.isData (h : s₀.Upholds s) {type : String} (hd : s₀.IsData type) :
    s.IsData type :=
  hd.imp (h.record type) h.scalar_isSome

/-- A type that is data denotes a structure only if it did before. -/
theorem Upholds.isRecord_of_isData (h : s₀.Upholds s) {type : String} (hd : s₀.IsData type)
    (hr : s.isRecord type = true) : s₀.isRecord type = true := by
  refine hd.resolve_right fun hc => ?_
  have := h.scalar_isSome hc
  rw [scalar?_of_isRecord hr] at this
  cases this

/-- What fits goes on to fit. -/
theorem Upholds.fits (h : s₀.Upholds s) (hf : Suits s₀ f) : Suits s f := by
  unfold Suits at hf ⊢
  cases hm : f.marshal <;> simp only [hm] at hf ⊢
  case plain | fixedArray | restArray => exact h.isData hf
  case countedArray => exact ⟨h.isData hf.1, hf.2⟩
  case sizedBody => exact ⟨h.isData hf.1, fun hr => hf.2 (h.isRecord_of_isData hf.1 hr)⟩
  case constant | count | selector => exact ⟨h.scalar_isSome hf.1, hf.2⟩
  case unionBody | selectedArray => exact hf

/-- The length of a structure is found among all fields, and is elementary. -/
theorem Ready.measured (h : s₀.Ready Field.IsSize config chosen) (hg : s₀.Upholds s)
    {name : String} {fields : List Field} (hfields : s₀.HasFields name fields) (hf : f ∈ fields)
    (hfits : Suits s₀ f)
    (hclean : ∀ t ∈ s₀.types, ∀ x, t.record? = some x → f ∈ x.fields → Clean x f) :
    Measured s fields f := by
  intro hm hr tag hp
  unfold Suits at hfits
  simp only [hm] at hfits
  have hrecord := hg.isRecord_of_isData hfits.1 hr
  obtain ⟨t, ht, x, above, below, hx, hfx, rfl, hfrom⟩ := hfields.exists_level hf
  -- the checks have found the length among the own fields of the structure
  have htagged := (hclean t ht x hx hfx).tagged
  unfold taggedFindings at htagged
  simp only [hm] at htagged
  obtain ⟨g, hgx, hgm⟩ : ∃ g, x.fields.find? (·.name == tag) = some g ∧ g.IsSize := by
    split at htagged
    · next hpartner =>
      obtain ⟨tag', htag', hfound⟩ := Option.bind_eq_some_iff.mp (beq_iff_eq.mp hpartner)
      obtain ⟨g, hg, hgm⟩ := Option.bind_eq_some_iff.mp hfound
      cases hp.symm.trans htag'
      exact ⟨g, hg, Option.some.inj hgm⟩
    · cases htagged
  have hgname : g.name = tag := by simpa using List.find?_some hgx
  rw [List.append_assoc, List.find?_append]
  cases hfirst : above.find? (·.name == tag) with
  | some y =>
    have hyname : y.name = tag := by simpa using List.find?_some hfirst
    have hy := List.mem_of_find?_eq_some hfirst
    rcases hfrom with rfl | ⟨base, hbase, habove⟩
    · cases hy
    · exact ⟨y, rfl, hg.scalar_isSome (h.inherited t ht x hx base hbase above habove g
        (List.mem_of_find?_eq_some hgx) hgm y hy (hyname.trans hgname.symm))⟩
  | none =>
    rw [List.find?_append, hgx]
    exact ⟨g, rfl, hg.scalar_isSome ((h.record t ht x hx).size f hfx hm hrecord tag g hp hgx hgm)⟩

end Schema

end After

variable {config : Config} {r r' : Registry}

/-- A structure of a normal form has a layout if the structures that were put out before had one. It
may lack one because there are more bases than are followed, or because the length of one of its
arrays of constant length fails; and nothing is said of a structure with a configured array whose
elements are of a type that was that of an array whose length a selector implies. -/
theorem layouts_persist (hnames : r.names.Nodup) (hput : r.EmptyUnlessPut)
    (hsizes : r.SizesElementary) (hselectors : r.SelectorsElementary config) (hlaid : r.LaidOut)
    (hy : Yields (Edit.normalize config) r () r') {t : TypeEntry} (ht : t ∈ r'.types)
    (hr : t.record?.isSome = true) (known : Known) :
    (∃ steps known', Yields (layout r'.toSchema t.specName) known steps known') ∨
      r'.allFields t.specName = .error (.inconsistent t.specName .baseCycle) ∨
      ∃ fields, r'.allFields t.specName = .ok fields ∧
        ((∃ f ∈ fields, f.marshal = .fixedArray ∧ ∃ k e k',
            Fails (fixedLength r'.toSchema t.specName f) k e k' ∧
              Fails (layout r'.toSchema t.specName) known e k') ∨
          ∃ f ∈ fields, f.Stray config r.IsChosen) := by
  obtain ⟨hpasses, hharmless⟩ := Edit.passes_of_normalize hy
  obtain ⟨r₅, r₆, n₆, hrewritten, hseparated, rfl⟩ := Edit.rewrites_of_passes hpasses
  have hready : r₅.Ready Field.IsSize config r.IsChosen :=
    Edit.invariant_of_steps (I := fun r => r.Ready Field.IsSize config _) hrewritten
      (hlaid.ready hnames hput hsizes hselectors).linkSizedPairs
      fun _ _ h hstep => Edit.ready_of_rewrites h hstep
  have hgrown := Edit.outgrows_separateUnions hready.names hready.complete hseparated
  have hupholds : r₅.Upholds r₆.linkUnions :=
    ⟨fun name c hc => Schema.scalar?_linkUnions.trans (hgrown.scalar name c hc),
      fun name h => Schema.isRecord_linkUnions.trans (hgrown.record name h)⟩
  have hclean : ∀ f : Field, ∀ u ∈ r₅.types, ∀ x, u.record? = some x → f ∈ x.fields →
      Schema.Clean x f := by
    intro f u hu x hx hf
    have himplemented : u.implemented = true := (hready.put u hu x hx).resolve_right fun hnone => by
      rw [hnone] at hf
      cases hf
    obtain ⟨hmem, -⟩ := Schema.mem_of_lookup?
      (hgrown.kept u.specName u (Schema.lookup?_of_mem hready.names hu) (hx ▸ rfl))
    have hlinked : r₆.relinkType u ∈ r₆.linkUnions.types := List.mem_map_of_mem hmem
    have hput' : (r₆.relinkType u).implemented = true :=
      (TypeEntry.implemented_mapRecord _ u).trans himplemented
    obtain ⟨htag, htagged, hselector⟩ := Schema.clean_of_findings (f := f) hharmless hlinked hput'
      (Schema.record?_relinkType hx) hf
    exact ⟨htag, htagged, hselector⟩
  have hin : TypeEntry.InPlace r₆.relinkType := Schema.inPlace_relinkType
  obtain ⟨u, hu, rfl⟩ := List.mem_map.mp ht
  obtain ⟨origin, fields, horigin, hfields⟩ := hgrown.fields u.specName u
    (Schema.lookup?_of_mem hgrown.names hu) (by rw [← hin.record u]; exact hr)
  have hname : r₆.linkUnions.HasFields (r₆.relinkType u).specName fields := by
    rw [hin.name]
    exact Schema.hasFields_linkUnions.mpr hfields
  rcases hname.allFields with hall | hdeep
  · have hfits : ∀ f ∈ fields, Suits r₆.linkUnions f ∧ Measured r₆.linkUnions fields f ∨
        f.Stray config r.IsChosen := by
      intro f hf
      obtain ⟨v, hv, x, -, -, hx, hfx, -⟩ := horigin.exists_level hf
      exact ((hready.record v hv x hx).fits f hfx).imp_left fun hfit =>
        ⟨hupholds.fits hfit, hready.measured hupholds horigin hf hfit (hclean f)⟩
    rcases layout_outcome hall hfits known with hlaid' | ⟨f, hf, hm, k, e, k', hfails⟩ | hstray
    · exact .inl hlaid'
    · exact .inr (.inr ⟨fields, hall, .inl ⟨f, hf, hm, k, e, k', hfails⟩⟩)
    · exact .inr (.inr ⟨fields, hall, .inr hstray⟩)
  · exact .inr (.inl hdeep)

section Room

/-- A structure of bytes after their number, and an array of as many bytes as the structure has at
most, less some. -/
def roomTables (less : String) : List Table :=
  [{ caption := "Table 1 — Definition of TPMS_ID_OBJECT Structure", comment := "",
     rows := [["size", "UINT16", ""], ["encIdentity[size]\x7b:64\x7d", "BYTE", ""]],
     handleCount := 0 },
   { caption := "Table 2 — Definition of TPMS_ROOM Structure", comment := "",
     rows := [["rest[sizeof(TPMS_ID_OBJECT) - " ++ less ++ "]", "BYTE", ""]], handleCount := 0 }]

/-- The structure loses the number of its bytes and has 64 bytes at most, and the array goes on to
have a length if it has less than these. -/
theorem layouts_persist_room : ∃ r₀ r,
    ((∃ report, Extraction.extract (roomTables "60") {} = .ok (r₀, report)) ∧
      r₀.names.Nodup ∧ r₀.EmptyUnlessPut ∧ r₀.SizesElementary ∧ r₀.SelectorsElementary {} ∧
        r₀.LaidOut ∧ Yields (Edit.normalize {}) r₀ () r) ∧
    r.names.drop 10 = ["TPMS_ID_OBJECT", "TPMS_ROOM"] ∧
    ∀ t ∈ r.types, t.record?.isSome = true →
      (∃ steps known, Yields (layout r.toSchema t.specName) r.known steps known) ∨
        r.allFields t.specName = .error (.inconsistent t.specName .baseCycle) ∨
        ∃ fields, r.allFields t.specName = .ok fields ∧
          ((∃ f ∈ fields, f.marshal = .fixedArray ∧ ∃ k e k',
              Fails (fixedLength r.toSchema t.specName f) k e k' ∧
                Fails (layout r.toSchema t.specName) r.known e k') ∨
            ∃ f ∈ fields, f.Stray {} r₀.IsChosen) := by
  have hfacts : (normalForms? (roomTables "60")).map (fun p =>
      (decide (p.1.names.Nodup ∧ (∀ t ∈ p.1.types, t.implemented = true) ∧
          (∀ t ∈ p.1.types, t.record?.bind (·.base) = none) ∧
          (∀ t ∈ p.1.types, t.specName ∉ ({} : Config).nullTails) ∧ p.1.LaidOut),
        p.2.names.drop 10)) =
      some (true, ["TPMS_ID_OBJECT", "TPMS_ROOM"]) := by
    decide +kernel
  obtain ⟨⟨r₀, r⟩, hforms, hfacts⟩ := Option.map_eq_some_iff.mp hfacts
  obtain ⟨⟨report, hextract⟩, hy⟩ := exists_of_normalForms? hforms
  simp only [Prod.mk.injEq, decide_eq_true_eq] at hfacts
  obtain ⟨⟨hnames, himplemented, hbases, htails, hlaid⟩, hafter⟩ := hfacts
  have hput := Schema.emptyUnlessPut_of_implemented himplemented
  have hsizes := Schema.sizesElementary_of_baseless hbases
  have hselectors : r₀.SelectorsElementary {} := Schema.selectorsElementary_of_unlisted htails
  exact ⟨r₀, r, ⟨⟨report, hextract⟩, hnames, hput, hsizes, hselectors, hlaid, hy⟩, hafter,
    fun t ht hr => layouts_persist hnames hput hsizes hselectors hlaid hy ht hr r.known⟩

/-- In normal form some structure that is put out has no layout, and neither its bases nor the
length of an array are the reason. -/
def Registry.Loses (r : Registry) (config : Config) : Prop :=
  ∃ r', Yields (Edit.normalize config) r () r' ∧ ∃ t ∈ r'.types,
    t.implemented = true ∧ t.record?.isSome = true ∧
    (∃ fields, r'.allFields t.specName = .ok fields ∧ ∀ f ∈ fields, f.marshal ≠ .fixedArray) ∧
    ¬ ∃ steps known, Yields (layout r'.toSchema t.specName) r'.known steps known

/-- The run that finds out. -/
def Registry.loses (r : Registry) (config : Config) : Bool :=
  match Id.run ((Edit.normalize config).run r) with
  | (.ok (), r') => r'.types.any fun t => t.implemented && t.record?.isSome &&
      (r'.allFields t.specName).toOption.any (·.all (·.marshal != .fixedArray)) &&
      (Id.run ((layout r'.toSchema t.specName).run r'.known)).1.toOption.isNone
  | (.error _, _) => false

theorem Registry.Loses.of_run {r : Registry} {config : Config} (h : r.loses config = true) :
    r.Loses config := by
  unfold Registry.loses at h
  split at h
  · next r' hy =>
    obtain ⟨t, ht, hlost⟩ := List.any_eq_true.mp h
    simp only [Bool.and_eq_true, Option.isNone_iff_eq_none] at hlost
    obtain ⟨⟨⟨himplemented, hrecord⟩, hfields⟩, hnone⟩ := hlost
    refine ⟨r', hy, t, ht, himplemented, hrecord, ?_, ?_⟩
    · cases hall : r'.allFields t.specName with
      | error e =>
        rw [hall] at hfields
        cases hfields
      | ok fields =>
        rw [hall] at hfields
        exact ⟨fields, rfl, fun f hf => by simpa using List.all_eq_true.mp hfields f hf⟩
    · rintro ⟨steps, known, hlayout⟩
      have hrun : Id.run ((layout r'.toSchema t.specName).run r'.known) = (.ok steps, known) :=
        hlayout
      rw [hrun] at hnone
      cases hnone
  · cases h

/-- The registry of given types after the elementary ones. -/
def ofTypes (types : List TypeEntry) : Registry :=
  { Schema.initial with types := Schema.elementary ++ types }

/-- A union of two members of one structure, which is not put out and has no layout. -/
def hidden : Registry :=
  ofTypes [{ TypeEntry.new "TPMS_RAW" (.record { fields :=
      [{ name := "body", typeName := "TPMU_RAW" }] }) with implemented := false },
    .new "TPMU_RAW" (.union { members :=
      [{ name := "left", typeName := "TPMS_RAW", selector := "TPM_KIND_LEFT" },
        { name := "right", typeName := "TPMS_RAW", selector := "TPM_KIND_RIGHT" }] })]

theorem not_emptyUnlessPut_hidden : ¬ hidden.EmptyUnlessPut := by
  intro h
  have hput := h hidden.types[10] (List.getElem_mem _) _ rfl
  rcases hput with himplemented | ⟨hfields, -⟩
  · cases himplemented
  · cases hfields

/-- A structure after its length, whose name is that of a structure in the base. -/
def shadowed : Registry :=
  ofTypes [.new "TPMS_POINT" (.record { fields := [{ name := "x", typeName := "UINT16" }] }),
    .new "TPMS_BASE" (.record { fields := [{ name := "size", typeName := "TPMS_POINT" }] }),
    .new "TPMS_DERIVED" (.record { base := some "TPMS_BASE", fields :=
      [{ name := "size", typeName := "UINT16", sizeMarker := true },
        { name := "point", typeName := "TPMS_POINT" }] })]

theorem not_sizesElementary_shadowed : ¬ shadowed.SizesElementary := by
  intro h
  have hinherited : shadowed.HasFields "TPMS_BASE" [{ name := "size", typeName := "TPMS_POINT" }] :=
    Schema.hasFields_of_allFields rfl
  obtain ⟨-, hscalar⟩ := h shadowed.types[12] (List.getElem_mem _) _ rfl _ rfl _ hinherited _
    List.mem_cons_self (.inr rfl) _ List.mem_cons_self rfl
  cases hscalar

/-- A union whose selector is an array that has a selector of its own. -/
def chained : Registry :=
  ofTypes [.new "TPMU_KEY" (.union { members :=
      [{ name := "key", typeName := "BYTE", selector := "TPM_KIND_KEY", arraySize := some "2" }] }),
    .new "TPMU_MODE" (.union { members :=
      [{ name := "mode", typeName := "UINT16", selector := "TPM_KIND_KEY" }] }),
    .new "TPMT_SYM_DEF" (.record { fields :=
      [{ name := "kind", typeName := "UINT16", marshal := .selector, partner := some "key" },
        { name := "key", typeName := "TPMU_KEY", marshal := .selectedArray,
          partner := some "kind" },
        { name := "mode", typeName := "TPMU_MODE", marshal := .unionBody,
          partner := some "key" }] })]

theorem not_selectorsElementary_chained :
    ¬ chained.SelectorsElementary { implicitLengths := [] } := by
  intro h
  have hscalar := h chained.types[12] (List.getElem_mem _) List.mem_cons_self _ rfl rfl _
    (List.mem_cons_of_mem _ (List.mem_cons_of_mem _ List.mem_cons_self)) rfl _
    (List.mem_cons_of_mem _ List.mem_cons_self) rfl
  cases hscalar

/-- A structure of bytes whose number the selector implies, inside another one. -/
def signatureTables : List Table :=
  [{ caption := "Table 1 — Definition of (UINT16) TPM_KIND Constants",
     rows := [["TPM_KIND_SHORT", "1", ""]] },
   { caption := "Table 2 — Definition of TPMU_HA Union <IN/OUT>",
     rows := [["short [4]", "BYTE", "TPM_KIND_SHORT", ""]] },
   { caption := "Table 3 — Definition of TPMT_HA Structure",
     rows := [["kind", "TPM_KIND", ""], ["[kind]digest", "TPMU_HA", ""]] },
   { caption := "Table 4 — Definition of TPMS_SIGNED Structure",
     rows := [["hash", "TPMT_HA", ""]] }]

/-- The structure inside is to fill what is left. -/
def signatureConfig : Config :=
  { implicitLengths := [⟨"TPMS_SIGNED", "hash"⟩] }

/-- The registry of these tables. -/
def signatures : Registry :=
  match Extraction.extract signatureTables signatureConfig with
  | .ok (r, _) => r
  | .error _ => default

/-- An array of 65 bytes less than the structure may have has no length when that is 64 bytes. The
premises about what is not put out, about inherited lengths and about the selectors of absent tails
are needed: for each there is a registry that loses a layout although the others hold. The last
registry has all of them and loses one for an array whose elements a selector has chosen. -/
theorem layout_lost :
    (∃ r₀ r : Registry, (∃ report, Extraction.extract (roomTables "65") {} = .ok (r₀, report)) ∧
      r₀.LaidOut ∧ Yields (Edit.normalize {}) r₀ () r ∧ ¬ r.LaidOut) ∧
    (hidden.names.Nodup ∧ ¬ hidden.EmptyUnlessPut ∧ hidden.SizesElementary ∧
      hidden.SelectorsElementary { implicitLengths := [] } ∧ hidden.LaidOut ∧
        hidden.Loses { implicitLengths := [] }) ∧
    (shadowed.names.Nodup ∧ shadowed.EmptyUnlessPut ∧ ¬ shadowed.SizesElementary ∧
      shadowed.SelectorsElementary { implicitLengths := [] } ∧ shadowed.LaidOut ∧
        shadowed.Loses { implicitLengths := [] }) ∧
    (chained.names.Nodup ∧ chained.EmptyUnlessPut ∧ chained.SizesElementary ∧
      ¬ chained.SelectorsElementary { implicitLengths := [] } ∧ chained.LaidOut ∧
        chained.Loses { implicitLengths := [] }) ∧
    ((∃ report, Extraction.extract signatureTables signatureConfig = .ok (signatures, report)) ∧
      signatures.names.Nodup ∧ signatures.EmptyUnlessPut ∧ signatures.SizesElementary ∧
        signatures.SelectorsElementary signatureConfig ∧ signatures.LaidOut ∧
          signatures.Loses signatureConfig) := by
  have hroom : (normalForms? (roomTables "65")).map (fun p =>
      (decide p.1.LaidOut, decide p.2.LaidOut)) = some (true, false) := by decide +kernel
  obtain ⟨⟨r₀, r⟩, hforms, hroom⟩ := Option.map_eq_some_iff.mp hroom
  obtain ⟨hextract, hy⟩ := exists_of_normalForms? hforms
  simp only [Prod.mk.injEq, decide_eq_true_eq, decide_eq_false_iff_not] at hroom
  have hsignatures : (Extraction.extract signatureTables signatureConfig).toOption.map Prod.fst =
      some signatures := by decide +kernel
  obtain ⟨⟨_, report⟩, hreport, rfl⟩ := Option.map_eq_some_iff.mp hsignatures
  refine ⟨⟨r₀, r, hextract, hroom.1, hy, hroom.2⟩, ⟨by decide +kernel, not_emptyUnlessPut_hidden,
      Schema.sizesElementary_of_baseless (by decide +kernel),
      Schema.selectorsElementary_of_unlisted (by decide +kernel), by decide +kernel,
      .of_run (by decide +kernel)⟩, ⟨by decide +kernel,
      Schema.emptyUnlessPut_of_implemented (by decide +kernel), not_sizesElementary_shadowed,
      Schema.selectorsElementary_of_unlisted (by decide +kernel), by decide +kernel,
      .of_run (by decide +kernel)⟩, ⟨by decide +kernel,
      Schema.emptyUnlessPut_of_implemented (by decide +kernel),
      Schema.sizesElementary_of_baseless (by decide +kernel), not_selectorsElementary_chained,
      by decide +kernel, .of_run (by decide +kernel)⟩, ⟨report, ok_of_toOption hreport⟩,
    by decide +kernel, Schema.emptyUnlessPut_of_implemented (by decide +kernel),
    Schema.sizesElementary_of_baseless (by decide +kernel),
    Schema.selectorsElementary_of_unlisted (by decide +kernel), by decide +kernel,
    .of_run (by decide +kernel)⟩

end Room

end WireTables
