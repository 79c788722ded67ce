import WireTables.Proofs.Codec
import WireTables.Proofs.Wire.Bound
import WireTables.Proofs.Wire.Flattening

/-!
# Decoding where wrappers are inlined

A registry that tables are extracted to decodes the same bytes when its wrappers are inlined, to the
flattened values (`decode_inlineWrappers`), where inlined fields have no domains and field names are
distinct afterwards. One thing more is needed. Lengths and largest lengths of arrays may ask for the
sizes of types, and while inlining changes no size, it changes the sums and the depth that a size is
calculated with; so it may be that a size is calculated before inlining only, or afterwards only
(`not_decoded_after_inlining`). What is evaluated where a field is read has to have a value in both
registries or in none (`Registry.EvaluatesAlike`).
-/

namespace WireTables

open Wire

namespace Schema

/-- Where every constant has a value, a constant has the value that is remembered. -/
theorem yields_constantValue {s : Schema} {known : Known} (hc : s.Complete known) {name : String}
    {n : Int} : Yields (s.constantValue name) known n known ↔
      ∃ number, s.resolveConstant? name = some number ∧ known.lookup number = some n := by
  refine (yields_ask hc).trans ⟨fun ⟨hn, _⟩ => ?_, fun ⟨number, hr, hk⟩ => ⟨.constant hr hk, rfl⟩⟩
  cases hn.answered with
  | constant hr hk => exact ⟨_, hr, hk⟩

namespace Flattens

variable {config : Config} {s s' : Schema} {known : Known} (h : Flattens config s s')
  (hc : s.Complete known)

include h hc

/-- Inlining changes nothing but the fields of structures. -/
theorem alike : Alike s s' known where
  scalar type := by
    rw [h.eq_expand]
    exact scalar?_expand
  object type := by
    unfold objectName?
    rw [h.recordOf?_eq, Option.map_map]
    congr 1
    funext p
    exact TypeEntry.specName_expand
  isRecord type := by
    unfold isRecord
    rw [h.recordOf?_eq, Option.isSome_map]
  union name := by
    rw [h.eq_expand]
    exact union?_expand
  constant name n := by
    rw [yields_constantValue hc, yields_constantValue (h.complete hc), h.resolveConstant? name]

/-- The length of an array that a selector chooses is the same before and after, if it has one. -/
theorem selected_agree (hw : known.Words) {union : String} {n : Int} {count count' : Nat}
    (hy : Yields (selectedLength s union n) known (some count) known)
    (hy' : Yields (selectedLength s' union n) known (some count') known) : count = count' := by
  have hc' := h.complete hc
  have hr := remembers_complete hw hc
  have hr' := remembers_complete hw hc'
  obtain ⟨u, m, i, _, hu, hm, hbytes⟩ := exists_of_selectedLength hr hy
  obtain ⟨u', m', i', _, hu', hm', hbytes'⟩ := exists_of_selectedLength hr' hy'
  rw [(h.alike hc).union, hu, Option.some.injEq] at hu'
  subst hu'
  obtain ⟨rfl, rfl⟩ := (hm.transfer (h.alike hc)).unique hm'
  obtain ⟨e, c, ⟨depth, he⟩, hcount, hn⟩ := exists_of_memberBytes hc hr hbytes
  obtain ⟨e', c', ⟨depth', he'⟩, hcount', hn'⟩ := exists_of_memberBytes hc' hr' hbytes'
  have same : Query.Same (.size m'.typeName depth) (.size m'.typeName depth') := rfl
  have hsize : e = e' := h.exact_agree same he.exact he'.exact
  have hlength : c = c' := hcount.agree (fun _ _ _ _ hq ha ha' =>
    h.exact_agree hq ha.exact ha'.exact) hcount'
  rw [hsize, hlength, ← hn'] at hn
  exact_mod_cast hn

end Flattens

end Schema

/-- What one has and the other has as well is the same for both if they agree. -/
theorem iff_of_agree {P Q : α → Prop} (hexists : (∃ a, P a) ↔ ∃ a, Q a)
    (hagree : ∀ a b, P a → Q b → a = b) (a : α) : P a ↔ Q a := by
  constructor
  · intro ha
    obtain ⟨b, hb⟩ := hexists.mp ⟨a, ha⟩
    rwa [hagree a b ha hb]
  · intro ha
    obtain ⟨b, hb⟩ := hexists.mpr ⟨a, ha⟩
    rwa [← hagree b a hb ha]

namespace Registry

/-- Whatever is evaluated where a field is read has a value in both registries or in none. -/
structure EvaluatesAlike (r r' : Registry) (f : Field) : Prop where
  texts : ∀ text ∈ decodedTexts f, (∃ n, (r.calculate (·.evaluate text)).1 = .ok n) ↔
    ∃ n, (r'.calculate (·.evaluate text)).1 = .ok n
  selected : f.marshal = .selectedArray → ∀ n,
    (∃ count, (r.calculate (selectedLength · f.typeName n)).1 = .ok (some count)) ↔
      ∃ count, (r'.calculate (selectedLength · f.typeName n)).1 = .ok (some count)

/-- What is evaluated gives the same values before and after inlining, if any. -/
theorem EvaluatesAlike.sameValues {config : Config} {r r' : Registry} {f : Field}
    (h : r.EvaluatesAlike r' f) (hflat : r.Flattens config r'.toSchema) (hs : r.Settled)
    (hs' : r'.Settled) (hknown : r'.known = r.known) :
    SameValues r.toSchema r'.toSchema r.known f := by
  have found : ∀ {r : Registry}, r.Settled → ∀ text,
      (∃ n, (r.calculate (·.evaluate text)).1 = .ok n) ↔
        ∃ n, Yields (r.toSchema.evaluate text) r.known n r.known := by
    intro r hs text
    refine exists_congr fun n => Registry.calculate_eq_ok.trans ⟨?_, fun hy => ⟨_, hy⟩⟩
    exact fun ⟨_, hy⟩ => ((Schema.evaluate_keeps hs.remembers text).yields_iff.mp hy).1
  have chosen : ∀ {r : Registry}, r.Settled → ∀ union n,
      (∃ count, (r.calculate (selectedLength · union n)).1 = .ok (some count)) ↔
        ∃ count, Yields (selectedLength r.toSchema union n) r.known (some count) r.known := by
    intro r hs union n
    refine exists_congr fun n => Registry.calculate_eq_ok.trans ⟨?_, fun hy => ⟨_, hy⟩⟩
    exact fun ⟨_, hy⟩ => ((selectedLength_keeps hs.remembers union _).yields_iff.mp hy).1
  constructor
  · intro text htext
    have hexists := (h.texts text htext).trans (found hs' text)
    rw [found hs text, hknown] at hexists
    exact iff_of_agree hexists.symm fun n' n hy' hy =>
      (hflat.evaluate_agree hs.complete (hflat.complete hs.complete) hy hy').symm
  · intro hm n
    have hexists := (h.selected hm n).trans (chosen hs' f.typeName n)
    rw [chosen hs f.typeName n, hknown] at hexists
    exact iff_of_agree hexists.symm fun count' count hy' hy =>
      (hflat.selected_agree hs.complete hs.words hy hy').symm

end Registry

/-- All bytes are decoded as the structure that is read from them. -/
theorem Wire.decode_iff_decoded {r : Registry} (hs : r.Settled) {type : String}
    {bytes : List UInt8} {v : Value} : r.decode type bytes = .ok v ↔
      Decoded r.toSchema r.known type ⟨bytes, 0, r.known⟩ v ⟨[], bytes.length, r.known⟩ := by
  rw [Registry.decode_eq_ok hs, yields_decode hs.remembers]
  exact ⟨fun ⟨_, hread⟩ => ⟨_, hread⟩, fun ⟨_, hread⟩ => ⟨rfl, decodes_levels hs.remembers hread⟩⟩

/-- Inlining wrappers keeps the bytes of structures, and their values but for the flattening. A
field is inlined if its type is a wrapper in the end. -/
theorem decode_inlineWrappers {tables : List Table} {config config' : Config} {r r' : Registry}
    {report : ExtractionReport} {n : Nat}
    (hextract : Extraction.extract tables config' = .ok (r, report))
    (hinline : Yields (Edit.inlineWrappers config) r n r')
    (hdistinct : ∀ t ∈ r'.types, ∀ x, t.record? = some x → (x.fields.map (·.name)).Nodup)
    (hdomains : ∀ t ∈ r.types, ∀ x, t.record? = some x → ∀ f ∈ x.fields,
      (r'.wrapperOf? config t.specName f).isSome = true → f.domain.isEmpty = true)
    (hvalues : ∀ t ∈ r.types, ∀ x, t.record? = some x → ∀ f ∈ x.fields, r.EvaluatesAlike r' f)
    (type : String) (bytes : List UInt8) (v' : Value) :
    r'.decode type bytes = .ok v' ↔ ∃ v, r.decode type bytes = .ok v ∧
      v' = flatten r.toSchema r'.toSchema config type v := by
  obtain ⟨hs, htabled⟩ := Extraction.tabled_of_extract hextract
  obtain ⟨hinlined, hknown⟩ := Edit.inlined_of_inlineWrappers htabled.names hinline
  have hflat : r.Flattens config r'.toSchema := ⟨hinlined, htabled, hdomains⟩
  have hs' : r'.Settled := ⟨hknown ▸ hs.words, hknown ▸ hflat.complete hs.complete⟩
  have hflattened : Flattened config r.toSchema r'.toSchema r.known :=
    { hflat with
      distinct := hdistinct
      alike := hflat.alike hs.complete
      values := fun t ht x hx f hf =>
        (hvalues t ht x hx f hf).sameValues hflat hs hs' hknown
      remembers := hs.remembers
      remembers' := hknown ▸ hs'.remembers }
  rw [decode_iff_decoded hs', hknown, hflattened.decoded_iff]
  exact exists_congr fun v => and_congr_left' (decode_iff_decoded hs).symm

section Examples

/-- What tables are extracted to. -/
def extractedOf (tables : List Table) : Registry :=
  match Extraction.extract tables {} with
  | .ok (r, _) => r
  | .error _ => default

theorem extract_extractedOf {tables : List Table}
    (h : (Extraction.extract tables {}).toOption.isSome = true) :
    ∃ report, Extraction.extract tables {} = .ok (extractedOf tables, report) := by
  obtain ⟨⟨r, report⟩, hr⟩ := Option.isSome_iff_exists.mp h
  have hr := ok_of_toOption hr
  refine ⟨report, ?_⟩
  unfold extractedOf
  rw [hr]

/-- What tables are extracted to, with wrappers inlined. -/
def inlinedOf (tables : List Table) : Registry :=
  (Id.run ((Edit.inlineWrappers {}).run (extractedOf tables))).2

/-- Tables are extracted, and what they are extracted to is inlined, to structures in which field
names are distinct; and inlined fields have no domains. -/
def inlines (tables : List Table) : Bool :=
  (Extraction.extract tables {}).toOption.isSome &&
    (Id.run ((Edit.inlineWrappers {}).run (extractedOf tables))).1.toOption.isSome &&
    ((inlinedOf tables).types.all fun t => t.record?.all fun x =>
      decide (x.fields.map (·.name)).Nodup) &&
    (extractedOf tables).types.all fun t => t.record?.all fun x => x.fields.all fun f =>
      !((inlinedOf tables).wrapperOf? {} t.specName f).isSome || f.domain.isEmpty

theorem of_inlines {tables : List Table} (h : inlines tables = true) :
    (∃ report, Extraction.extract tables {} = .ok (extractedOf tables, report)) ∧
      (∃ n, Yields (Edit.inlineWrappers {}) (extractedOf tables) n (inlinedOf tables)) ∧
      (∀ t ∈ (inlinedOf tables).types, ∀ x, t.record? = some x →
        (x.fields.map (·.name)).Nodup) ∧
      ∀ t ∈ (extractedOf tables).types, ∀ x, t.record? = some x → ∀ f ∈ x.fields,
        ((inlinedOf tables).wrapperOf? {} t.specName f).isSome = true →
          f.domain.isEmpty = true := by
  unfold inlines at h
  simp only [Bool.and_eq_true] at h
  obtain ⟨⟨⟨hextract, hinline⟩, hdistinct⟩, hdomains⟩ := h
  refine ⟨?_, ?_, fun t ht x hx => ?_, fun t ht x hx f hf hw => ?_⟩
  · exact extract_extractedOf hextract
  · obtain ⟨n, hn⟩ := Option.isSome_iff_exists.mp hinline
    exact ⟨n, yields_of_toOption hn⟩
  · have hall := List.all_eq_true.mp hdistinct t ht
    rw [hx] at hall
    exact of_decide_eq_true hall
  · have hall := List.all_eq_true.mp hdomains t ht
    rw [hx] at hall
    have hfield := List.all_eq_true.mp hall f hf
    rwa [hw] at hfield

/-- Pairs of sized bytes. -/
def pairTables : List Table :=
  [{ caption := "Table 1 — Definition of TPM2B_DATA Structure", comment := "",
     rows := [["size", "UINT16", ""], ["buffer[size]{:4}", "BYTE", ""]], handleCount := 0 },
   { caption := "Table 2 — Definition of TPMS_PAIR Structure", comment := "",
     rows := [["left", "TPM2B_DATA", ""], ["right", "TPM2B_DATA", ""]], handleCount := 0 }]

/-- Bytes as long as a structure whose largest size is calculated only before inlining. -/
def hugeTables : List Table :=
  [{ caption := "Table 1 — Definition of TPM2B_W Structure", comment := "",
     rows := [["size", "UINT16", ""], ["buffer[size]{:0 - 9223372036854775798}", "BYTE", ""]],
     handleCount := 0 },
   { caption := "Table 2 — Definition of TPMS_HUGE Structure", comment := "",
     rows := [["data[0x7FFFFFFFFFFFFFFE]", "BYTE", ""], ["w", "TPM2B_W", ""]],
     handleCount := 0 },
   { caption := "Table 3 — Definition of TPMS_DATA Structure", comment := "",
     rows := [["size", "UINT8", ""], ["data[size]{:sizeof(TPMS_HUGE)}", "BYTE", ""]],
     handleCount := 0 }]

/-- The bytes of a pair, each half in a structure of its own. -/
def wrappedHalves? : Value → Option (List UInt8 × List UInt8)
  | .struct [("left", .struct [("buffer", .bytes left)]),
      ("right", .struct [("buffer", .bytes right)])] => some (left, right)
  | _ => none

/-- The bytes of a pair, each half an array. -/
def halves? : Value → Option (List UInt8 × List UInt8)
  | .struct [("left", .bytes left), ("right", .bytes right)] => some (left, right)
  | _ => none

theorem pair_facts :
    inlines pairTables = true ∧
      ((extractedOf pairTables).types.all fun t => t.record?.all fun x => x.fields.all fun f =>
        f.marshal != .selectedArray && (decodedTexts f).all fun text =>
          ((extractedOf pairTables).calculate (·.evaluate text)).1.toOption.isSome &&
            ((inlinedOf pairTables).calculate (·.evaluate text)).1.toOption.isSome) = true ∧
      (((extractedOf pairTables).decode "TPMS_PAIR" [0, 2, 7, 8, 0, 1, 5]).toOption.map fun v =>
        (wrappedHalves? v, halves? (flatten (extractedOf pairTables).toSchema
          (inlinedOf pairTables).toSchema {} "TPMS_PAIR" v))) =
            some (some ([7, 8], [5]), some ([7, 8], [5])) := by
  decide +kernel

theorem evaluatesAlike_pair : ∀ t ∈ (extractedOf pairTables).types, ∀ x, t.record? = some x →
    ∀ f ∈ x.fields, (extractedOf pairTables).EvaluatesAlike (inlinedOf pairTables) f := by
  intro t ht x hx f hf
  have hall := List.all_eq_true.mp pair_facts.2.1 t ht
  rw [hx] at hall
  have hfield := List.all_eq_true.mp hall f hf
  rw [Bool.and_eq_true] at hfield
  obtain ⟨hm, htexts⟩ := hfield
  refine ⟨fun text htext => ?_, fun hselected => ?_⟩
  · have hboth := List.all_eq_true.mp htexts text htext
    rw [Bool.and_eq_true] at hboth
    obtain ⟨hbefore, hafter⟩ := hboth
    obtain ⟨n, hn⟩ := Option.isSome_iff_exists.mp hbefore
    obtain ⟨n', hn'⟩ := Option.isSome_iff_exists.mp hafter
    exact iff_of_true ⟨n, ok_of_toOption hn⟩ ⟨n', ok_of_toOption hn'⟩
  · rw [hselected] at hm
    cases hm

/-- A pair is decoded as its halves alone where the structures around them are inlined. -/
theorem decode_pair : ∃ v,
    (extractedOf pairTables).decode "TPMS_PAIR" [0, 2, 7, 8, 0, 1, 5] = .ok v ∧
      (inlinedOf pairTables).decode "TPMS_PAIR" [0, 2, 7, 8, 0, 1, 5] =
        .ok (flatten (extractedOf pairTables).toSchema (inlinedOf pairTables).toSchema {}
          "TPMS_PAIR" v) ∧
      wrappedHalves? v = some ([7, 8], [5]) ∧
      halves? (flatten (extractedOf pairTables).toSchema (inlinedOf pairTables).toSchema {}
        "TPMS_PAIR" v) = some ([7, 8], [5]) := by
  obtain ⟨hinlines, -, hdecode⟩ := pair_facts
  obtain ⟨⟨_, hextract⟩, ⟨_, hinline⟩, hdistinct, hdomains⟩ := of_inlines hinlines
  obtain ⟨v, hv, hshape⟩ := Option.map_eq_some_iff.mp hdecode
  obtain ⟨hwrapped, hflat⟩ := Prod.mk.inj hshape
  have hv := ok_of_toOption hv
  exact ⟨v, hv, (decode_inlineWrappers hextract hinline hdistinct hdomains evaluatesAlike_pair
    _ _ _).mpr ⟨v, hv, rfl⟩, hwrapped, hflat⟩

/-- Inlining may make the sums of sizes too large on the way that a largest length is calculated by,
and then an array is not decoded any more. -/
theorem not_decoded_after_inlining : ∃ report n,
    Extraction.extract hugeTables {} = .ok (extractedOf hugeTables, report) ∧
      Yields (Edit.inlineWrappers {}) (extractedOf hugeTables) n (inlinedOf hugeTables) ∧
      (∀ t ∈ (inlinedOf hugeTables).types, ∀ x, t.record? = some x →
        (x.fields.map (·.name)).Nodup) ∧
      (∀ t ∈ (extractedOf hugeTables).types, ∀ x, t.record? = some x → ∀ f ∈ x.fields,
        ((inlinedOf hugeTables).wrapperOf? {} t.specName f).isSome = true →
          f.domain.isEmpty = true) ∧
      (∃ v, (extractedOf hugeTables).decode "TPMS_DATA" [0] = .ok v) ∧
      ∀ v, (inlinedOf hugeTables).decode "TPMS_DATA" [0] ≠ .ok v := by
  have hfacts : inlines hugeTables = true ∧
      ((extractedOf hugeTables).decode "TPMS_DATA" [0]).toOption.isSome = true ∧
      ((inlinedOf hugeTables).decode "TPMS_DATA" [0]).toOption.isNone = true := by
    decide +kernel
  obtain ⟨hinlines, hbefore, hafter⟩ := hfacts
  obtain ⟨⟨report, hextract⟩, ⟨n, hinline⟩, hdistinct, hdomains⟩ := of_inlines hinlines
  obtain ⟨v, hv⟩ := Option.isSome_iff_exists.mp hbefore
  refine ⟨report, n, hextract, hinline, hdistinct, hdomains, ⟨v, ok_of_toOption hv⟩, ?_⟩
  intro w hw
  rw [hw] at hafter
  cases hafter

end Examples

end WireTables
