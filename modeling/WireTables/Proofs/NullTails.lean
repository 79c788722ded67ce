import WireTables.Proofs.Codec
import WireTables.Proofs.Constants
import WireTables.Proofs.Flattening
import WireTables.Proofs.History
import WireTables.Proofs.Normal.PlainTail
import WireTables.Proofs.Wire.Tagged

/-!
# Absent tails and the bytes of structures

A structure of a selector and unions of elementary members is written as the selector and one number
for each union. When it gets an absent tail (`Edit.markNullTails`) its unions become plain numbers
of the common elementary type, so that the same bytes are written of the plain numbers afterwards,
and the null selector alone stands for what was absent (`encode_markNullTails`).

Before, a value tells only the types of the members that it holds. The selector is derived from the
first member of that type, so the bytes are the same only where that member has the selector that is
meant, or where the value gives the selector. A union that is left, since another field of its name
comes first or since it is inherited from a structure that is not configured, takes no plain number;
and a null selector that gets another value with the tail ends the structure after another selector
(`bytesOfModes_differ`).
-/

namespace WireTables

open Wire (Choice Numeric NumbersBytes Tagged Value encodeAt encodeRecord unionStep)

variable {config : Config} {r r' : Registry} {n : Nat} {name : String} {x : Record}
  {sel object : Field} {bodies : List Field}

/-- A number is no structure. -/
theorem not_yields_encodeAt {s : Schema} {v : Value} {w : Int} (hv : v.word? = some w)
    {levels : Nat} {type : String} {k k' : Known} {bytes : List UInt8} :
    ¬ Yields (encodeAt s levels type v) k bytes k' := by
  have hnone : v.fields? = none := by
    cases v with
    | struct fields => cases hv
    | _ => rfl
  cases levels with
  | zero => exact not_yields_throw
  | succ levels =>
    unfold encodeAt encodeRecord
    rw [hnone]
    exact Wire.not_yields_invalid

/-- What a structure of a selector and unions is in the end: it has plain fields under the same
names and ends after the first of them if that is the null selector. -/
structure TailGiven (s s' : Schema) (name : String) (sel : Field) (bodies : List Field)
    (nullSelector : String) : Prop where
  intro ::
  exists_fields : ∃ sel' bodies', s'.allFields name = .ok (sel' :: bodies') ∧
    ((sel' :: bodies').map (·.name)).Nodup ∧ Numeric sel' ∧ sel'.name = sel.name ∧
      sel'.typeName = sel.typeName ∧ List.Forall₂ (fun f f' => f'.name = f.name ∧
        f'.marshal = .plain ∧ ∃ u, (s.lookup? f.typeName).bind TypeEntry.union? = some u ∧
          s.commonScalar f.typeName none u.present = .ok f'.typeName) bodies bodies'
  ends : ∃ t x, s'.recordOf? name = some (t, x) ∧ x.nullTail = some ⟨sel.name, nullSelector⟩
  scalars : ∀ type, s'.scalar? type = s.scalar? type

/-- A structure of a selector and unions gets an absent tail. -/
theorem tailGiven_of_markNullTails (hnames : r.names.Nodup)
    (hy : Yields (Edit.markNullTails config) r n r') (hlisted : name ∈ config.nullTails)
    (hfound : (r.lookup? name).bind TypeEntry.record? = some x) (hbefore : x.nullTail = none)
    (htagged : Tagged r.toSchema name sel bodies)
    (hplain : ∀ fields, r'.allFields name = .ok fields → ∀ f ∈ fields, f.marshal ≠ .unionBody) :
    TailGiven r.toSchema r'.toSchema name sel bodies config.nullSelector := by
  obtain ⟨hrecast, hgiven⟩ := recast_markNullTails hnames hy
  obtain ⟨tail, selector, hparts, hlast, hafter⟩ := hgiven name hlisted x hfound hbefore
  obtain ⟨fields', hfields', hmade⟩ := forall₂_madePlain_collectFields hrecast htagged.fields
    htagged.names
  obtain ⟨sel', bodies', hsel', hbodies', rfl⟩ := List.forall₂_cons_left_iff.mp hmade
  have hnone := hplain _ hfields'
  have hnames' : ((sel' :: bodies').map (·.name)).Nodup := by
    rw [names_of_madePlain (.cons hsel' hbodies')]
    exact htagged.names
  have hselector : Numeric sel' ∧ sel'.name = sel.name ∧ sel'.typeName = sel.typeName := by
    cases hsel' with
    | same =>
      obtain ⟨body, -, hpartner⟩ := htagged.partner
      exact ⟨.inr ⟨htagged.selector, hpartner ▸ rfl⟩, rfl, rfl⟩
    | selector => exact ⟨.inl rfl, rfl, rfl⟩
    | body hm => cases htagged.selector.symm.trans hm
  -- the last union of the structure names the selector, as all of them do
  have hends : selector = sel.name := by
    obtain ⟨part, hpart, hpartner⟩ := Option.bind_eq_some_iff.mp hlast
    obtain ⟨f, hf, hm, hsame, -⟩ := exists_of_mem_tailFields hparts (List.mem_of_getLast? hpart)
    obtain ⟨t, ht, hr⟩ := Option.bind_eq_some_iff.mp hfound
    obtain ⟨inherited, hall, -⟩ := (Schema.hasFields_of_allFields htagged.fields).exists_inherited
      (Schema.recordOf?_of_lookup? ht hr)
    have hmem : f ∈ sel :: bodies := hall ▸ List.mem_append_right _ hf
    rcases List.mem_cons.mp hmem with rfl | hbody
    · cases htagged.selector.symm.trans hm
    · have hselects := (htagged.chosen f hbody).2
      rw [← hsame, hpartner] at hselects
      exact Option.some.inj hselects
  obtain ⟨t', ht', hr'⟩ := Option.bind_eq_some_iff.mp hafter
  refine ⟨⟨sel', bodies', hfields', hnames', hselector.1, hselector.2.1, hselector.2.2, ?_⟩,
    ⟨t', _, Schema.recordOf?_of_lookup? ht' hr', hends ▸ rfl⟩, fun _ => hrecast.scalar?⟩
  refine (forall₂_mem (forall₂_mem hbodies').flip).flip.imp fun f f' h => ?_
  obtain ⟨hf', hf, hplain⟩ := h
  cases hplain with
  | same => exact (hnone f (List.mem_cons_of_mem _ hf') (htagged.chosen f hf).1).elim
  | selector hm => exact (hm (htagged.chosen f hf).1).elim
  | @body u scalar _ hu hscalar => exact ⟨rfl, rfl, u, hu, hscalar⟩

/-- What is given under different names is found under them. -/
theorem lookup_map_of_mem {α : Type} {key : α → String} {g : α → Value} {xs : List α}
    (h : (xs.map key).Nodup) {a : α} (ha : a ∈ xs) :
    (xs.map fun a => (key a, g a)).lookup (key a) = some (g a) := by
  induction xs with
  | nil => cases ha
  | cons b xs ih =>
    obtain ⟨hb, hxs⟩ := List.nodup_cons.mp h
    rw [List.map_cons]
    rcases List.mem_cons.mp ha with rfl | ha
    · exact List.lookup_cons_self
    · have hne : key a ≠ key b := fun heq => hb (List.mem_map.mpr ⟨a, ha, heq⟩)
      rw [List.lookup_cons, beq_false_of_ne hne]
      exact ih hxs ha

/-- What is given besides the numbers of unions determines the selector: it is given itself, or it is
the one of the first member of the type that is held of the union that it names. -/
inductive GivesSelector (r : Registry) (sel object : Field) (u : UnionType) (choices : List Choice)
    (v : Value) (w : Int) : List (String × Value) → Prop where
  | given : GivesSelector r sel object u choices v w [(sel.name, v)]
  | derived {c : Choice} {first : UnionMember} (held : c ∈ choices) (named : c.field = object)
    (found : u.members.find? (·.typeName == c.member.typeName) = some first)
    (value : r.constantValue first.selector = .ok w) : GivesSelector r sel object u choices v w []

/-- The members that are present in a union of such a structure are of elementary types. -/
theorem TailGiven.isSome_scalar? {s s' : Schema} {nullSelector : String}
    (h : TailGiven s s' name sel bodies nullSelector) {c : Choice} {u : UnionType}
    (hc : c.field ∈ bodies) (hu : (s.lookup? c.field.typeName).bind TypeEntry.union? = some u)
    (hpresent : c.member ∈ u.present) : (s.scalar? c.member.typeName).isSome = true := by
  obtain ⟨_, _, -, -, -, -, -, hpairs⟩ := h.exists_fields
  obtain ⟨_, -, -, -, _, hu', hcommon⟩ := exists_of_forall₂ hpairs.flip hc
  cases hu.symm.trans hu'
  obtain ⟨scalar, hscalar, -⟩ := scalar?_of_mem_commonScalar hcommon hpresent
  exact hscalar ▸ rfl

theorem encode_eq_ok_iff {v : Value} {bytes : List UInt8} : r.encode name v = .ok bytes ↔
    ∃ k, Yields (encodeRecord r.toSchema (encodeAt r.toSchema v.height) name v) r.known bytes k :=
  Registry.calculate_eq_ok

section Before

variable (hfound : (r.lookup? name).bind TypeEntry.record? = some x) (hbefore : x.nullTail = none)
  (h : Tagged r.toSchema name sel bodies) (hobject : object ∈ bodies)
  (hpartner : sel.partner = some object.name)

include hfound hbefore h hobject hpartner

/-- What is written for members of the unions. -/
theorem encode_choices {choices : List Choice} {v : Value} {w : Int} {bytes : List UInt8}
    {given : List (String × Value)} {u : UnionType}
    (hu : (r.lookup? object.typeName).bind TypeEntry.union? = some u)
    (hchoices : choices.map (·.field) = bodies)
    (hscalar : ∀ c ∈ choices, (r.scalar? c.member.typeName).isSome = true)
    (hv : v.word? = some w) (hgiven : GivesSelector r sel object u choices v w given) :
    r.encode name (.struct (given ++ choices.map Choice.asMember)) = .ok bytes ↔
      NumbersBytes r.toSchema ((sel.typeName, v) :: choices.map Choice.number) bytes := by
  obtain ⟨t, ht, hr⟩ := Option.bind_eq_some_iff.mp hfound
  have hrecord := Schema.recordOf?_of_lookup? ht hr
  have hnames := h.names
  rw [List.map_cons, ← hchoices, List.map_map, List.nodup_cons] at hnames
  obtain ⟨hnot, hnames⟩ := hnames
  have hmember : ∀ c ∈ choices, (given ++ choices.map Choice.asMember).lookup c.field.name =
      some (.union c.member.typeName c.value) := by
    intro c hc
    have hlookup := lookup_map_of_mem (g := fun c : Choice =>
      Value.union c.member.typeName c.value) hnames hc
    cases hgiven with
    | given =>
      have hne : c.field.name ≠ sel.name := fun heq => hnot (List.mem_map.mpr ⟨c, hc, heq⟩)
      rw [List.singleton_append, Wire.lookup_cons_ne hne]
      exact hlookup
    | derived => exact hlookup
  refine encode_eq_ok_iff.trans ?_
  -- members are numbers, so it does not matter how nested structures are written
  generalize encodeAt r.toSchema
    (Value.struct (given ++ choices.map Choice.asMember)).height = nested
  have hrest : ∀ steps locals k bytes k', Yields (Wire.encodeSteps r.toSchema nested name steps none
      (given ++ choices.map Choice.asMember) locals (bodies.map (unionStep sel))) k bytes k' ↔
        NumbersBytes r.toSchema (choices.map Choice.number) bytes ∧ k' = k := by
    intro steps locals k bytes k'
    refine Wire.yields_numberSteps ?_
    rw [← hchoices, List.map_map, List.forall₂_map_left_iff, List.forall₂_map_right_iff,
      List.forall₂_same]
    intro c hc
    obtain ⟨scalar, hscalar⟩ := Option.isSome_iff_exists.mp (hscalar c hc)
    exact Wire.writesNumber_union rfl hscalar (hmember c hc)
  cases hgiven with
  | given =>
    exact Wire.yields_encodeRecord_tagged h hobject hpartner hrecord hbefore hv
      (fun _ _ _ _ _ => Wire.yields_givenStep rfl List.lookup_cons_self hv) hrest
  | @derived c m hc hnamed hm hw =>
    subst hnamed
    obtain ⟨known, hw⟩ := Registry.calculate_eq_ok.mp hw
    have habsent : (choices.map Choice.asMember).lookup sel.name = none := by
      refine Wire.lookup_eq_none_of_not_mem ?_
      rw [List.map_map]
      exact hnot
    exact Wire.yields_encodeRecord_tagged h hobject hpartner hrecord hbefore hv
      (fun _ _ _ _ _ => Wire.yields_selectorStep_derived h hobject habsent (hmember c hc) hu hm hw)
      hrest

/-- What is written when nothing is held of the unions: the selector of the null member. -/
theorem encode_absent {v : Value} {w : Int} {bytes : List UInt8} {u : UnionType} {m : UnionMember}
    (hu : (r.lookup? object.typeName).bind TypeEntry.union? = some u)
    (hm : (u.nullMember.bind fun i => u.members[i]?) = some m)
    (hw : r.constantValue m.selector = .ok w) (hv : v.word? = some w) :
    r.encode name (.struct (bodies.map fun f => (f.name, .null))) = .ok bytes ↔
      NumbersBytes r.toSchema [(sel.typeName, v)] bytes := by
  obtain ⟨t, ht, hr⟩ := Option.bind_eq_some_iff.mp hfound
  have hrecord := Schema.recordOf?_of_lookup? ht hr
  have hnames := h.names
  rw [List.map_cons, List.nodup_cons] at hnames
  obtain ⟨hnot, hnames⟩ := hnames
  obtain ⟨known, hw⟩ := Registry.calculate_eq_ok.mp hw
  have hnull : ∀ f ∈ bodies, (bodies.map fun f => (f.name, Value.null)).lookup f.name =
      some .null := fun f hf => lookup_map_of_mem hnames hf
  have habsent : (bodies.map fun f => (f.name, Value.null)).lookup sel.name = none := by
    refine Wire.lookup_eq_none_of_not_mem ?_
    rw [List.map_map]
    exact hnot
  refine encode_eq_ok_iff.trans (Wire.yields_encodeRecord_tagged h hobject hpartner hrecord hbefore
    hv (fun _ _ _ _ _ => Wire.yields_selectorStep_derived h hobject habsent
      (hnull object hobject) hu hm hw)
    fun steps locals k bytes k' => Wire.yields_absentSteps ?_ hnull)
  rw [List.forall₂_map_right_iff, List.forall₂_same]
  exact fun f _ => ⟨rfl, f.typeName, sel.name, rfl⟩

end Before

section After

variable {nullSelector : String} {null : Int} {bytes : List UInt8} {v : Value}
  (h : TailGiven r.toSchema r'.toSchema name sel bodies nullSelector)
  (hnull : r'.constantValue nullSelector = .ok null)

include h hnull

/-- What is written of plain numbers when the selector is not the null selector. -/
theorem encode_plain {choices : List Choice} {w : Int}
    (hnames : ((sel :: bodies).map (·.name)).Nodup) (hchoices : choices.map (·.field) = bodies)
    (hmembers : ∀ c ∈ choices, ∃ u, (r.lookup? c.field.typeName).bind TypeEntry.union? = some u ∧
      c.member ∈ u.present) (hv : v.word? = some w) (hne : w ≠ null) :
    r'.encode name (.struct ((sel.name, v) :: choices.map Choice.asPlain)) = .ok bytes ↔
      NumbersBytes r.toSchema ((sel.typeName, v) :: choices.map Choice.number) bytes := by
  obtain ⟨sel', bodies', hfields, hnames', hnumeric, hname, htype, hpairs⟩ := h.exists_fields
  obtain ⟨t, x, hrecord, htail⟩ := h.ends
  obtain ⟨known, hy⟩ := Registry.calculate_eq_ok.mp hnull
  rw [← hchoices, List.map_cons, List.map_map, List.nodup_cons] at hnames
  obtain ⟨hnot, hnames⟩ := hnames
  rw [← hchoices, List.forall₂_map_left_iff] at hpairs
  -- what the structure is afterwards is said in its own fields and elementary types
  rw [← hname] at htail hnot ⊢
  rw [← NumbersBytes.congr h.scalars, ← htype]
  have hnumbers : List.Forall₂ (fun f number => f.marshal = .plain ∧
      (∃ c, r'.scalar? f.typeName = some c ∧ r'.scalar? number.1 = some c) ∧
        (w ≠ null → ((sel'.name, v) :: choices.map Choice.asPlain).lookup f.name = some number.2))
          bodies' (choices.map Choice.number) := by
    rw [List.forall₂_map_right_iff]
    refine (forall₂_mem hpairs).flip.imp fun f' c hc => ?_
    obtain ⟨hmem, hname', hm, u, hu, hscalar⟩ := hc
    obtain ⟨u', hu', hpresent⟩ := hmembers c hmem
    cases hu.symm.trans hu'
    obtain ⟨scalar, hmember, hcommon⟩ := scalar?_of_mem_commonScalar hscalar hpresent
    rw [← h.scalars] at hmember hcommon
    refine ⟨hm, ⟨scalar, hcommon, hmember⟩, fun _ => ?_⟩
    have hother : c.field.name ≠ sel'.name := fun heq => hnot (List.mem_map.mpr ⟨c, hmem, heq⟩)
    rw [hname', Wire.lookup_cons_ne hother]
    exact lookup_map_of_mem (g := Choice.value) hnames hmem
  have hwritten : (∃ k, Yields (encodeRecord r'.toSchema (encodeAt r'.toSchema
      (Value.struct ((sel'.name, v) :: choices.map Choice.asPlain)).height) name
        (.struct ((sel'.name, v) :: choices.map Choice.asPlain))) r'.known bytes k) ↔
          NumbersBytes r'.toSchema ((sel'.typeName, v) ::
            if w = null then [] else choices.map Choice.number) bytes :=
    Wire.yields_encodeRecord_plain hfields hnames' hnumeric hnumbers hrecord htail hy
      List.lookup_cons_self hv fun _ _ _ _ => not_yields_encodeAt hv
  rw [if_neg hne] at hwritten
  exact encode_eq_ok_iff.trans hwritten

/-- What is written when the selector is the null selector. -/
theorem encode_null (hv : v.word? = some null) :
    r'.encode name (.struct [(sel.name, v)]) = .ok bytes ↔
      NumbersBytes r.toSchema [(sel.typeName, v)] bytes := by
  obtain ⟨sel', bodies', hfields, hnames', hnumeric, hname, htype, hpairs⟩ := h.exists_fields
  obtain ⟨t, x, hrecord, htail⟩ := h.ends
  obtain ⟨known, hy⟩ := Registry.calculate_eq_ok.mp hnull
  rw [← hname] at htail ⊢
  rw [← NumbersBytes.congr h.scalars, ← htype]
  have hnumbers : List.Forall₂ (fun f number => f.marshal = .plain ∧
      (∃ c, r'.scalar? f.typeName = some c ∧ r'.scalar? number.1 = some c) ∧
        (null ≠ null → [(sel'.name, v)].lookup f.name = some number.2)) bodies'
          (bodies'.map fun f => (f.typeName, Value.null)) := by
    rw [List.forall₂_map_right_iff, List.forall₂_same]
    intro f' hf'
    obtain ⟨f, -, -, hm, u, -, hscalar⟩ := exists_of_forall₂ hpairs hf'
    obtain ⟨c, hc⟩ := Option.isSome_iff_exists.mp (scalar?_of_commonScalar hscalar nofun)
    rw [← h.scalars] at hc
    exact ⟨hm, ⟨c, hc, hc⟩, fun hne => (hne rfl).elim⟩
  have hwritten : (∃ k, Yields (encodeRecord r'.toSchema
      (encodeAt r'.toSchema (Value.struct [(sel'.name, v)]).height) name
        (.struct [(sel'.name, v)])) r'.known bytes k) ↔ NumbersBytes r'.toSchema
          ((sel'.typeName, v) :: if null = null then [] else
            bodies'.map fun f => (f.typeName, Value.null)) bytes :=
    Wire.yields_encodeRecord_plain hfields hnames' hnumeric hnumbers hrecord htail hy
      List.lookup_cons_self hv fun _ _ _ _ => not_yields_encodeAt hv
  rw [if_pos rfl] at hwritten
  exact encode_eq_ok_iff.trans hwritten

end After

/-- Giving a structure of a selector and unions an absent tail keeps its bytes. What is held of the
unions is written as the plain numbers are afterwards, where the selector is given or is the one of
the first member of the held type, and nothing is written as the null selector alone. -/
theorem encode_markNullTails {u : UnionType} {m : UnionMember} {null : Int} (hnames : r.names.Nodup)
    (hy : Yields (Edit.markNullTails config) r n r') (hlisted : name ∈ config.nullTails)
    (hfound : (r.lookup? name).bind TypeEntry.record? = some x) (hbefore : x.nullTail = none)
    (htagged : Tagged r.toSchema name sel bodies) (hobject : object ∈ bodies)
    (hpartner : sel.partner = some object.name)
    (hplain : ∀ fields, r'.allFields name = .ok fields → ∀ f ∈ fields, f.marshal ≠ .unionBody)
    (hunion : (r.lookup? object.typeName).bind TypeEntry.union? = some u)
    (hmember : (u.nullMember.bind fun i => u.members[i]?) = some m)
    (hnull : r.constantValue m.selector = .ok null)
    (hkept : r'.constantValue config.nullSelector = .ok null) :
    (∀ (choices : List Choice) (v : Value) (w : Int) (given : List (String × Value)),
      choices.map (·.field) = bodies →
      (∀ c ∈ choices, ∃ u, (r.lookup? c.field.typeName).bind TypeEntry.union? = some u ∧
        c.member ∈ u.present) →
      v.word? = some w → w ≠ null → GivesSelector r sel object u choices v w given →
      ∀ bytes, r.encode name (.struct (given ++ choices.map Choice.asMember)) = .ok bytes ↔
        r'.encode name (.struct ((sel.name, v) :: choices.map Choice.asPlain)) = .ok bytes) ∧
    ∀ v : Value, v.word? = some null →
      ∀ bytes, r.encode name (.struct (bodies.map fun f => (f.name, .null))) = .ok bytes ↔
        r'.encode name (.struct [(sel.name, v)]) = .ok bytes := by
  have htail := tailGiven_of_markNullTails hnames hy hlisted hfound hbefore htagged hplain
  constructor
  · intro choices v w given hchoices hmembers hv hne hgiven bytes
    have hscalar : ∀ c ∈ choices, (r.scalar? c.member.typeName).isSome = true := by
      intro c hc
      obtain ⟨u', hu', hpresent⟩ := hmembers c hc
      exact htail.isSome_scalar? (hchoices ▸ List.mem_map_of_mem hc) hu' hpresent
    calc r.encode name (.struct (given ++ choices.map Choice.asMember)) = .ok bytes
        ↔ NumbersBytes r.toSchema ((sel.typeName, v) :: choices.map Choice.number) bytes :=
          encode_choices hfound hbefore htagged hobject hpartner hunion hchoices hscalar hv hgiven
      _ ↔ r'.encode name (.struct ((sel.name, v) :: choices.map Choice.asPlain)) = .ok bytes :=
          (encode_plain htail hkept htagged.names hchoices hmembers hv hne).symm
  · intro v hv bytes
    calc r.encode name (.struct (bodies.map fun f => (f.name, .null))) = .ok bytes
        ↔ NumbersBytes r.toSchema [(sel.typeName, v)] bytes :=
          encode_absent hfound hbefore htagged hobject hpartner hunion hmember hnull hv
      _ ↔ r'.encode name (.struct [(sel.name, v)]) = .ok bytes := (encode_null htail hkept hv).symm

section Modes

/-- Ciphers with modes, and a structure of a selector and modes. -/
def modeTables (record null : String) (modes : List (List String)) (fields : List String) :
    List Table :=
  [{ caption := "Table 1 — Definition of (UINT16) TPM_ALG_ID Constants", comment := "",
     rows := [["TPM_ALG_AES", "6", ""], ["TPM_ALG_SM4", "19", ""], ["TPM_ALG_NULL", null, ""]],
     handleCount := 0 },
   { caption := "Table 2 — Definition of Types for Modes", comment := "",
     rows := [["UINT16", "TPM_MODE", ""]], handleCount := 0 },
   { caption := "Table 3 — Definition of TPMU_SYM_MODE Union", comment := "",
     rows := modes ++ [["null", "", "TPM_ALG_NULL", ""]], handleCount := 0 },
   { caption := "Table 4 — Definition of " ++ record ++ " Structure", comment := "",
     rows := ["algorithm", "TPM_ALG_ID", ""] ::
       fields.map fun f => ["[algorithm]" ++ f, "TPMU_SYM_MODE", ""], handleCount := 0 }]

/-- A number of 16 bits. -/
def shortWord (n : Int) : Value :=
  .number (.ofInt .u16 n)

/-- The registry after the configured structures have got absent tails. -/
def tailed (r : Registry) : Registry :=
  (Id.run ((Edit.markNullTails {}).run r)).2

/-- Each mode has a type of its own, and a structure has two of them. -/
def pairedModes : Registry :=
  extractedOf <| modeTables "TPMT_SYM_DEF" "16"
    [["aes", "TPM_MODE", "TPM_ALG_AES", ""], ["sm4", "UINT16", "TPM_ALG_SM4", ""]]
    ["mode", "padding"]

/-- The selector of a cipher, which is derived from the last mode. -/
def modeSelector : Field :=
  { name := "algorithm", typeName := "TPM_ALG_ID", marshal := .selector, partner := "padding" }

/-- A mode of a cipher. -/
def modeField (name : String) : Field :=
  { name, typeName := "TPMU_SYM_MODE", marshal := .unionBody, partner := "algorithm" }

/-- The mode of the second cipher. -/
def shortMode : UnionMember :=
  { name := "sm4", typeName := "UINT16", selector := "TPM_ALG_SM4" }

/-- The member that stands for absence. -/
def noMode : UnionMember :=
  { name := "null", typeName := "TPMS_NULL_SYM_MODE", selector := "TPM_ALG_NULL" }

/-- The modes of ciphers. -/
def modeUnion : UnionType :=
  { members := [{ name := "aes", typeName := "TPM_MODE", selector := "TPM_ALG_AES" }, shortMode,
      noMode], nullMember := some 2 }

/-- What the tables are extracted to, what it is with an absent tail, and what is written of modes
before that. -/
theorem pairedModes_facts :
    (pairedModes.names.Nodup ∧ (pairedModes.allFields "TPMT_SYM_DEF").toOption =
        some [modeSelector, modeField "mode", modeField "padding"] ∧
      (pairedModes.lookup? "TPMT_SYM_DEF").bind TypeEntry.record? =
        some { fields := [modeSelector, modeField "mode", modeField "padding"] } ∧
      (pairedModes.lookup? "TPMU_SYM_MODE").bind TypeEntry.union? = some modeUnion ∧
      (pairedModes.constantValue "TPM_ALG_NULL").toOption = some 16 ∧
      (pairedModes.constantValue "TPM_ALG_SM4").toOption = some 19) ∧
    ((Id.run ((Edit.markNullTails {}).run pairedModes)).1.toOption = some 1 ∧
      ((tailed pairedModes).allFields "TPMT_SYM_DEF").toOption =
        some [{ modeSelector with marshal := .plain, partner := none },
          { name := "mode", typeName := "UINT16" }, { name := "padding", typeName := "UINT16" }] ∧
      ((tailed pairedModes).constantValue "TPM_ALG_NULL").toOption = some 16) ∧
    (pairedModes.encode "TPMT_SYM_DEF" (.struct [("mode", .union "UINT16" (shortWord 128)),
      ("padding", .union "UINT16" (shortWord 1))])).toOption = some [0, 19, 0, 128, 0, 1] ∧
    (pairedModes.encode "TPMT_SYM_DEF" (.struct [("mode", .null), ("padding", .null)])).toOption =
      some [0, 16] := by
  decide +kernel

theorem tagged_pairedModes : Tagged pairedModes.toSchema "TPMT_SYM_DEF" modeSelector
    [modeField "mode", modeField "padding"] where
  fields := ok_of_toOption pairedModes_facts.1.2.1
  names := by decide
  selector := rfl
  partner := ⟨modeField "padding", by decide, rfl⟩
  chosen := by decide

/-- What was written with both modes of the second cipher, or with none, is written of plain numbers
when the structure has got an absent tail. -/
theorem encode_pairedModes :
    (tailed pairedModes).encode "TPMT_SYM_DEF" (.struct [("algorithm", shortWord 19),
      ("mode", shortWord 128), ("padding", shortWord 1)]) = .ok [0, 19, 0, 128, 0, 1] ∧
    (tailed pairedModes).encode "TPMT_SYM_DEF" (.struct [("algorithm", shortWord 16)]) =
      .ok [0, 16] := by
  obtain ⟨⟨hnames, -, hrecord, hunion, hnull, hvalue⟩, ⟨hmarked, hplain, hkept⟩, hmodes, hnone⟩ :=
    pairedModes_facts
  have hleft : ∀ fields, (tailed pairedModes).allFields "TPMT_SYM_DEF" = .ok fields →
      ∀ f ∈ fields, f.marshal ≠ .unionBody := by
    intro fields hfields
    cases (ok_of_toOption hplain).symm.trans hfields
    decide
  obtain ⟨hchosen, habsent⟩ := encode_markNullTails hnames (yields_of_toOption hmarked) (by decide)
    hrecord rfl tagged_pairedModes (.tail _ (.head _)) rfl hleft hunion (m := noMode) rfl
      (ok_of_toOption hnull) (ok_of_toOption hkept)
  have hfirst : modeUnion.members.find? (·.typeName == shortMode.typeName) = some shortMode := rfl
  constructor
  · refine (hchosen [⟨modeField "mode", shortMode, shortWord 128⟩,
      ⟨modeField "padding", shortMode, shortWord 1⟩] (shortWord 19) 19 [] rfl ?_ rfl (by decide)
      (.derived (.tail _ (.head _)) rfl hfirst (ok_of_toOption hvalue)) _).mp (ok_of_toOption hmodes)
    have hpresent : shortMode ∈ modeUnion.present := by decide
    exact List.forall_mem_cons.mpr ⟨⟨modeUnion, hunion, hpresent⟩,
      List.forall_mem_singleton.mpr ⟨modeUnion, hunion, hpresent⟩⟩
  · exact (habsent (shortWord 16) rfl _).mp (ok_of_toOption hnone)

/-- The members that a selector constant chooses in the unions of the structure, each of them
holding the same number. -/
def chosenModes (r : Registry) (constant : String) (v : Value) : List Choice :=
  ((r.allFields "TPMT_SYM_DEF").toOption.getD []).tail.filterMap fun f => do
    let u ← (r.lookup? f.typeName).bind TypeEntry.union?
    let m ← u.present.find? (·.selector == constant)
    return ⟨f, m, v⟩

/-- The structure gets an absent tail. It begins with its selector and has unions besides, in each
of which the null selector stands for absence and the constant, of another value, chooses a
number. -/
def choosesModes (r : Registry) (constant : String) : Bool :=
  match (Id.run ((Edit.markNullTails {}).run r)).1, r.allFields "TPMT_SYM_DEF" with
  | .ok 1, .ok (sel :: bodies) => sel.marshal == .selector &&
      (r.constantValue constant).toOption.isSome &&
      (r.constantValue constant).toOption != (r.constantValue "TPM_ALG_NULL").toOption &&
      bodies.all fun f => f.marshal == .unionBody && f.partner == some sel.name &&
        ((r.lookup? f.typeName).bind TypeEntry.union?).any fun u =>
          (u.nullMember.bind (u.members[·]?)).any (·.selector == "TPM_ALG_NULL") &&
            u.present.any fun m => m.selector == constant && m.arraySize.isNone
  | _, _ => false

/-- What is written of the members that a constant chooses, and what is written of the selector and
the plain numbers when the structure has got an absent tail. -/
def bytesOfModes (r : Registry) (constant : String) : Option (List UInt8) × Option (List UInt8) :=
  let modes := chosenModes r constant (shortWord 128)
  let selector := shortWord ((r.constantValue constant).toOption.getD 0)
  ((r.encode "TPMT_SYM_DEF" (.struct (modes.map Choice.asMember))).toOption,
    ((tailed r).encode "TPMT_SYM_DEF"
      (.struct (("algorithm", selector) :: modes.map Choice.asPlain))).toOption)

/-- Modes of one type under two selectors. -/
def twinModes : Registry :=
  extractedOf <| modeTables "TPMT_SYM_DEF" "16"
    [["aes", "UINT16", "TPM_ALG_AES", ""], ["sm4", "UINT16", "TPM_ALG_SM4", ""]] ["mode"]

/-- Two modes of one name. -/
def namesakeModes : Registry :=
  extractedOf <| modeTables "TPMT_SYM_DEF" "16" [["aes", "UINT16", "TPM_ALG_AES", ""]]
    ["mode", "mode"]

/-- A null selector that depends on the size of the structure, of which nothing is remembered. -/
def sizedModes : Registry :=
  let tables := modeTables "TPMT_SYM_DEF" "sizeof(TPMT_SYM_DEF) + 2"
    [["aes", "UINT16", "TPM_ALG_AES", ""], ["sm4[4]", "TPM_MODE", "TPM_ALG_SM4", ""]] ["mode"]
  { extractedOf tables with known := [] }

/-- A structure with a mode that derives from another one with a mode, which is not configured. -/
def inheritedModes : Registry :=
  let tables := modeTables "TPMT_SYM_KEY" "16" [["aes", "UINT16", "TPM_ALG_AES", ""]] ["mode"]
  let derived : TypeEntry := TypeEntry.new "TPMT_SYM_DEF"
    (.record { base := "TPMT_SYM_KEY", fields := [modeField "padding"] })
  (extractedOf tables).after [.addType derived none]

/-- Other bytes are written afterwards, or none, where an earlier member has the type of the chosen
one, where the null selector gets another value, and where a union is left because its field shares
its name or is inherited. -/
theorem bytesOfModes_differ :
    (choosesModes twinModes "TPM_ALG_SM4" = true ∧ bytesOfModes twinModes "TPM_ALG_SM4" =
      (some [0, 6, 0, 128], some [0, 19, 0, 128])) ∧
    (choosesModes sizedModes "TPM_ALG_AES" = true ∧ bytesOfModes sizedModes "TPM_ALG_AES" =
      (some [0, 6, 0, 128], some [0, 6])) ∧
    (choosesModes namesakeModes "TPM_ALG_AES" = true ∧ bytesOfModes namesakeModes "TPM_ALG_AES" =
      (some [0, 6, 0, 128, 0, 128], none)) ∧
    (choosesModes inheritedModes "TPM_ALG_AES" = true ∧ bytesOfModes inheritedModes "TPM_ALG_AES" =
      (some [0, 6, 0, 128, 0, 128], none)) := by
  refine ⟨?_, ?_, ?_, ?_⟩ <;> decide +kernel

end Modes

end WireTables
