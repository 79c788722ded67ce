import WireTables.Proofs.PlanOrder
import WireTables.Proofs.Resolution
import WireTables.Proofs.Wire.RoundTrip

/-!
# How many elements a decoded array has

The number of elements that an array is decoded with comes from one of four places (`Admits`), and
only where it is a count that was read before is it compared with the maximum of the field. So
every counted array inside a decoded value keeps within its maximum (`count_of_decode`). An array of
a fixed length has that length, and one whose length is chosen by a selector the size of a union
member, whether or not that is more than the maximum; one that takes the rest of its region is as
long as the rest. The encoder compares all of them.

The value of a field is found by its name. Where two fields of a structure have one name the value
is that of the last one, and it is not told here which one that is (`Step.Alone`).
-/

namespace WireTables.Wire

/-- A step whose field has a name of its own. -/
def Step.Alone (steps : List Step) (st : Step) : Prop :=
  st ∈ steps ∧ ∀ other ∈ steps, other.field.name = st.field.name → other = st

theorem Step.alone_of_nodup {steps : List Step} {st : Step}
    (h : (steps.map (·.field.name)).Nodup) (hst : st ∈ steps) : st.Alone steps :=
  ⟨hst, fun _ hother hname => List.inj_on_of_nodup_map h hother hst hname⟩

/-- A structure, or one somewhere inside it, has so many elements in an array field. -/
inductive HoldsArray (s : Schema) (known : Known) :
    String → Value → Field → ArrayLength → Nat → Prop
  | here {type fields steps tail element length w count} {st : Step}
    (hplan : Plan s known type steps tail) (hst : st.Alone steps)
    (hop : st.op = .array element length) (hw : fields.lookup st.field.name = some w)
    (hcount : w.length? = some count) :
    HoldsArray s known type (.struct fields) st.field length count
  | inside {type fields steps tail w inner x f length count} {st : Step}
    (hplan : Plan s known type steps tail) (hst : st.Alone steps)
    (hw : fields.lookup st.field.name = some w) (hx : Inside s st.op w inner x)
    (h : HoldsArray s known inner x f length count) :
    HoldsArray s known type (.struct fields) f length count

/-- A number of elements that an array can be decoded with. -/
inductive Admits (s : Schema) (known : Known) (f : Field) : ArrayLength → Nat → Prop
  | tag {field count} (hmax : WithinMaximum s known f count) : Admits s known f (.tag field) count
  | fixed {count} : Admits s known f (.fixed count) count
  | selected {union selector n count}
    (hc : Yields (selectedLength s union n) known (some count) known) :
    Admits s known f (.selected union selector) count
  | rest {count} : Admits s known f .rest count

section Entries

variable {name : String} {w : Value}

theorem lookup_putField {other : String} {v : Value} {fields : List (String × Value)} :
    (Value.putField name v fields).lookup other =
      if other = name then some v else fields.lookup other := by
  induction fields with
  | nil =>
    unfold Value.putField
    by_cases h : other = name
    · rw [if_pos h, h, List.lookup_cons_self]
    · rw [if_neg h, lookup_cons_ne h]
  | cons p fields ih =>
    obtain ⟨first, old⟩ := p
    unfold Value.putField
    by_cases hfirst : first = name
    · subst hfirst
      rw [if_pos (beq_self_eq_true _)]
      by_cases h : other = first
      · rw [if_pos h, h, List.lookup_cons_self]
      · rw [if_neg h, lookup_cons_ne h, lookup_cons_ne h]
    · rw [beq_false_of_ne hfirst, if_neg Bool.false_ne_true]
      by_cases h : other = first
      · rw [h, List.lookup_cons_self, List.lookup_cons_self, if_neg hfirst]
      · rw [lookup_cons_ne h, lookup_cons_ne h, ih]

/-- What is found under a name was put in under it, or was there before. -/
theorem mem_of_lookup_putFields {fields entries : List (String × Value)}
    (h : (Value.putFields fields entries).lookup name = some w) :
    (name, w) ∈ entries ∨ fields.lookup name = some w := by
  induction entries generalizing fields with
  | nil => exact .inr h
  | cons e entries ih =>
    rcases ih h with hmem | hput
    · exact .inl (List.mem_cons_of_mem _ hmem)
    · rw [lookup_putField] at hput
      split at hput
      · next heq =>
        subst heq
        cases hput
        exact .inl List.mem_cons_self
      · exact .inr hput

variable {s : Schema} {known : Known} {nested : String → Reader → Value → Reader → Prop}

/-- Every entry of a structure was read for a field of its name. -/
theorem exists_of_mem_entries {tail : Option (String × Int)} {locals : Locals} {steps : List Step}
    {r r' : Reader} {entries : List (String × Value)}
    (h : ReadsAll s known nested tail locals steps r entries r') (he : (name, w) ∈ entries) :
    ∃ st ∈ steps, st.field.name = name ∧ ∃ before after r₁ r₂,
      Reads s known nested before st.field st.isData st.op r₁ (some w) after r₂ := by
  have own : ∀ {other : String} {v : Option Value}, (name, w) ∈ entry other v →
      other = name ∧ v = some w := fun hmem => by
    obtain ⟨w', hv, heq⟩ := Option.map_eq_some_iff.mp (Option.mem_toList.mp hmem)
    cases heq
    exact ⟨rfl, hv⟩
  induction h with
  | done => cases he
  | last hread =>
    obtain ⟨hname, rfl⟩ := own he
    exact ⟨_, List.mem_cons_self, hname, _, _, _, _, hread⟩
  | more hread _ _ ih =>
    rcases List.mem_append.mp he with he | he
    · obtain ⟨hname, rfl⟩ := own he
      exact ⟨_, List.mem_cons_self, hname, _, _, _, _, hread⟩
    · obtain ⟨st, hst, hfound⟩ := ih he
      exact ⟨st, List.mem_cons_of_mem _ hst, hfound⟩

/-- An array is read with a number of elements that its length admits. -/
theorem admits_of_reads {locals locals' : Locals} {f : Field} {isData : Bool} {element : Element}
    {length : ArrayLength} {r r' : Reader} {count : Nat}
    (h : Reads s known nested locals f isData (.array element length) r (some w) locals' r')
    (hw : w.length? = some count) : Admits s known f length count := by
  cases h with
  | array hc hread =>
    obtain ⟨n, hn, hcount⟩ := length_of_readsElements hread
    obtain rfl : n = count := Option.some.inj (hn.symm.trans hw)
    cases hc with
    | tag _ _ hmax => exact .tag (hcount _ rfl ▸ hmax)
    | other hl hrequired =>
      cases hrequired with
      | tag => exact (hl _ rfl).elim
      | fixed => exact hcount _ rfl ▸ .fixed
      | rest => exact .rest
      | selected _ hc => exact .selected (hcount _ rfl ▸ hc)

end Entries

section Levels

variable {s : Schema} {known : Known} (h : s.Remembers (· = known))

include h

/-- The value of a field whose name is its own was read for it. -/
theorem reads_of_lookup {levels : Nat} {type : String} {r r' : Reader}
    {fields : List (String × Value)} (hread : Decodes s known levels type r (.struct fields) r')
    {steps : List Step} {tail : Option (String × Int)} (hplan : Plan s known type steps tail)
    {st : Step} (hst : st.Alone steps) {w : Value} (hw : fields.lookup st.field.name = some w) :
    ∃ levels' before after r₁ r₂, Reads s known (Decodes s known levels') before st.field st.isData
      st.op r₁ (some w) after r₂ := by
  cases levels with
  | zero => exact (not_yields_throw hread.2).elim
  | succ levels =>
    obtain ⟨-, steps', tail', entries, hplan', hall, heq⟩ := (decodes_succ h).mp hread
    obtain ⟨rfl, rfl⟩ := hplan'.unique hplan
    cases heq
    rcases mem_of_lookup_putFields hw with hmem | hnone
    · obtain ⟨st', hst', hname, before, after, r₁, r₂, hreads⟩ := exists_of_mem_entries hall hmem
      obtain rfl := hst.2 st' hst' hname
      exact ⟨levels, before, after, r₁, r₂, hreads⟩
    · cases hnone

/-- Every array inside a value that was read has a number of elements that its length admits. -/
theorem admits_of_decodes {type : String} {v : Value} {f : Field} {length : ArrayLength}
    {count : Nat} (harray : HoldsArray s known type v f length count) {levels : Nat}
    {r r' : Reader} (hread : Decodes s known levels type r v r') :
    Admits s known f length count := by
  induction harray generalizing levels r r' with
  | here hplan hst hop hw hcount =>
    obtain ⟨_, _, _, _, _, hreads⟩ := reads_of_lookup h hread hplan hst hw
    rw [hop] at hreads
    exact admits_of_reads hreads hcount
  | inside hplan hst hw hx _ ih =>
    obtain ⟨_, _, _, _, _, hreads⟩ := reads_of_lookup h hread hplan hst hw
    obtain ⟨_, _, hinner⟩ := reads_of_inside hreads hx
    exact ih hinner

end Levels

variable {tables : List Table} {config : Config} {r : Registry} {type : String} {v : Value}
  {bytes : List UInt8} {f : Field} {length : ArrayLength} {count : Nat}

/-- A counted array inside a decoded value has at most as many elements as the maximum of its field;
any other array has the number of elements that its length gives. -/
theorem count_of_decode (hr : r.Normalized tables config) (hdecode : r.decode type bytes = .ok v)
    (harray : HoldsArray r.toSchema r.known type v f length count) :
    (∀ tag, length = .tag tag → ∀ text maximum, f.domain.maximum? = some text →
        r.textValue text = .ok maximum → (count : Int) ≤ maximum) ∧
      (∀ n, length = .fixed n → count = n) ∧
      ∀ union selector, length = .selected union selector →
        ∃ n, (r.calculate (selectedLength · union n)).1 = .ok (some count) := by
  have hsettled := hr.normal.tailed.sound.settled
  have h := hsettled.remembers
  obtain ⟨-, hread⟩ := (yields_decode h).mp ((Registry.decode_eq_ok hsettled).mp hdecode)
  cases admits_of_decodes h harray hread with
  | tag hmax =>
    refine ⟨fun _ _ text maximum htext hvalue => ?_, nofun, nofun⟩
    obtain ⟨maximum', hy, hle⟩ := hmax text htext
    obtain ⟨known, hvalue⟩ := Registry.calculate_eq_ok.mp hvalue
    rwa [(hvalue.unique hy).1]
  | fixed =>
    refine ⟨nofun, ?_, nofun⟩
    rintro n ⟨⟩
    rfl
  | selected hc =>
    refine ⟨nofun, nofun, ?_⟩
    rintro union selector ⟨⟩
    exact ⟨_, Registry.calculate_eq_ok.mpr ⟨_, hc⟩⟩
  | rest => exact ⟨nofun, nofun, nofun⟩

section Envelope

/-- The bytes of a packet behind its length. -/
def envelopeBytes : List UInt8 :=
  [0, 10, 0, 1, 0, 4, 0, 9, 3, 4, 5, 6]

/-- The number of bytes in the packet of an envelope. -/
def packetLength? (envelope : Value) : Option Nat := do
  let packet ← (← envelope.fields?).lookup "packet"
  let data ← (← packet.fields?).lookup "data"
  data.length?

theorem struct_of_fields? {v : Value} {fields : List (String × Value)}
    (h : v.fields? = some fields) : v = .struct fields := by
  cases v with
  | struct fs =>
    cases h
    rfl
  | _ => cases h

/-- How many bytes come out of an envelope, and what its plan and that of the packet in it say. -/
theorem envelope_counts :
    (envelopes.decode "TPM2B_PACKET" envelopeBytes).toOption.bind packetLength? = some 4 ∧
      (∀ type ∈ ["TPMS_PACKET", "TPM2B_PACKET"],
        (Id.run ((tailEnd envelopes.toSchema type).run envelopes.known)).1.toOption = some none) ∧
      (envelopes.layout "TPMS_PACKET").toOption.map
        (·.map fun st => (st.field.name, st.op, st.field.domain.maximum?)) =
          some [("kind", .selector ⟨2, false, false⟩ "body" true, none),
            ("size", .count ⟨2, false, false⟩ "data", none),
            ("body", .union "TPMU_BODY" "kind", none),
            ("data", .array .byte (.tag "size"), some "4")] ∧
      (envelopes.textValue "4").toOption = some 4 := by
  decide +kernel

/-- A packet and an envelope have a plan each. -/
theorem plan_of_layout {type : String} {steps : List Step}
    (htype : type ∈ ["TPMS_PACKET", "TPM2B_PACKET"]) (h : envelopes.layout type = .ok steps) :
    Plan envelopes.toSchema envelopes.known type steps none := by
  have hremembers := normalized_envelopes.normal.tailed.sound.settled.remembers
  obtain ⟨known, hlayout⟩ := Registry.calculate_eq_ok.mp h
  have htail := yields_of_toOption (envelope_counts.2.1 type htype)
  rw [((layout_keeps hremembers _).of_yields rfl hlayout).1] at hlayout
  rw [((tailEnd_keeps hremembers _).of_yields rfl htail).1] at htail
  exact ⟨hlayout, htail⟩

/-- A step of a plan whose fields have these different names. -/
theorem alone_of_names {steps : List Step} {st : Step} {names : List String}
    (hnames : steps.map (·.field.name) = names) (hnodup : names.Nodup) (hst : st ∈ steps) :
    st.Alone steps :=
  Step.alone_of_nodup (hnames ▸ hnodup) hst

/-- An envelope that was decoded holds a packet, and that holds four bytes. -/
theorem holdsArray_envelope : ∃ v f, envelopes.decode "TPM2B_PACKET" envelopeBytes = .ok v ∧
    HoldsArray envelopes.toSchema envelopes.known "TPM2B_PACKET" v f (.tag "size") 4 ∧
      f.domain.maximum? = some "4" := by
  obtain ⟨hlength, -, hpacket, -⟩ := envelope_counts
  obtain ⟨v, hdecode, hv⟩ := Option.bind_eq_some_iff.mp hlength
  obtain ⟨fields, hfields, hv⟩ := Option.bind_eq_some_iff.mp hv
  obtain ⟨packet, hp, hv⟩ := Option.bind_eq_some_iff.mp hv
  obtain ⟨inner, hinner, hv⟩ := Option.bind_eq_some_iff.mp hv
  obtain ⟨data, hdata, hcount⟩ := Option.bind_eq_some_iff.mp hv
  obtain rfl := struct_of_fields? hfields
  obtain rfl := struct_of_fields? hinner
  obtain ⟨outer, houter, hsized⟩ := Option.map_eq_some_iff.mp envelope_facts.2.1
  obtain ⟨steps, hsteps, hops⟩ := Option.map_eq_some_iff.mp hpacket
  have houterNames : outer.map (·.field.name) = ["packet"] := by
    have hnames := congrArg (List.map Prod.fst) hsized
    rwa [List.map_map] at hnames
  have hnames : steps.map (·.field.name) = ["kind", "size", "body", "data"] := by
    have hnames := congrArg (List.map Prod.fst) hops
    rwa [List.map_map] at hnames
  -- the one step of an envelope is its packet, and the array of the packet is the last of its steps
  obtain ⟨st, hst, hsame⟩ := List.mem_map.mp (hsized ▸ List.mem_singleton_self _)
  obtain ⟨hname, hop⟩ := Prod.mk.inj hsame
  obtain ⟨last, hlast, hsame⟩ := List.mem_map.mp (hops ▸ List.mem_cons_of_mem _
    (List.mem_cons_of_mem _ (List.mem_cons_of_mem _ (List.mem_singleton_self _))))
  simp only [Prod.mk.injEq] at hsame
  obtain ⟨hfield, harray, hmax⟩ := hsame
  have hheld : HoldsArray envelopes.toSchema envelopes.known "TPMS_PACKET" (.struct inner)
      last.field (.tag "size") 4 :=
    .here (plan_of_layout (by decide) (ok_of_toOption hsteps))
      (alone_of_names hnames (by decide) hlast) harray (hfield ▸ hdata) hcount
  exact ⟨.struct fields, last.field, ok_of_toOption hdecode,
    .inside (plan_of_layout (by decide) (ok_of_toOption houter))
      (alone_of_names houterNames (by decide) hst) (hname ▸ hp) (hop ▸ .sized) hheld, hmax⟩

/-- The four bytes of a packet in an envelope are as many as there can be. -/
theorem count_of_envelope : ∃ v f,
    envelopes.Normalized envelopeTables {} ∧
      envelopes.decode "TPM2B_PACKET" envelopeBytes = .ok v ∧
      HoldsArray envelopes.toSchema envelopes.known "TPM2B_PACKET" v f (.tag "size") 4 ∧
      f.domain.maximum? = some "4" ∧ envelopes.textValue "4" = .ok 4 ∧ ((4 : Nat) : Int) ≤ 4 := by
  obtain ⟨v, f, hdecode, hheld, hmax⟩ := holdsArray_envelope
  have hvalue := ok_of_toOption envelope_counts.2.2.2
  obtain ⟨hcounted, -⟩ := count_of_decode normalized_envelopes hdecode hheld
  exact ⟨v, f, normalized_envelopes, hdecode, hheld, hmax, hvalue,
    hcounted "size" rfl "4" 4 hmax hvalue⟩

end Envelope

end WireTables.Wire
