import WireTables.Proofs.Codec
import WireTables.Proofs.Wire.Bound

/-!
# Encodings and wire sizes

The wire size of a structure bounds the bytes of every value of it whose unions hold members
(`length_le_wireSize`), in every registry in normal form in which the numbers of elements are not
negative, no union has arrays beside other members, and nothing is written for an absent member.
-/

namespace WireTables

namespace Registry

/-- The largest size of a type in bytes. -/
def wireSize (r : Registry) (type : String) : Except Error Nat :=
  (r.calculate (·.wireSize type)).1

/-- A union has only arrays as members, or none. -/
def ArraysAlone (r : Registry) : Prop :=
  ∀ t ∈ r.types, ∀ u, t.union? = some u →
    u.isArrayUnion = true ∨ ∀ m ∈ u.members, m.arraySize = none

/-- The members that stand for absence have no bytes. -/
def AbsentEmpty (r : Registry) : Prop :=
  ∀ t ∈ r.types, ∀ u i m, t.union? = some u → u.nullMember = some i → u.members[i]? = some m →
    r.wireSize m.typeName = .ok 0

theorem hasSize_of_wireSize {r : Registry} (h : r.Settled) {type : String} {n : Nat}
    (hn : r.wireSize type = .ok n) : r.toSchema.HasSize r.known type n := by
  obtain ⟨known, hy⟩ := calculate_eq_ok.mp hn
  exact Schema.hasSize_of_wireSize h.complete hy

/-- Whether numbers of elements are negative can be calculated. -/
theorem countsNonnegative_of_all {r : Registry}
    (h : (r.types.all fun t => t.countTexts.all fun text =>
      (Id.run ((r.evaluate text).run r.known)).1.toOption.all (0 ≤ ·)) = true) :
    r.toSchema.CountsNonnegative r.known := by
  intro t ht text htext n hy
  have hall := List.all_eq_true.mp (List.all_eq_true.mp h t ht) text htext
  rw [show (Id.run ((r.evaluate text).run r.known)).1 = .ok n from congrArg Prod.fst hy] at hall
  exact of_decide_eq_true hall

variable {tables : List Table} {config : Config} {r : Registry}

/-- The registry that tables are extracted to, in normal form if it can be brought to it. -/
def ofTables? (tables : List Table) (config : Config) : Option Registry := do
  let (r, _) ← (Extraction.extract tables config).toOption
  match Id.run ((Edit.normalize config).run r) with
  | (.ok (), r') => some r'
  | (.error _, _) => none

theorem normalized_of_ofTables? (h : ofTables? tables config = some r) :
    r.Normalized tables config := by
  obtain ⟨⟨r₀, report⟩, hextract, h⟩ := Option.bind_eq_some_iff.mp h
  dsimp only at h
  split at h
  · next r' hy =>
    obtain rfl := Option.some.inj h
    exact ⟨r₀, report, ok_of_toOption hextract, hy⟩
  · cases h

/-- Tables that can be brought to normal form have a registry in it. -/
theorem normalized_getD (h : (ofTables? tables config).isSome = true) :
    ((ofTables? tables config).getD default).Normalized tables config := by
  obtain ⟨r, hr⟩ := Option.isSome_iff_exists.mp h
  rw [hr]
  exact normalized_of_ofTables? hr

/-- Sizes are bounds in a registry in normal form. -/
theorem Normalized.measured (hr : r.Normalized tables config)
    (hcounts : r.toSchema.CountsNonnegative r.known) (harrays : r.ArraysAlone)
    (habsent : r.AbsentEmpty) : r.toSchema.Measured r.known where
  words := hr.normal.tailed.sound.settled.words
  complete := hr.normal.tailed.sound.settled.complete
  standard _ ht _ hk := hr.normal.tailed.sound.shaped.standard_of_mem ht hk
  counts := hcounts
  single union u hfield hu m hm := by
    obtain ⟨t, ht, hunion⟩ := Option.bind_eq_some_iff.mp hu
    obtain ⟨hmem, hname⟩ := Schema.mem_of_lookup? ht
    rcases harrays t hmem u hunion with harray | hnone
    · exact (hr.apart union ⟨t, hmem, hname, u, hunion, harray⟩ hfield).elim
    · obtain ⟨x, hx, rfl⟩ := List.mem_map.mp hm
      exact hnone x.1 (List.fst_mem_of_mem_zipIdx (List.mem_filter.mp hx).1)
  absent union u i m hu hi hm n hn := by
    obtain ⟨t, ht, hunion⟩ := Option.bind_eq_some_iff.mp hu
    have hzero := habsent t (Schema.mem_of_lookup? ht).1 u i m hunion hi hm
    exact hn.unique (hasSize_of_wireSize hr.normal.tailed.sound.settled hzero)

theorem Normalized.sizesPaired (hr : r.Normalized tables config) {type : String}
    {fields : List Field} (h : r.allFields type = .ok fields) : SizesPaired fields := by
  obtain ⟨t, -, x, -, -, rfl, hclean, -⟩ := hr.normal.exists_of_allFields h
  exact Schema.sizesPaired_of_clean hclean

end Registry

namespace Wire

section Packet

/-- Packets with a body of a kind or none, and at most four counted bytes. -/
def packetTables : List Table :=
  [{ caption := "Table 1 — Definition of (UINT16) TPM_KIND Constants", comment := "",
     rows := [["TPM_KIND_WORD", "1", ""], ["TPM_KIND_NONE", "0", ""]], handleCount := 0 },
   { caption := "Table 2 — Definition of TPMU_BODY Union", comment := "",
     rows := [["word", "UINT16", "TPM_KIND_WORD", ""], ["none", "", "TPM_KIND_NONE", ""]],
     handleCount := 0 },
   { caption := "Table 3 — Definition of TPMS_PACKET Structure", comment := "",
     rows := [["kind", "UINT16", ""], ["size", "UINT16", ""], ["[kind]body", "TPMU_BODY", ""],
       ["data[size]\x7b:4\x7d", "BYTE", ""]], handleCount := 0 }]

/-- The registry of packets. -/
def packets : Registry :=
  (Registry.ofTables? packetTables {}).getD default

/-- A packet with a body and as many bytes as there can be. -/
def packetFields : List (String × Value) :=
  [("body", .union "UINT16" (.number ⟨.u16, 9, by decide⟩)), ("data", .bytes [3, 4, 5, 6])]

/-- The plan of a packet. -/
def packetSteps : List Step :=
  (Id.run ((layout packets.toSchema "TPMS_PACKET").run packets.known)).1.toOption.getD []

/-- What the plan of a packet is, how it travels, and what its types are. Its tables have a normal
form. -/
theorem packet_facts :
    ((Id.run ((layout packets.toSchema "TPMS_PACKET").run packets.known)).1.toOption =
        some packetSteps ∧
      packetSteps.map (fun st => (st.field.name, st.op)) =
        [("kind", .selector ⟨2, false, false⟩ "body" true),
          ("size", .count ⟨2, false, false⟩ "data"),
          ("body", .union "TPMU_BODY" "kind"),
          ("data", .array .byte (.tag "size"))]) ∧
    (packets.types.all fun t => t.countTexts.all fun text =>
      (Id.run ((packets.evaluate text).run packets.known)).1.toOption.all (0 ≤ ·)) = true ∧
    (packets.types.all fun t => t.union?.all fun u =>
      u.members.all (·.arraySize.isNone) && (u.nullMember.bind (u.members[·]?)).all fun m =>
        (packets.wireSize m.typeName).toOption == some 0) = true ∧
    (packets.encode "TPMS_PACKET" (.struct packetFields)).toOption =
      some [0, 1, 0, 4, 0, 9, 3, 4, 5, 6] ∧
    (packets.wireSize "TPMS_PACKET").toOption = some 10 ∧
    (packets.lookup? "TPMU_BODY").bind TypeEntry.union? = some messageBody ∧
    packets.isRecord "UINT16" = false ∧
    (Registry.ofTables? packetTables {}).isSome = true := by
  decide +kernel

theorem normalized_packets : packets.Normalized packetTables {} :=
  Registry.normalized_getD packet_facts.2.2.2.2.2.2.2

theorem yields_packetLayout :
    Yields (layout packets.toSchema "TPMS_PACKET") packets.known packetSteps packets.known := by
  have h := normalized_packets.normal.tailed.sound.settled.remembers
  have hlayout := yields_of_toOption packet_facts.1.1
  rwa [((layout_keeps h _).of_yields rfl hlayout).1] at hlayout

theorem countsNonnegative_packets : packets.toSchema.CountsNonnegative packets.known :=
  Registry.countsNonnegative_of_all packet_facts.2.1

theorem arraysAlone_packets : packets.ArraysAlone := by
  intro t ht u hu
  have hall := List.all_eq_true.mp packet_facts.2.2.1 t ht
  rw [hu, Option.all_some, Bool.and_eq_true] at hall
  exact .inr fun m hm => by simpa using List.all_eq_true.mp hall.1 m hm

theorem absentEmpty_packets : packets.AbsentEmpty := by
  intro t ht u i m hu hi hm
  have hall := List.all_eq_true.mp packet_facts.2.2.1 t ht
  rw [hu, Option.all_some, Bool.and_eq_true, hi, Option.bind_some, hm, Option.all_some] at hall
  exact ok_of_toOption (by simpa using hall.2)

theorem holdsMembers_packet :
    HoldsMembers packets.toSchema packets.known "TPMS_PACKET" (.struct packetFields) := by
  obtain ⟨⟨-, hsteps⟩, -, -, -, -, hbody, hrecord, -⟩ := packet_facts
  have hmem : ∀ steps tail, Plan packets.toSchema packets.known "TPMS_PACKET" steps tail →
      ∀ st ∈ steps, (st.field.name, st.op) ∈ packetSteps.map fun st => (st.field.name, st.op) := by
    intro steps tail hplan st hst
    rw [(yields_packetLayout.unique hplan.layout).1]
    exact List.mem_map_of_mem hst
  rw [hsteps] at hmem
  simp only [List.mem_cons, List.not_mem_nil, or_false, Prod.mk.injEq] at hmem
  refine .struct (fun steps tail hplan st hst union tag hop w hw => ?_)
    fun steps tail hplan st hst w hw inner x hx => ?_
  · rcases hmem steps tail hplan st hst with ⟨hname, h⟩ | ⟨hname, h⟩ | ⟨hname, h⟩ | ⟨hname, h⟩ <;>
      cases hop.symm.trans h
    rw [hname] at hw
    cases hw
    exact .inr ⟨messageBody, hbody,
      .named (m := messageBody.members[0]) (i := 0) (by decide) (by decide)⟩
  · rcases hmem steps tail hplan st hst with ⟨hname, hop⟩ | ⟨hname, hop⟩ | ⟨hname, hop⟩ |
      ⟨hname, hop⟩ <;> rw [hname] at hw <;> cases hw <;> rw [hop] at hx <;> cases hx
    next hr => cases hrecord.symm.trans hr

end Packet

variable {tables : List Table} {config : Config} {r : Registry} {type : String} {v : Value}
  {bytes : List UInt8} {n : Nat}

/-- A value whose unions hold members is encoded in no more bytes than the wire size of its
structure. -/
theorem length_le_wireSize (hr : r.Normalized tables config)
    (hcounts : r.toSchema.CountsNonnegative r.known) (harrays : r.ArraysAlone)
    (habsent : r.AbsentEmpty) (hv : HoldsMembers r.toSchema r.known type v)
    (hencode : r.encode type v = .ok bytes) (hsize : r.wireSize type = .ok n) :
    bytes.length ≤ n := by
  have hm := hr.measured hcounts harrays habsent
  have hsettled := hr.normal.tailed.sound.settled
  have hwrite :=
    ((yields_encodeAt hm.remembers).mp ((Registry.encode_eq_ok hsettled).mp hencode)).1
  exact Int.ofNat_le.mp (length_le_of_encodes hm (fun _ _ => hr.sizesPaired) hwrite hv
    (Registry.hasSize_of_wireSize hsettled hsize))

theorem length_packet :
    packets.encode "TPMS_PACKET" (.struct packetFields) = .ok [0, 1, 0, 4, 0, 9, 3, 4, 5, 6] ∧
      packets.wireSize "TPMS_PACKET" = .ok 10 ∧ [0, 1, 0, 4, 0, 9, 3, 4, 5, 6].length ≤ 10 := by
  have hencode := ok_of_toOption packet_facts.2.2.2.1
  have hsize := ok_of_toOption packet_facts.2.2.2.2.1
  exact ⟨hencode, hsize, length_le_wireSize normalized_packets countsNonnegative_packets
    arraysAlone_packets absentEmpty_packets holdsMembers_packet hencode hsize⟩

end Wire

end WireTables
