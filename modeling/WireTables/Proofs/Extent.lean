import WireTables.Proofs.Wire.Regions
import WireTables.Proofs.Wire.SelfDelimiting
import WireTables.Proofs.WireSize

/-!
# Where structures and regions end

What a structure is decoded from does not depend on the bytes after it, and no part of these bytes
is a structure already (`decodeExtent_selfDelimiting`). So structures can be put one after the other
and taken apart again. This holds in every registry, whatever was found out about its constants,
of every structure in whose region no array takes the rest of the bytes; there may be such arrays
inside the structures that have a length in front of them. Which structures share a region is
computed from the fields (`closedUnderRegions`).

The end of an announced region is its start and its size together, counted in 64 bits. The size is a
number of any whole type, and a negative one becomes very large as a number of bytes. So there is a
size for which the end cannot be counted: any negative one that is not further below zero than the
start is above it (`region_overflows_iff`). Decoding stops there, and not with the failure it has
for every other size that is too large. Only a type with a sign or one of eight bytes has such
numbers; normal form asks of the type of a size no more than that it is elementary
(`region_overflows_parcel`).
-/

namespace WireTables

/-- How many bytes a structure takes off the front, and its value. -/
def Registry.decodeExtent (r : Registry) (type : String) (bytes : List UInt8) :
    Nat × Except Wire.Fault Wire.Value :=
  (Wire.decodeExtent r.toSchema type bytes r.known).1

namespace Wire

variable {r : Registry} {type : String}

theorem levels_mono {s : Schema} {m n : Nat} (h : m ≤ n) : levels s m ≤ levels s n := by
  unfold levels
  have := Nat.mul_le_mul_right (s.types.length + 1) (Nat.succ_le_succ h)
  exact Nat.succ_le_succ this

theorem decodeExtent_eq_ok {bytes : List UInt8} {n : Nat} {v : Value} :
    r.decodeExtent type bytes = (n, .ok v) ↔ ∃ left known,
      Yields (decodeAt r.toSchema (levels r.toSchema bytes.length) type) ⟨bytes, 0, r.known⟩ v
        ⟨left, n, known⟩ := by
  unfold Registry.decodeExtent decodeExtent Yields
  show (match Id.run ((decodeAt r.toSchema (levels r.toSchema bytes.length) type).run
      ⟨bytes, 0, r.known⟩) with
    | (result, out) => ((out.position, result), out.known)).1 = _ ↔ _
  generalize Id.run ((decodeAt r.toSchema (levels r.toSchema bytes.length) type).run
    ⟨bytes, 0, r.known⟩) = out
  obtain ⟨result, left, position, known⟩ := out
  simp only [Prod.mk.injEq, Reader.mk.injEq]
  constructor
  · rintro ⟨rfl, rfl⟩
    exact ⟨left, known, rfl, rfl, rfl, rfl⟩
  · rintro ⟨_, _, rfl, -, rfl, -⟩
    exact ⟨rfl, rfl⟩

/-- A structure in whose region no array takes the rest is decoded from the same bytes whatever
comes after them, and from no fewer of them. -/
theorem decodeExtent_selfDelimiting (hrest : RegionWithoutRest r.toSchema type)
    {bytes : List UInt8} {n : Nat} {v : Value} (h : r.decodeExtent type bytes = (n, .ok v)) :
    n ≤ bytes.length ∧ (∀ more, r.decodeExtent type (bytes ++ more) = (n, .ok v)) ∧
      ∀ m < n, ∃ fault, (r.decodeExtent type (bytes.take m)).2 = .error fault := by
  obtain ⟨left, known, hy⟩ := decodeExtent_eq_ok.mp h
  obtain ⟨taken, ht⟩ := selfDelimiting_decodeAt hrest _ _ _ hy
  obtain rfl : n = taken.length := ht.position.trans (Nat.zero_add _)
  have hbytes : bytes = taken ++ left := ht.left
  have hle : taken.length ≤ bytes.length := by
    rw [hbytes, List.length_append]
    exact Nat.le_add_right _ _
  refine ⟨hle, fun more => ?_, fun m hm => ?_⟩
  · have hlonger : levels r.toSchema bytes.length ≤ levels r.toSchema (bytes ++ more).length :=
      levels_mono (by rw [List.length_append]; exact Nat.le_add_right _ _)
    have hwhole := extends_decodeAt hlonger type _ _ _ (ht.whole (left ++ more))
    rw [← List.append_assoc, ← hbytes] at hwhole
    exact decodeExtent_eq_ok.mpr ⟨left ++ more, known, hwhole⟩
  · cases hout : (r.decodeExtent type (bytes.take m)).2 with
    | error fault => exact ⟨fault, rfl⟩
    | ok w =>
      -- With fewer bytes there are fewer levels, and with more levels there is the same value.
      obtain ⟨left', known', hy'⟩ := decodeExtent_eq_ok.mp (Prod.ext rfl hout)
      have hshorter : levels r.toSchema (bytes.take m).length ≤ levels r.toSchema bytes.length :=
        levels_mono (List.length_take_le' m bytes)
      have hfront : bytes.take m = taken.take m := by
        rw [hbytes, List.take_append_of_le_length (Nat.le_of_lt hm)]
      refine (ht.cut (bytes.take m) (hfront ▸ List.take_prefix m taken) (fun heq => ?_) w _
        (extends_decodeAt hshorter type _ _ _ hy')).elim
      have hlen := congrArg List.length heq
      rw [hfront, List.length_take] at hlen
      omega

end Wire

namespace Schema

open Wire

/-- The structures that a field can hold in the region of its own structure. -/
def sharedBy (s : Schema) (f : Field) : List String :=
  match f.marshal with
  | .plain | .fixedArray | .countedArray => (objectName? s f.typeName).toList
  | .unionBody =>
    match (s.lookup? f.typeName).bind TypeEntry.union? with
    | some u =>
      (u.members.zipIdx.filter fun (m, i) => u.nullMember != some i && s.isRecord m.typeName).map
        (·.1.typeName)
    | none => []
  | _ => []

/-- The structures hold no others in their regions, and no array takes the rest of one. -/
def closedUnderRegions (s : Schema) (types : List String) : Bool :=
  types.all fun type => (s.allFields type).toOption.all fun fields => fields.all fun f =>
    f.marshal != .restArray && (s.sharedBy f).all types.contains

variable {s : Schema}

theorem mem_sharedBy {fields : List Field} {f : Field} {op : Op} {isData : Bool} {inner : String}
    (hop : Travels s fields f op isData) (hinner : op.Holds s inner)
    (hsized : ∀ c object, op ≠ .sized c object) (hrest : f.marshal ≠ .restArray) :
    inner ∈ s.sharedBy f := by
  have named : ∀ {owner type}, elementOf s owner f = .ok (.object type) →
      objectName? s f.typeName = some type := by
    intro owner type he
    unfold elementOf at he
    split at he
    · next hname =>
      cases he
      exact hname
    · obtain ⟨c, -, he⟩ := bind_eq_ok.mp he
      split at he <;> cases he
  unfold sharedBy
  cases hop with
  | scalar | constant | count | selector | selected => cases hinner
  | object hm ht =>
    cases hinner
    rw [hm, ht]
    exact List.mem_singleton_self _
  | counted hm _ he | fixed hm he =>
    cases hinner with
    | element =>
      rw [hm, named he]
      exact List.mem_singleton_self _
  | rest hm => exact (hrest hm).elim
  | sized => exact (hsized _ _ rfl).elim
  | union hm =>
    cases hinner with
    | @member _ _ u m i hu hmem hi hr =>
      rw [hm]
      simp only [hu]
      refine List.mem_map.mpr ⟨(m, i), List.mem_filter.mpr ⟨hmem, ?_⟩, rfl⟩
      simp [hi, hr]

/-- Structures that hold no others in their regions share them with no others. -/
theorem regionWithoutRest_of_closed {types : List String} (h : s.closedUnderRegions types = true)
    {type : String} (htype : type ∈ types) : RegionWithoutRest s type := by
  have closed : ∀ type ∈ types, ∀ fields, s.allFields type = .ok fields → ∀ f ∈ fields,
      f.marshal ≠ .restArray ∧ ∀ inner ∈ s.sharedBy f, inner ∈ types := by
    intro type htype fields hfields f hf
    have hall := List.all_eq_true.mp h type htype
    rw [hfields] at hall
    have hfield := List.all_eq_true.mp hall f hf
    rw [Bool.and_eq_true] at hfield
    exact ⟨by simpa using hfield.1, by simpa using hfield.2⟩
  intro last hlast
  induction hlast with
  | refl => exact fun fields hfields f hf => (closed _ htype fields hfields f hf).1
  | step hfields hf hop hinner hsized _ ih =>
    obtain ⟨hrest, hshared⟩ := closed _ htype _ hfields _ hf
    exact ih (hshared _ (mem_sharedBy hop hinner hsized hrest))

end Schema

namespace Wire

section Sealed

/-- Identities of which one part takes the rest of a region, after their length, and sealed ones
with something before and after them. -/
def sealedTables : List Table :=
  [{ caption := "Table 1 — Definition of (UINT16) TPM_KIND Constants", comment := "",
     rows := [["TPM_KIND_WORD", "1", ""], ["TPM_KIND_NONE", "0", ""]], handleCount := 0 },
   { caption := "Table 2 — Definition of TPMU_BODY Union", comment := "",
     rows := [["word", "UINT16", "TPM_KIND_WORD", ""], ["none", "", "TPM_KIND_NONE", ""]],
     handleCount := 0 },
   { caption := "Table 3 — Definition of TPM2B_DATA Structure", comment := "",
     rows := [["size", "UINT16", ""], ["buffer[size]\x7b:4\x7d", "BYTE", ""]], handleCount := 0 },
   { caption := "Table 4 — Definition of TPMS_ID_OBJECT Structure", comment := "",
     rows := [["integrity", "TPM2B_DATA", ""], ["encIdentity", "TPM2B_DATA", ""]],
     handleCount := 0 },
   { caption := "Table 5 — Definition of TPM2B_ID_OBJECT Structure", comment := "",
     rows := [["size=", "UINT16", ""], ["credential", "TPMS_ID_OBJECT", ""]], handleCount := 0 },
   { caption := "Table 6 — Definition of TPMS_SEALED Structure", comment := "",
     rows := [["kind", "UINT16", ""], ["[kind]body", "TPMU_BODY", ""],
       ["id", "TPM2B_ID_OBJECT", ""], ["check", "UINT8", ""]], handleCount := 0 }]

/-- The registry of sealed identities. -/
def sealedIds : Registry :=
  (Registry.ofTables? sealedTables {}).getD default

/-- The one of an identity that takes the rest is not the end of a sealed one. -/
theorem sealed_facts :
    sealedIds.closedUnderRegions ["TPMS_SEALED", "TPM2B_ID_OBJECT"] = true ∧
      (sealedIds.allFields "TPMS_ID_OBJECT").toOption.map (·.map (·.marshal)) =
        some [.count, .countedArray, .restArray] ∧
      (sealedIds.decodeExtent "TPMS_SEALED" [0, 1, 0, 9, 0, 5, 0, 1, 5, 7, 8, 255]).1 = 12 ∧
      (sealedIds.decodeExtent "TPMS_SEALED" [0, 1, 0, 9, 0, 5, 0, 1, 5, 7, 8,
        255]).2.toOption.isSome = true := by
  decide +kernel

/-- A sealed identity ends where it ends, though a part of it takes the rest of its region. -/
theorem decodeExtent_sealed : RegionWithoutRest sealedIds.toSchema "TPMS_SEALED" ∧
    ∃ v, sealedIds.decodeExtent "TPMS_SEALED" [0, 1, 0, 9, 0, 5, 0, 1, 5, 7, 8, 255] =
        (12, .ok v) ∧
      (∀ more, sealedIds.decodeExtent "TPMS_SEALED"
        ([0, 1, 0, 9, 0, 5, 0, 1, 5, 7, 8, 255] ++ more) = (12, .ok v)) ∧
      ∃ fault, (sealedIds.decodeExtent "TPMS_SEALED" [0, 1, 0, 9, 0, 5, 0, 1, 5, 7, 8]).2 =
        .error fault := by
  obtain ⟨hclosed, -, hlen, hsome⟩ := sealed_facts
  have hrest := Schema.regionWithoutRest_of_closed hclosed List.mem_cons_self
  obtain ⟨v, hv⟩ := Option.isSome_iff_exists.mp hsome
  have hv : sealedIds.decodeExtent "TPMS_SEALED" [0, 1, 0, 9, 0, 5, 0, 1, 5, 7, 8, 255] =
      (12, .ok v) := Prod.ext hlen (ok_of_toOption hv)
  obtain ⟨-, hmore, hless⟩ := decodeExtent_selfDelimiting hrest hv
  exact ⟨hrest, v, hv, hmore, hless 11 (by decide)⟩

end Sealed

end Wire

namespace Wire

/-- The end of the announced region cannot be counted. -/
def Announcement.Overflows (a : Announcement) : Prop :=
  0x10000000000000000 ≤ a.place.position + a.count

end Wire

/-- Decoding some bytes comes to a length. -/
def Registry.Announces (r : Registry) (type : String) (bytes : List UInt8) :
    Wire.Announcement → Prop :=
  Wire.Announces r.toSchema (Wire.levels r.toSchema bytes.length) type ⟨bytes, 0, r.known⟩

namespace Wire

section Words

variable {s : Schema} {levels : Nat} {type : String} {r : Reader} {a : Announcement}

/-- A length that decoding comes to was read as an elementary value. -/
theorem exists_read_of_announces (h : Announces s levels type r a) :
    ∃ bytes v, scalarValue? a.scalar bytes = some v ∧ v.word? = some a.word := by
  induction h with
  | here _ ha =>
    obtain ⟨-, hr, hw⟩ := ha
    exact ⟨_, _, (yields_readScalar.mp hr).2.1, hw⟩
  | inside _ _ _ ih => exact ih

/-- A negative number is of a type with a sign, or the upper half of one of eight bytes. -/
theorem signed_of_word_neg {c : Scalar} {bytes : List UInt8} {v : Value} {n : Int}
    (hv : scalarValue? c bytes = some v) (hn : v.word? = some n) (hneg : n < 0) :
    c.isBool = false ∧ (c.signed = true ∨ c.size = 8) := by
  unfold scalarValue? at hv
  split at hv
  · cases hv
    have hn : (if (bytes != [0]) = true then (1 : Int) else 0) = n := Option.some.inj hn
    split at hn <;> omega
  · next hbool =>
    refine ⟨by simpa using hbool, ?_⟩
    obtain ⟨kind, hkind, rfl⟩ := Option.map_eq_some_iff.mp hv
    obtain ⟨hsize, hsigned⟩ := NumberKind.size_of_ofSize? hkind
    obtain rfl := Option.some.inj hn
    have hholds := (Number.ofInt kind (ofBigEndian bytes)).holds
    rw [show (Number.ofInt kind (ofBigEndian bytes)).kind = kind from rfl] at hholds
    unfold Number.word at hneg
    rw [← hsize, ← hsigned]
    cases kind
    case u8 | u16 | u32 =>
      unfold NumberKind.holds NumberKind.signed NumberKind.count at hholds
      simp only [Bool.false_eq_true, if_false] at hholds
      rw [Int.bmod_eq_of_le (by omega) (by omega)] at hneg
      omega
    all_goals decide

/-- A size that is not negative is the number of bytes. -/
theorem Announcement.count_of_nonneg (hfits : fitsWord a.word = true) (h : 0 ≤ a.word) :
    (a.count : Int) = a.word := by
  unfold fitsWord at hfits
  unfold count
  simp only [Bool.and_eq_true, decide_eq_true_eq] at hfits
  omega

/-- A negative size stands for as many bytes as are missing from all that 64 bits can count. -/
theorem Announcement.count_of_neg (hfits : fitsWord a.word = true) (h : a.word < 0) :
    (a.count : Int) = 0x10000000000000000 + a.word := by
  unfold fitsWord at hfits
  unfold count
  simp only [Bool.and_eq_true, decide_eq_true_eq] at hfits
  omega

/-- The end of a region cannot be counted just where its size is negative and the start is at least
as far from zero. -/
theorem Announcement.overflows_iff (hfits : fitsWord a.word = true)
    (hplace : a.place.position < 0x8000000000000000) :
    a.Overflows ↔ a.word < 0 ∧ 0 ≤ a.place.position + a.word := by
  have hword := hfits
  unfold fitsWord at hword
  simp only [Bool.and_eq_true, decide_eq_true_eq] at hword
  unfold Overflows
  rcases Int.lt_or_le a.word 0 with hneg | hpos
  · have hcount := Announcement.count_of_neg hfits hneg
    omega
  · have hcount := Announcement.count_of_nonneg hfits hpos
    omega

end Words

variable {r : Registry} {type : String} {bytes : List UInt8}

/-- Decoding fails as a region does where it comes to a region that does. -/
theorem decode_eq_error {F : Fault} (hF : F.Regional) : r.decode type bytes = .error F ↔
    ∃ a, r.Announces type bytes a ∧ a.fault? = some F := by
  have hdecode : r.decode type bytes = .error F ↔
      FailsWith (decode r.toSchema type bytes) r.known F := by
    rw [failsWith_iff]
    rfl
  exact hdecode.trans (failsWith_decode hF)

/-- Where decoding comes to a size, the end of the region cannot be counted if and only if the size
is negative and not further below zero than the region's start is above; the type of such a size has
a sign or eight bytes. Decoding fails there with a failure of its own, which it has nowhere else;
any other size that is negative or larger than what is left is reported as a length. -/
theorem region_overflows_iff (hbytes : bytes.length < 0x8000000000000000) :
    (∀ a, r.Announces type bytes a →
      (a.Overflows ↔ a.word < 0 ∧ 0 ≤ a.place.position + a.word) ∧
      (a.word < 0 → a.scalar.isBool = false ∧ (a.scalar.signed = true ∨ a.scalar.size = 8)) ∧
      (a.Overflows → r.decode type bytes = .error (.regionOverflow a.owner a.field)) ∧
      (¬ a.Overflows → a.word < 0 ∨ a.place.left.length < a.count →
        r.decode type bytes = .error (.length (.announced a.owner a.field a.count)))) ∧
    ∀ owner field, r.decode type bytes = .error (.regionOverflow owner field) →
      ∃ a, r.Announces type bytes a ∧ a.owner = owner ∧ a.field = field ∧ a.Overflows := by
  refine ⟨fun a ha => ?_, fun owner field hfail => ?_⟩
  · obtain ⟨read, v, hread, hword⟩ := exists_read_of_announces ha
    have hfits := fitsWord_word? hword
    have hwithin : a.place.position + a.place.left.length ≤ 0 + bytes.length :=
      within_of_announces ha
    have hiff := Announcement.overflows_iff hfits (by omega)
    refine ⟨hiff, signed_of_word_neg hread hword, fun hover => ?_, fun hends hlong => ?_⟩
    · exact (decode_eq_error (F := .regionOverflow ..) trivial).mpr ⟨a, ha, if_pos hover⟩
    · have hshort : a.place.left.length < a.count := by
        -- a negative size is more than there can be bytes at all
        rcases hlong with hneg | hshort
        · have hcount := Announcement.count_of_neg hfits hneg
          unfold fitsWord at hfits
          simp only [Bool.and_eq_true, decide_eq_true_eq] at hfits
          omega
        · exact hshort
      exact (decode_eq_error (F := .length (.announced ..)) trivial).mpr
        ⟨a, ha, (if_neg hends).trans (if_pos hshort)⟩
  · obtain ⟨a, ha, hfault⟩ := (decode_eq_error (F := .regionOverflow ..) trivial).mp hfail
    unfold Announcement.fault? at hfault
    split at hfault
    · next hover =>
      obtain ⟨howner, hfield⟩ := Fault.regionOverflow.inj (Option.some.inj hfault)
      exact ⟨a, ha, howner, hfield, hover⟩
    · split at hfault <;> cases hfault

section Parcel

/-- Parcels of one byte after their length, which has a sign. -/
def parcelTables : List Table :=
  [{ caption := "Table 1 — Definition of TPMS_PARCEL Structure", comment := "",
     rows := [["value", "UINT8", ""]], handleCount := 0 },
   { caption := "Table 2 — Definition of TPM2B_PARCEL Structure", comment := "",
     rows := [["size=", "INT8", ""], ["body", "TPMS_PARCEL", ""]], handleCount := 0 }]

/-- The registry of parcels. -/
def parcels : Registry :=
  (Registry.ofTables? parcelTables {}).getD default

/-- The structure and the field whose region has no end, if that is how decoding fails. -/
def endless? : Except Fault Value → Option (String × String)
  | .error (.regionOverflow owner field) => some (owner, field)
  | _ => none

theorem eq_of_endless? {result : Except Fault Value} {owner field : String}
    (h : endless? result = some (owner, field)) :
    result = .error (.regionOverflow owner field) := by
  unfold endless? at h
  split at h
  · cases h
    rfl
  · cases h

/-- Parcels have a normal form, and a length of minus one is more than can be counted. -/
theorem parcel_facts : (Registry.ofTables? parcelTables {}).isSome = true ∧
    endless? (parcels.decode "TPM2B_PARCEL" [255, 7]) = some ("TPM2B_PARCEL", "body") := by
  decide +kernel

/-- After one byte, a length of minus one would end the region beyond what can be counted. -/
theorem region_overflows_parcel : ∃ a : Announcement,
    parcels.Normalized parcelTables {} ∧ [(255 : UInt8), 7].length < 0x8000000000000000 ∧
      parcels.Announces "TPM2B_PARCEL" [255, 7] a ∧ a.Overflows ∧
      (a.word < 0 ∧ 0 ≤ a.place.position + a.word) ∧
      (a.scalar.isBool = false ∧ (a.scalar.signed = true ∨ a.scalar.size = 8)) ∧
      parcels.decode "TPM2B_PARCEL" [255, 7] = .error (.regionOverflow a.owner a.field) := by
  have hshort : [(255 : UInt8), 7].length < 0x8000000000000000 := by decide
  obtain ⟨announced, failed⟩ :=
    region_overflows_iff (r := parcels) hshort
  obtain ⟨a, ha, -, -, hover⟩ := failed _ _ (eq_of_endless? parcel_facts.2)
  obtain ⟨hiff, hsigned, hfails, -⟩ := announced a ha
  have hneg := hiff.mp hover
  exact ⟨a, Registry.normalized_getD parcel_facts.1, hshort, ha, hover, hneg, hsigned hneg.1,
    hfails hover⟩

end Parcel

end Wire

end WireTables
