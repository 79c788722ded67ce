import Mathlib.Data.List.TakeWhile
import WireTables.Proofs.Normal.SessionPrefix
import WireTables.Proofs.Schema.Size
import WireTables.Proofs.Wire.Parts

/-!
# The first parameter of a command

What is noted for a command says how its first parameter is written. Where this is a number and what
it counts, or is of a structure of such a pair, its bytes are a number of the noted size and as many
elements; elementary elements have the noted size each (`first_parameter_counted`). The sizes were
looked up before tails became absent and unions were separated, so everything goes back to the
structures of that time.

Elements that are structures have at most the noted size, which is that of the largest one: an
element with less in it takes fewer bytes. And a selector is taken for a number where it comes first
in the structure of a parameter, although it counts nothing (`first_parameter_uneven`).
-/

namespace WireTables

open Wire

/-- The first parameter that is no handle is a number and what it counts right after it, or it is of
a structure of just such a pair. -/
inductive Record.Opens (s : Schema) (x : Record) : List Field → Field → Prop where
  | flat {tag data : Field} {rest : List Field}
    (fields : x.fields.dropWhile (·.isHandle) = tag :: data :: rest)
    (measures : Measures s tag data) : Opens s x [tag, data] data
  | nested {first tag data : Field} {rest : List Field} {t : TypeEntry} {w : Record}
    (fields : x.fields.dropWhile (·.isHandle) = first :: rest) (plain : first.marshal = .plain)
    (record : s.recordOf? first.typeName = some (t, w)) (tail : w.nullTail = none)
    (pair : s.allFields t.specName = .ok [tag, data]) (measures : Measures s tag data)
    (names : tag.name ≠ data.name) : Opens s x [first] data

/-- The bytes are a number in `sizeLen` bytes and as many elements, which take `valLen` bytes each
if they are elementary or bytes of a structure, or happen to. -/
inductive SessionPrefix.Describes (p : SessionPrefix) (s : Schema) (data : Field)
    (bytes : List UInt8) : Prop where
  | intro {n : Nat} {items : List (List UInt8)}
    (bytes_eq : bytes = bigEndian p.sizeLen n ++ items.flatten) (length_eq : items.length = n)
    (room : n < 256 ^ p.sizeLen ∨ 2 ^ 64 ≤ n) (counted : ∀ item ∈ items, Counted s data item)
    (exact : data.marshal = .sizedBody ∨ (s.scalar? data.typeName).isSome = true ∨
      (∀ item ∈ items, item.length = p.valLen) → items.flatten.length = n * p.valLen)

section Describes

variable {s s' : Schema} {data : Field}

/-- Elementary elements, and bytes of a structure, take the size that was looked up. -/
theorem length_of_counted (htraced : s.Traced s') {size : Nat} {k k' : Known}
    (hsize : Yields (s.countedSize data) k size k')
    (hdata : data.marshal = .sizedBody ∨ (s'.scalar? data.typeName).isSome = true)
    {item : List UInt8} (h : Counted s' data item) : item.length = size := by
  unfold Schema.countedSize at hsize
  cases h with
  | @number c _ _ harray hc hbytes =>
    rw [harray, if_neg (by decide)] at hsize
    rw [hbytes.length_eq]
    exact (Schema.wireSize_of_scalar (htraced.scalar _ _ hc) hbytes.size hsize).symm
  | record harray hrecord =>
    rcases hdata with hbody | hscalar
    · cases harray.symm.trans hbody
    · obtain ⟨x, hx, -⟩ := Option.map_eq_some_iff.mp hrecord
      rw [Schema.scalar?_of_isRecord (Option.isSome_iff_exists.mpr ⟨x, hx⟩)] at hscalar
      cases hscalar
  | byte hbody =>
    rw [hbody, if_pos (by decide)] at hsize
    exact (yields_pure.mp hsize).1.symm

/-- Sizes that were looked up for a number and what it counts describe how these are written. -/
theorem describes_of_countPrefixed (htraced : s.Traced s') {p : SessionPrefix} {tag : Field}
    {c : Scalar} {bytes : List UInt8} {k k₁ k' : Known} (hc : s'.scalar? tag.typeName = some c)
    (hsize : Yields (s.wireSize tag.typeName) k p.sizeLen k₁)
    (hvalue : Yields (s.countedSize data) k₁ p.valLen k') (h : CountPrefixed s' data c.size bytes) :
    p.Describes s' data bytes := by
  obtain ⟨hstandard, n, items, rfl, hlength, hroom, hitems⟩ := h
  have hlen : p.sizeLen = c.size :=
    Schema.wireSize_of_scalar (htraced.scalar _ _ hc) hstandard hsize
  refine .intro (hlen ▸ rfl) hlength (hlen ▸ hroom) hitems fun hdata => ?_
  have heach : ∀ item ∈ items, item.length = p.valLen := by
    rcases hdata with hbody | hscalar | heach
    · exact fun item hi => length_of_counted htraced hvalue (.inl hbody) (hitems item hi)
    · exact fun item hi => length_of_counted htraced hvalue (.inr hscalar) (hitems item hi)
    · exact heach
  rw [List.length_flatten, List.map_congr_left heach, List.map_const', List.sum_replicate_nat,
    hlength]

end Describes

section Pair

variable {s s' : Schema} {tag data : Field}

theorem Wire.Measures.tag_ne_plain (h : Measures s tag data) : tag.marshal ≠ .plain := by
  cases h with
  | count hm => exact hm ▸ nofun
  | size hm => exact hm ▸ nofun

theorem Wire.Measures.data_marshal (h : Measures s tag data) :
    data.marshal ≠ .plain ∧ data.marshal.isTag = false := by
  cases h with
  | count _ hm => exact ⟨hm ▸ nofun, hm ▸ rfl⟩
  | size _ hm => exact ⟨hm ▸ nofun, hm ▸ rfl⟩

theorem Wire.Measures.tag_partner (h : Measures s tag data) : tag.partner = some data.name := by
  cases h <;> assumption

/-- A structure of a pair that was looked at for its first field was of the same two fields. -/
theorem fields_eq_pair (htraced : s.Traced s') {name : String} {t : TypeEntry} {x : Record}
    {first : Field} {others : List Field} (hrecord : s.recordOf? name = some (t, x))
    (hfields : x.fields = first :: others) (htag : first.marshal.isTag = true)
    (hpair : s'.HasFields name [tag, data]) (hm : Measures s' tag data) :
    x.fields = [tag, data] := by
  obtain ⟨hplain, hnot⟩ := hm.data_marshal
  obtain ⟨above, own, heq, hown⟩ := htraced.fields name t x _ hrecord hpair
  rw [hfields] at hown ⊢
  cases hown with
  | @cons _ g _ rest hfirst hothers =>
    match above with
    | [] =>
      cases heq
      cases hothers with
      | cons hsecond hnil =>
        cases hnil
        rw [hfirst.resolve_right hm.tag_ne_plain, hsecond.resolve_right hplain]
    | [_] =>
      -- then the second field would be the tag that was looked at
      cases heq
      rw [hfirst.resolve_right hplain, htag] at hnot
      cases hnot
    | _ :: _ :: _ => simp at heq

end Pair

section Request

variable {s s' : Schema} {x y : Record} {p : SessionPrefix} {tag data first : Field}
  {rest : List Field} {c : Scalar} {bytes : List UInt8} {k k' : Known}

/-- The first field that is no handle is the first parameter. -/
theorem parameters_of_dropWhile (h : x.fields.dropWhile (·.isHandle) = first :: rest) :
    ∃ others, x.parameters = first :: others := by
  have hfirst : first.isHandle = false := by
    have hhead := List.head?_dropWhile_not (·.isHandle) x.fields
    rw [h] at hhead
    simpa using hhead
  have hsplit : x.fields = x.fields.takeWhile (·.isHandle) ++ first :: rest := by
    rw [← h, List.takeWhile_append_dropWhile]
  refine ⟨rest.filter (!·.isHandle), ?_⟩
  unfold Record.parameters
  rw [hsplit, List.filter_append, List.filter_cons_of_pos (by rw [hfirst]; rfl),
    List.filter_eq_nil_iff.mpr, List.nil_append]
  intro f hf
  simpa using List.mem_takeWhile_imp hf

/-- The sizes for a number that is the first parameter. -/
theorem describes_flat (htraced : s.Traced s') (hsizes : Yields (s.sessionPrefix y) k (some p) k')
    (hfields : y.fields.dropWhile (·.isHandle) = tag :: data :: rest) (hm : Measures s' tag data)
    (hnames : (y.fields.map (·.name)).Nodup) (hc : s'.scalar? tag.typeName = some c)
    (h : CountPrefixed s' data c.size bytes) : p.Describes s' data bytes := by
  obtain ⟨first, others, hfirst, ⟨-, htag⟩ | ⟨hplain, -⟩⟩ := Schema.exists_of_sessionPrefix hsizes
  all_goals
    obtain ⟨others', hparameters⟩ := parameters_of_dropWhile hfields
    cases hparameters.symm.trans hfirst
  · obtain ⟨data', hdata', k₁, hsize, hvalue⟩ := Schema.exists_of_tagSizes htag
    have hmem : data ∈ y.fields := by
      rw [← List.takeWhile_append_dropWhile (p := (·.isHandle)) (l := y.fields), hfields]
      simp
    rw [hm.tag_partner, Option.bind_some, Record.field?, Schema.find?_of_mem hnames hmem] at hdata'
    cases hdata'
    exact describes_of_countPrefixed htraced hc hsize hvalue h
  · exact (hm.tag_ne_plain hplain).elim

/-- The sizes for the structure of a pair that is the first parameter. -/
theorem describes_nested (htraced : s.Traced s') (hsizes : Yields (s.sessionPrefix y) k (some p) k')
    (hfields : y.fields.dropWhile (·.isHandle) = first :: rest) (hplain : first.marshal = .plain)
    (hpair : s'.HasFields first.typeName [tag, data]) (hm : Measures s' tag data)
    (hne : tag.name ≠ data.name) (hc : s'.scalar? tag.typeName = some c)
    (h : CountPrefixed s' data c.size bytes) : p.Describes s' data bytes := by
  obtain ⟨others, hparameters⟩ := parameters_of_dropWhile hfields
  obtain ⟨first', others', hfirst, ⟨htag, -⟩ |
    ⟨-, t, w, tag', others', hrecord, hinner, htag, hsizes⟩⟩ :=
      Schema.exists_of_sessionPrefix hsizes
  all_goals cases hparameters.symm.trans hfirst
  · rw [hplain] at htag
    rcases htag with htag | htag <;> cases htag
  · have hw := fields_eq_pair htraced hrecord hinner htag hpair hm
    cases hinner.symm.trans hw
    obtain ⟨data', hdata', k₁, hsize, hvalue⟩ := Schema.exists_of_tagSizes hsizes
    rw [hm.tag_partner, Option.bind_some, Record.field?, hw,
      List.find?_cons_of_neg (by simpa using hne), List.find?_cons_of_pos (by simp)] at hdata'
    cases hdata'
    exact describes_of_countPrefixed htraced hc hsize hvalue h

end Request

variable {config : Config} {r r' : Registry}

/-- What is noted for a command by normal form describes its first parameter, in every encoding of
the command, if that parameter is a number with what it counts: the bytes of the command are those
of the fields before it, those of the parameter, and those of the fields after it. -/
theorem first_parameter_counted (hnames : r.names.Nodup)
    (hy : Yields (Edit.normalize config) r () r') {t : TypeEntry} (ht : t ∈ r'.types) {x : Record}
    (hx : t.record? = some x) (hunmarked : r.Unmarked t.specName) {p : SessionPrefix}
    (hp : x.sessionPrefix = some p) (htail : x.nullTail = none)
    (hdistinct : r'.DistinctNames t.specName) {parameter : List Field} {data : Field}
    (hopens : x.Opens r'.toSchema parameter data) {v : Value} {bytes : List UInt8} {k k' : Known}
    (hencode : Yields (encode r'.toSchema t.specName v) k bytes k') :
    ∃ parts before here after, Yields (encodeFields r'.toSchema t.specName v) k parts k' ∧
      bytes = joined parts ∧ parts = before ++ here ++ after ∧
      (∃ inherited, (x.base = none → inherited = []) ∧
        before.map (·.1) = partFields (inherited ++ x.fields.takeWhile (·.isHandle))) ∧
      here.map (·.1) = partFields parameter ∧ p.Describes r'.toSchema data (joined here) := by
  have hpasses := (Edit.passes_of_normalize hy).1
  obtain ⟨s, hrecast, htraced⟩ := Edit.exists_traced hnames hpasses
  have hself : r'.recordOf? t.specName = some (t, x) := Schema.recordOf?_of_lookup?
    (Schema.lookup?_of_mem ((Edit.becomes_of_passes hpasses).names hnames) ht) hx
  rw [encode_eq_parts, yields_map] at hencode
  obtain ⟨parts, hparts, rfl⟩ := hencode
  obtain ⟨fields, hall⟩ := exists_allFields_of_parts hparts
  have hnodup := hdistinct fields hall
  obtain ⟨inherited, rfl, hown⟩ := (Schema.hasFields_of_allFields hall).exists_inherited hself
  have hown' : (x.fields.map (·.name)).Nodup := by
    rw [List.map_append] at hnodup
    exact hnodup.of_append_right
  -- what was looked up, for the fields of the command as they were then
  have looked : x.fields ≠ [] → ∃ y k₁ k₂, y.fields = x.fields ∧
      Yields (s.sessionPrefix y) k₁ (some p) k₂ := fun hsome =>
    htraced.noted t ht x p hx hsome htail hp (hunmarked.recast hrecast)
  have split : inherited ++ x.fields = (inherited ++ x.fields.takeWhile (·.isHandle)) ++
      x.fields.dropWhile (·.isHandle) := by
    rw [List.append_assoc, List.takeWhile_append_dropWhile]
  have hrest := hall
  rw [split] at hrest
  cases hopens with
  | @flat tag _ rest hfields hm =>
    obtain ⟨y, k₁, k₂, hsame, hsizes⟩ := looked fun hnil => by
      rw [hnil] at hfields
      cases hfields
    rw [hfields] at hrest
    obtain ⟨values, before, last, rfl, hbefore, hremaining⟩ :=
      remaining_of_record hself htail hrest hparts
    obtain ⟨here, after, c, rfl, hhere, -, hc, hcounted⟩ := hremaining.countPrefixed hm hall
      (Schema.find?_of_mem hnodup (by rw [split, hfields]; simp))
    exact ⟨_, before, here, after, hparts, rfl, (List.append_assoc ..).symm,
      ⟨inherited, hown, hbefore⟩, hhere,
      describes_flat htraced hsizes (hsame ▸ hfields) hm (hsame ▸ hown') hc hcounted⟩
  | @nested first tag _ rest u w hfields hplain hrecord hnone hpair hm hne =>
    obtain ⟨y, k₁, k₂, hsame, hsizes⟩ := looked fun hnil => by
      rw [hnil] at hfields
      cases hfields
    rw [hfields] at hrest
    obtain ⟨values, before, last, rfl, hbefore, hremaining⟩ :=
      remaining_of_record hself htail hrest hparts
    have hobject : objectName? r'.toSchema first.typeName = some u.specName := by
      unfold objectName?
      rw [hrecord]
      rfl
    obtain ⟨written, after, rfl, -, v', k₃, k₄, hwritten⟩ := hremaining.object hplain hobject
    have hself' := Schema.recordOf?_specName hrecord
    obtain ⟨c, hc, hcounted⟩ := countPrefixed_of_encodeAt hself' hnone hpair hm hwritten
    refine ⟨_, before, [(first, written)], after, hparts, rfl, by simp,
      ⟨inherited, hown, hbefore⟩, by simp [partFields, hplain], ?_⟩
    rw [joined, List.flatMap_singleton]
    exact describes_nested htraced hsizes (hsame ▸ hfields) hplain
      ((Schema.hasFields_of_allFields hpair).of_recordOf? hself' hrecord) hm hne hc hcounted

/-- The parameters of a command that is noted to begin with a number are written in other bytes than
as many elements of the noted size. -/
def Registry.Misnotes (r : Registry) (x : Record) (p : SessionPrefix) (v : Value)
    (before here : List (Field × List UInt8)) : Prop :=
  ∃ t ∈ r.types, t.record? = some x ∧ x.isRequest = true ∧ x.sessionPrefix = some p ∧
    r.DistinctNames t.specName ∧ here.map (·.1) = x.parameters ∧
    ∃ k, Yields (encodeFields r.toSchema t.specName v) r.known (before ++ here) k ∧
      ¬ ∃ n rest, joined here = bigEndian p.sizeLen n ++ rest ∧ rest.length = n * p.valLen

theorem distinctNames_of_allFields {r : Registry} {name : String} {fields : List Field}
    (h : r.allFields name = .ok fields) (hnodup : (fields.map (·.name)).Nodup) :
    r.DistinctNames name := by
  intro fields' hfields'
  cases h.symm.trans hfields'
  exact hnodup

section Store

/-- A command with a place, which is a handle, and a list of items: up to two, of up to three bytes
each. -/
def storeTables : List Table :=
  [{ caption := "Table 1 — Definition of TPMS_ITEM Structure", comment := "",
     rows := [["size", "UINT8", ""], ["buffer[size]\x7b:3\x7d", "BYTE", ""]], handleCount := 0 },
   { caption := "Table 2 — Definition of TPML_ITEM Structure", comment := "",
     rows := [["count", "UINT16", ""], ["items[count]\x7b:2\x7d", "TPMS_ITEM", ""]],
     handleCount := 0 },
   { caption := "TPM2_Store Command", comment := "",
     rows := [["UINT32", "place", ""], ["TPML_ITEM", "list", ""]], handleCount := 1 }]

def placeField : Field :=
  { name := "place", typeName := "UINT32", isHandle := true }

def countField : Field :=
  { name := "listCount", typeName := "UINT16", marshal := .count, partner := some "list" }

def listField : Field :=
  { name := "list", typeName := "TPMS_ITEM", marshal := .countedArray, partner := some "listCount",
    domain := ⟨[.range none (some "2")]⟩ }

/-- The command in normal form. -/
def storeRequest : Record :=
  { fields := [placeField, countField, listField], role := .request "TPM2_Store" "TPM_CC_Store",
    handleCount := 1, sessionPrefix := some ⟨2, 4⟩ }

/-- The command with one item of some bytes. -/
def storeOne (data : List UInt8) : Value :=
  .struct [("place", .number ⟨.u32, 7, by decide⟩),
    ("list", .list [.struct [("buffer", .bytes data)]])]

/-- What has been worked out for the command. -/
structure Stored (r₀ r : Registry) : Prop where
  extracted : ∃ report, Extraction.extract storeTables {} = .ok (r₀, report)
  normalized : Yields (Edit.normalize {}) r₀ () r
  names : r₀.names.Nodup
  unmarked : r₀.Unmarked "TPM2_Store_REQUEST"
  request : ∃ t ∈ r.types, t.specName = "TPM2_Store_REQUEST" ∧ t.record? = some storeRequest
  fields : r.allFields "TPM2_Store_REQUEST" = .ok storeRequest.fields
  full : ∃ k, Yields (encode r.toSchema "TPM2_Store_REQUEST" (storeOne [9, 8, 7])) r.known
    [0, 0, 0, 7, 0, 1, 3, 9, 8, 7] k
  empty : ∃ k, Yields (encodeFields r.toSchema "TPM2_Store_REQUEST" (storeOne [])) r.known
    [(placeField, [0, 0, 0, 7]), (countField, [0, 1]), (listField, [0])] k

theorem exists_stored : ∃ r₀ r, Stored r₀ r := by
  have hfacts : (normalForms? storeTables).map (fun p => decide (
      (p.1.names.Nodup ∧ ∀ t ∈ p.1.types, t.record?.bind (·.sessionPrefix) = none) ∧
      (p.2.lookup? "TPM2_Store_REQUEST").bind TypeEntry.record? = some storeRequest ∧
      (p.2.allFields "TPM2_Store_REQUEST").toOption = some storeRequest.fields ∧
      (Id.run ((encode p.2.toSchema "TPM2_Store_REQUEST" (storeOne [9, 8, 7])).run
        p.2.known)).1.toOption = some [0, 0, 0, 7, 0, 1, 3, 9, 8, 7] ∧
      (Id.run ((encodeFields p.2.toSchema "TPM2_Store_REQUEST" (storeOne [])).run
        p.2.known)).1.toOption =
          some [(placeField, [0, 0, 0, 7]), (countField, [0, 1]), (listField, [0])])) =
      some true := by
    decide +kernel
  obtain ⟨⟨r₀, r⟩, hforms, hfacts⟩ := Option.map_eq_some_iff.mp hfacts
  obtain ⟨hextract, hy⟩ := exists_of_normalForms? hforms
  obtain ⟨⟨hnames, hunmarked⟩, hrequest, hfields, hfull, hempty⟩ := of_decide_eq_true hfacts
  obtain ⟨t, ht, hx⟩ := Option.bind_eq_some_iff.mp hrequest
  obtain ⟨hmem, hname⟩ := Schema.mem_of_lookup? ht
  refine ⟨r₀, r, hextract, hy, hnames, fun t ht _ x hx => ?_, ⟨t, hmem, hname, hx⟩,
    ok_of_toOption hfields, ⟨_, yields_of_toOption hfull⟩, ⟨_, yields_of_toOption hempty⟩⟩
  have := hunmarked t ht
  rwa [hx, Option.bind_some] at this

/-- A full item takes the noted size. -/
theorem first_parameter_counted_store : ∃ r₀ r t,
    (r₀.names.Nodup ∧ Yields (Edit.normalize {}) r₀ () r ∧ t ∈ r.types ∧
      t.specName = "TPM2_Store_REQUEST" ∧ t.record? = some storeRequest ∧
      r₀.Unmarked t.specName ∧ r.DistinctNames t.specName ∧
      storeRequest.Opens r.toSchema [countField, listField] listField) ∧
    ∃ k, Yields (encode r.toSchema t.specName (storeOne [9, 8, 7])) r.known
        [0, 0, 0, 7, 0, 1, 3, 9, 8, 7] k ∧
      ∃ parts before here after,
        Yields (encodeFields r.toSchema t.specName (storeOne [9, 8, 7])) r.known parts k ∧
        [0, 0, 0, 7, 0, 1, 3, 9, 8, 7] = joined parts ∧ parts = before ++ here ++ after ∧
        (∃ inherited, (storeRequest.base = none → inherited = []) ∧
          before.map (·.1) = partFields (inherited ++ [placeField])) ∧
        here.map (·.1) = partFields [countField, listField] ∧
        SessionPrefix.Describes ⟨2, 4⟩ r.toSchema listField (joined here) := by
  obtain ⟨r₀, r, hs⟩ := exists_stored
  obtain ⟨t, ht, hname, hx⟩ := hs.request
  obtain ⟨k, hk⟩ := hs.full
  have hunmarked : r₀.Unmarked t.specName := hname ▸ hs.unmarked
  have hdistinct := distinctNames_of_allFields (hname ▸ hs.fields) (by decide)
  have hopens : storeRequest.Opens r.toSchema [countField, listField] listField :=
    .flat rfl (.count rfl rfl rfl)
  rw [← hname] at hk
  exact ⟨r₀, r, t, ⟨hs.names, hs.normalized, ht, hname, hx, hunmarked, hdistinct, hopens⟩, k, hk,
    first_parameter_counted hs.names hs.normalized ht hx hunmarked rfl rfl hdistinct hopens hk⟩

/-- A command with a place, and a digest after the algorithm that it was made with. -/
def extendTables : List Table :=
  [{ caption := "Table 1 — Definition of (UINT16) TPM_ALG_ID Constants",
     rows := [["TPM_ALG_SHA1", "0x0004", ""], ["TPM_ALG_NULL", "0x0010", ""]] },
   { caption := "Table 2 — Definition of TPMU_HA Union",
     rows := [["sha1[20]", "BYTE", "TPM_ALG_SHA1", ""], ["null", "", "TPM_ALG_NULL", ""]] },
   { caption := "Table 3 — Definition of TPMT_HA Structure",
     rows := [["hashAlg", "TPM_ALG_ID", ""], ["[hashAlg]digest", "TPMU_HA", ""]] },
   { caption := "TPM2_Extend Command", rows := [["UINT32", "place", ""], ["TPMT_HA", "hash", ""]],
     handleCount := 1 }]

def hashField : Field :=
  { name := "hash", typeName := "TPMT_HA" }

/-- The command in normal form. -/
def extendRequest : Record :=
  { fields := [placeField, hashField], role := .request "TPM2_Extend" "TPM_CC_Extend",
    handleCount := 1, sessionPrefix := some ⟨2, 20⟩ }

/-- The command with a digest. -/
def extendBy (digest : List UInt8) : Value :=
  .struct [("place", .number ⟨.u32, 7, by decide⟩),
    ("hash", .struct [("hashAlg", .number ⟨.u16, 4, by decide⟩), ("digest", .bytes digest)])]

/-- The selector in front of a digest is noted as a number of digests, and is none. -/
theorem exists_extended : ∃ r₀ r : Registry,
    (∃ report, Extraction.extract extendTables {} = .ok (r₀, report)) ∧ r₀.names.Nodup ∧
      Yields (Edit.normalize {}) r₀ () r ∧
      (∀ here data, ¬ extendRequest.Opens r.toSchema here data) ∧
      r.Misnotes extendRequest ⟨2, 20⟩ (extendBy (List.replicate 20 9))
        [(placeField, [0, 0, 0, 7])] [(hashField, 0 :: 4 :: List.replicate 20 9)] := by
  have hfacts : (normalForms? extendTables).map (fun p => decide (p.1.names.Nodup ∧
      (p.2.lookup? "TPM2_Extend_REQUEST").bind TypeEntry.record? = some extendRequest ∧
      (p.2.allFields "TPM2_Extend_REQUEST").toOption = some extendRequest.fields ∧
      (p.2.recordOf? "TPMT_HA").map (·.1.specName) = some "TPMT_HA" ∧
      (p.2.allFields "TPMT_HA").toOption.map (·.map (·.marshal)) =
        some [.selector, .selectedArray] ∧
      (Id.run ((encodeFields p.2.toSchema "TPM2_Extend_REQUEST"
        (extendBy (List.replicate 20 9))).run p.2.known)).1.toOption =
          some [(placeField, [0, 0, 0, 7]), (hashField, 0 :: 4 :: List.replicate 20 9)])) =
      some true := by
    decide +kernel
  obtain ⟨⟨r₀, r⟩, hforms, hfacts⟩ := Option.map_eq_some_iff.mp hfacts
  obtain ⟨hextract, hy⟩ := exists_of_normalForms? hforms
  obtain ⟨hnames, hrequest, hfields, hinner, hpair, hencoded⟩ := of_decide_eq_true hfacts
  obtain ⟨t, ht, hx⟩ := Option.bind_eq_some_iff.mp hrequest
  obtain ⟨hmem, hname⟩ := Schema.mem_of_lookup? ht
  have hopens : ∀ here data, ¬ extendRequest.Opens r.toSchema here data := by
    intro here data h
    cases h with
    | flat fields => cases fields
    | nested fields _ record _ pair measures =>
      cases fields
      change r.recordOf? "TPMT_HA" = some _ at record
      rw [record] at hinner
      have hobject : TypeEntry.specName _ = "TPMT_HA" := Option.some.inj hinner
      rw [hobject] at pair
      rw [pair] at hpair
      simp only [Except.toOption, Option.map_some, List.map_cons, List.map_nil, Option.some.injEq,
        List.cons.injEq] at hpair
      obtain ⟨htag, -⟩ := hpair
      cases measures with
      | count marshal | size marshal => cases htag.symm.trans marshal
  refine ⟨r₀, r, hextract, hnames, hy, hopens, t, hmem, hx, rfl, rfl,
    distinctNames_of_allFields (hname ▸ ok_of_toOption hfields) (by decide), rfl, _,
    hname ▸ yields_of_toOption hencoded, ?_⟩
  rintro ⟨n, rest, heq, hlength⟩
  have hbytes := congrArg List.length heq
  rw [List.length_append, length_bigEndian, hlength] at hbytes
  change 22 = 2 + n * 20 at hbytes
  obtain rfl : n = 1 := by omega
  cases heq

/-- An empty item takes one byte, and four are noted for an item. A parameter that begins with a
selector is noted as well. -/
theorem first_parameter_uneven :
    (∃ r₀ r : Registry, (∃ report, Extraction.extract storeTables {} = .ok (r₀, report)) ∧
      Yields (Edit.normalize {}) r₀ () r ∧
      r.Misnotes storeRequest ⟨2, 4⟩ (storeOne []) [(placeField, [0, 0, 0, 7])]
        [(countField, [0, 1]), (listField, [0])]) ∧
    ∃ r₀ r : Registry, (∃ report, Extraction.extract extendTables {} = .ok (r₀, report)) ∧
      r₀.names.Nodup ∧ Yields (Edit.normalize {}) r₀ () r ∧
      (∀ here data, ¬ extendRequest.Opens r.toSchema here data) ∧
      r.Misnotes extendRequest ⟨2, 20⟩ (extendBy (List.replicate 20 9))
        [(placeField, [0, 0, 0, 7])] [(hashField, 0 :: 4 :: List.replicate 20 9)] := by
  refine ⟨?_, exists_extended⟩
  obtain ⟨r₀, r, hs⟩ := exists_stored
  obtain ⟨t, ht, hname, hx⟩ := hs.request
  obtain ⟨k, hk⟩ := hs.empty
  refine ⟨r₀, r, hs.extracted, hs.normalized, t, ht, hx, rfl, rfl,
    distinctNames_of_allFields (hname ▸ hs.fields) (by decide), rfl, k, hname ▸ hk, ?_⟩
  rintro ⟨n, rest, heq, hlength⟩
  have hbytes := congrArg List.length heq
  rw [List.length_append, length_bigEndian, hlength] at hbytes
  change 3 = 2 + n * 4 at hbytes
  omega

end Store

end WireTables
