import WireTables.Proofs.Wire.Encoding
import WireTables.Proofs.Wire.Fitness

/-!
# The parts of an encoding

The bytes of a structure are those of its fields one after the other. Encoding with the fields kept
apart (`encodeFields`) fails where encoding does, and gives the same bytes otherwise
(`encode_eq_parts`); a structure that has no absent tail gives a part for each field, but for
lengths of structures, which are part of these (`remaining_of_record`). What stands in front of
elements is the number of them (`countPrefixed_of_pair`), and what stands in front of a sized
structure is the number of its bytes (`countPrefixed_of_sized`). Nothing is assumed about constants:
they may be evaluated on the way.
-/

namespace WireTables.Wire

/-- The bytes of each field of the remaining steps of a structure. -/
def encodeParts (s : Schema) (nested : String → Value → Coding (List UInt8)) (type : String)
    (steps : List Step) (tail : Option (String × Int)) (fields : List (String × Value)) :
    Locals → List Step → Coding (List (Field × List UInt8))
  | _, [] => return []
  | locals, step :: rest => do
    let (bytes, locals) ← encodeStep s nested type steps fields locals step
    if endsAfter tail step.field.name locals then return [(step.field, bytes)]
    else
      return (step.field, bytes) :: (← encodeParts s nested type steps tail fields locals rest)

/-- The bytes of each field of a structure; `nested` writes the structures inside it. -/
def encodeRecordParts (s : Schema) (nested : String → Value → Coding (List UInt8)) (type : String)
    (v : Value) : Coding (List (Field × List UInt8)) := do
  match v.fields? with
  | none => Coding.invalid (.notStructure type)
  | some fields =>
    let steps ← Coding.eval (layout s type)
    let tail ← tailEnd s type
    encodeParts s nested type steps tail fields [] steps

/-- The bytes of each field of a structure. -/
def encodeFields (s : Schema) (type : String) (v : Value) : Coding (List (Field × List UInt8)) :=
  encodeRecordParts s (encodeAt s v.height) type v

/-- The bytes of all parts one after the other. -/
def joined (parts : List (Field × List UInt8)) : List UInt8 :=
  parts.flatMap (·.2)

section Joined

variable {s : Schema} {nested : String → Value → Coding (List UInt8)} {type : String}

theorem encodeSteps_eq_parts {steps rest : List Step} {tail : Option (String × Int)}
    {fields : List (String × Value)} {locals : Locals} :
    encodeSteps s nested type steps tail fields locals rest =
      joined <$> encodeParts s nested type steps tail fields locals rest := by
  induction rest generalizing locals with
  | nil =>
    unfold encodeSteps encodeParts
    simp only [map_pure]
    rfl
  | cons step rest ih =>
    unfold encodeSteps encodeParts
    rw [map_bind]
    refine bind_congr fun p => ?_
    obtain ⟨bytes, locals⟩ := p
    dsimp only
    split
    · simp only [map_pure, joined, List.flatMap_cons, List.flatMap_nil, List.append_nil]
    · simp only [ih, map_bind, map_pure, bind_map_left, joined, List.flatMap_cons]

/-- A structure is encoded as its parts one after the other. -/
theorem encodeRecord_eq_parts {v : Value} :
    encodeRecord s nested type v = joined <$> encodeRecordParts s nested type v := by
  unfold encodeRecord encodeRecordParts
  cases v.fields? with
  | none => rfl
  | some fields =>
    simp only [map_bind]
    exact bind_congr fun _ => bind_congr fun _ => encodeSteps_eq_parts

/-- A structure is encoded as its fields one after the other. -/
theorem encode_eq_parts {v : Value} : encode s type v = joined <$> encodeFields s type v :=
  encodeRecord_eq_parts

end Joined

section Parts

variable {s : Schema} {nested : String → Value → Coding (List UInt8)} {type : String}
  {steps pre rest : List Step} {fields : List (String × Value)} {locals : Locals} {k k' : Known}
  {parts : List (Field × List UInt8)}

theorem exists_of_parts_cons {step : Step}
    (h : Yields (encodeParts s nested type steps none fields locals (step :: rest)) k parts k') :
    ∃ bytes locals₁ k₁ after, parts = (step.field, bytes) :: after ∧
      Yields (encodeStep s nested type steps fields locals step) k (bytes, locals₁) k₁ ∧
        Yields (encodeParts s nested type steps none fields locals₁ rest) k₁ after k' := by
  unfold encodeParts at h
  obtain ⟨⟨bytes, locals₁⟩, k₁, hstep, h⟩ := yields_bind.mp h
  dsimp only at h
  rw [if_neg (show ¬ endsAfter none step.field.name locals₁ = true from Bool.false_ne_true)] at h
  obtain ⟨after, _, hafter, hend⟩ := yields_bind.mp h
  obtain ⟨rfl, rfl⟩ := yields_pure.mp hend
  exact ⟨bytes, locals₁, k₁, after, rfl, hstep, hafter⟩

/-- Where nothing is left out there is a part for each step. -/
theorem fields_of_parts
    (h : Yields (encodeParts s nested type steps none fields locals rest) k parts k') :
    parts.map (·.1) = rest.map (·.field) := by
  induction rest generalizing locals k parts with
  | nil =>
    obtain ⟨rfl, -⟩ := yields_pure.mp h
    rfl
  | cons step rest ih =>
    obtain ⟨bytes, locals₁, k₁, after, rfl, -, hafter⟩ := exists_of_parts_cons h
    rw [List.map_cons, List.map_cons, ih hafter]

/-- The parts of some steps stand after those of the steps before them. -/
theorem exists_of_parts_append
    (h : Yields (encodeParts s nested type steps none fields locals (pre ++ rest)) k parts k') :
    ∃ before locals₁ k₁ after, parts = before ++ after ∧
      before.map (·.1) = pre.map (·.field) ∧
        Yields (encodeParts s nested type steps none fields locals₁ rest) k₁ after k' := by
  induction pre generalizing locals k parts with
  | nil => exact ⟨[], locals, k, parts, rfl, rfl, h⟩
  | cons step pre ih =>
    obtain ⟨bytes, locals₁, k₁, after, rfl, -, hafter⟩ := exists_of_parts_cons h
    obtain ⟨before, locals₂, k₂, last, rfl, hbefore, hlast⟩ := ih hafter
    exact ⟨(step.field, bytes) :: before, locals₂, k₂, last, rfl,
      by rw [List.map_cons, List.map_cons, hbefore], hlast⟩

end Parts

section Counted

/-- What the number in front of a field counts: an element of an array, or a byte of a structure
whose length it is. -/
inductive Counted (s : Schema) (data : Field) : List UInt8 → Prop where
  | number {c : Scalar} {n : Int} {item : List UInt8} (array : data.marshal = .countedArray)
    (scalar : s.scalar? data.typeName = some c) (bytes : NumberBytes c n item) :
    Counted s data item
  | record {object : String} {levels : Nat} {v : Value} {k k' : Known} {item : List UInt8}
    (array : data.marshal = .countedArray) (record : objectName? s data.typeName = some object)
    (bytes : Yields (encodeAt s levels object v) k item k') : Counted s data item
  | byte (body : data.marshal = .sizedBody) (b : UInt8) : Counted s data [b]

/-- The bytes are a number of so many bytes, most significant first, and as many items of what it
counts. No list has more elements than fit in 64 bits. -/
structure CountPrefixed (s : Schema) (data : Field) (size : Nat) (bytes : List UInt8) : Prop where
  standard : [1, 2, 4, 8].contains size = true
  exists_items : ∃ (n : Nat) (items : List (List UInt8)),
    bytes = bigEndian size n ++ items.flatten ∧ items.length = n ∧
      (n < 256 ^ size ∨ 2 ^ 64 ≤ n) ∧ ∀ item ∈ items, Counted s data item

variable {s : Schema} {data : Field} {c : Scalar} {n : Nat} {bytes : List UInt8} {k k' : Known}

theorem bigEndian_mod (size n : Nat) : bigEndian size (n % 256 ^ size) = bigEndian size n := by
  have h := bigEndian_ofBigEndian (bigEndian size n)
  rwa [length_bigEndian, ofBigEndian_bigEndian] at h

/-- A number of things that fits an encoding is not larger than its bits, if these are less than 64.
-/
theorem lt_of_fitsScalar (h : fitsScalar c n = true) : 64 ≤ c.bits ∨ n < 2 ^ c.bits := by
  unfold fitsScalar at h
  dsimp only at h
  split at h
  · simp only [Bool.or_eq_true, Bool.and_eq_true, decide_eq_true_eq, Nat.pow_eq] at h
    refine h.imp_right fun hlt => ?_
    exact Nat.lt_of_lt_of_le (Int.ofNat_lt.mp hlt.2) (Nat.pow_le_pow_right (by decide) (by omega))
  · simp only [Bool.or_eq_true, Bool.and_eq_true, decide_eq_true_eq, Nat.pow_eq] at h
    exact h.2.imp_right Int.ofNat_lt.mp

/-- A number of things is written as it is, unless there are more than fit in 64 bits. -/
theorem bigEndian_of_number (h : NumberBytes c n bytes) :
    bytes = bigEndian c.size n ∧ (n < 256 ^ c.size ∨ 2 ^ 64 ≤ n) := by
  have hbytes : ((n : Int) % Nat.pow 256 c.size).toNat = n % 256 ^ c.size := by
    rw [Nat.pow_eq]
    omega
  refine ⟨by rw [h.bytes_eq, hbytes, bigEndian_mod], ?_⟩
  have hsize : c.size = 1 ∨ c.size = 2 ∨ c.size = 4 ∨ c.size = 8 := by simpa using h.size
  have hlt := lt_of_fitsScalar h.fits
  unfold Scalar.bits at hlt
  rcases hsize with hs | hs | hs | hs <;>
    simp only [hs, Nat.reduceMul, Nat.reduceMod, Nat.reducePow] at hlt ⊢ <;> omega

/-- A byte is written as itself. -/
theorem numberBytes_byte (b : UInt8) : NumberBytes byteScalar b.toNat [b] where
  fits := by
    have hlt : (b.toNat : Int) < Nat.pow 2 8 := by exact_mod_cast b.toNat_lt
    simp only [fitsScalar, byteScalar, Scalar.bits, Bool.false_eq_true, ↓reduceIte,
      Bool.and_eq_true, Bool.or_eq_true, decide_eq_true_eq]
    exact ⟨Int.natCast_nonneg _, .inr (decide_eq_true hlt)⟩
  size := rfl
  bytes_eq := by
    have hmod : ((b.toNat : Int) % Nat.pow 256 1).toNat = b.toNat % 256 ^ 1 := by
      rw [Nat.pow_eq]
      omega
    have hbyte : ofBigEndian [b] = b.toNat := by simp [ofBigEndian]
    rw [show byteScalar.size = 1 from rfl, hmod, bigEndian_mod, ← hbyte]
    exact (bigEndian_ofBigEndian [b]).symm

/-- The items of a list are written one after the other. -/
theorem exists_of_writeAll {write : Value → Coding (List UInt8)} {items : List Value}
    (h : Yields (writeAll write items) k bytes k') : ∃ parts : List (List UInt8),
      bytes = parts.flatten ∧ parts.length = items.length ∧
        ∀ part ∈ parts, ∃ v k₁ k₂, Yields (write v) k₁ part k₂ := by
  induction items generalizing bytes k with
  | nil =>
    obtain ⟨rfl, -⟩ := yields_pure.mp h
    exact ⟨[], rfl, rfl, fun _ hp => (List.not_mem_nil hp).elim⟩
  | cons v items ih =>
    unfold writeAll at h
    obtain ⟨first, k₁, hfirst, h⟩ := yields_bind.mp h
    obtain ⟨others, k₂, hothers, hend⟩ := yields_bind.mp h
    obtain ⟨rfl, rfl⟩ := yields_pure.mp hend
    obtain ⟨parts, rfl, hlength, hparts⟩ := ih hothers
    refine ⟨first :: parts, rfl, by rw [List.length_cons, List.length_cons, hlength],
      fun part hp => ?_⟩
    rcases List.mem_cons.mp hp with rfl | hp
    · exact ⟨v, k, k₁, hfirst⟩
    · exact hparts part hp

/-- An array is written as its elements. -/
theorem exists_of_writeArray {owner : String} {levels count : Nat} {element : Element} {v : Value}
    (harray : data.marshal = .countedArray) (he : elementOf s owner data = .ok element)
    (hcount : v.length? = some count)
    (h : Yields (writeArray (encodeAt s levels) element v) k bytes k') :
    ∃ items : List (List UInt8), bytes = items.flatten ∧ items.length = count ∧
      ∀ item ∈ items, Counted s data item := by
  have hof := of_elementOf he
  -- a list of numbers of one encoding
  have numbers : ∀ {c : Scalar} {items : List Value}, s.scalar? data.typeName = some c →
      Yields (writeAll (fun item => do writeScalar c (← integer "array" "element" item)) items) k
        bytes k' → items.length = count → ∃ items : List (List UInt8), bytes = items.flatten ∧
          items.length = count ∧ ∀ item ∈ items, Counted s data item := by
    intro c items hc hall hlength
    obtain ⟨parts, rfl, hparts, heach⟩ := exists_of_writeAll hall
    refine ⟨parts, rfl, hparts.trans hlength, fun part hp => ?_⟩
    obtain ⟨v, k₁, k₂, hv⟩ := heach part hp
    obtain ⟨n, _, -, hnumber⟩ := yields_bind.mp hv
    exact .number harray hc (yields_writeScalar.mp hnumber).1
  cases v with
  | bytes =>
    cases hcount
    cases element with
    | byte =>
      obtain ⟨rfl, -⟩ := yields_pure.mp h
      refine ⟨bytes.map ([·]), (List.flatMap_singleton' _).symm, List.length_map _,
        fun item hi => ?_⟩
      obtain ⟨b, -, rfl⟩ := List.mem_map.mp hi
      exact .number harray hof (numberBytes_byte b)
    | scalar c => exact (not_yields_invalid h).elim
    | object object => exact (not_yields_invalid h).elim
  | list items =>
    have hlength : items.length = count := Option.some.inj hcount
    cases element with
    | byte => exact numbers hof h hlength
    | scalar c => exact numbers hof h hlength
    | object object =>
      obtain ⟨parts, rfl, hparts, heach⟩ := exists_of_writeAll h
      refine ⟨parts, rfl, hparts.trans hlength, fun part hp => ?_⟩
      obtain ⟨v, k₁, k₂, hv⟩ := heach part hp
      exact .record harray hof hv
  | _ => cases hcount

section Steps

variable {nested : String → Value → Coding (List UInt8)} {type : String} {steps : List Step}
  {fields : List (String × Value)} {locals locals' : Locals} {step : Step}

theorem number_of_count {array : String} (hop : step.op = .count c array)
    (h : Yields (encodeStep s nested type steps fields locals step) k (bytes, locals') k') :
    NumberBytes c (arrayCount fields array) bytes := by
  unfold encodeStep at h
  rw [hop] at h
  obtain ⟨number, _, hnumber, hend⟩ := yields_bind.mp h
  obtain ⟨heq, -⟩ := yields_pure.mp hend
  cases heq
  exact (yields_writeScalar.mp hnumber).1

theorem writes_of_encodeArray {f : Field} {element : Element} {length : ArrayLength} {v : Value}
    (h : Yields (encodeArray s nested type f locals element length v) k bytes k') :
    ∃ count k₁, v.length? = some count ∧ Yields (writeArray nested element v) k₁ bytes k' := by
  unfold encodeArray at h
  split at h
  · exact (not_yields_invalid h).elim
  · next count hcount =>
    have checked : ∀ {k}, Yields (checkMaximum s type f count >>= fun _ =>
        writeArray nested element v) k bytes k' →
          ∃ count k₁, v.length? = some count ∧
            Yields (writeArray nested element v) k₁ bytes k' := by
      intro k hchecked
      obtain ⟨_, k₁, -, hwritten⟩ := yields_bind.mp hchecked
      exact ⟨count, k₁, hcount, hwritten⟩
    obtain ⟨required, _, -, h⟩ := yields_bind.mp h
    dsimp only at h
    split at h
    · split at h
      · obtain ⟨_, _, hthrow, -⟩ := yields_bind.mp h
        exact (not_yields_throw hthrow).elim
      · exact checked h
    · exact checked h

theorem writes_of_array {element : Element} {length : ArrayLength}
    (hop : step.op = .array element length)
    (h : Yields (encodeStep s nested type steps fields locals step) k (bytes, locals') k') :
    ∃ v count k₁, fields.lookup step.field.name = some v ∧ v.length? = some count ∧
      Yields (writeArray nested element v) k₁ bytes k' := by
  unfold encodeStep at h
  rw [hop] at h
  obtain ⟨v, _, hv, hrest⟩ := yields_bind.mp h
  obtain ⟨hlookup, rfl⟩ := yields_fieldValue.mp hv
  obtain ⟨written, _, hwritten, hend⟩ := yields_bind.mp hrest
  obtain ⟨heq, rfl⟩ := yields_pure.mp hend
  cases heq
  obtain ⟨count, k₁, hcount, hwritten⟩ := writes_of_encodeArray hwritten
  exact ⟨v, count, k₁, hlookup, hcount, hwritten⟩

/-- A count and its array are written as a number and so many elements. -/
theorem countPrefixed_of_pair {tag : Step} {owner : String} {levels : Nat} {element : Element}
    {length : ArrayLength} {number : List UInt8} {steps' : List Step} {l l' : Locals}
    {k₁ k₁' : Known}
    (htag : tag.op = .count c step.field.name) (hdata : step.op = .array element length)
    (harray : step.field.marshal = .countedArray)
    (he : elementOf s owner step.field = .ok element)
    (hn : Yields (encodeStep s (encodeAt s levels) type steps' fields l tag) k₁ (number, l') k₁')
    (hb : Yields (encodeStep s (encodeAt s levels) type steps fields locals step) k
      (bytes, locals') k') :
    CountPrefixed s step.field c.size (number ++ bytes) := by
  obtain ⟨v, count, k₂, hv, hcount, hwritten⟩ := writes_of_array hdata hb
  have hnumber := number_of_count htag hn
  rw [arrayCount, hv, Option.bind_some, hcount, Option.getD_some] at hnumber
  obtain ⟨rfl, hbound⟩ := bigEndian_of_number hnumber
  obtain ⟨items, rfl, hlength, hitems⟩ := exists_of_writeArray harray he hcount hwritten
  exact ⟨hnumber.size, count, items, rfl, hlength, hbound, hitems⟩

/-- A sized structure is written after the number of its bytes. -/
theorem countPrefixed_of_sized {object : String} (hop : step.op = .sized c object)
    (hbody : step.field.marshal = .sizedBody)
    (h : Yields (encodeStep s nested type steps fields locals step) k (bytes, locals') k') :
    CountPrefixed s step.field c.size bytes := by
  unfold encodeStep at h
  rw [hop] at h
  obtain ⟨v, _, -, h⟩ := yields_bind.mp h
  obtain ⟨body, _, -, h⟩ := yields_bind.mp h
  obtain ⟨number, _, hnumber, hend⟩ := yields_bind.mp h
  obtain ⟨heq, -⟩ := yields_pure.mp hend
  cases heq
  have hnumber := (yields_writeScalar.mp hnumber).1
  obtain ⟨rfl, hbound⟩ := bigEndian_of_number hnumber
  refine ⟨hnumber.size, body.length, body.map ([·]), ?_, List.length_map _, hbound,
    fun item hi => ?_⟩
  · rw [← List.flatMap_def, List.flatMap_singleton']
  · obtain ⟨b, -, rfl⟩ := List.mem_map.mp hi
    exact .byte hbody b

theorem exists_of_object {object : String} (hop : step.op = .object object)
    (h : Yields (encodeStep s nested type steps fields locals step) k (bytes, locals') k') :
    ∃ v k₁ k₂, Yields (nested object v) k₁ bytes k₂ := by
  unfold encodeStep at h
  rw [hop] at h
  obtain ⟨v, k₁, -, h⟩ := yields_bind.mp h
  obtain ⟨written, k₂, hwritten, hend⟩ := yields_bind.mp h
  obtain ⟨heq, rfl⟩ := yields_pure.mp hend
  cases heq
  exact ⟨v, k₁, _, hwritten⟩

end Steps

end Counted

/-- The field says how much there is of the other one. -/
inductive Measures (s : Schema) (tag data : Field) : Prop where
  | count (marshal : tag.marshal = .count) (array : data.marshal = .countedArray)
    (partner : tag.partner = some data.name)
  | size (marshal : tag.marshal = .bodySize) (body : data.marshal = .sizedBody)
    (partner : tag.partner = some data.name) (back : data.partner = some tag.name)
    (record : s.isRecord data.typeName = true)

/-- The fields that have parts of their own: the length of a structure is part of the structure. -/
def partFields (fields : List Field) : List Field :=
  fields.filter (·.marshal != .bodySize)

/-- The bytes are what the step of a field writes among the fields of its structure. -/
inductive WrittenAs (s : Schema) (nested : String → Value → Coding (List UInt8)) (type : String)
    (values : List (String × Value)) (f : Field) (bytes : List UInt8) : Prop where
  | intro {st : Step} {steps : List Step} {fields : List Field} {locals locals' : Locals}
    {k k' k₁ k₂ : Known} (field : st.field = f) (fields_eq : s.allFields type = .ok fields)
    (step : Yields (stepOf s type fields f) k₁ (some (st.op, st.isData)) k₂)
    (written : Yields (encodeStep s nested type steps values locals st) k (bytes, locals') k')

/-- The parts are those of the last fields of a structure, and nothing comes after them. -/
inductive Remaining (s : Schema) (nested : String → Value → Coding (List UInt8)) (type : String)
    (values : List (String × Value)) (fields : List Field) (parts : List (Field × List UInt8)) :
    Prop where
  | intro {steps remaining : List Step} {locals : Locals} {k₁ k₂ k₃ k₄ : Known}
    (layout : Yields (layout s type) k₁ steps k₂) (sub : ∀ st ∈ remaining, st ∈ steps)
    (fields_eq : remaining.map (·.field) = partFields fields)
    (written : Yields (encodeParts s nested type steps none values locals remaining) k₃ parts k₄)

section Remaining

variable {s : Schema} {nested : String → Value → Coding (List UInt8)} {type : String}
  {values : List (String × Value)} {above rest : List Field} {first : Field}
  {parts : List (Field × List UInt8)} {k k' : Known}

theorem Remaining.parts_eq (h : Remaining s nested type values rest parts) :
    parts.map (·.1) = partFields rest := by
  obtain ⟨-, -, hfields, hwritten⟩ := h
  rw [fields_of_parts hwritten, hfields]

/-- What has parts has fields. -/
theorem exists_allFields_of_parts {v : Value}
    (h : Yields (encodeRecordParts s nested type v) k parts k') :
    ∃ fields, s.allFields type = .ok fields := by
  unfold encodeRecordParts at h
  split at h
  · exact (not_yields_invalid h).elim
  · obtain ⟨steps, k₁, hlayout, -⟩ := yields_bind.mp h
    obtain ⟨fields, hfields, -⟩ := steps_of_layout (yields_codingEval.mp hlayout)
    exact ⟨fields, hfields⟩

/-- The parts of a structure without an absent tail are those of all its fields. -/
theorem remaining_of_record {t : TypeEntry} {x : Record} {v : Value}
    (hrecord : s.recordOf? type = some (t, x)) (htail : x.nullTail = none)
    (hfields : s.allFields type = .ok (above ++ rest))
    (h : Yields (encodeRecordParts s nested type v) k parts k') :
    ∃ values before after, parts = before ++ after ∧ before.map (·.1) = partFields above ∧
      Remaining s nested type values rest after := by
  unfold encodeRecordParts at h
  split at h
  · exact (not_yields_invalid h).elim
  · next values _ =>
    obtain ⟨steps, k₁, hlayout, h⟩ := yields_bind.mp h
    obtain ⟨tail, k₂, hend, h⟩ := yields_bind.mp h
    have htail : tail = none := by
      unfold tailEnd recordType at hend
      simp only [hrecord, pure_bind, htail] at hend
      exact (yields_pure.mp hend).1
    subst htail
    have hlayout := yields_codingEval.mp hlayout
    obtain ⟨fields, hfields', hmap, -⟩ := steps_of_layout hlayout
    cases hfields.symm.trans hfields'
    rw [List.filter_append] at hmap
    obtain ⟨pre, remaining, rfl, hpre, hremaining⟩ := List.map_eq_append_iff.mp hmap
    obtain ⟨before, locals, k₃, after, rfl, hbefore, hafter⟩ := exists_of_parts_append h
    exact ⟨values, before, after, rfl, hbefore.trans hpre, hlayout,
      fun st hst => List.mem_append_right _ hst, hremaining, hafter⟩

/-- The length of a structure has no part. -/
theorem Remaining.skip (h : Remaining s nested type values (first :: rest) parts)
    (hm : first.marshal = .bodySize) : Remaining s nested type values rest parts := by
  obtain ⟨hlayout, hsub, hfields, hwritten⟩ := h
  rw [partFields, List.filter_cons_of_neg (by simp [hm])] at hfields
  exact ⟨hlayout, hsub, hfields, hwritten⟩

/-- Any other field has the next part. -/
theorem Remaining.next (h : Remaining s nested type values (first :: rest) parts)
    (hm : first.marshal ≠ .bodySize) :
    ∃ bytes after, parts = (first, bytes) :: after ∧ WrittenAs s nested type values first bytes ∧
      Remaining s nested type values rest after := by
  obtain ⟨hlayout, hsub, hfields, hwritten⟩ := h
  rw [partFields, List.filter_cons_of_pos (by simpa using hm)] at hfields
  obtain ⟨st, remaining, rfl, rfl, hremaining⟩ := List.map_eq_cons_iff.mp hfields
  obtain ⟨bytes, locals', k₁, after, rfl, hstep, hafter⟩ := exists_of_parts_cons hwritten
  obtain ⟨fields, hall, hsteps⟩ := stepOf_of_layout hlayout
  obtain ⟨k₂, k₃, hof⟩ := hsteps st (hsub st List.mem_cons_self)
  exact ⟨bytes, after, rfl, ⟨rfl, hall, hof, hstep⟩, hlayout,
    fun st hst => hsub st (List.mem_cons_of_mem _ hst), hremaining, hafter⟩

end Remaining

section Pairs

variable {s : Schema} {levels : Nat} {type : String} {values : List (String × Value)}
  {above below fields : List Field} {tag data : Field} {parts : List (Field × List UInt8)}

/-- What a field measures is written after its number. -/
theorem Remaining.countPrefixed
    (h : Remaining s (encodeAt s levels) type values (tag :: data :: below) parts)
    (hm : Measures s tag data) (hall : s.allFields type = .ok fields)
    (hfind : fields.find? (·.name == tag.name) = some tag) :
    ∃ here after c, parts = here ++ after ∧ here.map (·.1) = partFields [tag, data] ∧
      after.map (·.1) = partFields below ∧ s.scalar? tag.typeName = some c ∧
        CountPrefixed s data c.size (joined here) := by
  cases hm with
  | count htag hdata hp =>
    obtain ⟨number, after, rfl, ⟨rfl, -, hof, hnumber⟩, hrest⟩ := h.next (by rw [htag]; decide)
    obtain ⟨body, last, rfl, ⟨rfl, -, hof', hbody⟩, hlast⟩ := hrest.next (by rw [hdata]; decide)
    have htravels := (travels_of_stepOf hof).2
    obtain ⟨c, array, hop, hp'⟩ := htravels.of_count htag
    cases hp.symm.trans hp'
    rw [hop] at htravels
    have htravels' := (travels_of_stepOf hof').2
    obtain ⟨element, t, hop', -⟩ := htravels'.of_countedArray hdata
    rw [hop'] at htravels'
    obtain ⟨owner, he⟩ := htravels'.elements_of_counted
    refine ⟨[_, _], last, c, rfl, ?_, hlast.parts_eq, htravels.count_inv.2.2, ?_⟩
    · simp [partFields, htag, hdata]
    · rw [joined, List.flatMap_cons, List.flatMap_singleton]
      exact countPrefixed_of_pair hop hop' hdata he hnumber hbody
  | size htag hdata hp hback hr =>
    obtain ⟨body, after, rfl, ⟨rfl, hall', hof, hbody⟩, hrest⟩ :=
      (h.skip htag).next (by rw [hdata]; decide)
    obtain ⟨object, tag', g, c, -, hp', hfind', hc, hop⟩ := sized_of_stepOf hof hdata hr
    cases hall.symm.trans hall'
    cases hback.symm.trans hp'
    cases hfind.symm.trans hfind'
    refine ⟨[_], after, c, rfl, ?_, hrest.parts_eq, hc, ?_⟩
    · simp [partFields, htag, hdata]
    · rw [joined, List.flatMap_singleton]
      exact countPrefixed_of_sized hop hdata hbody

/-- A field of the type of a structure is written as the structure. -/
theorem Remaining.object {first : Field} {object : String}
    (h : Remaining s (encodeAt s levels) type values (first :: below) parts)
    (hm : first.marshal = .plain) (ho : objectName? s first.typeName = some object) :
    ∃ bytes after, parts = (first, bytes) :: after ∧ after.map (·.1) = partFields below ∧
      ∃ v k k', Yields (encodeAt s levels object v) k bytes k' := by
  obtain ⟨bytes, after, rfl, ⟨rfl, -, hof, hwritten⟩, hrest⟩ := h.next (by rw [hm]; decide)
  unfold stepOf at hof
  simp only [hm, ho] at hof
  obtain ⟨hop, -⟩ := yields_pure.mp hof
  simp only [Option.some.injEq, Prod.mk.injEq] at hop
  exact ⟨bytes, after, rfl, hrest.parts_eq, exists_of_object hop.1 hwritten⟩

end Pairs

/-- A structure of a pair is written as what the one measures after its number. -/
theorem countPrefixed_of_encodeAt {s : Schema} {levels : Nat} {type : String} {t : TypeEntry}
    {x : Record} {tag data : Field} {v : Value} {bytes : List UInt8} {k k' : Known}
    (hrecord : s.recordOf? type = some (t, x)) (htail : x.nullTail = none)
    (hfields : s.allFields type = .ok [tag, data]) (hm : Measures s tag data)
    (h : Yields (encodeAt s levels type v) k bytes k') :
    ∃ c, s.scalar? tag.typeName = some c ∧ CountPrefixed s data c.size bytes := by
  cases levels with
  | zero => exact (not_yields_throw h).elim
  | succ levels =>
    rw [encodeAt, encodeRecord_eq_parts, yields_map] at h
    obtain ⟨parts, hparts, rfl⟩ := h
    have hall : s.allFields type = .ok ([] ++ [tag, data]) := hfields
    obtain ⟨values, before, after, rfl, hbefore, hremaining⟩ :=
      remaining_of_record hrecord htail hall hparts
    obtain rfl := List.map_eq_nil_iff.mp hbefore
    obtain ⟨here, last, c, rfl, -, hlast, hc, hcounted⟩ := hremaining.countPrefixed hm hfields
      (List.find?_cons_of_pos (by simp))
    obtain rfl := List.map_eq_nil_iff.mp hlast
    rw [List.append_nil]
    exact ⟨c, hc, hcounted⟩

end WireTables.Wire
