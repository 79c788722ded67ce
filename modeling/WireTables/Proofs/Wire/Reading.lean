import WireTables.Proofs.Wire.Scalar

/-!
# Reading

What the parts of decoding take off the bytes. A reading that ends well has taken some bytes from
the front of its region and changed nothing else (`Takes`), as long as nothing remains to be found
out about constants. The laws of single numbers stand here in the form in which decoding and
encoding meet: `numberBytes_of_scalarValue?` from bytes to bytes, `scalarValue?_of_numberBytes`
from a number to a number.
-/

namespace WireTables.Wire

/-- The reader after so many more bytes. -/
def Reader.advance (r : Reader) (count : Nat) : Reader :=
  { r with left := r.left.drop count, position := r.position + count }

/-- From `r` to `r'` exactly `taken` was read. -/
structure Takes (taken : List UInt8) (r r' : Reader) : Prop where
  left : r.left = taken ++ r'.left
  position : r'.position = r.position + taken.length
  known : r'.known = r.known

namespace Takes

theorem refl (r : Reader) : Takes [] r r :=
  ⟨rfl, rfl, rfl⟩

theorem trans {a b : List UInt8} {r₁ r₂ r₃ : Reader} (h₁ : Takes a r₁ r₂) (h₂ : Takes b r₂ r₃) :
    Takes (a ++ b) r₁ r₃ where
  left := by rw [h₁.left, h₂.left, List.append_assoc]
  position := by rw [h₂.position, h₁.position, List.length_append, Nat.add_assoc]
  known := h₂.known.trans h₁.known

theorem advance {r : Reader} {count : Nat} (h : count ≤ r.left.length) :
    Takes (r.left.take count) r (r.advance count) where
  left := (List.take_append_drop count r.left).symm
  position := by rw [List.length_take, Nat.min_eq_left h]; rfl
  known := rfl

theorem length_le {taken : List UInt8} {r r' : Reader} (h : Takes taken r r') :
    r'.left.length ≤ r.left.length := by
  rw [h.left, List.length_append]
  omega

/-- A reader is given by what was taken to get there. -/
theorem eq_mk {taken : List UInt8} {r r' : Reader} (h : Takes taken r r') :
    r' = ⟨r'.left, r.position + taken.length, r.known⟩ := by
  rw [← h.position, ← h.known]

end Takes

/-! ## The steps of a reading -/

@[simp] theorem yields_left {r r' : Reader} {bytes : List UInt8} :
    Yields Reading.left r bytes r' ↔ bytes = r.left ∧ r' = r := by
  unfold Reading.left
  simp only [yields_bind, yields_get, yields_pure]
  constructor
  · rintro ⟨a, s, ⟨rfl, rfl⟩, rfl, rfl⟩
    exact ⟨rfl, rfl⟩
  · rintro ⟨rfl, rfl⟩
    exact ⟨r', r', ⟨rfl, rfl⟩, rfl, rfl⟩

theorem yields_skip {r r' : Reader} {count : Nat} {u : Unit} (h : count ≤ r.left.length) :
    Yields (Reading.skip count) r u r' ↔ r' = r.advance count := by
  unfold Reading.skip
  rw [yields_modify, Nat.min_eq_left h]
  rfl

/-- Bytes are read where there are enough of them. -/
theorem yields_bytes {r r' : Reader} {count : Nat} {bytes : List UInt8} :
    Yields (Reading.bytes count) r bytes r' ↔
      count ≤ r.left.length ∧ bytes = r.left.take count ∧ r' = r.advance count := by
  unfold Reading.bytes
  simp only [yields_bind, yields_left]
  constructor
  · rintro ⟨available, s, ⟨rfl, rfl⟩, ⟨⟩, s', hskip, h⟩
    by_cases hlt : s.left.length < count
    · rw [if_pos hlt] at h
      simp only [yields_bind, not_yields_throw, false_and, exists_false] at h
    · rw [if_neg hlt, yields_pure] at h
      obtain ⟨rfl, rfl⟩ := h
      exact ⟨by omega, rfl, (yields_skip (by omega)).mp hskip⟩
  · rintro ⟨hle, rfl, rfl⟩
    refine ⟨r.left, r, ⟨rfl, rfl⟩, ⟨⟩, r.advance count, (yields_skip hle).mpr rfl, ?_⟩
    rw [if_neg (by omega), yields_pure]
    exact ⟨rfl, rfl⟩

/-- A calculation over the schema reads nothing. -/
theorem yields_coding {m : Coding α} {r r' : Reader} {a : α} :
    Yields (Reading.coding m) r a r' ↔
      ∃ known, Yields m r.known a known ∧ r' = { r with known } := by
  unfold Reading.coding Yields
  show (match Id.run (m.run r.known) with
      | (result, known) => (result, { r with known })) = (Except.ok a, r') ↔ _
  rcases Id.run (m.run r.known) with ⟨result, known⟩
  simp only [Prod.mk.injEq]
  constructor
  · rintro ⟨rfl, rfl⟩
    exact ⟨known, ⟨rfl, rfl⟩, rfl⟩
  · rintro ⟨_, ⟨rfl, rfl⟩, rfl⟩
    exact ⟨rfl, rfl⟩

theorem yields_codingEval {m : Eval α} {k k' : Known} {a : α} :
    Yields (Coding.eval m) k a k' ↔ Yields m k a k' := by
  unfold Coding.eval Yields
  show (match Id.run (m.run k) with
      | (result, known) => (result.mapError Fault.schema, known)) = (Except.ok a, k') ↔ _
  rcases Id.run (m.run k) with ⟨result, known⟩
  cases result with
  | ok b => simp only [Except.mapError, Prod.mk.injEq, Except.ok.injEq]
  | error e => simp only [Except.mapError, Prod.mk.injEq, reduceCtorEq, false_and]

/-! ## Numbers and truth values -/

/-- The number of bytes that are read for an elementary value. -/
def readSize (c : Scalar) : Nat :=
  if c.isBool then 1 else c.size

/-- The elementary value that bytes stand for. -/
def scalarValue? (c : Scalar) (bytes : List UInt8) : Option Value :=
  if c.isBool then some (.bool (bytes != [0]))
  else
    (NumberKind.ofSize? c.size c.signed).map fun kind => .number (.ofInt kind (ofBigEndian bytes))

/-- An elementary value takes some bytes. -/
theorem readSize_pos {c : Scalar} {bytes : List UInt8} {v : Value}
    (h : scalarValue? c bytes = some v) : 0 < readSize c := by
  unfold readSize
  unfold scalarValue? at h
  split
  · decide
  · next hb =>
    rw [if_neg hb] at h
    obtain ⟨kind, hk, -⟩ := Option.map_eq_some_iff.mp h
    rw [← (NumberKind.size_of_ofSize? hk).1]
    cases kind <;> decide

theorem yields_readScalar {c : Scalar} {r r' : Reader} {v : Value} :
    Yields (readScalar c) r v r' ↔
      readSize c ≤ r.left.length ∧ scalarValue? c (r.left.take (readSize c)) = some v ∧
        r' = r.advance (readSize c) := by
  unfold readScalar readSize scalarValue?
  cases c.isBool with
  | true =>
    simp only [↓reduceIte, yields_bind, yields_pure, yields_bytes, Option.some.injEq]
    constructor
    · rintro ⟨bytes, s, ⟨hle, rfl, rfl⟩, rfl, rfl⟩
      exact ⟨hle, rfl, rfl⟩
    · rintro ⟨hle, rfl, rfl⟩
      exact ⟨_, _, ⟨hle, rfl, rfl⟩, rfl, rfl⟩
  | false =>
    simp only [Bool.false_eq_true, ↓reduceIte]
    cases hk : NumberKind.ofSize? c.size c.signed with
    | none => simp only [Reading.invalid, not_yields_throw, Option.map_none, reduceCtorEq,
        false_and, and_false]
    | some kind =>
      simp only [yields_bind, yields_pure, yields_bytes, Option.map_some, Option.some.injEq,
        (NumberKind.size_of_ofSize? hk).1]
      constructor
      · rintro ⟨bytes, s, ⟨hle, rfl, rfl⟩, rfl, rfl⟩
        exact ⟨hle, rfl, rfl⟩
      · rintro ⟨hle, rfl, rfl⟩
        exact ⟨_, _, ⟨hle, rfl, rfl⟩, rfl, rfl⟩

theorem takes_of_readScalar {c : Scalar} {r r' : Reader} {v : Value}
    (h : Yields (readScalar c) r v r') :
    ∃ taken, Takes taken r r' ∧ taken.length = readSize c ∧ scalarValue? c taken = some v := by
  obtain ⟨hle, hv, rfl⟩ := yields_readScalar.mp h
  exact ⟨_, Takes.advance hle, by rw [List.length_take, Nat.min_eq_left hle], hv⟩

theorem readScalar_of_takes {c : Scalar} {r r' : Reader} {v : Value} {taken : List UInt8}
    (ht : Takes taken r r') (hlen : taken.length = readSize c)
    (hv : scalarValue? c taken = some v) :
    Yields (readScalar c) r v r' := by
  have hleft := ht.left
  refine yields_readScalar.mpr ⟨?_, ?_, ?_⟩
  · rw [hleft, List.length_append]
    omega
  · rwa [hleft, ← hlen, List.take_left]
  · rw [ht.eq_mk]
    unfold Reader.advance
    rw [← hlen, hleft, List.drop_left]

theorem yields_readInteger {type field : String} {c : Scalar} {r r' : Reader} {v : Value}
    {n : Int} :
    Yields (readInteger type field c) r (v, n) r' ↔
      Yields (readScalar c) r v r' ∧ v.word? = some n := by
  unfold readInteger
  simp only [yields_bind, yields_pure, yields_coding, yields_integer]
  constructor
  · rintro ⟨v', r₁, hread, m, r₂, ⟨_, ⟨hword, rfl⟩, rfl⟩, h, rfl⟩
    cases h
    exact ⟨hread, hword⟩
  · rintro ⟨hread, hword⟩
    exact ⟨v, r', hread, n, r', ⟨_, ⟨hword, rfl⟩, rfl⟩, rfl, rfl⟩

/-- What was read from some bytes is written in the same ones unless it is a truth value, for which
many bytes stand. -/
theorem numberBytes_of_scalarValue? {c : Scalar} {bytes out : List UInt8} {v : Value} {n : Int}
    (hlen : bytes.length = readSize c) (hv : scalarValue? c bytes = some v)
    (hn : v.word? = some n) (hw : NumberBytes c n out) : c.isBool = false → out = bytes := by
  intro hb
  rw [hw.bytes_eq]
  unfold scalarValue? at hv
  unfold readSize at hlen
  rw [hb] at hv hlen
  simp only [Bool.false_eq_true, ↓reduceIte] at hv hlen
  obtain ⟨kind, hk, rfl⟩ := Option.map_eq_some_iff.mp hv
  cases hn
  obtain ⟨hsize, -⟩ := NumberKind.size_of_ofSize? hk
  rw [← hsize]
  exact bigEndian_word (hlen.trans hsize.symm)

/-- Encodings of elementary types: a truth value takes one byte. -/
def Standard (c : Scalar) : Prop :=
  [1, 2, 4, 8].contains c.size = true ∧ (c.isBool = true → c.size = 1 ∧ c.signed = false)

theorem Standard.readSize_eq {c : Scalar} (h : Standard c) : readSize c = c.size := by
  unfold readSize
  split
  · next hb => exact (h.2 hb).1.symm
  · rfl

/-- What a number is written in is read as a value, and as the same number unless as a truth
value. -/
theorem scalarValue?_of_numberBytes {c : Scalar} {out : List UInt8} {n : Int}
    (hc : Standard c) (hn : fitsWord n = true) (hw : NumberBytes c n out) :
    out.length = readSize c ∧ ∃ v m, scalarValue? c out = some v ∧ v.word? = some m ∧
      (c.isBool = false → m = n) := by
  obtain ⟨hfits, hsize, rfl⟩ := hw
  refine ⟨(length_bigEndian _ _).trans hc.readSize_eq.symm, ?_⟩
  unfold scalarValue?
  cases hb : c.isBool with
  | true => exact ⟨_, _, rfl, rfl, fun h => nomatch h⟩
  | false =>
    have hk := NumberKind.ofSize?_isSome c.size c.signed
    rw [hsize] at hk
    obtain ⟨kind, hk⟩ := Option.isSome_iff_exists.mp hk
    refine ⟨.number (.ofInt kind (n % Nat.pow 256 c.size).toNat), n, ?_, ?_, fun _ => rfl⟩
    · rw [if_neg Bool.false_ne_true, hk, Option.map_some, ofBigEndian_bigEndian,
        Nat.mod_eq_of_lt (toNat_emod_pow_lt n c.size)]
    · exact congrArg some (word_ofInt_of_fits hk hfits hn)

/-- A value of the kind that an encoding is for. -/
def HoldsScalar (c : Scalar) (v : Value) : Prop :=
  if c.isBool then ∃ b, v = .bool b
  else ∃ num : Number, v = .number num ∧ NumberKind.ofSize? c.size c.signed = some num.kind

/-- A value of the right kind is read back from what it is written in. -/
theorem scalarValue?_of_holds {c : Scalar} {v : Value} {out : List UInt8} {n : Int}
    (hc : Standard c) (hv : HoldsScalar c v) (hn : v.word? = some n)
    (hw : NumberBytes c n out) : scalarValue? c out = some v := by
  obtain ⟨hfits, hsize, rfl⟩ := hw
  unfold HoldsScalar at hv
  unfold scalarValue?
  split at hv
  · next hb =>
    obtain ⟨b, rfl⟩ := hv
    rw [if_pos hb]
    cases b <;> (cases hn; rw [(hc.2 hb).1]; rfl)
  · next hb =>
    obtain ⟨num, rfl, hk⟩ := hv
    cases hn
    rw [if_neg hb, hk, Option.map_some, ofBigEndian_bigEndian,
      Nat.mod_eq_of_lt (toNat_emod_pow_lt num.word c.size), ofInt_word hk hfits]

end WireTables.Wire
