import Mathlib.Algebra.Group.Nat.Defs
import WireTables.Proofs.Schema.Evaluation
import WireTables.Wire.Decode

/-!
# Numbers on the wire

Big-endian bytes and the numbers that they write determine each other. Above that stand the two
laws of a single number: what is read from some bytes is written as the same bytes
(`bigEndian_word`), and what fits is read back from the bytes that it is written as
(`word_ofInt_of_fits`). Both are about the signed 64-bit word through which the codec passes every
number, so they hold for all sizes but need the number to fit where the word cannot hold it.
-/

namespace WireTables.Wire

@[simp] theorem length_bigEndian (size n : Nat) : (bigEndian size n).length = size := by
  induction size with
  | zero => rfl
  | succ size ih => rw [bigEndian, List.length_cons, ih]

theorem foldl_bigEndian (size n a : Nat) :
    (bigEndian size n).foldl (fun n b => n * 256 + b.toNat) a =
      a * 256 ^ size + n % 256 ^ size := by
  induction size generalizing a with
  | zero => simp [bigEndian, Nat.mod_one]
  | succ size ih =>
    have digits : n % 256 ^ (size + 1) = n % 256 ^ size + 256 ^ size * (n / 256 ^ size % 256) :=
      Nat.mod_pow_succ
    have byte : (UInt8.ofNat (n / 256 ^ size)).toNat = n / 256 ^ size % 256 := UInt8.toNat_ofNat'
    calc (bigEndian (size + 1) n).foldl (fun n b => n * 256 + b.toNat) a
        = (a * 256 + n / 256 ^ size % 256) * 256 ^ size + n % 256 ^ size := by
          rw [bigEndian, List.foldl_cons, ih, Nat.pow_eq, byte]
      _ = a * (256 ^ size * 256) + (n % 256 ^ size + 256 ^ size * (n / 256 ^ size % 256)) := by
          rw [Nat.add_mul, Nat.mul_assoc, Nat.mul_comm 256, Nat.mul_comm (_ % 256)]
          omega
      _ = a * 256 ^ (size + 1) + n % 256 ^ (size + 1) := by rw [← digits, Nat.pow_succ]

/-- Written and read back, a number keeps the bytes that it is written in. -/
theorem ofBigEndian_bigEndian (size n : Nat) : ofBigEndian (bigEndian size n) = n % 256 ^ size := by
  unfold ofBigEndian
  rw [foldl_bigEndian, Nat.zero_mul, Nat.zero_add]

theorem foldl_bytes_lt (bytes : List UInt8) (a : Nat) :
    ∃ m < 256 ^ bytes.length,
      bytes.foldl (fun n b => n * 256 + b.toNat) a = a * 256 ^ bytes.length + m := by
  induction bytes generalizing a with
  | nil => exact ⟨0, by simp, by simp⟩
  | cons b bytes ih =>
    obtain ⟨m, hm, h⟩ := ih (a * 256 + b.toNat)
    have hb : b.toNat < 256 := b.toNat_lt
    have bound : b.toNat * 256 ^ bytes.length ≤ 255 * 256 ^ bytes.length :=
      Nat.mul_le_mul_right _ (by omega)
    refine ⟨b.toNat * 256 ^ bytes.length + m, ?_, ?_⟩
    · rw [List.length_cons, Nat.pow_succ]
      omega
    · rw [List.foldl_cons, h, List.length_cons, Nat.pow_succ, Nat.add_mul, Nat.mul_assoc,
        Nat.mul_comm 256, Nat.add_assoc]

theorem ofBigEndian_lt (bytes : List UInt8) : ofBigEndian bytes < 256 ^ bytes.length := by
  obtain ⟨m, hm, h⟩ := foldl_bytes_lt bytes 0
  unfold ofBigEndian
  rw [h]
  omega

theorem bigEndian_foldl (bytes : List UInt8) (a : Nat) :
    bigEndian bytes.length (bytes.foldl (fun n b => n * 256 + b.toNat) a) = bytes := by
  induction bytes generalizing a with
  | nil => rfl
  | cons b bytes ih =>
    have hb : b.toNat < 256 := b.toNat_lt
    rw [List.foldl_cons, List.length_cons, bigEndian, ih]
    obtain ⟨m, hm, h⟩ := foldl_bytes_lt bytes (a * 256 + b.toNat)
    have head : ((a * 256 + b.toNat) * 256 ^ bytes.length + m) / 256 ^ bytes.length =
        a * 256 + b.toNat := by
      rw [Nat.mul_comm, Nat.mul_add_div (Nat.pow_pos (by decide)), Nat.div_eq_of_lt hm,
        Nat.add_zero]
    rw [h, Nat.pow_eq, head]
    congr 1
    apply UInt8.toNat_inj.mp
    rw [UInt8.toNat_ofNat']
    omega

/-- Read and written again, bytes come back. -/
theorem bigEndian_ofBigEndian (bytes : List UInt8) :
    bigEndian bytes.length (ofBigEndian bytes) = bytes :=
  bigEndian_foldl bytes 0

/-- The lowest bytes of a number are a number of so many bytes. -/
theorem toNat_emod_pow_lt (n : Int) (size : Nat) : (n % Nat.pow 256 size).toNat < 256 ^ size := by
  have pos : (0 : Int) < (Nat.pow 256 size : Nat) := by exact_mod_cast Nat.pow_pos (by decide)
  have low := Int.emod_nonneg n (Int.ne_of_gt pos)
  have high := Int.emod_lt_of_pos n pos
  rw [Nat.pow_eq] at *
  omega

namespace NumberKind

theorem size_of_ofSize? {size : Nat} {signed : Bool} {kind : NumberKind}
    (h : ofSize? size signed = some kind) : kind.size = size ∧ kind.signed = signed := by
  unfold ofSize? at h
  split at h <;> cases h <;> exact ⟨rfl, rfl⟩

/-- The sizes that have a kind of number are the sizes that can be written. -/
theorem ofSize?_isSome (size : Nat) (signed : Bool) :
    (ofSize? size signed).isSome = [1, 2, 4, 8].contains size := by
  unfold ofSize?
  split <;> first
    | rfl
    | skip
  rename_i h1 h2 h3 h4 h5 h6 h7 h8
  cases signed <;> simp_all

end NumberKind

/-- A number that was read is written as the bytes that it was read from. -/
theorem bigEndian_word {kind : NumberKind} {bytes : List UInt8} (h : bytes.length = kind.size) :
    bigEndian kind.size
      ((Number.ofInt kind (ofBigEndian bytes)).word % Nat.pow 256 kind.size).toNat = bytes := by
  have bound := ofBigEndian_lt bytes
  have key : ((Number.ofInt kind (ofBigEndian bytes)).word % Nat.pow 256 kind.size).toNat =
      ofBigEndian bytes := by
    rw [h] at bound
    generalize ofBigEndian bytes = n at bound
    cases kind <;>
      simp only [Number.ofInt, Number.word, NumberKind.wrap, NumberKind.signed, NumberKind.count,
        NumberKind.size, Nat.pow_eq, Nat.reducePow, Bool.false_eq_true, ↓reduceIte,
        Int.bmod_def] at bound ⊢ <;>
      omega
  rw [key, ← h, bigEndian_ofBigEndian]

theorem fitsScalar_iff {c : Scalar} {kind : NumberKind}
    (hk : NumberKind.ofSize? c.size c.signed = some kind) (n : Int) :
    fitsScalar c n = true ↔
      (if kind.signed then kind = .i64 ∨ kind.holds n
        else 0 ≤ n ∧ (kind = .u64 ∨ kind.holds n)) := by
  obtain ⟨hsize, hsigned⟩ := NumberKind.size_of_ofSize? hk
  unfold fitsScalar Scalar.bits
  rw [← hsize, ← hsigned]
  cases kind <;>
    simp only [NumberKind.signed, ↓reduceIte, Bool.false_eq_true, Bool.and_eq_true,
      Bool.or_eq_true, decide_eq_true_eq] <;>
    simp [NumberKind.size, NumberKind.signed, NumberKind.holds, NumberKind.count]

/-- A number that fits is read back from the bytes that it is written in. -/
theorem word_ofInt_of_fits {c : Scalar} {kind : NumberKind} {n : Int}
    (hk : NumberKind.ofSize? c.size c.signed = some kind) (hfits : fitsScalar c n = true)
    (hn : fitsWord n = true) :
    (Number.ofInt kind (n % Nat.pow 256 c.size).toNat).word = n := by
  have hfits := (fitsScalar_iff hk n).mp hfits
  obtain ⟨hsize, -⟩ := NumberKind.size_of_ofSize? hk
  simp only [fitsWord, Bool.and_eq_true, decide_eq_true_eq] at hn
  rw [← hsize]
  cases kind <;>
    simp only [Number.ofInt, Number.word, NumberKind.wrap, NumberKind.signed, NumberKind.count,
      NumberKind.holds, NumberKind.size, Nat.pow_eq, Nat.reducePow, Bool.false_eq_true, ↓reduceIte,
      reduceCtorEq, false_or, true_or, and_true, Int.bmod_def] at hfits ⊢ <;>
    omega

/-- The number itself is read back, not only its word. -/
theorem ofInt_word {c : Scalar} {num : Number}
    (hk : NumberKind.ofSize? c.size c.signed = some num.kind)
    (hfits : fitsScalar c num.word = true) :
    Number.ofInt num.kind (num.word % Nat.pow 256 c.size).toNat = num := by
  have hfits := (fitsScalar_iff hk num.word).mp hfits
  obtain ⟨hsize, -⟩ := NumberKind.size_of_ofSize? hk
  rw [← hsize]
  obtain ⟨kind, value, holds⟩ := num
  have key : kind.wrap (((Number.mk kind value holds).word % Nat.pow 256 kind.size).toNat) =
      value := by
    cases kind <;>
      simp only [Number.word, NumberKind.wrap, NumberKind.signed, NumberKind.count,
        NumberKind.holds, NumberKind.size, Nat.pow_eq, Nat.reducePow, Bool.false_eq_true,
        ↓reduceIte, reduceCtorEq, false_or, true_or, and_true, Int.bmod_def] at hfits holds ⊢ <;>
      omega
  simp only [Number.ofInt, Number.mk.injEq, true_and]
  exact key

theorem fitsWord_word? {v : Value} {n : Int} (h : v.word? = some n) : fitsWord n = true := by
  cases v with
  | number num =>
    cases h
    exact fitsWord_bmod _
  | bool b =>
    cases b <;> (cases h; decide)
  | _ => cases h

/-- The bytes that a number is written in. -/
structure NumberBytes (c : Scalar) (n : Int) (bytes : List UInt8) : Prop where
  fits : fitsScalar c n = true
  size : [1, 2, 4, 8].contains c.size = true
  bytes_eq : bytes = bigEndian c.size (n % Nat.pow 256 c.size).toNat

namespace NumberBytes

theorem length_eq {c : Scalar} {n : Int} {bytes : List UInt8} (h : NumberBytes c n bytes) :
    bytes.length = c.size := by
  rw [h.bytes_eq, length_bigEndian]

end NumberBytes

theorem yields_writeScalar {c : Scalar} {n : Int} {k k' : Known} {bytes : List UInt8} :
    Yields (writeScalar c n) k bytes k' ↔ NumberBytes c n bytes ∧ k' = k := by
  have split : NumberBytes c n bytes ↔ fitsScalar c n = true ∧
      [1, 2, 4, 8].contains c.size = true ∧
        bytes = bigEndian c.size (n % Nat.pow 256 c.size).toNat :=
    ⟨fun h => ⟨h.fits, h.size, h.bytes_eq⟩, fun h => ⟨h.1, h.2.1, h.2.2⟩⟩
  rw [split]
  unfold writeScalar
  cases hfits : fitsScalar c n with
  | false => simp only [Bool.not_false, ↓reduceIte, Coding.invalid, not_yields_throw,
      Bool.false_eq_true, false_and]
  | true =>
    cases hsize : [1, 2, 4, 8].contains c.size with
    | false => simp only [Bool.not_true, Bool.false_eq_true, ↓reduceIte, Coding.invalid,
        not_yields_throw, false_and, and_false]
    | true => simp only [Bool.not_true, Bool.false_eq_true, ↓reduceIte, yields_pure, true_and]

theorem yields_integer {type field : String} {v : Value} {k k' : Known} {n : Int} :
    Yields (integer type field v) k n k' ↔ v.word? = some n ∧ k' = k := by
  unfold integer
  cases v.word? with
  | none => simp only [Coding.invalid, not_yields_throw, reduceCtorEq, false_and]
  | some m => simp only [yields_pure, Option.some.injEq, eq_comm]

end WireTables.Wire
