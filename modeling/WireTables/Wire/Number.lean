/-!
# Numbers of fixed size

The eight kinds of whole numbers on the wire: one, two, four or eight bytes, with or without a
sign. A number carries the proof that its kind can hold it, and it travels with its most
significant byte first.
-/

namespace WireTables.Wire

/-- A kind of number. -/
inductive NumberKind where
  | u8
  | u16
  | u32
  | u64
  | i8
  | i16
  | i32
  | i64
  deriving DecidableEq, Repr

namespace NumberKind

/-- The size in bytes. -/
def size : NumberKind → Nat
  | u8 | i8 => 1
  | u16 | i16 => 2
  | u32 | i32 => 4
  | u64 | i64 => 8

/-- Half of the numbers are negative. -/
def signed : NumberKind → Bool
  | u8 | u16 | u32 | u64 => false
  | i8 | i16 | i32 | i64 => true

/-- The name of a kind. -/
def label : NumberKind → String
  | u8 => "U8"
  | u16 => "U16"
  | u32 => "U32"
  | u64 => "U64"
  | i8 => "I8"
  | i16 => "I16"
  | i32 => "I32"
  | i64 => "I64"

/-- The number of different values. -/
def count : NumberKind → Nat
  | u8 | i8 => 0x100
  | u16 | i16 => 0x10000
  | u32 | i32 => 0x100000000
  | u64 | i64 => 0x10000000000000000

/-- The kind can hold a number. -/
def holds (k : NumberKind) (n : Int) : Prop :=
  if k.signed then -(k.count / 2 : Int) ≤ n ∧ n < (k.count / 2 : Int) else 0 ≤ n ∧ n < k.count

instance (k : NumberKind) (n : Int) : Decidable (k.holds n) := by
  unfold holds; infer_instance

/-- The number of the kind that has the same lowest bits. -/
def wrap (k : NumberKind) (n : Int) : Int :=
  if k.signed then Int.bmod n k.count else n % k.count

theorem holds_wrap (k : NumberKind) (n : Int) : k.holds (k.wrap n) := by
  cases k <;>
    simp [holds, wrap, signed, count, Int.emod_nonneg, Int.emod_lt_of_pos] <;>
    simp only [Int.bmod_def] <;> omega

/-- The unsigned or signed kind of a size. -/
def ofSize? (size : Nat) (signed : Bool) : Option NumberKind :=
  match size, signed with
  | 1, false => some u8
  | 1, true => some i8
  | 2, false => some u16
  | 2, true => some i16
  | 4, false => some u32
  | 4, true => some i32
  | 8, false => some u64
  | 8, true => some i64
  | _, _ => none

end NumberKind

/-- A number of some kind. -/
structure Number where
  kind : NumberKind
  value : Int
  holds : kind.holds value
  deriving DecidableEq

namespace Number

/-- The number of a kind with the lowest bits of a given one. -/
def ofInt (kind : NumberKind) (n : Int) : Number :=
  ⟨kind, kind.wrap n, kind.holds_wrap n⟩

/-- The number of a kind with a given value, if the kind can hold it. -/
def ofInt? (kind : NumberKind) (n : Int) : Option Number :=
  if h : kind.holds n then some ⟨kind, n, h⟩ else none

/-- The number as a signed 64-bit word. -/
def word (n : Number) : Int :=
  Int.bmod n.value 0x10000000000000000

end Number

/-- The lowest `size` bytes of a number, most significant first. -/
def bigEndian : Nat → Nat → List UInt8
  | 0, _ => []
  | size + 1, n => UInt8.ofNat (n / Nat.pow 256 size) :: bigEndian size n

/-- The number that bytes write, most significant first. -/
def ofBigEndian (bytes : List UInt8) : Nat :=
  bytes.foldl (fun n b => n * 256 + b.toNat) 0

end WireTables.Wire
