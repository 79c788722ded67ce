import Mathlib.Algebra.Order.Interval.Finset.SuccPred
import Mathlib.Algebra.Ring.GeomSum
import WireTables.Proofs.Expression.Spelling
import WireTables.Proofs.Ownership
import WireTables.Proofs.ConstantOrder
import WireTables.Proofs.Schema.Resolved
import WireTables.Proofs.TableOrder
import WireTables.Proofs.Translation

/-!
# Constants that describe bits

A member of a bitfield is described by constants: a single bit by its value, more than one by a
mask, the number of the first bit, and the number of bits. Extracting the table of a bitfield adds
them as texts, which are read and evaluated when references are checked.

Rows admit the bits 0 to 63, but values are signed 64-bit words. So the table is taken if and only
if no member reaches bit 63 (`bits_taken_iff`), apart from what any such table needs
(`Table.Acceptable`): it is no template for several tables, its own name is new, and the types that
its members name are there. Constants of a table that is taken have the values that they should
have. Where a member reaches bit 63, either the shift that gives its value overflows or its mask is
too large for a literal, and extraction fails on that text.

The steps are those of extraction. Rows give bits in order (`ordered_of_mem_bits`), all constants
and then the bitfield are added (`run_addTables`), there is nothing to link, and each constant is a
`Literal` or `Faulty`: what comes of it depends on no other constant and on no type, whatever has
been evaluated before.
-/

namespace WireTables

/-! ## Values that depend on nothing -/

namespace Schema

/-- The text has a value, and names neither constants nor types. -/
structure Literal (text : String) (n : Int) : Prop where
  mentioned : mentioned text 0 = []
  evaluates : Evaluates (fun _ _ => False) text 0 n

theorem literal_number {n : Int} {text : String} (h : (Token.number n text).Spelled)
    (hn : n ≤ Expression.maxWord) : Literal text n := by
  have htokens := Expression.tokens_number h hn
  refine ⟨?_, Nat.zero_le _, _, htokens, List.cons_ne_nil _ _, [.number n], ?_, rfl⟩
  · rw [mentioned, htokens]
    rfl
  · exact .cons .number .nil

theorem tokens_power {k : Nat} (hk : k ≤ Expression.maxWord) :
    Expression.tokens ("1 << " ++ toString k) =
      .ok [.number 1 "1", .operator .shift, .number k (toString k)] :=
  have hone : (Token.number 1 "1").Spelled := Expression.spelled_toString 1
  Expression.tokens_shift hone (Expression.spelled_toString k) (by decide) (Int.ofNat_le.mpr hk)

/-- A power of two that fits a signed word. -/
theorem literal_shift {k : Nat} (hk : k < 63) :
    Literal ("1 << " ++ toString k) ((2 ^ k : Nat) : Int) := by
  have hword : k ≤ Expression.maxWord := by
    unfold Expression.maxWord
    omega
  have htokens := tokens_power hword
  have hshift : Operator.shift.value? 1 k = some ((2 ^ k : Nat) : Int) := by
    have hlt : 2 ^ k < 2 ^ 63 := Nat.pow_lt_pow_right (by decide) hk
    have hcount : (0 ≤ (k : Int) && (k : Int) < 63) = true := by
      simp only [Bool.and_eq_true, decide_eq_true_eq]
      omega
    rw [Operator.value?, if_pos hcount, Int.toNat_natCast]
    show checkedWord (1 * ((2 ^ k : Nat) : Int)) = _
    generalize 2 ^ k = n at hlt
    exact Expression.checkedWord_iff.mpr ⟨by unfold Expression.InRange; omega, by omega⟩
  have hvalue : Expression.calculate [.number 1, .operator .shift, .number k] =
      .ok ((2 ^ k : Nat) : Int) := by
    show (Expression.applyTop .shift [(k : Int), 1]).bind _ = _
    rw [Expression.applyTop, hshift]
    rfl
  refine ⟨?_, Nat.zero_le _, _, htokens, List.cons_ne_nil _ _, _, ?_, hvalue⟩
  · rw [mentioned, htokens]
    rfl
  · exact .cons .number (.cons .operator (.cons .number .nil))

/-- The text names neither constants nor types, and evaluating it fails. -/
structure Faulty (text : String) (fault : ExpressionFault) : Prop where
  mentioned : mentioned text 0 = []
  fails (ask : Query → Eval Int) : evaluateWith ask text 0 = throw (.expression text fault)

theorem exists_faulty_number {n : Int} {text : String} (h : (Token.number n text).Spelled)
    (hn : Expression.maxWord < n) : ∃ fault, Faulty text fault := by
  obtain ⟨fault, htokens⟩ : ∃ fault, Expression.tokens text = .error fault :=
    (Expression.tokens_number_refused h hn).elim (⟨_, ·⟩) (⟨_, ·⟩)
  refine ⟨fault, ?_, fun ask => ?_⟩
  · rw [Schema.mentioned, htokens]
  · rw [evaluateWith, if_neg (by decide), htokens]
    rfl

/-- A power of two above the signed words. -/
theorem faulty_shift {k : Nat} (hk : 63 ≤ k) (hword : k ≤ Expression.maxWord) :
    Faulty ("1 << " ++ toString k) (.noValue 1 .shift k) := by
  have htokens := tokens_power hword
  have hshift : Operator.shift.value? 1 k = none := by
    rw [Operator.value?, if_neg]
    simp only [Bool.and_eq_true, decide_eq_true_eq]
    omega
  refine ⟨?_, fun ask => ?_⟩
  · rw [Schema.mentioned, htokens]
    rfl
  · rw [evaluateWith, if_neg (by decide), htokens]
    show faulty _ ((Expression.applyTop .shift [(k : Int), 1]).bind _) = _
    rw [Expression.applyTop, hshift]
    rfl

section Constants

variable {s : Schema} {name : String} {number : Nat} {c : Constant}
  (hr : s.resolveConstant? name = some number) (hc : s.constants[number]? = some c)

include hr hc

/-- Such a constant has its value whatever has been evaluated before. -/
theorem gives_of_literal {n : Int} (h : Literal c.expr n) :
    Gives s.Meant (s.constantValue name) n := by
  refine constantStep_succeeds hr hc (answer_denotes _) (fun q hq => ?_) h.evaluates
  rw [h.mentioned] at hq
  cases hq

/-- A faulty constant is found to be so whatever has been evaluated before. -/
theorem throws_of_faulty {fault : ExpressionFault} (h : Faulty c.expr fault) :
    Throws s.Meant (s.constantValue name) (.expression c.expr fault) := by
  intro known hk
  have hunknown : known.lookup number = none := by
    refine Option.eq_none_iff_forall_ne_some.mpr fun value hvalue => ?_
    obtain ⟨c', hc', hmeans⟩ := hk number value hvalue
    cases hc.symm.trans hc'
    have hgives : Gives (fun _ => True) (evaluateWith s.ask c.expr 0) value :=
      evaluateWith_succeeds (fun q hq => by rw [h.mentioned] at hq; cases hq) hmeans
    obtain ⟨_, -, hy⟩ := hgives known trivial
    rw [h.fails] at hy
    exact not_yields_throw hy
  have hfirst : Gives (· = known) (Eval.known? number) none := by
    rintro _ rfl
    exact ⟨_, rfl, yields_bind.mpr
      ⟨_, _, yields_get.mpr ⟨rfl, rfl⟩, yields_pure.mpr ⟨hunknown.symm, rfl⟩⟩⟩
  show (Id.run ((s.constantStep (s.answer _) name 0).run known)).1 = _
  unfold constantStep
  rw [hr]
  refine Throws.after hfirst ?_ known rfl
  rw [hc]
  refine Throws.bind ?_
  rw [h.fails]
  exact fun _ _ => rfl

end Constants

end Schema

/-! ## Masks -/

namespace BitfieldMember

variable {m : BitfieldMember}

theorem mask_eq (h : m.first ≤ m.last) (hlast : m.last < 64) :
    m.mask = (2 ^ m.width - 1) * 2 ^ m.first := by
  have hhigh : min (m.last + 1) 64 = m.width + m.first := by
    unfold width
    omega
  have hlow : min m.first 64 = m.first := by omega
  unfold mask
  rw [hhigh, hlow, Nat.sub_one_mul, ← Nat.pow_add]
  rfl

/-- The mask has all bits from the first to the last one. -/
theorem mask_eq_sum (h : m.first ≤ m.last) (hlast : m.last < 64) :
    m.mask = ∑ i ∈ Finset.Icc m.first m.last, 2 ^ i :=
  calc
    m.mask = 2 ^ m.first * (2 ^ m.width - 1) := by rw [mask_eq h hlast, Nat.mul_comm]
    _ = 2 ^ m.first * ∑ i ∈ Finset.range m.width, 2 ^ i := by
      rw [Nat.geomSum_eq (Nat.le_refl 2), Nat.div_one]
    _ = ∑ i ∈ Finset.range m.width, 2 ^ (m.first + i) := by
      simp only [Finset.mul_sum, Nat.pow_add]
    _ = ∑ i ∈ Finset.Icc m.first m.last, 2 ^ i := by
      rw [← Finset.Ico_add_one_right_eq_Icc, Finset.sum_Ico_eq_sum_range]
      rfl

end BitfieldMember

open Schema (Literal Faulty)

open Extraction (bitConstants)

/-- The constants whose names begin like this are what they should be for the bits from the first to
the last one. -/
def Describes (r : Registry) (start : String) (first last : Nat) : Prop :=
  if first = last then r.constantValue start = .ok (2 ^ first : Nat)
  else ∃ mask offset length : Nat,
    r.constantValue (start ++ "_BIT_MASK") = .ok mask ∧
    r.constantValue (start ++ "_BIT_OFFSET") = .ok offset ∧
    r.constantValue (start ++ "_BIT_LENGTH") = .ok length ∧
    mask = ∑ i ∈ Finset.Icc first last, 2 ^ i ∧ offset = first ∧ length = last - first + 1 ∧
    mask = (2 ^ length - 1) * 2 ^ offset

section Literals

variable {m : BitfieldMember} {name : String}

theorem width_eq_one_iff (h : m.first ≤ m.last) : m.width = 1 ↔ m.first = m.last := by
  unfold BitfieldMember.width
  omega

theorem literal_toString {n : Nat} (hn : n ≤ Expression.maxWord) : Literal (toString n) n :=
  Schema.literal_number (Expression.spelled_toString n) (Int.ofNat_le.mpr hn)

theorem literal_hexUpper {n : Nat} (hn : n ≤ Expression.maxWord) :
    Literal ("0x" ++ Text.hexUpper n) n :=
  Schema.literal_number (Expression.spelled_hexUpper n) (Int.ofNat_le.mpr hn)

/-- Numbers of bits are signed words. -/
theorem le_maxWord {n : Nat} (hn : n ≤ 63) : n ≤ Expression.maxWord := by
  unfold Expression.maxWord
  omega

/-- Below the sign bit masks are signed words. -/
theorem mask_le_maxWord (hlast : m.last < 63) : m.mask ≤ Expression.maxWord := by
  have hlt : 2 ^ min (m.last + 1) 64 ≤ 2 ^ 63 := Nat.pow_le_pow_right (by decide) (by omega)
  have hpos : 0 < 2 ^ min m.first 64 := Nat.two_pow_pos _
  unfold BitfieldMember.mask Expression.maxWord
  show 2 ^ min (m.last + 1) 64 - 2 ^ min m.first 64 ≤ _
  omega

/-- The mask of bits that reach the sign bit is no signed word. -/
theorem maxWord_lt_mask (h : m.first ≤ m.last) (hlast : m.last = 63) :
    Expression.maxWord < m.mask := by
  have hle : 2 ^ min m.first 64 ≤ 2 ^ 63 := Nat.pow_le_pow_right (by decide) (by omega)
  have htop : m.mask = 2 ^ 64 - 2 ^ min m.first 64 := by
    unfold BitfieldMember.mask
    rw [hlast]
    rfl
  unfold Expression.maxWord
  omega

/-- The constants of bits below the sign bit have values. -/
theorem exists_literal (h : m.first ≤ m.last) (hlast : m.last < 63) :
    ∀ p ∈ bitConstants name m, ∃ n, Literal p.2 n := by
  intro p hp
  unfold bitConstants at hp
  split at hp
  · obtain rfl := List.mem_singleton.mp hp
    exact ⟨_, Schema.literal_shift (Nat.lt_of_le_of_lt h hlast)⟩
  · simp only [List.mem_cons, List.not_mem_nil, or_false] at hp
    obtain rfl | rfl | rfl := hp
    · exact ⟨_, literal_hexUpper (mask_le_maxWord hlast)⟩
    · exact ⟨_, literal_toString (le_maxWord (by omega))⟩
    · exact ⟨_, literal_toString (le_maxWord (by unfold BitfieldMember.width; omega))⟩

variable (name) in
/-- Of the constants of bits that reach the sign bit the first one is faulty, and the others have
values. -/
theorem faulty_or_literal (h : m.first ≤ m.last) (hlast : m.last = 63) :
    ∃ p rest, bitConstants name m = p :: rest ∧ (∃ fault, Faulty p.2 fault) ∧
      ∀ q ∈ rest, ∃ n, Literal q.2 n := by
  have hmask : ∃ fault, Faulty ("0x" ++ Text.hexUpper m.mask) fault :=
    Schema.exists_faulty_number (Expression.spelled_hexUpper _)
      (Int.ofNat_lt.mpr (maxWord_lt_mask h hlast))
  unfold bitConstants
  split
  · next hone =>
    have hfirst : m.first = 63 := by
      rw [← hlast]
      exact (width_eq_one_iff h).mp (by simpa using hone)
    exact ⟨_, [], rfl, ⟨_, Schema.faulty_shift hfirst.ge (le_maxWord hfirst.le)⟩, nofun⟩
  · next hmore =>
    have hfirst : m.first ≠ m.last := mt (width_eq_one_iff h).mpr (by simpa using hmore)
    refine ⟨_, _, rfl, hmask, fun q hq => ?_⟩
    simp only [List.mem_cons, List.not_mem_nil, or_false] at hq
    obtain rfl | rfl := hq
    · exact ⟨_, literal_toString (le_maxWord (by omega))⟩
    · exact ⟨_, literal_toString (Nat.le_trans (m := 64) (by unfold BitfieldMember.width; omega)
        (by decide))⟩

/-- Constants that have the values that are written for them describe their bits. -/
theorem describes_of_literal {r : Registry} (h : m.first ≤ m.last) (hlast : m.last < 63)
    (hvalue : ∀ p ∈ bitConstants name m, ∀ n, Literal p.2 n → r.constantValue p.1 = .ok n) :
    Describes r (name ++ "_" ++ m.name) m.first m.last := by
  unfold bitConstants at hvalue
  by_cases hone : m.first = m.last
  · rw [if_pos (by simpa using (width_eq_one_iff h).mpr hone)] at hvalue
    rw [Describes, if_pos hone]
    exact hvalue _ List.mem_cons_self _ (Schema.literal_shift (Nat.lt_of_le_of_lt h hlast))
  · rw [if_neg (by simpa using mt (width_eq_one_iff h).mp hone)] at hvalue
    have hwidth : m.width = m.last - m.first + 1 := by
      unfold BitfieldMember.width
      omega
    rw [Describes, if_neg hone]
    simp only [List.forall_mem_cons] at hvalue
    obtain ⟨hmask, hoffset, hlength, -⟩ := hvalue
    exact ⟨m.mask, m.first, m.width, hmask _ (literal_hexUpper (mask_le_maxWord hlast)),
      hoffset _ (literal_toString (le_maxWord (by omega))),
      hlength _ (literal_toString (le_maxWord (by omega))),
      BitfieldMember.mask_eq_sum h (by omega), rfl, hwidth, BitfieldMember.mask_eq h (by omega)⟩

end Literals

/-! ## Rows -/

/-- The member of a bitfield that a row defines. -/
def BitsRow.member (row : BitsRow) : BitfieldMember :=
  { name := row.name, first := row.first, last := row.last, enumType := row.enumType,
    comment := row.comment }

/-- The bits that the rows of a table define. -/
def Table.bits (t : Table) : List BitsRow :=
  Row.contents (t.rows.filterMap (Row.read Row.bits?))

namespace Row

theorem readAll_eq_ok {content? : List String → Option (Row α)} {caption kind : String}
    {index : Nat} {rows : List (List String)}
    (h : ∀ cells ∈ rows, (read content? cells).isSome = true) :
    readAll content? caption kind index rows = .ok (rows.filterMap (read content?)) := by
  induction rows generalizing index with
  | nil => rfl
  | cons cells rows ih =>
    obtain ⟨row, hrow⟩ := Option.isSome_iff_exists.mp (h cells List.mem_cons_self)
    rw [readAll, hrow, ih fun c hc => h c (List.mem_cons_of_mem _ hc),
      List.filterMap_cons_some hrow]
    rfl

theorem le_of_bitNumber? {cs rest : List Char} {n : Nat} (h : bitNumber? cs = some (n, rest)) :
    n ≤ 63 := by
  unfold bitNumber? at h
  dsimp only at h
  split at h
  · next hcond =>
    cases h
    simpa using ((Bool.and_eq_true _ _).mp hcond).2
  · cases h

/-- Bits come in order, and there are no more than 64. -/
theorem le_of_bitRange? {cs : List Char} {first last : Nat}
    (h : bitRange? cs = some (first, last)) : first ≤ last ∧ last ≤ 63 := by
  unfold bitRange? at h
  obtain ⟨⟨a, rest⟩, ha, h⟩ := Option.bind_eq_some_iff.mp h
  have hle := le_of_bitNumber? ha
  dsimp only at h
  split at h
  · cases h
    exact ⟨Nat.le_refl _, hle⟩
  · split at h
    · obtain ⟨⟨b, after⟩, hb, h⟩ := Option.bind_eq_some_iff.mp h
      have hle' := le_of_bitNumber? hb
      dsimp only at h
      split at h
      · cases h
        omega
      · cases h
    · cases h

theorem le_of_bits? {cells : List String} {row : BitsRow} (h : bits? cells = some (.content row)) :
    row.first ≤ row.last ∧ row.last ≤ 63 := by
  unfold bits? at h
  dsimp only at h
  split at h
  · cases h
  · obtain ⟨⟨first, last⟩, hrange, h⟩ := Option.bind_eq_some_iff.mp h
    obtain ⟨⟨name, enumType⟩, -, h⟩ := Option.bind_eq_some_iff.mp h
    cases h
    exact le_of_bitRange? hrange

end Row

/-! ## Adding the table -/

/-- The constants that describe the bits of a table, in order. -/
def Table.bitConstants (t : Table) (name : String) : List Constant :=
  t.bits.flatMap fun row => (Extraction.bitConstants name row.member).map fun p =>
    .new p.1 p.2 name row.comment

theorem Table.mem_bitConstants {t : Table} {name : String} {c : Constant} :
    c ∈ t.bitConstants name ↔ ∃ row ∈ t.bits, ∃ p ∈ Extraction.bitConstants name row.member,
      Constant.new p.1 p.2 name row.comment = c := by
  simp only [bitConstants, List.mem_flatMap, List.mem_map]

namespace Build

variable {α β : Type} {config : Config} {s s' : Schema} {c : Constant}

/-- A step that succeeds goes on with what it gives. -/
theorem run_bind {m : Build α} {f : α → Build β} {a : α} (h : m s = .ok (a, s')) :
    (m >>= f) s = f a s' := by
  show Except.bind (m s) (fun p => f p.1 p.2) = _
  rw [h]
  rfl

theorem run_lift {r : Except Error α} {a : α} (h : r = .ok a) :
    (StateT.lift r : Build α) s = .ok (a, s) := by
  rw [h]
  rfl

theorem run_update {f : Schema → Except Error Schema} (h : f s = .ok s') :
    Build.update f s = .ok ((), s') := by
  unfold Build.update
  rw [get_bind_apply]
  exact run_bind (run_lift h)

theorem run_addConstant (h : s.hasConstant c.specName = false) : addConstant config c s =
    .ok (some s.constants.size, { s with constants := s.constants.push c }) := by
  have hadd : s.addConstant c = .ok { s with constants := s.constants.push c } := by
    rw [Schema.addConstant, if_neg (by simp [h])]
  unfold addConstant
  rw [get_bind_apply, if_neg (by simp [h])]
  exact run_bind (run_update hadd)

/-- Constants with new names are all added. -/
theorem run_addConstants {g : α → Constant} {xs : List α}
    (h : ((s.constants.toList ++ xs.map g).map (·.specName)).Nodup) :
    (xs.filterMapM fun x => addConstant config (g x)) s =
      .ok (List.range' s.constants.size xs.length,
        { s with constants := s.constants ++ (xs.map g).toArray }) := by
  induction xs generalizing s with
  | nil =>
    rw [List.map_nil, Array.append_empty]
    rfl
  | cons x xs ih =>
    have hnew : s.hasConstant (g x).specName = false := by
      refine Bool.eq_false_iff.mpr fun hhas => ?_
      obtain ⟨d, hd, hname⟩ := Schema.hasConstant_iff.mp hhas
      rw [List.map_append, List.nodup_append] at h
      exact h.2.2 _ (List.mem_map_of_mem (Array.mem_toList_iff.mpr hd)) _
        (List.mem_map_of_mem List.mem_cons_self) hname
    have hrest : (xs.filterMapM fun x => addConstant config (g x))
        { s with constants := s.constants.push (g x) } = _ := ih (by simpa using h)
    have happend : s.constants.push (g x) ++ (xs.map g).toArray =
        s.constants ++ ((x :: xs).map g).toArray := by simp
    rw [Array.size_push, happend] at hrest
    rw [List.filterMapM_cons, run_bind (run_addConstant hnew)]
    exact run_bind hrest

theorem run_addType {t : TypeEntry} (h : s.contains t.specName = false) : addType t s =
    .ok ((), { s with types := s.types ++ [{ t with id := s.types.length }] }) := by
  refine run_update ?_
  rw [Schema.addType, if_neg (by simp [h])]

theorem run_addType_known {t : TypeEntry} (h : s.contains t.specName = true) :
    addType t s = .error (.duplicateType t.specName) := by
  have hadd : s.addType t = .error (.duplicateType t.specName) := by
    rw [Schema.addType, if_pos h]
  unfold addType Build.update
  rw [get_bind_apply]
  show Except.bind (Except.bind (s.addType t) _) _ = _
  rw [hadd]
  rfl

end Build

namespace Extraction

open Build (get_bind_apply)

variable {config : Config} {t : Table} {name base : String} {s : Schema}

/-- The bitfield that a table defines, whose constants have the numbers from `start` on. -/
def bitfieldOf (t : Table) (name base : String) (start : Nat) : TypeEntry :=
  .new name (.bitfield
    { underlying := base
      members := t.bits.map BitsRow.member
      constants := List.range' start (t.bitConstants name).length
      errorCode := Row.lastErrorCode (t.rows.filterMap (Row.read Row.bits?)) })

/-- The schema with the constants of a table. -/
def withBits (t : Table) (name : String) (s : Schema) : Schema :=
  { s with constants := s.constants ++ (t.bitConstants name).toArray }

/-- The schema with the bitfield of a table and its constants. -/
def withBitfield (t : Table) (name base : String) (s : Schema) : Schema :=
  { withBits t name s with
    types := s.types ++ [{ bitfieldOf t name base s.constants.size with id := s.types.length }] }

/-- Constants with new names are added before the bitfield is. -/
theorem run_addBitfield
    (hnames : ((s.constants.toList ++ t.bitConstants name).map (·.specName)).Nodup) :
    addBitfield config name base (t.rows.filterMap (Row.read Row.bits?)) s =
      Build.addType (bitfieldOf t name base s.constants.size) (withBits t name s) := by
  let described := (t.bits.map BitsRow.member).flatMap fun m => (bitConstants name m).map (m, ·)
  let constantOf (x : BitfieldMember × String × String) : Constant :=
    .new x.2.1 x.2.2 name x.1.comment
  have hconstants : described.map constantOf = t.bitConstants name := by
    simp only [described, Table.bitConstants, List.flatMap_map, List.map_flatMap, List.map_map]
    rfl
  have hadded : (described.filterMapM fun x => Build.addConstant config (constantOf x)) s =
      .ok (List.range' s.constants.size described.length,
        { s with constants := s.constants ++ (described.map constantOf).toArray }) :=
    Build.run_addConstants (hconstants ▸ hnames)
  have hlength : described.length = (t.bitConstants name).length := by
    rw [← hconstants, List.length_map]
  rw [hconstants, hlength] at hadded
  exact Build.run_bind hadded

/-- With a single table only the second round does something, if it defines no algorithms. -/
theorem run_addTables_single (hkind : Caption.kind? t.caption = some (.bitfield name base)) :
    addTables config [t] s = addOtherTable config {} t s := by
  have hother : isAlgorithmTable t = false := by
    unfold isAlgorithmTable
    rw [hkind]
  have hone : ∀ (add : ExtractionReport → Table → Build ExtractionReport) (report),
      [t].foldlM add report = add report t := fun add report => by
    rw [List.foldlM_cons]
    exact bind_pure _
  unfold addTables
  rw [hone, addAlgorithmTable_of_other hother, pure_bind, hone]

section Empty

variable (hkind : Caption.kind? t.caption = some (.bitfield name base))
  (hplain : t.expand s.algorithms = .ok none)
  (hrows : ∀ cells ∈ t.rows, (Row.read Row.bits? cells).isSome = true)
  (hempty : s.constants = #[]) (hnames : ((t.bitConstants name).map (·.specName)).Nodup)

include hkind hplain hrows hempty hnames

/-- A table that holds no marker is added as it stands. -/
theorem run_addTables : addTables config [t] s =
    (Build.addType (bitfieldOf t name base s.constants.size) (withBits t name s)).map
      fun p => ({ processed := 1 }, p.2) := by
  have hnames : ((s.constants.toList ++ t.bitConstants name).map (·.specName)).Nodup := by
    simpa [hempty] using hnames
  have htable : addTable config t (.bitfield name base) s =
      Build.addType (bitfieldOf t name base s.constants.size) (withBits t name s) :=
    (Build.run_bind (Build.run_lift (Row.readAll_eq_ok hrows))).trans (run_addBitfield hnames)
  rw [run_addTables_single hkind, addOtherTable_of_plain hplain, ← htable]
  unfold addExpandedTable
  rw [hkind]
  show Except.bind (addTable config t (.bitfield name base) s) _ = _
  cases addTable config t (.bitfield name base) s <;> rfl

theorem run_addTables_new (hnew : s.contains name = false) :
    addTables config [t] s = .ok ({ processed := 1 }, withBitfield t name base s) := by
  have htype : Build.addType (bitfieldOf t name base s.constants.size) (withBits t name s) =
      .ok ((), withBitfield t name base s) := Build.run_addType hnew
  rw [run_addTables hkind hplain hrows hempty hnames, htype]
  rfl

theorem run_addTables_known (hknown : s.contains name = true) :
    addTables config [t] s = .error (.duplicateType name) := by
  have htype : Build.addType (bitfieldOf t name base s.constants.size) (withBits t name s) =
      .error (.duplicateType name) := Build.run_addType_known hknown
  rw [run_addTables hkind hplain hrows hempty hnames, htype]
  rfl

end Empty

/-! ## Checking what the table refers to -/

theorem mapRecord_of_record? {u : TypeEntry} (h : u.record? = none) (f : Record → Record) :
    u.mapRecord f = u := by
  obtain ⟨id, specName, name, comment, implemented, kind⟩ := u
  cases kind
  case record => cases h
  all_goals rfl

/-- Without structures there is nothing to link. -/
theorem linked_eq (h : ∀ u ∈ s.types, u.record? = none) : (selectArrays s).linkUnions = s := by
  have same : ∀ f : TypeEntry → Record → Record,
      s.types.map (fun u => u.mapRecord (f u)) = s.types := fun f => by
    rw [List.map_congr_left fun u hu => mapRecord_of_record? (h u hu) (f u), List.map_id']
  have hselected : selectArrays s = s := by
    unfold selectArrays
    dsimp only
    rw [same fun _ r => _]
  rw [hselected]
  unfold Schema.linkUnions
  dsimp only
  rw [same fun u r => _]

/-- Types that are there stay so, and the bitfield comes in. -/
theorem contains_withBitfield {type : String} :
    (withBitfield t name base s).contains type = true ↔ type = name ∨ s.contains type = true := by
  have hnames : (withBitfield t name base s).names = s.names ++ [name] :=
    List.map_append
  rw [Schema.contains_iff, Schema.contains_iff, hnames, List.mem_append, List.mem_singleton,
    or_comm]

theorem gives_checkType {P : Known → Prop} {type referrer : String} (h : s.contains type = true) :
    Gives P (s.checkType type referrer) () := by
  obtain ⟨u, hu⟩ := Option.isSome_iff_exists.mp h
  exact (Gives.ofExcept (Schema.require_eq_ok.mpr hu)).bind .pure

/-- What a bitfield refers to is there if its base and the enumerations of its members are. -/
theorem gives_checkEntry {P : Known → Prop} {u : TypeEntry} {b : BitfieldType}
    (hkind : u.kind = .bitfield b) (hbase : s.contains b.underlying = true)
    (htypes : ∀ m ∈ b.members, ∀ type ∈ m.enumType, s.contains type = true) :
    Gives P (s.checkEntry u) () := by
  unfold Schema.checkEntry
  rw [hkind]
  refine (gives_checkType hbase).bind (Gives.forM fun m hm => ?_)
  cases htype : m.enumType with
  | none => exact .pure
  | some type => exact gives_checkType (htypes m hm type htype)

/-- Everything that the types refer to is there. -/
theorem gives_entries {P : Known → Prop} (hvalues : ∀ u ∈ s.types, ∃ v, u.kind = .value v)
    (hbase : s.contains base = true)
    (htypes : ∀ row ∈ t.bits, ∀ type ∈ row.enumType, type = name ∨ s.contains type = true) :
    ∀ u ∈ (withBitfield t name base s).types,
      Gives P ((withBitfield t name base s).checkEntry u) () := by
  intro u hu
  rcases List.mem_append.mp hu with hu | hu
  · obtain ⟨v, hv⟩ := hvalues u hu
    unfold Schema.checkEntry
    rw [hv]
    exact .pure
  · obtain rfl := List.mem_singleton.mp hu
    refine gives_checkEntry rfl (contains_withBitfield.mpr (.inr hbase)) fun m hm type htype => ?_
    obtain ⟨row, hrow, rfl⟩ := List.mem_map.mp hm
    exact contains_withBitfield.mpr (htypes row hrow type htype)

theorem record?_withBitfield (hvalues : ∀ u ∈ s.types, ∃ v, u.kind = .value v) :
    ∀ u ∈ (withBitfield t name base s).types, u.record? = none := by
  intro u hu
  rcases List.mem_append.mp hu with hu | hu
  · obtain ⟨v, hv⟩ := hvalues u hu
    rw [TypeEntry.record?, hv]
  · obtain rfl := List.mem_singleton.mp hu
    rfl

/-- Tables that define no structures give what they add if its references hold. -/
theorem extract_eq {tables : List Table} {report : ExtractionReport}
    (hadd : addTables config tables { Schema.initial with algPrefix := config.algPrefix } =
      .ok (report, s)) (hrecords : ∀ u ∈ s.types, u.record? = none) :
    extract tables config = match Id.run (s.checkReferences.run []) with
      | (.ok (), known) => .ok ({ s with known }, report)
      | (.error e, _) => .error e := by
  unfold extract Registry.calculate
  rw [hadd]
  dsimp only [bind, Except.bind]
  rw [linked_eq hrecords]
  rcases hrun : Id.run (s.checkReferences.run []) with ⟨_ | _, known⟩
  all_goals
    rw [show s.checkReferences.run [] = _ from hrun]
    rfl

/-- What is reported is what adding the tables reports. -/
theorem exists_addTables {tables : List Table} {r : Registry} {report : ExtractionReport}
    (h : extract tables config = .ok (r, report)) :
    ∃ s, addTables config tables { Schema.initial with algPrefix := config.algPrefix } =
      .ok (report, s) := by
  unfold extract at h
  obtain ⟨⟨report', s⟩, hadd, h⟩ := bind_eq_ok.mp h
  dsimp only at h
  split at h
  · cases h
    exact ⟨s, hadd⟩
  · cases h

/-- Bits that rows define are in order. -/
theorem ordered_of_mem_bits (hrows : ∀ cells ∈ t.rows, (Row.read Row.bits? cells).isSome = true)
    {row : BitsRow} (hrow : row ∈ t.bits) :
    row.member.first ≤ row.member.last ∧ row.member.last ≤ 63 := by
  have hread : Row.readAll Row.bits? t.caption "" 0 t.rows = .ok _ := Row.readAll_eq_ok hrows
  obtain ⟨cells, hcells⟩ := Row.exists_of_readAll hread row hrow
  exact Row.le_of_bits? hcells

section Values

variable (hempty : s.constants = #[]) (hnames : ((t.bitConstants name).map (·.specName)).Nodup)

include hempty

variable (base) in
theorem constants_withBitfield :
    (withBitfield t name base s).constants.toList = t.bitConstants name := by
  simp [withBitfield, withBits, hempty]

include hnames

variable (base) in
/-- Each constant is found under its name. -/
theorem exists_number {c : Constant} (hc : c ∈ t.bitConstants name) :
    ∃ number, (withBitfield t name base s).resolveConstant? c.specName = some number ∧
      (withBitfield t name base s).constants[number]? = some c := by
  have hmem : c ∈ (withBitfield t name base s).constants.toList :=
    constants_withBitfield base hempty ▸ hc
  obtain ⟨number, hnumber⟩ := Array.getElem?_of_mem (Array.mem_toList_iff.mp hmem)
  have hunique : ((withBitfield t name base s).constants.toList.map (·.specName)).Nodup := by
    rwa [constants_withBitfield base hempty]
  exact ⟨number, Registry.resolveConstant?_specName (r := { withBitfield t name base s with })
    hunique hnumber, hnumber⟩

/-- Each constant has the value that is written for it. -/
theorem gives_constantValue {c : Constant} (hc : c ∈ t.bitConstants name) {n : Int}
    (hn : Literal c.expr n) : Gives (withBitfield t name base s).Meant
      ((withBitfield t name base s).constantValue c.specName) n := by
  obtain ⟨number, hr, hnumber⟩ := exists_number base hempty hnames hc
  exact Schema.gives_of_literal hr hnumber hn

/-- A constant for which no value is written has none. -/
theorem throws_constantValue {c : Constant} (hc : c ∈ t.bitConstants name)
    {fault : ExpressionFault} (h : Faulty c.expr fault) : Throws (withBitfield t name base s).Meant
      ((withBitfield t name base s).constantValue c.specName) (.expression c.expr fault) := by
  obtain ⟨number, hr, hnumber⟩ := exists_number base hempty hnames hc
  exact Schema.throws_of_faulty hr hnumber h

variable (hordered : ∀ row ∈ t.bits, row.member.first ≤ row.member.last ∧ row.member.last ≤ 63)
  (hentries : Gives (withBitfield t name base s).Meant
    ((withBitfield t name base s).types.forM (withBitfield t name base s).checkEntry) ⟨⟩)

include hordered hentries

/-- References hold if no member reaches the sign bit. -/
theorem gives_checkReferences (hlow : ∀ row ∈ t.bits, row.last ≠ 63) :
    Gives (withBitfield t name base s).Meant (withBitfield t name base s).checkReferences () := by
  refine hentries.bind (Schema.gives_constants fun c hc => ?_)
  have hc : c ∈ t.bitConstants name := constants_withBitfield base hempty ▸ hc
  obtain ⟨row, hrow, p, hp, rfl⟩ := Table.mem_bitConstants.mp hc
  obtain ⟨hle, hlast⟩ := hordered row hrow
  obtain ⟨n, hn⟩ := exists_literal hle (lt_of_le_of_ne hlast (hlow row hrow)) p hp
  exact ⟨n, gives_constantValue hempty hnames hc hn⟩

/-- A member that reaches the sign bit is found out by one of the constants. -/
theorem throws_checkReferences (hhigh : ∃ row ∈ t.bits, row.last = 63) :
    ∃ c ∈ t.bitConstants name, ∃ fault, Throws (withBitfield t name base s).Meant
      (withBitfield t name base s).checkReferences (.expression c.expr fault) := by
  have hchecked : ∃ c ∈ (withBitfield t name base s).constants.toList, ∃ e,
      (∃ fault, e = .expression c.expr fault) ∧ Throws (withBitfield t name base s).Meant
        ((withBitfield t name base s).constants.toList.forM fun c => do
          let _ ← (withBitfield t name base s).constantValue c.specName) e := by
    rw [constants_withBitfield base hempty]
    refine Throws.forM (fun c hc => ?_) ?_
    · obtain ⟨row, hrow, p, hp, rfl⟩ := Table.mem_bitConstants.mp hc
      obtain ⟨hle, hlast⟩ := hordered row hrow
      rcases hlast.lt_or_eq with hlast | hlast
      · obtain ⟨n, hn⟩ := exists_literal hle hlast p hp
        exact .inl ((gives_constantValue hempty hnames hc hn).bind .pure)
      · obtain ⟨q, rest, hall, ⟨fault, hq⟩, hrest⟩ := faulty_or_literal name hle hlast
        rcases List.mem_cons.mp (hall ▸ hp) with rfl | hp
        · exact .inr ⟨_, ⟨fault, rfl⟩, (throws_constantValue hempty hnames hc hq).bind⟩
        · obtain ⟨n, hn⟩ := hrest p hp
          exact .inl ((gives_constantValue hempty hnames hc hn).bind .pure)
    · obtain ⟨row, hrow, hlast⟩ := hhigh
      obtain ⟨q, rest, hall, ⟨fault, hq⟩, -⟩ :=
        faulty_or_literal name (hordered row hrow).1 hlast
      have hc := Table.mem_bitConstants.mpr ⟨row, hrow, q, hall ▸ List.mem_cons_self, rfl⟩
      exact ⟨_, hc, _, ⟨fault, rfl⟩, (throws_constantValue hempty hnames hc hq).bind⟩
  obtain ⟨c, hc, _, ⟨fault, rfl⟩, hthrows⟩ := hchecked
  refine ⟨c, constants_withBitfield base hempty ▸ hc, fault, Throws.after hentries ?_⟩
  rwa [Schema.forM_constants]

end Values

end Extraction

/-- Without algorithms a table stands for itself or for nothing. -/
theorem Table.expand_nil (t : Table) : t.expand [] = .ok none ∨ ∃ u, t.expand [] = .error u := by
  have hmatching : ∀ classes, Algorithm.matching [] classes = [] := fun classes => by
    unfold Algorithm.matching
    split <;> rfl
  unfold expand
  split
  · simp only [hmatching]
    exact .inr ⟨_, rfl⟩
  · split
    · next hmarked =>
      obtain ⟨cells, hcells, hmarker⟩ := List.any_eq_true.mp hmarked
      cases hall : t.rows.mapM (expandRow []) with
      | error u => exact .inr ⟨u, rfl⟩
      | ok rows =>
        obtain ⟨_, -, hrow⟩ := exists_of_forall₂ (mapM_eq_ok.mp hall).flip hcells
        unfold expandRow at hrow
        rw [if_pos hmarker] at hrow
        simp only [hmatching] at hrow
        cases hrow
    · exact .inl rfl

/-- What the table of a bitfield needs besides its rows: it is no template, its name is new, and the
types that its members name are there. -/
structure Table.Acceptable (t : Table) (name : String) : Prop where
  plain : t.expand [] = .ok none
  new : Schema.initial.contains name = false
  types : ∀ row ∈ t.bits, ∀ type ∈ row.enumType,
    type = name ∨ Schema.initial.contains type = true

namespace Extraction

/-- The schema that extraction starts with. -/
def start (config : Config) : Schema :=
  { Schema.initial with algPrefix := config.algPrefix }

theorem exists_value_of_mem_start {config : Config} :
    ∀ u ∈ (start config).types, ∃ v, u.kind = .value v := by
  simp [start, Schema.initial, Schema.elementary, TypeEntry.new]

section Taken

variable {t : Table} {config : Config} {name base : String} {r : Registry}
  (hkind : Caption.kind? t.caption = some (.bitfield name base))
  (hbase : Schema.initial.contains base = true)
  (hrows : ∀ cells ∈ t.rows, (Row.read Row.bits? cells).isSome = true)
  (hnames : ((t.bitConstants name).map (·.specName)).Nodup)

include hkind

/-- A table that counts as processed is no template. -/
theorem plain_of_extract (h : extract [t] config = .ok (r, { processed := 1 })) :
    t.expand [] = .ok none := by
  refine t.expand_nil.resolve_right ?_
  rintro ⟨u, hu⟩
  obtain ⟨s, hadd⟩ := exists_addTables h
  rw [run_addTables_single hkind, addOtherTable_of_unclassified hu] at hadd
  cases hadd

include hrows hnames

/-- Extraction adds the bitfield and checks all references. -/
theorem extract_of_new (hplain : t.expand [] = .ok none)
    (hnew : Schema.initial.contains name = false) :
    extract [t] config =
      match Id.run ((withBitfield t name base (start config)).checkReferences.run []) with
      | (.ok (), known) =>
        .ok ({ withBitfield t name base (start config) with known }, { processed := 1 })
      | (.error e, _) => .error e :=
  extract_eq (run_addTables_new hkind hplain hrows rfl hnames hnew)
    (record?_withBitfield exists_value_of_mem_start)

/-- The name of a table that is taken is new. -/
theorem new_of_extract (h : extract [t] config = .ok (r, { processed := 1 })) :
    Schema.initial.contains name = false := by
  obtain ⟨s, hadd⟩ := exists_addTables h
  refine Bool.eq_false_iff.mpr fun hknown => ?_
  have hfails : addTables config [t] (start config) = .error (.duplicateType name) :=
    run_addTables_known hkind (plain_of_extract hkind h) hrows rfl hnames hknown
  cases hfails.symm.trans hadd

/-- A table that is taken has passed the check of its references. -/
theorem yields_of_extract (h : extract [t] config = .ok (r, { processed := 1 })) :
    ∃ known, Yields (withBitfield t name base (start config)).checkReferences [] () known ∧
      r = { withBitfield t name base (start config) with known } := by
  rw [extract_of_new hkind hrows hnames (plain_of_extract hkind h)
    (new_of_extract hkind hrows hnames h)] at h
  split at h
  · next known hrun =>
    cases h
    exact ⟨known, hrun, rfl⟩
  · cases h

/-- Such a table lacks nothing. -/
theorem acceptable_of_extract (h : extract [t] config = .ok (r, { processed := 1 })) :
    t.Acceptable name := by
  refine ⟨plain_of_extract hkind h, new_of_extract hkind hrows hnames h,
    fun row hrow type htype => ?_⟩
  obtain ⟨known, hy, -⟩ := yields_of_extract hkind hrows hnames h
  have hentry : { bitfieldOf t name base 0 with id := (start config).types.length } ∈
      (withBitfield t name base (start config)).types := List.mem_append_right _ List.mem_cons_self
  have hreferred : type ∈ (withBitfield t name base (start config)).names :=
    (Schema.resolves_of_checkReferences hy _ hentry).references type <|
      List.mem_cons_of_mem _ <| List.mem_filterMap.mpr ⟨row.member, List.mem_map_of_mem hrow, htype⟩
  exact contains_withBitfield.mp (Schema.contains_iff.mpr hreferred)

include hbase

omit hkind hrows hnames in
/-- The types of the table are there. -/
theorem gives_start (h : t.Acceptable name) {P : Known → Prop} :
    Gives P ((withBitfield t name base (start config)).types.forM
      (withBitfield t name base (start config)).checkEntry) ⟨⟩ :=
  Gives.forM (gives_entries exists_value_of_mem_start hbase h.types)

/-- It is taken if no member reaches bit 63. -/
theorem extract_of_low (h : t.Acceptable name) (hlow : ∀ row ∈ t.bits, row.last ≠ 63) :
    ∃ r, extract [t] config = .ok (r, { processed := 1 }) := by
  obtain ⟨known, -, hy⟩ := gives_checkReferences rfl hnames
    (fun _ => ordered_of_mem_bits hrows) (gives_start hbase h) hlow [] Schema.meant_nil
  have hrun : Id.run ((withBitfield t name base (start config)).checkReferences.run []) =
      (.ok (), known) := hy
  rw [extract_of_new hkind hrows hnames h.plain h.new, hrun]
  exact ⟨_, rfl⟩

/-- It is refused for the text of a constant if one does. -/
theorem extract_of_high (h : t.Acceptable name) (hhigh : ∃ row ∈ t.bits, row.last = 63) :
    ∃ c ∈ t.bitConstants name, ∃ fault,
      extract [t] config = .error (.expression c.expr fault) := by
  obtain ⟨c, hc, fault, hthrows⟩ := throws_checkReferences rfl hnames
    (fun _ => ordered_of_mem_bits hrows) (gives_start hbase h) hhigh
  have hrun := hthrows [] Schema.meant_nil
  refine ⟨c, hc, fault, ?_⟩
  rw [extract_of_new hkind hrows hnames h.plain h.new]
  split
  · next hok =>
    rw [hok] at hrun
    cases hrun
  · next herror =>
    rw [herror] at hrun
    cases hrun
    rfl

end Taken

end Extraction

/-- A table of a bitfield over an elementary type is taken if and only if it has what any such table
needs and none of its members reaches bit 63. The constants of a table that is taken are the values
of its single bits, and the masks, offsets and lengths of its other members. If all that is missing
is that a member reaches bit 63, extraction fails on the text of one of the constants. -/
theorem bits_taken_iff {t : Table} {config : Config} {name base : String}
    (hkind : Caption.kind? t.caption = some (.bitfield name base))
    (hbase : Schema.initial.contains base = true)
    (hrows : ∀ cells ∈ t.rows, (Row.read Row.bits? cells).isSome = true)
    (hnames : ((t.bitConstants name).map (·.specName)).Nodup) :
    ((∃ r, Extraction.extract [t] config = .ok (r, { processed := 1 })) ↔
      t.Acceptable name ∧ ∀ row ∈ t.bits, row.last ≠ 63) ∧
    (∀ r, Extraction.extract [t] config = .ok (r, { processed := 1 }) →
      ∀ row ∈ t.bits, Describes r (name ++ "_" ++ row.name) row.first row.last) ∧
    (t.Acceptable name → (∃ row ∈ t.bits, row.last = 63) →
      ∃ c ∈ t.bitConstants name, ∃ fault,
        Extraction.extract [t] config = .error (.expression c.expr fault)) := by
  have hlow : ∀ r, Extraction.extract [t] config = .ok (r, { processed := 1 }) →
      ∀ row ∈ t.bits, row.last ≠ 63 := by
    intro r h row hrow hlast
    obtain ⟨c, -, fault, hfails⟩ := Extraction.extract_of_high hkind hbase hrows hnames
      (Extraction.acceptable_of_extract hkind hrows hnames h) ⟨row, hrow, hlast⟩
    cases hfails.symm.trans h
  refine ⟨⟨?_, ?_⟩, fun r h row hrow => ?_, Extraction.extract_of_high hkind hbase hrows hnames⟩
  · rintro ⟨r, h⟩
    exact ⟨Extraction.acceptable_of_extract hkind hrows hnames h, hlow r h⟩
  · rintro ⟨hacceptable, hlow⟩
    exact Extraction.extract_of_low hkind hbase hrows hnames hacceptable hlow
  · obtain ⟨hle, hlast⟩ := Extraction.ordered_of_mem_bits hrows hrow
    obtain ⟨known, hy, rfl⟩ := Extraction.yields_of_extract hkind hrows hnames h
    refine describes_of_literal hle (lt_of_le_of_ne hlast (hlow _ h row hrow)) fun p hp n hn => ?_
    have hc := Table.mem_bitConstants.mpr ⟨row, hrow, p, hp, rfl⟩
    obtain ⟨known', -, hyields⟩ := Extraction.gives_constantValue rfl hnames hc hn known
      (Schema.meant_of_checkReferences hy)
    exact Registry.calculate_eq_ok.mpr ⟨known', hyields⟩

/-- The attributes of a session: a single bit, reserved ones, and three bits that a type is named
for. -/
def sessionBits : Table :=
  { caption := "Table 32 — Definition of (UINT8) TPMA_SESSION Bits <IN/OUT>"
    rows := [["0", "continueSession", "keep the session open"], ["4:1", "Reserved", ""],
      ["7:5", "mode : BYTE", "a three-bit field"]] }

/-- Attributes that take up a whole word. -/
def wideBits : Table :=
  { caption := "Table 34 — Definition of (UINT64) TPMA_WIDE Bits"
    rows := [["61:0", "low", ""], ["62", "high", ""], ["63", "top", ""]] }

/-- What the tables above are read as. -/
theorem read_sessionBits :
    Caption.kind? sessionBits.caption = some (.bitfield "TPMA_SESSION" "UINT8") ∧
    Schema.initial.contains "UINT8" = true ∧
    (∀ cells ∈ sessionBits.rows, (Row.read Row.bits? cells).isSome = true) ∧
    ((sessionBits.bitConstants "TPMA_SESSION").map (·.specName)).Nodup ∧
    sessionBits.bits = [⟨0, 0, "continueSession", none, "keep the session open"⟩,
      ⟨5, 7, "mode", some "BYTE", "a three-bit field"⟩] := by
  decide +kernel

theorem read_wideBits :
    Caption.kind? wideBits.caption = some (.bitfield "TPMA_WIDE" "UINT64") ∧
    Schema.initial.contains "UINT64" = true ∧
    (∀ cells ∈ wideBits.rows, (Row.read Row.bits? cells).isSome = true) ∧
    ((wideBits.bitConstants "TPMA_WIDE").map (·.specName)).Nodup ∧
    wideBits.bits = [⟨0, 61, "low", none, ""⟩, ⟨62, 62, "high", none, ""⟩,
      ⟨63, 63, "top", none, ""⟩] := by
  decide +kernel

theorem acceptable_sessionBits : sessionBits.Acceptable "TPMA_SESSION" := by
  obtain ⟨-, -, -, -, hbits⟩ := read_sessionBits
  refine ⟨rfl, by decide +kernel, ?_⟩
  rw [hbits]
  decide +kernel

theorem acceptable_wideBits : wideBits.Acceptable "TPMA_WIDE" := by
  obtain ⟨-, -, -, -, hbits⟩ := read_wideBits
  refine ⟨rfl, by decide +kernel, ?_⟩
  rw [hbits]
  decide

theorem bits_taken_session :
    (Caption.kind? sessionBits.caption = some (.bitfield "TPMA_SESSION" "UINT8") ∧
      Schema.initial.contains "UINT8" = true ∧
      (∀ cells ∈ sessionBits.rows, (Row.read Row.bits? cells).isSome = true) ∧
      ((sessionBits.bitConstants "TPMA_SESSION").map (·.specName)).Nodup) ∧
    (Caption.kind? wideBits.caption = some (.bitfield "TPMA_WIDE" "UINT64") ∧
      Schema.initial.contains "UINT64" = true ∧
      (∀ cells ∈ wideBits.rows, (Row.read Row.bits? cells).isSome = true) ∧
      ((wideBits.bitConstants "TPMA_WIDE").map (·.specName)).Nodup) ∧
    (∃ r, Extraction.extract [sessionBits] {} = .ok (r, { processed := 1 }) ∧
      r.constantValue "TPMA_SESSION_continueSession" = .ok 1 ∧
      r.constantValue "TPMA_SESSION_mode_BIT_MASK" = .ok 0xE0 ∧
      r.constantValue "TPMA_SESSION_mode_BIT_OFFSET" = .ok 5 ∧
      r.constantValue "TPMA_SESSION_mode_BIT_LENGTH" = .ok 3) ∧
    ∃ c ∈ wideBits.bitConstants "TPMA_WIDE", ∃ fault,
      Extraction.extract [wideBits] {} = .error (.expression c.expr fault) := by
  obtain ⟨hkind, hbase, hrows, hnames, hbits⟩ := read_sessionBits
  obtain ⟨hwide, hword, hcells, hdistinct, htop⟩ := read_wideBits
  have hlow : ∀ row ∈ sessionBits.bits, row.last ≠ 63 := by
    rw [hbits]
    decide
  have hhigh : ∃ row ∈ wideBits.bits, row.last = 63 := by
    rw [htop]
    decide
  obtain ⟨htaken, hdescribes, -⟩ := bits_taken_iff hkind hbase hrows hnames
  obtain ⟨-, -, hfails⟩ := bits_taken_iff hwide hword hcells hdistinct
  obtain ⟨r, hextract⟩ := htaken.mpr ⟨acceptable_sessionBits, hlow⟩
  have hdescribed := hdescribes r hextract
  rw [hbits] at hdescribed
  simp only [List.forall_mem_cons] at hdescribed
  obtain ⟨hsingle, ⟨mask, offset, length, hmask, hoffset, hlength, hsum, rfl, rfl, -⟩, -⟩ :=
    hdescribed
  rw [show mask = 0xE0 from hsum] at hmask
  exact ⟨⟨hkind, hbase, hrows, hnames⟩, ⟨hwide, hword, hcells, hdistinct⟩,
    ⟨r, hextract, hsingle, hmask, hoffset, hlength⟩, hfails acceptable_wideBits hhigh⟩

end WireTables
