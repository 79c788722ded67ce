import Mathlib.Algebra.Field.Rat
import Mathlib.Tactic.Linarith
import WireTables.Language
import WireTables.Proofs.Expression.Machine

/-!
# Arithmetic of target languages

Python has whole numbers without bounds, and a division that rounds down. Node has one kind of
numbers, which divide without rounding; to shift one it becomes a signed word of 32 bits first, and
the count of places is taken modulo 32. Signed 64-bit words with a division that cuts towards zero,
in which the values of constants are calculated, agree with neither in all cases.

`operate_eq_iff` says of each operator exactly when it gives the same in the target language. An
expression in which every operator does is `Portable`, and then it has the same value there
(`calculated_of_stands`), whether its names are still names or are numbers by now.
-/

namespace WireTables

open Expression (Derives Nonterminal Tree checkedWord_iff)

namespace Target

/-- The numbers of a language, and what operators give for them. -/
structure Arithmetic where
  Number : Type
  ofInt : Int → Number
  operate : Operator → Number → Number → Option Number

namespace Arithmetic

/-- Whole numbers without bounds. Division rounds down; a shift is a product. -/
def py : Arithmetic where
  Number := Int
  ofInt n := n
  operate op x y :=
    match op with
    | .add => some (x + y)
    | .sub => some (x - y)
    | .mul => some (x * y)
    | .div => if y = 0 then none else some (x.fdiv y)
    | .shift => if 0 ≤ y then some (x * 2 ^ y.toNat) else none

/-- A number without its fraction. -/
def whole (x : Rat) : Int :=
  x.num.tdiv x.den

/-- A signed word of 32 bits that is shifted by a count modulo 32. -/
def shiftWord (x : Int) (count : Int) : Int :=
  (x.bmod (2 ^ 32) * 2 ^ (count % 32).toNat).bmod (2 ^ 32)

/-- Numbers with fractions. Division does not round; a shift is one of words. -/
def node : Arithmetic where
  Number := Rat
  ofInt n := n
  operate op x y :=
    match op with
    | .add => some (x + y)
    | .sub => some (x - y)
    | .mul => some (x * y)
    | .div => if y = 0 then none else some (x / y)
    | .shift => some (shiftWord (whole x) (whole y) : Int)

end Arithmetic

/-- The language calculates in this way. -/
inductive Speaks : Language → Arithmetic → Prop
  | node : Speaks .node .node
  | py : Speaks .py .py

/-- The operator gives the same in the language. Rounding down is cutting towards zero where nothing
is cut off or the quotient is not negative, and words are shifted as all numbers are where the
result fits. -/
def Agrees : Language → Operator → Int → Int → Prop
  | .py, .div, x, y => y ∣ x ∨ (0 ≤ x ↔ 0 ≤ y)
  | .node, .div, x, y => y ∣ x
  | .node, .shift, x, y => -2 ^ 31 ≤ x * 2 ^ y.toNat ∧ x * 2 ^ y.toNat < 2 ^ 31
  | _, _, _, _ => True

instance : (lang : Language) → (op : Operator) → (x y : Int) → Decidable (Agrees lang op x y)
  | .py, .div, x, y => inferInstanceAs (Decidable (y ∣ x ∨ (0 ≤ x ↔ 0 ≤ y)))
  | .node, .div, x, y => inferInstanceAs (Decidable (y ∣ x))
  | .node, .shift, x, y =>
    inferInstanceAs (Decidable (-2 ^ 31 ≤ x * 2 ^ y.toNat ∧ x * 2 ^ y.toNat < 2 ^ 31))
  | .node, .add, _, _ | .node, .sub, _, _ | .node, .mul, _, _ | .py, .add, _, _ | .py, .sub, _, _
  | .py, .mul, _, _ | .py, .shift, _, _ | .cpp, _, _, _ | .csharp, _, _, _ | .java, _, _, _ =>
    inferInstanceAs (Decidable True)

section Operators

variable {x y n : Int}

theorem fdiv_eq_tdiv_iff (hy : y ≠ 0) : x.fdiv y = x.tdiv y ↔ y ∣ x ∨ (0 ≤ x ↔ 0 ≤ y) := by
  rw [Int.fdiv_eq_tdiv]
  by_cases hdvd : y ∣ x
  · simp [hdvd]
  · rw [if_neg hdvd]
    by_cases hx : 0 ≤ x
    · by_cases hy' : 0 ≤ y
      · simp [hx, hy']
      · simp [hx, hy', hdvd]
    · by_cases hy' : 0 ≤ y
      · have hsign : y.sign = 1 := Int.sign_eq_one_of_pos (by omega)
        simp [hx, hy', hdvd, hsign]
      · have hsign : y.sign = -1 := Int.sign_eq_neg_one_of_neg (by omega)
        simp [hx, hy', hsign]

theorem div_eq_tdiv_iff (hy : y ≠ 0) : (x : Rat) / y = (x.tdiv y : Int) ↔ y ∣ x := by
  have hy' : (y : Rat) ≠ 0 := by exact_mod_cast hy
  rw [div_eq_iff hy']
  constructor
  · intro h
    have h : x = x.tdiv y * y := by exact_mod_cast h
    exact ⟨x.tdiv y, by rw [Int.mul_comm]; exact h⟩
  · intro h
    have h := Int.tdiv_mul_cancel h
    exact_mod_cast h.symm

theorem whole_intCast (n : Int) : Arithmetic.whole n = n := by
  simp [Arithmetic.whole]

/-- What is not zero is at most as far from zero as its product with a positive number, and so is that
number. -/
theorem magnitude (x : Int) {p : Int} (hp : 1 ≤ p) :
    (0 < x → p ≤ x * p ∧ x ≤ x * p) ∧ (x < 0 → x * p ≤ -p ∧ x * p ≤ x) := by
  constructor
  · intro hx
    constructor <;> nlinarith
  · intro hx
    constructor <;> nlinarith

/-- A shifted word is the product with a power of two where that fits a word. -/
theorem shiftWord_eq_iff (h₀ : 0 ≤ y) (h₁ : y < 63) :
    Arithmetic.shiftWord x y = x * 2 ^ y.toNat ↔
      -2 ^ 31 ≤ x * 2 ^ y.toNat ∧ x * 2 ^ y.toNat < 2 ^ 31 := by
  have hword : ∀ m : Int, -2 ^ 31 ≤ m.bmod (2 ^ 32) ∧ m.bmod (2 ^ 32) < 2 ^ 31 := by
    intro m
    have hle := Int.le_bmod (x := m) (m := 2 ^ 32) (by decide)
    have hlt := Int.bmod_lt (x := m) (m := 2 ^ 32) (by decide)
    constructor <;> omega
  unfold Arithmetic.shiftWord
  constructor
  · intro h
    rw [← h]
    exact hword _
  · intro h
    by_cases hx : x = 0
    · simp [hx]
    obtain ⟨hpos, hneg⟩ := magnitude x (one_le_pow₀ (by decide) : (1 : Int) ≤ 2 ^ y.toNat)
    have hsmall : -2 ^ 31 ≤ x ∧ x < 2 ^ 31 := by omega
    have hcount : y < 32 := by
      by_contra hy
      have hpow : (2 : Int) ^ 32 ≤ 2 ^ y.toNat := pow_le_pow_right₀ (by decide) (by omega)
      omega
    have fits : ∀ m : Int, -2 ^ 31 ≤ m ∧ m < 2 ^ 31 → m.bmod (2 ^ 32) = m := by
      intro m hm
      exact Int.bmod_eq_of_le (by omega) (by omega)
    rw [fits x hsmall, Int.emod_eq_of_lt h₀ hcount, fits _ h]

/-- An operator with a value has this value in the language exactly if the two agree on it. -/
theorem operate_eq_iff {lang : Language} {A : Arithmetic} (hA : Speaks lang A) {op : Operator}
    (h : op.value? x y = some n) :
    A.operate op (A.ofInt x) (A.ofInt y) = some (A.ofInt n) ↔ Agrees lang op x y := by
  cases op with
  | add | sub | mul =>
    obtain ⟨-, rfl⟩ := checkedWord_iff.mp h
    cases hA <;> simp [Arithmetic.node, Arithmetic.py, Agrees]
  | div =>
    simp only [Operator.value?, beq_iff_eq] at h
    split at h
    · cases h
    next hy =>
    obtain ⟨-, rfl⟩ := checkedWord_iff.mp h
    cases hA with
    | node =>
      have hy' : (y : Rat) ≠ 0 := by exact_mod_cast hy
      simp only [Arithmetic.node, if_neg hy', Option.some.injEq]
      exact div_eq_tdiv_iff hy
    | py =>
      simp only [Arithmetic.py, if_neg hy, Option.some.injEq]
      exact fdiv_eq_tdiv_iff hy
  | shift =>
    simp only [Operator.value?, Bool.and_eq_true, decide_eq_true_eq] at h
    split at h
    · next hs =>
      obtain ⟨-, rfl⟩ := checkedWord_iff.mp h
      cases hA with
      | node =>
        simp only [Arithmetic.node, whole_intCast, Option.some.injEq, Rat.intCast_inj]
        exact shiftWord_eq_iff hs.1 hs.2
      | py =>
        simp only [Arithmetic.py, if_pos hs.1, Option.some.injEq, Agrees, iff_true]
        rfl
    · cases h

/-- The highest bit of a word is its sign in one language. -/
example : ¬ Agrees .node .shift 1 31 ∧ Arithmetic.node.operate .shift (Arithmetic.node.ofInt 1)
    (Arithmetic.node.ofInt 31) = some (Arithmetic.node.ofInt (-2 ^ 31)) :=
  ⟨by decide, rfl⟩

end Operators

end Target

namespace Expression.Tree

open Target (Agrees Arithmetic Speaks operate_eq_iff)

/-- The value of a tree in the numbers of a language, where names stand for whole numbers. -/
def calculated (A : Arithmetic) (reference : String → Option Int) : Tree → Option A.Number
  | .number n => some (A.ofInt n)
  | .constant name => (reference name).map A.ofInt
  | .sizeOf _ => none
  | .binary op l r => do A.operate op (← l.calculated A reference) (← r.calculated A reference)

/-- Every operator in the tree gives the same in the language. -/
def Portable (lang : Language) (constant size : String → Int) : Tree → Prop
  | .number _ | .constant _ | .sizeOf _ => True
  | .binary op l r => l.Portable lang constant size ∧ r.Portable lang constant size ∧
      match l.value constant size, r.value constant size with
      | .ok x, .ok y => Agrees lang op x y
      | _, _ => True

/-- The second tree is the first one with other names for constants, or with numbers in the place of
constants and sizes. -/
inductive Stands (constant size : String → Int) (reference : String → Option Int) :
    Tree → Tree → Prop
  | number (n : Int) : Stands constant size reference (.number n) (.number n)
  | value (name : String) : Stands constant size reference (.constant name) (.number (constant name))
  | reference {name name' : String} (h : reference name' = some (constant name)) :
    Stands constant size reference (.constant name) (.constant name')
  | size (type : String) : Stands constant size reference (.sizeOf type) (.number (size type))
  | binary {op : Operator} {a b a' b' : Tree} (l : Stands constant size reference a a')
    (r : Stands constant size reference b b') :
    Stands constant size reference (.binary op a b) (.binary op a' b')

variable {constant size : String → Int} {reference : String → Option Int}

/-- A portable tree has the same value in the numbers of the language. -/
theorem calculated_of_stands {lang : Language} {A : Arithmetic} (hA : Speaks lang A) {e e' : Tree}
    {n : Int} (h : Stands constant size reference e e') (hp : e.Portable lang constant size)
    (hn : e.value constant size = .ok n) : e'.calculated A reference = some (A.ofInt n) := by
  induction h generalizing n with
  | number | value | size =>
    cases hn
    rfl
  | reference h =>
    cases hn
    simp only [calculated, h, Option.map_some]
  | binary _ _ ihl ihr =>
    simp only [value, bind_eq_ok, operate_eq_ok] at hn
    obtain ⟨x, hx, y, hy, hn⟩ := hn
    obtain ⟨hl, hr, hagrees⟩ := hp
    simp only [hx, hy] at hagrees
    simp only [calculated, ihl hl hx, ihr hr hy]
    exact (operate_eq_iff hA hn).mpr hagrees

end Expression.Tree

namespace Expression

/-- The second token is the first one with another name for a constant, or with a number in the place
of a constant or a size. -/
inductive StandsFor (constant size : String → Int) (reference : String → Option Int) :
    Token → Token → Prop
  | number {n : Int} {text text' : String} :
    StandsFor constant size reference (.number n text) (.number n text')
  | value {name text : String} :
    StandsFor constant size reference (.name name) (.number (constant name) text)
  | reference {name name' : String} (h : reference name' = some (constant name)) :
    StandsFor constant size reference (.name name) (.name name')
  | size {type text : String} :
    StandsFor constant size reference (.sizeOf type) (.number (size type) text)
  | operator {op : Operator} : StandsFor constant size reference (.operator op) (.operator op)
  | openParen : StandsFor constant size reference .openParen .openParen
  | closeParen : StandsFor constant size reference .closeParen .closeParen

variable {constant size : String → Int} {reference : String → Option Int}

/-- Whatever stands for the tokens is derived from the nonterminal as well, with a tree that stands for
theirs. -/
def Follows (constant size : String → Int) (reference : String → Option Int) (x : Nonterminal)
    (ts : List Token) (e : Tree) : Prop :=
  ∀ us, List.Forall₂ (StandsFor constant size reference) ts us →
    ∃ e', Derives x us e' ∧ Tree.Stands constant size reference e e'

theorem Follows.rule {x y : Nonterminal} {ts : List Token} {e : Tree}
    (h : Follows constant size reference x ts e)
    (rule : ∀ {us e'}, Derives x us e' → Derives y us e') :
    Follows constant size reference y ts e := by
  intro us hs
  obtain ⟨e', he, hstands⟩ := h us hs
  exact ⟨e', rule he, hstands⟩

theorem Follows.binary {x y : Nonterminal} {ts us : List Token} {a b : Tree} {op : Operator}
    (rule : ∀ {ts us a b}, Derives x ts a → Derives y us b →
      Derives x (ts ++ .operator op :: us) (.binary op a b))
    (hl : Follows constant size reference x ts a) (hr : Follows constant size reference y us b) :
    Follows constant size reference x (ts ++ .operator op :: us) (.binary op a b) := by
  intro vs hs
  obtain ⟨l, rest, rfl, hsl, hrest⟩ := exists_of_forall₂_append hs
  obtain ⟨_, r, hop, hsr, rfl⟩ := List.forall₂_cons_left_iff.mp hrest
  cases hop
  obtain ⟨a', ha, hstandsl⟩ := hl l hsl
  obtain ⟨b', hb, hstandsr⟩ := hr r hsr
  exact ⟨_, rule ha hb, hstandsl.binary hstandsr⟩

theorem Follows.parens {ts : List Token} {e : Tree}
    (h : Follows constant size reference .shift ts e) :
    Follows constant size reference .atom (.openParen :: ts ++ [.closeParen]) e := by
  intro us hs
  obtain ⟨front, back, rfl, hfront, hback⟩ := exists_of_forall₂_append hs
  obtain ⟨_, inner, hopen, hinner, rfl⟩ := List.forall₂_cons_left_iff.mp hfront
  obtain ⟨_, rest, hclose, hrest, rfl⟩ := List.forall₂_cons_left_iff.mp hback
  cases hopen
  cases hclose
  cases hrest
  obtain ⟨e', he, hstands⟩ := h inner hinner
  exact ⟨e', he.parens, hstands⟩

/-- Tokens with other operands follow the grammar in the same way. -/
theorem Derives.follows {x : Nonterminal} {ts : List Token} {e : Tree} (h : Derives x ts e) :
    Follows constant size reference x ts e := by
  have single : ∀ {t : Token} {us : List Token},
      List.Forall₂ (StandsFor constant size reference) [t] us →
        ∃ u, us = [u] ∧ StandsFor constant size reference t u := by
    intro t us hs
    obtain ⟨u, rest, hu, hrest, rfl⟩ := List.forall₂_cons_left_iff.mp hs
    cases hrest
    exact ⟨u, rfl, hu⟩
  induction h with
  | number n text =>
    intro us hs
    obtain ⟨_, rfl, ht⟩ := single hs
    cases ht with
    | number => exact ⟨_, .number .., .number n⟩
  | constant name =>
    intro us hs
    obtain ⟨_, rfl, ht⟩ := single hs
    cases ht with
    | value => exact ⟨_, .number .., .value name⟩
    | reference h => exact ⟨_, .constant _, .reference h⟩
  | sizeOf type =>
    intro us hs
    obtain ⟨_, rfl, ht⟩ := single hs
    cases ht with
    | size => exact ⟨_, .number .., .size type⟩
  | parens _ ih => exact ih.parens
  | ofAtom _ ih => exact ih.rule .ofAtom
  | ofMul _ ih => exact ih.rule .ofMul
  | ofAdd _ ih => exact ih.rule .ofAdd
  | times _ _ hl hr => exact .binary .times hl hr
  | divided _ _ hl hr => exact .binary .divided hl hr
  | plus _ _ hl hr => exact .binary .plus hl hr
  | minus _ _ hl hr => exact .binary .minus hl hr
  | shifted _ _ hl hr => exact .binary .shifted hl hr

end Expression

end WireTables
