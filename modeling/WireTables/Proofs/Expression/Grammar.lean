import Mathlib.Algebra.Ring.Int.Defs
import WireTables.Expression.Token

/-!
# The grammar of expressions

Expressions are sums, products and shifts over atoms, written with the usual precedence:

    shift := add ('<<' add)*
    add   := mul (('+' | '-') mul)*
    mul   := atom (('*' | '/') atom)*
    atom  := number | constant | 'sizeof' '(' T ')' | '(' shift ')'

`Derives` is this grammar with the tree of each derivation. Operators of one level group to the
left, so a repetition is a rule that starts with its own nonterminal. `Means` is the value of a
tree: every operator has a result of its own in the range of a signed 64-bit word.

`wellFormed_iff` says which token sequences are derivable at all: those in which operands and
operators take turns and parentheses are nested.
-/

namespace WireTables

namespace Expression

/-- The shape of an expression. Parentheses have done their work in it. -/
inductive Tree where
  | number (value : Int)
  | constant (name : String)
  | sizeOf (type : String)
  | binary (op : Operator) (lhs rhs : Tree)
  deriving DecidableEq, Repr

/-- The nonterminals of the grammar, loosest first. -/
inductive Nonterminal where
  | shift
  | add
  | mul
  | atom
  deriving DecidableEq, Repr

/-- The tokens can be derived from the nonterminal, and their tree is `e`. -/
inductive Derives : Nonterminal → List Token → Tree → Prop where
  | number (value : Int) (text : String) :
      Derives .atom [.number value text] (.number value)
  | constant (name : String) : Derives .atom [.name name] (.constant name)
  | sizeOf (type : String) : Derives .atom [.sizeOf type] (.sizeOf type)
  | parens {ts : List Token} {e : Tree} (h : Derives .shift ts e) :
      Derives .atom (.openParen :: ts ++ [.closeParen]) e
  | ofAtom {ts : List Token} {e : Tree} (h : Derives .atom ts e) : Derives .mul ts e
  | times {ts us : List Token} {a b : Tree} (l : Derives .mul ts a) (r : Derives .atom us b) :
      Derives .mul (ts ++ .operator .mul :: us) (.binary .mul a b)
  | divided {ts us : List Token} {a b : Tree} (l : Derives .mul ts a) (r : Derives .atom us b) :
      Derives .mul (ts ++ .operator .div :: us) (.binary .div a b)
  | ofMul {ts : List Token} {e : Tree} (h : Derives .mul ts e) : Derives .add ts e
  | plus {ts us : List Token} {a b : Tree} (l : Derives .add ts a) (r : Derives .mul us b) :
      Derives .add (ts ++ .operator .add :: us) (.binary .add a b)
  | minus {ts us : List Token} {a b : Tree} (l : Derives .add ts a) (r : Derives .mul us b) :
      Derives .add (ts ++ .operator .sub :: us) (.binary .sub a b)
  | ofAdd {ts : List Token} {e : Tree} (h : Derives .add ts e) : Derives .shift ts e
  | shifted {ts us : List Token} {a b : Tree} (l : Derives .shift ts a) (r : Derives .add us b) :
      Derives .shift (ts ++ .operator .shift :: us) (.binary .shift a b)

/-- The range of a signed 64-bit word. -/
def InRange (n : Int) : Prop :=
  -2 ^ 63 ≤ n ∧ n < 2 ^ 63

/-- The tree has the value `n` where names of constants and sizes of types have the given values.
Each operator has a result in range; division cuts towards zero and `a << s` is `a * 2 ^ s`. -/
inductive Means (constant size : String → Int) : Tree → Int → Prop where
  | number (value : Int) : Means constant size (.number value) value
  | constant (name : String) : Means constant size (.constant name) (constant name)
  | sizeOf (type : String) : Means constant size (.sizeOf type) (size type)
  | add {a b : Tree} {x y : Int} (l : Means constant size a x) (r : Means constant size b y)
      (h : InRange (x + y)) : Means constant size (.binary .add a b) (x + y)
  | sub {a b : Tree} {x y : Int} (l : Means constant size a x) (r : Means constant size b y)
      (h : InRange (x - y)) : Means constant size (.binary .sub a b) (x - y)
  | mul {a b : Tree} {x y : Int} (l : Means constant size a x) (r : Means constant size b y)
      (h : InRange (x * y)) : Means constant size (.binary .mul a b) (x * y)
  | div {a b : Tree} {x y : Int} (l : Means constant size a x) (r : Means constant size b y)
      (hy : y ≠ 0) (h : InRange (x.tdiv y)) : Means constant size (.binary .div a b) (x.tdiv y)
  | shift {a b : Tree} {x y : Int} (l : Means constant size a x) (r : Means constant size b y)
      (h₀ : 0 ≤ y) (h₁ : y < 63) (h : InRange (x * 2 ^ y.toNat)) :
      Means constant size (.binary .shift a b) (x * 2 ^ y.toNat)

/-- What a token is to the grammar. -/
inductive Kind where
  | operand
  | operator (op : Operator)
  | openParen
  | closeParen
  deriving DecidableEq, Repr

end Expression

/-- What the token is to the grammar. -/
def Token.kind : Token → Expression.Kind
  | .number _ _ | .name _ | .sizeOf _ => .operand
  | .operator op => .operator op
  | .openParen => .openParen
  | .closeParen => .closeParen

namespace Expression

/-- Operands and operators take turns. `wanted` says whether an operand stands next; a parenthesis
opens where an operand stands and closes after one. -/
def takesTurns : Bool → List Kind → Bool
  | wanted, [] => !wanted
  | wanted, .operand :: ks => wanted && takesTurns false ks
  | wanted, .openParen :: ks => wanted && takesTurns true ks
  | wanted, .operator _ :: ks => !wanted && takesTurns true ks
  | wanted, .closeParen :: ks => !wanted && takesTurns false ks

/-- Parentheses are nested where `depth` of them are open. -/
def nested : Nat → List Kind → Bool
  | depth, [] => depth == 0
  | depth, .openParen :: ks => nested (depth + 1) ks
  | 0, .closeParen :: _ => false
  | depth + 1, .closeParen :: ks => nested depth ks
  | depth, .operand :: ks => nested depth ks
  | depth, .operator _ :: ks => nested depth ks

/-- The tokens are an expression. -/
def WellFormed (ts : List Token) : Prop :=
  ∃ e, Derives .shift ts e

section Necessary

/-- After a derivable sequence an operator or the end is next. -/
theorem Derives.takesTurns_append {x : Nonterminal} {ts : List Token} {e : Tree}
    (h : Derives x ts e) :
    ∀ ks, takesTurns true (ts.map Token.kind ++ ks) = takesTurns false ks := by
  have binary : ∀ {ts us : List Token} (op : Operator),
      (∀ ks, takesTurns true (ts.map Token.kind ++ ks) = takesTurns false ks) →
      (∀ ks, takesTurns true (us.map Token.kind ++ ks) = takesTurns false ks) →
      ∀ ks, takesTurns true ((ts ++ .operator op :: us).map Token.kind ++ ks) =
        takesTurns false ks := by
    intro ts us op hl hr ks
    rw [List.map_append, List.append_assoc, hl]
    exact hr ks
  induction h with
  | number | constant | sizeOf => exact fun _ => rfl
  | parens _ ih =>
    intro ks
    rw [List.map_append, List.append_assoc]
    exact ih (.closeParen :: ks)
  | ofAtom _ ih | ofMul _ ih | ofAdd _ ih => exact ih
  | times _ _ hl hr | divided _ _ hl hr | plus _ _ hl hr | minus _ _ hl hr | shifted _ _ hl hr =>
    exact binary _ hl hr

/-- A derivable sequence leaves as many parentheses open as there were. -/
theorem Derives.nested_append {x : Nonterminal} {ts : List Token} {e : Tree}
    (h : Derives x ts e) :
    ∀ depth ks, nested depth (ts.map Token.kind ++ ks) = nested depth ks := by
  have binary : ∀ {ts us : List Token} (op : Operator),
      (∀ depth ks, nested depth (ts.map Token.kind ++ ks) = nested depth ks) →
      (∀ depth ks, nested depth (us.map Token.kind ++ ks) = nested depth ks) →
      ∀ depth ks, nested depth ((ts ++ .operator op :: us).map Token.kind ++ ks) =
        nested depth ks := by
    intro ts us op hl hr depth ks
    rw [List.map_append, List.append_assoc, hl]
    simp only [List.map_cons, Token.kind, List.cons_append, nested]
    exact hr depth ks
  induction h with
  | number | constant | sizeOf => intro depth ks; cases depth <;> rfl
  | parens _ ih =>
    intro depth ks
    rw [List.map_append, List.append_assoc]
    simp only [List.map_cons, Token.kind, List.cons_append, nested]
    exact ih (depth + 1) (.closeParen :: ks)
  | ofAtom _ ih | ofMul _ ih | ofAdd _ ih => exact ih
  | times _ _ hl hr | divided _ _ hl hr | plus _ _ hl hr | minus _ _ hl hr | shifted _ _ hl hr =>
    exact binary _ hl hr

end Necessary

section Sufficient

/-- A product may be continued with a factor. -/
theorem Derives.extend_mul {ts us : List Token} {a b : Tree} {op : Operator}
    (h : Derives .mul ts a) (hu : Derives .atom us b) (hop : op = .mul ∨ op = .div) :
    ∃ e, Derives .mul (ts ++ .operator op :: us) e := by
  rcases hop with rfl | rfl
  · exact ⟨_, h.times hu⟩
  · exact ⟨_, h.divided hu⟩

/-- A sum may be continued with an atom: as a summand, or as a factor of its last summand. -/
theorem Derives.extend_add {ts us : List Token} {a b : Tree} {op : Operator}
    (h : Derives .add ts a) (hu : Derives .atom us b) (hop : op ≠ .shift) :
    ∃ e, Derives .add (ts ++ .operator op :: us) e := by
  by_cases hmul : op = .mul ∨ op = .div
  · cases h with
    | ofMul h =>
      obtain ⟨e, h⟩ := h.extend_mul hu hmul
      exact ⟨e, h.ofMul⟩
    | plus l r =>
      obtain ⟨e, h⟩ := r.extend_mul hu hmul
      rw [List.append_assoc, List.cons_append]
      exact ⟨_, l.plus h⟩
    | minus l r =>
      obtain ⟨e, h⟩ := r.extend_mul hu hmul
      rw [List.append_assoc, List.cons_append]
      exact ⟨_, l.minus h⟩
  · cases op with
    | shift => exact absurd rfl hop
    | add => exact ⟨_, h.plus hu.ofAtom⟩
    | sub => exact ⟨_, h.minus hu.ofAtom⟩
    | mul | div => exact absurd (by decide) hmul

/-- An expression may be continued with any operator and an atom. -/
theorem Derives.extend {ts us : List Token} {a b : Tree} (h : Derives .shift ts a)
    (op : Operator) (hu : Derives .atom us b) :
    ∃ e, Derives .shift (ts ++ .operator op :: us) e := by
  by_cases hop : op = .shift
  · subst hop
    exact ⟨_, h.shifted hu.ofAtom.ofMul⟩
  · cases h with
    | ofAdd h =>
      obtain ⟨e, h⟩ := h.extend_add hu hop
      exact ⟨e, h.ofAdd⟩
    | shifted l r =>
      obtain ⟨e, h⟩ := r.extend_add hu hop
      rw [List.append_assoc, List.cons_append]
      exact ⟨_, l.shifted h⟩

/-- What may stand after an expression with `depth` parentheses open: nothing, or the parenthesis
that closes one of them and what may stand after an operand then. -/
inductive Stops : Nat → List Token → Prop where
  | ends : Stops 0 []
  | closes {depth : Nat} {ts : List Token} (ht : takesTurns false (ts.map Token.kind) = true)
      (hn : nested depth (ts.map Token.kind) = true) : Stops (depth + 1) (.closeParen :: ts)

/-- Where an operand is wanted and the rest takes turns, an atom stands; the induction is on a bound
of the length, and `expression` is what it says of shorter sequences. -/
theorem atom_of_takesTurns {ts : List Token} {depth : Nat}
    (expression : ∀ us : List Token, us.length < ts.length → ∀ depth : Nat,
      takesTurns true (us.map Token.kind) = true → nested depth (us.map Token.kind) = true →
      ∃ vs rest e, us = vs ++ rest ∧ Derives .shift vs e ∧ Stops depth rest)
    (ht : takesTurns true (ts.map Token.kind) = true)
    (hn : nested depth (ts.map Token.kind) = true) :
    ∃ us rest e, ts = us ++ rest ∧ Derives .atom us e ∧ rest.length < ts.length ∧
      takesTurns false (rest.map Token.kind) = true ∧
        nested depth (rest.map Token.kind) = true := by
  match ts with
  | [] => cases ht
  | .number value text :: rest =>
    simp only [List.map_cons, Token.kind, nested] at hn
    exact ⟨_, rest, _, rfl, .number value text, Nat.lt_succ_self _, ht, hn⟩
  | .name name :: rest =>
    simp only [List.map_cons, Token.kind, nested] at hn
    exact ⟨_, rest, _, rfl, .constant name, Nat.lt_succ_self _, ht, hn⟩
  | .sizeOf type :: rest =>
    simp only [List.map_cons, Token.kind, nested] at hn
    exact ⟨_, rest, _, rfl, .sizeOf type, Nat.lt_succ_self _, ht, hn⟩
  | .operator op :: rest => cases ht
  | .closeParen :: rest => cases ht
  | .openParen :: rest =>
    simp only [List.map_cons, Token.kind, nested] at hn
    obtain ⟨vs, after, e, rfl, hv, stops⟩ :=
      expression rest (Nat.lt_succ_self _) (depth + 1) ht hn
    cases stops with
    | @closes _ after ht' hn' =>
      refine ⟨.openParen :: vs ++ [.closeParen], after, e, ?_, hv.parens, ?_, ht', hn'⟩
      · simp only [List.cons_append, List.append_assoc, List.nil_append]
      · simp only [List.length_cons, List.length_append]
        omega

/-- What stands after an operand continues the expression up to where it stops. -/
theorem continue_of_takesTurns {bound : Nat}
    (expression : ∀ us : List Token, us.length < bound → ∀ depth : Nat,
      takesTurns true (us.map Token.kind) = true → nested depth (us.map Token.kind) = true →
      ∃ vs rest e, us = vs ++ rest ∧ Derives .shift vs e ∧ Stops depth rest) :
    ∀ (n : Nat) {ts us : List Token} {depth : Nat} {e : Tree}, us.length ≤ n → us.length < bound →
      Derives .shift ts e → takesTurns false (us.map Token.kind) = true →
      nested depth (us.map Token.kind) = true →
      ∃ vs rest e, us = vs ++ rest ∧ Derives .shift (ts ++ vs) e ∧ Stops depth rest := by
  intro n
  induction n with
  | zero =>
    intro ts us depth e hlen _ h _ hn
    obtain rfl := List.length_eq_zero_iff.mp (Nat.le_zero.mp hlen)
    obtain rfl : depth = 0 := by simpa [nested] using hn
    exact ⟨[], [], e, rfl, by rwa [List.append_nil], .ends⟩
  | succ n ih =>
    intro ts us depth e hlen hb h ht hn
    match us with
    | [] =>
      obtain rfl : depth = 0 := by simpa [nested] using hn
      exact ⟨[], [], e, rfl, by rwa [List.append_nil], .ends⟩
    | .number _ _ :: rest | .name _ :: rest | .sizeOf _ :: rest | .openParen :: rest => cases ht
    | .closeParen :: rest =>
      cases depth with
      | zero => cases hn
      | succ depth =>
        exact ⟨[], _, e, rfl, by rwa [List.append_nil], .closes ht hn⟩
    | .operator op :: rest =>
      simp only [List.length_cons] at hlen hb
      simp only [List.map_cons, Token.kind, nested] at hn
      obtain ⟨as, after, b, rfl, ha, hlt, ht, hn⟩ := atom_of_takesTurns
        (fun us hu => expression us (by omega)) ht hn
      obtain ⟨e', h'⟩ := h.extend op ha
      obtain ⟨vs, rest, e'', rfl, hv, stops⟩ := ih (by omega) (by omega) h' ht hn
      refine ⟨.operator op :: as ++ vs, rest, e'', ?_, ?_, stops⟩
      · simp only [List.cons_append, List.append_assoc]
      · simpa only [List.cons_append, List.append_assoc] using hv

/-- Where an operand is wanted and the rest takes turns, an expression stands. -/
theorem expression_of_takesTurns : ∀ (n : Nat) (ts : List Token), ts.length < n → ∀ depth : Nat,
    takesTurns true (ts.map Token.kind) = true → nested depth (ts.map Token.kind) = true →
    ∃ us rest e, ts = us ++ rest ∧ Derives .shift us e ∧ Stops depth rest := by
  intro n
  induction n with
  | zero => exact fun _ h => absurd h (Nat.not_lt_zero _)
  | succ n ih =>
    intro ts hlen depth ht hn
    obtain ⟨as, after, a, rfl, ha, hlt, ht, hn⟩ :=
      atom_of_takesTurns (fun us hu => ih us (by omega)) ht hn
    obtain ⟨vs, rest, e, rfl, hv, stops⟩ :=
      continue_of_takesTurns ih after.length (Nat.le_refl _) (by omega)
        ha.ofAtom.ofMul.ofAdd ht hn
    exact ⟨as ++ vs, rest, e, (List.append_assoc ..).symm, hv, stops⟩

end Sufficient

/-- A token sequence is an expression exactly if operands and operators take turns in it, from an
operand to an operand, and its parentheses are nested. -/
theorem wellFormed_iff (ts : List Token) :
    WellFormed ts ↔ takesTurns true (ts.map Token.kind) = true ∧
      nested 0 (ts.map Token.kind) = true := by
  constructor
  · rintro ⟨e, h⟩
    have ht := h.takesTurns_append []
    have hn := h.nested_append 0 []
    rw [List.append_nil] at ht hn
    exact ⟨ht.trans rfl, hn.trans rfl⟩
  · rintro ⟨ht, hn⟩
    obtain ⟨us, rest, e, rfl, h, stops⟩ :=
      expression_of_takesTurns _ ts (Nat.lt_succ_self _) 0 ht hn
    cases stops
    rw [List.append_nil]
    exact ⟨e, h⟩

end Expression

end WireTables
