import WireTables.Proofs.Expression.Machine

/-!
# Expressions have one tree

The grammar of expressions is unambiguous: a token sequence that can be derived has one tree only
(`Derives.unique`).

The proof reads from the right, since operators of one level group to the left. What ends a sequence
and is derived from a nonterminal is determined, tokens and tree, as long as no operator of its level
or a tighter one stands before it (`Alone`): the last operand of the level is determined by the
nonterminal below, the operator before it ends what is left, and so on.
-/

namespace WireTables

namespace Expression

/-- No operator that binds at least as tightly as `p` stands at the end. -/
def Bounded (p : Nat) (us : List Token) : Prop :=
  ∀ vs op, us = vs ++ [.operator op] → op.precedence < p

theorem Bounded.mono {p q : Nat} {us : List Token} (h : Bounded p us) (hpq : p ≤ q) :
    Bounded q us := by
  intro vs op hus
  exact Nat.lt_of_lt_of_le (h vs op hus) hpq

/-- Where these tokens end a sequence, nothing else that is derived from the nonterminal ends it,
unless an operator would go on with it to the left. -/
def Alone (x : Nonterminal) (ts : List Token) (e : Tree) : Prop :=
  ∀ us us' ts' e', Derives x ts' e' → us ++ ts = us' ++ ts' → Bounded x.precedence us →
    Bounded x.precedence us' → us = us' ∧ ts = ts' ∧ e = e'

/-- The nonterminal of the operands. -/
def Nonterminal.operand : Nonterminal → Nonterminal
  | shift => add
  | add => mul
  | mul => atom
  | atom => atom

/-- What is derived is a single operand of its level, or an operator of it between what is derived
and one more operand. -/
theorem Derives.operand_or_binary {x : Nonterminal} {ts : List Token} {e : Tree}
    (h : Derives x ts e) : Derives x.operand ts e ∨
      ∃ op l r a b, op.precedence = x.precedence ∧ ts = l ++ .operator op :: r ∧ e = .binary op a b ∧
        Derives x l a ∧ Derives x.operand r b := by
  cases h with
  | number value text => exact .inl (.number value text)
  | constant name => exact .inl (.constant name)
  | sizeOf type => exact .inl (.sizeOf type)
  | parens h => exact .inl h.parens
  | ofAtom h | ofMul h | ofAdd h => exact .inl h
  | times l r | divided l r | plus l r | minus l r | shifted l r =>
    exact .inr ⟨_, _, _, _, _, rfl, rfl, rfl, l, r⟩

variable {x : Nonterminal} {ts us : List Token} {e a b : Tree} {op : Operator}

theorem append_operator (vs l r : List Token) (op : Operator) :
    vs ++ (l ++ .operator op :: r) = (vs ++ l ++ [.operator op]) ++ r := by
  simp only [List.append_assoc, List.singleton_append]

/-- Nothing stands alone before an operator of the level, one level tighter. -/
theorem bounded_operator (vs : List Token) (h : op.precedence < x.operand.precedence) :
    Bounded x.operand.precedence (vs ++ [.operator op]) := by
  intro vs' op' hvs
  obtain ⟨-, hop⟩ := List.append_inj' hvs rfl
  cases hop
  exact h

theorem precedence_lt_operand (h : op.precedence = x.precedence) :
    op.precedence < x.operand.precedence := by
  cases x with
  | atom => cases op <;> exact absurd h (by decide)
  | shift | add | mul =>
    rw [h]
    decide

theorem precedence_le_operand (x : Nonterminal) : x.precedence ≤ x.operand.precedence := by
  cases x <;> decide

/-- A single operand of the level stands alone if it does as what it is. -/
theorem Alone.operand (h : Alone x.operand ts e) : Alone x ts e := by
  intro us us' ts' e' h' heq hus hus'
  have hbound := precedence_le_operand x
  cases h'.operand_or_binary with
  | inl h' => exact h us us' ts' e' h' heq (hus.mono hbound) (hus'.mono hbound)
  | inr h' =>
    obtain ⟨op, l, r, a, b, hop, rfl, -, -, hr⟩ := h'
    rw [append_operator] at heq
    obtain ⟨rfl, -, -⟩ := h us _ r b hr heq (hus.mono hbound)
      (bounded_operator _ (precedence_lt_operand hop))
    exact absurd (hus _ op rfl) (by omega)

/-- An operator of the level between what stands alone and an operand that does. -/
theorem Alone.binary (hop : op.precedence = x.precedence) (hl : Alone x ts a)
    (hr : Alone x.operand us b) : Alone x (ts ++ .operator op :: us) (.binary op a b) := by
  intro vs vs' ts' e' h' heq hvs hvs'
  have hbound := precedence_le_operand x
  rw [append_operator] at heq
  have hleft := bounded_operator (vs ++ ts) (precedence_lt_operand hop)
  cases h'.operand_or_binary with
  | inl h' =>
    obtain ⟨rfl, -, -⟩ := hr _ vs' ts' e' h' heq hleft (hvs'.mono hbound)
    exact absurd (hvs' _ op rfl) (by omega)
  | inr h' =>
    obtain ⟨op', l, r, a', b', hop', rfl, rfl, hl', hr'⟩ := h'
    rw [append_operator] at heq
    obtain ⟨hbefore, rfl, rfl⟩ := hr _ _ r b' hr' heq hleft
      (bounded_operator _ (precedence_lt_operand hop'))
    obtain ⟨hleft, hops⟩ := List.append_inj' hbefore rfl
    obtain ⟨rfl, rfl, rfl⟩ := hl vs vs' l a' hl' hleft hvs hvs'
    cases hops
    exact ⟨rfl, rfl, rfl⟩

/-- The tree of a token that is an operand of its own. -/
def Tree.ofToken? : Token → Option Tree
  | .number value _ => some (.number value)
  | .name name => some (.constant name)
  | .sizeOf type => some (.sizeOf type)
  | _ => none

/-- An atom is one token, or stands in parentheses. -/
theorem Derives.token_or_parens (h : Derives .atom ts e) :
    (∃ t, ts = [t] ∧ Tree.ofToken? t = some e) ∨
      ∃ inner, ts = .openParen :: inner ++ [.closeParen] ∧ Derives .shift inner e := by
  cases h with
  | number | constant | sizeOf => exact .inl ⟨_, rfl, rfl⟩
  | parens h => exact .inr ⟨_, rfl, h⟩

theorem append_last (vs inner : List Token) :
    vs ++ (.openParen :: inner ++ [.closeParen]) =
      vs ++ [.openParen] ++ inner ++ [.closeParen] := by
  simp only [List.cons_append, List.append_assoc, List.nil_append]

theorem alone_of_token {t : Token} (ht : Tree.ofToken? t = some e) : Alone .atom [t] e := by
  intro us us' ts' e' h' heq _ _
  cases h'.token_or_parens with
  | inl h' =>
    obtain ⟨t', rfl, ht'⟩ := h'
    obtain ⟨rfl, hlast⟩ := List.append_inj' heq rfl
    cases hlast
    exact ⟨rfl, rfl, Option.some.inj (ht.symm.trans ht')⟩
  | inr h' =>
    obtain ⟨inner, rfl, -⟩ := h'
    rw [append_last] at heq
    obtain ⟨-, hlast⟩ := List.append_inj' heq rfl
    cases hlast
    cases ht

theorem Alone.parens (h : Alone .shift ts e) :
    Alone .atom (.openParen :: ts ++ [.closeParen]) e := by
  intro us us' ts' e' h' heq _ _
  have opened : ∀ vs : List Token, Bounded 1 (vs ++ [.openParen]) := by
    intro vs ws op hvs
    obtain ⟨-, hop⟩ := List.append_inj' hvs rfl
    cases hop
  rw [append_last] at heq
  cases h'.token_or_parens with
  | inl h' =>
    obtain ⟨t', rfl, ht'⟩ := h'
    obtain ⟨-, hlast⟩ := List.append_inj' heq rfl
    cases hlast
    cases ht'
  | inr h' =>
    obtain ⟨inner, rfl, hinner⟩ := h'
    rw [append_last] at heq
    have heq := List.append_cancel_right heq
    obtain ⟨hus, rfl, rfl⟩ := h _ _ inner e' hinner heq (opened us) (opened us')
    exact ⟨List.append_cancel_right hus, rfl, rfl⟩

/-- Whatever is derived stands alone. -/
theorem Derives.alone (h : Derives x ts e) : Alone x ts e := by
  induction h with
  | number | constant | sizeOf => exact alone_of_token rfl
  | parens _ ih => exact ih.parens
  | ofAtom _ ih | ofMul _ ih | ofAdd _ ih => exact Alone.operand ih
  | times _ _ hl hr | divided _ _ hl hr | plus _ _ hl hr | minus _ _ hl hr | shifted _ _ hl hr =>
    exact Alone.binary rfl hl hr

/-- A token sequence has one tree. -/
theorem Derives.unique {e' : Tree} (h : Derives .shift ts e) (h' : Derives .shift ts e') : e = e' := by
  have nothing : Bounded Nonterminal.shift.precedence [] := by
    intro vs op hvs
    simp at hvs
  exact (h.alone [] [] ts e' h' rfl nothing nothing).2.2

end Expression

end WireTables
