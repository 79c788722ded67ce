import WireTables.Proofs.Calculation
import WireTables.Proofs.Expression.Grammar
import WireTables.Proofs.Schema.Evaluation

/-!
# What the machine calculates

The machine does one thing in three places: it applies the pending operators that bind at least as
tightly as some level, down to the last open parenthesis. `settle` is that one thing; an operator
settles its own level before it is stacked, a closing parenthesis and the end settle the loosest.
Settling a loose level after a tight one is the same as settling the loose one at once, and this is
all that the correctness of the machine rests on: the tokens of a derivation, once settled, leave
the value of its tree on top of the numbers that were there before (`run_of_derives`).

The machine never asks whether an operand or an operator is due. What it does notice of a sequence
that is no expression is in `shape_of_calculate`: parentheses that are not nested, and a number of
operands that is not one more than that of the operators.
-/

namespace WireTables

theorem Operator.one_le_precedence (op : Operator) : 1 ≤ op.precedence := by
  cases op <;> decide

namespace Expression

variable {constant size : String → Int}

/-- The value of an operator, or the failure that quotes its operands. -/
def operate (op : Operator) (x y : Int) : Except ExpressionFault Int :=
  match op.value? x y with
  | some value => .ok value
  | none => .error (.noValue x op y)

/-- The value of a tree, operands from left to right. -/
def Tree.value (constant size : String → Int) : Tree → Except ExpressionFault Int
  | .number value => .ok value
  | .constant name => .ok (constant name)
  | .sizeOf type => .ok (size type)
  | .binary op lhs rhs => do
    let x ← lhs.value constant size
    let y ← rhs.value constant size
    operate op x y

/-- A token whose name stands for its value. -/
def itemOf (constant size : String → Int) : Token → Item
  | .number value _ => .number value
  | .name name => .number (constant name)
  | .sizeOf type => .number (size type)
  | .operator op => .operator op
  | .openParen => .openParen
  | .closeParen => .closeParen

/-- Takes in items one after the other. -/
def run (items : List Item) (m : Machine) : Except ExpressionFault Machine :=
  items.foldlM Machine.step m

/-- The value of a sequence of items. -/
def calculate (items : List Item) : Except ExpressionFault Int := do
  (← run items {}).result

section Means

theorem checkedWord_iff {n m : Int} : checkedWord n = some m ↔ InRange n ∧ m = n := by
  unfold checkedWord fitsWord InRange
  constructor
  · intro h
    split at h
    · next hn =>
      cases h
      simp only [Bool.and_eq_true, decide_eq_true_eq] at hn
      exact ⟨by omega, rfl⟩
    · cases h
  · rintro ⟨hn, rfl⟩
    rw [if_pos]
    simp only [Bool.and_eq_true, decide_eq_true_eq]
    omega

theorem operate_eq_ok {op : Operator} {x y n : Int} :
    operate op x y = .ok n ↔ op.value? x y = some n := by
  unfold operate
  cases op.value? x y with
  | none => exact ⟨fun h => (nomatch h), fun h => (nomatch h)⟩
  | some m => simp only [Except.ok.injEq, Option.some.injEq]

/-- The value of a tree is what the tree means. -/
theorem value_iff_means {e : Tree} {n : Int} :
    e.value constant size = .ok n ↔ Means constant size e n := by
  induction e generalizing n with
  | number | constant | sizeOf =>
    constructor
    · intro h
      cases h
      constructor
    · intro h
      cases h
      rfl
  | binary op a b iha ihb =>
    simp only [Tree.value, bind_eq_ok, operate_eq_ok]
    constructor
    · rintro ⟨x, hx, y, hy, h⟩
      have hx := iha.mp hx
      have hy := ihb.mp hy
      cases op with
      | add =>
        obtain ⟨hr, rfl⟩ := checkedWord_iff.mp h
        exact .add hx hy hr
      | sub =>
        obtain ⟨hr, rfl⟩ := checkedWord_iff.mp h
        exact .sub hx hy hr
      | mul =>
        obtain ⟨hr, rfl⟩ := checkedWord_iff.mp h
        exact .mul hx hy hr
      | div =>
        simp only [Operator.value?, beq_iff_eq] at h
        split at h
        · cases h
        · next hne =>
          obtain ⟨hr, rfl⟩ := checkedWord_iff.mp h
          exact .div hx hy hne hr
      | shift =>
        simp only [Operator.value?, Bool.and_eq_true, decide_eq_true_eq] at h
        split at h
        · next hs =>
          obtain ⟨hr, rfl⟩ := checkedWord_iff.mp h
          exact .shift hx hy hs.1 hs.2 hr
        · cases h
    · intro h
      cases h with
      | add hx hy hr | sub hx hy hr | mul hx hy hr =>
        exact ⟨_, iha.mpr hx, _, ihb.mpr hy, checkedWord_iff.mpr ⟨hr, rfl⟩⟩
      | div hx hy hne hr =>
        refine ⟨_, iha.mpr hx, _, ihb.mpr hy, ?_⟩
        simp only [Operator.value?, beq_iff_eq, hne, if_false]
        exact checkedWord_iff.mpr ⟨hr, rfl⟩
      | shift hx hy h₀ h₁ hr =>
        refine ⟨_, iha.mpr hx, _, ihb.mpr hy, ?_⟩
        simp only [Operator.value?, h₀, h₁, decide_true, Bool.and_self, if_true]
        exact checkedWord_iff.mpr ⟨hr, rfl⟩

end Means

section Settle

/-- Applies the pending operators that bind at least as tightly as `p`, down to the last open
parenthesis. -/
def settle (p : Nat) : List Pending → List Int → Except ExpressionFault Machine
  | [], numbers => .ok ⟨numbers, []⟩
  | .openParen :: pending, numbers => .ok ⟨numbers, .openParen :: pending⟩
  | .operator op :: pending, numbers =>
    if op.precedence < p then .ok ⟨numbers, .operator op :: pending⟩
    else do settle p pending (← applyTop op numbers)

/-- The same of a machine. -/
def Machine.settle (p : Nat) (m : Machine) : Except ExpressionFault Machine :=
  Expression.settle p m.pending m.numbers

/-- Stacks an operator. -/
def Machine.stack (op : Operator) (m : Machine) : Except ExpressionFault Machine :=
  .ok ⟨m.numbers, .operator op :: m.pending⟩

/-- Takes the open parenthesis off that stands on top. -/
def Machine.reopen (m : Machine) : Except ExpressionFault Machine :=
  match m.pending with
  | .openParen :: pending => .ok ⟨m.numbers, pending⟩
  | _ => .error .unopened

/-- The one number that is left when nothing is pending. -/
def Machine.outcome (m : Machine) : Except ExpressionFault Int :=
  match m.pending, m.numbers with
  | [], [value] => .ok value
  | [], _ => .error .danglingOperand
  | _ :: _, _ => .error .unclosed

theorem push_eq (op : Operator) : ∀ (pending : List Pending) (numbers : List Int),
    push op pending numbers = settle op.precedence pending numbers >>= Machine.stack op
  | [], _ => rfl
  | .openParen :: _, _ => rfl
  | .operator top :: pending, numbers => by
    unfold push settle
    split
    · rfl
    · rw [bind_assoc]
      exact bind_congr fun left => push_eq op pending left

theorem close_eq : ∀ (pending : List Pending) (numbers : List Int),
    close pending numbers = settle 1 pending numbers >>= Machine.reopen
  | [], _ => rfl
  | .openParen :: _, _ => rfl
  | .operator op :: pending, numbers => by
    unfold close settle
    rw [if_neg (Nat.not_lt.mpr op.one_le_precedence), bind_assoc]
    exact bind_congr fun left => close_eq pending left

theorem finish_eq : ∀ (pending : List Pending) (numbers : List Int),
    finish pending numbers = settle 1 pending numbers >>= Machine.outcome
  | [], [] | [], [_] | [], _ :: _ :: _ => rfl
  | .openParen :: _, _ => rfl
  | .operator op :: pending, numbers => by
    unfold finish settle
    rw [if_neg (Nat.not_lt.mpr op.one_le_precedence), bind_assoc]
    exact bind_congr fun left => finish_eq pending left

/-- A tight level may be settled before a loose one. -/
theorem settle_settle {p q : Nat} (h : p ≤ q) : ∀ (pending : List Pending) (numbers : List Int),
    (settle q pending numbers >>= Machine.settle p) = settle p pending numbers
  | [], _ => rfl
  | .openParen :: _, _ => rfl
  | .operator op :: pending, numbers => by
    by_cases hq : op.precedence < q
    · rw [settle, if_pos hq]
      rfl
    · rw [settle, if_neg hq, settle, if_neg (by omega), bind_assoc]
      exact bind_congr fun left => settle_settle h pending left

/-- No pending operator binds at least as tightly as `p`, up to the last open parenthesis: the
topmost one does not. -/
def Rests (p : Nat) (pending : List Pending) : Prop :=
  ∀ op rest, pending = .operator op :: rest → op.precedence < p

theorem Rests.mono {p q : Nat} {pending : List Pending} (h : Rests p pending) (hpq : p ≤ q) :
    Rests q pending :=
  fun op rest hp => Nat.lt_of_lt_of_le (h op rest hp) hpq

theorem settle_of_rests {p : Nat} {pending : List Pending} (h : Rests p pending)
    (numbers : List Int) : settle p pending numbers = .ok ⟨numbers, pending⟩ := by
  match pending with
  | [] => rfl
  | .openParen :: _ => rfl
  | .operator op :: rest => rw [settle, if_pos (h op rest rfl)]

end Settle

section Derivations

theorem run_append (xs ys : List Item) (m : Machine) :
    run (xs ++ ys) m = run xs m >>= run ys :=
  List.foldlM_append ..

theorem run_cons (x : Item) (xs : List Item) (m : Machine) :
    run (x :: xs) m = m.step x >>= run xs :=
  List.foldlM_cons ..

theorem applyTop_pair (op : Operator) (x y : Int) (numbers : List Int) :
    applyTop op (y :: x :: numbers) = operate op x y >>= fun v => .ok (v :: numbers) := by
  simp only [applyTop, operate]
  cases op.value? x y <;> rfl

/-- How tightly the operators of a nonterminal bind; an atom has none. -/
def Nonterminal.precedence : Nonterminal → Nat
  | shift => 1
  | add => 2
  | mul => 3
  | atom => 4

/-- The items, once the level `p` is settled, leave the value of the tree on top. -/
def Computes (constant size : String → Int) (p : Nat) (ts : List Token) (e : Tree) : Prop :=
  ∀ pending, Rests p pending → ∀ numbers,
    (run (ts.map (itemOf constant size)) ⟨numbers, pending⟩ >>= Machine.settle p) =
      e.value constant size >>= fun v => .ok ⟨v :: numbers, pending⟩

/-- What computes a tree at a tight level computes it at a loose one. -/
theorem Computes.loosen {p q : Nat} {ts : List Token} {e : Tree}
    (h : Computes constant size q ts e) (hpq : p ≤ q) : Computes constant size p ts e := by
  intro pending hp numbers
  have settled : ∀ m : Machine, (m.settle q >>= Machine.settle p) = m.settle p :=
    fun m => settle_settle hpq m.pending m.numbers
  calc (run (ts.map (itemOf constant size)) ⟨numbers, pending⟩ >>= Machine.settle p)
      = (run (ts.map (itemOf constant size)) ⟨numbers, pending⟩ >>= Machine.settle q) >>=
          Machine.settle p := by
        rw [bind_assoc]
        exact bind_congr fun m => (settled m).symm
    _ = (e.value constant size >>= fun v => .ok ⟨v :: numbers, pending⟩) >>=
          Machine.settle p := by rw [h pending (hp.mono hpq) numbers]
    _ = e.value constant size >>= fun v => .ok ⟨v :: numbers, pending⟩ := by
        rw [bind_assoc]
        exact bind_congr fun v => settle_of_rests hp (v :: numbers)

/-- An operator between two operands: the left one is settled at its level before it is stacked,
the right one one level tighter, so that the operator is still pending when it ends. -/
theorem Computes.binary {ts us : List Token} {a b : Tree} (op : Operator)
    (hl : Computes constant size op.precedence ts a)
    (hr : Computes constant size (op.precedence + 1) us b) :
    Computes constant size op.precedence (ts ++ .operator op :: us) (.binary op a b) := by
  intro pending hp numbers
  have right : ∀ x, (run (us.map (itemOf constant size)) ⟨x :: numbers, .operator op :: pending⟩ >>=
      Machine.settle op.precedence) =
      b.value constant size >>= fun y => operate op x y >>= fun v =>
        .ok ⟨v :: numbers, pending⟩ := by
    intro x
    have top : Rests (op.precedence + 1) (.operator op :: pending) := by
      rintro op' rest h
      cases h
      exact Nat.lt_succ_self _
    have settled : ∀ m : Machine, (m.settle (op.precedence + 1) >>= Machine.settle op.precedence) =
        m.settle op.precedence :=
      fun m => settle_settle (Nat.le_succ _) m.pending m.numbers
    have applied : ∀ y, settle op.precedence (.operator op :: pending) (y :: x :: numbers) =
        operate op x y >>= fun v => .ok ⟨v :: numbers, pending⟩ := by
      intro y
      rw [settle, if_neg (Nat.lt_irrefl _), applyTop_pair, bind_assoc]
      exact bind_congr fun v => settle_of_rests hp (v :: numbers)
    calc (run (us.map (itemOf constant size)) ⟨x :: numbers, .operator op :: pending⟩ >>=
          Machine.settle op.precedence)
        = (run (us.map (itemOf constant size)) ⟨x :: numbers, .operator op :: pending⟩ >>=
            Machine.settle (op.precedence + 1)) >>= Machine.settle op.precedence := by
          rw [bind_assoc]
          exact bind_congr fun m => (settled m).symm
      _ = (b.value constant size >>= fun y => .ok ⟨y :: x :: numbers, .operator op :: pending⟩) >>=
            Machine.settle op.precedence := by rw [hr _ top]
      _ = _ := by
          rw [bind_assoc]
          exact bind_congr applied
  have stacked : ∀ m : Machine, m.step (.operator op) =
      m.settle op.precedence >>= Machine.stack op := fun m => push_eq op m.pending m.numbers
  calc (run ((ts ++ .operator op :: us).map (itemOf constant size)) ⟨numbers, pending⟩ >>=
        Machine.settle op.precedence)
      = (run (ts.map (itemOf constant size)) ⟨numbers, pending⟩ >>=
          Machine.settle op.precedence) >>= fun m => m.stack op >>= fun m =>
            run (us.map (itemOf constant size)) m >>= Machine.settle op.precedence := by
        rw [List.map_append, run_append, List.map_cons]
        simp only [bind_assoc]
        refine bind_congr fun m => ?_
        rw [itemOf, run_cons, stacked]
        simp only [bind_assoc]
    _ = a.value constant size >>= fun x =>
          run (us.map (itemOf constant size)) ⟨x :: numbers, .operator op :: pending⟩ >>=
            Machine.settle op.precedence := by
        rw [hl pending hp numbers, bind_assoc]
        rfl
    _ = (Tree.binary op a b).value constant size >>= fun v => .ok ⟨v :: numbers, pending⟩ := by
        simp only [Tree.value, bind_assoc]
        exact bind_congr right

/-- Parentheses settle everything between them. -/
theorem Computes.parens {ts : List Token} {e : Tree} (h : Computes constant size 1 ts e) :
    Computes constant size 4 (.openParen :: ts ++ [.closeParen]) e := by
  intro pending hp numbers
  have inner : Rests 1 (.openParen :: pending) := by
    intro op rest h
    cases h
  have closed : ∀ m : Machine, m.step .closeParen = m.settle 1 >>= Machine.reopen :=
    fun m => close_eq m.pending m.numbers
  calc (run ((Token.openParen :: ts ++ [Token.closeParen]).map (itemOf constant size))
        ⟨numbers, pending⟩ >>= Machine.settle 4)
      = (run (ts.map (itemOf constant size)) ⟨numbers, .openParen :: pending⟩ >>=
          Machine.settle 1) >>= fun m => m.reopen >>= Machine.settle 4 := by
        rw [List.map_append, run_append]
        simp only [List.map_cons, List.map_nil, itemOf, run_cons, bind_assoc]
        show (run (ts.map (itemOf constant size)) ⟨numbers, .openParen :: pending⟩ >>= _) = _
        refine bind_congr fun m => ?_
        rw [closed, bind_assoc]
        rfl
    _ = e.value constant size >>= fun v => .ok ⟨v :: numbers, pending⟩ := by
        rw [h _ inner, bind_assoc]
        exact bind_congr fun v => settle_of_rests hp (v :: numbers)

/-- The tokens of a derivation compute its tree. -/
theorem run_of_derives {x : Nonterminal} {ts : List Token} {e : Tree} (h : Derives x ts e) :
    Computes constant size x.precedence ts e := by
  have operand : ∀ {t : Token} {v : Int} {e : Tree}, itemOf constant size t = .number v →
      e.value constant size = .ok v → Computes constant size 4 [t] e := by
    intro t v e ht he pending hp numbers
    rw [List.map_cons, ht, he]
    exact settle_of_rests hp (v :: numbers)
  induction h with
  | number | constant | sizeOf => exact operand rfl rfl
  | parens _ ih => exact ih.parens
  | ofAtom _ ih | ofMul _ ih | ofAdd _ ih => exact ih.loosen (Nat.le_succ _)
  | times _ _ hl hr => exact Computes.binary .mul hl hr
  | divided _ _ hl hr => exact Computes.binary .div hl hr
  | plus _ _ hl hr => exact Computes.binary .add hl hr
  | minus _ _ hl hr => exact Computes.binary .sub hl hr
  | shifted _ _ hl hr => exact Computes.binary .shift hl hr

/-- The machine gives an expression the value of its tree. -/
theorem calculate_of_derives {ts : List Token} {e : Tree} (h : Derives .shift ts e) :
    calculate (ts.map (itemOf constant size)) = e.value constant size := by
  have settled : ∀ m : Machine, m.result = m.settle 1 >>= Machine.outcome :=
    fun m => finish_eq m.pending m.numbers
  have whole : (run (ts.map (itemOf constant size)) {} >>= Machine.settle 1) =
      e.value constant size >>= fun v => .ok ⟨[v], []⟩ :=
    run_of_derives h [] (fun _ _ h => nomatch h) []
  calc calculate (ts.map (itemOf constant size))
      = (run (ts.map (itemOf constant size)) {} >>= Machine.settle 1) >>= Machine.outcome := by
        rw [calculate, bind_assoc]
        exact bind_congr settled
    _ = e.value constant size >>= fun v => .ok v := by
        rw [whole, bind_assoc]
        rfl
    _ = e.value constant size := bind_pure _

end Derivations

section Shape

/-- What an item is to the grammar. -/
def Item.kind : Item → Kind
  | .number _ => .operand
  | .operator op => .operator op
  | .openParen => .openParen
  | .closeParen => .closeParen

/-- The number of operands. -/
def operands (ks : List Kind) : Nat :=
  ks.countP fun k => k matches .operand

/-- The number of operators. -/
def operators (ks : List Kind) : Nat :=
  ks.countP fun k => k matches .operator _

/-- The number of open parentheses that are pending. -/
def opened (pending : List Pending) : Nat :=
  pending.countP fun p => p matches .openParen

/-- The number of operators that are pending. -/
def waiting (pending : List Pending) : Nat :=
  pending.countP fun p => p matches .operator _

@[simp] theorem opened_nil : opened [] = 0 := rfl
@[simp] theorem opened_openParen (pending : List Pending) :
    opened (.openParen :: pending) = opened pending + 1 := List.countP_cons_of_pos rfl
@[simp] theorem opened_operator (op : Operator) (pending : List Pending) :
    opened (.operator op :: pending) = opened pending := List.countP_cons_of_neg nofun
@[simp] theorem waiting_nil : waiting [] = 0 := rfl
@[simp] theorem waiting_openParen (pending : List Pending) :
    waiting (.openParen :: pending) = waiting pending := List.countP_cons_of_neg nofun
@[simp] theorem waiting_operator (op : Operator) (pending : List Pending) :
    waiting (.operator op :: pending) = waiting pending + 1 := List.countP_cons_of_pos rfl

theorem length_of_applyTop {op : Operator} {numbers left : List Int}
    (h : applyTop op numbers = .ok left) : left.length + 1 = numbers.length := by
  unfold applyTop at h
  split at h
  · split at h
    · cases h
      rfl
    · cases h
  · cases h

/-- Settling leaves the parentheses alone, and takes as many numbers off as operators. -/
theorem shape_of_settle {p : Nat} {m : Machine} : ∀ {pending : List Pending} {numbers : List Int},
    settle p pending numbers = .ok m →
      opened m.pending = opened pending ∧
        m.numbers.length + waiting pending = numbers.length + waiting m.pending
  | [], _, h => by cases h; exact ⟨rfl, rfl⟩
  | .openParen :: _, _, h => by cases h; exact ⟨rfl, rfl⟩
  | .operator op :: pending, numbers, h => by
    unfold settle at h
    split at h
    · cases h
      exact ⟨rfl, rfl⟩
    · obtain ⟨left, hl, h⟩ := bind_eq_ok.mp h
      obtain ⟨ho, hw⟩ := shape_of_settle h
      have := length_of_applyTop hl
      rw [opened_operator, waiting_operator]
      exact ⟨ho, by omega⟩

/-- A step opens and closes parentheses as the item does, and the numbers are ahead of the pending
operators by as much as operands are of operators. -/
theorem shape_of_step {m m' : Machine} {item : Item} (h : m.step item = .ok m') (ks : List Kind) :
    (nested (opened m'.pending) ks = true →
      nested (opened m.pending) (item.kind :: ks) = true) ∧
    m'.numbers.length + waiting m.pending + operators [item.kind] =
      m.numbers.length + waiting m'.pending + operands [item.kind] := by
  cases item with
  | number value =>
    cases h
    refine ⟨fun hn => ?_, ?_⟩
    · simpa only [Item.kind, nested] using hn
    · show m.numbers.length + 1 + waiting m.pending + 0 = m.numbers.length + waiting m.pending + 1
      omega
  | openParen =>
    cases h
    refine ⟨fun hn => ?_, ?_⟩
    · rw [opened_openParen] at hn
      simpa only [Item.kind, nested] using hn
    · rw [waiting_openParen]
      rfl
  | operator op =>
    obtain ⟨m₁, hs, h⟩ := bind_eq_ok.mp ((push_eq op m.pending m.numbers).symm.trans h)
    obtain ⟨ho, hw⟩ := shape_of_settle hs
    cases h
    refine ⟨fun hn => ?_, ?_⟩
    · rw [opened_operator, ho] at hn
      simpa only [Item.kind, nested] using hn
    · rw [waiting_operator]
      show m₁.numbers.length + waiting m.pending + 1 =
        m.numbers.length + (waiting m₁.pending + 1) + 0
      omega
  | closeParen =>
    obtain ⟨m₁, hs, h⟩ := bind_eq_ok.mp ((close_eq m.pending m.numbers).symm.trans h)
    obtain ⟨ho, hw⟩ := shape_of_settle hs
    unfold Machine.reopen at h
    split at h
    · next pending hp =>
      cases h
      rw [hp, opened_openParen] at ho
      rw [hp, waiting_openParen] at hw
      refine ⟨fun hn => ?_, ?_⟩
      · rw [← ho]
        simpa only [Item.kind, nested] using hn
      · show m₁.numbers.length + waiting m.pending + 0 = m.numbers.length + waiting pending + 0
        omega
    · cases h

theorem shape_of_run {n : Int} : ∀ {items : List Item} {m m' : Machine},
    run items m = .ok m' → m'.result = .ok n →
      nested (opened m.pending) (items.map Item.kind) = true ∧
        1 + waiting m.pending + operators (items.map Item.kind) =
          m.numbers.length + operands (items.map Item.kind)
  | [], m, m', h, hr => by
    cases h
    obtain ⟨m₁, hs, h⟩ := bind_eq_ok.mp ((finish_eq m.pending m.numbers).symm.trans hr)
    obtain ⟨ho, hw⟩ := shape_of_settle hs
    unfold Machine.outcome at h
    split at h
    · next hp hn =>
      rw [hp, opened_nil] at ho
      rw [hp, hn, waiting_nil] at hw
      refine ⟨?_, ?_⟩
      · rw [List.map_nil, ← ho]
        rfl
      · show 1 + waiting m.pending + 0 = m.numbers.length + 0
        simpa using hw
    · cases h
    · cases h
  | item :: items, m, m', h, hr => by
    rw [run_cons] at h
    obtain ⟨m₁, hm, h⟩ := bind_eq_ok.mp h
    obtain ⟨hn, hc⟩ := shape_of_run h hr
    obtain ⟨hs, hw⟩ := shape_of_step hm (items.map Item.kind)
    refine ⟨hs hn, ?_⟩
    have cons : ∀ (p : Kind → Bool), ([item.kind] ++ items.map Item.kind).countP p =
        [item.kind].countP p + (items.map Item.kind).countP p :=
      fun p => List.countP_append
    rw [List.singleton_append] at cons
    rw [List.map_cons, operators, operands, cons, cons]
    simp only [operators, operands] at hc hw
    omega

/-- A sequence of items that has a value is nested, and there is one operand more than operators. -/
theorem shape_of_calculate {items : List Item} {n : Int} (h : calculate items = .ok n) :
    nested 0 (items.map Item.kind) = true ∧
      operands (items.map Item.kind) = operators (items.map Item.kind) + 1 := by
  obtain ⟨m, hm, hr⟩ := bind_eq_ok.mp h
  obtain ⟨hn, hc⟩ := shape_of_run hm hr
  rw [waiting_nil, List.length_nil] at hc
  exact ⟨hn, by omega⟩

end Shape

end Expression

end WireTables
