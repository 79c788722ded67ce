import WireTables.Proofs.Expression.Machine

/-!
# The values of expressions

An evaluation looks its names up while the machine runs. It ends well exactly if all names can be
looked up and the machine can calculate with what was found (`yields_evaluateWith`); where all
names have values, it gives what the machine gives, and fails as the machine fails
(`run_evaluateWith`).

So expressions that follow the grammar have the value of their tree or none
(`evaluates_iff_means`). Of a text that has a value it is known that its parentheses are nested and
that it has one operand more than operators; it follows the grammar if operands and operators also
take turns, which is not checked (`shape_of_evaluate`).
-/

namespace WireTables

open Expression (Derives Item Machine Means WellFormed calculate itemOf nested operands operators
  run takesTurns)

namespace Schema

variable {ask : Query → Eval Int} {text : String} {depth : Nat}

@[simp] theorem yields_faulty {α : Type} {r : Except ExpressionFault α} {known known' : Known}
    {a : α} : Yields (faulty text r) known a known' ↔ r = .ok a ∧ known' = known := by
  unfold faulty Eval.ofExcept
  rw [yields_mk_pure]
  cases r with
  | error fault => exact ⟨fun h => (nomatch h.1), fun h => (nomatch h.1)⟩
  | ok b => simp only [Except.mapError, Except.ok.injEq]

theorem run_faulty {α : Type} (r : Except ExpressionFault α) (known : Known) :
    Id.run ((faulty text r).run known) = (r.mapError (.expression text), known) :=
  rfl

/-- Looking names up while the machine runs is looking all of them up before. -/
theorem yields_steps {m' : Machine} {known' : Known} : ∀ {ts : List Token} {m : Machine}
    {known : Known},
    Yields (ts.foldlM (fun m t => do faulty text (m.step (← item ask depth t))) m) known m' known' ↔
      ∃ items, Yields (ts.mapM (item ask depth)) known items known' ∧ run items m = .ok m'
  | [], m, known => by
    rw [List.foldlM_nil, List.mapM_nil, yields_pure]
    constructor
    · rintro ⟨rfl, rfl⟩
      exact ⟨[], yields_pure.mpr ⟨rfl, rfl⟩, rfl⟩
    · rintro ⟨items, h, hr⟩
      obtain ⟨rfl, rfl⟩ := yields_pure.mp h
      cases hr
      exact ⟨rfl, rfl⟩
  | t :: ts, m, known => by
    simp only [List.foldlM_cons, List.mapM_cons, yields_bind, yields_faulty, yields_pure,
      yields_steps]
    constructor
    · rintro ⟨m₁, known₁, ⟨i, known₂, hi, hm, rfl⟩, items, hs, hr⟩
      refine ⟨i :: items, ⟨i, _, hi, items, known', hs, rfl, rfl⟩, ?_⟩
      rw [Expression.run_cons]
      exact bind_eq_ok.mpr ⟨m₁, hm, hr⟩
    · rintro ⟨_, ⟨i, known₁, hi, items, _, hs, rfl, rfl⟩, hr⟩
      rw [Expression.run_cons] at hr
      obtain ⟨m₁, hm, hr⟩ := bind_eq_ok.mp hr
      exact ⟨m₁, known₁, ⟨i, known₁, hi, hm, rfl⟩, items, hs, hr⟩

/-- An evaluation ends well when the text has tokens, their names can be looked up, and the machine
has a result for what was found. -/
theorem yields_evaluateWith {known known' : Known} {n : Int} :
    Yields (evaluateWith ask text depth) known n known' ↔
      depth ≤ maxDepth ∧ ∃ ts, Expression.tokens text = .ok ts ∧ ts ≠ [] ∧
        ∃ items, Yields (ts.mapM (item ask depth)) known items known' ∧
          calculate items = .ok n := by
  unfold evaluateWith
  by_cases hd : maxDepth < depth
  · rw [if_pos hd]
    exact ⟨fun h => absurd h not_yields_throw, fun h => absurd hd (Nat.not_lt.mpr h.1)⟩
  rw [if_neg hd, yields_bind]
  simp only [yields_faulty]
  constructor
  · rintro ⟨ts, _, ⟨ht, rfl⟩, h⟩
    refine ⟨Nat.not_lt.mp hd, ts, ht, ?_⟩
    split at h
    · exact absurd h not_yields_throw
    · next hne =>
      obtain ⟨m, known₁, hs, hf⟩ := yields_bind.mp h
      obtain ⟨hr, rfl⟩ := yields_faulty.mp hf
      obtain ⟨items, hi, hm⟩ := yields_steps.mp hs
      exact ⟨fun h => hne (by rw [h]; rfl), items, hi, bind_eq_ok.mpr ⟨m, hm, hr⟩⟩
  · rintro ⟨-, ts, ht, hne, items, hi, hc⟩
    obtain ⟨m, hm, hr⟩ := bind_eq_ok.mp hc
    refine ⟨ts, known, ⟨ht, rfl⟩, ?_⟩
    rw [if_neg (by simpa using hne), yields_bind]
    exact ⟨m, known', yields_steps.mpr ⟨items, hi, hm⟩, yields_faulty.mpr ⟨hr, rfl⟩⟩

/-- In the states of `P` the constants and sizes that the tokens name have the given values, and
looking one up leads to such a state again. -/
structure Answers (P : Known → Prop) (ask : Query → Eval Int) (depth : Nat)
    (constant size : String → Int) (ts : List Token) : Prop where
  constant : ∀ name, .name name ∈ ts → ∀ known, P known →
    ∃ known', P known' ∧ Yields (ask (.constant name (depth + 1))) known (constant name) known'
  size : ∀ type, .sizeOf type ∈ ts → ∀ known, P known →
    ∃ known', P known' ∧ Yields (ask (.size type 0)) known (size type) known'

variable {P : Known → Prop} {constant size : String → Int}

theorem Answers.item {ts : List Token} (h : Answers P ask depth constant size ts) {t : Token}
    (ht : t ∈ ts) {known : Known} (hk : P known) :
    ∃ known', P known' ∧ Yields (item ask depth t) known (itemOf constant size t) known' := by
  cases t with
  | name name =>
    obtain ⟨known', hp, hy⟩ := h.constant name ht known hk
    exact ⟨known', hp, yields_bind.mpr ⟨_, known', hy, yields_pure.mpr ⟨rfl, rfl⟩⟩⟩
  | sizeOf type =>
    obtain ⟨known', hp, hy⟩ := h.size type ht known hk
    exact ⟨known', hp, yields_bind.mpr ⟨_, known', hy, yields_pure.mpr ⟨rfl, rfl⟩⟩⟩
  | number | operator | openParen | closeParen =>
    exact ⟨known, hk, yields_pure.mpr ⟨rfl, rfl⟩⟩

theorem Answers.tail {t : Token} {ts : List Token}
    (h : Answers P ask depth constant size (t :: ts)) : Answers P ask depth constant size ts where
  constant name hn := h.constant name (List.mem_cons_of_mem t hn)
  size type hn := h.size type (List.mem_cons_of_mem t hn)

/-- Where all names have values, the loop does what the machine does. -/
theorem run_steps : ∀ {ts : List Token} {m : Machine} {known : Known},
    Answers P ask depth constant size ts → P known → ∃ known',
      Id.run ((ts.foldlM (fun (m : Machine) t => do
        faulty text (m.step (← item ask depth t))) m).run known) =
        ((run (ts.map (itemOf constant size)) m).mapError (.expression text), known')
  | [], m, known, _, _ => ⟨known, rfl⟩
  | t :: ts, m, known, h, hk => by
    obtain ⟨known₁, hp, hy⟩ := h.item List.mem_cons_self hk
    have hy : Id.run ((item ask depth t).run known) = (.ok (itemOf constant size t), known₁) := hy
    rw [List.foldlM_cons, run_bind, run_bind, hy, List.map_cons, Expression.run_cons]
    simp only [run_faulty]
    cases m.step (itemOf constant size t) with
    | error fault => exact ⟨known₁, rfl⟩
    | ok m₁ => exact run_steps h.tail hp

/-- Where all names have values, the outcome of an evaluation is that of the machine. -/
theorem run_evaluateWith {ts : List Token} {known : Known} (hd : depth ≤ maxDepth)
    (ht : Expression.tokens text = .ok ts) (hne : ts ≠ [])
    (ha : Answers P ask depth constant size ts) (hk : P known) :
    ∃ known', Id.run ((evaluateWith ask text depth).run known) =
      ((calculate (ts.map (itemOf constant size))).mapError (.expression text), known') := by
  have steps : ∃ known', Id.run ((ts.foldlM (fun (m : Machine) t => do
      faulty text (m.step (← item ask depth t))) {}).run known) =
      ((run (ts.map (itemOf constant size)) {}).mapError (.expression text), known') :=
    run_steps ha hk
  obtain ⟨known', hs⟩ := steps
  refine ⟨known', ?_⟩
  unfold evaluateWith
  rw [if_neg (Nat.not_lt.mpr hd), run_bind, run_faulty, ht]
  simp only [Except.mapError]
  rw [if_neg (by simpa using hne), run_bind, hs, calculate]
  cases run (ts.map (itemOf constant size)) {} with
  | error fault => rfl
  | ok m => rfl

/-- A token sequence that follows the grammar has the value `n` exactly if its tree means `n`, every
operator having a result in the range of a signed 64-bit word. If the tree means nothing, the
evaluation fails and quotes the expression. -/
theorem evaluates_iff_means {ts : List Token} {e : Expression.Tree} {known : Known}
    (hd : depth ≤ maxDepth) (ht : Expression.tokens text = .ok ts) (hg : Derives .shift ts e)
    (ha : Answers P ask depth constant size ts) (hk : P known) :
    (∀ n, (∃ known', Yields (evaluateWith ask text depth) known n known') ↔
      Means constant size e n) ∧
    ((¬ ∃ n, Means constant size e n) → ∃ fault known',
      Id.run ((evaluateWith ask text depth).run known) =
        (.error (.expression text fault), known')) := by
  have hne : ts ≠ [] := by
    rintro rfl
    have := hg.takesTurns_append []
    cases this
  obtain ⟨known', hr⟩ := run_evaluateWith hd ht hne ha hk
  rw [Expression.calculate_of_derives hg] at hr
  constructor
  · intro n
    rw [← Expression.value_iff_means]
    constructor
    · rintro ⟨known₁, h⟩
      have h : Id.run ((evaluateWith ask text depth).run known) = (.ok n, known₁) := h
      rw [hr] at h
      cases hv : e.value constant size with
      | error fault => rw [hv] at h; cases h
      | ok v => rw [hv] at h; cases h; rfl
    · intro hv
      rw [hv] at hr
      exact ⟨known', hr⟩
  · intro none
    cases hv : e.value constant size with
    | error fault =>
      rw [hv] at hr
      exact ⟨fault, known', hr⟩
    | ok v => exact absurd ⟨v, Expression.value_iff_means.mp hv⟩ none

/-- A context of one constant and one type: `FOO` is seven and a `UINT16` takes two bytes. -/
def sampleAnswer : Query → Eval Int
  | .constant "FOO" _ => return 7
  | .size "UINT16" _ => return 2
  | q => throw (.endless q.subject)

theorem answers_sample {ts : List Token} (hc : ∀ name, .name name ∈ ts → name = "FOO")
    (hs : ∀ type, .sizeOf type ∈ ts → type = "UINT16") :
    Answers (fun _ => True) sampleAnswer 0 (fun _ => 7) (fun _ => 2) ts where
  constant name hn known _ := by
    obtain rfl := hc name hn
    exact ⟨known, trivial, yields_pure.mpr ⟨rfl, rfl⟩⟩
  size type hn known _ := by
    obtain rfl := hs type hn
    exact ⟨known, trivial, yields_pure.mpr ⟨rfl, rfl⟩⟩

/-- In this context `(FOO + 1) << sizeof(UINT16) * 2` is 128, and `FOO << 62` is out of range. -/
theorem evaluates_sample :
    (∃ known, Yields (evaluateWith sampleAnswer "(FOO + 1) << sizeof(UINT16) * 2" 0) [] 128 known) ∧
    ∃ fault known, Id.run ((evaluateWith sampleAnswer "FOO << 62" 0).run []) =
      (.error (.expression "FOO << 62" fault), known) := by
  have first : Derives .shift [.openParen, .name "FOO", .operator .add, .number 1 "1", .closeParen,
      .operator .shift, .sizeOf "UINT16", .operator .mul, .number 2 "2"]
      (.binary .shift (.binary .add (.constant "FOO") (.number 1))
        (.binary .mul (.sizeOf "UINT16") (.number 2))) :=
    (Derives.parens ((Derives.constant "FOO").ofAtom.ofMul.plus
      (Derives.number 1 "1").ofAtom).ofAdd).ofAtom.ofMul.ofAdd.shifted
        ((Derives.sizeOf "UINT16").ofAtom.times (Derives.number 2 "2")).ofMul
  have second : Derives .shift [.name "FOO", .operator .shift, .number 62 "62"]
      (.binary .shift (.constant "FOO") (.number 62)) :=
    (Derives.constant "FOO").ofAtom.ofMul.ofAdd.shifted (Derives.number 62 "62").ofAtom.ofMul
  constructor
  · have value : (∃ known, Yields (evaluateWith sampleAnswer "(FOO + 1) << sizeof(UINT16) * 2" 0)
        [] 128 known) ↔ Means (fun _ => 7) (fun _ => 2) _ 128 :=
      (evaluates_iff_means (Nat.zero_le _) (by decide +kernel) first
        (answers_sample (by simp) (by simp)) trivial).1 128
    exact value.mpr (Expression.value_iff_means.mp (by decide))
  · refine (evaluates_iff_means (Nat.zero_le _) (by decide +kernel) second
      (answers_sample (by simp) (by simp)) trivial).2 ?_
    rintro ⟨n, hn⟩
    cases Expression.value_iff_means.mpr hn

theorem kind_of_item {t : Token} {i : Item} {known known' : Known}
    (h : Yields (item ask depth t) known i known') : i.kind = t.kind := by
  cases t with
  | name name =>
    obtain ⟨_, _, -, h⟩ := yields_bind.mp h
    obtain ⟨rfl, -⟩ := yields_pure.mp h
    rfl
  | sizeOf type =>
    obtain ⟨_, _, -, h⟩ := yields_bind.mp h
    obtain ⟨rfl, -⟩ := yields_pure.mp h
    rfl
  | number | operator | openParen | closeParen =>
    obtain ⟨rfl, -⟩ := yields_pure.mp h
    rfl

theorem kinds_of_items {known' : Known} : ∀ {ts : List Token} {items : List Item} {known : Known},
    Yields (ts.mapM (item ask depth)) known items known' →
      items.map Item.kind = ts.map Token.kind
  | [], items, known, h => by
    rw [List.mapM_nil] at h
    obtain ⟨rfl, -⟩ := yields_pure.mp h
    rfl
  | t :: ts, items, known, h => by
    simp only [List.mapM_cons, yields_bind, yields_pure] at h
    obtain ⟨i, known₁, hi, is, known₂, hs, rfl, rfl⟩ := h
    rw [List.map_cons, List.map_cons, kind_of_item hi, kinds_of_items hs]

/-- A text that has a value is made of tokens whose parentheses are nested and which are one operand
more than operators. It is an expression exactly if operands and operators also take turns. -/
theorem shape_of_evaluate {known known' : Known} {n : Int}
    (h : Yields (evaluateWith ask text depth) known n known') :
    ∃ ts, Expression.tokens text = .ok ts ∧ nested 0 (ts.map Token.kind) = true ∧
      operands (ts.map Token.kind) = operators (ts.map Token.kind) + 1 ∧
      (WellFormed ts ↔ takesTurns true (ts.map Token.kind) = true) := by
  obtain ⟨-, ts, ht, -, items, hi, hc⟩ := yields_evaluateWith.mp h
  obtain ⟨hn, ho⟩ := Expression.shape_of_calculate hc
  rw [kinds_of_items hi] at hn ho
  refine ⟨ts, ht, hn, ho, ?_⟩
  rw [Expression.wellFormed_iff]
  exact ⟨fun h => h.1, fun h => ⟨h, hn⟩⟩

/-- `1 2 +` has a value and is no expression. -/
theorem shape_of_postfix : Yields (evaluateWith sampleAnswer "1 2 +" 0) [] 3 [] ∧
    ∃ ts, Expression.tokens "1 2 +" = .ok ts ∧
      operands (ts.map Token.kind) = operators (ts.map Token.kind) + 1 ∧ ¬ WellFormed ts := by
  have value : Yields (evaluateWith sampleAnswer "1 2 +" 0) [] 3 [] := by
    refine yields_evaluateWith.mpr ⟨Nat.zero_le _,
      [.number 1 "1", .number 2 "2", .operator .add], by decide +kernel, by simp,
      [.number 1, .number 2, .operator .add], rfl, by decide⟩
  obtain ⟨ts, ht, -, ho, hw⟩ := shape_of_evaluate value
  refine ⟨value, ts, ht, ho, fun h => ?_⟩
  have written : Expression.tokens "1 2 +" =
      .ok [.number 1 "1", .number 2 "2", .operator .add] := by decide +kernel
  obtain rfl := Except.ok.inj (ht.symm.trans written)
  cases hw.mp h

end Schema

end WireTables
