import WireTables.Proofs.Schema.Afresh
import WireTables.Proofs.Schema.Coverage

/-!
# More memory gives the same answers

A calculation that ends well still does, with the same result, where more is remembered
(`Mirrors`), if that came about by calculations as well: what is remembered in addition was found
afresh and is closed (`Alongside`). Where the calculation finds a value that the wider memory has
already, the two agree because answers afresh are unique, and nothing that was remembered on the way
to the value is missing because it is covered. That also matters for the depth: a constant that is
found in the narrow memory never has to be evaluated in the wider one.
-/

namespace WireTables

namespace Schema

/-- The values of `base` and all that was found since are remembered in the second memory as well,
which came about by calculations. -/
structure Alongside (s : Schema) (base known wide : Known) : Prop where
  held : base.Within known
  within : known.Within wide
  memory : s.Memory base wide
  closed : s.Closed base wide

/-- Where the calculation ends well it does so in a wider memory, with the same result. -/
def Mirrors (s : Schema) (base : Known) {α : Type} (m : Eval α) : Prop :=
  ∀ known wide a known', s.Alongside base known wide → Yields m known a known' →
    ∃ wide', Yields m wide a wide' ∧ s.Alongside base known' wide'

variable {s : Schema} {base : Known}

theorem Alongside.refl : s.Alongside base base base :=
  ⟨.refl, .refl, .refl, .refl⟩

/-- What came about by calculations stands beside what was there before them. -/
theorem Alongside.of_base {known wide : Known} (h : s.Alongside base known wide) :
    s.Alongside base base wide :=
  ⟨.refl, h.memory.kept, h.memory, h.closed⟩

namespace Mirrors

variable {α β : Type}

theorem pure {a : α} : s.Mirrors base (Pure.pure a) := by
  intro known wide a' known' h hy
  obtain ⟨rfl, rfl⟩ := yields_pure.mp hy
  exact ⟨wide, yields_pure.mpr ⟨rfl, rfl⟩, h⟩

theorem throw {e : Error} : s.Mirrors base (MonadExcept.throw e : Eval α) :=
  fun _ _ _ _ _ hy => (not_yields_throw hy).elim

theorem ofExcept {r : Except Error α} : s.Mirrors base (Eval.ofExcept r) := by
  intro known wide a known' h hy
  obtain ⟨rfl, rfl⟩ := yields_evalOfExcept.mp hy
  exact ⟨wide, yields_evalOfExcept.mpr ⟨rfl, rfl⟩, h⟩

theorem bind {m : Eval α} {f : α → Eval β} (hm : s.Mirrors base m)
    (hf : ∀ a, s.Mirrors base (f a)) : s.Mirrors base (m >>= f) := by
  intro known wide b known' h hy
  obtain ⟨a, known₁, hfirst, hsecond⟩ := yields_bind.mp hy
  obtain ⟨wide₁, hfirst', h₁⟩ := hm known wide a known₁ h hfirst
  obtain ⟨wide', hsecond', h'⟩ := hf a known₁ wide₁ b known' h₁ hsecond
  exact ⟨wide', yields_bind.mpr ⟨a, wide₁, hfirst', hsecond'⟩, h'⟩

theorem foldlM {f : β → α → Eval β} (hf : ∀ b x, s.Mirrors base (f b x)) :
    ∀ {xs : List α} {b : β}, s.Mirrors base (xs.foldlM f b)
  | [], _ => pure
  | x :: xs, b => by
    rw [List.foldlM_cons]
    exact (hf b x).bind fun c => foldlM hf

theorem mapM {f : α → Eval β} (hf : ∀ x, s.Mirrors base (f x)) :
    ∀ {xs : List α}, s.Mirrors base (xs.mapM f)
  | [] => by
    rw [List.mapM_nil]
    exact pure
  | x :: xs => by
    rw [List.mapM_cons]
    exact (hf x).bind fun y => (mapM hf).bind fun ys => pure

end Mirrors

section Steps

variable {ask : Query → Eval Int} (hask : ∀ q, s.Mirrors base (ask q))

include hask

theorem item_mirrors (depth : Nat) (t : Token) : s.Mirrors base (item ask depth t) := by
  cases t with
  | name | sizeOf => exact (hask _).bind fun _ => .pure
  | number | operator | openParen | closeParen => exact .pure

theorem evaluateWith_mirrors (text : String) (depth : Nat) :
    s.Mirrors base (evaluateWith ask text depth) := by
  unfold evaluateWith
  split
  · exact .throw
  refine Mirrors.ofExcept.bind fun ts => ?_
  split
  · exact .throw
  · exact (Mirrors.foldlM fun m t => (item_mirrors hask depth t).bind fun i => .ofExcept).bind
      fun m => .ofExcept

theorem fieldCount_mirrors (owner : String) (f : Field) :
    s.Mirrors base (fieldCount ask owner f) := by
  unfold fieldCount
  split
  · split
    · exact evaluateWith_mirrors hask _ _
    · exact .throw
  · split
    · exact evaluateWith_mirrors hask _ _
    · exact .throw
  · split
    · exact evaluateWith_mirrors hask _ _
    · exact .throw
  · exact .pure

omit hask in
theorem product_mirrors (a b : Int) (failure : Error) :
    s.Mirrors base (product a b failure) := by
  unfold product
  split
  · exact .pure
  · exact .throw

theorem fieldSizeWith_mirrors (owner : String) (depth : Nat) (f : Field) :
    s.Mirrors base (fieldSizeWith ask owner depth f) :=
  (hask _).bind fun _ => (fieldCount_mirrors hask owner f).bind fun _ => product_mirrors _ _ _

theorem memberSizeWith_mirrors (owner : String) (depth : Nat) (m : UnionMember) :
    s.Mirrors base (memberSizeWith ask owner depth m) := by
  unfold memberSizeWith
  cases m.arraySize with
  | some text =>
    exact (evaluateWith_mirrors hask text 0).bind fun _ => (hask _).bind fun _ =>
      product_mirrors _ _ _
  | none => exact Mirrors.pure.bind fun _ => (hask _).bind fun _ => product_mirrors _ _ _

theorem sizeStep_mirrors (type : String) (depth : Nat) :
    s.Mirrors base (s.sizeStep ask type depth) := by
  unfold sizeStep
  split
  · exact .throw
  refine Mirrors.ofExcept.bind fun t => ?_
  cases t.kind with
  | value c => exact .pure
  | aliasOf a | enum e | bitfield b => exact hask _
  | record r =>
    refine Mirrors.ofExcept.bind fun fields => Mirrors.foldlM fun total f => ?_
    refine (fieldSizeWith_mirrors hask type depth f).bind fun size => ?_
    split
    · exact .pure
    · exact .throw
  | union u =>
    exact Mirrors.foldlM fun largest m =>
      (memberSizeWith_mirrors hask type depth m).bind fun size => .pure

end Steps

theorem yields_known? {number : Nat} {known known' : Known} {v : Option Int} :
    Yields (Eval.known? number) known v known' ↔ v = known.lookup number ∧ known' = known := by
  unfold Eval.known?
  simp only [yields_bind, yields_get, yields_pure]
  constructor
  · rintro ⟨_, _, ⟨rfl, rfl⟩, rfl, rfl⟩
    exact ⟨rfl, rfl⟩
  · rintro ⟨rfl, rfl⟩
    exact ⟨_, _, ⟨rfl, rfl⟩, rfl, rfl⟩

/-- A constant is remembered, or its expression is evaluated and the value is remembered. -/
theorem yields_constantStep_iff {ask : Query → Eval Int} {name : String} {depth number : Nat}
    (hn : s.resolveConstant? name = some number) {known known' : Known} {n : Int} :
    Yields (s.constantStep ask name depth) known n known' ↔
      (known.lookup number = some n ∧ known' = known) ∨
      known.lookup number = none ∧ ∃ c known₁, s.constants[number]? = some c ∧
        Yields (evaluateWith ask c.expr depth) known n known₁ ∧
          known' = if (known₁.lookup number).isSome then known₁ else (number, n) :: known₁ := by
  unfold constantStep
  rw [hn]
  simp only [yields_bind, yields_known?, and_assoc, exists_and_left, exists_eq_left]
  cases hk : known.lookup number with
  | some value =>
    simp only [yields_pure, Option.some.injEq, reduceCtorEq, false_and, or_false]
    exact and_congr_left fun _ => eq_comm
  | none =>
    simp only [reduceCtorEq, false_and, false_or, true_and]
    cases hc : s.constants[number]? with
    | none => simp only [not_yields_throw, reduceCtorEq, false_and, exists_false]
    | some c =>
      unfold Eval.remember
      simp only [yields_bind, yields_modify, yields_pure, Option.some.injEq, exists_eq_left']
      constructor
      · rintro ⟨value, known₁, he, _, _, rfl, rfl, rfl⟩
        exact ⟨known₁, he, rfl⟩
      · rintro ⟨known₁, he, rfl⟩
        exact ⟨n, known₁, he, ⟨⟩, _, rfl, rfl, rfl⟩

/-- What is remembered once a constant has been evaluated, from what was remembered before. -/
def remembered (number : Nat) (n : Int) (known : Known) : Known :=
  if (known.lookup number).isSome then known else (number, n) :: known

theorem within_remembered {number : Nat} {n : Int} {known : Known} :
    known.Within (remembered number n known) := by
  unfold remembered
  split
  · exact .refl
  · next hnone => exact .cons (Option.not_isSome_iff_eq_none.mp hnone)

/-- The value of a constant may be remembered when it was found afresh and what its expression asks
for is covered. If there is a value already, it is this one. -/
theorem remembered_found {known : Known} {number : Nat} {c : Constant} {n : Int}
    (hm : s.Memory base known) (hc : s.Closed base known) (hbase : base.lookup number = none)
    (hconst : s.constants[number]? = some c) (he : Evaluates (s.Afresh base) c.expr 0 n)
    (hq : ∀ q ∈ mentioned c.expr 0, s.Covered known q) :
    s.Memory base (remembered number n known) ∧ s.Closed base (remembered number n known) ∧
      (remembered number n known).lookup number = some n := by
  unfold remembered
  split
  · next hsome =>
    obtain ⟨n', hn'⟩ := Option.isSome_iff_exists.mp hsome
    obtain ⟨c', hc', he'⟩ := hm.found _ _ hn' hbase
    cases hconst.symm.trans hc'
    obtain rfl := he.unique_afresh he'
    exact ⟨hm, hc, hn'⟩
  · next hnone =>
    have hnone := Option.not_isSome_iff_eq_none.mp hnone
    exact ⟨hm.cons hnone hconst he, hc.cons hnone hconst hq, List.lookup_cons_self⟩

/-- Where the wider memory has the value already it is not evaluated there: it is the same value, as
both are found afresh, and nothing else is added, as what the expression asks for is covered. -/
theorem constantStep_mirrors {ask : Query → Eval Int} (hask : ∀ q, s.Mirrors base (ask q))
    (hfills : ∀ q, s.Fills base (ask q) (· = q))
    (hafresh : ∀ q, Keeps (s.Memory base) (ask q) (s.Afresh base q)) (name : String)
    (depth : Nat) : s.Mirrors base (s.constantStep ask name depth) := by
  intro known wide n known' h hy
  cases hr : s.resolveConstant? name with
  | none =>
    unfold constantStep at hy
    rw [hr] at hy
    exact (not_yields_throw hy).elim
  | some number =>
    rcases (yields_constantStep_iff hr).mp hy with ⟨hk, rfl⟩ | ⟨hk, c, known₁, hc, he, hknown'⟩
    · exact ⟨wide, (yields_constantStep_iff hr).mpr (.inl ⟨h.within _ _ hk, rfl⟩), h⟩
    have hbase : base.lookup number = none := by
      cases hb : base.lookup number with
      | none => rfl
      | some value => cases (h.held _ _ hb).symm.trans hk
    obtain ⟨wide₁, he', h₁⟩ := evaluateWith_mirrors hask c.expr depth known wide n known₁ h he
    have hfound : Evaluates (s.Afresh base) c.expr 0 n :=
      ((evaluateWith_gives hafresh c.expr depth).of_yields h.memory he').2.afresh
    have hfilled := (evaluateWith_fills hfills c.expr depth).of_yields h.closed he'
    obtain ⟨hmemory, hclosed, hvalue⟩ := remembered_found h₁.memory h₁.closed hbase hc hfound
      (covered_mentioned (hfilled.covered trivial))
    -- all that the narrow memory has now, the wide one has
    have hnarrow : s.Alongside base known' (remembered number n wide₁) := by
      refine ⟨?_, ?_, hmemory, hclosed⟩
      · rw [hknown']
        exact h₁.held.trans within_remembered
      · rw [hknown']
        split
        · exact h₁.within.trans within_remembered
        · exact .cons_of_lookup (h₁.within.trans within_remembered) hvalue
    cases hw : wide.lookup number with
    | none =>
      exact ⟨_, (yields_constantStep_iff hr).mpr (.inr ⟨hw, c, wide₁, hc, he', rfl⟩), hnarrow⟩
    | some value =>
      obtain ⟨c', hc', hvalue'⟩ := h.memory.found _ _ hw hbase
      cases hc.symm.trans hc'
      obtain rfl := hfound.unique_afresh hvalue'
      obtain rfl := hfilled.same (covered_mentioned (h.closed.covered _ _ _ hw hbase hc))
      have hsame : remembered number n wide₁ = wide₁ := by
        unfold remembered
        rw [hw, Option.isSome_some, if_pos rfl]
      rw [hsame] at hnarrow
      exact ⟨wide₁, (yields_constantStep_iff hr).mpr (.inl ⟨hw, rfl⟩), hnarrow⟩

theorem answer_mirrors : ∀ (nesting : Nat) (q : Query), s.Mirrors base (s.answer nesting q)
  | 0, _ => .throw
  | nesting + 1, .constant name depth => constantStep_mirrors (answer_mirrors nesting)
      (answer_fills nesting) (answer_afresh nesting) name depth
  | nesting + 1, .size type depth => sizeStep_mirrors (answer_mirrors nesting) type depth

section Questions

variable {α : Type} {m : Eval α} {Q : α → Prop} {needs : Query → Prop}

/-- A calculation of this kind adds to what came about by others before it, whatever its outcome. -/
theorem keeps_alongside (hfills : s.Fills base m needs) (hm : Keeps (s.Memory base) m Q) :
    Keeps (s.Alongside base base) m Q := fun known h =>
  ⟨⟨.refl, (hm known h.memory).1.kept, (hm known h.memory).1, (hfills known h.closed).closed⟩,
    (hm known h.memory).2⟩

/-- What ends well in the beginning ends well after other calculations, with the same result. -/
theorem Mirrors.later (hm : s.Mirrors base m) {known wide : Known} {a : α}
    (hy : Yields m base a known) (h : s.Alongside base base wide) :
    ∃ wide', Yields m wide a wide' ∧ s.Alongside base base wide' := by
  obtain ⟨wide', hy', h'⟩ := hm _ _ _ _ h hy
  exact ⟨wide', hy', h'.of_base⟩

variable (s base)

theorem evaluate_alongside (text : String) :
    Keeps (s.Alongside base base) (s.evaluate text) (Evaluates (s.Afresh base) text 0) :=
  keeps_alongside (evaluateWith_fills (answer_fills s.nesting) text 0)
    (evaluateWith_gives (answer_afresh s.nesting) text 0)

theorem constantValue_alongside (name : String) :
    Keeps (s.Alongside base base) (s.constantValue name) (s.Afresh base (.constant name 0)) :=
  keeps_alongside (answer_fills s.nesting _) (answer_afresh s.nesting _)

theorem wireSize_alongside (type : String) : Keeps (s.Alongside base base) (s.wireSize type)
    fun n => s.Afresh base (.size type 0) n := by
  refine (keeps_alongside (answer_fills s.nesting _) (answer_afresh s.nesting _)).bind
    fun size hsize => ?_
  split
  · exact Keeps.throw
  · next hnonneg =>
    refine Keeps.pure ?_
    rwa [Int.toNat_of_nonneg (Int.not_lt.mp hnonneg)]

theorem evaluate_mirrors (text : String) : s.Mirrors base (s.evaluate text) :=
  evaluateWith_mirrors (answer_mirrors s.nesting) text 0

theorem constantValue_mirrors (name : String) : s.Mirrors base (s.constantValue name) :=
  answer_mirrors s.nesting (.constant name 0)

theorem wireSize_mirrors (type : String) : s.Mirrors base (s.wireSize type) := by
  refine (answer_mirrors s.nesting _).bind fun size => ?_
  split
  · exact .throw
  · exact .pure

end Questions

end Schema

end WireTables
