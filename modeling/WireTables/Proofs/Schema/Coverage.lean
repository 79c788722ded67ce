import WireTables.Proofs.Schema.Nesting

/-!
# What has to be remembered to answer

A question is covered when the constants that it asks for are remembered: the constant itself, or
those in the texts that give the lengths of a type and of the types in it (`Covered`). A calculation
that ends well covers what it asked for, and one that finds all of it covered remembers nothing new
(`Fills`). A value is remembered only after its expression was evaluated. So where a constant is
remembered all that its expression asks for is covered (`Closed`), however the calculations ended
that brought this about.
-/

namespace WireTables

/-- What is remembered in the first is remembered in the second. -/
def Known.Within (known known' : Known) : Prop :=
  ∀ number value, known.lookup number = some value → known'.lookup number = some value

namespace Known.Within

variable {known known' known'' : Known}

theorem refl : known.Within known :=
  fun _ _ => id

theorem trans (h : known.Within known') (h' : known'.Within known'') : known.Within known'' :=
  fun _ _ hk => h' _ _ (h _ _ hk)

theorem cons {number : Nat} {value : Int} (h : known.lookup number = none) :
    known.Within ((number, value) :: known) := by
  intro number' value' hk
  rw [List.lookup_cons]
  split
  · next hsame =>
    obtain rfl : number' = number := by simpa using hsame
    cases hk.symm.trans h
  · exact hk

/-- A value that is known in the wider memory may be remembered. -/
theorem cons_of_lookup {number : Nat} {value : Int} (h : known.Within known')
    (hk : known'.lookup number = some value) : Known.Within ((number, value) :: known) known' := by
  intro number' value' hlookup
  rw [List.lookup_cons] at hlookup
  split at hlookup
  · next hsame =>
    obtain rfl : number' = number := by simpa using hsame
    cases hlookup
    exact hk
  · exact h _ _ hlookup

end Known.Within

namespace Schema

/-- The constants that a question asks for are remembered. -/
inductive Covered (s : Schema) (known : Known) : Query → Prop
  | constant {name depth number value} (hr : s.resolveConstant? name = some number)
    (hk : known.lookup number = some value) : Covered s known (.constant name depth)
  | size {type depth t} (ht : s.lookup? type = some t)
    (hp : ∀ inner ∈ s.parts type t.kind, Covered s known (.size inner 0))
    (hl : ∀ text ∈ s.lengths type t.kind, ∀ q ∈ mentioned text 0, Covered s known q) :
    Covered s known (.size type depth)

/-- The values of `base` are remembered, and what the expressions of the other constants that are
remembered ask for is covered. -/
structure Closed (s : Schema) (base known : Known) : Prop where
  within : base.Within known
  covered : ∀ number value c, known.lookup number = some value → base.lookup number = none →
    s.constants[number]? = some c → ∀ q ∈ mentioned c.expr 0, s.Covered known q

variable {s : Schema} {base known known' : Known} {q q' : Query}

theorem Covered.mono (hw : known.Within known') (h : s.Covered known q) : s.Covered known' q := by
  induction h with
  | constant hr hk => exact .constant hr (hw _ _ hk)
  | size ht _ _ hp hl => exact .size ht hp hl

/-- What a question is nested in does not matter. -/
theorem Covered.same (hq : q.Same q') (h : s.Covered known q) : s.Covered known q' := by
  cases q' with
  | constant =>
    cases h with
    | constant hr hk =>
      cases hq
      exact .constant hr hk
    | size => cases hq
  | size =>
    cases h with
    | constant => cases hq
    | size ht hp hl =>
      cases hq
      exact .size ht hp hl

/-- What a text asks for at one depth it asks for at another. -/
theorem exists_same_mentioned {text : String} {depth : Nat} (depth' : Nat)
    (h : q ∈ mentioned text depth) : ∃ q' ∈ mentioned text depth', q'.Same q := by
  obtain ⟨ts, t, hts, ht, hq⟩ := mem_mentioned.mp h
  cases t with
  | name name =>
    cases hq
    exact ⟨.constant name (depth' + 1), mem_mentioned.mpr ⟨ts, _, hts, ht, rfl⟩, rfl⟩
  | sizeOf type =>
    cases hq
    exact ⟨.size type 0, mem_mentioned.mpr ⟨ts, _, hts, ht, rfl⟩, rfl⟩
  | _ => cases hq

theorem covered_mentioned {text : String} {depth depth' : Nat}
    (h : ∀ q ∈ mentioned text depth, s.Covered known q) :
    ∀ q ∈ mentioned text depth', s.Covered known q := fun _ hq =>
  let ⟨_, hq', hsame⟩ := exists_same_mentioned depth hq
  (h _ hq').same hsame

theorem Closed.refl : s.Closed base base :=
  ⟨.refl, fun _ _ _ hk hnone => by cases hk.symm.trans hnone⟩

/-- The value of an expression may be remembered when what the expression asks for is covered. -/
theorem Closed.cons {number : Nat} {value : Int} {c : Constant} (h : s.Closed base known)
    (hk : known.lookup number = none) (hc : s.constants[number]? = some c)
    (hq : ∀ q ∈ mentioned c.expr 0, s.Covered known q) :
    s.Closed base ((number, value) :: known) := by
  have hw : known.Within ((number, value) :: known) := .cons hk
  refine ⟨h.within.trans hw, fun number' value' c' hlookup hnone hc' q hmem => ?_⟩
  rw [List.lookup_cons] at hlookup
  split at hlookup
  · next hsame =>
    obtain rfl : number' = number := by simpa using hsame
    cases hc.symm.trans hc'
    exact (hq q hmem).mono hw
  · exact (h.covered _ _ _ hlookup hnone hc' q hmem).mono hw

/-! ## Calculations cover what they ask for -/

/-- What a calculation that asks for `needs` makes of what is remembered. -/
structure Filled (s : Schema) (base : Known) (needs : Query → Prop) (known known' : Known)
    (ok : Prop) : Prop where
  closed : s.Closed base known'
  within : known.Within known'
  same : (∀ q, needs q → s.Covered known q) → known' = known
  covered : ok → ∀ q, needs q → s.Covered known' q

/-- Whatever its outcome, the calculation leaves what is remembered closed and forgets nothing. When
it ends well all that it needs is covered, and where that was so before, nothing is added. -/
def Fills (s : Schema) (base : Known) {α : Type} (m : Eval α) (needs : Query → Prop) : Prop :=
  ∀ known, s.Closed base known →
    s.Filled base needs known (Id.run (m.run known)).2 (∃ a, (Id.run (m.run known)).1 = .ok a)

namespace Fills

variable {α β : Type} {needs needs' : Query → Prop}

theorem of_yields {m : Eval α} {a : α} (h : s.Fills base m needs) (hk : s.Closed base known)
    (hy : Yields m known a known') : s.Filled base needs known known' True := by
  have h := h known hk
  rw [hy] at h
  exact ⟨h.closed, h.within, h.same, fun _ => h.covered ⟨a, rfl⟩⟩

theorem of_covers {m : Eval α} (h : s.Fills base m needs)
    (hn : ∀ known, (∀ q, needs' q → s.Covered known q) ↔ ∀ q, needs q → s.Covered known q) :
    s.Fills base m needs' := by
  intro known hknown
  obtain ⟨hclosed, hwithin, hsame, hcovered⟩ := h known hknown
  exact ⟨hclosed, hwithin, fun hq => hsame ((hn _).mp hq), fun hok => (hn _).mpr (hcovered hok)⟩

theorem congr {m : Eval α} (h : s.Fills base m needs) (hn : ∀ q, needs' q ↔ needs q) :
    s.Fills base m needs' :=
  h.of_covers fun _ => forall_congr' fun q => by rw [hn q]

theorem pure {a : α} : s.Fills base (Pure.pure a) fun _ => False :=
  fun _ hknown => ⟨hknown, .refl, fun _ => rfl, fun _ _ => False.elim⟩

theorem throw {e : Error} : s.Fills base (MonadExcept.throw e : Eval α) needs :=
  fun _ hknown => ⟨hknown, .refl, fun _ => rfl, fun ⟨_, h⟩ => nomatch h⟩

theorem ofExcept {r : Except Error α} : s.Fills base (Eval.ofExcept r) fun _ => False :=
  fun _ hknown => ⟨hknown, .refl, fun _ => rfl, fun _ _ => False.elim⟩

/-- What is worked out without a memory decides what comes after it. -/
theorem ofExcept_bind {r : Except Error α} {f : α → Eval β}
    (hf : ∀ a, r = .ok a → s.Fills base (f a) needs) :
    s.Fills base (Eval.ofExcept r >>= f) needs := by
  cases r with
  | error e => exact throw
  | ok a => exact hf a rfl

theorem bind {m : Eval α} {f : α → Eval β} (hm : s.Fills base m needs)
    (hf : ∀ a, s.Fills base (f a) needs') :
    s.Fills base (m >>= f) fun q => needs q ∨ needs' q := by
  intro known hknown
  obtain ⟨hclosed, hwithin, hsame, hcovered⟩ := hm known hknown
  rw [run_bind]
  cases hout : Id.run (m.run known) with
  | mk r known₁ =>
    rw [hout] at hclosed hwithin hsame hcovered
    cases r with
    | error e =>
      exact ⟨hclosed, hwithin, fun hq => hsame fun q h => hq q (.inl h), fun ⟨_, h⟩ => nomatch h⟩
    | ok a =>
      have hfirst := hcovered ⟨a, rfl⟩
      obtain ⟨hclosed', hwithin', hsame', hcovered'⟩ := hf a known₁ hclosed
      refine ⟨hclosed', hwithin.trans hwithin', fun hq => ?_, fun hok q hq => ?_⟩
      · obtain rfl := hsame fun q h => hq q (.inl h)
        exact hsame' fun q h => hq q (.inr h)
      · rcases hq with hq | hq
        · exact (hfirst q hq).mono hwithin'
        · exact hcovered' hok q hq

/-- A loop needs what its rounds need. -/
theorem foldlM {f : β → α → Eval β} (needs : α → Query → Prop) :
    ∀ {xs : List α} {b : β}, (∀ b, ∀ x ∈ xs, s.Fills base (f b x) (needs x)) →
      s.Fills base (xs.foldlM f b) fun q => ∃ x ∈ xs, needs x q
  | [], _, _ => pure.congr fun q => by simp
  | x :: xs, b, hf => by
    rw [List.foldlM_cons]
    exact ((hf b x List.mem_cons_self).bind fun c =>
      foldlM needs fun b y hy => hf b y (List.mem_cons_of_mem x hy)).congr fun q => by simp

end Fills

/-- What the size of a field at some depth needs. -/
def FieldNeeds (depth : Nat) (f : Field) (q : Query) : Prop :=
  q = .size f.typeName (depth + 1) ∨
    ∃ text, countText? f = some (some text) ∧ q ∈ mentioned text 0

/-- What the size of a union member at some depth needs. -/
def MemberNeeds (depth : Nat) (m : UnionMember) (q : Query) : Prop :=
  q = .size m.typeName (depth + 1) ∨ ∃ text, m.arraySize = some text ∧ q ∈ mentioned text 0

theorem run_known? {α : Type} {number : Nat} {f : Option Int → Eval α} {known : Known} :
    Id.run ((Eval.known? number >>= f).run known) =
      Id.run ((f (known.lookup number)).run known) :=
  rfl

/-- A value is remembered when it has been found. -/
theorem run_remember {m : Eval Int} {number : Nat} {known : Known} :
    Id.run ((m >>= fun value => Eval.remember number value >>= fun _ => pure value).run known) =
      match Id.run (m.run known) with
      | (.ok value, known') =>
        (.ok value,
          if (known'.lookup number).isSome then known' else (number, value) :: known')
      | (.error e, known') => (.error e, known') := by
  rw [run_bind]
  rcases Id.run (m.run known) with ⟨r, known'⟩
  cases r <;> rfl

section Steps

variable {ask : Query → Eval Int} (hask : ∀ q, s.Fills base (ask q) (· = q))

include hask

theorem item_fills (depth : Nat) (t : Token) :
    s.Fills base (item ask depth t) fun q => t.query? depth = some q := by
  cases t with
  | name name => exact ((hask _).bind fun _ => .pure).congr fun q => by simp [Token.query?, eq_comm]
  | sizeOf type =>
    exact ((hask _).bind fun _ => .pure).congr fun q => by simp [Token.query?, eq_comm]
  | number | operator | openParen | closeParen =>
    exact Fills.pure.congr fun q => by simp [Token.query?]

theorem evaluateWith_fills (text : String) (depth : Nat) :
    s.Fills base (evaluateWith ask text depth) (· ∈ mentioned text depth) := by
  unfold evaluateWith
  split
  · exact .throw
  refine .ofExcept_bind fun ts hts => ?_
  have hts : Expression.tokens text = .ok ts := by
    cases h : Expression.tokens text with
    | error e =>
      rw [h] at hts
      cases hts
    | ok ts' =>
      rw [h] at hts
      cases hts
      rfl
  split
  · exact .throw
  refine ((Fills.foldlM (fun t q => t.query? depth = some q) fun m t _ =>
    ((item_fills hask depth t).bind fun i => .ofExcept).congr fun _ => (or_iff_left id).symm).bind
      fun m => .ofExcept).congr fun q => ?_
  unfold mentioned
  simp [hts]

theorem fieldCount_fills (owner : String) (f : Field) :
    s.Fills base (fieldCount ask owner f) fun q =>
      ∃ text, countText? f = some (some text) ∧ q ∈ mentioned text 0 := by
  have counted : ∀ {text : String}, s.Fills base (evaluateWith ask text 0) fun q =>
      ∃ t, some (some text) = some (some t) ∧ q ∈ mentioned t 0 := fun {text} =>
    (evaluateWith_fills hask text 0).congr fun q => by simp
  unfold fieldCount countText?
  cases f.marshal with
  | fixedArray =>
    cases f.arraySize with
    | none => exact .throw
    | some text => exact counted
  | countedArray | restArray =>
    dsimp only
    cases f.domain.maximum? with
    | none => exact .throw
    | some text => exact counted
  | plain | constant | count | bodySize | sizedBody | selector | unionBody | selectedArray =>
    exact Fills.pure.congr fun q => by simp

omit hask in
theorem product_fills (a b : Int) (failure : Error) :
    s.Fills base (product a b failure) fun _ => False := by
  unfold product
  split
  · exact .pure
  · exact .throw

theorem fieldSizeWith_fills (owner : String) (depth : Nat) (f : Field) :
    s.Fills base (fieldSizeWith ask owner depth f) (FieldNeeds depth f) :=
  ((hask _).bind fun _ => (fieldCount_fills hask owner f).bind fun _ =>
    product_fills _ _ _).congr fun q => by simp [FieldNeeds]

theorem memberSizeWith_fills (owner : String) (depth : Nat) (m : UnionMember) :
    s.Fills base (memberSizeWith ask owner depth m) (MemberNeeds depth m) := by
  unfold memberSizeWith
  cases htext : m.arraySize with
  | some text =>
    exact ((evaluateWith_fills hask text 0).bind fun _ => (hask _).bind fun _ =>
      product_fills _ _ _).congr fun q => by simp [MemberNeeds, htext, or_comm]
  | none =>
    exact (Fills.pure.bind fun _ => (hask _).bind fun _ =>
      product_fills _ _ _).congr fun q => by simp [MemberNeeds, htext]

omit hask in
/-- What elements need on their own, and what they need for the texts they have. -/
theorem exists_mem_or {α β : Type} {xs : List α} {own : α → Prop} {has : α → β → Prop}
    {needs : β → Prop} : (∃ x ∈ xs, own x ∨ ∃ text, has x text ∧ needs text) ↔
      (∃ x ∈ xs, own x) ∨ ∃ text, (∃ x ∈ xs, has x text) ∧ needs text := by
  constructor
  · rintro ⟨x, hx, hown | ⟨text, hhas, hneeds⟩⟩
    · exact .inl ⟨x, hx, hown⟩
    · exact .inr ⟨text, ⟨x, hx, hhas⟩, hneeds⟩
  · rintro (⟨x, hx, hown⟩ | ⟨text, ⟨x, hx, hhas⟩, hneeds⟩)
    · exact ⟨x, hx, .inl hown⟩
    · exact ⟨x, hx, .inr ⟨text, hhas, hneeds⟩⟩

/-- The size of a type needs what the sizes of its parts and the texts of its lengths need. -/
theorem sizeStep_fills (type : String) (depth : Nat) :
    s.Fills base (s.sizeStep ask type depth) (· = .size type depth) := by
  unfold sizeStep
  split
  · exact .throw
  refine .ofExcept_bind fun t ht => ?_
  have ht := require_eq_ok.mp ht
  -- what is covered are the parts of the type, at any depth, and the texts of its lengths
  have covers : ∀ {needs : Query → Prop}, (∀ q, needs q ↔
      (∃ inner ∈ s.parts type t.kind, q = .size inner (depth + 1)) ∨
        ∃ text ∈ s.lengths type t.kind, q ∈ mentioned text 0) →
      ∀ known, (∀ q, q = .size type depth → s.Covered known q) ↔
        ∀ q, needs q → s.Covered known q := by
    intro needs hneeds known
    have part : ∀ {inner : String} {d d' : Nat}, s.Covered known (.size inner d) →
        s.Covered known (.size inner d') := fun {inner d d'} h =>
      h.same (show Query.Same (.size inner d) (.size inner d') from rfl)
    constructor
    · intro h q hq
      cases h _ rfl with
      | size ht' hp hl =>
        cases ht.symm.trans ht'
        rcases (hneeds q).mp hq with ⟨inner, hinner, rfl⟩ | ⟨text, htext, hmem⟩
        · exact part (hp inner hinner)
        · exact hl text htext q hmem
    · rintro h q rfl
      exact .size ht (fun inner hinner => part (h _ ((hneeds _).mpr (.inl ⟨inner, hinner, rfl⟩))))
        fun text htext q hmem => h q ((hneeds q).mpr (.inr ⟨text, htext, hmem⟩))
  cases hkind : t.kind with
  | value c =>
    refine Fills.pure.of_covers (covers fun q => ?_)
    rw [hkind]
    simp [parts, lengths]
  | aliasOf a | enum e | bitfield b =>
    refine (hask _).of_covers (covers fun q => ?_)
    rw [hkind]
    simp [parts, lengths]
  | record r =>
    refine .ofExcept_bind fun fields hfields => ?_
    refine (Fills.foldlM (FieldNeeds depth) fun total f _ => ?_).of_covers (covers fun q => ?_)
    · refine ((fieldSizeWith_fills hask type depth f).bind fun size => ?_).congr fun _ =>
        (or_iff_left id).symm
      split
      · exact .pure
      · exact .throw
    · rw [hkind]
      unfold parts lengths FieldNeeds
      simp [hfields, exists_mem_or, Option.join_eq_some_iff]
  | union u =>
    refine (Fills.foldlM (MemberNeeds depth) fun largest m _ => ?_).of_covers (covers fun q => ?_)
    · exact ((memberSizeWith_fills hask type depth m).bind fun size => .pure).congr fun _ =>
        (or_iff_left id).symm
    · rw [hkind]
      unfold parts lengths MemberNeeds
      simp [exists_mem_or]

/-- A constant is remembered once its expression has been evaluated. -/
theorem constantStep_fills (name : String) (depth : Nat) :
    s.Fills base (s.constantStep ask name depth) (· = .constant name depth) := by
  unfold constantStep
  split
  · exact .throw
  next number hn =>
  intro known hknown
  rw [run_known?]
  cases hk : known.lookup number with
  | some value =>
    refine ⟨hknown, .refl, fun _ => rfl, ?_⟩
    rintro - q rfl
    exact .constant hn hk
  | none =>
    have habsent : ¬ s.Covered known (.constant name depth) := fun h => by
      cases h with
      | constant hr hk' =>
        cases hn.symm.trans hr
        cases hk.symm.trans hk'
    cases hc : s.constants[number]? with
    | none => exact Fills.throw known hknown
    | some c =>
      obtain ⟨hclosed, hwithin, -, hcovered⟩ := evaluateWith_fills hask c.expr depth known hknown
      simp only [run_remember]
      cases hout : Id.run ((evaluateWith ask c.expr depth).run known) with
      | mk r known₁ =>
        rw [hout] at hclosed hwithin hcovered
        cases r with
        | error e =>
          exact ⟨hclosed, hwithin, fun hq => (habsent (hq _ rfl)).elim, fun ⟨_, h⟩ => nomatch h⟩
        | ok value =>
          simp only
          split
          · next hsome =>
            obtain ⟨value', hvalue⟩ := Option.isSome_iff_exists.mp hsome
            refine ⟨hclosed, hwithin, fun hq => (habsent (hq _ rfl)).elim, ?_⟩
            rintro - q rfl
            exact .constant hn hvalue
          · next hnone =>
            have hnone := Option.not_isSome_iff_eq_none.mp hnone
            refine ⟨hclosed.cons hnone hc (covered_mentioned (hcovered ⟨value, rfl⟩)),
              hwithin.trans (.cons hnone), fun hq => (habsent (hq _ rfl)).elim, ?_⟩
            rintro - q rfl
            exact .constant hn List.lookup_cons_self

end Steps

theorem answer_fills : ∀ (nesting : Nat) (q : Query), s.Fills base (s.answer nesting q) (· = q)
  | 0, _ => .throw
  | nesting + 1, .constant name depth => constantStep_fills (answer_fills nesting) name depth
  | nesting + 1, .size type depth => sizeStep_fills (answer_fills nesting) type depth

end Schema

end WireTables
