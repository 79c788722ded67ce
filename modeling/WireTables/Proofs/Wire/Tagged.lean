import WireTables.Proofs.Editing
import WireTables.Proofs.Schema.Inheritance
import WireTables.Proofs.Wire.Encoding
import WireTables.Proofs.Wire.Plan

/-!
# Structures of a selector and unions

A structure that begins with a selector and goes on with unions of elementary members travels as
numbers one after the other (`NumbersBytes`), and so does a structure of plain fields. Neither plan
evaluates anything, so what is remembered of constants matters only where the selector is derived
and where a tail may be absent.
-/

namespace WireTables.Wire

/-- Numbers of elementary types one after the other. -/
inductive NumbersBytes (s : Schema) : List (String × Value) → List UInt8 → Prop where
  | nil : NumbersBytes s [] []
  | cons {type v c n bytes rest others} (hc : s.scalar? type = some c) (hn : v.word? = some n)
    (hb : NumberBytes c n bytes) (hrest : NumbersBytes s rest others) :
    NumbersBytes s ((type, v) :: rest) (bytes ++ others)

/-- Where each element has just one counterpart, so has a list. -/
theorem forall₂_iff_eq_map {α β : Type} {p : α → β → Prop} {g : α → β} {xs : List α} {ys : List β}
    (h : ∀ x ∈ xs, ∀ y, p x y ↔ y = g x) : List.Forall₂ p xs ys ↔ ys = xs.map g := by
  induction xs generalizing ys with
  | nil => rw [List.forall₂_nil_left_iff, List.map_nil]
  | cons x xs ih =>
    obtain ⟨hx, hxs⟩ := List.forall_mem_cons.mp h
    rw [List.forall₂_cons_left_iff, List.map_cons]
    constructor
    · rintro ⟨y, ys, hy, hys, rfl⟩
      rw [(hx y).mp hy, (ih hxs).mp hys]
    · rintro rfl
      exact ⟨g x, xs.map g, (hx _).mpr rfl, (ih hxs).mpr rfl, rfl⟩

section Numbers

variable {s s' : Schema} {numbers : List (String × Value)} {bytes : List UInt8}

theorem numbersBytes_nil : NumbersBytes s [] bytes ↔ bytes = [] :=
  ⟨fun h => by cases h; rfl, fun h => h ▸ .nil⟩

theorem numbersBytes_cons {type : String} {v : Value} :
    NumbersBytes s ((type, v) :: numbers) bytes ↔ ∃ c n first others, s.scalar? type = some c ∧
      v.word? = some n ∧ NumberBytes c n first ∧ NumbersBytes s numbers others ∧
        bytes = first ++ others := by
  constructor
  · intro h
    cases h with
    | cons hc hn hb hrest => exact ⟨_, _, _, _, hc, hn, hb, hrest, rfl⟩
  · rintro ⟨c, n, first, others, hc, hn, hb, hrest, rfl⟩
    exact .cons hc hn hb hrest

/-- Only what elementary types the names denote matters. -/
theorem NumbersBytes.congr (h : ∀ type, s'.scalar? type = s.scalar? type) :
    NumbersBytes s' numbers bytes ↔ NumbersBytes s numbers bytes := by
  induction numbers generalizing bytes with
  | nil => rw [numbersBytes_nil, numbersBytes_nil]
  | cons number numbers ih =>
    obtain ⟨type, v⟩ := number
    simp only [numbersBytes_cons, h, ih]

end Numbers

section Layout

variable {s : Schema} {owner : String} {all : List Field} {f : Field} {k k' : Known}

/-- Fields that a structure of a selector and unions is made of. -/
def Direct (f : Field) : Prop :=
  f.marshal = .plain ∨ f.marshal = .selector ∨ f.marshal = .unionBody

theorem objectName?_of_scalar? {type : String} {c : Scalar} (h : s.scalar? type = some c) :
    objectName? s type = none := by
  cases ho : objectName? s type with
  | none => rfl
  | some object =>
    have hr : s.isRecord type = true := by
      unfold objectName? at ho
      unfold Schema.isRecord
      rw [← Option.isSome_map (f := fun p : TypeEntry × Record => p.1.specName), ho]
      rfl
    rw [Schema.scalar?_of_isRecord hr] at h
    cases h

/-- The step of such a field is found without evaluating anything. -/
theorem yields_stepOf_direct (hf : Direct f) {out : Option (Op × Bool)} :
    Yields (stepOf s owner all f) k out k' ↔
      (∃ op isData, out = some (op, isData) ∧ Travels s all f op isData) ∧ k' = k := by
  constructor
  · intro h
    have htravels := travels_of_stepOf h
    have hk : k' = k := by
      unfold stepOf at h
      rcases hf with hm | hm | hm <;> simp only [hm] at h
      · split at h
        · exact (yields_pure.mp h).2
        · simp only [yields_bind, yields_pure, yields_ofExcept] at h
          obtain ⟨_, _, ⟨-, rfl⟩, -, rfl⟩ := h
          rfl
      · simp only [yields_bind, yields_pure, yields_ofExcept] at h
        obtain ⟨_, _, ⟨-, rfl⟩, _, _, ⟨-, rfl⟩, -, rfl⟩ := h
        rfl
      · simp only [yields_bind, yields_pure, yields_ofExcept] at h
        obtain ⟨_, _, ⟨-, rfl⟩, -, rfl⟩ := h
        rfl
    cases out with
    | none =>
      have hm : f.marshal = .bodySize := htravels
      rcases hf with h | h | h <;> cases hm.symm.trans h
    | some step => exact ⟨⟨step.1, step.2, rfl, htravels.2⟩, hk⟩
  · rintro ⟨⟨op, isData, rfl, htravels⟩, rfl⟩
    unfold stepOf
    rcases hf with hm | hm | hm
    · cases htravels with
      | scalar _ hc =>
        simp only [hm, objectName?_of_scalar? hc, yields_bind, yields_pure, yields_ofExcept,
          scalarOf_eq_ok]
        exact ⟨_, k', ⟨hc, rfl⟩, rfl, rfl⟩
      | object _ ht => simp only [hm, ht, yields_pure, and_self]
      | _ => simp_all
    · cases htravels with
      | selector _ hc hp =>
        simp only [hm, yields_bind, yields_pure, yields_ofExcept, scalarOf_eq_ok, partnerOf_eq_ok]
        exact ⟨_, k', ⟨hc, rfl⟩, _, k', ⟨hp, rfl⟩, rfl, rfl⟩
      | _ => simp_all
    · cases htravels with
      | union _ hp =>
        simp only [hm, yields_bind, yields_pure, yields_ofExcept, partnerOf_eq_ok]
        exact ⟨_, k', ⟨hp, rfl⟩, rfl, rfl⟩
      | _ => simp_all

/-- The step of a field in a plan. -/
def StepOf (s : Schema) (all : List Field) (f : Field) (st : Step) : Prop :=
  st.field = f ∧ Travels s all f st.op st.isData

theorem yields_steps {fields : List Field} (hfields : ∀ f ∈ fields, Direct f) {steps : List Step} :
    Yields (fields.filterMapM fun f => do
      return (← stepOf s owner all f).map fun (op, isData) => (⟨f, op, isData⟩ : Step)) k steps k' ↔
      List.Forall₂ (StepOf s all) fields steps ∧ k' = k := by
  induction fields generalizing k steps with
  | nil => rw [yields_filterMapM_nil, List.forall₂_nil_left_iff]
  | cons f fields ih =>
    obtain ⟨hf, hrest⟩ := List.forall_mem_cons.mp hfields
    rw [yields_filterMapM_cons, List.forall₂_cons_left_iff]
    constructor
    · rintro ⟨y, k₁, rest, hy, hsteps, rfl⟩
      obtain ⟨out, _, hout, hstep⟩ := yields_bind.mp hy
      obtain ⟨⟨op, isData, rfl, htravels⟩, rfl⟩ := (yields_stepOf_direct hf).mp hout
      obtain ⟨rfl, rfl⟩ := yields_pure.mp hstep
      obtain ⟨hlater, rfl⟩ := (ih hrest).mp hsteps
      exact ⟨⟨⟨f, op, isData⟩, rest, ⟨rfl, htravels⟩, hlater, rfl⟩, rfl⟩
    · rintro ⟨⟨st, rest, ⟨rfl, htravels⟩, hsteps, rfl⟩, rfl⟩
      refine ⟨some st, k', rest, yields_bind.mpr ⟨_, k',
        (yields_stepOf_direct hf).mpr ⟨⟨_, _, rfl, htravels⟩, rfl⟩, ?_⟩,
        (ih hrest).mpr ⟨hsteps, rfl⟩, rfl⟩
      exact yields_pure.mpr ⟨rfl, rfl⟩

/-- The plan of a structure of such fields has a step for each of them. -/
theorem yields_layout {name : String} {fields : List Field} (hall : s.allFields name = .ok fields)
    (hfields : ∀ f ∈ fields, Direct f) {steps : List Step} :
    Yields (layout s name) k steps k' ↔ List.Forall₂ (StepOf s fields) fields steps ∧ k' = k := by
  unfold layout
  rw [yields_bind]
  simp only [yields_ofExcept, hall, Except.ok.injEq]
  constructor
  · rintro ⟨_, _, ⟨rfl, rfl⟩, hsteps⟩
    exact (yields_steps hfields).mp hsteps
  · intro h
    exact ⟨fields, k, ⟨rfl, rfl⟩, (yields_steps hfields).mpr h⟩

end Layout

/-- A union-typed field, a member of its union and the number that is held of it. -/
structure Choice where
  field : Field
  member : UnionMember
  value : Value

namespace Choice

/-- The field holds the number as one of the type of the member. -/
def asMember (c : Choice) : String × Value :=
  (c.field.name, .union c.member.typeName c.value)

/-- The field holds the number itself. -/
def asPlain (c : Choice) : String × Value :=
  (c.field.name, c.value)

/-- The number with the type of the member. -/
def number (c : Choice) : String × Value :=
  (c.member.typeName, c.value)

end Choice

section Steps

variable {s : Schema} {nested : String → Value → Coding (List UInt8)} {type : String}
  {steps rest : List Step} {tail : Option (String × Int)} {fields : List (String × Value)}
  {locals : Locals} {k k' : Known} {bytes : List UInt8}

/-- A step writes its part, and the remaining steps write the rest unless the structure ends. -/
theorem yields_encodeSteps_cons {st : Step} :
    Yields (encodeSteps s nested type steps tail fields locals (st :: rest)) k bytes k' ↔
      ∃ first locals' k₁, Yields (encodeStep s nested type steps fields locals st) k
        (first, locals') k₁ ∧ if endsAfter tail st.field.name locals' then bytes = first ∧ k' = k₁
          else ∃ others,
            Yields (encodeSteps s nested type steps tail fields locals' rest) k₁ others k' ∧
              bytes = first ++ others := by
  rw [encodeSteps, yields_bind]
  constructor
  · rintro ⟨⟨first, locals'⟩, k₁, hfirst, h⟩
    refine ⟨first, locals', k₁, hfirst, ?_⟩
    dsimp only at h
    split at h <;> rename_i hend
    · rw [if_pos hend]
      exact yields_pure.mp h
    · rw [if_neg hend]
      obtain ⟨others, _, hothers, h⟩ := yields_bind.mp h
      obtain ⟨rfl, rfl⟩ := yields_pure.mp h
      exact ⟨others, hothers, rfl⟩
  · rintro ⟨first, locals', k₁, hfirst, h⟩
    refine ⟨(first, locals'), k₁, hfirst, ?_⟩
    dsimp only
    split at h <;> rename_i hend
    · rw [if_pos hend]
      exact yields_pure.mpr h
    · rw [if_neg hend]
      obtain ⟨others, hothers, rfl⟩ := h
      exact yields_bind.mpr ⟨others, k', hothers, yields_pure.mpr ⟨rfl, rfl⟩⟩

/-- A plain number is written as such. -/
theorem yields_scalarStep {st : Step} {c : Scalar} {v : Value} {locals' : Locals}
    (hop : st.op = .scalar c) (hv : fields.lookup st.field.name = some v) :
    Yields (encodeStep s nested type steps fields locals st) k (bytes, locals') k' ↔
      (∃ n, v.word? = some n ∧ NumberBytes c n bytes ∧ locals' = (st.field.name, n) :: locals) ∧
        k' = k := by
  unfold encodeStep
  simp only [hop, yields_bind, yields_pure, yields_fieldValue, yields_integer, yields_writeScalar,
    Prod.mk.injEq, hv, Option.some.injEq]
  constructor
  · rintro ⟨_, _, ⟨rfl, rfl⟩, n, _, ⟨hn, rfl⟩, _, _, ⟨hb, rfl⟩, ⟨rfl, rfl⟩, rfl⟩
    exact ⟨⟨n, hn, hb, rfl⟩, rfl⟩
  · rintro ⟨⟨n, hn, hb, rfl⟩, rfl⟩
    exact ⟨v, k', ⟨rfl, rfl⟩, n, k', ⟨hn, rfl⟩, bytes, k', ⟨hb, rfl⟩, ⟨rfl, rfl⟩, rfl⟩

/-- A union value of an elementary type is written as its number. -/
theorem yields_unionStep {st : Step} {union tag concrete : String} {c : Scalar} {v : Value}
    {locals' : Locals} (hop : st.op = .union union tag)
    (hv : fields.lookup st.field.name = some (.union concrete v))
    (hc : s.scalar? concrete = some c) :
    Yields (encodeStep s nested type steps fields locals st) k (bytes, locals') k' ↔
      (∃ n, v.word? = some n ∧ NumberBytes c n bytes ∧ locals' = locals) ∧ k' = k := by
  have hr : s.isRecord concrete = false := by
    by_contra hr
    rw [Schema.scalar?_of_isRecord (by simpa using hr)] at hc
    cases hc
  have hmember {bytes : List UInt8} {k k' : Known} :
      Yields (writeMember s nested concrete v) k bytes k' ↔
        (∃ n, v.word? = some n ∧ NumberBytes c n bytes) ∧ k' = k := by
    unfold writeMember
    rw [hr, if_neg Bool.false_ne_true, hc]
    exact yields_number
  unfold encodeStep
  simp only [hop, yields_bind, yields_fieldValue, hv, Option.some.injEq]
  constructor
  · rintro ⟨_, _, ⟨rfl, rfl⟩, h⟩
    obtain ⟨_, _, hwrite, h⟩ := yields_bind.mp h
    obtain ⟨heq, rfl⟩ := yields_pure.mp h
    obtain ⟨rfl, rfl⟩ := Prod.mk.inj heq
    obtain ⟨⟨n, hn, hb⟩, rfl⟩ := hmember.mp hwrite
    exact ⟨⟨n, hn, hb, rfl⟩, rfl⟩
  · rintro ⟨⟨n, hn, hb, rfl⟩, rfl⟩
    refine ⟨_, k', ⟨rfl, rfl⟩, yields_bind.mpr ⟨bytes, k', hmember.mpr ⟨⟨n, hn, hb⟩, rfl⟩, ?_⟩⟩
    exact yields_pure.mpr ⟨rfl, rfl⟩

/-- An absent union value is not written. -/
theorem yields_absentStep {st : Step} {union tag : String} {locals' : Locals}
    (hop : st.op = .union union tag) (hv : fields.lookup st.field.name = some .null) :
    Yields (encodeStep s nested type steps fields locals st) k (bytes, locals') k' ↔
      (bytes = [] ∧ locals' = locals) ∧ k' = k := by
  unfold encodeStep
  simp only [hop, yields_bind, yields_fieldValue, hv, Option.some.injEq]
  constructor
  · rintro ⟨_, _, ⟨rfl, rfl⟩, h⟩
    obtain ⟨heq, rfl⟩ := yields_pure.mp h
    exact ⟨Prod.mk.inj heq, rfl⟩
  · rintro ⟨⟨rfl, rfl⟩, rfl⟩
    exact ⟨_, k', ⟨rfl, rfl⟩, yields_pure.mpr ⟨rfl, rfl⟩⟩

variable (s nested type steps tail fields) in
/-- The step writes a number of an elementary type, and the structure goes on. -/
structure WritesNumber (number : String × Value) (st : Step) : Prop where
  writes : ∀ locals k bytes k',
    (∃ locals', Yields (encodeStep s nested type steps fields locals st) k (bytes, locals') k') ↔
      (∃ c n, s.scalar? number.1 = some c ∧ number.2.word? = some n ∧ NumberBytes c n bytes) ∧
        k' = k
  goesOn : ∀ locals, endsAfter tail st.field.name locals = false

/-- The step of a plain field writes its number. -/
theorem writesNumber_scalar {st : Step} {concrete : String} {c : Scalar} {v : Value}
    (hop : st.op = .scalar c) (hc : s.scalar? concrete = some c)
    (hv : fields.lookup st.field.name = some v)
    (hend : ∀ locals, endsAfter tail st.field.name locals = false) :
    WritesNumber s nested type steps tail fields (concrete, v) st := by
  refine ⟨fun locals k bytes k' => ⟨?_, ?_⟩, hend⟩
  · rintro ⟨locals', h⟩
    obtain ⟨⟨n, hn, hb, -⟩, rfl⟩ := (yields_scalarStep hop hv).mp h
    exact ⟨⟨c, n, hc, hn, hb⟩, rfl⟩
  · rintro ⟨⟨c', n, hc', hn, hb⟩, rfl⟩
    cases hc.symm.trans hc'
    exact ⟨_, (yields_scalarStep hop hv).mpr ⟨⟨n, hn, hb, rfl⟩, rfl⟩⟩

/-- The step of a union writes the number that is held of it. -/
theorem writesNumber_union {st : Step} {union tag concrete : String} {c : Scalar} {v : Value}
    (hop : st.op = .union union tag) (hc : s.scalar? concrete = some c)
    (hv : fields.lookup st.field.name = some (.union concrete v)) :
    WritesNumber s nested type steps none fields (concrete, v) st := by
  refine ⟨fun locals k bytes k' => ⟨?_, ?_⟩, fun _ => rfl⟩
  · rintro ⟨locals', h⟩
    obtain ⟨⟨n, hn, hb, -⟩, rfl⟩ := (yields_unionStep hop hv hc).mp h
    exact ⟨⟨c, n, hc, hn, hb⟩, rfl⟩
  · rintro ⟨⟨c', n, hc', hn, hb⟩, rfl⟩
    cases hc.symm.trans hc'
    exact ⟨_, (yields_unionStep hop hv hc).mpr ⟨⟨n, hn, hb, rfl⟩, rfl⟩⟩

/-- Steps that write numbers write one after the other. -/
theorem yields_numberSteps {numbers : List (String × Value)}
    (hsteps : List.Forall₂ (WritesNumber s nested type steps tail fields) numbers rest) :
    Yields (encodeSteps s nested type steps tail fields locals rest) k bytes k' ↔
      NumbersBytes s numbers bytes ∧ k' = k := by
  induction hsteps generalizing locals bytes k with
  | nil => rw [encodeSteps, numbersBytes_nil, yields_pure]
  | @cons number st numbers rest hst _ ih =>
    rw [numbersBytes_cons, yields_encodeSteps_cons]
    constructor
    · rintro ⟨first, locals', k₁, hwrite, hmore⟩
      rw [hst.goesOn, if_neg Bool.false_ne_true] at hmore
      obtain ⟨others, hothers, rfl⟩ := hmore
      obtain ⟨⟨c, n, hc, hn, hb⟩, rfl⟩ := (hst.writes _ _ _ _).mp ⟨locals', hwrite⟩
      obtain ⟨hlater, rfl⟩ := ih.mp hothers
      exact ⟨⟨c, n, first, others, hc, hn, hb, hlater, rfl⟩, rfl⟩
    · rintro ⟨⟨c, n, first, others, hc, hn, hb, hlater, rfl⟩, rfl⟩
      obtain ⟨locals', hwrite⟩ := (hst.writes locals _ _ _).mpr ⟨⟨c, n, hc, hn, hb⟩, rfl⟩
      refine ⟨first, locals', k', hwrite, ?_⟩
      rw [hst.goesOn, if_neg Bool.false_ne_true]
      exact ⟨others, ih.mpr ⟨hlater, rfl⟩, rfl⟩

/-- The steps of unions of which nothing is held write nothing. -/
theorem yields_absentSteps {bodies : List Field}
    (hsteps : List.Forall₂ (fun f st => st.field.name = f.name ∧
      ∃ union tag, st.op = .union union tag) bodies rest)
    (hvalues : ∀ f ∈ bodies, fields.lookup f.name = some .null) :
    Yields (encodeSteps s nested type steps none fields locals rest) k bytes k' ↔
      NumbersBytes s [] bytes ∧ k' = k := by
  rw [numbersBytes_nil]
  induction hsteps generalizing locals bytes k with
  | nil => rw [encodeSteps, yields_pure]
  | @cons f st bodies rest hst _ ih =>
    obtain ⟨hname, union, tag, hop⟩ := hst
    obtain ⟨hvalue, hvalues⟩ := List.forall_mem_cons.mp hvalues
    rw [yields_encodeSteps_cons]
    constructor
    · rintro ⟨first, locals', k₁, hwrite, others, hothers, rfl⟩
      obtain ⟨⟨rfl, rfl⟩, rfl⟩ := (yields_absentStep hop (hname ▸ hvalue)).mp hwrite
      obtain ⟨rfl, rfl⟩ := (ih hvalues).mp hothers
      exact ⟨rfl, rfl⟩
    · rintro ⟨rfl, rfl⟩
      exact ⟨[], locals, k', (yields_absentStep hop (hname ▸ hvalue)).mpr ⟨⟨rfl, rfl⟩, rfl⟩, [],
        (ih hvalues).mpr ⟨rfl, rfl⟩, rfl⟩

end Steps

/-- A structure begins with a selector, and all its other fields are unions that it chooses. -/
structure Tagged (s : Schema) (name : String) (sel : Field) (bodies : List Field) : Prop where
  fields : s.allFields name = .ok (sel :: bodies)
  names : ((sel :: bodies).map (·.name)).Nodup
  selector : sel.marshal = .selector
  partner : ∃ body ∈ bodies, sel.partner = some body.name
  chosen : ∀ f ∈ bodies, f.marshal = .unionBody ∧ f.partner = some sel.name

section Records

variable {s : Schema} {nested : String → Value → Coding (List UInt8)} {name : String}
  {k k' : Known} {bytes : List UInt8} {fields : List (String × Value)}

theorem yields_tailEnd_none {t : TypeEntry} {x : Record} (hrecord : s.recordOf? name = some (t, x))
    (hnone : x.nullTail = none) {tail : Option (String × Int)} :
    Yields (tailEnd s name) k tail k' ↔ tail = none ∧ k' = k := by
  unfold tailEnd recordType
  rw [hrecord]
  dsimp only
  rw [pure_bind, hnone]
  exact yields_pure

theorem yields_tailEnd_some {t : TypeEntry} {x : Record} {ends : NullTail}
    (hrecord : s.recordOf? name = some (t, x)) (hsome : x.nullTail = some ends)
    {tail : Option (String × Int)} : Yields (tailEnd s name) k tail k' ↔
      ∃ n, Yields (s.constantValue ends.nullValue) k n k' ∧ tail = some (ends.selector, n) := by
  unfold tailEnd recordType
  rw [hrecord]
  dsimp only
  rw [pure_bind, hsome]
  simp only [yields_bind, yields_pure, yields_codingEval]
  constructor
  · rintro ⟨n, _, hn, rfl, rfl⟩
    exact ⟨n, hn, rfl⟩
  · rintro ⟨n, hn, rfl⟩
    exact ⟨n, k', hn, rfl, rfl⟩

theorem yields_encodeRecord_struct :
    Yields (encodeRecord s nested name (.struct fields)) k bytes k' ↔
      ∃ steps k₁ tail k₂, Yields (layout s name) k steps k₁ ∧ Yields (tailEnd s name) k₁ tail k₂ ∧
        Yields (encodeSteps s nested name steps tail fields [] steps) k₂ bytes k' := by
  unfold encodeRecord
  simp only [Value.fields?, yields_bind, yields_codingEval]
  constructor
  · rintro ⟨steps, k₁, hlayout, tail, k₂, htail, h⟩
    exact ⟨steps, k₁, tail, k₂, hlayout, htail, h⟩
  · rintro ⟨steps, k₁, tail, k₂, hlayout, htail, h⟩
    exact ⟨steps, k₁, hlayout, tail, k₂, htail, h⟩

/-- A selector that the value gives is written as such. -/
theorem yields_givenStep {type : String} {steps : List Step} {locals locals' : Locals} {st : Step}
    {c : Scalar} {object : String} {derived : Bool} {v : Value} {w : Int}
    (hop : st.op = .selector c object derived) (hv : fields.lookup st.field.name = some v)
    (hw : v.word? = some w) :
    Yields (encodeStep s nested type steps fields locals st) k (bytes, locals') k' ↔
      NumberBytes c w bytes ∧ locals' = (st.field.name, w) :: locals ∧ k' = k := by
  unfold encodeStep
  simp only [hop, hv, yields_bind, yields_pure, yields_integer, yields_writeScalar, Prod.mk.injEq]
  constructor
  · rintro ⟨n, _, ⟨hn, rfl⟩, _, _, ⟨hb, rfl⟩, ⟨rfl, rfl⟩, rfl⟩
    cases hw.symm.trans hn
    exact ⟨hb, rfl, rfl⟩
  · rintro ⟨hb, rfl, rfl⟩
    exact ⟨w, k', ⟨hw, rfl⟩, bytes, k', ⟨hb, rfl⟩, ⟨rfl, rfl⟩, rfl⟩

/-- A selector that the value does not give is written as what its union determines. -/
theorem yields_derivedStep {type : String} {steps : List Step} {locals locals' : Locals} {st : Step}
    {c : Scalar} {object : String} {held : Value} (hop : st.op = .selector c object true)
    (hnone : fields.lookup st.field.name = none) (hheld : fields.lookup object = some held) :
    Yields (encodeStep s nested type steps fields locals st) k (bytes, locals') k' ↔
      ∃ n, Yields (deriveSelector s steps object held) k n k' ∧ NumberBytes c n bytes ∧
        locals' = (st.field.name, n) :: locals := by
  unfold encodeStep
  simp only [hop, hnone, ↓reduceIte, yields_bind, yields_pure, yields_fieldValue, hheld,
    yields_writeScalar, Prod.mk.injEq, Option.some.injEq]
  constructor
  · rintro ⟨_, _, ⟨rfl, rfl⟩, n, _, hn, _, _, ⟨hb, rfl⟩, ⟨rfl, rfl⟩, rfl⟩
    exact ⟨n, hn, hb, rfl⟩
  · rintro ⟨n, hn, hb, rfl⟩
    exact ⟨held, k, ⟨rfl, rfl⟩, n, k', hn, bytes, k', ⟨hb, rfl⟩, ⟨rfl, rfl⟩, rfl⟩

end Records

section Tagged

variable {s : Schema} {nested : String → Value → Coding (List UInt8)} {name : String}
  {sel object : Field} {bodies : List Field} {k k' : Known} {bytes : List UInt8}

/-- The step of a union in a structure that begins with its selector. -/
def unionStep (sel f : Field) : Step :=
  ⟨f, .union f.typeName sel.name, true⟩

/-- The plan of a structure of a selector and unions. -/
def taggedSteps (c : Scalar) (sel object : Field) (bodies : List Field) : List Step :=
  ⟨sel, .selector c object.name true, false⟩ :: bodies.map (unionStep sel)

variable (h : Tagged s name sel bodies) (hobject : object ∈ bodies)
  (hpartner : sel.partner = some object.name)

include h

theorem stepOf_union {f : Field} (hf : f ∈ bodies) {all : List Field} {st : Step} :
    StepOf s all f st ↔ st = unionStep sel f := by
  obtain ⟨hmarshal, hchosen⟩ := h.chosen f hf
  constructor
  · obtain ⟨field, op, isData⟩ := st
    rintro ⟨hfield, htravels⟩
    dsimp only at hfield htravels
    subst hfield
    cases htravels with
    | union _ hp =>
      cases hchosen.symm.trans hp
      rfl
    | _ => simp_all
  · rintro rfl
    exact ⟨rfl, .union hmarshal hchosen⟩

include hobject

theorem Tagged.selectsObject : selectsObject (sel :: bodies) sel = true := by
  obtain ⟨hmarshal, hchosen⟩ := h.chosen object hobject
  refine List.any_eq_true.mpr ⟨object, List.mem_cons_of_mem _ hobject, ?_⟩
  rw [hmarshal, hchosen]
  simp

/-- The selector is derived from the union that it names. -/
theorem yields_deriveSelector_tagged {c : Scalar} {held : Value} {u : UnionType} {m : UnionMember}
    (hu : (s.lookup? object.typeName).bind TypeEntry.union? = some u)
    (hm : memberHolding? u held = some m) {n : Int} :
    Yields (deriveSelector s (taggedSteps c sel object bodies) object.name held) k n k' ↔
      Yields (s.constantValue m.selector) k n k' := by
  have hfind : (taggedSteps c sel object bodies).find? (·.field.name == object.name) =
      some (unionStep sel object) := by
    have hnames := h.names
    rw [List.map_cons, List.nodup_cons] at hnames
    have hne : sel.name ≠ object.name :=
      fun heq => hnames.1 (List.mem_map.mpr ⟨object, hobject, heq.symm⟩)
    have hfound : bodies.find? (·.name == object.name) = some object :=
      Schema.find?_of_mem hnames.2 hobject
    unfold taggedSteps
    rw [List.find?_cons, beq_false_of_ne hne, List.find?_map]
    exact congrArg (Option.map (unionStep sel)) hfound
  rw [yields_deriveSelector_iff]
  constructor
  · rintro ⟨st, u', m', hst, hu', hm', hn⟩
    cases hfind.symm.trans hst
    cases hu.symm.trans hu'
    cases hm.symm.trans hm'
    exact hn
  · exact fun hn => ⟨_, u, m, hfind, hu, hm, hn⟩

include hpartner

theorem stepOf_selector {st : Step} : StepOf s (sel :: bodies) sel st ↔
    ∃ c, s.scalar? sel.typeName = some c ∧ st = ⟨sel, .selector c object.name true, false⟩ := by
  have hselects := h.selectsObject hobject
  constructor
  · obtain ⟨field, op, isData⟩ := st
    rintro ⟨hfield, htravels⟩
    dsimp only at hfield htravels
    subst hfield
    have hmarshal := h.selector
    cases htravels with
    | selector _ hc hp =>
      cases hpartner.symm.trans hp
      refine ⟨_, hc, ?_⟩
      rw [hselects]
      rfl
    | _ => simp_all
  · rintro ⟨c, hc, rfl⟩
    have htravels : Travels s (sel :: bodies) sel
        (.selector c object.name (selectsObject (sel :: bodies) sel))
        !selectsObject (sel :: bodies) sel :=
      .selector h.selector hc hpartner
    rw [hselects] at htravels
    exact ⟨rfl, htravels⟩

/-- The plan consists of a derived selector and its unions. -/
theorem yields_layout_tagged {steps : List Step} : Yields (layout s name) k steps k' ↔
    (∃ c, s.scalar? sel.typeName = some c ∧ steps = taggedSteps c sel object bodies) ∧ k' = k := by
  have hdirect : ∀ f ∈ sel :: bodies, Direct f := by
    intro f hf
    rcases List.mem_cons.mp hf with rfl | hf
    · exact .inr (.inl h.selector)
    · exact .inr (.inr (h.chosen f hf).1)
  have hrest {rest : List Step} :
      List.Forall₂ (StepOf s (sel :: bodies)) bodies rest ↔ rest = bodies.map (unionStep sel) :=
    forall₂_iff_eq_map fun f hf st => stepOf_union h hf
  rw [yields_layout h.fields hdirect, List.forall₂_cons_left_iff]
  refine and_congr_left fun _ => ⟨?_, ?_⟩
  · rintro ⟨st, rest, hst, hsteps, rfl⟩
    obtain ⟨c, hc, rfl⟩ := (stepOf_selector h hobject hpartner).mp hst
    obtain rfl := hrest.mp hsteps
    exact ⟨c, hc, rfl⟩
  · rintro ⟨c, hc, rfl⟩
    exact ⟨_, _, (stepOf_selector h hobject hpartner).mpr ⟨c, hc, rfl⟩, hrest.mpr rfl, rfl⟩

/-- A structure is written with its selector first and then with what is written for its unions. -/
theorem yields_encodeRecord_tagged {t : TypeEntry} {x : Record} {fields : List (String × Value)}
    {v : Value} {w : Int} {k₁ : Known} {numbers : List (String × Value)}
    (hrecord : s.recordOf? name = some (t, x)) (hnone : x.nullTail = none) (hv : v.word? = some w)
    (hfirst : ∀ c bytes locals' k', s.scalar? sel.typeName = some c →
      (Yields (encodeStep s nested name (taggedSteps c sel object bodies) fields []
        ⟨sel, .selector c object.name true, false⟩) k (bytes, locals') k' ↔
          NumberBytes c w bytes ∧ locals' = [(sel.name, w)] ∧ k' = k₁))
    (hrest : ∀ steps locals k bytes k',
      Yields (encodeSteps s nested name steps none fields locals (bodies.map (unionStep sel))) k
        bytes k' ↔ NumbersBytes s numbers bytes ∧ k' = k) :
    (∃ k', Yields (encodeRecord s nested name (.struct fields)) k bytes k') ↔
      NumbersBytes s ((sel.typeName, v) :: numbers) bytes := by
  rw [numbersBytes_cons]
  constructor
  · rintro ⟨k', hy⟩
    obtain ⟨steps, _, tail, _, hlayout, htail, hsteps⟩ := yields_encodeRecord_struct.mp hy
    obtain ⟨⟨c, hc, rfl⟩, rfl⟩ := (yields_layout_tagged h hobject hpartner).mp hlayout
    obtain ⟨rfl, rfl⟩ := (yields_tailEnd_none hrecord hnone).mp htail
    obtain ⟨first, _, _, hwritten, others, hothers, rfl⟩ := yields_encodeSteps_cons.mp hsteps
    obtain ⟨hb, rfl, rfl⟩ := (hfirst _ _ _ _ hc).mp hwritten
    exact ⟨c, w, first, others, hc, hv, hb, ((hrest _ _ _ _ _).mp hothers).1, rfl⟩
  · rintro ⟨c, n, first, others, hc, hn, hb, hothers, rfl⟩
    cases hv.symm.trans hn
    refine ⟨k₁, yields_encodeRecord_struct.mpr ⟨_, k, none, k,
      (yields_layout_tagged h hobject hpartner).mpr ⟨⟨c, hc, rfl⟩, rfl⟩,
      (yields_tailEnd_none hrecord hnone).mpr ⟨rfl, rfl⟩, ?_⟩⟩
    exact yields_encodeSteps_cons.mpr ⟨first, _, k₁, (hfirst _ _ _ _ hc).mpr ⟨hb, rfl, rfl⟩, others,
      (hrest _ _ _ _ _).mpr ⟨hothers, rfl⟩, rfl⟩

omit hpartner in
/-- The selector is written as what the union that it names determines. -/
theorem yields_selectorStep_derived {c : Scalar} {fields : List (String × Value)} {held : Value}
    {u : UnionType} {m : UnionMember} {w : Int} {k₁ : Known} {locals' : Locals}
    (hsel : fields.lookup sel.name = none) (hheld : fields.lookup object.name = some held)
    (hu : (s.lookup? object.typeName).bind TypeEntry.union? = some u)
    (hm : memberHolding? u held = some m) (hw : Yields (s.constantValue m.selector) k w k₁) :
    Yields (encodeStep s nested name (taggedSteps c sel object bodies) fields []
      ⟨sel, .selector c object.name true, false⟩) k (bytes, locals') k' ↔
        NumberBytes c w bytes ∧ locals' = [(sel.name, w)] ∧ k' = k₁ := by
  rw [yields_derivedStep rfl hsel hheld]
  simp only [yields_deriveSelector_tagged h hobject hu hm]
  constructor
  · rintro ⟨n, hn, hb, rfl⟩
    obtain ⟨rfl, rfl⟩ := hn.unique hw
    exact ⟨hb, rfl, rfl⟩
  · rintro ⟨hb, rfl, rfl⟩
    exact ⟨w, hw, hb, rfl⟩

end Tagged

section Tail

variable {s : Schema} {nested : String → Value → Coding (List UInt8)} {name : String}
  {sel : Field} {k k' : Known} {bytes : List UInt8}

theorem endsAfter_of_ne {selector field : String} {null : Int} (h : field ≠ selector)
    (locals : Locals) : endsAfter (some (selector, null)) field locals = false := by
  unfold endsAfter
  dsimp only
  rw [beq_false_of_ne (Ne.symm h), Bool.false_and]

theorem endsAfter_self {selector : String} {null w : Int} :
    endsAfter (some (selector, null)) selector [(selector, w)] = decide (w = null) := by
  unfold endsAfter
  dsimp only
  rw [beq_self_eq_true, Bool.true_and, List.lookup_cons_self]
  exact Bool.beq_eq_decide_eq (some w) (some null) |>.trans (by simp)

/-- The step of a plain field. -/
def plainStep (s : Schema) (f : Field) : Step :=
  ⟨f, .scalar ((s.scalar? f.typeName).getD byteScalar), true⟩

theorem stepOf_plain {f : Field} (hm : f.marshal = .plain)
    (hc : (s.scalar? f.typeName).isSome = true) {all : List Field} {st : Step} :
    StepOf s all f st ↔ st = plainStep s f := by
  obtain ⟨c, hc⟩ := Option.isSome_iff_exists.mp hc
  unfold plainStep
  rw [hc, Option.getD_some]
  constructor
  · obtain ⟨field, op, isData⟩ := st
    rintro ⟨hfield, htravels⟩
    dsimp only at hfield htravels
    subst hfield
    cases htravels with
    | scalar _ hc' =>
      cases hc.symm.trans hc'
      rfl
    | object _ ht => cases (objectName?_of_scalar? hc).symm.trans ht
    | _ => simp_all
  · rintro rfl
    exact ⟨rfl, .scalar (.inl hm) hc⟩

/-- A field that is read as a number: plain, or a selector. -/
def Numeric (f : Field) : Prop :=
  f.marshal = .plain ∨ f.marshal = .selector ∧ f.partner.isSome = true

theorem exists_numericStep (hsel : Numeric sel) {c : Scalar} (hc : s.scalar? sel.typeName = some c)
    {all : List Field} : ∃ st, StepOf s all sel st := by
  rcases hsel with hm | ⟨hm, hp⟩
  · exact ⟨⟨sel, _, _⟩, rfl, .scalar (.inl hm) hc⟩
  · obtain ⟨partner, hp⟩ := Option.isSome_iff_exists.mp hp
    exact ⟨⟨sel, _, _⟩, rfl, .selector hm hc hp⟩

/-- A number that is given for such a field is written as it is. -/
theorem yields_numericStep {all : List Field} {st : Step} {type : String} {steps : List Step}
    {fields : List (String × Value)} {v : Value} {w : Int} {locals locals' : Locals}
    (hsel : Numeric sel) (hst : StepOf s all sel st) (hv : fields.lookup sel.name = some v)
    (hw : v.word? = some w) (hnested : ∀ type k bytes k', ¬ Yields (nested type v) k bytes k') :
    Yields (encodeStep s nested type steps fields locals st) k (bytes, locals') k' ↔
      (∃ c, s.scalar? sel.typeName = some c ∧ NumberBytes c w bytes) ∧
        locals' = (sel.name, w) :: locals ∧ k' = k := by
  obtain ⟨field, op, isData⟩ := st
  obtain ⟨hfield, htravels⟩ := hst
  dsimp only at hfield htravels
  subst hfield
  cases htravels with
  | scalar hm hc =>
    rw [yields_scalarStep rfl hv]
    constructor
    · rintro ⟨⟨n, hn, hb, rfl⟩, rfl⟩
      cases hw.symm.trans hn
      exact ⟨⟨_, hc, hb⟩, rfl, rfl⟩
    · rintro ⟨⟨c', hc', hb⟩, rfl, rfl⟩
      cases hc.symm.trans hc'
      exact ⟨⟨w, hw, hb, rfl⟩, rfl⟩
  | object hm ht =>
    constructor
    · intro hy
      unfold encodeStep at hy
      simp only [yields_bind, yields_fieldValue, hv, Option.some.injEq] at hy
      obtain ⟨_, _, ⟨rfl, rfl⟩, _, _, hy, -⟩ := hy
      exact (hnested _ _ _ _ hy).elim
    · rintro ⟨⟨c, hc, -⟩, -⟩
      cases (objectName?_of_scalar? hc).symm.trans ht
  | selector hm hc hp =>
    refine (yields_givenStep rfl hv hw).trans (and_congr_left fun _ => ⟨fun hb => ⟨_, hc, hb⟩, ?_⟩)
    rintro ⟨c', hc', hb⟩
    cases hc.symm.trans hc'
    exact hb
  | _ =>
    rcases hsel with hm | ⟨hm, -⟩ <;> simp_all

/-- Where the null selector has a value, the end of the tail is known. -/
theorem yields_tailEnd_value {t : TypeEntry} {x : Record} {nullValue : String} {null : Int}
    {k₁ : Known} (hrecord : s.recordOf? name = some (t, x))
    (htail : x.nullTail = some ⟨sel.name, nullValue⟩)
    (hnull : Yields (s.constantValue nullValue) k null k₁) {tail : Option (String × Int)} :
    Yields (tailEnd s name) k tail k' ↔ tail = some (sel.name, null) ∧ k' = k₁ := by
  rw [yields_tailEnd_some hrecord htail]
  constructor
  · rintro ⟨n, hn, rfl⟩
    obtain ⟨rfl, rfl⟩ := hn.unique hnull
    exact ⟨rfl, rfl⟩
  · rintro ⟨rfl, rfl⟩
    exact ⟨null, hnull, rfl⟩

/-- The steps of plain fields behind the selector write the numbers that are given for them. -/
theorem yields_plainSteps {bodies : List Field} {steps : List Step} {null : Int}
    {fields numbers : List (String × Value)} {locals : Locals}
    (hsel : sel.name ∉ bodies.map (·.name))
    (hbodies : List.Forall₂ (fun f number =>
      (∃ c, s.scalar? f.typeName = some c ∧ s.scalar? number.1 = some c) ∧
        fields.lookup f.name = some number.2) bodies numbers) :
    Yields (encodeSteps s nested name steps (some (sel.name, null)) fields locals
      (bodies.map (plainStep s))) k bytes k' ↔ NumbersBytes s numbers bytes ∧ k' = k := by
  refine yields_numberSteps (List.forall₂_map_right_iff.mpr ?_)
  refine (forall₂_mem hbodies).flip.imp fun number f hnumber => ?_
  obtain ⟨hf, ⟨c, hc, hc'⟩, hvalue⟩ := hnumber
  refine writesNumber_scalar ?_ hc' hvalue (endsAfter_of_ne fun heq => ?_)
  · unfold plainStep
    rw [hc, Option.getD_some]
  · exact hsel (List.mem_map.mpr ⟨f, hf, heq⟩)

/-- A structure of plain numbers is written as these, or as the first of them alone if it is the one
after which the structure ends. -/
theorem yields_encodeRecord_plain {bodies : List Field} {t : TypeEntry} {x : Record}
    {nullValue : String} {null w : Int} {k₁ : Known} {fields numbers : List (String × Value)}
    {v : Value} (hall : s.allFields name = .ok (sel :: bodies))
    (hnames : ((sel :: bodies).map (·.name)).Nodup) (hsel : Numeric sel)
    (hbodies : List.Forall₂ (fun f number => f.marshal = .plain ∧
      (∃ c, s.scalar? f.typeName = some c ∧ s.scalar? number.1 = some c) ∧
        (w ≠ null → fields.lookup f.name = some number.2)) bodies numbers)
    (hrecord : s.recordOf? name = some (t, x)) (htail : x.nullTail = some ⟨sel.name, nullValue⟩)
    (hnull : Yields (s.constantValue nullValue) k null k₁) (hv : fields.lookup sel.name = some v)
    (hw : v.word? = some w) (hnested : ∀ type k bytes k', ¬ Yields (nested type v) k bytes k') :
    (∃ k', Yields (encodeRecord s nested name (.struct fields)) k bytes k') ↔
      NumbersBytes s ((sel.typeName, v) :: if w = null then [] else numbers) bytes := by
  have hplain : ∀ f ∈ bodies, f.marshal = .plain ∧ (s.scalar? f.typeName).isSome = true := by
    intro f hf
    obtain ⟨number, -, hm, ⟨c, hc, -⟩, -⟩ := exists_of_forall₂ hbodies.flip hf
    exact ⟨hm, hc ▸ rfl⟩
  have hdirect : ∀ f ∈ sel :: bodies, Direct f := by
    intro f hf
    rcases List.mem_cons.mp hf with rfl | hf
    · exact hsel.imp_right fun h => .inl h.1
    · exact .inl (hplain f hf).1
  have hsteps {rest : List Step} :
      List.Forall₂ (StepOf s (sel :: bodies)) bodies rest ↔ rest = bodies.map (plainStep s) :=
    forall₂_iff_eq_map fun f hf st => stepOf_plain (hplain f hf).1 (hplain f hf).2
  have hothers (hne : w ≠ null) {steps : List Step} {locals : Locals} {k k' : Known}
      {bytes : List UInt8} : Yields (encodeSteps s nested name steps (some (sel.name, null)) fields
        locals (bodies.map (plainStep s))) k bytes k' ↔ NumbersBytes s numbers bytes ∧ k' = k :=
    yields_plainSteps (List.nodup_cons.mp hnames).1
      (hbodies.imp fun _ _ h => ⟨h.2.1, h.2.2 hne⟩)
  rw [numbersBytes_cons]
  constructor
  · rintro ⟨k', hy⟩
    obtain ⟨_, _, tail, _, hlayout, hend, hwritten⟩ := yields_encodeRecord_struct.mp hy
    obtain ⟨hall, rfl⟩ := (yields_layout hall hdirect).mp hlayout
    obtain ⟨st, rest, hst, hrest, rfl⟩ := List.forall₂_cons_left_iff.mp hall
    obtain ⟨rfl, rfl⟩ := (yields_tailEnd_value hrecord htail hnull).mp hend
    obtain rfl := hsteps.mp hrest
    obtain ⟨first, _, _, hfirst, hmore⟩ := yields_encodeSteps_cons.mp hwritten
    obtain ⟨⟨c, hc, hb⟩, rfl, rfl⟩ := (yields_numericStep hsel hst hv hw hnested).mp hfirst
    rw [hst.1, endsAfter_self] at hmore
    by_cases hend : w = null
    · rw [decide_eq_true hend, if_pos rfl] at hmore
      obtain ⟨rfl, -⟩ := hmore
      rw [if_pos hend]
      exact ⟨c, w, bytes, [], hc, hw, hb, .nil, (List.append_nil _).symm⟩
    · rw [decide_eq_false hend, if_neg Bool.false_ne_true] at hmore
      obtain ⟨others, hlater, rfl⟩ := hmore
      rw [if_neg hend]
      exact ⟨c, w, first, others, hc, hw, hb, ((hothers hend).mp hlater).1, rfl⟩
  · rintro ⟨c, n, first, others, hc, hn, hb, hwritten, rfl⟩
    cases hw.symm.trans hn
    obtain ⟨st, hst⟩ : ∃ st, StepOf s (sel :: bodies) sel st := exists_numericStep hsel hc
    refine ⟨k₁, yields_encodeRecord_struct.mpr ⟨st :: bodies.map (plainStep s), k,
      some (sel.name, null), k₁, (yields_layout hall hdirect).mpr
        ⟨List.Forall₂.cons hst (hsteps.mpr rfl), rfl⟩,
      (yields_tailEnd_value hrecord htail hnull).mpr ⟨rfl, rfl⟩, ?_⟩⟩
    refine yields_encodeSteps_cons.mpr ⟨first, _, k₁,
      (yields_numericStep hsel hst hv hw hnested).mpr ⟨⟨c, hc, hb⟩, rfl, rfl⟩, ?_⟩
    rw [hst.1, endsAfter_self]
    by_cases hend : w = null
    · rw [if_pos hend, numbersBytes_nil] at hwritten
      rw [decide_eq_true hend, if_pos rfl, hwritten, List.append_nil]
      exact ⟨rfl, rfl⟩
    · rw [if_neg hend] at hwritten
      rw [decide_eq_false hend, if_neg Bool.false_ne_true]
      exact ⟨others, (hothers hend).mpr ⟨hwritten, rfl⟩, rfl⟩

end Tail

end WireTables.Wire
