import WireTables.Proofs.Wire.Plan

/-!
# What is written

Encoding as a relation between a value and its bytes, in a registry in which all constants have
their values. Each of `Writes`, `ElementBytes` and `MemberBytes` has one case for each thing that
can happen, and `yields_encodeStep` and the lemmas around it say that nothing else does. Whatever is
shown about encoding is shown by cases on these relations.
-/

namespace WireTables.Wire

/-- The bytes of one array element; `nested` relates structures to their bytes. -/
inductive ItemBytes (nested : String → Value → List UInt8 → Prop) :
    Element → Value → List UInt8 → Prop
  | byte {v n bytes} (hn : v.word? = some n) (hb : NumberBytes byteScalar n bytes) :
    ItemBytes nested .byte v bytes
  | scalar {c v n bytes} (hn : v.word? = some n) (hb : NumberBytes c n bytes) :
    ItemBytes nested (.scalar c) v bytes
  | object {type v bytes} (h : nested type v bytes) : ItemBytes nested (.object type) v bytes

/-- The bytes of the elements of an array. -/
inductive ElementBytes (nested : String → Value → List UInt8 → Prop) :
    Element → Value → List UInt8 → Prop
  | bytes {data} : ElementBytes nested .byte (.bytes data) data
  | items {element items parts} (h : List.Forall₂ (ItemBytes nested element) items parts) :
    ElementBytes nested element (.list items) parts.flatten

/-- The bytes of a union value of a concrete type. -/
inductive MemberBytes (s : Schema) (nested : String → Value → List UInt8 → Prop) :
    String → Value → List UInt8 → Prop
  | record {type v bytes} (hr : s.isRecord type = true) (h : nested type v bytes) :
    MemberBytes s nested type v bytes
  | scalar {type c v n bytes} (hr : s.isRecord type = false) (hc : s.scalar? type = some c)
    (hn : v.word? = some n) (hb : NumberBytes c n bytes) : MemberBytes s nested type v bytes

/-- The member that stands for a union value. -/
def memberHolding? (u : UnionType) : Value → Option UnionMember
  | .union type _ => u.members.find? (·.typeName == type)
  | .null => u.nullMember.bind fun i => u.members[i]?
  | _ => none

/-- The number that the value of a union-typed field determines. -/
structure Derives (s : Schema) (known : Known) (steps : List Step) (object : String) (v : Value)
    (n : Int) : Prop where
  intro ::
  exists_member : ∃ step u m, steps.find? (·.field.name == object) = some step ∧
    (s.lookup? step.field.typeName).bind TypeEntry.union? = some u ∧
      memberHolding? u v = some m ∧ Yields (s.constantValue m.selector) known n known

/-- The length that an array has to have, where that is known before it is read. -/
inductive Required (s : Schema) (known : Known) (locals : Locals) :
    ArrayLength → Option Nat → Prop
  | tag {field} : Required s known locals (.tag field) none
  | fixed {count} : Required s known locals (.fixed count) (some count)
  | rest : Required s known locals .rest none
  | selected {union selector n count} (hn : locals.lookup selector = some n)
    (hc : Yields (selectedLength s union n) known (some count) known) :
    Required s known locals (.selected union selector) (some count)

/-- An array is not longer than its domain allows. -/
def WithinMaximum (s : Schema) (known : Known) (f : Field) (count : Nat) : Prop :=
  ∀ text, f.domain.maximum? = some text →
    ∃ maximum, Yields (s.evaluate text) known maximum known ∧ (count : Int) ≤ maximum

/-- The number of elements of an array field, none when it is not there. -/
def arrayCount (fields : List (String × Value)) (array : String) : Nat :=
  ((fields.lookup array).bind Value.length?).getD 0

/-- What is written for a field that travels as `op`, and the numbers known afterwards. -/
inductive Writes (s : Schema) (known : Known) (nested : String → Value → List UInt8 → Prop)
    (steps : List Step) (fields : List (String × Value)) (locals : Locals) (f : Field) :
    Op → List UInt8 → Locals → Prop
  | scalar {c v n bytes} (hv : fields.lookup f.name = some v) (hn : v.word? = some n)
    (hb : NumberBytes c n bytes) :
    Writes s known nested steps fields locals f (.scalar c) bytes ((f.name, n) :: locals)
  | object {type v bytes} (hv : fields.lookup f.name = some v) (h : nested type v bytes) :
    Writes s known nested steps fields locals f (.object type) bytes locals
  | constant {c text n bytes} (hn : Yields (s.evaluate text) known n known)
    (hb : NumberBytes c n bytes) :
    Writes s known nested steps fields locals f (.constant c text) bytes locals
  | count {c array bytes} (hb : NumberBytes c (arrayCount fields array) bytes) :
    Writes s known nested steps fields locals f (.count c array) bytes
      ((f.name, arrayCount fields array) :: locals)
  | array {element length v count required bytes} (hv : fields.lookup f.name = some v)
    (hc : v.length? = some count) (hreq : Required s known locals length required)
    (heq : ∀ n, required = some n → n = count) (hmax : WithinMaximum s known f count)
    (h : ElementBytes nested element v bytes) :
    Writes s known nested steps fields locals f (.array element length) bytes locals
  | sized {c type v body size} (hv : fields.lookup f.name = some v) (h : nested type v body)
    (hb : NumberBytes c body.length size) :
    Writes s known nested steps fields locals f (.sized c type) (size ++ body) locals
  | given {c object derived v n bytes} (hv : fields.lookup f.name = some v)
    (hn : v.word? = some n) (hb : NumberBytes c n bytes) :
    Writes s known nested steps fields locals f (.selector c object derived) bytes
      ((f.name, n) :: locals)
  | derived {c object v n bytes} (hnone : fields.lookup f.name = none)
    (hv : fields.lookup object = some v) (hn : Derives s known steps object v n)
    (hb : NumberBytes c n bytes) :
    Writes s known nested steps fields locals f (.selector c object true) bytes
      ((f.name, n) :: locals)
  | absent {union tag} (hv : fields.lookup f.name = some .null) :
    Writes s known nested steps fields locals f (.union union tag) [] locals
  | held {union tag type v bytes} (hv : fields.lookup f.name = some (.union type v))
    (h : MemberBytes s nested type v bytes) :
    Writes s known nested steps fields locals f (.union union tag) bytes locals

/-- What is written for the remaining steps of a structure. -/
inductive WritesAll (s : Schema) (known : Known) (nested : String → Value → List UInt8 → Prop)
    (steps : List Step) (tail : Option (String × Int)) (fields : List (String × Value)) :
    Locals → List Step → List UInt8 → Prop
  | done {locals} : WritesAll s known nested steps tail fields locals [] []
  | last {locals locals' step rest bytes}
    (h : Writes s known nested steps fields locals step.field step.op bytes locals')
    (hend : endsAfter tail step.field.name locals' = true) :
    WritesAll s known nested steps tail fields locals (step :: rest) bytes
  | more {locals locals' step rest bytes others}
    (h : Writes s known nested steps fields locals step.field step.op bytes locals')
    (hend : endsAfter tail step.field.name locals' = false)
    (hrest : WritesAll s known nested steps tail fields locals' rest others) :
    WritesAll s known nested steps tail fields locals (step :: rest) (bytes ++ others)

section Elementary

variable {k k' : Known}

@[simp] theorem not_yields_invalid {f : ValueFault} {a : α} :
    ¬ Yields (Coding.invalid f : Coding α) k a k' :=
  not_yields_throw

theorem yields_fieldValue {type name : String} {fields : List (String × Value)} {v : Value} :
    Yields (fieldValue type fields name) k v k' ↔ fields.lookup name = some v ∧ k' = k := by
  unfold fieldValue
  cases fields.lookup name with
  | none => simp only [not_yields_throw, reduceCtorEq, false_and]
  | some w => simp only [yields_pure, Option.some.injEq, eq_comm]

theorem yields_localValue {type field : String} {locals : Locals} {n : Int} :
    Yields (localValue type locals field) k n k' ↔ locals.lookup field = some n ∧ k' = k := by
  unfold localValue
  cases locals.lookup field with
  | none => simp only [not_yields_throw, reduceCtorEq, false_and]
  | some w => simp only [yields_pure, Option.some.injEq, eq_comm]

theorem yields_unionType {s : Schema} {union : String} {u : UnionType} :
    Yields (unionType s union) k u k' ↔
      (s.lookup? union).bind TypeEntry.union? = some u ∧ k' = k := by
  unfold unionType
  cases (s.lookup? union).bind TypeEntry.union? with
  | none => simp only [not_yields_throw, reduceCtorEq, false_and]
  | some w => simp only [yields_pure, Option.some.injEq, eq_comm]

/-- The number that a union value determines is that of the selector of the member it stands for. -/
theorem yields_deriveSelector_iff {s : Schema} {steps : List Step} {object : String} {v : Value}
    {n : Int} : Yields (deriveSelector s steps object v) k n k' ↔
      ∃ step u m, steps.find? (·.field.name == object) = some step ∧
        (s.lookup? step.field.typeName).bind TypeEntry.union? = some u ∧
          memberHolding? u v = some m ∧ Yields (s.constantValue m.selector) k n k' := by
  have unfolded : deriveSelector s steps object v =
      (steps.find? (·.field.name == object)).elim (throw (.missingObject object)) fun step =>
        unionType s step.field.typeName >>= fun u =>
          (memberHolding? u v).elim (Coding.invalid (.noMemberFor step.field.typeName v)) fun m =>
            Coding.eval (s.constantValue m.selector) := by
    unfold deriveSelector
    cases steps.find? (·.field.name == object) with
    | none => rfl
    | some step =>
      refine congrArg (unionType s step.field.typeName >>= ·) (funext fun u => ?_)
      cases v with
      | union type w =>
        simp only [memberHolding?]
        cases u.members.find? (·.typeName == type) <;> rfl
      | null =>
        simp only [memberHolding?]
        cases u.nullMember.bind fun i => u.members[i]? <;> rfl
      | number | bool | bytes | struct | list => rfl
  rw [unfolded]
  constructor
  · intro hn
    cases hstep : steps.find? (·.field.name == object) with
    | none =>
      rw [hstep] at hn
      exact (not_yields_throw hn).elim
    | some step =>
      simp only [hstep, Option.elim_some, yields_bind, yields_unionType] at hn
      obtain ⟨u, _, ⟨hu, rfl⟩, hn⟩ := hn
      cases hm : memberHolding? u v with
      | none =>
        rw [hm] at hn
        exact (not_yields_invalid hn).elim
      | some m =>
        rw [hm, Option.elim_some] at hn
        exact ⟨step, u, m, rfl, hu, hm, yields_codingEval.mp hn⟩
  · rintro ⟨step, u, m, hstep, hu, hm, hn⟩
    simp only [hstep, Option.elim_some, yields_bind, yields_unionType]
    refine ⟨u, k, ⟨hu, rfl⟩, ?_⟩
    rw [hm, Option.elim_some]
    exact yields_codingEval.mpr hn

end Elementary

section Settled

variable {s : Schema} {known k' : Known} (h : s.Remembers (· = known))

include h

theorem yields_selectedBytes {union : String} {n : Int} {count : Nat} :
    Yields (selectedBytes s union n) known count k' ↔
      Yields (selectedLength s union n) known (some count) known ∧ k' = known := by
  rw [(selectedBytes_keeps h union n).yields_iff]
  refine and_congr_left fun _ => ?_
  unfold selectedBytes
  simp only [yields_bind, yields_codingEval]
  constructor
  · rintro ⟨r, k₁, hr, hcount⟩
    obtain rfl := ((selectedLength_keeps h union n).yields_iff.mp hr).2
    cases r with
    | none => exact (not_yields_invalid hcount).elim
    | some m =>
      obtain ⟨rfl, -⟩ := yields_pure.mp hcount
      exact hr
  · exact fun hr => ⟨some count, known, hr, yields_pure.mpr ⟨rfl, rfl⟩⟩

theorem yields_requiredLength {type : String} {locals : Locals} {length : ArrayLength}
    {required : Option Nat} :
    Yields (requiredLength s type locals length) known required k' ↔
      Required s known locals length required ∧ k' = known := by
  cases length with
  | tag field =>
    refine yields_pure.trans (and_congr_left fun _ => ⟨?_, fun hr => ?_⟩)
    · rintro rfl
      exact .tag
    · cases hr
      rfl
  | fixed count =>
    refine yields_pure.trans (and_congr_left fun _ => ⟨?_, fun hr => ?_⟩)
    · rintro rfl
      exact .fixed
    · cases hr
      rfl
  | rest =>
    refine yields_pure.trans (and_congr_left fun _ => ⟨?_, fun hr => ?_⟩)
    · rintro rfl
      exact .rest
    · cases hr
      rfl
  | selected union selector =>
    unfold requiredLength
    simp only [yields_bind, yields_localValue, yields_pure]
    constructor
    · rintro ⟨n, _, ⟨hn, rfl⟩, count, _, hc, rfl, rfl⟩
      obtain ⟨hc, rfl⟩ := (yields_selectedBytes h).mp hc
      exact ⟨.selected hn hc, rfl⟩
    · rintro ⟨⟨⟩, rfl⟩
      exact ⟨_, k', ⟨‹_›, rfl⟩, _, k', (yields_selectedBytes h).mpr ⟨‹_›, rfl⟩, rfl, rfl⟩

theorem yields_checkMaximum {type : String} {f : Field} {count : Nat} {u : Unit} :
    Yields (checkMaximum s type f count) known u k' ↔
      WithinMaximum s known f count ∧ k' = known := by
  unfold checkMaximum WithinMaximum
  cases f.domain.maximum? with
  | none => simp
  | some text =>
    simp only [yields_bind, yields_codingEval, Option.some.injEq, forall_eq']
    constructor
    · rintro ⟨maximum, k₁, hm, hcheck⟩
      obtain ⟨hm, rfl⟩ := (Schema.evaluate_keeps h text).yields_iff.mp hm
      split at hcheck
      · exact (not_yields_invalid hcheck).elim
      · next hle =>
        obtain ⟨-, rfl⟩ := yields_pure.mp hcheck
        exact ⟨⟨maximum, hm, by omega⟩, rfl⟩
    · rintro ⟨⟨maximum, hm, hle⟩, rfl⟩
      refine ⟨maximum, k', hm, ?_⟩
      rw [if_neg (by omega)]
      exact yields_pure.mpr ⟨rfl, rfl⟩

theorem yields_deriveSelector {steps : List Step} {object : String} {v : Value} {n : Int} :
    Yields (deriveSelector s steps object v) known n k' ↔
      Derives s known steps object v n ∧ k' = known := by
  refine yields_deriveSelector_iff.trans ⟨?_, ?_⟩
  · rintro ⟨step, u, m, hstep, hu, hm, hn⟩
    obtain ⟨hn, rfl⟩ := (Schema.constantValue_keeps h m.selector).yields_iff.mp hn
    exact ⟨⟨step, u, m, hstep, hu, hm, hn⟩, rfl⟩
  · rintro ⟨⟨step, u, m, hstep, hu, hm, hn⟩, rfl⟩
    exact ⟨step, u, m, hstep, hu, hm, hn⟩

end Settled

section Nested

variable {s : Schema} {known k' : Known} {nested : String → Value → Coding (List UInt8)}
  {related : String → Value → List UInt8 → Prop}
  (hnested : ∀ type v bytes k', Yields (nested type v) known bytes k' ↔
    related type v bytes ∧ k' = known)

theorem yields_writeAll {write : Value → Coding (List UInt8)} {p : Value → List UInt8 → Prop}
    (hwrite : ∀ v bytes k', Yields (write v) known bytes k' ↔ p v bytes ∧ k' = known)
    {items : List Value} {bytes : List UInt8} :
    Yields (writeAll write items) known bytes k' ↔
      (∃ parts, List.Forall₂ p items parts ∧ bytes = parts.flatten) ∧ k' = known := by
  induction items generalizing bytes k' with
  | nil =>
    unfold writeAll
    simp only [yields_pure, List.forall₂_nil_left_iff, exists_eq_left, List.flatten_nil]
  | cons v items ih =>
    unfold writeAll
    simp only [yields_bind, yields_pure, hwrite, List.forall₂_cons_left_iff]
    constructor
    · rintro ⟨first, _, ⟨hv, rfl⟩, others, _, hothers, rfl, rfl⟩
      obtain ⟨⟨parts, hparts, rfl⟩, rfl⟩ := ih.mp hothers
      exact ⟨⟨first :: parts, ⟨first, parts, hv, hparts, rfl⟩, rfl⟩, rfl⟩
    · rintro ⟨⟨_, ⟨first, parts, hv, hparts, rfl⟩, rfl⟩, rfl⟩
      exact ⟨first, k', ⟨hv, rfl⟩, parts.flatten, k', ih.mpr ⟨⟨parts, hparts, rfl⟩, rfl⟩, rfl, rfl⟩

theorem yields_number {type field : String} {c : Scalar} {v : Value} {bytes : List UInt8} :
    Yields (do writeScalar c (← integer type field v)) known bytes k' ↔
      (∃ n, v.word? = some n ∧ NumberBytes c n bytes) ∧ k' = known := by
  simp only [yields_bind, yields_integer, yields_writeScalar]
  constructor
  · rintro ⟨n, _, ⟨hn, rfl⟩, hb, rfl⟩
    exact ⟨⟨n, hn, hb⟩, rfl⟩
  · rintro ⟨⟨n, hn, hb⟩, rfl⟩
    exact ⟨n, k', ⟨hn, rfl⟩, hb, rfl⟩

include hnested

theorem yields_writeArray {element : Element} {v : Value} {bytes : List UInt8} :
    Yields (writeArray nested element v) known bytes k' ↔
      ElementBytes related element v bytes ∧ k' = known := by
  -- An array of items is written item by item, whatever its items are.
  have each : ∀ (items : List Value) (write : Value → Coding (List UInt8)),
      (∀ item part k', Yields (write item) known part k' ↔
        ItemBytes related element item part ∧ k' = known) →
      (Yields (writeAll write items) known bytes k' ↔
        ElementBytes related element (.list items) bytes ∧ k' = known) := by
    intro items write hwrite
    rw [yields_writeAll hwrite]
    refine and_congr_left fun _ => ⟨?_, fun hb => ?_⟩
    · rintro ⟨parts, hparts, rfl⟩
      exact .items hparts
    · cases hb with
      | items hparts => exact ⟨_, hparts, rfl⟩
  have wrong : ∀ f : ValueFault, ¬ ElementBytes related element v bytes →
      (Yields (Coding.invalid f : Coding (List UInt8)) known bytes k' ↔
        ElementBytes related element v bytes ∧ k' = known) := fun f hno =>
    ⟨fun hb => (not_yields_invalid hb).elim, fun hb => (hno hb.1).elim⟩
  cases element with
  | byte =>
    cases v with
    | bytes data =>
      refine yields_pure.trans (and_congr_left fun _ => ⟨?_, fun hb => ?_⟩)
      · rintro rfl
        exact .bytes
      · cases hb
        rfl
    | list items =>
      refine each items _ fun item part k' => yields_number.trans (and_congr_left fun _ => ?_)
      exact ⟨fun ⟨n, hn, hb⟩ => .byte hn hb, fun hb => by cases hb; exact ⟨_, ‹_›, ‹_›⟩⟩
    | _ => exact wrong _ nofun
  | scalar c =>
    cases v with
    | list items =>
      refine each items _ fun item part k' => yields_number.trans (and_congr_left fun _ => ?_)
      exact ⟨fun ⟨n, hn, hb⟩ => .scalar hn hb, fun hb => by cases hb; exact ⟨_, ‹_›, ‹_›⟩⟩
    | _ => exact wrong _ nofun
  | object type =>
    cases v with
    | list items =>
      refine each items _ fun item part k' => (hnested _ _ _ _).trans (and_congr_left fun _ => ?_)
      exact ⟨.object, fun hb => by cases hb; assumption⟩
    | _ => exact wrong _ nofun

theorem yields_writeMember {type : String} {v : Value} {bytes : List UInt8} :
    Yields (writeMember s nested type v) known bytes k' ↔
      MemberBytes s related type v bytes ∧ k' = known := by
  unfold writeMember
  cases hr : s.isRecord type with
  | true =>
    rw [if_pos rfl, hnested]
    refine and_congr_left fun _ => ⟨.record hr, fun hb => ?_⟩
    cases hb with
    | record _ hb => exact hb
    | scalar hr' => rw [hr] at hr'; cases hr'
  | false =>
    rw [if_neg Bool.false_ne_true]
    cases hc : s.scalar? type with
    | none =>
      refine ⟨fun hb => (not_yields_throw hb).elim, fun hb => ?_⟩
      cases hb.1 with
      | record hr' => rw [hr] at hr'; cases hr'
      | scalar _ hc' => rw [hc] at hc'; cases hc'
    | some c =>
      refine yields_number.trans (and_congr_left fun _ => ⟨?_, fun hb => ?_⟩)
      · rintro ⟨n, hn, hb⟩
        exact .scalar hr hc hn hb
      · cases hb with
        | record hr' => rw [hr] at hr'; cases hr'
        | scalar _ hc' hn hb =>
          rw [hc] at hc'
          cases hc'
          exact ⟨_, hn, hb⟩

variable (h : s.Remembers (· = known))

include h

theorem yields_encodeArray {type : String} {f : Field} {locals : Locals} {element : Element}
    {length : ArrayLength} {v : Value} {bytes : List UInt8} :
    Yields (encodeArray s nested type f locals element length v) known bytes k' ↔
      (∃ count required, v.length? = some count ∧ Required s known locals length required ∧
        (∀ n, required = some n → n = count) ∧ WithinMaximum s known f count ∧
          ElementBytes related element v bytes) ∧ k' = known := by
  unfold encodeArray
  cases v.length? with
  | none =>
    simp only [not_yields_invalid, reduceCtorEq, false_and, exists_false]
  | some count =>
    simp only [yields_bind, Option.some.injEq]
    constructor
    · rintro ⟨required, _, hreq, hb⟩
      obtain ⟨hreq, hk⟩ := (yields_requiredLength h).mp hreq
      rw [hk] at hb
      have rest : Yields (do
            checkMaximum s type f count
            writeArray nested element v) known bytes k' →
          WithinMaximum s known f count ∧ ElementBytes related element v bytes ∧ k' = known := by
        intro hrest
        obtain ⟨⟨⟩, _, hcheck, hwrite⟩ := yields_bind.mp hrest
        obtain ⟨hmax, hk⟩ := (yields_checkMaximum h).mp hcheck
        rw [hk] at hwrite
        exact ⟨hmax, (yields_writeArray hnested).mp hwrite⟩
      cases required with
      | none =>
        obtain ⟨hmax, hbytes, hk'⟩ := rest hb
        exact ⟨⟨count, none, rfl, hreq, by simp, hmax, hbytes⟩, hk'⟩
      | some expected =>
        simp only at hb
        split at hb
        · simp only [yields_bind, not_yields_throw, false_and, exists_false] at hb
        · next heq =>
          obtain ⟨hmax, hbytes, hk'⟩ := rest hb
          refine ⟨⟨count, some expected, rfl, hreq, ?_, hmax, hbytes⟩, hk'⟩
          rintro _ ⟨⟩
          simpa using heq
    · rintro ⟨⟨_, required, rfl, hreq, heq, hmax, hb⟩, rfl⟩
      refine ⟨required, k', (yields_requiredLength h).mpr ⟨hreq, rfl⟩, ?_⟩
      have rest : Yields (do
          checkMaximum s type f count
          writeArray nested element v) k' bytes k' :=
        yields_bind.mpr ⟨⟨⟩, k', (yields_checkMaximum h).mpr ⟨hmax, rfl⟩,
          (yields_writeArray hnested).mpr ⟨hb, rfl⟩⟩
      cases required with
      | none => exact rest
      | some expected =>
        simp only
        rw [if_neg (by simpa using heq expected rfl)]
        exact rest

/-- What a step writes, and nothing else happens. -/
theorem yields_encodeStep {type : String} {steps : List Step} {fields : List (String × Value)}
    {locals locals' : Locals} {step : Step} {bytes : List UInt8} :
    Yields (encodeStep s nested type steps fields locals step) known (bytes, locals') k' ↔
      Writes s known related steps fields locals step.field step.op bytes locals' ∧ k' = known := by
  unfold encodeStep
  cases hop : step.op with
  | scalar c =>
    simp only [yields_bind, yields_pure, yields_fieldValue, yields_integer, yields_writeScalar,
      Prod.mk.injEq]
    constructor
    · rintro ⟨v, _, ⟨hv, rfl⟩, n, _, ⟨hn, rfl⟩, _, _, ⟨hb, rfl⟩, ⟨rfl, rfl⟩, rfl⟩
      exact ⟨.scalar hv hn hb, rfl⟩
    · rintro ⟨⟨hv, hn, hb⟩, rfl⟩
      exact ⟨_, k', ⟨hv, rfl⟩, _, k', ⟨hn, rfl⟩, _, k', ⟨hb, rfl⟩, ⟨rfl, rfl⟩, rfl⟩
  | object type' =>
    simp only [yields_bind, yields_pure, yields_fieldValue, Prod.mk.injEq]
    constructor
    · rintro ⟨v, _, ⟨hv, rfl⟩, _, _, hb, ⟨rfl, rfl⟩, rfl⟩
      obtain ⟨hbytes, rfl⟩ := (hnested _ _ _ _).mp hb
      exact ⟨.object hv hbytes, rfl⟩
    · rintro ⟨hw, rfl⟩
      cases hw with
      | object hv hb =>
        exact ⟨_, k', ⟨hv, rfl⟩, _, k', (hnested _ _ _ _).mpr ⟨hb, rfl⟩, ⟨rfl, rfl⟩, rfl⟩
  | constant c text =>
    simp only [yields_bind, yields_pure, yields_writeScalar, Prod.mk.injEq]
    constructor
    · rintro ⟨n, _, hn, _, _, ⟨hb, rfl⟩, ⟨rfl, rfl⟩, rfl⟩
      obtain ⟨hvalue, rfl⟩ := (codingEval_keeps (Schema.evaluate_keeps h text)).yields_iff.mp hn
      exact ⟨.constant (yields_codingEval.mp hvalue) hb, rfl⟩
    · rintro ⟨hw, rfl⟩
      cases hw with
      | constant hn hb =>
        exact ⟨_, k', yields_codingEval.mpr hn, _, k', ⟨hb, rfl⟩, ⟨rfl, rfl⟩, rfl⟩
  | count c array =>
    simp only [yields_bind, yields_pure, yields_writeScalar, Prod.mk.injEq]
    constructor
    · rintro ⟨_, _, ⟨hb, rfl⟩, ⟨rfl, rfl⟩, rfl⟩
      exact ⟨.count hb, rfl⟩
    · rintro ⟨hw, rfl⟩
      cases hw with
      | count hb => exact ⟨_, k', ⟨hb, rfl⟩, ⟨rfl, rfl⟩, rfl⟩
  | array element length =>
    simp only [yields_bind, yields_pure, yields_fieldValue, Prod.mk.injEq]
    constructor
    · rintro ⟨v, _, ⟨hv, rfl⟩, _, _, hb, ⟨rfl, rfl⟩, rfl⟩
      obtain ⟨⟨count, required, hc, hreq, heq, hmax, hbytes⟩, rfl⟩ :=
        (yields_encodeArray hnested h).mp hb
      exact ⟨.array hv hc hreq heq hmax hbytes, rfl⟩
    · rintro ⟨hw, rfl⟩
      cases hw with
      | array hv hc hreq heq hmax hb =>
        exact ⟨_, k', ⟨hv, rfl⟩, _, k', (yields_encodeArray hnested h).mpr
          ⟨⟨_, _, hc, hreq, heq, hmax, hb⟩, rfl⟩, ⟨rfl, rfl⟩, rfl⟩
  | sized c type' =>
    simp only [yields_bind, yields_pure, yields_fieldValue, yields_writeScalar, Prod.mk.injEq]
    constructor
    · rintro ⟨v, _, ⟨hv, rfl⟩, body, _, hb, _, _, ⟨hs, rfl⟩, ⟨rfl, rfl⟩, rfl⟩
      obtain ⟨hbody, rfl⟩ := (hnested _ _ _ _).mp hb
      exact ⟨.sized hv hbody hs, rfl⟩
    · rintro ⟨hw, rfl⟩
      cases hw with
      | sized hv hb hs =>
        exact ⟨_, k', ⟨hv, rfl⟩, _, k', (hnested _ _ _ _).mpr ⟨hb, rfl⟩, _, k', ⟨hs, rfl⟩,
          ⟨rfl, rfl⟩, rfl⟩
  | selector c object derived =>
    cases hv : fields.lookup step.field.name with
    | some v =>
      simp only [hv, yields_bind, yields_pure, yields_integer, yields_writeScalar, Prod.mk.injEq]
      constructor
      · rintro ⟨n, _, ⟨hn, rfl⟩, _, _, ⟨hb, rfl⟩, ⟨rfl, rfl⟩, rfl⟩
        exact ⟨.given hv hn hb, rfl⟩
      · rintro ⟨hw, rfl⟩
        cases hw with
        | given hv' hn hb =>
          cases hv.symm.trans hv'
          exact ⟨_, k', ⟨hn, rfl⟩, _, k', ⟨hb, rfl⟩, ⟨rfl, rfl⟩, rfl⟩
        | derived hnone => cases hv.symm.trans hnone
    | none =>
      cases derived with
      | false =>
        refine ⟨fun hb => ?_, fun hb => ?_⟩
        · simp only [hv, yields_bind, Bool.false_eq_true, ↓reduceIte, not_yields_throw, false_and,
            exists_false] at hb
        · cases hb.1 with
          | given hv' => cases hv.symm.trans hv'
      | true =>
        simp only [hv, ↓reduceIte, yields_bind, yields_pure, yields_fieldValue,
          yields_writeScalar, Prod.mk.injEq]
        constructor
        · rintro ⟨v, _, ⟨hobject, rfl⟩, n, _, hn, _, _, ⟨hb, rfl⟩, ⟨rfl, rfl⟩, rfl⟩
          obtain ⟨hderives, rfl⟩ := (yields_deriveSelector h).mp hn
          exact ⟨.derived hv hobject hderives hb, rfl⟩
        · rintro ⟨hw, rfl⟩
          cases hw with
          | given hv' => cases hv.symm.trans hv'
          | derived _ hobject hn hb =>
            exact ⟨_, k', ⟨hobject, rfl⟩, _, k', (yields_deriveSelector h).mpr ⟨hn, rfl⟩, _, k',
              ⟨hb, rfl⟩, ⟨rfl, rfl⟩, rfl⟩
  | union union tag =>
    simp only [yields_bind, yields_fieldValue]
    constructor
    · rintro ⟨v, _, ⟨hv, rfl⟩, hb⟩
      cases v with
      | null =>
        simp only [yields_pure, Prod.mk.injEq] at hb
        obtain ⟨⟨rfl, rfl⟩, rfl⟩ := hb
        exact ⟨.absent hv, rfl⟩
      | union type' v =>
        simp only [yields_bind, yields_pure, Prod.mk.injEq] at hb
        obtain ⟨_, _, hb, ⟨rfl, rfl⟩, rfl⟩ := hb
        obtain ⟨hbytes, rfl⟩ := (yields_writeMember hnested).mp hb
        exact ⟨.held hv hbytes, rfl⟩
      | _ => exact (not_yields_invalid hb).elim
    · rintro ⟨hw, rfl⟩
      cases hw with
      | absent hv =>
        refine ⟨.null, k', ⟨hv, rfl⟩, ?_⟩
        simp only [yields_pure, and_self]
      | held hv hb =>
        refine ⟨_, k', ⟨hv, rfl⟩, ?_⟩
        simp only [yields_bind, yields_pure, Prod.mk.injEq, and_true]
        exact ⟨_, k', (yields_writeMember hnested).mpr ⟨hb, rfl⟩, rfl, rfl⟩

theorem yields_encodeSteps {type : String} {steps rest : List Step}
    {tail : Option (String × Int)} {fields : List (String × Value)} {locals : Locals}
    {bytes : List UInt8} :
    Yields (encodeSteps s nested type steps tail fields locals rest) known bytes k' ↔
      WritesAll s known related steps tail fields locals rest bytes ∧ k' = known := by
  induction rest generalizing locals bytes k' with
  | nil =>
    refine yields_pure.trans (and_congr_left fun _ => ⟨?_, fun hw => ?_⟩)
    · rintro rfl
      exact .done
    · cases hw
      rfl
  | cons step rest ih =>
    unfold encodeSteps
    rw [yields_bind]
    constructor
    · rintro ⟨⟨first, locals'⟩, _, hfirst, hb⟩
      obtain ⟨hfirst, hk⟩ := (yields_encodeStep hnested h).mp hfirst
      rw [hk] at hb
      cases hend : endsAfter tail step.field.name locals' with
      | true =>
        simp only [hend, ↓reduceIte, yields_pure] at hb
        obtain ⟨rfl, rfl⟩ := hb
        exact ⟨.last hfirst hend, rfl⟩
      | false =>
        simp only [hend, Bool.false_eq_true, ↓reduceIte, yields_bind, yields_pure] at hb
        obtain ⟨others, _, hothers, rfl, rfl⟩ := hb
        obtain ⟨hothers, hk'⟩ := ih.mp hothers
        exact ⟨.more hfirst hend hothers, hk'⟩
    · rintro ⟨hw, rfl⟩
      cases hw with
      | last hfirst hend =>
        refine ⟨(bytes, _), k', (yields_encodeStep hnested h).mpr ⟨hfirst, rfl⟩, ?_⟩
        simp only [hend, ↓reduceIte, yields_pure, and_self]
      | more hfirst hend hrest =>
        refine ⟨(_, _), k', (yields_encodeStep hnested h).mpr ⟨hfirst, rfl⟩, ?_⟩
        simp only [hend, Bool.false_eq_true, ↓reduceIte, yields_bind, yields_pure]
        exact ⟨_, k', ih.mpr ⟨hrest, rfl⟩, rfl, rfl⟩

end Nested

/-- The plan of a structure, in a registry in which all constants have their values. -/
structure Plan (s : Schema) (known : Known) (type : String) (steps : List Step)
    (tail : Option (String × Int)) : Prop where
  layout : Yields (layout s type) known steps known
  tail : Yields (tailEnd s type) known tail known

namespace Plan

variable {s : Schema} {known : Known} {type : String} {steps steps' : List Step}
  {tail tail' : Option (String × Int)}

/-- A structure has one plan. -/
theorem unique (h : Plan s known type steps tail) (h' : Plan s known type steps' tail') :
    steps = steps' ∧ tail = tail' :=
  ⟨(h.layout.unique h'.layout).1, (h.tail.unique h'.tail).1⟩

end Plan

/-- With so many levels a structure is written in these bytes. -/
def Encodes (s : Schema) (known : Known) (levels : Nat) (type : String) (v : Value)
    (bytes : List UInt8) : Prop :=
  Yields (encodeAt s levels type v) known bytes known

section Levels

variable {s : Schema} {known : Known} (h : s.Remembers (· = known))

include h

theorem yields_encodeRecord {nested : String → Value → Coding (List UInt8)}
    {related : String → Value → List UInt8 → Prop}
    (hnested : ∀ type v bytes k', Yields (nested type v) known bytes k' ↔
      related type v bytes ∧ k' = known) {type : String} {v : Value} {bytes : List UInt8}
    {k' : Known} :
    Yields (encodeRecord s nested type v) known bytes k' ↔
      (∃ fields steps tail, v = .struct fields ∧ Plan s known type steps tail ∧
        WritesAll s known related steps tail fields [] steps bytes) ∧ k' = known := by
  unfold encodeRecord
  cases v with
  | struct fields =>
    simp only [Value.fields?, yields_bind, Value.struct.injEq]
    constructor
    · rintro ⟨steps, _, hlayout, tail, _, htail, hb⟩
      obtain ⟨hlayout, rfl⟩ := (codingEval_keeps (layout_keeps h type)).yields_iff.mp hlayout
      obtain ⟨htail', hk⟩ := (tailEnd_keeps h type).yields_iff.mp htail
      rw [hk] at hb
      obtain ⟨hw, hk'⟩ := (yields_encodeSteps hnested h).mp hb
      exact ⟨⟨fields, steps, tail, rfl, ⟨yields_codingEval.mp hlayout, htail'⟩, hw⟩, hk'⟩
    · rintro ⟨⟨_, steps, tail, rfl, hplan, hw⟩, rfl⟩
      exact ⟨steps, k', yields_codingEval.mpr hplan.layout, tail, k', hplan.tail,
        (yields_encodeSteps hnested h).mpr ⟨hw, rfl⟩⟩
  | _ => simp only [Value.fields?, not_yields_invalid, reduceCtorEq, false_and, exists_false]

theorem yields_encodeAt {levels : Nat} {type : String} {v : Value} {bytes : List UInt8}
    {k' : Known} :
    Yields (encodeAt s levels type v) known bytes k' ↔
      Encodes s known levels type v bytes ∧ k' = known := by
  unfold Encodes
  induction levels generalizing type v bytes k' with
  | zero =>
    unfold encodeAt
    simp only [not_yields_throw, false_and]
  | succ levels ih =>
    unfold encodeAt
    rw [yields_encodeRecord h fun _ _ _ _ => ih, yields_encodeRecord h fun _ _ _ _ => ih]
    simp only [and_true]

/-- A structure is written by its plan. -/
theorem encodes_succ {levels : Nat} {type : String} {v : Value} {bytes : List UInt8} :
    Encodes s known (levels + 1) type v bytes ↔
      ∃ fields steps tail, v = .struct fields ∧ Plan s known type steps tail ∧
        WritesAll s known (Encodes s known levels) steps tail fields [] steps bytes := by
  unfold Encodes
  rw [encodeAt, yields_encodeRecord h fun _ _ _ _ => yields_encodeAt h]
  simp only [and_true]
  rfl

end Levels

end WireTables.Wire
