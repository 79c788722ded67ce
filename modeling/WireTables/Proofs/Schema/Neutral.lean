import WireTables.Proofs.Calculation
import WireTables.Schema.Evaluate

/-!
# What is written for a language

Types, constants, fields and union members carry names and texts in a target language beside what
the tables say of them. The neutral schema is the schema with all of these left blank, and without
the mark of the language that it was adapted for. Types are found in it by the same names, names
lead to the same types, and every question has the same answer (`answer_neutral`): nothing that is
looked up or calculated depends on a target language.

Two schemas with the same neutral schema differ in what is written for a language only.
-/

namespace WireTables

/-- The field without its type in a target language. -/
def Field.neutral (f : Field) : Field :=
  { f with targetType := "" }

/-- The union member without its type in a target language. -/
def UnionMember.neutral (m : UnionMember) : UnionMember :=
  { m with targetType := "" }

/-- The structure with neutral fields. -/
def Record.neutral (r : Record) : Record :=
  { r with fields := r.fields.map Field.neutral }

/-- The union with neutral members. -/
def UnionType.neutral (u : UnionType) : UnionType :=
  { u with members := u.members.map UnionMember.neutral }

/-- What a type is, with neutral fields or members. -/
def TypeKind.neutral : TypeKind → TypeKind
  | .record r => .record r.neutral
  | .union u => .union u.neutral
  | kind => kind

/-- The type without its name in a target language. -/
def TypeEntry.neutral (t : TypeEntry) : TypeEntry :=
  { t with name := "", kind := t.kind.neutral }

/-- The constant without names and value in a target language. -/
def Constant.neutral (c : Constant) : Constant :=
  { c with name := "", oldName := none, targetExpr := none, inlined := [] }

/-- The schema without anything written for a language. -/
def Schema.neutral (s : Schema) : Schema :=
  { s with
    types := s.types.map TypeEntry.neutral
    constants := s.constants.map Constant.neutral
    adaptedFor := none }

namespace Field

variable (f : Field)

@[simp] theorem name_neutral : f.neutral.name = f.name := rfl
@[simp] theorem typeName_neutral : f.neutral.typeName = f.typeName := rfl
@[simp] theorem marshal_neutral : f.neutral.marshal = f.marshal := rfl
@[simp] theorem partner_neutral : f.neutral.partner = f.partner := rfl
@[simp] theorem domain_neutral : f.neutral.domain = f.domain := rfl
@[simp] theorem arraySize_neutral : f.neutral.arraySize = f.arraySize := rfl

end Field

namespace UnionMember

variable (m : UnionMember)

@[simp] theorem name_neutral : m.neutral.name = m.name := rfl
@[simp] theorem typeName_neutral : m.neutral.typeName = m.typeName := rfl
@[simp] theorem selector_neutral : m.neutral.selector = m.selector := rfl
@[simp] theorem arraySize_neutral : m.neutral.arraySize = m.arraySize := rfl

end UnionMember

namespace TypeEntry

variable (t : TypeEntry)

@[simp] theorem specName_neutral : t.neutral.specName = t.specName := rfl
@[simp] theorem kind_neutral : t.neutral.kind = t.kind.neutral := rfl

@[simp] theorem record?_neutral : t.neutral.record? = t.record?.map Record.neutral := by
  unfold record?
  rw [kind_neutral]
  cases t.kind <;> rfl

@[simp] theorem union?_neutral : t.neutral.union? = t.union?.map UnionType.neutral := by
  unfold union?
  rw [kind_neutral]
  cases t.kind <;> rfl

end TypeEntry

@[simp] theorem UnionType.present_neutral (u : UnionType) :
    u.neutral.present = u.present.map UnionMember.neutral := by
  simp only [present, neutral, List.zipIdx_map, List.filter_map, List.map_map]
  rfl

theorem Eval.ofExcept_map {α β : Type} (f : α → β) (r : Except Error α) :
    Eval.ofExcept (r.map f) = f <$> Eval.ofExcept r := by
  cases r <;> rfl

namespace Schema

variable (s : Schema)

@[simp] theorem lookup?_neutral (name : String) :
    s.neutral.lookup? name = (s.lookup? name).map TypeEntry.neutral := by
  simp only [lookup?, neutral, List.find?_map]
  rfl

@[simp] theorem require_neutral (name referrer : String) :
    s.neutral.require name referrer = (s.require name referrer).map TypeEntry.neutral := by
  unfold require
  rw [lookup?_neutral]
  cases s.lookup? name <;> rfl

theorem followAliases_neutral (name : String) (hops : Nat) (t : TypeEntry) :
    s.neutral.followAliases name hops t.neutral =
      (s.followAliases name hops t).map TypeEntry.neutral := by
  induction hops generalizing t with
  | zero => rfl
  | succ hops ih =>
    unfold followAliases
    rw [TypeEntry.kind_neutral]
    cases t.kind with
    | aliasOf a =>
      simp only [TypeKind.neutral, require_neutral, TypeEntry.specName_neutral]
      cases s.require a.base t.specName with
      | error e => rfl
      | ok base => exact ih base
    | value | enum | bitfield | record | union => rfl

@[simp] theorem target_neutral (name : String) :
    s.neutral.target name = (s.target name).map TypeEntry.neutral := by
  unfold target
  generalize maxDepth = hops
  rw [require_neutral]
  cases s.require name "typedef resolution" with
  | error e => rfl
  | ok t => exact s.followAliases_neutral name hops t

theorem followScalar?_neutral (hops : Nat) (t : TypeEntry) :
    s.neutral.followScalar? hops t.neutral =
      (s.followScalar? hops t).map (Prod.map TypeEntry.neutral id) := by
  have next : ∀ {hops : Nat} {name : String}, (∀ t : TypeEntry,
      s.neutral.followScalar? hops t.neutral =
        (s.followScalar? hops t).map (Prod.map TypeEntry.neutral id)) →
      (s.neutral.lookup? name >>= s.neutral.followScalar? hops) =
        (s.lookup? name >>= s.followScalar? hops).map (Prod.map TypeEntry.neutral id) := by
    intro hops name ih
    rw [lookup?_neutral]
    cases s.lookup? name with
    | none => rfl
    | some t => exact ih t
  induction hops generalizing t with
  | zero => rfl
  | succ hops ih =>
    unfold followScalar?
    rw [TypeEntry.kind_neutral]
    cases t.kind with
    | value | record | union => rfl
    | aliasOf | enum | bitfield => exact next ih

theorem bind_followScalar?_neutral (hops : Nat) (name : String) :
    ((s.neutral.lookup? name).bind (s.neutral.followScalar? hops)).map (·.2) =
      ((s.lookup? name).bind (s.followScalar? hops)).map (·.2) := by
  rw [lookup?_neutral]
  cases s.lookup? name with
  | none => rfl
  | some t =>
    rw [Option.map_some, Option.bind_some, followScalar?_neutral, Option.map_map, Option.bind_some]
    rfl

@[simp] theorem scalar?_neutral (name : String) : s.neutral.scalar? name = s.scalar? name :=
  s.bind_followScalar?_neutral maxDepth name

@[simp] theorem recordOf?_neutral (name : String) : s.neutral.recordOf? name =
    (s.recordOf? name).map (Prod.map TypeEntry.neutral Record.neutral) := by
  unfold recordOf?
  rw [target_neutral]
  cases s.target name with
  | error e => rfl
  | ok t =>
    simp only [Except.map, TypeEntry.record?_neutral, Option.map_map]
    rfl

@[simp] theorem isRecord_neutral (name : String) : s.neutral.isRecord name = s.isRecord name := by
  simp only [isRecord, recordOf?_neutral, Option.isSome_map]

theorem collectFields_neutral (owner : String) (room : Nat) (name : String) :
    s.neutral.collectFields owner room name =
      (s.collectFields owner room name).map (List.map Field.neutral) := by
  induction room generalizing name with
  | zero => rfl
  | succ room ih =>
    unfold collectFields
    rw [require_neutral, target_neutral]
    cases s.require name owner with
    | error e => rfl
    | ok first =>
      cases s.target name with
      | error e => rfl
      | ok t =>
        simp only [Except.map, bind, Except.bind, TypeEntry.record?_neutral]
        cases t.record? with
        | none => rfl
        | some r =>
          simp only [Option.map_some, Record.neutral]
          cases r.base with
          | none => rfl
          | some base =>
            dsimp only
            rw [ih]
            cases s.collectFields owner room base with
            | error e => rfl
            | ok fields =>
              simp only [Except.map, pure, Except.pure, List.map_append]

@[simp] theorem allFields_neutral (name : String) :
    s.neutral.allFields name = (s.allFields name).map (List.map Field.neutral) :=
  s.collectFields_neutral name _ name

@[simp] theorem resolveConstant?_neutral (name : String) :
    s.neutral.resolveConstant? name = s.resolveConstant? name := by
  have number : ∀ name, s.neutral.constantNumber? name = s.constantNumber? name := by
    intro name
    simp only [constantNumber?, neutral, Array.findIdx?_map]
    rfl
  simp only [resolveConstant?, number]
  rfl

theorem constantStep_neutral (ask : Query → Eval Int) (name : String) (depth : Nat) :
    s.neutral.constantStep ask name depth = s.constantStep ask name depth := by
  unfold constantStep
  rw [resolveConstant?_neutral]
  cases s.resolveConstant? name with
  | none => rfl
  | some number =>
    refine bind_congr fun known => ?_
    have found : s.neutral.constants[number]? = s.constants[number]?.map Constant.neutral :=
      Array.getElem?_map
    rw [found]
    cases known with
    | some value => rfl
    | none => cases s.constants[number]? <;> rfl

theorem fieldSizeWith_neutral (ask : Query → Eval Int) (owner : String) (depth : Nat) (f : Field) :
    fieldSizeWith ask owner depth f.neutral = fieldSizeWith ask owner depth f :=
  rfl

theorem memberSizeWith_neutral (ask : Query → Eval Int) (owner : String) (depth : Nat)
    (m : UnionMember) :
    memberSizeWith ask owner depth m.neutral = memberSizeWith ask owner depth m :=
  rfl

theorem sizeStep_neutral (ask : Query → Eval Int) (name : String) (depth : Nat) :
    s.neutral.sizeStep ask name depth = s.sizeStep ask name depth := by
  unfold sizeStep
  by_cases hd : maxDepth < depth
  · rw [if_pos hd, if_pos hd, throw_bind, throw_bind]
  rw [if_neg hd, if_neg hd, require_neutral, Eval.ofExcept_map, bind_map_left]
  refine bind_congr fun t => ?_
  rw [TypeEntry.kind_neutral]
  cases t.kind with
  | value | aliasOf | enum | bitfield => rfl
  | record r =>
    simp only [TypeKind.neutral]
    rw [allFields_neutral, Eval.ofExcept_map, bind_map_left]
    refine bind_congr fun fields => ?_
    simp only [List.foldlM_map, fieldSizeWith_neutral]
  | union u =>
    simp only [TypeKind.neutral, UnionType.present_neutral, List.foldlM_map,
      memberSizeWith_neutral]

@[simp] theorem answer_neutral (nesting : Nat) : s.neutral.answer nesting = s.answer nesting := by
  induction nesting with
  | zero => rfl
  | succ nesting ih =>
    funext q
    show s.neutral.answerStep (s.neutral.answer nesting) q = s.answerStep (s.answer nesting) q
    rw [ih]
    cases q with
    | constant name depth => exact s.constantStep_neutral _ name depth
    | size type depth => exact s.sizeStep_neutral _ type depth

@[simp] theorem ask_neutral : s.neutral.ask = s.ask := by
  have room : s.neutral.nesting = s.nesting := by
    simp only [nesting, neutral, List.length_map]
  funext q
  unfold ask
  rw [room, answer_neutral]

@[simp] theorem evaluate_neutral (text : String) : s.neutral.evaluate text = s.evaluate text := by
  simp only [evaluate, ask_neutral]

@[simp] theorem constantValue_neutral (name : String) :
    s.neutral.constantValue name = s.constantValue name := by
  simp only [constantValue, ask_neutral]

@[simp] theorem wireSize_neutral (name : String) : s.neutral.wireSize name = s.wireSize name := by
  simp only [wireSize, ask_neutral]

end Schema

end WireTables
