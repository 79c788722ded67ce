import WireTables.Proofs.Schema.Neutral
import WireTables.Wire.Decode

/-!
# Encoding without a language

Layouts, encoding and decoding read a schema through its neutral part: the layout of a structure is
the same but for the target types that its fields carry along (`layout_neutral`), and values are
written and read in the same way, failures included (`encode_neutral`, `decode_neutral`).
-/

namespace WireTables.Wire

open Schema

/-- The step with a neutral field. -/
def Step.neutral (st : Step) : Step :=
  { st with field := st.field.neutral }

namespace Step

variable (st : Step)

@[simp] theorem field_neutral : st.neutral.field = st.field.neutral := rfl
@[simp] theorem op_neutral : st.neutral.op = st.op := rfl
@[simp] theorem isData_neutral : st.neutral.isData = st.isData := rfl

end Step

variable (s : Schema)

/-! ## Layouts -/

section Layout

@[simp] theorem objectName?_neutral (type : String) :
    objectName? s.neutral type = objectName? s type := by
  simp only [objectName?, recordOf?_neutral, Option.map_map]
  rfl

@[simp] theorem scalarOf_neutral (owner : String) (f : Field) :
    scalarOf s.neutral owner f.neutral = scalarOf s owner f := by
  simp only [scalarOf, scalar?_neutral, Field.typeName_neutral, Field.name_neutral]

@[simp] theorem partnerOf_neutral (owner : String) (f : Field) :
    partnerOf owner f.neutral = partnerOf owner f :=
  rfl

@[simp] theorem elementOf_neutral (owner : String) (f : Field) :
    elementOf s.neutral owner f.neutral = elementOf s owner f := by
  simp only [elementOf, objectName?_neutral, scalarOf_neutral, Field.typeName_neutral]

@[simp] theorem fixedLength_neutral (owner : String) (f : Field) :
    fixedLength s.neutral owner f.neutral = fixedLength s owner f := by
  simp only [fixedLength, evaluate_neutral, Field.arraySize_neutral, Field.name_neutral]

@[simp] theorem sizedStep_neutral (owner : String) (fields : List Field) (f : Field)
    (object : String) : sizedStep s.neutral owner (fields.map Field.neutral) f.neutral object =
      sizedStep s owner fields f object := by
  unfold sizedStep
  rw [partnerOf_neutral]
  refine bind_congr fun tag => ?_
  have found : (fields.map Field.neutral).find? (·.name == tag) =
      (fields.find? (·.name == tag)).map Field.neutral := List.find?_map
  rw [found]
  cases fields.find? (·.name == tag) with
  | none => rfl
  | some tag => simp only [Option.map_some, scalarOf_neutral]

@[simp] theorem selectsObject_neutral (fields : List Field) (f : Field) :
    selectsObject (fields.map Field.neutral) f.neutral = selectsObject fields f :=
  List.any_map

@[simp] theorem stepOf_neutral (owner : String) (fields : List Field) (f : Field) :
    stepOf s.neutral owner (fields.map Field.neutral) f.neutral = stepOf s owner fields f := by
  simp only [stepOf, objectName?_neutral, scalarOf_neutral, partnerOf_neutral, elementOf_neutral,
    fixedLength_neutral, sizedStep_neutral, selectsObject_neutral, Field.typeName_neutral,
    Field.marshal_neutral, Field.domain_neutral, Field.name_neutral]

/-- A filtered list whose elements are changed first. -/
theorem filterMapM_map {α β γ δ : Type} {g : α → β} {h : γ → δ} {f : α → Eval (Option γ)}
    {f' : β → Eval (Option δ)} (hf : ∀ x, f' (g x) = Option.map h <$> f x) (xs : List α) :
    (xs.map g).filterMapM f' = List.map h <$> xs.filterMapM f := by
  induction xs with
  | nil => rfl
  | cons x xs ih =>
    rw [List.map_cons, List.filterMapM_cons, List.filterMapM_cons, hf, ih, bind_map_left, map_bind]
    refine bind_congr fun y => ?_
    cases y with
    | none => rfl
    | some y => simp only [Option.map_some, bind_map_left, map_bind, map_pure, List.map_cons]

theorem layout_neutral (name : String) :
    layout s.neutral name = List.map Step.neutral <$> layout s name := by
  unfold layout
  rw [allFields_neutral, Eval.ofExcept_map, bind_map_left, map_bind]
  refine bind_congr fun fields => filterMapM_map (fun f => ?_) fields
  rw [stepOf_neutral, map_bind]
  refine bind_congr fun step => ?_
  cases step <;> rfl

end Layout

/-! ## Sizes of union members -/

section Members

@[simp] theorem memberBytes_neutral (m : UnionMember) (failure : Error) :
    memberBytes s.neutral m.neutral failure = memberBytes s m failure := by
  simp only [memberBytes, evaluate_neutral, wireSize_neutral, UnionMember.arraySize_neutral,
    UnionMember.typeName_neutral]

@[simp] theorem firstSelected_neutral (union : String) (selector : Int) (ms : List UnionMember) :
    firstSelected s.neutral union selector (ms.map UnionMember.neutral) =
      firstSelected s union selector ms := by
  induction ms with
  | nil => rfl
  | cons m ms ih =>
    simp only [List.map_cons, firstSelected, constantValue_neutral, memberBytes_neutral, ih,
      UnionMember.selector_neutral, UnionMember.name_neutral]

@[simp] theorem selectedLength_neutral (union : String) (selector : Int) :
    selectedLength s.neutral union selector = selectedLength s union selector := by
  unfold selectedLength
  rw [require_neutral, Eval.ofExcept_map, bind_map_left]
  refine bind_congr fun t => ?_
  rw [TypeEntry.union?_neutral]
  cases t.union? with
  | none => rfl
  | some u => exact firstSelected_neutral s union selector u.members

end Members

/-! ## Encoding -/

section Encoding

@[simp] theorem unionType_neutral (union : String) :
    unionType s.neutral union = UnionType.neutral <$> unionType s union := by
  unfold unionType
  rw [lookup?_neutral]
  cases s.lookup? union with
  | none => rfl
  | some t =>
    simp only [Option.map_some, Option.bind_some, TypeEntry.union?_neutral]
    cases t.union? <;> rfl

@[simp] theorem recordType_neutral (type : String) :
    recordType s.neutral type = Record.neutral <$> recordType s type := by
  unfold recordType
  rw [recordOf?_neutral]
  cases s.recordOf? type <;> rfl

@[simp] theorem tailEnd_neutral (type : String) : tailEnd s.neutral type = tailEnd s type := by
  simp only [tailEnd, recordType_neutral, constantValue_neutral, bind_map_left]
  rfl

@[simp] theorem selectedBytes_neutral (union : String) (selector : Int) :
    selectedBytes s.neutral union selector = selectedBytes s union selector := by
  simp only [selectedBytes, selectedLength_neutral]

@[simp] theorem checkMaximum_neutral (type : String) (f : Field) (count : Nat) :
    checkMaximum s.neutral type f.neutral count = checkMaximum s type f count := by
  simp only [checkMaximum, evaluate_neutral, Field.domain_neutral, Field.name_neutral]

@[simp] theorem requiredLength_neutral (type : String) (locals : Locals) (length : ArrayLength) :
    requiredLength s.neutral type locals length = requiredLength s type locals length := by
  cases length <;> simp only [requiredLength, selectedBytes_neutral]

@[simp] theorem writeMember_neutral (nested : String → Value → Coding (List UInt8)) (type : String)
    (v : Value) : writeMember s.neutral nested type v = writeMember s nested type v := by
  simp only [writeMember, isRecord_neutral, scalar?_neutral]

@[simp] theorem deriveSelector_neutral (steps : List Step) (object : String) (v : Value) :
    deriveSelector s.neutral (steps.map Step.neutral) object v =
      deriveSelector s steps object v := by
  have found : (steps.map Step.neutral).find? (·.field.name == object) =
      (steps.find? (·.field.name == object)).map Step.neutral := List.find?_map
  unfold deriveSelector
  rw [found]
  cases steps.find? (·.field.name == object) with
  | none => rfl
  | some step =>
    simp only [Option.map_some, unionType_neutral, bind_map_left, Step.field_neutral,
      Field.typeName_neutral, constantValue_neutral]
    refine bind_congr fun u => ?_
    cases v with
    | union type held =>
      have chosen : u.neutral.members.find? (·.typeName == type) =
          (u.members.find? (·.typeName == type)).map UnionMember.neutral := List.find?_map
      dsimp only
      rw [chosen]
      cases u.members.find? (·.typeName == type) <;> rfl
    | null =>
      have null : (u.neutral.nullMember.bind fun i => u.neutral.members[i]?) =
          (u.nullMember.bind fun i => u.members[i]?).map UnionMember.neutral := by
        unfold UnionType.neutral
        simp only [List.getElem?_map, Option.map_bind]
        rfl
      dsimp only
      rw [null]
      cases u.nullMember.bind fun i => u.members[i]? <;> rfl
    | number | bool | bytes | struct | list => rfl

@[simp] theorem encodeArray_neutral (nested : String → Value → Coding (List UInt8)) (type : String)
    (f : Field) (locals : Locals) (element : Element) (length : ArrayLength) (v : Value) :
    encodeArray s.neutral nested type f.neutral locals element length v =
      encodeArray s nested type f locals element length v := by
  simp only [encodeArray, requiredLength_neutral, checkMaximum_neutral, Field.name_neutral]

@[simp] theorem encodeStep_neutral (nested : String → Value → Coding (List UInt8)) (type : String)
    (steps : List Step) (fields : List (String × Value)) (locals : Locals) (st : Step) :
    encodeStep s.neutral nested type (steps.map Step.neutral) fields locals st.neutral =
      encodeStep s nested type steps fields locals st := by
  simp only [encodeStep, evaluate_neutral, encodeArray_neutral, deriveSelector_neutral,
    writeMember_neutral, Step.field_neutral, Step.op_neutral, Field.name_neutral]

@[simp] theorem encodeSteps_neutral (nested : String → Value → Coding (List UInt8)) (type : String)
    (steps : List Step) (tail : Option (String × Int)) (fields : List (String × Value))
    (locals : Locals) (rest : List Step) :
    encodeSteps s.neutral nested type (steps.map Step.neutral) tail fields locals
        (rest.map Step.neutral) =
      encodeSteps s nested type steps tail fields locals rest := by
  induction rest generalizing locals with
  | nil => rfl
  | cons st rest ih =>
    simp only [List.map_cons, encodeSteps, encodeStep_neutral, ih, Step.field_neutral,
      Field.name_neutral]

theorem Coding.eval_map {α β : Type} (g : α → β) (m : Eval α) :
    Coding.eval (g <$> m) = g <$> Coding.eval m := by
  funext known
  have run : ∀ {γ : Type} (m : Eval γ), Id.run ((Coding.eval m).run known) =
      ((Id.run (m.run known)).1.mapError Fault.schema, (Id.run (m.run known)).2) := fun _ => rfl
  show Id.run ((Coding.eval (g <$> m)).run known) = Id.run ((g <$> Coding.eval m).run known)
  rw [run, run_map, run_map, run]
  cases (Id.run (m.run known)).1 <;> rfl

@[simp] theorem encodeRecord_neutral (nested : String → Value → Coding (List UInt8))
    (type : String) (v : Value) :
    encodeRecord s.neutral nested type v = encodeRecord s nested type v := by
  unfold encodeRecord
  rw [layout_neutral, Coding.eval_map, tailEnd_neutral]
  simp only [bind_map_left, encodeSteps_neutral]

theorem encodeAt_neutral (levels : Nat) : encodeAt s.neutral levels = encodeAt s levels := by
  induction levels with
  | zero => rfl
  | succ levels ih =>
    funext type v
    simp only [encodeAt, ih, encodeRecord_neutral]

theorem encode_neutral (type : String) (v : Value) : encode s.neutral type v = encode s type v := by
  unfold encode
  rw [encodeAt_neutral]

end Encoding

/-! ## Decoding -/

section Decoding

theorem Reading.coding_map {α β : Type} (g : α → β) (m : Coding α) :
    Reading.coding (g <$> m) = g <$> Reading.coding m := by
  funext r
  have run : ∀ {γ : Type} (m : Coding γ), Id.run ((Reading.coding m).run r) =
      ((Id.run (m.run r.known)).1, { r with known := (Id.run (m.run r.known)).2 }) := fun _ => rfl
  show Id.run ((Reading.coding (g <$> m)).run r) = Id.run ((g <$> Reading.coding m).run r)
  rw [run, run_map, run_map, run]

theorem Reading.eval_map {α β : Type} (g : α → β) (m : Eval α) :
    Reading.eval (g <$> m) = g <$> Reading.eval m := by
  unfold Reading.eval
  rw [Coding.eval_map, Reading.coding_map]

variable (nested : String → Reading Value)

@[simp] theorem readMember_neutral (u : UnionType) (union : String) (selector : Int)
    (ms : List (UnionMember × Nat)) :
    readMember s.neutral nested u.neutral union selector
        (ms.map (Prod.map UnionMember.neutral id)) =
      readMember s nested u union selector ms := by
  induction ms with
  | nil => rfl
  | cons m ms ih =>
    obtain ⟨m, i⟩ := m
    simp only [List.map_cons, Prod.map_apply, readMember, constantValue_neutral, isRecord_neutral,
      scalar?_neutral, ih, UnionMember.selector_neutral, UnionMember.typeName_neutral, id]
    rfl

@[simp] theorem readUnion_neutral (union : String) (selector : Int) :
    readUnion s.neutral nested union selector = readUnion s nested union selector := by
  unfold readUnion
  rw [unionType_neutral, Reading.coding_map, bind_map_left]
  refine bind_congr fun u => ?_
  have members : u.neutral.members.zipIdx =
      u.members.zipIdx.map (Prod.map UnionMember.neutral id) := List.zipIdx_map
  rw [members, readMember_neutral]

@[simp] theorem decodedLength_neutral (type : String) (f : Field) (locals : Locals)
    (length : ArrayLength) : decodedLength s.neutral type f.neutral locals length =
      decodedLength s type f locals length := by
  cases length <;>
    simp only [decodedLength, checkMaximum_neutral, requiredLength_neutral]

@[simp] theorem decodeStep_neutral (type : String) (p : Partial) (st : Step) :
    decodeStep s.neutral nested type p st.neutral = decodeStep s nested type p st := by
  simp only [decodeStep, evaluate_neutral, decodedLength_neutral, readUnion_neutral,
    Step.field_neutral, Step.op_neutral, Step.isData_neutral, Field.name_neutral]
  rfl

@[simp] theorem decodeSteps_neutral (type : String) (tail : Option (String × Int)) (p : Partial)
    (steps : List Step) : decodeSteps s.neutral nested type tail p (steps.map Step.neutral) =
      decodeSteps s nested type tail p steps := by
  induction steps generalizing p with
  | nil => rfl
  | cons st steps ih =>
    simp only [List.map_cons, decodeSteps, decodeStep_neutral, ih, Step.field_neutral,
      Field.name_neutral]

@[simp] theorem decodeRecord_neutral (type : String) :
    decodeRecord s.neutral nested type = decodeRecord s nested type := by
  unfold decodeRecord
  rw [layout_neutral, Reading.eval_map, tailEnd_neutral]
  simp only [bind_map_left, decodeSteps_neutral]

theorem decodeAt_neutral (levels : Nat) : decodeAt s.neutral levels = decodeAt s levels := by
  induction levels with
  | zero => rfl
  | succ levels ih =>
    funext type
    simp only [decodeAt, ih, decodeRecord_neutral]

theorem decode_neutral (type : String) (bytes : List UInt8) :
    decode s.neutral type bytes = decode s type bytes := by
  have room : levels s.neutral bytes.length = levels s bytes.length := by
    simp only [levels, Schema.neutral, List.length_map]
  unfold decode decodeExtent
  rw [room, decodeAt_neutral]

end Decoding

end WireTables.Wire
