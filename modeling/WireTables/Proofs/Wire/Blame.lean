import WireTables.Proofs.Calculation
import WireTables.Wire.Decode

/-!
# Whom a failure blames

A failure names the structure whose fields were being worked on. Apart from these names, the layout
of a structure and all that follows it only depend on its fields: two types with the same fields are
written and read alike, and they fail alike, up to the name of the type that is blamed
(`agree_decodeSteps`, `agree_encodeSteps`).
-/

namespace WireTables

/-- The failure that blames another type, where one is blamed. -/
def Error.blame (f : String → String) : Error → Error
  | .inconsistent type fault => .inconsistent (f type) fault
  | .unknownType name referrer => .unknownType name (f referrer)
  | e => e

namespace Wire

/-- The fault that blames another type, where one is blamed. -/
def ValueFault.blame (f : String → String) : ValueFault → ValueFault
  | .notStructure type => .notStructure (f type)
  | .notArray type field => .notArray (f type) field
  | .notUnion type field => .notUnion (f type) field
  | .notInteger type field v => .notInteger (f type) field v
  | .tooMany type field count maximum => .tooMany (f type) field count maximum
  | .notConstant type field v text => .notConstant (f type) field v text
  | .negativeCount type field => .negativeCount (f type) field
  | fault => fault

/-- The fault that blames another type, where one is blamed. -/
def LengthFault.blame (f : String → String) : LengthFault → LengthFault
  | .trailing type count => .trailing (f type) count
  | .elementCount type field found expected => .elementCount (f type) field found expected
  | .announced type field size => .announced (f type) field size
  | .partlyUsed type field used size => .partlyUsed (f type) field used size
  | fault => fault

/-- The failure that blames another type, where one is blamed. -/
def Fault.blame (f : String → String) : Fault → Fault
  | .value fault => .value (fault.blame f)
  | .missingField type field => .missingField (f type) field
  | .length fault => .length (fault.blame f)
  | .schema e => .schema (e.blame f)
  | .regionOverflow type field => .regionOverflow (f type) field
  | fault => fault

end Wire

section Agree

variable {ε ε' σ α β : Type} {g : ε → ε'}

/-- The calculations leave the same state and have the same outcome, failures seen through `g`. -/
def AgreeUpTo (g : ε → ε') (m m' : ExceptT ε (StateM σ) α) : Prop :=
  ∀ s, (Id.run (m.run s)).1.mapError g = (Id.run (m'.run s)).1.mapError g ∧
    (Id.run (m.run s)).2 = (Id.run (m'.run s)).2

namespace AgreeUpTo

theorem refl (m : ExceptT ε (StateM σ) α) : AgreeUpTo g m m :=
  fun _ => ⟨rfl, rfl⟩

theorem bind {m m' : ExceptT ε (StateM σ) α} {k k' : α → ExceptT ε (StateM σ) β}
    (h : AgreeUpTo g m m') (hk : ∀ a, AgreeUpTo g (k a) (k' a)) :
    AgreeUpTo g (m >>= k) (m' >>= k') := by
  intro s
  obtain ⟨hresult, hstate⟩ := h s
  rw [run_bind, run_bind]
  revert hresult hstate
  rcases Id.run (m.run s) with ⟨r, s₁⟩
  rcases Id.run (m'.run s) with ⟨r', s₁'⟩
  rintro hresult rfl
  cases r with
  | error e =>
    cases r' with
    | error e' => exact ⟨congrArg Except.error (Except.error.inj hresult), rfl⟩
    | ok a' => cases hresult
  | ok a =>
    cases r' with
    | error e' => cases hresult
    | ok a' =>
      cases hresult
      exact hk a s₁

/-- The same calculation first. -/
theorem after {m : ExceptT ε (StateM σ) α} {k k' : α → ExceptT ε (StateM σ) β}
    (hk : ∀ a, AgreeUpTo g (k a) (k' a)) : AgreeUpTo g (m >>= k) (m >>= k') :=
  (refl m).bind hk

theorem throw {e e' : ε} (h : g e = g e') :
    AgreeUpTo g (MonadExcept.throw e : ExceptT ε (StateM σ) α) (MonadExcept.throw e') :=
  fun _ => ⟨congrArg Except.error h, rfl⟩

/-- What would come after a failure does not matter. -/
theorem throw_bind {e e' : ε} {k k' : α → ExceptT ε (StateM σ) β} (h : g e = g e') :
    AgreeUpTo g (MonadExcept.throw e >>= k) (MonadExcept.throw e' >>= k') :=
  fun _ => ⟨congrArg Except.error h, rfl⟩

theorem filterMapM {f f' : α → ExceptT ε (StateM σ) (Option β)}
    (h : ∀ x, AgreeUpTo g (f x) (f' x)) :
    ∀ xs : List α, AgreeUpTo g (xs.filterMapM f) (xs.filterMapM f')
  | [] => refl _
  | x :: xs => by
    rw [List.filterMapM_cons, List.filterMapM_cons]
    refine (h x).bind fun y => ?_
    cases y with
    | none => exact filterMapM h xs
    | some b => exact (filterMapM h xs).bind fun _ => refl _

end AgreeUpTo

/-- Steps without a state have the same outcome, failures seen through `g`, when their parts do. -/
theorem mapError_bind {r r' : Except ε α} {k k' : α → Except ε β}
    (h : r.mapError g = r'.mapError g) (hk : ∀ a, (k a).mapError g = (k' a).mapError g) :
    (r >>= k).mapError g = (r' >>= k').mapError g := by
  cases r with
  | error e =>
    cases r' with
    | error e' => exact congrArg Except.error (Except.error.inj h)
    | ok a' => cases h
  | ok a =>
    cases r' with
    | error e' => cases h
    | ok a' =>
      cases h
      exact hk a

theorem mapError_error {e e' : ε} (h : g e = g e') :
    (Except.error e : Except ε α).mapError g = (Except.error e').mapError g :=
  congrArg Except.error h

theorem AgreeUpTo.ofExcept {r r' : Except Error α} {g : Error → Error}
    (h : r.mapError g = r'.mapError g) : AgreeUpTo g (Eval.ofExcept r) (Eval.ofExcept r') :=
  fun _ => ⟨h, rfl⟩

end Agree

namespace Wire

variable {σ α : Type} {f : String → String}

theorem agree_eval {m m' : Eval α} (h : AgreeUpTo (Error.blame f) m m') :
    AgreeUpTo (Fault.blame f) (Coding.eval m) (Coding.eval m') := by
  have through : ∀ r : Except Error α, (r.mapError Fault.schema).mapError (Fault.blame f) =
      (r.mapError (Error.blame f)).mapError Fault.schema := by
    intro r
    cases r <;> rfl
  intro known
  obtain ⟨hresult, hknown⟩ := h known
  refine ⟨?_, hknown⟩
  show ((Id.run (m.run known)).1.mapError Fault.schema).mapError _ =
    ((Id.run (m'.run known)).1.mapError Fault.schema).mapError _
  rw [through, through, hresult]

theorem agree_coding {m m' : Coding α} {g : Fault → Fault} (h : AgreeUpTo g m m') :
    AgreeUpTo g (Reading.coding m) (Reading.coding m') := fun r =>
  ⟨(h r.known).1, congrArg (fun known => { r with known }) (h r.known).2⟩

end Wire

section Blame

variable {f : String → String} {type type' : String} (hf : f type = f type')

include hf

theorem blame_inconsistent (fault : StructureFault) :
    (Error.inconsistent type fault).blame f = (Error.inconsistent type' fault).blame f :=
  congrArg (Error.inconsistent · fault) hf

namespace Schema

variable {s : Schema}

theorem mapError_require {name : String} :
    (s.require name type).mapError (Error.blame f) =
      (s.require name type').mapError (Error.blame f) := by
  unfold require
  cases s.lookup? name with
  | none => exact mapError_error (congrArg (Error.unknownType name) hf)
  | some t => rfl

/-- The fields of a structure do not depend on whom they are collected for. -/
theorem mapError_collectFields {room : Nat} {name : String} :
    (s.collectFields type room name).mapError (Error.blame f) =
      (s.collectFields type' room name).mapError (Error.blame f) := by
  induction room generalizing name with
  | zero => exact mapError_error (blame_inconsistent hf _)
  | succ room ih =>
    unfold collectFields
    refine mapError_bind (mapError_require hf) fun _ => mapError_bind rfl fun t => ?_
    split
    · exact mapError_error (blame_inconsistent hf _)
    · split
      · rfl
      · exact mapError_bind ih fun _ => rfl

end Schema

namespace Wire

open Schema

variable {s : Schema} {field : Field} {fields : List Field}

theorem mapError_scalarOf : (scalarOf s type field).mapError (Error.blame f) =
    (scalarOf s type' field).mapError (Error.blame f) := by
  unfold scalarOf
  split
  · rfl
  · exact mapError_error (blame_inconsistent hf _)

theorem mapError_partnerOf : (partnerOf type field).mapError (Error.blame f) =
    (partnerOf type' field).mapError (Error.blame f) := by
  unfold partnerOf
  split
  · rfl
  · exact mapError_error (blame_inconsistent hf _)

theorem mapError_elementOf : (elementOf s type field).mapError (Error.blame f) =
    (elementOf s type' field).mapError (Error.blame f) := by
  unfold elementOf
  split
  · rfl
  · exact mapError_bind (mapError_scalarOf hf) fun _ => rfl

theorem mapError_sizedStep {object : String} :
    (sizedStep s type fields field object).mapError (Error.blame f) =
      (sizedStep s type' fields field object).mapError (Error.blame f) := by
  unfold sizedStep
  refine mapError_bind (mapError_partnerOf hf) fun tag => ?_
  split
  · exact mapError_bind (mapError_scalarOf hf) fun _ => rfl
  · exact mapError_error (blame_inconsistent hf _)

theorem agree_fixedLength :
    AgreeUpTo (Error.blame f) (fixedLength s type field) (fixedLength s type' field) := by
  unfold fixedLength
  split
  · exact .throw (blame_inconsistent hf _)
  · refine .after fun n => ?_
    split
    · exact .throw (blame_inconsistent hf _)
    · exact .refl _

theorem agree_stepOf :
    AgreeUpTo (Error.blame f) (stepOf s type fields field) (stepOf s type' fields field) := by
  have scalar : AgreeUpTo (Error.blame f) (Eval.ofExcept (scalarOf s type field))
      (Eval.ofExcept (scalarOf s type' field)) := .ofExcept (mapError_scalarOf hf)
  have partner : AgreeUpTo (Error.blame f) (Eval.ofExcept (partnerOf type field))
      (Eval.ofExcept (partnerOf type' field)) := .ofExcept (mapError_partnerOf hf)
  have element : AgreeUpTo (Error.blame f) (Eval.ofExcept (elementOf s type field))
      (Eval.ofExcept (elementOf s type' field)) := .ofExcept (mapError_elementOf hf)
  unfold stepOf
  split
  · exact .refl _
  · split
    · exact .refl _
    · exact scalar.bind fun _ => .refl _
  · split
    · exact (AgreeUpTo.ofExcept (mapError_sizedStep hf)).bind fun _ => .refl _
    · exact scalar.bind fun _ => .refl _
  · split
    · exact scalar.bind fun _ => .refl _
    · exact .throw (blame_inconsistent hf _)
  · exact scalar.bind fun _ => partner.bind fun _ => .refl _
  · exact scalar.bind fun _ => partner.bind fun _ => .refl _
  · exact partner.bind fun _ => .refl _
  · exact partner.bind fun _ => .refl _
  · exact element.bind fun _ => (agree_fixedLength hf).bind fun _ => .refl _
  · exact element.bind fun _ => partner.bind fun _ => .refl _
  · exact element.bind fun _ => .refl _

/-- Two types with the same fields have the same layout. -/
theorem agree_layout (hfields : (s.allFields type).mapError (Error.blame f) =
    (s.allFields type').mapError (Error.blame f)) :
    AgreeUpTo (Error.blame f) (layout s type) (layout s type') :=
  (AgreeUpTo.ofExcept hfields).bind fun _ =>
    AgreeUpTo.filterMapM (fun _ => (agree_stepOf hf).bind fun _ => .refl _) _

theorem agree_integer (name : String) (v : Value) :
    AgreeUpTo (Fault.blame f) (integer type name v) (integer type' name v) := by
  unfold integer
  split
  · exact .refl _
  · exact .throw (congrArg (fun t => Fault.value (.notInteger t name v)) hf)

theorem agree_localValue (locals : Locals) (name : String) :
    AgreeUpTo (Fault.blame f) (localValue type locals name) (localValue type' locals name) := by
  unfold localValue
  split
  · exact .refl _
  · exact .throw (congrArg (Fault.missingField · name) hf)

theorem agree_fieldValue (values : List (String × Value)) (name : String) :
    AgreeUpTo (Fault.blame f) (fieldValue type values name) (fieldValue type' values name) := by
  unfold fieldValue
  split
  · exact .refl _
  · exact .throw (congrArg (Fault.missingField · name) hf)

theorem agree_checkMaximum (count : Nat) :
    AgreeUpTo (Fault.blame f) (checkMaximum s type field count)
      (checkMaximum s type' field count) := by
  unfold checkMaximum
  split
  · exact .refl _
  · refine .after fun maximum => ?_
    split
    · exact .throw (congrArg (fun t => Fault.value (.tooMany t field.name count maximum)) hf)
    · exact .refl _

theorem agree_requiredLength (locals : Locals) (length : ArrayLength) :
    AgreeUpTo (Fault.blame f) (requiredLength s type locals length)
      (requiredLength s type' locals length) := by
  cases length with
  | selected union selector => exact (agree_localValue hf _ _).bind fun _ => .refl _
  | _ => exact .refl _

/-! ## Decoding -/

theorem agree_readInteger (name : String) (c : Scalar) :
    AgreeUpTo (Fault.blame f) (readInteger type name c) (readInteger type' name c) :=
  .after fun v => (agree_coding (agree_integer hf name v)).bind fun _ => .refl _

theorem agree_decodedLength (locals : Locals) (length : ArrayLength) :
    AgreeUpTo (Fault.blame f) (decodedLength s type field locals length)
      (decodedLength s type' field locals length) := by
  cases length with
  | tag name =>
    unfold decodedLength
    dsimp only
    have checked (n : Nat) : AgreeUpTo (Fault.blame f)
        (Reading.coding (checkMaximum s type field n))
        (Reading.coding (checkMaximum s type' field n)) :=
      agree_coding (agree_checkMaximum hf n)
    split
    · exact .throw_bind (congrArg (fun t => Fault.value (.negativeCount t name)) hf)
    · exact (checked _).bind fun _ => .refl _
  | _ => exact agree_coding (agree_requiredLength hf _ _)

theorem agree_readSized (nested : String → Reading Value) (name : String) (size : Scalar)
    (object : String) :
    AgreeUpTo (Fault.blame f) (readSized nested type name size object)
      (readSized nested type' name size object) := by
  unfold readSized
  refine (agree_readInteger hf name size).bind fun (_, n) => .after fun r => ?_
  dsimp only
  split
  · exact .throw_bind (congrArg (Fault.regionOverflow · name) hf)
  · split
    · exact .throw_bind (congrArg (fun t => Fault.length (.announced t name _)) hf)
    · refine .after fun (used, result) => .after fun value => ?_
      dsimp only
      split
      · exact .throw_bind (congrArg (fun t => Fault.length (.partlyUsed t name used _)) hf)
      · exact .refl _

theorem agree_decodeStep (nested : String → Reading Value) (p : Partial) (step : Step) :
    AgreeUpTo (Fault.blame f) (decodeStep s nested type p step)
      (decodeStep s nested type' p step) := by
  unfold decodeStep
  dsimp only
  split
  · exact (agree_readInteger hf _ _).bind fun _ => .refl _
  · exact .refl _
  · refine .after fun v => .after fun expected =>
      (agree_coding (agree_integer hf _ _)).bind fun n => ?_
    split
    · exact .throw_bind (congrArg (fun t => Fault.value (.notConstant t _ v _)) hf)
    · exact .refl _
  · exact (agree_readInteger hf _ _).bind fun _ => .refl _
  · exact (agree_decodedLength hf _ _).bind fun _ => .refl _
  · exact (agree_readSized hf _ _ _ _).bind fun _ => .refl _
  · exact (agree_readInteger hf _ _).bind fun _ => .refl _
  · exact (agree_coding (agree_localValue hf _ _)).bind fun _ => .refl _

/-- The steps of a structure are read alike for both types. -/
theorem agree_decodeSteps (nested : String → Reading Value) (tail : Option (String × Int))
    (p : Partial) (steps : List Step) :
    AgreeUpTo (Fault.blame f) (decodeSteps s nested type tail p steps)
      (decodeSteps s nested type' tail p steps) := by
  induction steps generalizing p with
  | nil => exact .refl _
  | cons step rest ih =>
    unfold decodeSteps
    refine (agree_decodeStep hf nested p step).bind fun p => ?_
    split
    · exact .refl _
    · exact ih p

theorem agree_decodeRecord (nested : String → Reading Value)
    (hfields : (s.allFields type).mapError (Error.blame f) =
      (s.allFields type').mapError (Error.blame f)) (htail : tailEnd s type = tailEnd s type') :
    AgreeUpTo (Fault.blame f) (decodeRecord s nested type) (decodeRecord s nested type') := by
  unfold decodeRecord
  rw [htail]
  exact (agree_coding (agree_eval (agree_layout hf hfields))).bind fun steps =>
    .after fun tail => (agree_decodeSteps hf nested tail _ steps).bind fun _ => .refl _

/-! ## Encoding -/

theorem agree_encodeArray (nested : String → Value → Coding (List UInt8)) (locals : Locals)
    (element : Element) (length : ArrayLength) (v : Value) :
    AgreeUpTo (Fault.blame f) (encodeArray s nested type field locals element length v)
      (encodeArray s nested type' field locals element length v) := by
  unfold encodeArray
  split
  · exact .throw (congrArg (fun t => Fault.value (.notArray t field.name)) hf)
  · next count _ =>
    have checked : AgreeUpTo (Fault.blame f)
        (checkMaximum s type field count >>= fun _ => writeArray nested element v)
        (checkMaximum s type' field count >>= fun _ => writeArray nested element v) :=
      (agree_checkMaximum hf count).bind fun _ => .refl _
    refine (agree_requiredLength hf _ _).bind fun required => ?_
    split
    · dsimp only
      split
      · exact .throw_bind (congrArg (fun t => Fault.length (.elementCount t field.name _ _))
          hf)
      · exact checked
    · exact checked

theorem agree_encodeStep (nested : String → Value → Coding (List UInt8)) (steps : List Step)
    (values : List (String × Value)) (locals : Locals) (step : Step) :
    AgreeUpTo (Fault.blame f) (encodeStep s nested type steps values locals step)
      (encodeStep s nested type' steps values locals step) := by
  unfold encodeStep
  dsimp only
  split
  · exact (agree_fieldValue hf _ _).bind fun v => (agree_integer hf _ v).bind fun _ => .refl _
  · exact (agree_fieldValue hf _ _).bind fun _ => .refl _
  · exact .refl _
  · exact .refl _
  · exact (agree_fieldValue hf _ _).bind fun v =>
      (agree_encodeArray hf nested _ _ _ v).bind fun _ => .refl _
  · exact (agree_fieldValue hf _ _).bind fun _ => .refl _
  · split
    · exact (agree_integer hf _ _).bind fun _ => .refl _
    · split
      · exact (agree_fieldValue hf _ _).bind fun _ => .refl _
      · exact .throw_bind (congrArg (Fault.missingField · _) hf)
  · refine (agree_fieldValue hf _ _).bind fun v => ?_
    split
    · exact .refl _
    · exact .refl _
    · exact .throw (congrArg (fun t => Fault.value (.notUnion t _)) hf)

/-- The steps of a structure are written alike for both types. -/
theorem agree_encodeSteps (nested : String → Value → Coding (List UInt8)) (all : List Step)
    (tail : Option (String × Int)) (values : List (String × Value)) (locals : Locals)
    (steps : List Step) :
    AgreeUpTo (Fault.blame f) (encodeSteps s nested type all tail values locals steps)
      (encodeSteps s nested type' all tail values locals steps) := by
  induction steps generalizing locals with
  | nil => exact .refl _
  | cons step rest ih =>
    unfold encodeSteps
    refine (agree_encodeStep hf nested all values locals step).bind fun (bytes, locals) => ?_
    dsimp only
    split
    · exact .refl _
    · exact (ih locals).bind fun _ => .refl _

theorem agree_encodeRecord (nested : String → Value → Coding (List UInt8)) (v : Value)
    (hfields : (s.allFields type).mapError (Error.blame f) =
      (s.allFields type').mapError (Error.blame f)) (htail : tailEnd s type = tailEnd s type') :
    AgreeUpTo (Fault.blame f) (encodeRecord s nested type v) (encodeRecord s nested type' v) := by
  unfold encodeRecord
  rw [htail]
  split
  · exact .throw (congrArg (fun t => Fault.value (.notStructure t)) hf)
  · exact (agree_eval (agree_layout hf hfields)).bind fun steps =>
      .after fun tail => agree_encodeSteps hf nested steps tail _ [] steps

end Wire

end Blame

end WireTables
