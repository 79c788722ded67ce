import WireTables.Proofs.Schema.Resolved
import WireTables.Proofs.Wire.Encoding

/-!
# Writing and reading what resolves

Layouts, encoding and decoding evaluate the texts of array sizes and domains and the constants that
select union members. Where all of them have values, none of this fails on a constant that does not
exist or on a malformed expression (`layout_resolved`, `encode_resolved`, `decode_resolved`). All
other failures are about the value or the bytes, or about structures that are inconsistent.
-/

namespace WireTables.Wire

open Schema (HasValue)

/-- The failure says that a constant does not exist or that an expression is malformed. -/
def Fault.Unresolved : Fault → Prop
  | .schema e => e.Unresolved
  | _ => False

theorem codingEval_resolved {m : Eval α} {P : Known → Prop} (h : Avoids Error.Unresolved P m) :
    Avoids Fault.Unresolved P (Coding.eval m) := by
  intro k hk
  obtain ⟨hstate, hresult⟩ := h k hk
  refine ⟨hstate, fun e he => ?_⟩
  have he : (Id.run (m.run k)).1.mapError Fault.schema = .error e := he
  generalize (Id.run (m.run k)).1 = result at hresult he
  cases result with
  | ok a => cases he
  | error e' =>
    cases he
    exact hresult e' rfl

theorem structural_scalarOf {s : Schema} {owner : String} {f : Field} {e : Error}
    (h : scalarOf s owner f = .error e) : e.Structural := by
  unfold scalarOf at h
  split at h
  · cases h
  · cases h
    trivial

theorem structural_partnerOf {owner : String} {f : Field} {e : Error}
    (h : partnerOf owner f = .error e) : e.Structural := by
  unfold partnerOf at h
  split at h
  · cases h
  · cases h
    trivial

theorem structural_elementOf {s : Schema} {owner : String} {f : Field} {e : Error}
    (h : elementOf s owner f = .error e) : e.Structural := by
  unfold elementOf at h
  split at h
  · cases h
  · exact of_bind_eq_error h (fun _ => structural_scalarOf) fun _ _ _ h => nomatch h

theorem structural_sizedStep {s : Schema} {owner object : String} {fields : List Field} {f : Field}
    {e : Error} (h : sizedStep s owner fields f object = .error e) : e.Structural := by
  refine of_bind_eq_error h (fun _ => structural_partnerOf) fun _ _ _ h => ?_
  split at h
  · exact of_bind_eq_error h (fun _ => structural_scalarOf) fun _ _ _ h => nomatch h
  · cases h
    trivial

/-- The texts of a step have values. -/
def Step.Resolved (s : Schema) (known : Known) (st : Step) : Prop :=
  match st.op with
  | .constant _ text => s.HasValue known text
  | .array _ _ => ∀ text, st.field.domain.maximum? = some text → s.HasValue known text
  | _ => True

variable {s : Schema} {known : Known}

/-- What travels in this way has texts that have values. -/
theorem Travels.resolved {fields : List Field} {f : Field} {op : Op} {isData : Bool}
    (h : Travels s fields f op isData)
    (hf : ∀ text, f.domainText? = some text → s.HasValue known text) :
    Step.Resolved s known ⟨f, op, isData⟩ := by
  unfold Field.domainText? at hf
  cases h with
  | constant hm _ ht => exact hf _ (by rw [hm]; exact ht)
  | counted hm | fixed hm | rest hm | selected hm =>
    exact fun text htext => hf text (by rw [hm]; exact htext)
  | _ => trivial

variable (h : s.Resolved known)

include h

/-! ## Layouts -/

theorem fixedLength_resolved {owner : String} {f : Field}
    (hf : ∀ text, f.arraySize = some text → s.HasValue known text) :
    Avoids Error.Unresolved (· = known) (fixedLength s owner f) := by
  unfold fixedLength
  split
  · exact .throw id
  · next text htext =>
    refine (Schema.evaluate_resolved h (hf text htext)).andThen fun _ => ?_
    split
    · exact .throw id
    · exact .pure

theorem stepOf_resolved {owner : String} {fields : List Field} {f : Field}
    (hf : ∀ text, f.arraySize = some text → s.HasValue known text) :
    Avoids Error.Unresolved (· = known) (stepOf s owner fields f) := by
  have structural : ∀ {α : Type} {r : Except Error α}, (∀ e, r = .error e → e.Structural) →
      Avoids Error.Unresolved (· = known) (Eval.ofExcept r) := fun hr =>
    Avoids.ofExcept fun e he => (hr e he).resolved
  have scalar : ∀ f, Avoids Error.Unresolved (· = known) (Eval.ofExcept (scalarOf s owner f)) :=
    fun _ => structural fun _ => structural_scalarOf
  have partner : Avoids Error.Unresolved (· = known) (Eval.ofExcept (partnerOf owner f)) :=
    structural fun _ => structural_partnerOf
  have element : Avoids Error.Unresolved (· = known) (Eval.ofExcept (elementOf s owner f)) :=
    structural fun _ => structural_elementOf
  unfold stepOf
  split
  · exact .pure
  · split
    · exact .pure
    · exact (scalar f).andThen fun _ => .pure
  · split
    · exact (structural fun _ => structural_sizedStep).andThen fun _ => .pure
    · exact (scalar f).andThen fun _ => .pure
  · split
    · exact (scalar f).andThen fun _ => .pure
    · exact .throw id
  · exact (scalar f).andThen fun _ => partner.andThen fun _ => .pure
  · exact (scalar f).andThen fun _ => partner.andThen fun _ => .pure
  · exact partner.andThen fun _ => .pure
  · exact partner.andThen fun _ => .pure
  · exact element.andThen fun _ => (fixedLength_resolved h hf).andThen fun _ => .pure
  · exact element.andThen fun _ => partner.andThen fun _ => .pure
  · exact element.andThen fun _ => .pure

theorem layout_resolved (type : String) :
    Avoids Error.Unresolved (· = known) (layout s type) := by
  unfold layout
  refine (Avoids.ofExcept fun e he => (Schema.structural_allFields he).resolved).bind
    fun _ fields _ _ hfields => Avoids.filterMapM fun f hf => ?_
  have hfields := (yields_ofExcept.mp hfields).1
  exact (stepOf_resolved h (h.field_of_allFields hfields hf).1).andThen fun _ => .pure

theorem resolved_of_layout {type : String} {k k' : Known} {steps : List Step}
    (hy : Yields (layout s type) k steps k') : ∀ st ∈ steps, st.Resolved s known := by
  obtain ⟨fields, hfields, hsteps, htravels⟩ := steps_of_layout hy
  exact fun st hst => (htravels st hst).resolved
    (h.field_of_allFields hfields (field_of_step hsteps hst)).2

/-! ## Union members -/

/-- What a union member is selected by and how long it is has a value. -/
theorem member_resolved {union : String} {t : TypeEntry} {u : UnionType}
    (ht : s.lookup? union = some t) (hu : t.union? = some u) {m : UnionMember} (hm : m ∈ u.members) :
    (s.resolveConstant? m.selector).isSome = true ∧
      ∀ text, m.arraySize = some text → s.HasValue known text := by
  have hresolves := h.types t (Schema.mem_of_lookup? ht).1
  have hkind := TypeEntry.kind_of_union? hu
  refine ⟨hresolves.selectors _ ?_, fun text htext => hresolves.arraySizes text ?_⟩
  · unfold TypeEntry.selectors
    rw [hkind]
    exact List.mem_map_of_mem hm
  · unfold TypeEntry.arraySizes
    rw [hkind]
    exact List.mem_filterMap.mpr ⟨m, hm, htext⟩

theorem memberBytes_resolved {m : UnionMember} {owner : String} {fault : StructureFault}
    (hm : ∀ text, m.arraySize = some text → s.HasValue known text) :
    Avoids Error.Unresolved (· = known) (memberBytes s m (.inconsistent owner fault)) := by
  unfold memberBytes
  split
  · next text htext =>
    refine (Schema.evaluate_resolved h (hm text htext)).andThen fun _ =>
      (Schema.wireSize_resolved h m.typeName).andThen fun _ => ?_
    split
    · exact .pure
    · exact .throw id
  · refine Avoids.pure.andThen fun _ => (Schema.wireSize_resolved h m.typeName).andThen fun _ => ?_
    split
    · exact .pure
    · exact .throw id

theorem firstSelected_resolved {union : String} {selector : Int} {members : List UnionMember}
    (hmembers : ∀ m ∈ members, (s.resolveConstant? m.selector).isSome = true ∧
      ∀ text, m.arraySize = some text → s.HasValue known text) :
    Avoids Error.Unresolved (· = known) (firstSelected s union selector members) := by
  induction members with
  | nil => exact .pure
  | cons m members ih =>
    obtain ⟨hn, hlength⟩ := hmembers m List.mem_cons_self
    unfold firstSelected
    refine (Schema.constantValue_resolved h hn).andThen fun _ => ?_
    split
    · exact ih fun m hm => hmembers m (List.mem_cons_of_mem _ hm)
    · exact (memberBytes_resolved h hlength).andThen fun _ => .pure

theorem selectedLength_resolved (union : String) (selector : Int) :
    Avoids Error.Unresolved (· = known) (selectedLength s union selector) := by
  unfold selectedLength
  refine (Avoids.ofExcept fun e he => (Schema.structural_require he).resolved).bind
    fun _ t _ _ ht => ?_
  have ht := Schema.require_eq_ok.mp (yields_ofExcept.mp ht).1
  split
  · next u hu => exact firstSelected_resolved h fun m hm => member_resolved h ht hu hm
  · exact .throw id

/-! ## What both directions ask for -/

theorem selectedBytes_resolved (union : String) (selector : Int) :
    Avoids Fault.Unresolved (· = known) (selectedBytes s union selector) := by
  refine (codingEval_resolved (selectedLength_resolved h union selector)).bind
    fun _ _ _ _ _ => ?_
  split
  · exact .pure
  · exact .throw id

omit h in
theorem localValue_resolved {type field : String} {locals : Locals} {P : Known → Prop} :
    Avoids Fault.Unresolved P (localValue type locals field) := by
  unfold localValue
  split
  · exact .pure
  · exact .throw id

theorem requiredLength_resolved (type : String) (locals : Locals) (length : ArrayLength) :
    Avoids Fault.Unresolved (· = known) (requiredLength s type locals length) := by
  cases length with
  | fixed | tag | rest => exact .pure
  | selected union selector =>
    exact localValue_resolved.bind fun _ n _ _ _ =>
      (selectedBytes_resolved h union n).andThen fun _ => .pure

theorem checkMaximum_resolved {type : String} {f : Field} {count : Nat}
    (hf : ∀ text, f.domain.maximum? = some text → s.HasValue known text) :
    Avoids Fault.Unresolved (· = known) (checkMaximum s type f count) := by
  unfold checkMaximum
  split
  · exact .pure
  · next text htext =>
    refine (codingEval_resolved (Schema.evaluate_resolved h (hf text htext))).bind
      fun _ _ _ _ _ => ?_
    split
    · exact .throw id
    · exact .pure

theorem tailEnd_resolved (type : String) :
    Avoids Fault.Unresolved (· = known) (tailEnd s type) := by
  unfold tailEnd recordType
  split
  · next t r hr =>
    obtain ⟨ht, hr⟩ := Schema.mem_of_recordOf? hr
    refine Avoids.pure.bind fun _ r' _ _ hr' => ?_
    obtain ⟨rfl, -⟩ := yields_pure.mp hr'
    split
    · next tail htail =>
      exact (codingEval_resolved (Schema.constantValue_resolved h
        (h.tails t ht _ tail hr htail))).andThen fun _ => .pure
    · exact .pure
  · exact .throw_bind id

omit h in
theorem integer_resolved {type field : String} {v : Value} {P : Known → Prop} :
    Avoids Fault.Unresolved P (integer type field v) := by
  unfold integer
  split
  · exact .pure
  · exact .throw id

omit h in
theorem unionType_resolved {union : String} {P : Known → Prop} :
    Avoids Fault.Unresolved P (unionType s union) := by
  unfold unionType
  split
  · exact .pure
  · exact .throw id

/-! ## Encoding -/

section Encoding

omit h in
theorem writeScalar_resolved {c : Scalar} {n : Int} {P : Known → Prop} :
    Avoids Fault.Unresolved P (writeScalar c n) := by
  unfold writeScalar
  split
  · exact .throw id
  · split
    · exact .pure
    · exact .throw id

omit h in
theorem fieldValue_resolved {type name : String} {values : List (String × Value)}
    {P : Known → Prop} : Avoids Fault.Unresolved P (fieldValue type values name) := by
  unfold fieldValue
  split
  · exact .pure
  · exact .throw id

omit h in
theorem writeAll_resolved {write : Value → Coding (List UInt8)} {P : Known → Prop}
    (hwrite : ∀ v, Avoids Fault.Unresolved P (write v)) (items : List Value) :
    Avoids Fault.Unresolved P (writeAll write items) := by
  induction items with
  | nil => exact .pure
  | cons v items ih =>
    exact (hwrite v).andThen fun _ => ih.andThen fun _ => .pure

variable {nested : String → Value → Coding (List UInt8)}
  (hnested : ∀ type v, Avoids Fault.Unresolved (· = known) (nested type v))

include hnested

omit h in
theorem writeArray_resolved (element : Element) (v : Value) :
    Avoids Fault.Unresolved (· = known) (writeArray nested element v) := by
  unfold writeArray
  split
  · exact .pure
  · exact writeAll_resolved (fun _ => integer_resolved.andThen fun _ => writeScalar_resolved) _
  · exact writeAll_resolved (fun _ => integer_resolved.andThen fun _ => writeScalar_resolved) _
  · exact writeAll_resolved (hnested _) _
  · exact .throw id

omit h in
theorem writeMember_resolved (type : String) (v : Value) :
    Avoids Fault.Unresolved (· = known) (writeMember s nested type v) := by
  unfold writeMember
  split
  · exact hnested type v
  · split
    · exact .throw id
    · exact integer_resolved.andThen fun _ => writeScalar_resolved

omit hnested in
theorem selected_resolved {union field : String} {t : TypeEntry} {u : UnionType} {v : Value}
    {member : Option UnionMember} (ht : s.lookup? union = some t) (hu : t.union? = some u)
    (hmember : ∀ m, member = some m → m ∈ u.members) :
    Avoids Fault.Unresolved (· = known) (match member with
      | some m => Coding.eval (s.constantValue m.selector)
      | none => Coding.invalid (.noMemberFor field v)) := by
  cases member with
  | none => exact .throw id
  | some m =>
    exact codingEval_resolved
      (Schema.constantValue_resolved h (member_resolved h ht hu (hmember m rfl)).1)

omit hnested in
theorem deriveSelector_resolved (steps : List Step) (object : String) (v : Value) :
    Avoids Fault.Unresolved (· = known) (deriveSelector s steps object v) := by
  unfold deriveSelector
  split
  · exact .throw id
  refine unionType_resolved.bind fun _ u _ _ hu => ?_
  obtain ⟨t, ht, hu⟩ := Option.bind_eq_some_iff.mp (yields_unionType.mp hu).1
  refine selected_resolved h ht hu fun m hm => ?_
  split at hm
  · exact List.mem_of_find?_eq_some hm
  · obtain ⟨i, -, hm⟩ := Option.bind_eq_some_iff.mp hm
    exact List.mem_of_getElem? hm
  · cases hm

theorem encodeArray_resolved {type : String} {f : Field} {locals : Locals} {element : Element}
    {length : ArrayLength} {v : Value}
    (hf : ∀ text, f.domain.maximum? = some text → s.HasValue known text) :
    Avoids Fault.Unresolved (· = known) (encodeArray s nested type f locals element length v) := by
  unfold encodeArray
  split
  · exact .throw id
  · next count _ =>
    have checked : Avoids Fault.Unresolved (· = known)
        (checkMaximum s type f count >>= fun _ => writeArray nested element v) :=
      (checkMaximum_resolved h hf).andThen fun _ => writeArray_resolved hnested element v
    refine (requiredLength_resolved h type locals length).andThen fun _ => ?_
    split
    · dsimp only
      split
      · exact .throw_bind id
      · exact checked
    · exact checked

/-- The step of a layout is written without such a failure. -/
theorem encodeStep_resolved {type : String} {steps : List Step} {values : List (String × Value)}
    {locals : Locals} {step : Step} (hstep : step.Resolved s known) :
    Avoids Fault.Unresolved (· = known) (encodeStep s nested type steps values locals step) := by
  unfold Step.Resolved at hstep
  unfold encodeStep
  dsimp only
  split
  · exact fieldValue_resolved.andThen fun _ => integer_resolved.andThen fun _ =>
      writeScalar_resolved.andThen fun _ => .pure
  · exact fieldValue_resolved.andThen fun _ => (hnested _ _).andThen fun _ => .pure
  · next scalar text hop =>
    rw [hop] at hstep
    exact (codingEval_resolved (Schema.evaluate_resolved h hstep)).andThen fun _ =>
      writeScalar_resolved.andThen fun _ => .pure
  · exact writeScalar_resolved.andThen fun _ => .pure
  · next element length hop =>
    rw [hop] at hstep
    exact fieldValue_resolved.andThen fun _ =>
      (encodeArray_resolved h hnested hstep).andThen fun _ => .pure
  · exact fieldValue_resolved.andThen fun _ => (hnested _ _).andThen fun _ =>
      writeScalar_resolved.andThen fun _ => .pure
  · next scalar object derived hop =>
    have written : ∀ n : Int, Avoids Fault.Unresolved (· = known)
        (writeScalar scalar n >>= fun bytes =>
          (pure (bytes, (step.field.name, n) :: locals) : Coding (List UInt8 × Locals))) :=
      fun _ => writeScalar_resolved.andThen fun _ => .pure
    split
    · exact integer_resolved.andThen written
    · split
      · exact fieldValue_resolved.andThen fun _ =>
          (deriveSelector_resolved h steps object _).andThen written
      · exact .throw_bind id
  · refine fieldValue_resolved.andThen fun _ => ?_
    split
    · exact .pure
    · exact (writeMember_resolved hnested _ _).andThen fun _ => .pure
    · exact .throw id

theorem encodeSteps_resolved {type : String} {all : List Step} {tail : Option (String × Int)}
    {values : List (String × Value)} {locals : Locals} {steps : List Step}
    (hsteps : ∀ st ∈ steps, st.Resolved s known) :
    Avoids Fault.Unresolved (· = known)
      (encodeSteps s nested type all tail values locals steps) := by
  induction steps generalizing locals with
  | nil => exact .pure
  | cons step rest ih =>
    unfold encodeSteps
    refine (encodeStep_resolved h hnested (hsteps step List.mem_cons_self)).andThen
      fun written => ?_
    obtain ⟨bytes, locals⟩ := written
    dsimp only
    split
    · exact .pure
    · exact (ih fun st hst => hsteps st (List.mem_cons_of_mem _ hst)).andThen fun _ => .pure

theorem encodeRecord_resolved (type : String) (v : Value) :
    Avoids Fault.Unresolved (· = known) (encodeRecord s nested type v) := by
  unfold encodeRecord
  split
  · exact .throw id
  · refine (codingEval_resolved (layout_resolved h type)).bind fun _ steps _ _ hsteps =>
      (tailEnd_resolved h type).andThen fun _ => encodeSteps_resolved h hnested ?_
    exact resolved_of_layout h (yields_codingEval.mp hsteps)

end Encoding

/-- Nothing is nested so deep that writing it fails in such a way. -/
theorem encodeAt_resolved (levels : Nat) (type : String) (v : Value) :
    Avoids Fault.Unresolved (· = known) (encodeAt s levels type v) := by
  induction levels generalizing type v with
  | zero => exact .throw id
  | succ levels ih => exact encodeRecord_resolved h ih type v

/-- Values are written without such a failure. -/
theorem encode_resolved (type : String) (v : Value) :
    Avoids Fault.Unresolved (· = known) (encode s type v) :=
  encodeAt_resolved h _ type v

/-! ## Decoding -/

omit h in
theorem coding_resolved {m : Coding α} (hm : Avoids Fault.Unresolved (· = known) m) :
    Avoids Fault.Unresolved (·.known = known) (Reading.coding m) :=
  fun ρ hρ => hm ρ.known hρ

omit h in
theorem left_resolved : Avoids Fault.Unresolved (·.known = known) Reading.left :=
  Avoids.get.andThen fun _ => .pure

omit h in
theorem bytes_resolved (count : Nat) :
    Avoids Fault.Unresolved (·.known = known) (Reading.bytes count) := by
  have skipped : Avoids Fault.Unresolved (·.known = known) (Reading.skip count) :=
    Avoids.modify fun _ hρ => hρ
  refine left_resolved.andThen fun _ => skipped.andThen fun _ => ?_
  dsimp only
  split
  · exact .throw_bind id
  · exact .pure

omit h in
theorem readScalar_resolved (c : Scalar) :
    Avoids Fault.Unresolved (·.known = known) (readScalar c) := by
  unfold readScalar
  split
  · exact (bytes_resolved 1).andThen fun _ => .pure
  · split
    · exact (bytes_resolved _).andThen fun _ => .pure
    · exact .throw id

omit h in
theorem readInteger_resolved (type field : String) (c : Scalar) :
    Avoids Fault.Unresolved (·.known = known) (readInteger type field c) :=
  (readScalar_resolved c).andThen fun _ => (coding_resolved integer_resolved).andThen fun _ => .pure

section Decoding

section Elements

variable {element : Reading Value}
  (helement : Avoids Fault.Unresolved (·.known = known) element)

include helement

omit h in
theorem readCount_resolved (count : Nat) :
    Avoids Fault.Unresolved (·.known = known) (readCount element count) := by
  induction count with
  | zero => exact .pure
  | succ count ih => exact helement.andThen fun _ => ih.andThen fun _ => .pure

omit h in
theorem readRest_resolved (index room : Nat) :
    Avoids Fault.Unresolved (·.known = known) (readRest element index room) := by
  induction room generalizing index with
  | zero => exact .pure
  | succ room ih =>
    refine left_resolved.andThen fun _ => ?_
    split
    · exact .pure
    · refine helement.andThen fun _ => left_resolved.andThen fun _ => ?_
      split
      · exact .throw_bind id
      · exact (ih _).andThen fun _ => .pure

omit h in
theorem readElements_resolved (count : Option Nat) :
    Avoids Fault.Unresolved (·.known = known) (readElements element count) := by
  unfold readElements
  split
  · exact (readCount_resolved helement _).andThen fun _ => .pure
  · exact left_resolved.andThen fun _ => (readRest_resolved helement _ _).andThen fun _ => .pure

end Elements

variable {nested : String → Reading Value}
  (hnested : ∀ type, Avoids Fault.Unresolved (·.known = known) (nested type))

include hnested

omit h in
theorem readArray_resolved (element : Element) (count : Option Nat) :
    Avoids Fault.Unresolved (·.known = known) (readArray nested element count) := by
  unfold readArray
  split
  · refine left_resolved.andThen fun _ => ?_
    dsimp only
    split
    · exact .throw_bind id
    · exact (bytes_resolved _).andThen fun _ => .pure
  · exact readElements_resolved (readScalar_resolved _) count
  · exact readElements_resolved (hnested _) count

/-- A union member is looked for without such a failure. -/
theorem readMember_resolved {u : UnionType} {union : String} {selector : Int}
    {members : List (UnionMember × Nat)}
    (hmembers : ∀ x ∈ members, (s.resolveConstant? x.1.selector).isSome = true) :
    Avoids Fault.Unresolved (·.known = known)
      (readMember s nested u union selector members) := by
  induction members with
  | nil => exact .throw id
  | cons x members ih =>
    obtain ⟨m, i⟩ := x
    unfold readMember
    have value := codingEval_resolved
      (Schema.constantValue_resolved h (hmembers (m, i) List.mem_cons_self))
    refine (coding_resolved value).andThen fun _ => ?_
    split
    · exact ih fun x hx => hmembers x (List.mem_cons_of_mem _ hx)
    · split
      · exact .pure
      · split
        · exact (hnested _).andThen fun _ => .pure
        · split
          · exact (readScalar_resolved _).andThen fun _ => .pure
          · exact .throw id

theorem readUnion_resolved (union : String) (selector : Int) :
    Avoids Fault.Unresolved (·.known = known) (readUnion s nested union selector) := by
  refine (coding_resolved unionType_resolved).bind fun _ u _ _ hu => ?_
  obtain ⟨_, hu, -⟩ := yields_coding.mp hu
  obtain ⟨t, ht, hu⟩ := Option.bind_eq_some_iff.mp (yields_unionType.mp hu).1
  exact readMember_resolved h hnested fun x hx =>
    (member_resolved h ht hu (List.fst_mem_of_mem_zipIdx hx)).1

omit hnested in
theorem decodedLength_resolved {type : String} {f : Field} {locals : Locals} {length : ArrayLength}
    (hf : ∀ text, f.domain.maximum? = some text → s.HasValue known text) :
    Avoids Fault.Unresolved (·.known = known) (decodedLength s type f locals length) := by
  unfold decodedLength
  split
  · dsimp only
    have checked : ∀ n, Avoids Fault.Unresolved (·.known = known)
        (Reading.coding (checkMaximum s type f n)) := fun n =>
      coding_resolved (checkMaximum_resolved h hf)
    split
    · exact .throw_bind id
    · exact (checked _).andThen fun _ => .pure
  · exact coding_resolved (requiredLength_resolved h type locals _)

omit h hnested in
/-- What a region fails with is what reading the structure inside it fails with. -/
theorem inRegion_resolved {m : Reading α} (region : List UInt8)
    (hm : Avoids Fault.Unresolved (·.known = known) m) :
    Avoids Fault.Unresolved (·.known = known) (Reading.inRegion region m) ∧
      ∀ {ρ ρ' : Reader} {used : Nat} {result : Except Fault α}, ρ.known = known →
        Yields (Reading.inRegion region m) ρ (used, result) ρ' →
          ∀ e, result = .error e → ¬ e.Unresolved := by
  refine ⟨fun ρ hρ => ⟨(hm { left := region, known := ρ.known } hρ).1, nofun⟩, ?_⟩
  rintro ρ ρ' used _ hρ hy e rfl
  have hinner := (hm { left := region, known := ρ.known } hρ).2 e
  have hy : ((Except.ok (_, (Id.run (m.run { left := region, known := ρ.known })).1) :
      Except Fault (Nat × Except Fault α)), _) = (Except.ok (used, Except.error e), ρ') := hy
  simp only [Prod.mk.injEq, Except.ok.injEq] at hy
  exact hinner hy.1.2

omit h in
theorem readSized_resolved (type field : String) (size : Scalar) (object : String) :
    Avoids Fault.Unresolved (·.known = known) (readSized nested type field size object) := by
  unfold readSized
  refine (readInteger_resolved type field size).andThen fun read => Avoids.get.andThen fun ρ => ?_
  obtain ⟨-, n⟩ := read
  dsimp only
  split
  · exact .throw_bind id
  · split
    · exact .throw_bind id
    · obtain ⟨region, failure⟩ := inRegion_resolved
        (ρ.left.take (n % 0x10000000000000000).toNat) (hnested object)
      refine region.bind fun ρ' read _ hρ' hy => ?_
      obtain ⟨used, result⟩ := read
      refine (Avoids.ofExcept (failure hρ' hy)).andThen fun _ => ?_
      have skipped : Avoids Fault.Unresolved (·.known = known)
          (Reading.skip (n % 0x10000000000000000).toNat) := Avoids.modify fun _ hρ => hρ
      split
      · exact .throw_bind id
      · exact skipped.andThen fun _ => .pure

/-- The step of a layout is read without such a failure. -/
theorem decodeStep_resolved {type : String} {p : Partial} {step : Step}
    (hstep : step.Resolved s known) :
    Avoids Fault.Unresolved (·.known = known) (decodeStep s nested type p step) := by
  unfold Step.Resolved at hstep
  unfold decodeStep
  dsimp only
  split
  · exact (readInteger_resolved _ _ _).andThen fun _ => .pure
  · exact (hnested _).andThen fun _ => .pure
  · next scalar text hop =>
    rw [hop] at hstep
    have expected := codingEval_resolved (Schema.evaluate_resolved h hstep)
    refine (readScalar_resolved scalar).andThen fun _ => (coding_resolved expected).andThen fun _ =>
      (coding_resolved integer_resolved).andThen fun _ => ?_
    split
    · exact .throw_bind id
    · exact .pure
  · exact (readInteger_resolved _ _ _).andThen fun _ => .pure
  · next element length hop =>
    rw [hop] at hstep
    exact (decodedLength_resolved h hstep).andThen fun _ =>
      (readArray_resolved hnested _ _).andThen fun _ => .pure
  · exact (readSized_resolved hnested _ _ _ _).andThen fun _ => .pure
  · exact (readInteger_resolved _ _ _).andThen fun _ => .pure
  · exact (coding_resolved localValue_resolved).andThen fun _ =>
      (readUnion_resolved h hnested _ _).andThen fun _ => .pure

theorem decodeSteps_resolved {type : String} {tail : Option (String × Int)} {p : Partial}
    {steps : List Step} (hsteps : ∀ st ∈ steps, st.Resolved s known) :
    Avoids Fault.Unresolved (·.known = known) (decodeSteps s nested type tail p steps) := by
  induction steps generalizing p with
  | nil => exact .pure
  | cons step rest ih =>
    unfold decodeSteps
    refine (decodeStep_resolved h hnested (hsteps step List.mem_cons_self)).andThen fun p => ?_
    split
    · exact .pure
    · exact ih fun st hst => hsteps st (List.mem_cons_of_mem _ hst)

theorem decodeRecord_resolved (type : String) :
    Avoids Fault.Unresolved (·.known = known) (decodeRecord s nested type) := by
  have plan := codingEval_resolved (layout_resolved h type)
  refine (coding_resolved plan).bind fun _ steps _ _ hsteps =>
    (coding_resolved (tailEnd_resolved h type)).andThen fun _ =>
      (decodeSteps_resolved h hnested ?_).andThen fun _ => .pure
  obtain ⟨_, hsteps, -⟩ := yields_coding.mp hsteps
  exact resolved_of_layout h (yields_codingEval.mp hsteps)

end Decoding

theorem decodeAt_resolved (levels : Nat) (type : String) :
    Avoids Fault.Unresolved (·.known = known) (decodeAt s levels type) := by
  induction levels generalizing type with
  | zero => exact .throw id
  | succ levels ih => exact decodeRecord_resolved h ih type

/-- Bytes are read without such a failure. -/
theorem decode_resolved (type : String) (bytes : List UInt8) :
    Avoids Fault.Unresolved (· = known) (decode s type bytes) := by
  intro k hk
  let start : Reader := { left := bytes, known := k }
  let out := Id.run ((decodeAt s (levels s bytes.length) type).run start)
  obtain ⟨hstate, hresult⟩ : out.2.known = known ∧ ∀ e, out.1 = .error e → ¬ e.Unresolved :=
    decodeAt_resolved h (levels s bytes.length) type start hk
  refine ⟨hstate, fun e he => ?_⟩
  have he : (out.1 >>= fun v => if out.2.position == bytes.length then .ok v
      else .error (.length (.trailing type (bytes.length - out.2.position)))) = .error e := he
  refine of_bind_eq_error (p := (¬ Fault.Unresolved ·)) he hresult fun v _ e hv => ?_
  split at hv
  · cases hv
  · cases hv
    exact id

end WireTables.Wire
