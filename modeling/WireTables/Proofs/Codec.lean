import WireTables.Proofs.Normal.Basic
import WireTables.Proofs.Wire.WellTyped

/-!
# Encoding and decoding by tables

What holds between encoding and decoding for every registry that tables are extracted to and that
is brought to normal form. What is decoded is encoded in the same bytes, if at all; it is encoded
when the encoder accepts all of it; and what is encoded is decoded again if it is well-typed.
-/

namespace WireTables

namespace Registry

/-- The plan of a structure. -/
def layout (r : Registry) (type : String) : Except Error (List Wire.Step) :=
  (r.calculate (Wire.layout · type)).1

/-- The value of a structure in bytes, all of which it has to take. -/
def decode (r : Registry) (type : String) (bytes : List UInt8) : Except Wire.Fault Wire.Value :=
  (r.calculate (Wire.decode · type bytes)).1

/-- The bytes of a structure. -/
def encode (r : Registry) (type : String) (v : Wire.Value) : Except Wire.Fault (List UInt8) :=
  (r.calculate (Wire.encode · type v)).1

section Yields

variable {r : Registry} {type : String} {v : Wire.Value} {bytes : List UInt8}

theorem Settled.remembers (h : r.Settled) : r.toSchema.Remembers (· = r.known) :=
  Schema.remembers_complete h.words h.complete

theorem calculate_eq_ok {ε α : Type} {m : Schema → ExceptT ε (StateM Known) α} {a : α} :
    (r.calculate m).1 = .ok a ↔ ∃ known, Yields (m r.toSchema) r.known a known :=
  ⟨fun h => ⟨_, Prod.ext h rfl⟩, fun ⟨_, h⟩ => congrArg Prod.fst h⟩

theorem decode_eq_ok (h : r.Settled) : r.decode type bytes = .ok v ↔
    Yields (Wire.decode r.toSchema type bytes) r.known v r.known := by
  refine calculate_eq_ok.trans ⟨fun ⟨known, hy⟩ => ?_, fun hy => ⟨_, hy⟩⟩
  obtain rfl := ((Wire.yields_decode h.remembers).mp hy).1
  exact hy

theorem encode_eq_ok (h : r.Settled) : r.encode type v = .ok bytes ↔
    Yields (Wire.encode r.toSchema type v) r.known bytes r.known := by
  refine calculate_eq_ok.trans ⟨fun ⟨known, hy⟩ => ?_, fun hy => ⟨_, hy⟩⟩
  obtain rfl := ((Wire.yields_encodeAt h.remembers).mp hy).2
  exact hy

end Yields

end Registry

namespace Wire

/-- The fields of every structure inside a structure have different names. -/
def NamesDistinct (r : Registry) (type : String) : Prop :=
  ∀ inner, Reaches r.toSchema r.known type inner → r.toSchema.DistinctNames inner

/-- No truth value is read or written anywhere in a structure. -/
def WithoutBools (r : Registry) (type : String) : Prop :=
  ∀ inner steps tail, Reaches r.toSchema r.known type inner →
    Plan r.toSchema r.known inner steps tail →
      ∀ st ∈ steps, ∀ c, st.op.Uses r.toSchema c → c.isBool = false

/-- Every structure inside a structure that may end after its selector begins with it. -/
def SelectorsFirst (r : Registry) (type : String) : Prop :=
  ∀ inner steps selector null, Reaches r.toSchema r.known type inner →
    Plan r.toSchema r.known inner steps (some (selector, null)) →
      steps.head?.map (·.field.name) = some selector

/-- As many bytes as memory can hold at most. -/
def Addressable (bytes : List UInt8) : Prop :=
  bytes.length < 0x8000000000000000

/-- What takes the rest of a region does so at the end of a structure that is sized or is not inside
another one. -/
def RestLast (r : Registry) (type : String) : Prop :=
  ∀ inner steps tail, Reaches r.toSchema r.known type inner →
    Plan r.toSchema r.known inner steps tail → ∀ st ∈ steps, ∀ next,
      st.op.Holds r.toSchema next →
        (∃ c, st.op = .sized c next) ∨ Closed r.toSchema r.known next

/-- The plan of every structure inside a structure is regular. -/
def AllRegular (r : Registry) (type : String) : Prop :=
  ∀ inner steps tail, Reaches r.toSchema r.known type inner →
    Plan r.toSchema r.known inner steps tail → Regular r.toSchema r.known steps

/-- A value whose unions are absent or name a member. -/
def UnionsNamed (r : Registry) (type : String) (v : Value) : Prop :=
  ∀ inner fields steps tail, Part r.toSchema r.known type v inner (.struct fields) →
    Plan r.toSchema r.known inner steps tail → Named r.toSchema steps tail fields

/-- A value whose unions are chosen by their selectors also where these come from elsewhere. -/
def UnionsConsistent (r : Registry) (type : String) (v : Value) : Prop :=
  ∀ inner fields steps tail, Part r.toSchema r.known type v inner (.struct fields) →
    Plan r.toSchema r.known inner steps tail →
      Consistent r.toSchema r.known steps tail fields

/-- No structure inside a structure has an array that takes the rest of its region. -/
def WithoutRest (r : Registry) (type : String) : Prop :=
  ∀ inner, Reaches r.toSchema r.known type inner → Closed r.toSchema r.known inner

/-- No truth value stands for a selector after which a structure inside the structure may end. -/
def TailsPlain (r : Registry) (type : String) : Prop :=
  ∀ inner steps tail, Reaches r.toSchema r.known type inner →
    Plan r.toSchema r.known inner steps tail → PlainTail steps tail

section Message

/-- Messages with a version, a body of a kind or none, and counted bytes; pairs of bodies of one
kind; and bytes counted by a truth value. -/
def messageTables : List Table :=
  [{ caption := "Table 1 — Definition of (UINT16) TPM_KIND Constants", comment := "",
     rows := [["TPM_KIND_WORD", "1", ""], ["TPM_KIND_NONE", "0", ""]], handleCount := 0 },
   { caption := "Table 2 — Definition of TPMU_BODY Union", comment := "",
     rows := [["word", "UINT16", "TPM_KIND_WORD", ""], ["none", "", "TPM_KIND_NONE", ""]],
     handleCount := 0 },
   { caption := "Table 3 — Definition of TPMS_MESSAGE Structure", comment := "",
     rows := [["version=2", "UINT8", ""], ["kind", "UINT16", ""], ["size", "UINT16", ""],
       ["[kind]body", "TPMU_BODY", ""], ["data[size]", "BYTE", ""]], handleCount := 0 },
   { caption := "Table 4 — Definition of TPMS_PAIR Structure", comment := "",
     rows := [["kind", "UINT16", ""], ["[kind]left", "TPMU_BODY", ""],
       ["[kind]right", "TPMU_BODY", ""]], handleCount := 0 },
   { caption := "Table 5 — Definition of TPMS_FLAGGED Structure", comment := "",
     rows := [["size", "BOOL", ""], ["data[size]", "BYTE", ""]], handleCount := 0 }]

/-- The registry of messages. -/
def messages : Registry :=
  match Extraction.extract messageTables {} with
  | .ok (r, _) => (Id.run ((Edit.normalize {}).run r)).2
  | .error _ => default

/-- The plan of a message. -/
def messageSteps : List Step :=
  (Id.run ((layout messages.toSchema "TPMS_MESSAGE").run messages.known)).1.toOption.getD []

/-- The bodies of messages. -/
def messageBody : UnionType :=
  { members := [{ name := "word", typeName := "UINT16", selector := "TPM_KIND_WORD" },
      { name := "none", typeName := "TPMS_NULL_BODY", selector := "TPM_KIND_NONE" }]
    nullMember := some 1 }

/-- A message with a body and two bytes. -/
def messageFields : List (String × Value) :=
  [("body", .union "UINT16" (.number ⟨.u16, 7, by decide⟩)), ("data", .bytes [3, 4])]

theorem normalized_messages : messages.Normalized messageTables {} := by
  have hnormal : (match Extraction.extract messageTables {} with
    | .ok (r, _) => (Id.run ((Edit.normalize {}).run r)).1.toOption
    | .error _ => none) = some () := by decide +kernel
  unfold messages
  cases h : Extraction.extract messageTables {} with
  | error e =>
    rw [h] at hnormal
    cases hnormal
  | ok out =>
    rw [h] at hnormal
    exact ⟨out.1, out.2, h, yields_of_toOption hnormal⟩

/-- What the plan of a message is, what the types in it are, and how messages travel. -/
theorem message_facts :
    ((Id.run ((layout messages.toSchema "TPMS_MESSAGE").run messages.known)).1.toOption =
        some messageSteps ∧
      (Id.run ((tailEnd messages.toSchema "TPMS_MESSAGE").run messages.known)).1.toOption =
        some none ∧
      messageSteps.map (fun st => (st.field.name, st.op, st.isData)) =
        [("version", .constant ⟨1, false, false⟩ "2", false),
          ("kind", .selector ⟨2, false, false⟩ "body" true, false),
          ("size", .count ⟨2, false, false⟩ "data", false),
          ("body", .union "TPMU_BODY" "kind", true),
          ("data", .array .byte (.tag "size"), true)] ∧
      (messages.allFields "TPMS_MESSAGE").toOption.map (·.map (·.name)) =
        some ["version", "kind", "size", "body", "data"]) ∧
    ((messages.lookup? "TPMU_BODY").bind TypeEntry.union? = some messageBody ∧
      messages.isRecord "UINT16" = false ∧ messages.scalar? "UINT16" = some ⟨2, false, false⟩ ∧
      (Id.run ((messages.constantValue "TPM_KIND_WORD").run messages.known)).1.toOption = some 1 ∧
      (Id.run ((messages.constantValue "TPM_KIND_NONE").run messages.known)).1.toOption = some 0) ∧
    (messages.encode "TPMS_MESSAGE" (.struct messageFields)).toOption =
        some [2, 0, 1, 0, 2, 0, 7, 3, 4] ∧
      ((messages.decode "TPMS_MESSAGE" [2, 0, 1, 0, 2, 0, 7, 3, 4]).toOption.any fun v =>
        (messages.encode "TPMS_MESSAGE" v).toOption.isSome) = true := by
  decide +kernel

theorem remembers_messages : messages.toSchema.Remembers (· = messages.known) :=
  normalized_messages.normal.tailed.sound.settled.remembers

theorem plan_message :
    Plan messages.toSchema messages.known "TPMS_MESSAGE" messageSteps none := by
  obtain ⟨⟨hlayout, htail, -⟩, -⟩ := message_facts
  have hlayout := yields_of_toOption hlayout
  have htail := yields_of_toOption htail
  rw [((layout_keeps remembers_messages _).of_yields rfl hlayout).1] at hlayout
  rw [((tailEnd_keeps remembers_messages _).of_yields rfl htail).1] at htail
  exact ⟨hlayout, htail⟩

theorem yields_kind {name : String} {n : Int}
    (h : (Id.run ((messages.constantValue name).run messages.known)).1.toOption = some n) :
    Yields (messages.constantValue name) messages.known n messages.known := by
  have hy := yields_of_toOption h
  rwa [((Schema.constantValue_keeps remembers_messages name).of_yields rfl hy).1] at hy

/-- A step of a message is one of five. -/
theorem op_of_mem {st : Step} (hst : st ∈ messageSteps) :
    (st.field.name = "version" ∧ st.op = .constant ⟨1, false, false⟩ "2") ∨
      (st.field.name = "kind" ∧ st.op = .selector ⟨2, false, false⟩ "body" true) ∨
      (st.field.name = "size" ∧ st.op = .count ⟨2, false, false⟩ "data") ∨
      (st.field.name = "body" ∧ st.op = .union "TPMU_BODY" "kind") ∨
      st.field.name = "data" ∧ st.op = .array .byte (.tag "size") := by
  obtain ⟨⟨-, -, hsteps, -⟩, -⟩ := message_facts
  have hmem := List.mem_map_of_mem (f := fun st : Step => (st.field.name, st.op, st.isData)) hst
  rw [hsteps] at hmem
  simp only [List.mem_cons, List.not_mem_nil, or_false, Prod.mk.injEq] at hmem
  tauto

/-- A member of the bodies of messages that is not the absent one is a word. -/
theorem typeName_of_member {u : UnionType} {m : UnionMember} {i : Nat}
    (hu : (messages.lookup? "TPMU_BODY").bind TypeEntry.union? = some u)
    (hm : (m, i) ∈ u.members.zipIdx) (hi : u.nullMember ≠ some i) : m.typeName = "UINT16" := by
  cases message_facts.2.1.1.symm.trans hu
  simp only [messageBody, List.zipIdx_cons, List.zipIdx_nil, List.mem_cons, Prod.mk.injEq,
    List.not_mem_nil, or_false] at hm
  rcases hm with ⟨rfl, rfl⟩ | ⟨rfl, rfl⟩
  · rfl
  · exact (hi rfl).elim

/-- A message holds no structure. -/
theorem not_holds_message {st : Step} (hst : st ∈ messageSteps) {next : String} :
    ¬ st.op.Holds messages.toSchema next := by
  intro h
  rcases op_of_mem hst with ⟨-, hop⟩ | ⟨-, hop⟩ | ⟨-, hop⟩ | ⟨-, hop⟩ | ⟨-, hop⟩ <;> rw [hop] at h
  case inr.inr.inr.inl =>
    cases h with
    | member hu hm hi hr =>
      rw [typeName_of_member hu hm hi, message_facts.2.1.2.1] at hr
      cases hr
  all_goals cases h

theorem reaches_message {inner : String}
    (h : Reaches messages.toSchema messages.known "TPMS_MESSAGE" inner) :
    inner = "TPMS_MESSAGE" := by
  cases h with
  | refl => rfl
  | step hplan hst hinner =>
    obtain ⟨rfl, rfl⟩ := plan_message.unique hplan
    exact (not_holds_message hst hinner).elim

/-- The numbers in a message are no truth values. -/
theorem isBool_message {st : Step} (hst : st ∈ messageSteps) {c : Scalar}
    (h : st.op.Uses messages.toSchema c) : c.isBool = false := by
  rcases op_of_mem hst with ⟨-, hop⟩ | ⟨-, hop⟩ | ⟨-, hop⟩ | ⟨-, hop⟩ | ⟨-, hop⟩ <;> rw [hop] at h
  case inr.inr.inr.inl =>
    cases h with
    | member hu hm hi hr hc =>
      rw [typeName_of_member hu hm hi, message_facts.2.1.2.2.1] at hc
      cases hc
      rfl
  all_goals cases h <;> rfl

theorem namesDistinct_message : NamesDistinct messages "TPMS_MESSAGE" := by
  intro inner hreach fields hfields
  obtain rfl := reaches_message hreach
  obtain ⟨⟨-, -, -, hnames⟩, -⟩ := message_facts
  rw [hfields] at hnames
  have hnames : fields.map (·.name) = ["version", "kind", "size", "body", "data"] :=
    Option.some.inj hnames
  rw [hnames]
  decide

theorem allRegular_message : AllRegular messages "TPMS_MESSAGE" := by
  intro inner steps tail hreach hplan
  obtain rfl := reaches_message hreach
  obtain ⟨rfl, rfl⟩ := plan_message.unique hplan
  refine ⟨fun st hst c text hop => ?_, fun st hst c array hop => ?_, fun st hst c type hop => ?_,
    fun st hst c object derived hop => ?_, fun st hst union tag u hop hu => ?_,
    fun pre st post hsplit element hop => ?_⟩
  · exact isBool_message hst (by rw [hop]; exact .constant)
  · exact isBool_message hst (by rw [hop]; exact .count)
  · exact isBool_message hst (by rw [hop]; exact .size)
  · exact isBool_message hst (by rw [hop]; exact .selector)
  · obtain ⟨hbody, -, -, hword, hnone⟩ := message_facts.2.1
    have hunion : union = "TPMU_BODY" := by
      rcases op_of_mem hst with ⟨-, h⟩ | ⟨-, h⟩ | ⟨-, h⟩ | ⟨-, h⟩ | ⟨-, h⟩ <;>
        cases hop.symm.trans h
      rfl
    rw [hunion] at hu
    cases hbody.symm.trans hu
    exact ⟨[1, 0], by decide, .cons (yields_kind hword) (.cons (yields_kind hnone) .nil)⟩
  · have hst : st ∈ messageSteps := hsplit ▸ List.mem_append_right _ List.mem_cons_self
    rcases op_of_mem hst with ⟨-, h⟩ | ⟨-, h⟩ | ⟨-, h⟩ | ⟨-, h⟩ | ⟨-, h⟩ <;>
      cases hop.symm.trans h

/-- The message with a body is well-typed. -/
theorem wellTyped_message :
    WellTyped messages.toSchema messages.known "TPMS_MESSAGE" (.struct messageFields) := by
  obtain ⟨hbody, hrecord, hword, hkind, -⟩ := message_facts.2.1
  have hfits : ∀ st ∈ messageSteps, ∀ v, messageFields.lookup st.field.name = some v →
      Fits messages.toSchema (WellTyped messages.toSchema messages.known) st.op v := by
    intro st hst v hv
    rcases op_of_mem hst with ⟨hname, hop⟩ | ⟨hname, hop⟩ | ⟨hname, hop⟩ | ⟨hname, hop⟩ |
      ⟨hname, hop⟩ <;> rw [hname] at hv <;> cases hv <;> rw [hop]
    · exact .member (m := messageBody.members[0]) (i := 0) hbody (by decide) (by decide) hrecord
        hword ⟨_, rfl, rfl⟩
    · exact .bytes (by decide)
  have hselects : ∀ v, messageFields.lookup "body" = some v →
      Selects messages.toSchema messages.known "TPMU_BODY" v 1 := by
    rintro v ⟨⟩
    exact ⟨messageBody, messageBody.members[0], hbody, rfl, yields_kind hkind⟩
  have hunion : ∀ st ∈ messageSteps, ∀ union tag, st.op = .union union tag →
      st.field.name = "body" ∧ union = "TPMU_BODY" := by
    intro st hst union tag hop
    rcases op_of_mem hst with ⟨hname, h⟩ | ⟨hname, h⟩ | ⟨hname, h⟩ | ⟨hname, h⟩ | ⟨hname, h⟩ <;>
      cases hop.symm.trans h
    exact ⟨hname, rfl⟩
  refine .struct plan_message ?_ (fun st hst => hfits st (mem_of_mem_written hst)) ?_
  · rw [written_none]
    have hnames : (messageSteps.filter (·.isData)).map (·.field.name) = ["body", "data"] := by
      have hsteps := message_facts.1.2.2.1
      have := congrArg (fun l => (l.filter (·.2.2)).map (·.1)) hsteps
      rw [List.filter_map, List.map_map] at this
      exact this
    rw [hnames]
    exact .refl _
  · intro st hst st' hst' union union' tag hop hop' v v' hv hv'
    obtain ⟨hname, rfl⟩ := hunion st hst union tag hop
    obtain ⟨hname', rfl⟩ := hunion st' hst' union' tag hop'
    rw [hname] at hv
    rw [hname'] at hv'
    exact ⟨1, hselects v hv, hselects v' hv'⟩

/-- The message with a body is encoded. -/
theorem encode_message : messages.encode "TPMS_MESSAGE" (.struct messageFields) =
    .ok [2, 0, 1, 0, 2, 0, 7, 3, 4] := by
  have h := message_facts.2.2.1
  cases hencode : messages.encode "TPMS_MESSAGE" (.struct messageFields) with
  | error e =>
    rw [hencode] at h
    cases h
  | ok bytes =>
    rw [hencode] at h
    cases h
    rfl

theorem addressable_message : Addressable [2, 0, 1, 0, 2, 0, 7, 3, 4] := by
  unfold Addressable
  decide

theorem restLast_message : RestLast messages "TPMS_MESSAGE" := by
  intro inner steps tail hreach hplan st hst next hnext
  obtain rfl := reaches_message hreach
  obtain ⟨rfl, rfl⟩ := plan_message.unique hplan
  exact (not_holds_message hst hnext).elim

theorem withoutBools_message : WithoutBools messages "TPMS_MESSAGE" := by
  intro inner steps tail hreach hplan st hst c hc
  obtain rfl := reaches_message hreach
  obtain ⟨rfl, rfl⟩ := plan_message.unique hplan
  exact isBool_message hst hc

theorem selectorsFirst_message : SelectorsFirst messages "TPMS_MESSAGE" := by
  intro inner steps selector null hreach hplan
  obtain rfl := reaches_message hreach
  cases (plan_message.unique hplan).2

/-- Bytes of a message that are decoded, and whose value is encoded. -/
theorem exists_decode_message : ∃ v bytes',
    messages.decode "TPMS_MESSAGE" [2, 0, 1, 0, 2, 0, 7, 3, 4] = .ok v ∧
      messages.encode "TPMS_MESSAGE" v = .ok bytes' := by
  have h := message_facts.2.2.2
  cases hdecode : messages.decode "TPMS_MESSAGE" [2, 0, 1, 0, 2, 0, 7, 3, 4] with
  | error e =>
    rw [hdecode] at h
    cases h
  | ok v =>
    rw [hdecode] at h
    cases hencode : messages.encode "TPMS_MESSAGE" v with
    | error e =>
      have h : (messages.encode "TPMS_MESSAGE" v).toOption.isSome = true := h
      rw [hencode] at h
      cases h
    | ok bytes' => exact ⟨v, bytes', rfl, hencode⟩

/-- A value is encoded in bytes that are not decoded. -/
def undecoded (type : String) (v : Value) : Bool :=
  match messages.encode type v with
  | .ok bytes => (messages.decode type bytes).toOption.isNone
  | .error _ => false

theorem exists_of_undecoded {type : String} {v : Value} (h : undecoded type v = true) :
    ∃ bytes, messages.encode type v = .ok bytes ∧ ∀ w, messages.decode type bytes ≠ .ok w := by
  unfold undecoded at h
  split at h
  · next bytes hencode =>
    refine ⟨bytes, hencode, fun w hw => ?_⟩
    rw [hw] at h
    cases h
  · cases h

/-- A value is encoded in bytes that are decoded to a structure in which a field is absent. -/
def decodedAbsent (type : String) (v : Value) (name : String) : Bool :=
  match messages.encode type v with
  | .ok bytes => match messages.decode type bytes with
    | .ok (.struct fields) => match fields.lookup name with
      | some .null => true
      | _ => false
    | _ => false
  | .error _ => false

theorem exists_of_decodedAbsent {type : String} {v : Value} {name : String}
    (h : decodedAbsent type v name = true) :
    ∃ bytes fields, messages.encode type v = .ok bytes ∧
      messages.decode type bytes = .ok (.struct fields) ∧ fields.lookup name = some .null := by
  unfold decodedAbsent at h
  split at h
  · next bytes hencode =>
    split at h
    · next fields hdecode =>
      split at h
      · next hfield => exact ⟨bytes, fields, hencode, hdecode, hfield⟩
      · cases h
    · cases h
  · cases h

theorem withoutRest_message : WithoutRest messages "TPMS_MESSAGE" := by
  intro inner hreach steps tail hplan st hst element hop
  obtain rfl := reaches_message hreach
  obtain ⟨rfl, rfl⟩ := plan_message.unique hplan
  rcases op_of_mem hst with ⟨-, h⟩ | ⟨-, h⟩ | ⟨-, h⟩ | ⟨-, h⟩ | ⟨-, h⟩ <;>
    cases hop.symm.trans h

theorem tailsPlain_message : TailsPlain messages "TPMS_MESSAGE" := by
  intro inner steps tail hreach hplan selector null htail
  obtain rfl := reaches_message hreach
  obtain ⟨rfl, rfl⟩ := plan_message.unique hplan
  cases htail

/-- A message is the only structure inside itself. -/
theorem part_message {inner : String} {x : Value} (h : Part messages.toSchema messages.known
    "TPMS_MESSAGE" (.struct messageFields) inner x) :
    inner = "TPMS_MESSAGE" ∧ x = .struct messageFields := by
  cases h with
  | refl => exact ⟨rfl, rfl⟩
  | step hplan hst hw hx hrest =>
    obtain ⟨rfl, rfl⟩ := plan_message.unique hplan
    rcases op_of_mem (mem_of_mem_written hst) with ⟨hname, hop⟩ | ⟨hname, hop⟩ | ⟨hname, hop⟩ |
      ⟨hname, hop⟩ | ⟨hname, hop⟩ <;> rw [hname] at hw <;> cases hw <;> rw [hop] at hx <;> cases hx
    next hr => cases message_facts.2.1.2.1.symm.trans hr

theorem unionsNamed_message : UnionsNamed messages "TPMS_MESSAGE" (.struct messageFields) := by
  intro inner fields steps tail hpart hplan
  obtain ⟨rfl, h⟩ := part_message hpart
  cases h
  obtain ⟨rfl, rfl⟩ := plan_message.unique hplan
  refine ⟨fun st hst union tag hop v hv => ?_, fun name v count hv hcount => ?_⟩
  · rcases op_of_mem (mem_of_mem_written hst) with ⟨hname, h⟩ | ⟨hname, h⟩ | ⟨hname, h⟩ |
      ⟨hname, h⟩ | ⟨hname, h⟩ <;> cases hop.symm.trans h
    rw [hname] at hv
    cases hv
    exact ⟨messageBody, message_facts.2.1.1, .named (m := messageBody.members[0]) (i := 0)
      (by decide) (by decide)⟩
  · unfold messageFields at hv
    rw [List.lookup_cons, List.lookup_cons, List.lookup_nil] at hv
    split at hv
    · cases hv
      cases hcount
    · split at hv <;> cases hv
      cases hcount
      decide

theorem unionsConsistent_message :
    UnionsConsistent messages "TPMS_MESSAGE" (.struct messageFields) := by
  intro inner fields steps tail hpart hplan
  obtain ⟨rfl, h⟩ := part_message hpart
  cases h
  obtain ⟨rfl, rfl⟩ := plan_message.unique hplan
  intro st hst union tag hop v hv st' hst' hname helsewhere
  rcases op_of_mem (mem_of_mem_written hst) with ⟨hbody, h⟩ | ⟨hbody, h⟩ | ⟨hbody, h⟩ |
    ⟨hbody, h⟩ | ⟨hbody, h⟩ <;> cases hop.symm.trans h
  have hop' : st'.op = .selector ⟨2, false, false⟩ "body" true := by
    rcases op_of_mem hst' with ⟨hkind, h'⟩ | ⟨-, h'⟩ | ⟨hkind, h'⟩ | ⟨hkind, h'⟩ | ⟨hkind, h'⟩
    case inr.inl => exact h'
    all_goals exact absurd (hname.symm.trans hkind) (by decide)
  rcases helsewhere with helsewhere | helsewhere
  · rw [hname] at helsewhere
    exact (helsewhere rfl).elim
  · rw [hbody] at helsewhere
    exact (helsewhere _ hop').elim

end Message

variable {tables : List Table} {config : Config} {r : Registry} {type : String} {v : Value}
  {bytes bytes' : List UInt8}

theorem soundPlan_of_normalized (hr : r.Normalized tables config) (hnames : NamesDistinct r type)
    {inner : String} {steps : List Step} {tail : Option (String × Int)}
    (hreach : Reaches r.toSchema r.known type inner)
    (hplan : Plan r.toSchema r.known inner steps tail) :
    SoundPlan r.toSchema steps tail :=
  soundPlan_of_normal hr.normal hplan (hnames inner hreach)

/-- What is decoded and can be encoded is encoded in the same bytes. -/
theorem bytes_of_decode_encode (hr : r.Normalized tables config) (hnames : NamesDistinct r type)
    (hbool : WithoutBools r type) (hfirst : SelectorsFirst r type) (hbytes : Addressable bytes)
    (hdecode : r.decode type bytes = .ok v) (hencode : r.encode type v = .ok bytes') :
    bytes' = bytes := by
  have hsettled := hr.normal.tailed.sound.settled
  have h := hsettled.remembers
  obtain ⟨-, hread⟩ := (yields_decode h).mp ((Registry.decode_eq_ok hsettled).mp hdecode)
  obtain ⟨hwrite, -⟩ := (yields_encodeAt h).mp ((Registry.encode_eq_ok hsettled).mp hencode)
  have hsound : ∀ inner steps tail, Reaches r.toSchema r.known type inner →
      Plan r.toSchema r.known inner steps tail → SoundPlan r.toSchema steps tail :=
    fun _ _ _ => soundPlan_of_normalized hr hnames
  have hexact : True → ∀ inner steps tail, Reaches r.toSchema r.known type inner →
      Plan r.toSchema r.known inner steps tail →
        (∀ st ∈ steps, ∀ c, st.op.Uses r.toSchema c → c.isBool = false) ∧
          ∀ selector null, tail = some (selector, null) →
            steps.head?.map (·.field.name) = some selector := by
    refine fun _ inner steps tail hreach hplan => ⟨hbool inner steps tail hreach hplan, ?_⟩
    rintro selector null rfl
    exact hfirst inner steps selector null hreach hplan
  obtain ⟨bytes₁, hwrite₁, taken, ht, -, hsame⟩ := encodes_of_decodes h hread hbytes hsound hexact
    (fun inner fields steps tail hpart hplan =>
      accepted_of_encodes h hpart hread hwrite hsound rfl hplan) (Nat.lt_succ_self _)
  have hall : bytes = taken := by
    have := ht.left
    rwa [List.append_nil] at this
  rw [((yields_encodeAt h).mpr ⟨hwrite, rfl⟩).unique ((yields_encodeAt h).mpr ⟨hwrite₁, rfl⟩) |>.1,
    hsame trivial, hall]

theorem bytes_of_message : ∃ v bytes',
    messages.decode "TPMS_MESSAGE" [2, 0, 1, 0, 2, 0, 7, 3, 4] = .ok v ∧
      messages.encode "TPMS_MESSAGE" v = .ok bytes' ∧ bytes' = [2, 0, 1, 0, 2, 0, 7, 3, 4] := by
  obtain ⟨v, bytes', hdecode, hencode⟩ := exists_decode_message
  exact ⟨v, bytes', hdecode, hencode, bytes_of_decode_encode normalized_messages
    namesDistinct_message withoutBools_message selectorsFirst_message addressable_message hdecode
    hencode⟩

/-- A well-typed value is decoded from the bytes that it is encoded in. -/
theorem decode_encode_of_wellTyped (hr : r.Normalized tables config) (hnames : NamesDistinct r type)
    (hregular : AllRegular r type) (hrest : RestLast r type)
    (hv : WellTyped r.toSchema r.known type v)
    (hencode : r.encode type v = .ok bytes) (hbytes : Addressable bytes) :
    ∃ w, r.decode type bytes = .ok w ∧ Same v w := by
  have hsettled := hr.normal.tailed.sound.settled
  obtain ⟨w, hdecode, hsame⟩ := decode_of_wellTyped hsettled.remembers hv
    ((Registry.encode_eq_ok hsettled).mp hencode) hbytes fun inner steps tail hreach hplan =>
      ⟨soundPlan_of_normalized hr hnames hreach hplan, hregular inner steps tail hreach hplan,
        hrest inner steps tail hreach hplan⟩
  exact ⟨w, (Registry.decode_eq_ok hsettled).mpr hdecode, hsame⟩

theorem decode_message : ∃ w, messages.decode "TPMS_MESSAGE" [2, 0, 1, 0, 2, 0, 7, 3, 4] = .ok w ∧
    Same (.struct messageFields) w :=
  decode_encode_of_wellTyped normalized_messages namesDistinct_message allRegular_message
    restLast_message wellTyped_message encode_message addressable_message

/-- What is decoded can be encoded exactly when the encoder accepts every structure in it. -/
theorem encode_ok_iff_accepted (hr : r.Normalized tables config) (hnames : NamesDistinct r type)
    (hbytes : Addressable bytes) (hdecode : r.decode type bytes = .ok v) :
    (∃ bytes', r.encode type v = .ok bytes') ↔
      ∀ inner fields steps tail, Part r.toSchema r.known type v inner (.struct fields) →
        Plan r.toSchema r.known inner steps tail →
          Accepted r.toSchema r.known steps tail fields := by
  have hsettled := hr.normal.tailed.sound.settled
  have h := hsettled.remembers
  obtain ⟨-, hread⟩ := (yields_decode h).mp ((Registry.decode_eq_ok hsettled).mp hdecode)
  rw [← encodes_iff_accepted h hread hbytes
    (fun _ _ _ => soundPlan_of_normalized hr hnames) (Nat.lt_succ_self v.height)]
  refine exists_congr fun bytes' => (Registry.encode_eq_ok hsettled).trans ?_
  exact (yields_encodeAt h).trans (and_iff_left rfl)

theorem accepted_of_message : ∃ v,
    messages.decode "TPMS_MESSAGE" [2, 0, 1, 0, 2, 0, 7, 3, 4] = .ok v ∧
      ∀ inner fields steps tail,
        Part messages.toSchema messages.known "TPMS_MESSAGE" v inner (.struct fields) →
          Plan messages.toSchema messages.known inner steps tail →
            Accepted messages.toSchema messages.known steps tail fields := by
  obtain ⟨v, bytes', hdecode, hencode⟩ := exists_decode_message
  exact ⟨v, hdecode, (encode_ok_iff_accepted normalized_messages namesDistinct_message
    addressable_message hdecode).mp ⟨bytes', hencode⟩⟩

/-- The body of a union belongs to the selector that it determines; and if the bodies belong to the
selectors that come from elsewhere as well, the bytes are decoded to the same unions. -/
theorem unions_chosen_of_encode (hr : r.Normalized tables config) (hnames : NamesDistinct r type)
    (hregular : AllRegular r type) (htails : TailsPlain r type) (hrest : WithoutRest r type)
    (hunions : UnionsNamed r type v) (hencode : r.encode type v = .ok bytes)
    (hbytes : Addressable bytes) :
    (∀ inner fields steps tail, Part r.toSchema r.known type v inner (.struct fields) →
      Plan r.toSchema r.known inner steps tail → ∀ st ∈ written tail fields steps, ∀ union tag,
        st.op = .union union tag → ∀ st' ∈ steps, st'.field.name = tag →
          ∃ v n, fields.lookup st.field.name = some v ∧
            SelectorIs r.toSchema r.known steps fields st' n ∧
              (¬ FromElsewhere fields st st' → ChosenBy r.toSchema r.known union v n)) ∧
    (UnionsConsistent r type v → ∃ w, r.decode type bytes = .ok w ∧
      SameUnions r.toSchema r.known type v w) := by
  have hsettled := hr.normal.tailed.sound.settled
  obtain ⟨hchosen, hdecode⟩ := unions_of_encode hsettled.remembers
    ((Registry.encode_eq_ok hsettled).mp hencode) hbytes
    (fun inner steps tail hreach hplan => ⟨soundPlan_of_normalized hr hnames hreach hplan,
      hregular inner steps tail hreach hplan, htails inner steps tail hreach hplan,
      hrest inner hreach steps tail hplan⟩) hunions
  refine ⟨hchosen, fun hconsistent => ?_⟩
  obtain ⟨w, hw, hsame⟩ := hdecode hconsistent
  exact ⟨w, (Registry.decode_eq_ok hsettled).mpr hw, hsame⟩

theorem unions_of_message :
    ∃ w, messages.decode "TPMS_MESSAGE" [2, 0, 1, 0, 2, 0, 7, 3, 4] = .ok w ∧
    SameUnions messages.toSchema messages.known "TPMS_MESSAGE" (.struct messageFields) w :=
  (unions_chosen_of_encode normalized_messages namesDistinct_message allRegular_message
    tailsPlain_message withoutRest_message unionsNamed_message encode_message
    addressable_message).2 unionsConsistent_message

/-- A body that does not belong to the selector that is given, the type of the absent member, a body
that does not belong to the selector that another one determines, and a number of bytes that is a
truth value. -/
theorem unions_not_chosen :
    (messages.Normalized messageTables {} ∧ NamesDistinct messages "TPMS_MESSAGE" ∧
      AllRegular messages "TPMS_MESSAGE" ∧ WithoutRest messages "TPMS_MESSAGE") ∧
    (∃ bytes, messages.encode "TPMS_MESSAGE" (.struct [("kind", .number ⟨.u16, 0, by decide⟩),
        ("body", .union "UINT16" (.number ⟨.u16, 7, by decide⟩)), ("data", .bytes [])]) =
          .ok bytes ∧
      ∀ w, messages.decode "TPMS_MESSAGE" bytes ≠ .ok w) ∧
    (∃ bytes fields, messages.encode "TPMS_MESSAGE" (.struct
        [("body", .union "TPMS_NULL_BODY" (.struct [])), ("data", .bytes [])]) = .ok bytes ∧
      messages.decode "TPMS_MESSAGE" bytes = .ok (.struct fields) ∧
        fields.lookup "body" = some .null) ∧
    (∃ bytes, messages.encode "TPMS_PAIR" (.struct [("left", .null),
        ("right", .union "UINT16" (.number ⟨.u16, 7, by decide⟩))]) = .ok bytes ∧
      ∀ w, messages.decode "TPMS_PAIR" bytes ≠ .ok w) ∧
    ∃ bytes, messages.encode "TPMS_FLAGGED" (.struct [("data", .bytes [3, 4])]) = .ok bytes ∧
      ∀ w, messages.decode "TPMS_FLAGGED" bytes ≠ .ok w := by
  have hruns : undecoded "TPMS_MESSAGE" (.struct [("kind", .number ⟨.u16, 0, by decide⟩),
        ("body", .union "UINT16" (.number ⟨.u16, 7, by decide⟩)), ("data", .bytes [])]) = true ∧
      undecoded "TPMS_PAIR" (.struct [("left", .null),
        ("right", .union "UINT16" (.number ⟨.u16, 7, by decide⟩))]) = true ∧
      undecoded "TPMS_FLAGGED" (.struct [("data", .bytes [3, 4])]) = true ∧
      decodedAbsent "TPMS_MESSAGE"
        (.struct [("body", .union "TPMS_NULL_BODY" (.struct [])), ("data", .bytes [])])
        "body" = true := by
    decide +kernel
  obtain ⟨hgiven, hpair, hflagged, hnull⟩ := hruns
  exact ⟨⟨normalized_messages, namesDistinct_message, allRegular_message, withoutRest_message⟩,
    exists_of_undecoded hgiven, exists_of_decodedAbsent hnull, exists_of_undecoded hpair,
    exists_of_undecoded hflagged⟩

end Wire

end WireTables
