import WireTables.Proofs.Schema.Fields
import WireTables.Proofs.Wire.Reading

/-!
# Plans

The plan of a structure is its layout together with the point after which it may end. `Travels`
says by cases how a field can be put on the wire; `steps_of_layout` says that a layout has one step
for each field that is not the length of a structure, in order, each as its field travels, and
`linkedSteps_of_layout` what the steps of one layout say about each other.

Planning a structure and finding the member of a union change what is remembered about constants
only by asking for values, so they keep whatever such questions keep. In a settled registry that is
all there is to keep, and they change nothing.
-/

namespace WireTables

/-- Every constant has a value, and values are words: evaluating changes nothing. -/
structure Registry.Settled (r : Registry) : Prop where
  words : r.known.Words
  complete : r.toSchema.Complete r.known

namespace Wire

/-- How a field among the fields of its structure can be put on the wire, and whether it is part of
the value. -/
inductive Travels (s : Schema) (fields : List Field) (f : Field) : Op → Bool → Prop
  | scalar {c} (hm : f.marshal = .plain ∨ f.marshal = .sizedBody)
      (hc : s.scalar? f.typeName = some c) :
    Travels s fields f (.scalar c) true
  | object {type} (hm : f.marshal = .plain) (ht : objectName? s f.typeName = some type) :
    Travels s fields f (.object type) true
  | constant {c text} (hm : f.marshal = .constant) (hc : s.scalar? f.typeName = some c)
    (ht : f.domain.onlyValue? = some text) : Travels s fields f (.constant c text) false
  | count {c array} (hm : f.marshal = .count) (hc : s.scalar? f.typeName = some c)
    (hp : f.partner = some array) : Travels s fields f (.count c array) false
  | counted {owner element tag} (hm : f.marshal = .countedArray) (hp : f.partner = some tag)
    (he : elementOf s owner f = .ok element) : Travels s fields f (.array element (.tag tag)) true
  | fixed {owner element length} (hm : f.marshal = .fixedArray)
    (he : elementOf s owner f = .ok element) :
    Travels s fields f (.array element (.fixed length)) true
  | rest {owner element} (hm : f.marshal = .restArray) (he : elementOf s owner f = .ok element) :
    Travels s fields f (.array element .rest) true
  | selected {tag} (hm : f.marshal = .selectedArray) (hp : f.partner = some tag) :
    Travels s fields f (.array .byte (.selected f.typeName tag)) true
  | sized {c type tag} (hm : f.marshal = .sizedBody) (ht : objectName? s f.typeName = some type)
    (hg : tag ∈ fields) (hc : s.scalar? tag.typeName = some c) :
    Travels s fields f (.sized c type) true
  | selector {c object} (hm : f.marshal = .selector) (hc : s.scalar? f.typeName = some c)
    (hp : f.partner = some object) :
    Travels s fields f (.selector c object (selectsObject fields f)) (!selectsObject fields f)
  | union {tag} (hm : f.marshal = .unionBody) (hp : f.partner = some tag) :
    Travels s fields f (.union f.typeName tag) true

theorem yields_ofExcept {r : Except Error α} {k k' : Known} {a : α} :
    Yields (Eval.ofExcept r) k a k' ↔ r = .ok a ∧ k' = k :=
  yields_mk_pure

theorem scalarOf_eq_ok {s : Schema} {owner : String} {f : Field} {c : Scalar} :
    scalarOf s owner f = .ok c ↔ s.scalar? f.typeName = some c := by
  unfold scalarOf
  cases s.scalar? f.typeName <;> simp

theorem partnerOf_eq_ok {owner : String} {f : Field} {partner : String} :
    partnerOf owner f = .ok partner ↔ f.partner = some partner := by
  unfold partnerOf
  cases f.partner <;> simp

/-- What the elements of an array field are. -/
theorem of_elementOf {s : Schema} {owner : String} {f : Field} {element : Element}
    (h : elementOf s owner f = .ok element) :
    match element with
    | .byte => s.scalar? f.typeName = some byteScalar
    | .scalar c => s.scalar? f.typeName = some c
    | .object object => objectName? s f.typeName = some object := by
  unfold elementOf at h
  split at h
  · next object hobject =>
    cases h
    exact hobject
  · obtain ⟨⟨size, signed, isBool⟩, hc, h⟩ := bind_eq_ok.mp h
    have hc := scalarOf_eq_ok.mp hc
    split at h
    · next hbyte =>
      cases h
      unfold Scalar.isByte at hbyte
      simp only [Bool.and_eq_true, beq_iff_eq, Bool.not_eq_true'] at hbyte
      obtain ⟨⟨rfl, rfl⟩, rfl⟩ := hbyte
      exact hc
    · cases h
      exact hc

/-- The step of a field is one of the ways in which it can travel. -/
theorem travels_of_stepOf {s : Schema} {owner : String} {fields : List Field} {f : Field}
    {k k' : Known} {out : Option (Op × Bool)} (h : Yields (stepOf s owner fields f) k out k') :
    match out with
    | none => f.marshal = .bodySize
    | some (op, isData) => f.marshal ≠ .bodySize ∧ Travels s fields f op isData := by
  unfold stepOf at h
  cases hm : f.marshal <;> simp only [hm] at h
  case bodySize =>
    obtain ⟨rfl, -⟩ := yields_pure.mp h
    rfl
  case plain =>
    cases ht : objectName? s f.typeName <;> simp only [ht] at h
    · simp only [yields_bind, yields_pure, yields_ofExcept, scalarOf_eq_ok] at h
      obtain ⟨c, _, ⟨hc, rfl⟩, rfl, -⟩ := h
      exact ⟨by decide, .scalar (.inl hm) hc⟩
    · obtain ⟨rfl, -⟩ := yields_pure.mp h
      exact ⟨by decide, .object hm ht⟩
  case sizedBody =>
    cases ht : objectName? s f.typeName <;> simp only [ht] at h
    · simp only [yields_bind, yields_pure, yields_ofExcept, scalarOf_eq_ok] at h
      obtain ⟨c, _, ⟨hc, rfl⟩, rfl, -⟩ := h
      exact ⟨by decide, .scalar (.inr hm) hc⟩
    · simp only [yields_bind, yields_pure, yields_ofExcept, sizedStep, bind_eq_ok] at h
      obtain ⟨op, _, ⟨⟨tag, -, hop⟩, rfl⟩, rfl, -⟩ := h
      split at hop
      · next g hg =>
        obtain ⟨c, hc, hop⟩ := bind_eq_ok.mp hop
        cases hop
        exact ⟨by decide, .sized hm ht (List.mem_of_find?_eq_some hg) (scalarOf_eq_ok.mp hc)⟩
      · cases hop
  case constant =>
    split at h
    · next text ht =>
      simp only [yields_bind, yields_pure, yields_ofExcept, scalarOf_eq_ok] at h
      obtain ⟨c, _, ⟨hc, rfl⟩, rfl, -⟩ := h
      exact ⟨by decide, .constant hm hc ht⟩
    · exact (not_yields_throw h).elim
  case count =>
    simp only [yields_bind, yields_pure, yields_ofExcept, scalarOf_eq_ok, partnerOf_eq_ok] at h
    obtain ⟨c, _, ⟨hc, rfl⟩, array, _, ⟨hp, rfl⟩, rfl, -⟩ := h
    exact ⟨by decide, .count hm hc hp⟩
  case selector =>
    simp only [yields_bind, yields_pure, yields_ofExcept, scalarOf_eq_ok, partnerOf_eq_ok] at h
    obtain ⟨c, _, ⟨hc, rfl⟩, object, _, ⟨hp, rfl⟩, rfl, -⟩ := h
    exact ⟨by decide, .selector hm hc hp⟩
  case unionBody =>
    simp only [yields_bind, yields_pure, yields_ofExcept, partnerOf_eq_ok] at h
    obtain ⟨tag, _, ⟨hp, rfl⟩, rfl, -⟩ := h
    exact ⟨by decide, .union hm hp⟩
  case selectedArray =>
    simp only [yields_bind, yields_pure, yields_ofExcept, partnerOf_eq_ok] at h
    obtain ⟨tag, _, ⟨hp, rfl⟩, rfl, -⟩ := h
    exact ⟨by decide, .selected hm hp⟩
  case fixedArray =>
    simp only [yields_bind, yields_pure, yields_ofExcept] at h
    obtain ⟨element, _, ⟨he, rfl⟩, length, _, -, rfl, -⟩ := h
    exact ⟨by decide, .fixed hm he⟩
  case countedArray =>
    simp only [yields_bind, yields_pure, yields_ofExcept, partnerOf_eq_ok] at h
    obtain ⟨element, _, ⟨he, rfl⟩, tag, _, ⟨hp, rfl⟩, rfl, -⟩ := h
    exact ⟨by decide, .counted hm hp he⟩
  case restArray =>
    simp only [yields_bind, yields_pure, yields_ofExcept] at h
    obtain ⟨element, _, ⟨he, rfl⟩, rfl, -⟩ := h
    exact ⟨by decide, .rest hm he⟩

theorem steps_of_filterMapM {s : Schema} {name : String} {all fields : List Field}
    {k k' : Known} {steps : List Step}
    (h : Yields (fields.filterMapM fun f => do
      return (← stepOf s name all f).map fun (op, isData) => (⟨f, op, isData⟩ : Step)) k steps k') :
    steps.map (·.field) = fields.filter (·.marshal != .bodySize) ∧
      ∀ st ∈ steps, Travels s all st.field st.op st.isData := by
  induction fields generalizing k steps with
  | nil =>
    obtain ⟨rfl, -⟩ := yields_filterMapM_nil.mp h
    exact ⟨rfl, fun st hst => (List.not_mem_nil hst).elim⟩
  | cons f fields ih =>
    obtain ⟨y, k₁, rest, hy, hrest, rfl⟩ := yields_filterMapM_cons.mp h
    obtain ⟨out, _, hout, hy⟩ := yields_bind.mp hy
    obtain ⟨rfl, rfl⟩ := yields_pure.mp hy
    obtain ⟨hfields, htravels⟩ := ih hrest
    have hstep := travels_of_stepOf hout
    cases out with
    | none =>
      have hm : f.marshal = .bodySize := hstep
      refine ⟨?_, htravels⟩
      rw [List.filter_cons_of_neg (by simp [hm])]
      exact hfields
    | some step =>
      obtain ⟨op, isData⟩ := step
      refine ⟨?_, fun st hst => ?_⟩
      · rw [List.filter_cons_of_pos (by simpa using hstep.1), ← hfields]
        rfl
      · rcases List.mem_cons.mp hst with rfl | hst
        · exact hstep.2
        · exact htravels st hst

/-- A layout has a step for each field that is not the length of a structure, in order. -/
theorem steps_of_layout {s : Schema} {name : String} {k k' : Known} {steps : List Step}
    (h : Yields (layout s name) k steps k') :
    ∃ fields, s.allFields name = .ok fields ∧
      steps.map (·.field) = fields.filter (·.marshal != .bodySize) ∧
        ∀ st ∈ steps, Travels s fields st.field st.op st.isData := by
  unfold layout at h
  simp only [yields_bind, yields_ofExcept] at h
  obtain ⟨fields, _, ⟨hfields, rfl⟩, h⟩ := h
  exact ⟨fields, hfields, steps_of_filterMapM h⟩

/-- A field of this kind of step is part of the value. -/
def Op.isData : Op → Bool
  | .constant .. | .count .. => false
  | .selector _ _ derived => !derived
  | _ => true

theorem Travels.isData_eq {s : Schema} {fields : List Field} {f : Field} {op : Op} {isData : Bool}
    (h : Travels s fields f op isData) : isData = op.isData := by
  cases h <;> rfl

/-- What the steps of a plan say about each other. -/
structure LinkedSteps (steps : List Step) : Prop where
  names : (steps.map (·.field.name)).Nodup
  isData : ∀ st ∈ steps, st.isData = st.op.isData
  unionType : ∀ st ∈ steps, ∀ union tag, st.op = .union union tag → st.field.typeName = union
  count : ∀ st ∈ steps, ∀ c array, st.op = .count c array →
    ∃ st' ∈ steps, st'.field.name = array ∧ ∃ element, st'.op = .array element (.tag st.field.name)
  counted : ∀ pre st post, steps = pre ++ st :: post → ∀ element tag,
    st.op = .array element (.tag tag) →
      ∃ st' ∈ pre, st'.field.name = tag ∧ ∃ c, st'.op = .count c st.field.name
  selected : ∀ pre st post, steps = pre ++ st :: post → ∀ element union tag,
    st.op = .array element (.selected union tag) →
      ∃ st' ∈ pre, st'.field.name = tag ∧ ∃ c object derived, st'.op = .selector c object derived
  union : ∀ pre st post, steps = pre ++ st :: post → ∀ union tag, st.op = .union union tag →
    ∃ st' ∈ pre, st'.field.name = tag ∧ ∃ c object, st'.op = .selector c object true
  object : ∀ st ∈ steps, ∀ c object derived, st.op = .selector c object derived →
    ∀ st' ∈ steps, st'.field.name = object → ∀ union tag, st'.op = .union union tag →
      tag = st.field.name

namespace Travels

variable {s : Schema} {fields : List Field} {f : Field} {op : Op} {isData : Bool}

theorem of_count (h : Travels s fields f op isData) (hm : f.marshal = .count) :
    ∃ c array, op = .count c array ∧ f.partner = some array := by
  cases h <;> simp_all

theorem of_selector (h : Travels s fields f op isData) (hm : f.marshal = .selector) :
    ∃ c object, op = .selector c object (selectsObject fields f) ∧ f.partner = some object := by
  cases h <;> simp_all

theorem of_countedArray (h : Travels s fields f op isData) (hm : f.marshal = .countedArray) :
    ∃ element tag, op = .array element (.tag tag) ∧ f.partner = some tag := by
  cases h <;> simp_all

theorem count_inv {c : Scalar} {array : String} (h : Travels s fields f (.count c array) isData) :
    f.marshal = .count ∧ f.partner = some array ∧ s.scalar? f.typeName = some c := by
  cases h with
  | count hm hc hp => exact ⟨hm, hp, hc⟩

theorem selector_inv {c : Scalar} {object : String} {derived : Bool}
    (h : Travels s fields f (.selector c object derived) isData) :
    f.marshal = .selector ∧ f.partner = some object ∧ derived = selectsObject fields f ∧
      s.scalar? f.typeName = some c := by
  cases h with
  | selector hm hc hp => exact ⟨hm, hp, rfl, hc⟩

theorem tag_inv {element : Element} {tag : String}
    (h : Travels s fields f (.array element (.tag tag)) isData) :
    f.marshal = .countedArray ∧ f.partner = some tag := by
  cases h with
  | counted hm hp he => exact ⟨hm, hp⟩

theorem elements_of_counted {element : Element} {tag : String}
    (h : Travels s fields f (.array element (.tag tag)) isData) :
    ∃ owner, elementOf s owner f = .ok element := by
  cases h with
  | counted hm hp he => exact ⟨_, he⟩

theorem selected_inv {element : Element} {union tag : String}
    (h : Travels s fields f (.array element (.selected union tag)) isData) :
    f.marshal = .selectedArray ∧ f.partner = some tag ∧ element = .byte := by
  cases h with
  | selected hm hp => exact ⟨hm, hp, rfl⟩

theorem rest_inv {element : Element} (h : Travels s fields f (.array element .rest) isData) :
    f.marshal = .restArray := by
  cases h with
  | rest hm => exact hm

theorem union_inv {union tag : String} (h : Travels s fields f (.union union tag) isData) :
    f.marshal = .unionBody ∧ f.partner = some tag ∧ f.typeName = union := by
  cases h with
  | union hm hp => exact ⟨hm, hp, rfl⟩

end Travels

/-- Steps are steps of fields. -/
theorem field_of_step {steps : List Step} {fields : List Field} {st : Step}
    (h : steps.map (·.field) = fields.filter (·.marshal != .bodySize)) (hst : st ∈ steps) :
    st.field ∈ fields :=
  List.mem_of_mem_filter (h ▸ List.mem_map_of_mem hst)

/-- A field of a plan other than the length of a structure has a step. -/
theorem step_of_field {steps : List Step} {fields : List Field} {f : Field}
    (h : steps.map (·.field) = fields.filter (·.marshal != .bodySize)) (hf : f ∈ fields)
    (hm : f.marshal ≠ .bodySize) : ∃ st ∈ steps, st.field = f := by
  have hf : f ∈ fields.filter (·.marshal != .bodySize) :=
    List.mem_filter.mpr ⟨hf, by simpa using hm⟩
  rw [← h] at hf
  exact List.mem_map.mp hf

/-- A cut through the steps of a plan is a cut through its fields. -/
theorem split_fields {steps pre post : List Step} {fields : List Field} {st : Step}
    (h : steps.map (·.field) = fields.filter (·.marshal != .bodySize))
    (hs : steps = pre ++ st :: post) :
    ∃ before after, fields = before ++ st.field :: after ∧
      pre.map (·.field) = before.filter (·.marshal != .bodySize) := by
  rw [hs, List.map_append, List.map_cons] at h
  obtain ⟨l₁, l₂, hfields, h₁, h₂⟩ := List.filter_eq_append_iff.mp h.symm
  obtain ⟨a, b, rfl, ha, -, -⟩ := List.filter_eq_cons_iff.mp h₂
  refine ⟨l₁ ++ a, b, by rw [hfields, List.append_assoc], ?_⟩
  rw [List.filter_append, h₁, List.filter_eq_nil_iff.mpr ha, List.append_nil]

/-- Whatever a step is measured or chosen by is a step before it. -/
theorem step_before {fields : List Field} {steps pre post : List Step} {st : Step}
    (hmap : steps.map (·.field) = fields.filter (·.marshal != .bodySize)) (hlinked : Linked fields)
    (hs : steps = pre ++ st :: post) {tag : String} (htag : st.field.tag? = some tag) :
    ∃ st' ∈ pre, st'.field.name = tag ∧ st'.field.marshal = st.field.tagMarshal := by
  obtain ⟨before, after, hsplit, hpre⟩ := split_fields hmap hs
  obtain ⟨g, hg, hname, hm⟩ := hlinked.before before st.field after hsplit tag htag
  have hbody : g.marshal ≠ .bodySize := by
    rw [hm, Field.tagMarshal]
    split <;> decide
  obtain ⟨st', hst', rfl⟩ := step_of_field hpre hg hbody
  exact ⟨st', hst', hname, hm⟩

/-- The links between the fields of a structure are links between the steps of its plan. -/
theorem linkedSteps_of_layout {s : Schema} {name : String} {k k' : Known} {steps : List Step}
    {fields : List Field} (h : Yields (layout s name) k steps k')
    (hfields : s.allFields name = .ok fields) (hlinked : Linked fields)
    (hnames : (fields.map (·.name)).Nodup) : LinkedSteps steps := by
  obtain ⟨fields', hfields', hmap, htravels⟩ := steps_of_layout h
  cases hfields.symm.trans hfields'
  have mem_fields : ∀ st ∈ steps, st.field ∈ fields := fun _ => field_of_step hmap
  have mem_of_split : ∀ {pre st post}, steps = pre ++ st :: post →
      st ∈ steps ∧ ∀ st' ∈ pre, st' ∈ steps := by
    rintro pre st post rfl
    exact ⟨by simp, fun st' hst' => List.mem_append_left _ hst'⟩
  refine ⟨?names, fun st hst => (htravels st hst).isData_eq, ?unionType, ?count, ?counted,
    ?selected, ?union, ?object⟩
  case names =>
    have hsub : (steps.map (·.field.name)).Sublist (fields.map (·.name)) := by
      have : steps.map (·.field.name) = (steps.map (·.field)).map (·.name) := by
        rw [List.map_map]
        rfl
      rw [this, hmap]
      exact (List.filter_sublist).map _
    exact hsub.nodup hnames
  case unionType =>
    rintro st hst union tag hop
    have ht := htravels st hst
    rw [hop] at ht
    exact ht.union_inv.2.2
  case count =>
    rintro st hst c array hop
    have ht := htravels st hst
    rw [hop] at ht
    obtain ⟨hm, hp, -⟩ := ht.count_inv
    obtain ⟨p, hpf, hpm, hpp, hfp, -⟩ := hlinked.count st.field (mem_fields st hst) hm
    rw [hp, Option.some.injEq] at hfp
    obtain ⟨st', hst', rfl⟩ := step_of_field hmap hpf (by rw [hpm]; decide)
    obtain ⟨element, tag, hop', hp'⟩ := (htravels st' hst').of_countedArray hpm
    rw [hpp, Option.some.injEq] at hp'
    exact ⟨st', hst', hfp.symm, element, by rw [hop', hp']⟩
  case counted =>
    rintro pre st post hs element tag hop
    obtain ⟨hst, hpre⟩ := mem_of_split hs
    have ht := htravels st hst
    rw [hop] at ht
    obtain ⟨hm, hp⟩ := ht.tag_inv
    have htag : st.field.tag? = some tag := by
      rw [Field.tag?, hm]
      exact hp
    obtain ⟨st', hst', hname, hm'⟩ := step_before hmap hlinked hs htag
    rw [Field.tagMarshal, if_pos hm] at hm'
    obtain ⟨c, array, hop', hp'⟩ := (htravels st' (hpre st' hst')).of_count hm'
    obtain ⟨p, hpf, -, -, hfp, honly⟩ :=
      hlinked.count st'.field (mem_fields st' (hpre st' hst')) hm'
    have hself := honly st.field (mem_fields st hst) (by rw [hp, hname])
    rw [hp', ← hself, Option.some.injEq] at hfp
    exact ⟨st', hst', hname, c, by rw [hop', hfp]⟩
  case selected =>
    rintro pre st post hs element union tag hop
    obtain ⟨hst, hpre⟩ := mem_of_split hs
    have ht := htravels st hst
    rw [hop] at ht
    obtain ⟨hm, hp, -⟩ := ht.selected_inv
    have htag : st.field.tag? = some tag := by
      rw [Field.tag?, hm]
      exact hp
    obtain ⟨st', hst', hname, hm'⟩ := step_before hmap hlinked hs htag
    rw [Field.tagMarshal, if_neg (by rw [hm]; decide)] at hm'
    obtain ⟨c, object, hop', -⟩ := (htravels st' (hpre st' hst')).of_selector hm'
    exact ⟨st', hst', hname, c, object, _, hop'⟩
  case union =>
    rintro pre st post hs union tag hop
    obtain ⟨hst, hpre⟩ := mem_of_split hs
    have ht := htravels st hst
    rw [hop] at ht
    obtain ⟨hm, hp, -⟩ := ht.union_inv
    have htag : st.field.tag? = some tag := by
      rw [Field.tag?, hm]
      exact hp
    obtain ⟨st', hst', hname, hm'⟩ := step_before hmap hlinked hs htag
    rw [Field.tagMarshal, if_neg (by rw [hm]; decide)] at hm'
    obtain ⟨c, object, hop', -⟩ := (htravels st' (hpre st' hst')).of_selector hm'
    have hselects : selectsObject fields st'.field = true :=
      List.any_eq_true.mpr ⟨st.field, mem_fields st hst, by simp [hm, hp, hname]⟩
    rw [hselects] at hop'
    exact ⟨st', hst', hname, c, object, hop'⟩
  case object =>
    rintro st hst c object derived hop st' hst' hname union tag hop'
    have ht := htravels st hst
    rw [hop] at ht
    obtain ⟨hm, hp, -, -⟩ := ht.selector_inv
    have ht' := htravels st' hst'
    rw [hop'] at ht'
    obtain ⟨hm', hp', -⟩ := ht'.union_inv
    have := hlinked.object st.field (mem_fields st hst) hm st'.field (mem_fields st' hst')
      (by rw [hp, hname]) hm'
    rw [hp', Option.some.injEq] at this
    exact this

/-! ## What planning leaves behind -/

open Schema (Remembers)

variable {s : Schema} {P : Known → Prop}

theorem codingEval_keeps {m : Eval α} {Q : α → Prop} (h : Keeps P m Q) :
    Keeps P (Coding.eval m) Q := by
  intro k hk
  have h := h k hk
  refine ⟨h.1, fun a ha => ?_⟩
  have ha : (Id.run (m.run k)).1.mapError Fault.schema = .ok a := ha
  generalize (Id.run (m.run k)).1 = result at h ha
  cases result with
  | ok b =>
    cases ha
    exact h.2 _ rfl
  | error e => cases ha

section Coding

variable (h : s.Remembers P)

include h

theorem stepOf_keeps (owner : String) (fields : List Field) (f : Field) :
    Keeps P (stepOf s owner fields f) fun _ => True := by
  have ofExcept : ∀ {α : Type} (r : Except Error α), Keeps P (Eval.ofExcept r) fun _ => True :=
    fun r => Keeps.ofExcept fun _ _ => trivial
  unfold stepOf
  split
  · exact Keeps.pure trivial
  · split
    · exact Keeps.pure trivial
    · exact (ofExcept _).bind fun _ _ => Keeps.pure trivial
  · split
    · exact (ofExcept _).bind fun _ _ => Keeps.pure trivial
    · exact (ofExcept _).bind fun _ _ => Keeps.pure trivial
  · split
    · exact (ofExcept _).bind fun _ _ => Keeps.pure trivial
    · exact Keeps.throw
  · exact (ofExcept _).bind fun _ _ => (ofExcept _).bind fun _ _ => Keeps.pure trivial
  · exact (ofExcept _).bind fun _ _ => (ofExcept _).bind fun _ _ => Keeps.pure trivial
  · exact (ofExcept _).bind fun _ _ => Keeps.pure trivial
  · exact (ofExcept _).bind fun _ _ => Keeps.pure trivial
  · refine (ofExcept _).bind fun _ _ => Keeps.bind (Q := fun _ => True) ?_ fun _ _ =>
      Keeps.pure trivial
    unfold fixedLength
    split
    · exact Keeps.throw
    · refine (Schema.evaluate_keeps h _).bind fun n _ => ?_
      split
      · exact Keeps.throw
      · exact Keeps.pure trivial
  · exact (ofExcept _).bind fun _ _ => (ofExcept _).bind fun _ _ => Keeps.pure trivial
  · exact (ofExcept _).bind fun _ _ => Keeps.pure trivial

theorem layout_keeps (name : String) : Keeps P (layout s name) fun _ => True := by
  unfold layout
  refine (Keeps.ofExcept (Q := fun _ => True) fun _ _ => trivial).bind fun fields _ => ?_
  refine (Keeps.filterMapM (R := fun _ => True) fun f _ => ?_).trivial
  exact (stepOf_keeps h name fields f).bind fun _ _ => Keeps.pure fun _ _ => trivial

theorem memberBytes_keeps (m : UnionMember) (failure : Error) :
    Keeps P (memberBytes s m failure) fun _ => True := by
  unfold memberBytes
  split
  · refine (Schema.evaluate_keeps h _).bind fun n _ => ?_
    refine (Schema.wireSize_keeps h _).bind fun size _ => ?_
    split
    · exact Keeps.pure trivial
    · exact Keeps.throw
  · refine (Keeps.pure (Q := fun _ => True) trivial).bind fun n _ => ?_
    refine (Schema.wireSize_keeps h _).bind fun size _ => ?_
    split
    · exact Keeps.pure trivial
    · exact Keeps.throw

theorem firstSelected_keeps (union : String) (selector : Int) (members : List UnionMember) :
    Keeps P (firstSelected s union selector members) fun _ => True := by
  induction members with
  | nil => exact Keeps.pure trivial
  | cons m rest ih =>
    unfold firstSelected
    refine (Schema.constantValue_keeps h _).bind fun n _ => ?_
    split
    · exact ih
    · exact (memberBytes_keeps h m _).bind fun _ _ => Keeps.pure trivial

theorem selectedLength_keeps (union : String) (selector : Int) :
    Keeps P (selectedLength s union selector) fun _ => True := by
  unfold selectedLength
  refine (Keeps.ofExcept (Q := fun _ => True) fun _ _ => trivial).bind fun t _ => ?_
  split
  · exact firstSelected_keeps h union selector _
  · exact Keeps.throw

theorem selectedBytes_keeps (union : String) (selector : Int) :
    Keeps P (selectedBytes s union selector) fun _ => True := by
  unfold selectedBytes
  refine (codingEval_keeps (selectedLength_keeps h union selector)).bind fun n _ => ?_
  split
  · exact Keeps.pure trivial
  · exact Keeps.throw

theorem tailEnd_keeps (type : String) : Keeps P (tailEnd s type) fun _ => True := by
  unfold tailEnd recordType
  refine Keeps.bind (Q := fun _ => True) ?_ fun r _ => ?_
  · split
    · exact Keeps.pure trivial
    · exact Keeps.throw
  · split
    · exact (codingEval_keeps (Schema.constantValue_keeps h _)).bind fun _ _ =>
        Keeps.pure trivial
    · exact Keeps.pure trivial

end Coding

end Wire

end WireTables
