import WireTables.Proofs.Editing
import WireTables.Proofs.Wire.Plan

/-!
# Fields that fit

Whether a structure has a layout is nearly always a matter of its fields one by one: a field needs a
type that can be put on the wire in its way, and perhaps a partner or a value (`Suits`). Beyond that
only a structure after its length looks at another field (`Measured`), and only the length of an
array of constant length has to be worked out. So a structure whose fields fit has a layout unless
such a length fails (`layout_outcome`), and the fields of a structure that has a layout fit
(`fits_of_layout`).
-/

namespace WireTables

section Fails

variable {ε σ α β : Type} {m : ExceptT ε (StateM σ) α} {s s' : σ} {e : ε}

/-- Started in `s`, the calculation fails with `e` and leaves `s'`. -/
def Fails (m : ExceptT ε (StateM σ) α) (s : σ) (e : ε) (s' : σ) : Prop :=
  Id.run (m.run s) = (.error e, s')

variable (m s) in
/-- A calculation ends well or fails. -/
theorem yields_or_fails : (∃ a s', Yields m s a s') ∨ ∃ e s', Fails m s e s' := by
  unfold Yields Fails
  rcases Id.run (m.run s) with ⟨r, s'⟩
  cases r with
  | ok a => exact .inl ⟨a, s', rfl⟩
  | error e => exact .inr ⟨e, s', rfl⟩

instance : Decidable (∃ a s', Yields m s a s') :=
  match h : Id.run (m.run s) with
  | (.ok a, s') => .isTrue ⟨a, s', h⟩
  | (.error e, s') => .isFalse fun ⟨_, _, hy⟩ => by
    unfold Yields at hy
    cases h.symm.trans hy

theorem Fails.not_yields {a : α} {s'' : σ} (h : Fails m s e s') : ¬ Yields m s a s'' := by
  intro hy
  cases h.symm.trans hy

/-- A sequence fails with its first part or with what comes after. -/
theorem fails_bind {f : α → ExceptT ε (StateM σ) β} : Fails (m >>= f) s e s' ↔
    Fails m s e s' ∨ ∃ a s₁, Yields m s a s₁ ∧ Fails (f a) s₁ e s' := by
  unfold Fails Yields
  rw [run_bind]
  rcases Id.run (m.run s) with ⟨r, s₁⟩
  cases r with
  | ok a =>
    refine ⟨fun h => .inr ⟨a, s₁, rfl, h⟩, ?_⟩
    rintro (h | ⟨_, _, h, hf⟩)
    · cases h
    · cases h
      exact hf
  | error e' =>
    refine ⟨fun h => ?_, ?_⟩
    · cases h
      exact .inl rfl
    · rintro (h | ⟨_, _, h, -⟩) <;> cases h
      rfl

/-- A list is worked through from the front up to the first element that fails. -/
theorem filterMapM_outcome {f : α → ExceptT ε (StateM σ) (Option β)} : ∀ (xs : List α) (s : σ),
    (∃ ys s', Yields (xs.filterMapM f) s ys s') ∨
      ∃ x ∈ xs, ∃ s₁ e s', Fails (f x) s₁ e s' ∧ Fails (xs.filterMapM f) s e s'
  | [], s => .inl ⟨[], s, yields_filterMapM_nil.mpr ⟨rfl, rfl⟩⟩
  | x :: xs, s => by
    rcases yields_or_fails (f x) s with ⟨y, s₁, hy⟩ | ⟨e, s', hfail⟩
    · rcases filterMapM_outcome xs s₁ with ⟨ys, s', hys⟩ | ⟨z, hz, s₂, e, s', hfail, hrest⟩
      · exact .inl ⟨_, s', yields_filterMapM_cons.mpr ⟨y, s₁, ys, hy, hys, rfl⟩⟩
      · refine .inr ⟨z, List.mem_cons_of_mem _ hz, s₂, e, s', hfail, ?_⟩
        rw [List.filterMapM_cons]
        refine fails_bind.mpr (.inr ⟨y, s₁, hy, ?_⟩)
        cases y with
        | none => exact hrest
        | some b => exact fails_bind.mpr (.inl hrest)
    · refine .inr ⟨x, List.mem_cons_self, s, e, s', hfail, ?_⟩
      rw [List.filterMapM_cons]
      exact fails_bind.mpr (.inl hfail)

end Fails

/-- The name denotes a structure or an elementary value. -/
def Schema.IsData (s : Schema) (type : String) : Prop :=
  s.isRecord type = true ∨ (s.scalar? type).isSome = true

namespace Wire

/-- The field has what its step needs, apart from other fields and from the value of its length. -/
def Suits (s : Schema) (f : Field) : Prop :=
  match f.marshal with
  | .bodySize => True
  | .plain | .fixedArray | .restArray => s.IsData f.typeName
  | .countedArray => s.IsData f.typeName ∧ f.partner.isSome = true
  | .sizedBody => s.IsData f.typeName ∧ (s.isRecord f.typeName = true → f.partner.isSome = true)
  | .constant => (s.scalar? f.typeName).isSome = true ∧ f.domain.onlyValue?.isSome = true
  | .count | .selector => (s.scalar? f.typeName).isSome = true ∧ f.partner.isSome = true
  | .unionBody | .selectedArray => f.partner.isSome = true

/-- If the field is a structure after its length, this length is the first of the fields of its
name, and an elementary value. -/
def Measured (s : Schema) (fields : List Field) (f : Field) : Prop :=
  f.marshal = .sizedBody → s.isRecord f.typeName = true → ∀ tag, f.partner = some tag →
    ∃ g, fields.find? (·.name == tag) = some g ∧ (s.scalar? g.typeName).isSome = true

variable {s : Schema} {owner : String} {fields : List Field} {f : Field} {k k' : Known}

theorem isSome_objectName? {type : String} :
    (objectName? s type).isSome = true ↔ s.isRecord type = true := by
  unfold objectName? Schema.isRecord
  rw [Option.isSome_map]

theorem exists_elementOf : (∃ element, elementOf s owner f = .ok element) ↔
    s.IsData f.typeName := by
  unfold elementOf Schema.IsData
  rw [← isSome_objectName?]
  cases ho : objectName? s f.typeName with
  | some object => exact ⟨fun _ => .inl rfl, fun _ => ⟨_, rfl⟩⟩
  | none =>
    constructor
    · rintro ⟨element, he⟩
      obtain ⟨c, hc, -⟩ := bind_eq_ok.mp he
      exact .inr (Option.isSome_iff_exists.mpr ⟨c, scalarOf_eq_ok.mp hc⟩)
    · rintro (h | h)
      · cases h
      · obtain ⟨c, hc⟩ := Option.isSome_iff_exists.mp h
        exact ⟨_, bind_eq_ok.mpr ⟨c, scalarOf_eq_ok.mpr hc, rfl⟩⟩

/-- A field that travels fits. -/
theorem Travels.fits {op : Op} {isData : Bool} (h : Travels s fields f op isData)
    (hpartner : f.marshal = .sizedBody → s.isRecord f.typeName = true → f.partner.isSome = true) :
    Suits s f := by
  unfold Suits
  cases h with
  | scalar hm hc =>
    have hdata : s.IsData f.typeName := .inr (by rw [hc]; rfl)
    rcases hm with hm | hm <;> simp only [hm]
    · exact hdata
    · exact ⟨hdata, hpartner hm⟩
  | object hm ht =>
    simp only [hm]
    exact .inl (isSome_objectName?.mp (by rw [ht]; rfl))
  | constant hm hc ht =>
    simp only [hm, hc, ht]
    exact ⟨rfl, rfl⟩
  | count hm hc hp =>
    simp only [hm, hc, hp]
    exact ⟨rfl, rfl⟩
  | counted hm hp he =>
    simp only [hm, hp]
    exact ⟨exists_elementOf.mp ⟨_, he⟩, rfl⟩
  | fixed hm he =>
    simp only [hm]
    exact exists_elementOf.mp ⟨_, he⟩
  | rest hm he =>
    simp only [hm]
    exact exists_elementOf.mp ⟨_, he⟩
  | selected hm hp =>
    simp only [hm, hp]
    rfl
  | sized hm ht hg hc =>
    simp only [hm]
    exact ⟨.inl (isSome_objectName?.mp (by rw [ht]; rfl)), hpartner hm⟩
  | selector hm hc hp =>
    simp only [hm, hc, hp]
    exact ⟨rfl, rfl⟩
  | union hm hp =>
    simp only [hm, hp]
    rfl

/-- The step of a structure after its length, whose length has been found by its name. -/
theorem sized_of_stepOf {op : Op} {isData : Bool}
    (h : Yields (stepOf s owner fields f) k (some (op, isData)) k') (hm : f.marshal = .sizedBody)
    (hr : s.isRecord f.typeName = true) : ∃ object tag g c,
      objectName? s f.typeName = some object ∧ f.partner = some tag ∧
        fields.find? (·.name == tag) = some g ∧ s.scalar? g.typeName = some c ∧
          op = .sized c object := by
  obtain ⟨object, ho⟩ := Option.isSome_iff_exists.mp (isSome_objectName?.mpr hr)
  unfold stepOf at h
  simp only [hm, ho, yields_bind, yields_pure, yields_ofExcept, sizedStep, bind_eq_ok,
    partnerOf_eq_ok] at h
  obtain ⟨op', _, ⟨⟨tag, htag, hop⟩, rfl⟩, heq, -⟩ := h
  cases heq
  split at hop
  · next g hg =>
    obtain ⟨c, hc, hop⟩ := bind_eq_ok.mp hop
    cases hop
    exact ⟨object, tag, g, c, ho, htag, hg, scalarOf_eq_ok.mp hc, rfl⟩
  · cases hop

/-- The length of a structure has been found when the step of the structure has. -/
theorem measured_of_stepOf {out : Option (Op × Bool)}
    (h : Yields (stepOf s owner fields f) k out k') :
    Measured s fields f ∧
      (f.marshal = .sizedBody → s.isRecord f.typeName = true → f.partner.isSome = true) := by
  have hsized : f.marshal = .sizedBody → s.isRecord f.typeName = true →
      ∃ tag g, f.partner = some tag ∧ fields.find? (·.name == tag) = some g ∧
        (s.scalar? g.typeName).isSome = true := by
    intro hm hr
    cases out with
    | none => cases hm.symm.trans (travels_of_stepOf h)
    | some step =>
      obtain ⟨-, tag, g, c, -, htag, hg, hc, -⟩ := sized_of_stepOf h hm hr
      exact ⟨tag, g, htag, hg, hc ▸ rfl⟩
  refine ⟨fun hm hr tag htag => ?_, fun hm hr => ?_⟩
  · obtain ⟨tag', g, htag', hg, hc⟩ := hsized hm hr
    cases htag.symm.trans htag'
    exact ⟨g, hg, hc⟩
  · obtain ⟨tag, -, htag, -⟩ := hsized hm hr
    rw [htag]
    rfl

theorem fits_of_stepOf {out : Option (Op × Bool)}
    (h : Yields (stepOf s owner fields f) k out k') : Suits s f := by
  have htravels := travels_of_stepOf h
  cases out with
  | none =>
    unfold Suits
    rw [show f.marshal = .bodySize from htravels]
    trivial
  | some step => exact htravels.2.fits (measured_of_stepOf h).2

/-- The fields that have been worked through fit. -/
theorem fits_of_filterMapM {rest : List Field} {steps : List Step}
    (h : Yields (rest.filterMapM fun f => do
      return (← stepOf s owner fields f).map fun (op, isData) => (⟨f, op, isData⟩ : Step))
        k steps k') : ∀ f ∈ rest, Suits s f ∧ Measured s fields f := by
  induction rest generalizing k steps with
  | nil => exact fun f hf => (List.not_mem_nil hf).elim
  | cons g rest ih =>
    obtain ⟨y, k₁, steps', hy, hrest, -⟩ := yields_filterMapM_cons.mp h
    obtain ⟨out, _, hout, -⟩ := yields_bind.mp hy
    intro f hf
    rcases List.mem_cons.mp hf with rfl | hf
    · exact ⟨fits_of_stepOf hout, (measured_of_stepOf hout).1⟩
    · exact ih hrest f hf

/-- Every step of a layout is the step of its field. -/
theorem stepOf_of_layout {name : String} {steps : List Step}
    (h : Yields (layout s name) k steps k') : ∃ fields, s.allFields name = .ok fields ∧
      ∀ st ∈ steps, ∃ k₁ k₂, Yields (stepOf s name fields st.field) k₁
        (some (st.op, st.isData)) k₂ := by
  unfold layout at h
  simp only [yields_bind, yields_ofExcept] at h
  obtain ⟨fields, _, ⟨hfields, rfl⟩, h⟩ := h
  refine ⟨fields, hfields, (Yields.filterMapM (I := fun _ => True) (R := fun st : Step => ∃ k₁ k₂,
    Yields (stepOf s name fields st.field) k₁ (some (st.op, st.isData)) k₂) h trivial
      fun f _ k₁ y k₂ _ hy => ⟨trivial, fun st hst => ?_⟩).2⟩
  obtain ⟨out, k₃, hout, hend⟩ := yields_bind.mp hy
  obtain ⟨rfl, rfl⟩ := yields_pure.mp hend
  obtain ⟨⟨op, isData⟩, rfl, rfl⟩ := Option.map_eq_some_iff.mp hst
  exact ⟨k₁, k₂, hout⟩

/-- The fields of a structure that has a layout fit, and lengths of structures are found. -/
theorem fits_of_layout {name : String} {steps : List Step}
    (h : Yields (layout s name) k steps k') : ∃ fields, s.allFields name = .ok fields ∧
      ∀ f ∈ fields, Suits s f ∧ Measured s fields f := by
  unfold layout at h
  simp only [yields_bind, yields_ofExcept] at h
  obtain ⟨fields, _, ⟨hfields, rfl⟩, h⟩ := h
  exact ⟨fields, hfields, fits_of_filterMapM h⟩

theorem exists_scalarOf (h : (s.scalar? f.typeName).isSome = true) :
    ∃ c, scalarOf s owner f = .ok c :=
  let ⟨c, hc⟩ := Option.isSome_iff_exists.mp h
  ⟨c, scalarOf_eq_ok.mpr hc⟩

theorem exists_partnerOf (h : f.partner.isSome = true) : ∃ p, partnerOf owner f = .ok p :=
  let ⟨p, hp⟩ := Option.isSome_iff_exists.mp h
  ⟨p, partnerOf_eq_ok.mpr hp⟩

/-- What can be looked up is looked up, and the state stays as it is. -/
theorem exists_yields_ofExcept {α β : Type} {r : Except Error α} {next : α → Eval β}
    (hr : ∃ a, r = .ok a) (hnext : ∀ a, ∃ out, Yields (next a) k out k) :
    ∃ out, Yields (Eval.ofExcept r >>= next) k out k := by
  obtain ⟨a, ha⟩ := hr
  obtain ⟨out, hout⟩ := hnext a
  exact ⟨out, yields_bind.mpr ⟨a, k, yields_ofExcept.mpr ⟨ha, rfl⟩, hout⟩⟩

/-- The length of a structure that fits is found. -/
theorem exists_sizedStep {object : String} (hmeasured : Measured s fields f)
    (hm : f.marshal = .sizedBody) (hr : s.isRecord f.typeName = true)
    (hp : f.partner.isSome = true) : ∃ op, sizedStep s owner fields f object = .ok op := by
  obtain ⟨tag, htag⟩ : ∃ tag, partnerOf owner f = .ok tag := exists_partnerOf hp
  obtain ⟨g, hg, hc⟩ := hmeasured hm hr tag (partnerOf_eq_ok.mp htag)
  obtain ⟨c, hc⟩ : ∃ c, scalarOf s owner g = .ok c := exists_scalarOf hc
  refine ⟨.sized c object, bind_eq_ok.mpr ⟨tag, htag, ?_⟩⟩
  simp only [hg]
  exact bind_eq_ok.mpr ⟨c, hc, rfl⟩

/-- A field that fits has a step, unless it is an array of constant length. -/
theorem exists_stepOf (hfits : Suits s f) (hmeasured : Measured s fields f)
    (hm : f.marshal ≠ .fixedArray) (k : Known) :
    ∃ out, Yields (stepOf s owner fields f) k out k := by
  have done : ∀ out : Option (Op × Bool), ∃ out', Yields (pure out : Eval _) k out' k :=
    fun out => ⟨out, yields_pure.mpr ⟨rfl, rfl⟩⟩
  -- a name that denotes no structure denotes an elementary value
  have scalar : s.IsData f.typeName → objectName? s f.typeName = none →
      ∃ c, scalarOf s owner f = .ok c := by
    rintro (hr | hc) hnone
    · rw [← isSome_objectName?, hnone] at hr
      cases hr
    · exact exists_scalarOf hc
  unfold Suits at hfits
  unfold stepOf
  cases hk : f.marshal <;> simp only [hk] at hfits ⊢
  case bodySize => exact done _
  case plain =>
    cases ho : objectName? s f.typeName with
    | some object => exact done _
    | none => exact exists_yields_ofExcept (scalar hfits ho) fun _ => done _
  case sizedBody =>
    cases ho : objectName? s f.typeName with
    | some object =>
      have hr : s.isRecord f.typeName = true := isSome_objectName?.mp (by rw [ho]; rfl)
      exact exists_yields_ofExcept (exists_sizedStep hmeasured hk hr (hfits.2 hr)) fun _ => done _
    | none => exact exists_yields_ofExcept (scalar hfits.1 ho) fun _ => done _
  case constant =>
    obtain ⟨value, hvalue⟩ := Option.isSome_iff_exists.mp hfits.2
    simp only [hvalue]
    exact exists_yields_ofExcept (exists_scalarOf hfits.1) fun _ => done _
  case count =>
    exact exists_yields_ofExcept (exists_scalarOf hfits.1) fun _ =>
      exists_yields_ofExcept (exists_partnerOf hfits.2) fun _ => done _
  case selector =>
    exact exists_yields_ofExcept (exists_scalarOf hfits.1) fun _ =>
      exists_yields_ofExcept (exists_partnerOf hfits.2) fun _ => done _
  case unionBody => exact exists_yields_ofExcept (exists_partnerOf hfits) fun _ => done _
  case selectedArray => exact exists_yields_ofExcept (exists_partnerOf hfits) fun _ => done _
  case fixedArray => exact (hm hk).elim
  case countedArray =>
    exact exists_yields_ofExcept (exists_elementOf.mpr hfits.1) fun _ =>
      exists_yields_ofExcept (exists_partnerOf hfits.2) fun _ => done _
  case restArray => exact exists_yields_ofExcept (exists_elementOf.mpr hfits) fun _ => done _

/-- An array of constant length that fits fails with its length. -/
theorem fails_of_fixedArray (hfits : Suits s f) (hm : f.marshal = .fixedArray) {e : Error}
    (h : Fails (stepOf s owner fields f) k e k') : Fails (fixedLength s owner f) k e k' := by
  unfold Suits at hfits
  rw [hm] at hfits
  obtain ⟨element, he⟩ : ∃ element, elementOf s owner f = .ok element := exists_elementOf.mpr hfits
  unfold stepOf at h
  simp only [hm, fails_bind, yields_ofExcept] at h
  rcases h with h | ⟨_, _, ⟨-, rfl⟩, h | ⟨n, k₂, -, h⟩⟩
  · cases he.symm.trans (congrArg Prod.fst h)
  · exact h
  · cases h

/-- A structure whose fields fit has a layout unless the length of an array fails. -/
theorem layout_outcome {name : String} {stray : Field → Prop}
    (hfields : s.allFields name = .ok fields)
    (hfits : ∀ f ∈ fields, Suits s f ∧ Measured s fields f ∨ stray f) (k : Known) :
    (∃ steps k', Yields (layout s name) k steps k') ∨
      (∃ f ∈ fields, f.marshal = .fixedArray ∧ ∃ k₁ e k', Fails (fixedLength s name f) k₁ e k' ∧
        Fails (layout s name) k e k') ∨ ∃ f ∈ fields, stray f := by
  have hall : layout s name = fields.filterMapM fun f => do
      return (← stepOf s name fields f).map fun (op, isData) => (⟨f, op, isData⟩ : Step) := by
    unfold layout
    rw [hfields]
    rfl
  rw [hall]
  rcases filterMapM_outcome (f := fun f => do
      return (← stepOf s name fields f).map fun (op, isData) => (⟨f, op, isData⟩ : Step)) fields k
    with hyields | ⟨f, hf, k₁, e, k', hfail, hrest⟩
  · exact .inl hyields
  · rcases hfits f hf with ⟨hfit, hmeasured⟩ | hstray
    · refine .inr (.inl ⟨f, hf, ?_⟩)
      rcases fails_bind.mp hfail with hstep | ⟨_, _, -, hpure⟩
      · by_cases hm : f.marshal = .fixedArray
        · exact ⟨hm, k₁, e, k', fails_of_fixedArray hfit hm hstep, hrest⟩
        · obtain ⟨out, hout⟩ := exists_stepOf hfit hmeasured hm k₁
          exact (hstep.not_yields hout).elim
      · cases hpure
    · exact .inr (.inr ⟨f, hf, hstray⟩)

end Wire

end WireTables
