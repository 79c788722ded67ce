import WireTables.Proofs.Wire.Neutral
import WireTables.Proofs.WireSize
import WireTables.Target.Adapt

/-!
# Adapting a registry

Adapting a registry for a language writes names and texts of that language and nothing else: each
step of it leaves the neutral schema and the values of constants as they are (`Rewritten`), and
everything that is looked up, calculated, written or read depends on these two alone. So an adapted
registry lays out, encodes, decodes and evaluates as the registry that it was made from
(`unchanged_by_adapt`), failures included.

Steps that write a value calculate on the way. They leave nothing behind where every constant has a
value, as checking the references of a registry makes sure of.
-/

namespace WireTables

theorem Schema.names_neutral (s : Schema) : s.neutral.names = s.names := by
  simp only [names, neutral, List.map_map]
  rfl

/-- The second registry differs from the first one in what is written for a language only. -/
structure Registry.Rewritten (r r' : Registry) : Prop where
  neutral : r'.toSchema.neutral = r.toSchema.neutral
  known : r'.known = r.known

namespace Registry.Rewritten

variable {r r' r'' : Registry}

theorem refl (r : Registry) : r.Rewritten r :=
  ⟨rfl, rfl⟩

theorem trans (h : r.Rewritten r') (h' : r'.Rewritten r'') : r.Rewritten r'' :=
  ⟨h'.neutral.trans h.neutral, h'.known.trans h.known⟩

/-- What depends on the neutral schema alone is the same. -/
theorem apply_eq {α : Type} {m : Schema → α} (hm : ∀ s : Schema, m s.neutral = m s)
    (h : r.Rewritten r') : m r'.toSchema = m r.toSchema := by
  rw [← hm r'.toSchema, h.neutral, hm]

/-- What depends on the neutral schema alone has the same outcome. -/
theorem calculate_eq {ε α : Type} {m : Schema → ExceptT ε (StateM Known) α}
    (hm : ∀ s : Schema, m s.neutral = m s) (h : r.Rewritten r') :
    (r'.calculate m).1 = (r.calculate m).1 := by
  show (Id.run ((m r'.toSchema).run r'.known)).1 = (Id.run ((m r.toSchema).run r.known)).1
  rw [h.apply_eq hm, h.known]

theorem resolveConstant?_eq (h : r.Rewritten r') (name : String) :
    r'.resolveConstant? name = r.resolveConstant? name :=
  h.apply_eq (m := (Schema.resolveConstant? · name)) fun s => s.resolveConstant?_neutral name

theorem settled (h : r.Rewritten r') (hs : r.Settled) : r'.Settled := by
  refine ⟨h.known ▸ hs.words, fun name number hn => ?_⟩
  rw [h.known]
  exact hs.complete name number ((h.resolveConstant?_eq name).symm.trans hn)

theorem names_eq (h : r.Rewritten r') : r'.names = r.names :=
  h.apply_eq Schema.names_neutral

end Registry.Rewritten

namespace Schema

variable {s : Schema}

/-- A type that is changed in what is written for a language only leaves the neutral schema. -/
theorem neutral_modifyType {name : String} {f : TypeEntry → TypeEntry}
    (hf : ∀ t ∈ s.types, t.specName = name → (f t).neutral = t.neutral) :
    (s.modifyType name f).neutral = s.neutral := by
  have types : (s.types.map fun t => if t.specName == name then f t else t).map
      TypeEntry.neutral = s.types.map TypeEntry.neutral := by
    rw [List.map_map]
    refine List.map_congr_left fun t ht => ?_
    by_cases h : t.specName = name
    · simpa [h] using hf t ht h
    · simp [h]
  unfold modifyType neutral
  rw [types]

/-- Constants that are changed in what is written for a language only leave the neutral schema. -/
theorem neutral_constants {constants : Array Constant}
    (h : constants.map Constant.neutral = s.constants.map Constant.neutral) :
    { s with constants }.neutral = s.neutral := by
  unfold neutral
  rw [h]

/-- Types with the same neutral schema around them, told apart by their names. -/
theorem neutral_eq_of_specName {s' : Schema} (hnames : s.names.Nodup)
    (hneutral : s'.neutral = s.neutral) {t u : TypeEntry} (ht : t ∈ s.types) (hu : u ∈ s'.types)
    (hname : u.specName = t.specName) : u.neutral = t.neutral := by
  have hmem : u.neutral ∈ s.neutral.types := hneutral ▸ List.mem_map_of_mem hu
  obtain ⟨v, hv, hvu⟩ := List.mem_map.mp hmem
  have hname : v.specName = t.specName := (congrArg TypeEntry.specName hvu).trans hname
  rw [← hvu, List.inj_on_of_nodup_map hnames hv ht hname]

end Schema

namespace Target

variable {s : Schema} {lang : Language}

/-- The constant with a text for its value. -/
def withValue (text : Rendering) (c : Constant) : Constant :=
  { c with targetExpr := some text.text, inlined := text.inlined }

/-- Filling in the types of fields or members changes nothing else. -/
theorem neutral_withTargetTypes {kind kind' : TypeKind}
    (h : withTargetTypes s lang kind = .ok kind') : kind'.neutral = kind.neutral := by
  have mapped : ∀ {α : Type} {neutral : α → α} {f : α → Except Error α} {xs ys : List α},
      xs.mapM f = .ok ys → (∀ x y, f x = .ok y → neutral y = neutral x) →
      ys.map neutral = xs.map neutral := by
    intro α neutral f xs ys h hf
    induction mapM_eq_ok.mp h with
    | nil => rfl
    | cons hx _ ih => rw [List.map_cons, List.map_cons, hf _ _ hx, ih (mapM_eq_ok.mpr ‹_›)]
  cases kind with
  | record r =>
    obtain ⟨fields, hfields, h⟩ := bind_eq_ok.mp h
    cases h
    have same : fields.map Field.neutral = r.fields.map Field.neutral := by
      refine mapped hfields fun f g hg => ?_
      obtain ⟨_, -, hg⟩ := bind_eq_ok.mp hg
      cases hg
      rfl
    simp only [TypeKind.neutral, Record.neutral, same]
  | union u =>
    obtain ⟨members, hmembers, h⟩ := bind_eq_ok.mp h
    cases h
    have same : members.map UnionMember.neutral = u.members.map UnionMember.neutral := by
      refine mapped hmembers fun m n hn => ?_
      obtain ⟨_, -, hn⟩ := bind_eq_ok.mp hn
      cases hn
      rfl
    simp only [TypeKind.neutral, UnionType.neutral, same]
  | value | aliasOf | enum | bitfield =>
    cases h
    rfl

/-- Writing a token keeps what questions keep. -/
theorem renderToken_keeps {P : Known → Prop}
    (hconstant : ∀ name, Keeps P (s.constantValue name) fun _ => True)
    (hsize : ∀ type, Keeps P (s.wireSize type) fun _ => True) (processed : List Nat)
    (r : Rendering) (t : Token) : Keeps P (renderToken s lang processed r t) fun _ => True := by
  cases t with
  | name name =>
    show Keeps P (renderConstant s lang processed r name) _
    unfold renderConstant
    split
    · exact Keeps.throw
    dsimp only
    split
    · exact Keeps.pure trivial
    · exact (hconstant name).bind fun _ _ => Keeps.pure trivial
  | sizeOf type => exact (hsize type).bind fun _ _ => Keeps.pure trivial
  | number | operator | openParen | closeParen => exact Keeps.pure trivial

/-- Writing an expression changes nothing where every constant has a value. -/
theorem render_keeps {P : Known → Prop} (h : s.Remembers P) (processed : List Nat) (expr : String) :
    Keeps P (render s lang processed expr) fun _ => True := by
  refine Keeps.bind (Q := fun _ => True) (Keeps.ofExcept fun _ _ => trivial) fun ts _ => ?_
  refine Keeps.foldlM (R := fun _ => True) trivial fun r _ token _ => ?_
  exact renderToken_keeps (fun name => (Schema.constantValue_keeps h name).trivial)
    (fun type => (Schema.wireSize_keeps h type).trivial) processed r token

end Target

namespace Edit

variable {r r' : Registry} {lang : Language} {u : Unit}

theorem rewritten_of_update {f : Schema → Schema}
    (hf : (f r.toSchema).neutral = r.toSchema.neutral) (h : Yields (Edit.update f) r u r') :
    r.Rewritten r' := by
  obtain rfl := yields_update.mp h
  exact ⟨hf, rfl⟩

theorem rewritten_of_setTypeName {specName name : String}
    (h : Yields (setTypeName specName name) r u r') : r.Rewritten r' := by
  refine rewritten_of_update ?_ h
  exact Schema.neutral_modifyType fun _ _ _ => rfl

theorem rewritten_of_renameTypes (h : Yields (renameTypes lang) r u r') : r.Rewritten r' := by
  simp only [renameTypes, yields_bind, yields_schema] at h
  obtain ⟨_, r, ⟨rfl, rfl⟩, ⟨⟩, r₁, hnames, haliases⟩ := h
  have first : r.Rewritten r₁ := by
    refine hnames.forM (I := r.Rewritten) (.refl r) fun t _ r₁ r₂ h₁ h => ?_
    split at h
    · exact h₁.trans (rewritten_of_setTypeName h)
    · obtain ⟨-, rfl⟩ := yields_pure.mp h
      exact h₁
  refine haliases.forM (I := r.Rewritten) first fun t _ r₁ r₂ h₁ h => ?_
  split at h
  · simp only [yields_bind, yields_schema, yields_ofExcept] at h
    obtain ⟨_, r₁, ⟨rfl, rfl⟩, target, _, ⟨-, rfl⟩, h⟩ := h
    exact h₁.trans (rewritten_of_setTypeName h)
  · obtain ⟨-, rfl⟩ := yields_pure.mp h
    exact h₁

theorem rewritten_of_renameConstants
    (h : Yields (Edit.update fun s => { s with constants := s.constants.map Target.renameConstant })
      r u r') : r.Rewritten r' := by
  refine rewritten_of_update (Schema.neutral_constants ?_) h
  rw [Array.map_map]
  rfl

/-- Writing a value changes one constant, if there is one of the number, and what is remembered. -/
theorem exists_of_renderValue {processed processed' : List Nat} {number : Nat}
    (h : Yields (renderValue lang processed number) r processed' r') :
    (r.constants[number]? = none ∧ processed' = processed ∧ r' = r) ∨
    ∃ c text known, r.constants[number]? = some c ∧
      Yields (Target.render r.toSchema lang processed c.expr) r.known text known ∧
      processed' = number :: processed ∧
      r' = { r with constants := r.constants.modify number (Target.withValue text), known } := by
  unfold renderValue at h
  simp only [yields_bind, yields_schema] at h
  obtain ⟨_, r, ⟨rfl, rfl⟩, h⟩ := h
  cases hc : r.toSchema.constants[number]? with
  | none =>
    simp only [hc] at h
    obtain ⟨rfl, rfl⟩ := yields_pure.mp h
    exact .inl ⟨rfl, rfl, rfl⟩
  | some c =>
    simp only [hc, yields_bind, yields_pure, yields_update] at h
    obtain ⟨text, r₁, hcalculate, _, r₂, rfl, rfl, rfl⟩ := h
    obtain ⟨known, hrender, rfl⟩ := yields_calculate hcalculate
    exact .inr ⟨c, text, known, rfl, hrender, rfl, rfl⟩

/-- Where every constant has a value nothing more is remembered. -/
theorem renderValue_cases (hs : r.Settled) {processed processed' : List Nat} {number : Nat}
    (h : Yields (renderValue lang processed number) r processed' r') :
    (r.constants[number]? = none ∧ r' = r) ∨ ∃ c text, r.constants[number]? = some c ∧
      Yields (Target.render r.toSchema lang processed c.expr) r.known text r.known ∧
      r' = { r with constants := r.constants.modify number (Target.withValue text) } := by
  obtain ⟨hc, -, hr'⟩ | ⟨c, text, known, hc, hrender, -, rfl⟩ := exists_of_renderValue h
  · exact .inl ⟨hc, hr'⟩
  · obtain ⟨rfl, -⟩ := (Target.render_keeps hs.remembers processed c.expr).of_yields rfl hrender
    exact .inr ⟨c, text, hc, hrender, rfl⟩

theorem rewritten_of_renderValue (hs : r.Settled) {processed processed' : List Nat} {number : Nat}
    (h : Yields (renderValue lang processed number) r processed' r') : r.Rewritten r' := by
  obtain ⟨-, rfl⟩ | ⟨c, text, -, -, rfl⟩ := renderValue_cases hs h
  · exact .refl r'
  · refine ⟨Schema.neutral_constants (Array.ext (by simp) fun i h₁ h₂ => ?_), rfl⟩
    simp only [Array.getElem_map, Array.getElem_modify]
    split <;> rfl

theorem rewritten_of_renderValues (hs : r.Settled) (h : Yields (renderValues lang) r u r') :
    r.Rewritten r' := by
  simp only [renderValues, yields_bind, yields_schema, yields_pure] at h
  obtain ⟨_, r, ⟨rfl, rfl⟩, processed, r', h, -, rfl⟩ := h
  exact h.foldlM (I := r.Rewritten) (.refl r) fun _ _ _ _ _ _ h₁ h =>
    h₁.trans (rewritten_of_renderValue (h₁.settled hs) h)

theorem rewritten_of_fillTargetTypes (hnames : r.names.Nodup)
    (h : Yields (fillTargetTypes lang) r u r') : r.Rewritten r' := by
  simp only [fillTargetTypes, yields_bind, yields_schema] at h
  obtain ⟨_, r, ⟨rfl, rfl⟩, h⟩ := h
  refine h.forM (I := r.Rewritten) (.refl r) fun t ht r₁ r₂ h₁ h => ?_
  simp only [yields_bind, yields_schema, yields_ofExcept] at h
  obtain ⟨_, r₁, ⟨rfl, rfl⟩, kind, r₁, ⟨hkind, rfl⟩, h⟩ := h
  refine h₁.trans (rewritten_of_update (Schema.neutral_modifyType fun v hv hname => ?_) h)
  -- the type of this name is as it was before the loop, but for what is written for a language
  have same := Schema.neutral_eq_of_specName hnames h₁.neutral ht hv hname
  have filled : kind.neutral = v.kind.neutral :=
    (Target.neutral_withTargetTypes hkind).trans (congrArg TypeEntry.kind same).symm
  show { v with name := "", kind := kind.neutral } = v.neutral
  rw [filled]
  rfl

/-- Adapting a registry whose constants have values writes for the language only. -/
theorem rewritten_of_adapt (hs : r.Settled) (hnames : r.names.Nodup)
    (h : Yields (Edit.adapt lang) r u r') : r.Rewritten r' := by
  unfold Edit.adapt at h
  simp only [yields_bind, yields_schema] at h
  obtain ⟨_, r, ⟨rfl, rfl⟩, h⟩ := h
  cases hadapted : r.toSchema.adaptedFor with
  | some previous =>
    rw [hadapted] at h
    exact (not_yields_throw h).elim
  | none =>
    simp only [hadapted, yields_bind] at h
    obtain ⟨_, r₁, htypes, _, r₂, hconstants, _, r₃, hvalues, _, r₄, hfill, hmark⟩ := h
    have h₁ := rewritten_of_renameTypes htypes
    have h₂ := h₁.trans (rewritten_of_renameConstants hconstants)
    have h₃ := h₂.trans (rewritten_of_renderValues (h₂.settled hs) hvalues)
    have h₄ := h₃.trans (rewritten_of_fillTargetTypes (h₃.names_eq ▸ hnames) hfill)
    exact h₄.trans (rewritten_of_update rfl hmark)

end Edit

namespace Registry

/-- Plans differ in what is written for a language only. -/
theorem Rewritten.layout {r r' : Registry} (h : r.Rewritten r') (type : String) :
    (r'.layout type).map (List.map Wire.Step.neutral) =
      (r.layout type).map (List.map Wire.Step.neutral) := by
  have neutral : ∀ r : Registry, (r.layout type).map (List.map Wire.Step.neutral) =
      (Id.run ((Wire.layout r.toSchema.neutral type).run r.known)).1 := by
    intro r
    rw [Wire.layout_neutral, run_map]
    rfl
  rw [neutral, neutral, h.neutral, h.known]

theorem yields_of_adapt {r r' : Registry} {lang : Language} (h : r.adapt lang = .ok r') :
    Yields (Edit.adapt lang) r () r' := by
  unfold adapt at h
  split at h
  · next hrun =>
    cases h
    exact hrun
  · cases h

end Registry

/-- A registry whose constants have values says the same of the protocol when it has been adapted for
a language: its types stand in the same order with the same names, fields, members, domains and
roles, its structures are laid out, written and read in the same way, and sizes and expressions
have the same values. What fails does so for the same reason. -/
theorem unchanged_by_adapt {r r' : Registry} {lang : Language} (hs : r.Settled)
    (hnames : r.names.Nodup) (h : r.adapt lang = .ok r') :
    r'.toSchema.neutral = r.toSchema.neutral ∧ r'.known = r.known ∧
    (∀ type, (r'.layout type).map (List.map Wire.Step.neutral) =
      (r.layout type).map (List.map Wire.Step.neutral)) ∧
    (∀ type v, r'.encode type v = r.encode type v) ∧
    (∀ type bytes, r'.decode type bytes = r.decode type bytes) ∧
    (∀ type, r'.wireSize type = r.wireSize type) ∧
    ∀ text, (r'.calculate (·.evaluate text)).1 = (r.calculate (·.evaluate text)).1 := by
  have hy := Registry.yields_of_adapt h
  have hsame := Edit.rewritten_of_adapt hs hnames hy
  exact ⟨hsame.neutral, hsame.known,
    hsame.layout,
    fun type v => hsame.calculate_eq fun s => Wire.encode_neutral s type v,
    fun type bytes => hsame.calculate_eq fun s => Wire.decode_neutral s type bytes,
    fun type => hsame.calculate_eq fun s => Schema.wireSize_neutral s type,
    fun text => hsame.calculate_eq fun s => Schema.evaluate_neutral s text⟩

open Wire in
/-- Messages are adapted for a language that calls its numbers `int`; the kinds of their bodies get
names and texts there, and messages are read as before. -/
theorem unchanged_messages :
    (messages.Settled ∧ messages.names.Nodup) ∧ ∃ r', messages.adapt .py = .ok r' ∧
      (r'.lookup? "UINT16").map (·.name) = some "int" ∧
      (r'.constant? "TPM_KIND_WORD").bind (·.targetExpr) = some "1" ∧
      r'.toSchema.neutral = messages.toSchema.neutral ∧
      (∀ type bytes, r'.decode type bytes = messages.decode type bytes) ∧
      ∃ w, r'.decode "TPMS_MESSAGE" [2, 0, 1, 0, 2, 0, 7, 3, 4] = .ok w := by
  have hsound := normalized_messages.normal.tailed.sound
  have hadapted : (messages.adapt .py).toOption.bind (fun r' =>
      (r'.lookup? "UINT16").map (·.name)) = some "int" ∧
      (messages.adapt .py).toOption.bind (fun r' =>
        (r'.constant? "TPM_KIND_WORD").bind (·.targetExpr)) = some "1" := by
    decide +kernel
  obtain ⟨r', hr, hname⟩ := Option.bind_eq_some_iff.mp hadapted.1
  have hvalue := hadapted.2
  rw [hr, Option.bind_some] at hvalue
  have hr := ok_of_toOption hr
  obtain ⟨hneutral, -, -, -, hdecode, -⟩ := unchanged_by_adapt hsound.settled hsound.shaped.names hr
  obtain ⟨w, -, hw, -⟩ := exists_decode_message
  exact ⟨⟨hsound.settled, hsound.shaped.names⟩, r', hr, hname, hvalue, hneutral, hdecode, w,
    (hdecode _ _).trans hw⟩

end WireTables
