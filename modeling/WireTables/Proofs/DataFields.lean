import WireTables.Proofs.PlanOrder

/-!
# Parameters are what travels as data

Which fields of a structure carry data is told twice. The structure tells it of its fields by the
way in which they travel (`Record.dataFields`); these are the parameters of constructors and of the
methods of commands. The plan tells it of its steps; these are the keys of decoded values. The two
agree (`data_of_layout`) for each structure without a base, in any registry, and whatever carries no
data follows from something else (`Implied`). A structure with a base travels with the fields of its
base as well, which the structure does not tell of.
-/

namespace WireTables

namespace Wire

/-- How a field follows from something else when it carries no data. -/
inductive Implied (s : Schema) (x : Record) (steps : List Step) (f : Field) : Prop
  /-- The only value that its domain admits. -/
  | constant {c text} (hm : f.marshal = .constant) (honly : f.domain.onlyValue? = some text)
    (hstep : ⟨f, .constant c text, false⟩ ∈ steps)
  /-- The number of elements of the array that it names. -/
  | count {c array} (hm : f.marshal = .count) (hp : f.partner = some array)
    (hstep : ⟨f, .count c array, false⟩ ∈ steps)
  /-- A length, which is part of the step of the structure that it measures. -/
  | length (hm : f.marshal = .bodySize) (hnone : ∀ st ∈ steps, st.field ≠ f)
    (hsized : ∀ st ∈ steps, ∀ c object, st.op = .sized c object →
      (st.field.partner.bind x.field?) = some f → s.scalar? f.typeName = some c)
  /-- The selector of a union, which the member of the union determines. -/
  | selector {c object} {u : Field} (hm : f.marshal = .selector) (hp : f.partner = some object)
    (hstep : ⟨f, .selector c object true, false⟩ ∈ steps) (hu : u ∈ x.fields)
    (hbody : u.marshal = .unionBody) (hchosen : u.partner = some f.name)

/-- What is implied carries no data. -/
theorem Implied.isData_eq {s : Schema} {x : Record} {steps : List Step} {f : Field}
    (h : Implied s x steps f) : x.isData f = false := by
  unfold Record.isData
  cases h with
  | constant hm | count hm | length hm => rw [hm]
  | selector hm _ _ hu hbody hchosen =>
    have hselects : x.selectsUnion f = true :=
      List.any_eq_true.mpr ⟨_, hu, by simp [hbody, hchosen]⟩
    simp [hm, hselects]

/-! ## Steps and fields -/

section Steps

variable {s : Schema} {name : String} {k k' : Known} {steps : List Step} {fields : List Field}

/-- A step of a layout is the step of its field, worked out at some point. -/
theorem exists_stepOf_of_layout (h : Yields (layout s name) k steps k')
    (hfields : s.allFields name = .ok fields) {st : Step} (hst : st ∈ steps) :
    ∃ k₁ k₂, Yields (stepOf s name fields st.field) k₁ (some (st.op, st.isData)) k₂ := by
  unfold layout at h
  simp only [yields_bind, yields_ofExcept] at h
  obtain ⟨fields', _, ⟨hfields', -⟩, h⟩ := h
  cases hfields.symm.trans hfields'
  refine (h.filterMapM (I := fun _ => True) (R := fun st => ∃ k₁ k₂,
    Yields (stepOf s name fields st.field) k₁ (some (st.op, st.isData)) k₂) trivial
      fun f _ k₁ y k₂ _ hy => ?_).2 st hst
  obtain ⟨out, _, hout, hy⟩ := yields_bind.mp hy
  obtain ⟨rfl, rfl⟩ := yields_pure.mp hy
  refine ⟨trivial, fun st' hst' => ?_⟩
  obtain ⟨⟨op, isData⟩, rfl, rfl⟩ := Option.map_eq_some_iff.mp hst'
  exact ⟨_, _, hout⟩

/-- A step carries data just when its field does. -/
theorem Travels.isData_eq_record {x : Record} {f : Field} {op : Op} {isData : Bool}
    (h : Travels s x.fields f op isData) : isData = x.isData f := by
  unfold Record.isData
  cases h with
  | scalar hm => rcases hm with hm | hm <;> rw [hm]
  | selector hm =>
    rw [hm]
    rfl
  | object hm | constant hm | count hm | counted hm | fixed hm | rest hm | selected hm | sized hm
  | union hm => rw [hm]

variable {x : Record}

/-- The fields of the steps that carry data are the data fields. -/
theorem map_filter_isData (hmap : steps.map (·.field) = x.fields.filter (·.marshal != .bodySize))
    (htravels : ∀ st ∈ steps, Travels s x.fields st.field st.op st.isData) :
    (steps.filter (·.isData)).map (·.field) = x.dataFields :=
  calc (steps.filter (·.isData)).map (·.field)
      = (steps.filter fun st => x.isData st.field).map (·.field) := by
        rw [List.filter_congr fun st hst => (htravels st hst).isData_eq_record]
    _ = (steps.map (·.field)).filter x.isData := by
        rw [List.filter_map]
        rfl
    _ = (x.fields.filter (·.marshal != .bodySize)).filter x.isData := by rw [hmap]
    _ = x.dataFields := by
        rw [List.filter_filter]
        refine List.filter_congr fun f _ => ?_
        -- a length carries no data, so that leaving it out changes nothing
        cases hm : f.marshal <;> simp [Record.isData, hm]

/-- A field that carries no data follows from something else. -/
theorem implied_of_not_isData (h : Yields (layout s name) k steps k')
    (hfields : s.allFields name = .ok x.fields) {f : Field} (hf : f ∈ x.fields)
    (hdata : x.isData f = false) : Implied s x steps f := by
  obtain ⟨fields', hfields', hmap, htravels⟩ := steps_of_layout h
  cases hfields.symm.trans hfields'
  by_cases hbody : f.marshal = .bodySize
  · refine .length hbody ?_ ?_
    · rintro st hst rfl
      have hkept : st.field ∈ x.fields.filter (·.marshal != .bodySize) :=
        hmap ▸ List.mem_map_of_mem hst
      simpa [hbody] using (List.mem_filter.mp hkept).2
    · intro st hst c object hop htag
      obtain ⟨_, _, hstep⟩ := exists_stepOf_of_layout h hfields hst
      rw [hop] at hstep
      obtain ⟨-, -, tag, g, hpartner, hg, hscalar⟩ := exists_tag_of_sized hstep
      rw [hpartner, Option.bind_some] at htag
      cases hg.symm.trans htag
      exact hscalar
  · obtain ⟨⟨f, op, isData⟩, hst, rfl⟩ := step_of_field hmap hf hbody
    have htravel : Travels s x.fields f op isData := htravels _ hst
    have hflag : isData = false := htravel.isData_eq_record.trans hdata
    cases htravel with
    | scalar | object | counted | fixed | rest | selected | sized | union => cases hflag
    | constant hm hc honly => exact .constant hm honly hst
    | count hm hc hp => exact .count hm hp hst
    | selector hm hc hp =>
      have hselects : selectsObject x.fields f = true := by simpa using hflag
      rw [hselects] at hst
      obtain ⟨u, hu, hchosen⟩ := List.any_eq_true.mp hselects
      rw [Bool.and_eq_true, beq_iff_eq, beq_iff_eq] at hchosen
      exact .selector hm hp hst hu hchosen.1 hchosen.2

end Steps

/-! ## Keys of decoded values -/

section Keys

variable {s : Schema} {nested : String → Reading Value} {type : String} {p p' : Partial}
  {r r' : Reader}

/-- A step adds an entry for its field if it carries data, and none otherwise. -/
theorem exists_after_of_decodeStep {step : Step} (hdata : step.isData = step.op.isData)
    (h : Yields (decodeStep s nested type p step) r p' r') :
    ∃ v locals, v.isSome = step.isData ∧ p' = p.after step.field.name v locals := by
  unfold decodeStep at h
  cases hop : step.op with
  | scalar c =>
    simp only [hop, yields_bind, yields_pure] at h
    obtain ⟨⟨v, n⟩, _, -, rfl, -⟩ := h
    exact ⟨some v, _, by rw [hdata, hop]; rfl, rfl⟩
  | object object =>
    simp only [hop, yields_bind, yields_pure] at h
    obtain ⟨v, _, -, rfl, -⟩ := h
    exact ⟨some v, _, by rw [hdata, hop]; rfl, rfl⟩
  | constant c text =>
    simp only [hop, yields_bind] at h
    obtain ⟨v, _, -, expected, _, -, n, _, -, h⟩ := h
    split at h
    · simp only [Reading.invalid, yields_bind, not_yields_throw, false_and, exists_false] at h
    · obtain ⟨rfl, -⟩ := yields_pure.mp h
      exact ⟨none, _, by rw [hdata, hop]; rfl, rfl⟩
  | count c array =>
    simp only [hop, yields_bind, yields_pure] at h
    obtain ⟨⟨v, n⟩, _, -, rfl, -⟩ := h
    exact ⟨none, _, by rw [hdata, hop]; rfl, rfl⟩
  | array element length =>
    simp only [hop, yields_bind, yields_pure] at h
    obtain ⟨count, _, -, v, _, -, rfl, -⟩ := h
    exact ⟨some v, _, by rw [hdata, hop]; rfl, rfl⟩
  | sized size object =>
    simp only [hop, yields_bind, yields_pure] at h
    obtain ⟨v, _, -, rfl, -⟩ := h
    exact ⟨some v, _, by rw [hdata, hop]; rfl, rfl⟩
  | selector c object derived =>
    simp only [hop, yields_bind, yields_pure] at h
    obtain ⟨⟨v, n⟩, _, -, rfl, -⟩ := h
    refine ⟨if step.isData then some v else none, (step.field.name, n) :: p.locals, ?_, ?_⟩ <;>
      cases step.isData <;> rfl
  | union union tag =>
    simp only [hop, yields_bind, yields_pure] at h
    obtain ⟨n, _, -, v, _, -, rfl, -⟩ := h
    exact ⟨some v, _, by rw [hdata, hop]; rfl, rfl⟩

theorem keys_after {name : String} {v : Option Value} {locals : Locals}
    (h : v.isSome = true → name ∉ p.fields.map (·.1)) :
    (p.after name v locals).fields.map (·.1) =
      p.fields.map (·.1) ++ if v.isSome then [name] else [] := by
  cases v with
  | none => exact (List.append_nil _).symm
  | some v =>
    show (Value.putField name v p.fields).map (·.1) = _
    rw [putField_of_not_mem (h rfl), List.map_append]
    rfl

/-- The keys of what has been read are the data fields of the steps up to where the structure
ends. -/
theorem exists_keys_of_decodeSteps {tail : Option (String × Int)} {steps : List Step}
    (hdata : ∀ st ∈ steps, st.isData = st.op.isData)
    (hnames : (p.fields.map (·.1) ++ (steps.filter (·.isData)).map (·.field.name)).Nodup)
    (h : Yields (decodeSteps s nested type tail p steps) r p' r') :
    ∃ pre, pre <+: steps ∧ (tail = none → pre = steps) ∧
      p'.fields.map (·.1) = p.fields.map (·.1) ++ (pre.filter (·.isData)).map (·.field.name) := by
  induction steps generalizing p r with
  | nil =>
    obtain ⟨rfl, -⟩ := yields_pure.mp h
    exact ⟨[], List.prefix_rfl, fun _ => rfl, by simp⟩
  | cons step steps ih =>
    unfold decodeSteps at h
    obtain ⟨p₁, r₁, hstep, h⟩ := yields_bind.mp h
    obtain ⟨v, locals, hv, rfl⟩ := exists_after_of_decodeStep (hdata step List.mem_cons_self) hstep
    have hcut : ((step :: steps).filter (·.isData)).map (·.field.name) =
        (if v.isSome then [step.field.name] else []) ++
          (steps.filter (·.isData)).map (·.field.name) := by
      rw [hv, List.filter_cons]
      cases step.isData <;> rfl
    rw [hcut, ← List.append_assoc] at hnames
    have hkeys : (p.after step.field.name v locals).fields.map (·.1) = _ :=
      keys_after fun hsome hmem => by
        rw [if_pos hsome] at hnames
        exact (List.nodup_append.mp (List.nodup_append.mp hnames).1).2.2 _ hmem _
          List.mem_cons_self rfl
    split at h
    · next hend =>
      obtain ⟨rfl, -⟩ := yields_pure.mp h
      refine ⟨[step], by simp, fun htail => ?_, ?_⟩
      · rw [htail] at hend
        cases hend
      · rw [hkeys, List.filter_cons, hv]
        cases step.isData <;> rfl
    · obtain ⟨pre, hpre, hall, hp'⟩ := ih (fun st hst => hdata st (List.mem_cons_of_mem _ hst))
        (by rwa [hkeys]) h
      refine ⟨step :: pre, List.cons_prefix_cons.mpr ⟨rfl, hpre⟩,
        fun htail => by rw [hall htail], ?_⟩
      rw [hp', hkeys, hv, List.filter_cons, List.append_assoc]
      cases step.isData <;> rfl

/-- A decoded structure has been read step by step along its plan. -/
theorem exists_decodeSteps_of_decode {s : Schema} {type : String} {bytes : List UInt8} {v : Value}
    {k k' : Known} (h : Yields (decode s type bytes) k v k') :
    ∃ steps known₁ tail known₂ nested p r₁ r₂, Yields (layout s type) k steps known₁ ∧
      Yields (tailEnd s type) known₁ tail known₂ ∧
        Yields (decodeSteps s nested type tail {} steps) r₁ p r₂ ∧ v = .struct p.fields := by
  obtain ⟨_, h, -⟩ := yields_decode_iff_decodeAt.mp h
  unfold levels decodeAt decodeRecord at h
  simp only [yields_bind, yields_pure] at h
  obtain ⟨steps, _, hsteps, tail, _, htail, p, r₂, hp, rfl, -⟩ := h
  obtain ⟨known₁, hlayout, rfl⟩ := yields_coding.mp hsteps
  obtain ⟨known₂, hend, rfl⟩ := yields_coding.mp htail
  exact ⟨steps, known₁, tail, known₂, _, p, _, r₂, yields_codingEval.mp hlayout, hend, hp, rfl⟩

/-- A structure whose tail is always there goes on to its last step. -/
theorem tail_eq_none {s : Schema} {name : String} {t : TypeEntry} {x : Record}
    {tail : Option (String × Int)} {k k' : Known} (hx : s.recordOf? name = some (t, x))
    (hnull : x.nullTail = none) (h : Yields (tailEnd s name) k tail k') : tail = none := by
  unfold tailEnd recordType at h
  simp only [hx, pure_bind, hnull] at h
  exact (yields_pure.mp h).1

end Keys

variable {r : Registry} {name : String} {t : TypeEntry} {x : Record} {steps : List Step}

/-- The steps of a structure without a base that carry data are those of its data fields, in order,
and each other field follows from something else. The keys of a decoded value are the names of the
data fields, as far as the structure goes on. -/
theorem data_of_layout (hx : r.toSchema.recordOf? name = some (t, x)) (hbase : x.base = none)
    (h : r.layout name = .ok steps) :
    (steps.filter (·.isData)).map (·.field) = x.dataFields ∧
      (∀ f ∈ x.fields, f ∉ x.dataFields ↔ Implied r.toSchema x steps f) ∧
        ((x.dataFields.map (·.name)).Nodup → ∀ bytes v, r.decode name bytes = .ok v →
          ∃ entries, v = .struct entries ∧
            entries.map (·.1) <+: x.dataFields.map (·.name) ∧
              (x.nullTail = none → entries.map (·.1) = x.dataFields.map (·.name))) := by
  obtain ⟨known, hlayout⟩ := Registry.calculate_eq_ok.mp h
  obtain ⟨htarget, hrecord⟩ := Schema.recordOf?_eq_some.mp hx
  have hfields : r.allFields name = .ok x.fields :=
    Schema.collectFields_succ.mpr ⟨t, x, htarget, hrecord, .inl ⟨hbase, rfl⟩⟩
  obtain ⟨fields', hfields', hmap, htravels⟩ := steps_of_layout hlayout
  cases hfields.symm.trans hfields'
  have hdata := map_filter_isData hmap htravels
  refine ⟨hdata, fun f hf => ⟨fun hf' => ?_, fun himplied hf' => ?_⟩, fun hnames bytes v hv => ?_⟩
  · refine implied_of_not_isData hlayout hfields hf ?_
    rw [← Bool.not_eq_true]
    exact fun hisData => hf' (List.mem_filter.mpr ⟨hf, hisData⟩)
  · have hisData := (List.mem_filter.mp hf').2
    rw [himplied.isData_eq] at hisData
    cases hisData
  · obtain ⟨_, hv⟩ := Registry.calculate_eq_ok.mp hv
    obtain ⟨steps', _, tail, _, nested, p, _, _, hlayout', htail, hp, rfl⟩ :=
      exists_decodeSteps_of_decode hv
    obtain rfl := (hlayout'.unique hlayout).1
    have hkeys : (steps'.filter (·.isData)).map (·.field.name) = x.dataFields.map (·.name) := by
      rw [← hdata, List.map_map]
      rfl
    obtain ⟨pre, hpre, hall, hfields⟩ := exists_keys_of_decodeSteps
      (fun st hst => (htravels st hst).isData_eq) (by simpa [hkeys] using hnames) hp
    have hentries : p.fields.map (·.1) = (pre.filter (·.isData)).map (·.field.name) := hfields
    refine ⟨p.fields, rfl, ?_, fun hnull => ?_⟩
    · rw [hentries, ← hkeys]
      exact (hpre.filter _).map _
    · rw [hentries, hall (tail_eq_none hx hnull htail), hkeys]

/-- What carries data in a message, by its structure and by its plan, and that a message can be
decoded. -/
theorem message_data_facts :
    ((messages.recordOf? "TPMS_MESSAGE").any fun (_, x) => x.base.isNone && x.nullTail.isNone &&
        x.dataFields.map (·.name) == ["body", "data"]) = true ∧
      (messages.layout "TPMS_MESSAGE").toOption.isSome = true ∧
        (messages.decode "TPMS_MESSAGE" [2, 0, 1, 0, 2, 0, 7, 3, 4]).toOption.isSome = true := by
  decide +kernel

/-- A message has a body and data; its version, its kind and its size follow from something else,
and its body and data are the keys of what it is decoded to. -/
theorem data_of_messageLayout : ∃ t x steps,
    messages.recordOf? "TPMS_MESSAGE" = some (t, x) ∧ x.base = none ∧
      messages.layout "TPMS_MESSAGE" = .ok steps ∧
        (steps.filter (·.isData)).map (·.field.name) = ["body", "data"] ∧
          (∀ f ∈ x.fields, f ∉ x.dataFields ↔ Implied messages.toSchema x steps f) ∧
            ∃ entries, messages.decode "TPMS_MESSAGE" [2, 0, 1, 0, 2, 0, 7, 3, 4] =
              .ok (.struct entries) ∧ entries.map (·.1) = ["body", "data"] := by
  obtain ⟨hrecord, hlayout, hdecode⟩ := message_data_facts
  obtain ⟨⟨t, x⟩, hx, hfacts⟩ := (Option.any_eq_true _ _).mp hrecord
  simp only [Bool.and_eq_true, Option.isNone_iff_eq_none, beq_iff_eq] at hfacts
  obtain ⟨⟨hbase, hnull⟩, hnames⟩ := hfacts
  obtain ⟨steps, hsteps⟩ := Option.isSome_iff_exists.mp hlayout
  obtain ⟨v, hv⟩ := Option.isSome_iff_exists.mp hdecode
  obtain ⟨hdata, himplied, hkeys⟩ := data_of_layout hx hbase (ok_of_toOption hsteps)
  obtain ⟨entries, rfl, -, hall⟩ := hkeys (by rw [hnames]; decide) _ _ (ok_of_toOption hv)
  refine ⟨t, x, steps, hx, hbase, ok_of_toOption hsteps, ?_, himplied, entries, ok_of_toOption hv,
    (hall hnull).trans hnames⟩
  rw [← hnames, ← hdata, List.map_map]
  rfl

end Wire

end WireTables
