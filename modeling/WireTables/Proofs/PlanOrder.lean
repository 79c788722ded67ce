import WireTables.Proofs.Normal.SizedPair
import WireTables.Proofs.WireSize

/-!
# Plans are in order

Whatever tables and configuration say, the plan of a structure whose fields have different names
refers backwards only (`wellOrdered_layout`): an array comes after its count and is the only array
with this count, and what is selected comes after its selector. The length of a structure has no
step of its own; it is the field right in front of the structure, and is written with that. The
decoder relies on this order without checking it: a count that it has not met is zero to it.

Nothing is said of structures in which two fields have one name.
-/

namespace WireTables

namespace Wire

/-- The count of the array of a step. -/
def Step.count? (st : Step) : Option String :=
  match st.op with
  | .array _ (.tag count) => some count
  | _ => none

theorem Step.count?_eq_some {st : Step} {count : String} :
    st.count? = some count ↔ ∃ element, st.op = .array element (.tag count) := by
  unfold count?
  constructor
  · intro h
    split at h
    · next hop =>
      cases h
      exact ⟨_, hop⟩
    · cases h
  · rintro ⟨element, hop⟩
    rw [hop]

/-- What the steps of a plan say about the steps and fields before and after them. -/
structure WellOrdered (s : Schema) (fields : List Field) (steps : List Step) : Prop where
  count : ∀ pre st post, steps = pre ++ st :: post → ∀ c array, st.op = .count c array →
    ∃ st', post.filter (·.count? == some st.field.name) = [st'] ∧ st'.field.name = array
  counted : ∀ pre st post, steps = pre ++ st :: post → ∀ element tag,
    st.op = .array element (.tag tag) →
      ∃ st' ∈ pre, st'.field.name = tag ∧ ∃ c, st'.op = .count c st.field.name
  selected : ∀ pre st post, steps = pre ++ st :: post → ∀ element union tag,
    st.op = .array element (.selected union tag) →
      ∃ st' ∈ pre, st'.field.name = tag ∧ ∃ c object derived, st'.op = .selector c object derived
  union : ∀ pre st post, steps = pre ++ st :: post → ∀ union tag, st.op = .union union tag →
    ∃ st' ∈ pre, st'.field.name = tag ∧ ∃ c object, st'.op = .selector c object true
  size : ∀ pre f post, fields = pre ++ f :: post → f.marshal = .bodySize →
    ∃ st ∈ steps, ∃ rest, post = st.field :: rest ∧ f.partner = some st.field.name ∧
      st.field.partner = some f.name ∧
        ∃ c object, st.op = .sized c object ∧ s.scalar? f.typeName = some c

section Steps

variable {steps pre post : List Step} {st : Step} {c : Scalar} {array : String}

/-- An array with this count comes after it and is the one that the count names. -/
theorem LinkedSteps.after_count (h : LinkedSteps steps) (hs : steps = pre ++ st :: post)
    (hop : st.op = .count c array) {st' : Step} (hst' : st' ∈ steps)
    (hcount : st'.count? = some st.field.name) : st' ∈ post ∧ st'.field.name = array := by
  obtain ⟨element, hop'⟩ := Step.count?_eq_some.mp hcount
  have hst : st ∈ steps := hs ▸ List.mem_append_right _ List.mem_cons_self
  have named : ∀ {a b}, steps = a ++ st' :: b → st ∈ a ∧ st'.field.name = array := by
    intro a b hsplit
    obtain ⟨tag, htag, hname, c', hopt⟩ := h.counted a st' b hsplit element _ hop'
    have hmem : tag ∈ steps := hsplit ▸ List.mem_append_left _ htag
    obtain rfl := List.inj_on_of_nodup_map h.names hmem hst hname
    cases hop.symm.trans hopt
    exact ⟨htag, rfl⟩
  have hpost : st' ∈ post := by
    rw [hs] at hst'
    rcases List.mem_append.mp hst' with hpre | hpost
    · -- the count would come twice, also before the array
      obtain ⟨a, b, rfl⟩ := List.append_of_mem hpre
      have hfirst := (named (a := a) (b := b ++ st :: post) (by rw [hs]; simp)).1
      have hnames := h.names
      rw [hs, List.map_append, List.nodup_append] at hnames
      have hbefore : st.field.name ∈ (a ++ st' :: b).map (·.field.name) :=
        List.mem_map_of_mem (List.mem_append_left _ hfirst)
      exact (hnames.2.2 _ hbefore _ (List.mem_map_of_mem List.mem_cons_self) rfl).elim
    · rcases List.mem_cons.mp hpost with rfl | hpost
      · cases hop.symm.trans hop'
      · exact hpost
  obtain ⟨a, b, hsplit⟩ := List.append_of_mem hst'
  exact ⟨hpost, (named hsplit).2⟩

/-- After a count there is one array with this count. -/
theorem LinkedSteps.filter_count (h : LinkedSteps steps) (hs : steps = pre ++ st :: post)
    (hop : st.op = .count c array) :
    ∃ st', post.filter (·.count? == some st.field.name) = [st'] ∧ st'.field.name = array := by
  have hst : st ∈ steps := hs ▸ List.mem_append_right _ List.mem_cons_self
  obtain ⟨st', hst', hname, hop'⟩ := h.count st hst c array hop
  have hcount := Step.count?_eq_some.mpr hop'
  obtain ⟨hpost, -⟩ := h.after_count hs hop hst' hcount
  have hnodup : post.Nodup := by
    have hnames := h.names
    rw [hs, List.map_append, List.nodup_append, List.map_cons, List.nodup_cons] at hnames
    exact hnames.2.1.2.of_map _
  refine ⟨st', ?_, hname⟩
  calc post.filter (·.count? == some st.field.name)
      = post.filter (· == st') := by
        refine List.filter_congr fun x hx => ?_
        have hmem : x ∈ steps := hs ▸ List.mem_append_right _ (List.mem_cons_of_mem _ hx)
        rw [Bool.eq_iff_iff, beq_iff_eq, beq_iff_eq]
        constructor
        · intro hx'
          obtain ⟨-, hname'⟩ := h.after_count hs hop hmem hx'
          exact List.inj_on_of_nodup_map h.names hmem hst' (hname'.trans hname.symm)
        · rintro rfl
          exact hcount
    _ = [st'] := by
        rw [List.filter_beq, List.count_eq_one_of_mem hnodup hpost, List.replicate_one]

end Steps

/-- A structure behind a length is written with it. -/
theorem exists_sized_of_stepOf {s : Schema} {owner : String} {fields : List Field} {f : Field}
    {k k' : Known} {op : Op} {isData : Bool} {object : String}
    (h : Yields (stepOf s owner fields f) k (some (op, isData)) k')
    (hm : f.marshal = .sizedBody) (ho : objectName? s f.typeName = some object) :
    ∃ c, op = .sized c object := by
  unfold stepOf at h
  simp only [hm, ho, yields_bind, yields_pure, yields_ofExcept, sizedStep, bind_eq_ok] at h
  obtain ⟨op', _, ⟨⟨tag, -, hop⟩, -⟩, heq, -⟩ := h
  cases heq
  split at hop
  · obtain ⟨c, -, hop⟩ := bind_eq_ok.mp hop
    cases hop
    exact ⟨c, rfl⟩
  · cases hop

variable {tables : List Table} {config : Config} {r : Registry} {type : String}
  {fields pre post : List Field} {f : Field} {steps : List Step}

/-- The length of a structure is the first of two fields, and the second is that structure. -/
theorem exists_body_of_size (hr : r.Normalized tables config)
    (hfields : r.allFields type = .ok fields) (hs : fields = pre ++ f :: post)
    (hm : f.marshal = .bodySize) : ∃ body, pre = [] ∧ post = [body] ∧
      body.marshal = .sizedBody ∧ r.isRecord body.typeName = true ∧
        f.partner = some body.name ∧ body.partner = some f.name := by
  obtain ⟨t, ht, x, hx, -, rfl, hclean, -⟩ := hr.normal.exists_of_allFields hfields
  have hf : f ∈ x.fields := hs ▸ List.mem_append_right _ List.mem_cons_self
  obtain ⟨p, hp, hpm, hback, hpartner, -⟩ := (hclean f hf).exists_tagged (.inr ⟨hm, rfl⟩)
  have hfirst := hr.sizesFirst.entries t ht x hx
  rw [hs] at hfirst
  obtain ⟨body, rfl, rfl, hbody⟩ := hfirst.eq_of_split hm
  have hpb : p = body := by
    rw [hs] at hp
    rcases List.mem_pair.mp hp with rfl | rfl
    · cases hm.symm.trans hpm
    · rfl
  subst hpb
  rcases hbody with ⟨-, hrecord⟩ | hrest
  · exact ⟨p, rfl, rfl, hpm, hrecord, hpartner, hback⟩
  · cases hpm.symm.trans hrest

/-- The plan of a structure whose fields have different names is in order. -/
theorem wellOrdered_layout (hr : r.Normalized tables config)
    (hnames : r.toSchema.DistinctNames type) (h : r.layout type = .ok steps) :
    ∃ fields, r.allFields type = .ok fields ∧ WellOrdered r.toSchema fields steps := by
  have hremembers := hr.normal.tailed.sound.settled.remembers
  obtain ⟨known, hlayout⟩ := Registry.calculate_eq_ok.mp h
  obtain rfl := ((layout_keeps hremembers type).of_yields rfl hlayout).1
  obtain ⟨fields, hfields, hmap, -⟩ := steps_of_layout hlayout
  have hlinked := linkedSteps_of_normal hr.normal hlayout hnames
  refine ⟨fields, hfields, fun pre st post hs c array hop => hlinked.filter_count hs hop,
    hlinked.counted, hlinked.selected, hlinked.union, fun pre f post hs hm => ?_⟩
  obtain ⟨body, rfl, rfl, hbody, hrecord, hpartner, hback⟩ := exists_body_of_size hr hfields hs hm
  obtain ⟨object, hobject⟩ := Option.isSome_iff_exists.mp hrecord
  have hname : objectName? r.toSchema body.typeName = some object.1.specName :=
    congrArg (Option.map fun p : TypeEntry × Record => p.1.specName) hobject
  have hmem : body ∈ fields := by
    rw [hs]
    exact List.mem_cons_of_mem _ List.mem_cons_self
  obtain ⟨st, hst, rfl⟩ := step_of_field hmap hmem (by rw [hbody]; decide)
  obtain ⟨-, hstep⟩ := yields_stepOf_of_mem hremembers hlayout hfields hst
  obtain ⟨c, hop⟩ := exists_sized_of_stepOf hstep hbody hname
  rw [hop] at hstep
  -- the length that the step looks up by its name is the first field
  obtain ⟨-, -, tag, g, htag, hg, hscalar⟩ := exists_tag_of_sized hstep
  cases hback.symm.trans htag
  simp only [hs, List.nil_append, List.find?_cons, beq_self_eq_true, Option.some.injEq] at hg
  subst hg
  exact ⟨st, hst, [], rfl, hpartner, hback, c, _, hop, hscalar⟩

section Envelope

/-- Packets, and packets behind their length. -/
def envelopeTables : List Table :=
  packetTables ++
    [{ caption := "Table 4 — Definition of TPM2B_PACKET Structure", comment := "",
       rows := [["size=", "UINT16", ""], ["packet", "TPMS_PACKET", ""]], handleCount := 0 }]

/-- The registry of packets and envelopes. -/
def envelopes : Registry :=
  (Registry.ofTables? envelopeTables {}).getD default

theorem normalized_envelopes : envelopes.Normalized envelopeTables {} :=
  Registry.normalized_getD (by decide +kernel)

/-- The plans of a packet and an envelope, and the fields of the envelope. -/
theorem envelope_facts :
    (envelopes.layout "TPMS_PACKET").toOption.map (·.map fun st => (st.field.name, st.op)) =
        some [("kind", .selector ⟨2, false, false⟩ "body" true),
          ("size", .count ⟨2, false, false⟩ "data"), ("body", .union "TPMU_BODY" "kind"),
          ("data", .array .byte (.tag "size"))] ∧
      (envelopes.layout "TPM2B_PACKET").toOption.map (·.map fun st => (st.field.name, st.op)) =
        some [("packet", .sized ⟨2, false, false⟩ "TPMS_PACKET")] ∧
      (envelopes.allFields "TPM2B_PACKET").toOption.map (·.map fun f => (f.name, f.marshal)) =
        some [("size", .bodySize), ("packet", .sizedBody)] ∧
      ∀ type ∈ ["TPMS_PACKET", "TPM2B_PACKET"],
        (envelopes.layout type).toOption.isSome = true ∧
          (envelopes.allFields type).toOption.all (fun fields =>
            decide (fields.map (·.name)).Nodup) = true := by
  decide +kernel

/-- The plans of packets and envelopes are in order. -/
theorem wellOrdered_envelopes :
    (envelopes.toSchema.DistinctNames "TPMS_PACKET" ∧ ∃ steps fields,
      envelopes.layout "TPMS_PACKET" = .ok steps ∧ envelopes.allFields "TPMS_PACKET" = .ok fields ∧
        WellOrdered envelopes.toSchema fields steps) ∧
    envelopes.toSchema.DistinctNames "TPM2B_PACKET" ∧ ∃ steps fields,
      envelopes.layout "TPM2B_PACKET" = .ok steps ∧
        envelopes.allFields "TPM2B_PACKET" = .ok fields ∧
          WellOrdered envelopes.toSchema fields steps := by
  have ordered : ∀ type ∈ ["TPMS_PACKET", "TPM2B_PACKET"],
      envelopes.toSchema.DistinctNames type ∧ ∃ steps fields, envelopes.layout type = .ok steps ∧
        envelopes.allFields type = .ok fields ∧ WellOrdered envelopes.toSchema fields steps := by
    intro type htype
    obtain ⟨hsome, hall⟩ := envelope_facts.2.2.2 type htype
    have hnames : envelopes.toSchema.DistinctNames type := fun fields hfields => by
      rw [hfields] at hall
      exact of_decide_eq_true hall
    obtain ⟨steps, hsteps⟩ := Option.isSome_iff_exists.mp hsome
    have hlayout := ok_of_toOption hsteps
    obtain ⟨fields, hfields, hordered⟩ :=
      wellOrdered_layout normalized_envelopes hnames hlayout
    exact ⟨hnames, steps, fields, hlayout, hfields, hordered⟩
  exact ⟨ordered _ List.mem_cons_self, ordered _ (List.mem_cons_of_mem _ List.mem_cons_self)⟩

end Envelope

end Wire

end WireTables
