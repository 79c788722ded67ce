import WireTables.Proofs.Normal.MemberType
import WireTables.Proofs.Schema.Check
import WireTables.Proofs.Wire.Structure

/-!
# Normal form

What holds of a registry that tables were extracted to and that was brought to normal form
(`Registry.Normalized`), whatever the tables and the configuration say. For the wire it comes down
to one fact: the plan of every structure whose fields have different names is sound
(`soundPlan_of_normal`).
-/

namespace WireTables

/-- A registry in normal form in which the checks found no errors. -/
structure Registry.Normal (r : Registry) : Prop where
  tailed : r.Tailed
  harmless : Harmless r.toSchema.findings

/-- The registry is what tables are extracted to, brought to normal form. -/
def Registry.Normalized (tables : List Table) (config : Config) (r : Registry) : Prop :=
  ∃ r₀ report, Extraction.extract tables config = .ok (r₀, report) ∧
    Yields (Edit.normalize config) r₀ () r

/-- What tables are extracted to, and its normal form. -/
def normalForms? (tables : List Table) : Option (Registry × Registry) :=
  match Extraction.extract tables {} with
  | .ok (r₀, _) =>
    match Id.run ((Edit.normalize {}).run r₀) with
    | (.ok (), r) => some (r₀, r)
    | (.error _, _) => none
  | .error _ => none

theorem exists_of_normalForms? {tables : List Table} {r₀ r : Registry}
    (h : normalForms? tables = some (r₀, r)) :
    (∃ report, Extraction.extract tables {} = .ok (r₀, report)) ∧
      Yields (Edit.normalize {}) r₀ () r := by
  unfold normalForms? at h
  split at h
  · next r₁ report hextract =>
    split at h
    · next r₂ hy =>
      cases h
      exact ⟨⟨report, hextract⟩, hy⟩
    · cases h
  · cases h

/-- The passes of normal form, one after the other. -/
inductive Edit.Passes (config : Config) (r : Registry) : Registry → Prop where
  | intro {r₁ r₂ r₃ r₄ r₅ r₆ : Registry} {n₁ n₂ n₃ n₄ n₅ n₆ : Nat}
    (pairs : Yields linkSizedPairs r n₁ r₁) (wrappers : Yields (inlineWrappers config) r₁ n₂ r₂)
    (lengths : Yields (implyLengths config) r₂ n₃ r₃)
    (prefixes : Yields noteSessionPrefixes r₃ n₄ r₄)
    (tails : Yields (markNullTails config) r₄ n₅ r₅)
    (unions : Yields (separateUnions config) r₅ n₆ r₆) :
    Passes config r { r₆ with toSchema := r₆.toSchema.linkUnions }

/-- Normal form is what the passes lead to, if the checks find no errors in it. -/
theorem Edit.passes_of_normalize {config : Config} {r r' : Registry} {u : Unit}
    (hy : Yields (normalize config) r u r') : Passes config r r' ∧ Harmless r'.findings := by
  unfold normalize at hy
  obtain ⟨_, r₁, hpairs, hy⟩ := yields_bind.mp hy
  obtain ⟨_, r₂, hwrappers, hy⟩ := yields_bind.mp hy
  obtain ⟨_, r₃, hlengths, hy⟩ := yields_bind.mp hy
  obtain ⟨_, r₄, hprefixes, hy⟩ := yields_bind.mp hy
  obtain ⟨_, r₅, htails, hy⟩ := yields_bind.mp hy
  obtain ⟨_, r₆, hunions, hy⟩ := yields_bind.mp hy
  obtain ⟨_, r₇, hlinks, hy⟩ := yields_bind.mp hy
  obtain ⟨s, r₈, hs, hy⟩ := yields_bind.mp hy
  obtain ⟨rfl, rfl⟩ := yields_schema.mp hs
  dsimp only at hy
  split at hy
  · exact (not_yields_throw hy).elim
  · next hnone =>
    obtain ⟨-, rfl⟩ := yields_pure.mp hy
    refine ⟨yields_update.mp hlinks ▸ ⟨hpairs, hwrappers, hlengths, hprefixes, htails, hunions⟩,
      fun f hf => ?_⟩
    have hnone : (r'.findings.filter (·.cause.isError)) = [] := by simpa using hnone
    simpa using List.filter_eq_nil_iff.mp hnone f hf

theorem Edit.normal_of_normalize {config : Config} {r r' : Registry} {u : Unit} (h : r.Raw)
    (hy : Yields (normalize config) r u r') : r'.Normal := by
  obtain ⟨⟨hpairs, hwrappers, hlengths, hprefixes, htails, hunions⟩, hharmless⟩ :=
    passes_of_normalize hy
  have hraw := raw_inlineWrappers (raw_linkSizedPairs h hpairs) hwrappers
  have hflat := flat_noteSessionPrefixes (flat_implyLengths hraw.flat hlengths) hprefixes
  have htailed := tailed_separateUnions (tailed_markNullTails hflat htails) hunions
  refine ⟨⟨htailed.sound.change rfl rfl (htailed.sound.shaped.linkUnions fun r _ hr =>
    ⟨hr.fields, hr.derived, hr.tailUnion, hr.tailSelector⟩),
    htailed.put.of_within fun t' ht' => ?_⟩, hharmless⟩
  obtain ⟨t, ht, rfl⟩ := List.mem_map.mp ht'
  exact .inl ⟨t, ht, TypeEntry.Within.mapRecord (by exact fun _ => rfl) t⟩

theorem Registry.Normalized.normal {tables : List Table} {config : Config} {r : Registry}
    (h : r.Normalized tables config) : r.Normal := by
  obtain ⟨r₀, report, hextract, hy⟩ := h
  obtain ⟨hsettled, htabled⟩ := Extraction.tabled_of_extract hextract
  exact Edit.normal_of_normalize ⟨hsettled, htabled.raw⟩ hy

namespace Schema

variable {s : Schema} {record : Record → Prop} {union : Bool → Prop}

theorem mem_of_require {name referrer : String} {t : TypeEntry}
    (h : s.require name referrer = .ok t) : t ∈ s.types := by
  unfold require at h
  split at h
  · next hl =>
    cases h
    exact (mem_of_lookup? hl).1
  · cases h

theorem mem_of_followAliases {name : String} {hops : Nat} {t t' : TypeEntry} (ht : t ∈ s.types)
    (h : s.followAliases name hops t = .ok t') : t' ∈ s.types := by
  induction hops generalizing t with
  | zero => cases h
  | succ hops ih =>
    unfold followAliases at h
    split at h
    · obtain ⟨next, hnext, h⟩ := bind_eq_ok.mp h
      exact ih (mem_of_require hnext) h
    · cases h
      exact ht

theorem mem_of_target {name : String} {t : TypeEntry} (h : s.target name = .ok t) :
    t ∈ s.types := by
  obtain ⟨first, hfirst, h⟩ := bind_eq_ok.mp h
  exact mem_of_followAliases (mem_of_require hfirst) h

/-- Elementary values have the encodings of types. -/
theorem standard_of_scalar? (h : ∀ t ∈ s.types, ∀ c, t.kind = .value c → Wire.Standard c)
    {name : String} {c : Scalar} (hc : s.scalar? name = some c) : Wire.Standard c := by
  have follow : ∀ {hops : Nat} {t t' : TypeEntry}, t ∈ s.types →
      s.followScalar? hops t = some (t', c) → Wire.Standard c := by
    intro hops
    induction hops with
    | zero => exact fun _ h => (by cases h)
    | succ hops ih =>
      intro t t' ht hf
      have named : ∀ {base : String}, (s.lookup? base >>= s.followScalar? hops) = some (t', c) →
          Wire.Standard c := by
        intro base hb
        obtain ⟨next, hnext, hb⟩ := Option.bind_eq_some_iff.mp hb
        exact ih (mem_of_lookup? hnext).1 hb
      have hvalue := h t ht
      obtain ⟨id, specName, name, comment, implemented, kind⟩ := t
      cases kind with
      | value v =>
        cases hf
        exact hvalue _ rfl
      | aliasOf a => exact named hf
      | enum e => exact named hf
      | bitfield b => exact named hf
      | record r => cases hf
      | union u => cases hf
  obtain ⟨⟨t', c'⟩, hscalar, rfl⟩ := Option.map_eq_some_iff.mp hc
  obtain ⟨t, ht, hf⟩ := Option.bind_eq_some_iff.mp hscalar
  exact follow (mem_of_lookup? ht).1 hf

/-- Elementary types are standard encodings. -/
theorem Shaped.standard_of_mem (h : s.Shaped (TypeEntry.Meets record union)) {t : TypeEntry}
    (ht : t ∈ s.types) {c : Scalar} (hk : t.kind = .value c) : Wire.Standard c := by
  have hmeets := h.entries t ht
  unfold TypeEntry.Meets at hmeets
  rwa [hk] at hmeets

/-- Elementary values are standard encodings. -/
theorem Shaped.standard (h : s.Shaped (TypeEntry.Meets record union)) {name : String} {c : Scalar}
    (hc : s.scalar? name = some c) : Wire.Standard c :=
  standard_of_scalar? (fun _ ht _ hk => h.standard_of_mem ht hk) hc

/-- All fields of a structure are those of one structure without a base; an absent tail is the one
of that structure. -/
theorem Shaped.exists_of_collectFields (h : s.Shaped (TypeEntry.Meets Record.Normal union))
    {owner name : String} {room : Nat} {fields : List Field}
    (hc : s.collectFields owner room name = .ok fields) :
    ∃ t ∈ s.types, ∃ r, t.record? = some r ∧ r.Normal ∧ fields = r.fields ∧
      (t.implemented = true ∨ r.fields = []) ∧
        ∀ t' r', s.recordOf? name = some (t', r') → r'.nullTail.isSome = true → r' = r := by
  induction room generalizing name fields with
  | zero => cases hc
  | succ room ih =>
    obtain ⟨_, -, hc⟩ := bind_eq_ok.mp hc
    obtain ⟨t, ht, hc⟩ := bind_eq_ok.mp hc
    split at hc
    · cases hc
    · next r hr =>
      have hmem := mem_of_target ht
      have hmeets : r.Normal ∧ (t.implemented = true ∨ r.fields = []) := by
        have hmeets := h.entries t hmem
        obtain ⟨id, specName, name, comment, implemented, kind⟩ := t
        cases kind with
        | record x =>
          cases hr
          exact hmeets
        | _ => cases hr
      have hrecord : s.recordOf? name = some (t, r) := recordOf?_eq_some.mpr ⟨ht, hr⟩
      split at hc
      · cases hc
        refine ⟨t, hmem, r, hr, hmeets.1, rfl, hmeets.2, fun t' r' hr' _ => ?_⟩
        cases hrecord.symm.trans hr'
        rfl
      · next base hbase =>
        obtain ⟨inherited, hinherited, hc⟩ := bind_eq_ok.mp hc
        obtain ⟨hnone, htail⟩ := hmeets.1.derived (by rw [hbase]; rfl)
        cases hc
        obtain ⟨u, hu, x, hx, hnormal, hfields, hput, -⟩ := ih hinherited
        refine ⟨u, hu, x, hx, hnormal, by rw [hnone, List.append_nil, hfields], hput,
          fun t' r' hr' hsome => ?_⟩
        cases hrecord.symm.trans hr'
        rw [htail] at hsome
        cases hsome

/-- All fields of a structure, those of its bases included, have different names. -/
def DistinctNames (s : Schema) (type : String) : Prop :=
  ∀ fields, s.allFields type = .ok fields → (fields.map (·.name)).Nodup

end Schema

/-- All fields of a structure are those of one structure without a base, and nothing is wrong with
their links; an absent tail is the one of that structure. -/
theorem Registry.Normal.exists_of_allFields {r : Registry} (h : r.Normal) {type : String}
    {fields : List Field} (hfields : r.allFields type = .ok fields) :
    ∃ t ∈ r.types, ∃ x, t.record? = some x ∧ x.Normal ∧ fields = x.fields ∧
      (∀ f ∈ x.fields, Schema.Clean x f) ∧
        ∀ t' x', r.recordOf? type = some (t', x') → x'.nullTail.isSome = true → x' = x := by
  obtain ⟨t, ht, x, hx, hnormal, hsame, hput, htail⟩ :=
    h.tailed.sound.shaped.exists_of_collectFields hfields
  refine ⟨t, ht, x, hx, hnormal, hsame, fun f hf => ?_, htail⟩
  rcases hput with hput | hnone
  · exact Schema.clean_of_findings h.harmless ht hput hx hf
  · rw [hnone] at hf
    cases hf

namespace Wire

variable {s : Schema} {known : Known} {type : String} {steps : List Step}
  {tail : Option (String × Int)}

/-- What a step reads or writes is the encoding of some type. -/
theorem Travels.exists_scalar? {fields : List Field} {f : Field} {op : Op} {isData : Bool}
    {c : Scalar} (h : Travels s fields f op isData) (hc : op.Uses s c) :
    ∃ name, s.scalar? name = some c := by
  have element : ∀ {owner : String}, elementOf s owner f = .ok (.scalar c) →
      ∃ name, s.scalar? name = some c := by
    intro owner he
    unfold elementOf at he
    split at he
    · cases he
    · obtain ⟨c', hc', he⟩ := bind_eq_ok.mp he
      split at he
      · cases he
      · cases he
        exact ⟨_, scalarOf_eq_ok.mp hc'⟩
  cases hc with
  | scalar => cases h with | scalar _ hc => exact ⟨_, hc⟩
  | constant => cases h with | constant _ hc => exact ⟨_, hc⟩
  | count => exact ⟨_, h.count_inv.2.2⟩
  | size => cases h with | sized _ _ _ hc => exact ⟨_, hc⟩
  | selector => exact ⟨_, h.selector_inv.2.2.2⟩
  | element =>
    cases h with
    | counted _ _ he => exact element he
    | fixed _ he => exact element he
    | rest _ he => exact element he
  | member _ _ _ _ hc => exact ⟨_, hc⟩

theorem Travels.of_plain {fields : List Field} {f : Field} {op : Op} {isData : Bool}
    (h : Travels s fields f op isData) (hm : f.marshal = .plain) :
    (∃ c, op = .scalar c) ∨ ∃ type, op = .object type := by
  cases h with
  | scalar => exact .inl ⟨_, rfl⟩
  | object => exact .inr ⟨_, rfl⟩
  | _ => simp_all

/-- A structure may end early when its record says so. -/
theorem nullTail_of_tailEnd {k k' : Known} (h : Yields (tailEnd s type) k tail k') :
    ∃ t r, s.recordOf? type = some (t, r) ∧
      r.nullTail.map (·.selector) = tail.map (·.1) := by
  obtain ⟨r, k₁, hr, hend⟩ := yields_bind.mp h
  unfold recordType at hr
  split at hr
  · next t r' hrecord =>
    obtain ⟨rfl, rfl⟩ := yields_pure.mp hr
    refine ⟨t, r, hrecord, ?_⟩
    split at hend
    · next tail' htail =>
      obtain ⟨n, k₂, -, hend⟩ := yields_bind.mp hend
      obtain ⟨rfl, rfl⟩ := yields_pure.mp hend
      rw [htail]
      rfl
    · next hnone =>
      obtain ⟨rfl, rfl⟩ := yields_pure.mp hend
      rw [hnone]
      rfl
  · exact (not_yields_throw hr).elim

/-- The steps of the plan of a structure are linked if the names of its fields are different. -/
theorem linkedSteps_of_normal {r : Registry} (h : r.Normal) {known' : Known}
    (hlayout : Yields (layout r.toSchema type) known steps known')
    (hnames : r.toSchema.DistinctNames type) : LinkedSteps steps := by
  obtain ⟨fields, hfields, -⟩ := steps_of_layout hlayout
  have hnodup := hnames fields hfields
  obtain ⟨t, -, x, -, hnormal, rfl, hclean, -⟩ := h.exists_of_allFields hfields
  exact linkedSteps_of_layout hlayout hfields
    (Schema.linked_of_clean hnormal.fields hclean hnodup) hnodup

/-- The plan of a structure of a normalized registry is sound if the names of its fields are
different. -/
theorem soundPlan_of_normal {r : Registry} (h : r.Normal)
    (hplan : Plan r.toSchema known type steps tail) (hnames : r.toSchema.DistinctNames type) :
    SoundPlan r.toSchema steps tail := by
  obtain ⟨fields, hfields, hmap, htravels⟩ := steps_of_layout hplan.layout
  obtain ⟨t, ht, record, hr, hnormal, rfl, -, htail⟩ := h.exists_of_allFields hfields
  have hnodup := hnames _ hfields
  have once : ∀ f : Field, Once record.fields f.name :=
    fun f => List.nodup_iff_count_le_one.mp hnodup _
  have mem_fields : ∀ st ∈ steps, st.field ∈ record.fields := fun _ => field_of_step hmap
  have hown : ∀ selector null, tail = some (selector, null) →
      ∃ own, record.nullTail = some own ∧ own.selector = selector := by
    rintro selector null rfl
    obtain ⟨t', r', hr', htail'⟩ := nullTail_of_tailEnd hplan.tail
    obtain ⟨own, hown, hselector⟩ := Option.map_eq_some_iff.mp htail'
    obtain rfl := htail t' r' hr' (by rw [hown]; rfl)
    exact ⟨own, hown, hselector⟩
  have hisSome : tail.isSome = true → record.nullTail.isSome = true := by
    intro hsome
    obtain ⟨⟨selector, null⟩, hsome⟩ := Option.isSome_iff_exists.mp hsome
    obtain ⟨own, hown, -⟩ := hown selector null hsome
    rw [hown]
    rfl
  refine ⟨linkedSteps_of_normal h hplan.layout hnames, fun st hst c hc => ?_,
    fun st hst union tag u hop hu => ?_, fun hsome st hst union tag hop => ?_,
    fun hsome st hst c object hop => ?_, fun selector null hsome st hst hname => ?_⟩
  · obtain ⟨name, hscalar⟩ := (htravels st hst).exists_scalar? hc
    exact h.tailed.sound.shaped.standard hscalar
  · have htravel := htravels st hst
    rw [hop] at htravel
    obtain ⟨entry, hentry, hunion⟩ := Option.bind_eq_some_iff.mp hu
    obtain ⟨hmem, hname⟩ := Schema.mem_of_lookup? hentry
    have himplemented : entry.implemented = true :=
      (h.tailed.put entry hmem (by rw [hunion]; rfl)).resolve_right fun hunused =>
        hunused t ht record hr st.field (mem_fields st hst) (htravel.union_inv.2.2.trans hname.symm)
    exact Schema.selector_of_findings h.harmless hmem himplemented hunion
  · have htravel := htravels st hst
    rw [hop] at htravel
    exact hnormal.tailUnion (hisSome hsome) st.field (mem_fields st hst) (once _)
      htravel.union_inv.1
  · have htravel := htravels st hst
    rw [hop] at htravel
    obtain ⟨f, hf, hbody⟩ := List.any_eq_true.mp htravel.selector_inv.2.2.1.symm
    rw [Bool.and_eq_true] at hbody
    exact hnormal.tailUnion (hisSome hsome) f hf (once _) (by simpa using hbody.1)
  · obtain ⟨own, hown, rfl⟩ := hown selector null hsome
    have hplain := hnormal.tailSelector own hown st.field (mem_fields st hst) (once _) hname
    exact (htravels st hst).of_plain hplain

end Wire

end WireTables
