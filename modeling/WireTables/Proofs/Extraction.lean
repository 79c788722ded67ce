import WireTables.Proofs.Arrangement
import WireTables.Proofs.Schema.References
import WireTables.Proofs.Schema.Shape

/-!
# What extraction leaves

Every table that is added keeps the shape of the schema: the fields of its structures are arranged,
none of them is the length of another, and no structure is derived from another one or has an absent
tail.
-/

namespace WireTables

/-- A structure as a table defines it, but for lengths of structures. -/
structure Record.Raw (r : Record) : Prop where
  fields : Arranged r.fields
  base : r.base = none
  tail : r.nullTail = none

/-- A schema as tables define it, but for lengths of structures. -/
def Schema.Raw (s : Schema) : Prop :=
  s.Shaped (TypeEntry.Meets Record.Raw (· = true))

/-- A structure as a table defines it. -/
structure Record.Tabled (r : Record) : Prop extends Record.Raw r where
  unsized : Unsized r.fields

/-- A type as a table defines it. -/
def TypeEntry.Tabled (t : TypeEntry) : Prop :=
  t.Meets Record.Tabled (· = true)

/-- A schema as tables define it. -/
def Schema.Tabled (s : Schema) : Prop :=
  s.Shaped TypeEntry.Tabled

namespace Schema.Tabled

variable {s : Schema} (h : s.Tabled)

include h

theorem raw : s.Raw :=
  ⟨h.names, fun t ht => (h.entries t ht).imp (fun _ hr => hr.toRaw) fun _ hu => hu⟩

theorem record {t : TypeEntry} {r : Record} (ht : t ∈ s.types) (hr : t.record? = some r) :
    r.Tabled := by
  have hmeets := h.entries t ht
  obtain ⟨id, specName, name, comment, implemented, kind⟩ := t
  cases kind <;> cases hr
  exact hmeets.1

theorem bases : ∀ t ∈ s.types, ∀ r, t.record? = some r → r.base = none :=
  fun _ ht _ hr => (h.record ht hr).base

end Schema.Tabled

namespace Build

/-- A step that ends well keeps `P` of the schema, and `Q` is true of its result. -/
def Preserves (P : Schema → Prop) (m : Build α) (Q : α → Prop) : Prop :=
  ∀ s a s', m s = .ok (a, s') → P s → P s' ∧ Q a

namespace Preserves

variable {P : Schema → Prop} {Q : α → Prop} {R : β → Prop}

theorem pure {a : α} (h : Q a) : Preserves P (Pure.pure a : Build α) Q := by
  rintro s b s' hm hs
  cases hm
  exact ⟨hs, h⟩

theorem bind {m : Build α} {f : α → Build β} (hm : Preserves P m Q)
    (hf : ∀ a, Q a → Preserves P (f a) R) :
    Preserves P (m >>= f) R := by
  intro s b s' h hs
  obtain ⟨⟨a, s₁⟩, ha, h⟩ := bind_eq_ok.mp h
  obtain ⟨hs₁, hQ⟩ := hm s a s₁ ha hs
  exact hf a hQ s₁ b s' h hs₁

theorem ite {c : Prop} [Decidable c] {m m' : Build α} (hm : Preserves P m Q)
    (hm' : Preserves P m' Q) : Preserves P (if c then m else m') Q := by
  split
  · exact hm
  · exact hm'

theorem trivial {m : Build α} (h : Preserves P m Q) : Preserves P m fun _ => True :=
  fun s a s' hm hs => ⟨(h s a s' hm hs).1, True.intro⟩

theorem get : Preserves P (MonadState.get : Build Schema) fun _ => True := by
  rintro s b s' hm hs
  cases hm
  exact ⟨hs, True.intro⟩

theorem lift {r : Except Error α} (h : ∀ a, r = .ok a → Q a) :
    Preserves P (StateT.lift r : Build α) Q := by
  intro s b s' hm hs
  obtain ⟨a, ha, hm⟩ := bind_eq_ok.mp hm
  cases hm
  exact ⟨hs, h b ha⟩

theorem modify {f : Schema → Schema} (h : ∀ s, P s → P (f s)) :
    Preserves P (modify f : Build Unit) fun _ => True := by
  rintro s b s' hm hs
  cases hm
  exact ⟨h s hs, True.intro⟩

theorem update {f : Schema → Except Error Schema} (h : ∀ s s', P s → f s = .ok s' → P s') :
    Preserves P (Build.update f) fun _ => True := by
  intro s b s' hm hs
  have hm : (f s).bind (fun s₁ => Except.ok ((), s₁)) = .ok (b, s') := by
    rw [← hm]
    show _ = Except.bind (Except.bind (f s) fun a => .ok (a, s)) fun p =>
      (set p.1 : Build Unit) p.2
    cases f s <;> rfl
  obtain ⟨s₁, hf, hm⟩ := bind_eq_ok.mp hm
  cases hm
  exact ⟨h s s' hs hf, True.intro⟩

theorem foldlM {f : β → α → Build β} : ∀ {xs : List α} {b : β}, R b →
    (∀ b, R b → ∀ x ∈ xs, Preserves P (f b x) R) → Preserves P (xs.foldlM f b) R
  | [], _, hb, _ => Preserves.pure hb
  | x :: _, b, hb, hf => by
    rw [List.foldlM_cons]
    exact (hf b hb x List.mem_cons_self).bind fun c hc =>
      foldlM hc fun d hd y hy => hf d hd y (List.mem_cons_of_mem x hy)

theorem forM {f : α → Build PUnit} : ∀ {xs : List α}, (∀ x ∈ xs, Preserves P (f x) fun _ => True) →
    Preserves P (xs.forM f) fun _ => True
  | [], _ => Preserves.pure True.intro
  | x :: _, hf => (hf x List.mem_cons_self).bind fun _ _ =>
    forM fun y hy => hf y (List.mem_cons_of_mem x hy)

theorem filterMapM {f : α → Build (Option β)} :
    ∀ {xs : List α}, (∀ x ∈ xs, Preserves P (f x) fun _ => True) →
      Preserves P (xs.filterMapM f) fun _ => True
  | [], _ => Preserves.pure True.intro
  | x :: xs, hf => by
    rw [List.filterMapM_cons]
    have rest : Preserves P (xs.filterMapM f) fun _ => True :=
      filterMapM fun y hy => hf y (List.mem_cons_of_mem x hy)
    refine (hf x List.mem_cons_self).bind fun y _ => ?_
    cases y with
    | none => exact rest
    | some b => exact rest.bind fun zs _ => Preserves.pure True.intro

end Preserves

section Steps

variable {config : Config}

theorem addType_keeps {t : TypeEntry} (h : ∀ id, TypeEntry.Tabled { t with id }) :
    Preserves Schema.Tabled (addType t) fun _ => True :=
  Preserves.update fun _ _ hs ha => Schema.Shaped.addType hs ha h

theorem addConstant_keeps (c : Constant) :
    Preserves Schema.Tabled (addConstant config c) fun _ => True := by
  refine Preserves.get.bind fun s _ => ?_
  split
  · exact Preserves.pure trivial
  · refine (Preserves.update fun s s' hs ha => ?_).bind fun _ _ => Preserves.pure trivial
    unfold Schema.addConstant at ha
    split at ha
    · cases ha
    · cases ha
      exact hs.of_perm (.refl _)

theorem ensureEnum_keeps (name underlying : String) (isGroup : Bool) :
    Preserves Schema.Tabled (ensureEnum name underlying isGroup) fun _ => True := by
  refine Preserves.get.bind fun s _ => ?_
  split
  · exact addType_keeps fun _ => trivial
  · exact Preserves.pure trivial

theorem extendEnum_keeps (name : String) (numbers : List Nat) (errorCode : Option String) :
    Preserves Schema.Tabled (extendEnum name numbers errorCode) fun _ => True := by
  refine Preserves.modify fun s hs => Schema.Shaped.modifyType hs (fun t => ?_) fun t _ _ ht => ?_
  · split <;> rfl
  · split
    · exact trivial
    · exact ht

end Steps

end Build

namespace Extraction

open Build

variable {config : Config}

theorem addAlgorithms_keeps (base : String) (rows : List (Row AlgorithmRow)) :
    Preserves Schema.Tabled (addAlgorithms config base rows) fun _ => True := by
  refine (ensureEnum_keeps _ _ _).bind fun _ _ => ?_
  refine (Preserves.filterMapM fun row _ => ?_).bind fun numbers _ => extendEnum_keeps _ _ _
  refine (addConstant_keeps _).bind fun number _ => ?_
  split
  · exact (Preserves.modify fun s hs => hs.of_perm (.refl _)).bind fun _ _ => Preserves.pure trivial
  · exact Preserves.pure trivial

theorem addConstants_keeps (name : String) (base : Option String) (rows : List (Row ConstantRow)) :
    Preserves Schema.Tabled (addConstants config name base rows) fun _ => True :=
  (ensureEnum_keeps _ _ _).bind fun _ _ =>
    (Preserves.filterMapM fun _ _ => addConstant_keeps _).bind fun _ _ => extendEnum_keeps _ _ _

theorem addAliases_keeps (rows : List (Row AliasRow)) :
    Preserves Schema.Tabled (addAliases rows) fun _ => True := by
  refine Preserves.forM fun row _ => Preserves.get.bind fun s _ => ?_
  split
  · exact Preserves.pure trivial
  · exact addType_keeps fun _ => trivial

theorem addInterface_keeps (name base : String) (rows : List (Row InterfaceRow)) :
    Preserves Schema.Tabled (addInterface name base rows) fun _ => True := by
  refine (Preserves.foldlM (R := fun _ => True) trivial fun d _ row _ => ?_).bind fun domain _ =>
    addType_keeps fun _ => trivial
  split
  · exact Preserves.pure trivial
  · exact Preserves.lift fun _ _ => trivial

theorem addBitfield_keeps (name base : String) (rows : List (Row BitsRow)) :
    Preserves Schema.Tabled (addBitfield config name base rows) fun _ => True :=
  (Preserves.filterMapM fun _ _ => addConstant_keeps _).bind fun _ _ =>
    addType_keeps fun _ => trivial

theorem addRecord_keeps (name comment : String) (rows : List (Row FieldRow)) :
    Preserves Schema.Tabled (addRecord name comment rows) fun _ => True := by
  refine (Preserves.lift (Q := fun fields => Arranged fields ∧ Unsized fields) fun fields h =>
    ⟨arranged_addFields arranged_nil h, unsized_addFields unsized_nil h⟩).bind fun fields hfields =>
      addType_keeps fun _ => ⟨⟨⟨hfields.1, rfl, rfl⟩, hfields.2⟩, .inl rfl⟩

/-- The parameters of a command make up a structure. -/
theorem tabled_addParameters {owner : String} {handleCount : Nat} {rows : List FieldRow}
    {r r' : Record} (h : r.Tabled) (ha : rows.foldlM (addParameter owner handleCount) r = .ok r') :
    r'.Tabled := by
  induction rows generalizing r with
  | nil =>
    cases ha
    exact h
  | cons row rows ih =>
    rw [List.foldlM_cons] at ha
    obtain ⟨next, hnext, ha⟩ := bind_eq_ok.mp ha
    obtain ⟨hfields, hbase, htail⟩ := arranged_addParameter h.fields hnext
    exact ih ⟨⟨hfields, hbase.trans h.base, htail.trans h.tail⟩,
      unsized_addParameter h.unsized hnext⟩ ha

theorem addCommand_keeps (command : String) (isRequest : Bool) (handleCount : Nat)
    (rows : List (Row CommandRow)) :
    Preserves Schema.Tabled (addCommand command isRequest handleCount rows) fun _ => True := by
  refine (Preserves.lift (Q := Record.Tabled) fun r h =>
    tabled_addParameters ⟨⟨arranged_nil, rfl, rfl⟩, unsized_nil⟩ h).bind
    fun r hr => addType_keeps fun _ => ⟨⟨⟨hr.fields, hr.base, hr.tail⟩, hr.unsized⟩, ?_⟩
  show (isRequest || !r.fields.isEmpty) = true ∨ r.fields = []
  cases r.fields <;> simp

theorem addMember_keeps (name : String) (u : UnionType) (row : MemberRow) :
    Preserves Schema.Tabled (addMember config name u row) fun _ => True := by
  refine Preserves.get.bind fun s _ => Preserves.get.bind fun s' _ => ?_
  refine Preserves.ite ((addType_keeps ?_).bind fun _ _ => ?_) ?_
  · exact fun _ => ⟨⟨⟨arranged_nil, rfl, rfl⟩, unsized_nil⟩, .inl rfl⟩
  · exact Preserves.pure trivial
  · exact Preserves.pure trivial

theorem addUnion_keeps (name comment : String) (rows : List (Row MemberRow)) :
    Preserves Schema.Tabled (addUnion config name comment rows) fun _ => True :=
  (Preserves.foldlM (R := fun _ => True) trivial fun _ _ _ _ =>
    (addMember_keeps _ _ _).trivial).bind fun _ _ => addType_keeps fun _ => rfl

theorem addTable_keeps (t : Table) (kind : TableKind) :
    Preserves Schema.Tabled (addTable config t kind) fun _ => True := by
  have rows : ∀ {α : Type} {content? : List String → Option (Row α)},
      Preserves Schema.Tabled (StateT.lift (Row.readAll content? t.caption kind.label 0 t.rows))
        fun _ => True := Preserves.lift fun _ _ => trivial
  cases kind with
  | algorithms => exact rows.bind fun _ _ => addAlgorithms_keeps _ _
  | constants => exact rows.bind fun _ _ => addConstants_keeps _ _ _
  | aliases => exact rows.bind fun _ _ => addAliases_keeps _
  | interface => exact rows.bind fun _ _ => addInterface_keeps _ _ _
  | bitfield => exact rows.bind fun _ _ => addBitfield_keeps _ _ _
  | record => exact rows.bind fun _ _ => addRecord_keeps _ _ _
  | union => exact rows.bind fun _ _ => addUnion_keeps _ _ _
  | request => exact rows.bind fun _ _ => addCommand_keeps _ _ _ _
  | response => exact rows.bind fun _ _ => addCommand_keeps _ _ _ _

theorem addAlgorithmTable_keeps (report : ExtractionReport) (t : Table) :
    Preserves Schema.Tabled (addAlgorithmTable config report t) fun _ => True := by
  unfold addAlgorithmTable
  split
  · exact (addTable_keeps _ _).bind fun _ _ => Preserves.pure trivial
  · exact Preserves.pure trivial

theorem addExpandedTable_keeps (report : ExtractionReport) (t : Table) :
    Preserves Schema.Tabled (addExpandedTable config report t) fun _ => True := by
  unfold addExpandedTable
  split
  · exact Preserves.pure trivial
  · exact (addTable_keeps _ _).bind fun _ _ => Preserves.pure trivial
  · exact Preserves.pure trivial

theorem addOtherTable_keeps (report : ExtractionReport) (t : Table) :
    Preserves Schema.Tabled (addOtherTable config report t) fun _ => True := by
  refine Preserves.get.bind fun s _ => ?_
  split
  · exact Preserves.pure trivial
  · exact addExpandedTable_keeps _ _
  · exact Preserves.foldlM trivial fun _ _ _ _ => addExpandedTable_keeps _ _

theorem addTables_keeps (tables : List Table) :
    Preserves Schema.Tabled (addTables config tables) fun _ => True :=
  (Preserves.foldlM (R := fun _ => True) trivial fun _ _ _ _ =>
    addAlgorithmTable_keeps _ _).bind fun _ _ =>
      Preserves.foldlM trivial fun _ _ _ _ => addOtherTable_keeps _ _

theorem tabled_initial (algPrefix : String) : Schema.Tabled { Schema.initial with algPrefix } := by
  have hnames : (Schema.elementary.map (·.specName)).Nodup := by decide
  refine ⟨hnames, fun t ht => ?_⟩
  have hvalue : ∀ t ∈ Schema.elementary, ∃ c, t.kind = .value c ∧ Wire.Standard c := by
    intro t ht
    simp only [Schema.elementary, List.mem_cons, List.not_mem_nil, or_false] at ht
    rcases ht with rfl | rfl | rfl | rfl | rfl | rfl | rfl | rfl | rfl | rfl <;>
      exact ⟨_, rfl, by decide, by decide⟩
  obtain ⟨c, hc, hstd⟩ := hvalue t ht
  show TypeEntry.Meets _ _ t
  unfold TypeEntry.Meets
  rw [hc]
  exact hstd

/-- Fields that become byte arrays stay where they are. -/
theorem tabled_selectArrays {s : Schema} (h : s.Tabled) : (selectArrays s).Tabled := by
  refine h.map rfl (fun t => TypeEntry.specName_mapRecord _ t) fun t _ ht =>
    ht.mapRecord (fun r _ hr => ⟨⟨hr.fields.map fun f => ?_, hr.base, hr.tail⟩, fun f hf => ?_⟩)
      fun r _ hr => ?_
  · split
    · next hf =>
      have hm : f.marshal = .unionBody := by
        rw [Bool.and_eq_true] at hf
        simpa using hf.1
      refine ⟨⟨rfl, .inr ⟨nofun, nofun⟩⟩, .inr nofun, rfl, .inr ?_⟩
      show f.partner = f.tag?
      unfold Field.tag?
      rw [hm]
    · exact ⟨Demoted.refl f, .inl rfl, TagKept.refl f⟩
  · obtain ⟨g, hg, rfl⟩ := List.mem_map.mp hf
    split
    · exact ⟨nofun, nofun⟩
    · exact hr.unsized g hg
  · rw [hr]
    rfl

end Extraction

/-- Links to unions leave the fields of structures as they are. -/
theorem Schema.Shaped.linkUnions {record : Record → Prop} {union : Bool → Prop} {s : Schema}
    (h : s.Shaped (TypeEntry.Meets record union))
    (hr : ∀ r memberOf, record r → record { r with memberOf }) :
    s.linkUnions.Shaped (TypeEntry.Meets record union) := by
  refine h.map rfl (fun t => TypeEntry.specName_mapRecord _ t) fun t _ ht =>
    ht.mapRecord (fun r _ hr' => hr r _ hr') fun r _ hr => hr

/-- What extraction gives has been checked and has the shape that tables define. -/
theorem Extraction.checked_of_extract {tables : List Table} {config : Config} {r : Registry}
    {report : ExtractionReport} (h : extract tables config = .ok (r, report)) :
    Yields r.toSchema.checkReferences [] () r.known ∧ r.toSchema.Tabled := by
  unfold extract at h
  obtain ⟨⟨report', s⟩, hadd, h⟩ := bind_eq_ok.mp h
  have htabled : s.Tabled := (addTables_keeps tables _ _ _ hadd (tabled_initial config.algPrefix)).1
  have hselected : (selectArrays s).Shaped (TypeEntry.Meets Record.Tabled (· = true)) :=
    tabled_selectArrays htabled
  have hlinked : (selectArrays s).linkUnions.Tabled := hselected.linkUnions fun r _ hr =>
    ⟨⟨hr.fields, hr.base, hr.tail⟩, hr.unsized⟩
  simp only at h
  split at h
  · next r' hcheck =>
    cases h
    obtain ⟨known, hknown, rfl⟩ := Registry.yields_of_calculate hcheck
    exact ⟨hknown, hlinked⟩
  · cases h

/-- What extraction gives is settled and has the shape that tables define. -/
theorem Extraction.tabled_of_extract {tables : List Table} {config : Config} {r : Registry}
    {report : ExtractionReport} (h : extract tables config = .ok (r, report)) :
    r.Settled ∧ r.toSchema.Tabled := by
  obtain ⟨hchecked, htabled⟩ := checked_of_extract h
  obtain ⟨hwords, hcomplete⟩ := Schema.settled_of_checkReferences Known.words_nil hchecked
  exact ⟨⟨hwords, hcomplete⟩, htabled⟩

end WireTables
