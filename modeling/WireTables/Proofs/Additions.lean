import WireTables.Proofs.Extraction

/-!
# What tables add

A table adds types, and some tables add constants or algorithms besides. A property of schemas that
each addition keeps is kept by every table (`addTable_preserves`); the three kinds of tables with
constants are left to whoever uses that, because constants are added before the type that lists
them. Properties that do not look at constants need no such care (`Additive.addTable_preserves`).
-/

namespace WireTables

/-- The type has a list of constants. -/
def TypeEntry.listsConstants (t : TypeEntry) : Bool :=
  match t.kind with
  | .enum _ | .bitfield _ => true
  | _ => false

/-- A type is added at the end, under a new name. -/
theorem Schema.eq_of_addType {s s' : Schema} {t : TypeEntry} (h : s.addType t = .ok s') :
    t.specName ∉ s.names ∧ s' = { s with types := s.types ++ [{ t with id := s.types.length }] } := by
  unfold addType at h
  split at h
  · cases h
  · next hnew =>
    cases h
    exact ⟨not_mem_of_lookup? (by simpa using hnew), rfl⟩

/-- The content of each row is what its cells say. -/
theorem Row.exists_of_readAll {content? : List String → Option (Row α)} {caption kind : String}
    {index : Nat} {cells : List (List String)} {rows : List (Row α)}
    (h : readAll content? caption kind index cells = .ok rows) :
    ∀ a ∈ contents rows, ∃ c, content? c = some (.content a) := by
  induction cells generalizing index rows with
  | nil =>
    cases h
    exact fun _ ha => (List.not_mem_nil ha).elim
  | cons first cells ih =>
    rw [readAll] at h
    split at h
    · next row hrow =>
      cases hrest : readAll content? caption kind (index + 1) cells <;> rw [hrest] at h <;> cases h
      next rest =>
      intro a ha
      rw [contents, List.filterMap_cons] at ha
      cases row with
      | skip => exact ih hrest a ha
      | errorCode code => exact ih hrest a ha
      | content b =>
        rcases List.mem_cons.mp ha with rfl | ha
        · refine ⟨first, ?_⟩
          unfold read at hrow
          split at hrow
          · cases hrow
          · split at hrow
            · dsimp only at hrow
              split at hrow <;> cases hrow
            · exact hrow
        · exact ih hrest a ha
    · cases h

/-- The name of an algorithm is a name. -/
theorem Row.isName_of_readAll {caption kind : String} {index : Nat} {cells : List (List String)}
    {rows : List (Row AlgorithmRow)} (h : readAll algorithm? caption kind index cells = .ok rows) :
    ∀ row ∈ contents rows, Table.isName row.name = true := by
  intro row hrow
  obtain ⟨c, hc⟩ := exists_of_readAll h row hrow
  unfold algorithm? at hc
  dsimp only at hc
  split at hc
  · next hname =>
    cases hc
    exact ((Bool.and_eq_true _ _).mp hname).1
  · cases hc

namespace Extraction

open Build

/-- A property of fields that rows keep. -/
structure RowsKeep (F : List Field → Prop) : Prop where
  nil : F []
  addField : ∀ {owner fields row fields'}, F fields → addField owner fields row = .ok fields' →
    F fields'
  handle : ∀ {fields f isHandle}, F (fields ++ [f]) → F (fields ++ [{ f with isHandle }])

/-- The fields of the type, if it is a structure, have the property. -/
def FieldsMeet (F : List Field → Prop) (t : TypeEntry) : Prop :=
  ∀ r, t.record? = some r → F r.fields

theorem FieldsMeet.of_not_record {F : List Field → Prop} {t : TypeEntry} (h : t.record? = none) :
    FieldsMeet F t := by
  intro r hr
  cases h.symm.trans hr

namespace RowsKeep

variable {F : List Field → Prop} (hF : RowsKeep F)

include hF

theorem addFields {owner : String} {rows : List FieldRow} {fields fields' : List Field}
    (h : F fields) (ha : rows.foldlM (Extraction.addField owner) fields = .ok fields') :
    F fields' := by
  induction rows generalizing fields with
  | nil =>
    cases ha
    exact h
  | cons row rows ih =>
    rw [List.foldlM_cons] at ha
    obtain ⟨next, hnext, ha⟩ := bind_eq_ok.mp ha
    exact ih (hF.addField h hnext) ha

theorem addParameters {owner : String} {handleCount : Nat} {rows : List FieldRow} {r r' : Record}
    (h : F r.fields) (ha : rows.foldlM (addParameter owner handleCount) r = .ok r') :
    F r'.fields := by
  induction rows generalizing r with
  | nil =>
    cases ha
    exact h
  | cons row rows ih =>
    rw [List.foldlM_cons] at ha
    obtain ⟨next, hnext, ha⟩ := bind_eq_ok.mp ha
    refine ih ?_ ha
    unfold addParameter at hnext
    obtain ⟨fields, hfields, hnext⟩ := bind_eq_ok.mp hnext
    cases hnext
    have hadded := hF.addField h hfields
    rcases List.eq_nil_or_concat fields with rfl | ⟨init, f, rfl⟩
    · exact hadded
    · rw [List.concat_eq_append] at hadded
      simp only [List.concat_eq_append, List.dropLast_concat, List.getLast?_concat]
      exact hF.handle hadded

end RowsKeep

section Types

variable {F : List Field → Prop} {P : Schema → Prop} {config : Config} (hF : RowsKeep F)
  (hadd : ∀ {s s' : Schema} {t : TypeEntry}, FieldsMeet F t → t.listsConstants = false → P s →
    s.addType t = .ok s' → P s')

include hadd

theorem addType_preserves {t : TypeEntry} (ht : FieldsMeet F t) (hn : t.listsConstants = false) :
    Preserves P (Build.addType t) fun _ => True :=
  Preserves.update fun _ _ hs ha => hadd ht hn hs ha

theorem addAliases_preserves (rows : List (Row AliasRow)) :
    Preserves P (addAliases rows) fun _ => True := by
  refine Preserves.forM fun row _ => Preserves.get.bind fun s _ => ?_
  split
  · exact Preserves.pure trivial
  · exact addType_preserves hadd (.of_not_record rfl) rfl

theorem addInterface_preserves (name base : String) (rows : List (Row InterfaceRow)) :
    Preserves P (addInterface name base rows) fun _ => True := by
  refine (Preserves.foldlM (R := fun _ => True) trivial fun d _ row _ => ?_).bind fun domain _ =>
    addType_preserves hadd (.of_not_record rfl) rfl
  split
  · exact Preserves.pure trivial
  · exact Preserves.lift fun _ _ => trivial

include hF

theorem addRecord_preserves (name comment : String) (rows : List (Row FieldRow)) :
    Preserves P (addRecord name comment rows) fun _ => True := by
  refine (Preserves.lift (Q := F) fun fields h => hF.addFields hF.nil h).bind fun fields hfields =>
    addType_preserves hadd ?_ rfl
  rintro r ⟨⟩
  exact hfields

theorem addCommand_preserves (command : String) (isRequest : Bool) (handleCount : Nat)
    (rows : List (Row CommandRow)) :
    Preserves P (addCommand command isRequest handleCount rows) fun _ => True := by
  refine (Preserves.lift (Q := fun r => F r.fields) fun r h => hF.addParameters hF.nil h).bind
    fun r hr => addType_preserves hadd ?_ rfl
  rintro r' ⟨⟩
  exact hr

theorem addMember_preserves (name : String) (u : UnionType) (row : MemberRow) :
    Preserves P (addMember config name u row) fun _ => True := by
  refine Preserves.get.bind fun s _ => Preserves.get.bind fun s' _ => ?_
  refine Preserves.ite ((addType_preserves hadd ?_ rfl).bind fun _ _ => ?_) ?_
  · rintro r ⟨⟩
    exact hF.nil
  · exact Preserves.pure trivial
  · exact Preserves.pure trivial

theorem addUnion_preserves (name comment : String) (rows : List (Row MemberRow)) :
    Preserves P (addUnion config name comment rows) fun _ => True :=
  (Preserves.foldlM (R := fun _ => True) trivial fun _ _ _ _ =>
    (addMember_preserves hF hadd _ _ _).trivial).bind fun _ _ =>
      addType_preserves hadd (.of_not_record rfl) rfl

/-- A table keeps a property that types keep, given that constants of all kinds keep it. -/
theorem addTable_preserves
    (halgorithms : ∀ base rows, (∀ row ∈ Row.contents rows, Table.isName row.name = true) →
      Preserves P (addAlgorithms config base rows) fun _ => True)
    (hconstants : ∀ name base rows, Preserves P (addConstants config name base rows) fun _ => True)
    (hbitfield : ∀ name base rows, Preserves P (addBitfield config name base rows) fun _ => True)
    (t : Table) (kind : TableKind) : Preserves P (addTable config t kind) fun _ => True := by
  have rows : ∀ {α : Type} {content? : List String → Option (Row α)},
      Preserves P (StateT.lift (Row.readAll content? t.caption kind.label 0 t.rows))
        fun _ => True := Preserves.lift fun _ _ => trivial
  cases kind with
  | algorithms =>
    exact (Preserves.lift fun _ hrows => Row.isName_of_readAll hrows).bind
      fun _ hrows => halgorithms _ _ hrows
  | constants => exact rows.bind fun _ _ => hconstants _ _ _
  | aliases => exact rows.bind fun _ _ => addAliases_preserves hadd _
  | interface => exact rows.bind fun _ _ => addInterface_preserves hadd _ _ _
  | bitfield => exact rows.bind fun _ _ => hbitfield _ _ _
  | record => exact rows.bind fun _ _ => addRecord_preserves hF hadd _ _ _
  | union => exact rows.bind fun _ _ => addUnion_preserves hF hadd _ _ _
  | request => exact rows.bind fun _ _ => addCommand_preserves hF hadd _ _ _ _
  | response => exact rows.bind fun _ _ => addCommand_preserves hF hadd _ _ _ _

end Types

section Tables

variable {P : Schema → Prop} {config : Config}
  (htable : ∀ t kind, Preserves P (addTable config t kind) fun _ => True)

include htable

theorem addAlgorithmTable_preserves (report : ExtractionReport) (t : Table) :
    Preserves P (addAlgorithmTable config report t) fun _ => True := by
  unfold addAlgorithmTable
  split
  · exact (htable _ _).bind fun _ _ => Preserves.pure trivial
  · exact Preserves.pure trivial

theorem addExpandedTable_preserves (report : ExtractionReport) (t : Table) :
    Preserves P (addExpandedTable config report t) fun _ => True := by
  unfold addExpandedTable
  split
  · exact Preserves.pure trivial
  · exact (htable _ _).bind fun _ _ => Preserves.pure trivial
  · exact Preserves.pure trivial

theorem addOtherTable_preserves (report : ExtractionReport) (t : Table) :
    Preserves P (addOtherTable config report t) fun _ => True := by
  refine Preserves.get.bind fun s _ => ?_
  split
  · exact Preserves.pure trivial
  · exact addExpandedTable_preserves htable _ _
  · exact Preserves.foldlM trivial fun _ _ _ _ => addExpandedTable_preserves htable _ _

theorem addTables_preserves (tables : List Table) :
    Preserves P (addTables config tables) fun _ => True :=
  (Preserves.foldlM (R := fun _ => True) trivial fun _ _ _ _ =>
    addAlgorithmTable_preserves htable _ _).bind fun _ _ =>
      Preserves.foldlM trivial fun _ _ _ _ => addOtherTable_preserves htable _ _

end Tables

/-- A property of schemas that additions keep, whatever constants there are. -/
structure Additive (F : List Field → Prop) (P : Schema → Prop) : Prop where
  addType : ∀ {s s' : Schema} {t : TypeEntry}, FieldsMeet F t → P s → s.addType t = .ok s' → P s'
  constants : ∀ {s : Schema} {constants : Array Constant}, P s → P { s with constants }
  algorithm : ∀ {s : Schema} {config : Config} {row : AlgorithmRow},
    Table.isName row.name = true → P s →
      P { s with algorithms := s.algorithms ++
        [.ofRow (Text.dropHead config.algPrefix row.name) row.value row.classes] }
  modifyType : ∀ {s : Schema} {name : String} {f : TypeEntry → TypeEntry},
    (∀ t, (f t).specName = t.specName ∧ (f t).record? = t.record?) → P s → P (s.modifyType name f)

namespace Additive

variable {F : List Field → Prop} {P : Schema → Prop} (hP : Additive F P) {config : Config}

include hP

theorem addConstant_preserves (c : Constant) :
    Preserves P (addConstant config c) fun _ => True := by
  refine Preserves.get.bind fun s _ => ?_
  split
  · exact Preserves.pure trivial
  · refine (Preserves.update fun s s' hs ha => ?_).bind fun _ _ => Preserves.pure trivial
    unfold Schema.addConstant at ha
    split at ha
    · cases ha
    · cases ha
      exact hP.constants hs

theorem ensureEnum_preserves (name underlying : String) (isGroup : Bool) :
    Preserves P (ensureEnum name underlying isGroup) fun _ => True := by
  refine Preserves.get.bind fun s _ => ?_
  split
  · exact Preserves.update fun _ _ hs ha => hP.addType (.of_not_record rfl) hs ha
  · exact Preserves.pure trivial

theorem extendEnum_preserves (name : String) (numbers : List Nat) (errorCode : Option String) :
    Preserves P (extendEnum name numbers errorCode) fun _ => True := by
  refine Preserves.modify fun s hs => hP.modifyType (fun t => ?_) hs
  obtain ⟨id, specName, tname, comment, implemented, kind⟩ := t
  cases kind <;> exact ⟨rfl, rfl⟩

theorem addAlgorithms_preserves (base : String) (rows : List (Row AlgorithmRow))
    (hrows : ∀ row ∈ Row.contents rows, Table.isName row.name = true) :
    Preserves P (addAlgorithms config base rows) fun _ => True := by
  refine (hP.ensureEnum_preserves _ _ _).bind fun _ _ => ?_
  refine (Preserves.filterMapM fun row hrow => ?_).bind fun _ _ => hP.extendEnum_preserves _ _ _
  refine (hP.addConstant_preserves _).bind fun number _ => ?_
  split
  · exact (Preserves.modify fun s hs => hP.algorithm (hrows row hrow) hs).bind fun _ _ =>
      Preserves.pure trivial
  · exact Preserves.pure trivial

theorem addConstants_preserves (name : String) (base : Option String)
    (rows : List (Row ConstantRow)) :
    Preserves P (addConstants config name base rows) fun _ => True :=
  (hP.ensureEnum_preserves _ _ _).bind fun _ _ =>
    (Preserves.filterMapM fun _ _ => hP.addConstant_preserves _).bind fun _ _ =>
      hP.extendEnum_preserves _ _ _

theorem addBitfield_preserves (name base : String) (rows : List (Row BitsRow)) :
    Preserves P (addBitfield config name base rows) fun _ => True :=
  (Preserves.filterMapM fun _ _ => hP.addConstant_preserves _).bind fun _ _ =>
    Preserves.update fun _ _ hs ha => hP.addType (.of_not_record rfl) hs ha

/-- Whatever a table adds keeps the property. -/
theorem addTable_preserves (hF : RowsKeep F) (t : Table) (kind : TableKind) :
    Preserves P (addTable config t kind) fun _ => True :=
  Extraction.addTable_preserves hF (fun ht _ hs ha => hP.addType ht hs ha)
    hP.addAlgorithms_preserves hP.addConstants_preserves hP.addBitfield_preserves t kind

end Additive

/-- Rows are all that fields are made of. -/
theorem additive_fieldsMeet (F : List Field → Prop) :
    Additive F fun s => ∀ t ∈ s.types, FieldsMeet F t where
  addType ht hs ha u hu := by
    obtain ⟨-, rfl⟩ := Schema.eq_of_addType ha
    rcases List.mem_append.mp hu with hu | hu
    · exact hs u hu
    · rw [List.mem_singleton.mp hu]
      exact ht
  constants hs := hs
  algorithm _ hs := hs
  modifyType hf hs u hu := by
    obtain ⟨t, ht, rfl⟩ := List.mem_map.mp hu
    split
    · intro r hr
      exact hs t ht r ((hf t).2 ▸ hr)
    · exact hs t ht

/-- The fields of all structures that tables define have a property that rows keep. -/
theorem fieldsMeet_of_addTables {F : List Field → Prop} (hF : RowsKeep F) {config : Config}
    {tables : List Table} {s s' : Schema} {report : ExtractionReport}
    (h : addTables config tables s = .ok (report, s')) (hs : ∀ t ∈ s.types, FieldsMeet F t) :
    ∀ t ∈ s'.types, FieldsMeet F t :=
  (addTables_preserves (fun t kind => (additive_fieldsMeet F).addTable_preserves hF t kind) tables
    s report s' h hs).1

end Extraction

end WireTables
