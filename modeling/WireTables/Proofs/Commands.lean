import WireTables.Proofs.Editing
import WireTables.Proofs.Ownership
import WireTables.Proofs.Schema.Recast
import WireTables.Proofs.TableOrder

/-!
# What tables of commands define

A table of a command defines one structure, its request or its response, from the rows of its
parameters (`Table.command?`); a template is a table for each algorithm (`Table.instances`).
Whatever the other tables define, the structure is there after extraction, with the fields that its
rows make (`exists_of_extract`). Which tables a template stands for can be told from the algorithms
that are known in the end, because none is added in the second round (`addOtherTable_algorithms`).
-/

namespace WireTables

/-- The name of the structure that a table of a command defines. -/
def TableKind.commandRecord? : TableKind → Option String
  | .request command => some (command ++ "_REQUEST")
  | .response command => some (command ++ "_RESPONSE")
  | _ => none

/-- The parameter that a row of a command describes. -/
def CommandRow.parameter? : CommandRow → Option FieldRow
  | .parameter field => some field
  | .header .. => none

namespace Table

/-- The tables that a table stands for. -/
def instances (algorithms : List Algorithm) (t : Table) : List Table :=
  match t.expand algorithms with
  | .error _ => []
  | .ok none => [t]
  | .ok (some tables) => tables

/-- The rows of the parameters of a command, if all rows of the table can be read. -/
def parameterRows (t : Table) (kind : TableKind) : List FieldRow :=
  match Row.readAll Row.command? t.caption kind.label 0 t.rows with
  | .ok rows => (Row.contents rows).filterMap CommandRow.parameter?
  | .error _ => []

/-- The name and the parameters of the structure that a table of a command defines. -/
def command? (t : Table) : Option (String × List FieldRow) := do
  let kind ← Caption.kind? t.caption
  let name ← kind.commandRecord?
  return (name, t.parameterRows kind)

end Table

/-- A structure of a table after the links between types have been made. -/
structure Record.Extracts (made x : Record) : Prop where
  fields : List.Forall₂ (fun f f' => f' = f ∨ f' = { f with marshal := .selectedArray })
    made.fields x.fields
  handleCount : x.handleCount = made.handleCount
  authHandleCount : x.authHandleCount = made.authHandleCount

/-- A type that is added is found under its name. -/
theorem Schema.lookup?_added {s s' : Schema} {t : TypeEntry} (h : s.addType t = .ok s') :
    s'.lookup? t.specName = some { t with id := s.types.length } := by
  obtain ⟨hnew, rfl⟩ := eq_of_addType h
  have hnone : s.types.find? (·.specName == t.specName) = none :=
    List.find?_eq_none.mpr fun u hu heq => hnew (beq_iff_eq.mp heq ▸ List.mem_map_of_mem hu)
  unfold lookup?
  rw [List.find?_append, hnone, Option.none_or]
  exact List.find?_cons_of_pos (beq_iff_eq.mpr rfl)

namespace Build

/-- What the round of a loop for one element brings about stays true to the end. -/
theorem Preserves.foldlM_mem {P Q : Schema → Prop} {f : β → α → Build β} {xs : List α} {x : α}
    (hx : x ∈ xs) (hP : ∀ b y, Preserves P (f b y) fun _ => True)
    (hQ : ∀ b y, Preserves Q (f b y) fun _ => True)
    (hstep : ∀ b s b' s', f b x s = .ok (b', s') → P s → Q s') {b c : β} {s s' : Schema}
    (h : xs.foldlM f b s = .ok (c, s')) (hs : P s) : Q s' := by
  induction xs generalizing b s with
  | nil => cases hx
  | cons y ys ih =>
    rw [List.foldlM_cons] at h
    obtain ⟨⟨b', s₁⟩, hfirst, hrest⟩ := bind_eq_ok.mp h
    rcases List.mem_cons.mp hx with rfl | hx
    · exact (Preserves.foldlM (R := fun _ => True) True.intro (fun b _ y _ => hQ b y) s₁ c s' hrest
        (hstep b s b' s₁ hfirst hs)).1
    · exact ih hx hrest (hP b y s b' s₁ hfirst hs).1

section Algorithms

variable {config : Config} {algorithms : List Algorithm}

theorem addType_algorithms (t : TypeEntry) :
    Preserves (·.algorithms = algorithms) (addType t) fun _ => True :=
  Preserves.update fun s s' hs ha => by
    obtain ⟨-, rfl⟩ := Schema.eq_of_addType ha
    exact hs

theorem addConstant_algorithms (c : Constant) :
    Preserves (·.algorithms = algorithms) (addConstant config c) fun _ => True := by
  refine Preserves.get.bind fun s _ => ?_
  split
  · exact Preserves.pure trivial
  · refine (Preserves.update fun s s' hs ha => ?_).bind fun _ _ => Preserves.pure trivial
    unfold Schema.addConstant at ha
    split at ha
    · cases ha
    · cases ha
      exact hs

theorem ensureEnum_algorithms (name underlying : String) (isGroup : Bool) :
    Preserves (·.algorithms = algorithms) (ensureEnum name underlying isGroup) fun _ => True := by
  refine Preserves.get.bind fun s _ => ?_
  split
  · exact addType_algorithms _
  · exact Preserves.pure trivial

theorem extendEnum_algorithms (name : String) (numbers : List Nat) (errorCode : Option String) :
    Preserves (·.algorithms = algorithms) (extendEnum name numbers errorCode) fun _ => True := by
  refine Preserves.modify fun s hs => ?_
  exact hs

end Algorithms

end Build

namespace Extraction

open Build

variable {config : Config} {algorithms : List Algorithm}

/-- Only tables of algorithms add algorithms. -/
theorem addTable_algorithms (t : Table) {kind : TableKind}
    (hkind : ∀ base, kind ≠ .algorithms base) :
    Preserves (·.algorithms = algorithms) (addTable config t kind) fun _ => True := by
  have rows : ∀ {α : Type} {content? : List String → Option (Row α)},
      Preserves (·.algorithms = algorithms)
        (StateT.lift (Row.readAll content? t.caption kind.label 0 t.rows)) fun _ => True :=
    Preserves.lift fun _ _ => trivial
  have hF : RowsKeep fun _ => True := ⟨trivial, fun _ _ => trivial, fun _ => trivial⟩
  have hadd : ∀ {s s' : Schema} {t : TypeEntry}, FieldsMeet (fun _ => True) t →
      t.listsConstants = false → s.algorithms = algorithms → s.addType t = .ok s' →
        s'.algorithms = algorithms := by
    rintro s s' t - - hs ha
    obtain ⟨-, rfl⟩ := Schema.eq_of_addType ha
    exact hs
  cases kind with
  | algorithms base => exact (hkind base rfl).elim
  | constants =>
    exact rows.bind fun _ _ => (ensureEnum_algorithms _ _ _).bind fun _ _ =>
      (Preserves.filterMapM fun _ _ => addConstant_algorithms _).bind fun _ _ =>
        extendEnum_algorithms _ _ _
  | bitfield =>
    exact rows.bind fun _ _ =>
      (Preserves.filterMapM fun _ _ => addConstant_algorithms _).bind fun _ _ =>
        addType_algorithms _
  | aliases => exact rows.bind fun _ _ => addAliases_preserves hadd _
  | interface => exact rows.bind fun _ _ => addInterface_preserves hadd _ _ _
  | record => exact rows.bind fun _ _ => addRecord_preserves hF hadd _ _ _
  | union => exact rows.bind fun _ _ => addUnion_preserves hF hadd _ _ _
  | request => exact rows.bind fun _ _ => addCommand_preserves hF hadd _ _ _ _
  | response => exact rows.bind fun _ _ => addCommand_preserves hF hadd _ _ _ _

/-- In the second round no algorithms are added. -/
theorem addExpandedTable_algorithms (report : ExtractionReport) (t : Table) :
    Preserves (·.algorithms = algorithms) (addExpandedTable config report t) fun _ => True := by
  unfold addExpandedTable
  split
  · exact Preserves.pure trivial
  · next kind hkind _ =>
    exact (addTable_algorithms t hkind).bind fun _ _ => Preserves.pure trivial
  · exact Preserves.pure trivial

theorem addOtherTable_algorithms (report : ExtractionReport) (t : Table) :
    Preserves (·.algorithms = algorithms) (addOtherTable config report t) fun _ => True := by
  refine Preserves.get.bind fun s _ => ?_
  split
  · exact Preserves.pure trivial
  · exact addExpandedTable_algorithms _ _
  · exact Preserves.foldlM trivial fun _ _ _ _ => addExpandedTable_algorithms _ _

/-- A structure that is there stays as it is when something is added. -/
theorem additive_lookup (name : String) (x : Record) :
    Additive (fun _ => True) fun s => (s.lookup? name).bind TypeEntry.record? = some x where
  addType _ hs ha := by
    obtain ⟨-, rfl⟩ := Schema.eq_of_addType ha
    obtain ⟨t, ht, hx⟩ := Option.bind_eq_some_iff.mp hs
    unfold Schema.lookup? at ht ⊢
    rw [List.find?_append, ht, Option.some_or, Option.bind_some, hx]
  constants hs := hs
  algorithm _ hs := hs
  modifyType hf hs := by
    obtain ⟨t, ht, hx⟩ := Option.bind_eq_some_iff.mp hs
    rw [Schema.lookup?_modifyType fun t => (hf t).1, ht, Option.map_some, Option.bind_some]
    split
    · exact (hf t).2.trans hx
    · exact hx

/-- The structure of a table of a command is there, with the fields that its parameters make. -/
def Defines (name : String) (count : Nat) (parameters : List FieldRow) (s : Schema) : Prop :=
  ∃ made role errorCode, parameters.foldlM (addParameter name count) {} = .ok made ∧
    (s.lookup? name).bind TypeEntry.record? = some { made with role, errorCode }

variable {name : String} {count : Nat} {parameters : List FieldRow}

theorem addTable_defines (t : Table) (kind : TableKind) :
    Preserves (Defines name count parameters) (addTable config t kind) fun _ => True := by
  rintro s a s' h ⟨made, role, errorCode, hmade, hs⟩
  obtain ⟨hs', -⟩ := (additive_lookup name _).addTable_preserves
    ⟨trivial, fun _ _ => trivial, fun _ => trivial⟩ t kind s a s' h hs
  exact ⟨⟨made, role, errorCode, hmade, hs'⟩, trivial⟩

theorem defines_of_addCommand {command : String} {isRequest : Bool} {rows : List (Row CommandRow)}
    {s s' : Schema} {u : Unit}
    (hname : name = command ++ if isRequest then "_REQUEST" else "_RESPONSE")
    (h : addCommand command isRequest count rows s = .ok (u, s')) :
    Defines name count ((Row.contents rows).filterMap CommandRow.parameter?) s' := by
  subst hname
  obtain ⟨⟨made, s₁⟩, hlift, h⟩ := bind_eq_ok.mp h
  obtain ⟨made', hmade, hlift⟩ := bind_eq_ok.mp hlift
  cases hlift
  have hfound := Schema.lookup?_added (eq_of_update h)
  exact ⟨made, _, _, hmade, congrArg (Option.bind · TypeEntry.record?) hfound⟩

/-- A table of a command that is added defines its structure. -/
theorem defines_of_addExpandedTable {report report' : ExtractionReport} {t : Table} {s s' : Schema}
    (hcommand : t.command? = some (name, parameters))
    (h : addExpandedTable config report t s = .ok (report', s')) :
    Defines name t.handleCount parameters s' := by
  obtain ⟨kind, hkind, hcommand⟩ := Option.bind_eq_some_iff.mp hcommand
  obtain ⟨name', hname, hcommand⟩ := Option.bind_eq_some_iff.mp hcommand
  cases hcommand
  have hadd : ∃ u, addTable config t kind s = .ok (u, s') := by
    unfold addExpandedTable at h
    rw [hkind] at h
    cases kind <;> cases hname
    all_goals
      obtain ⟨⟨u, s₁⟩, hadd, h⟩ := bind_eq_ok.mp h
      cases h
      exact ⟨u, hadd⟩
  obtain ⟨u, hadd⟩ := hadd
  unfold Table.parameterRows
  cases kind <;> cases hname
  all_goals
    obtain ⟨⟨rows, s₁⟩, hlift, hadd⟩ := bind_eq_ok.mp hadd
    obtain ⟨rows', hrows, hlift⟩ := bind_eq_ok.mp hlift
    cases hlift
    rw [hrows]
    exact defines_of_addCommand rfl hadd

/-- A table of a command defines the structure of each table that it stands for. -/
theorem defines_of_addOtherTable {report report' : ExtractionReport} {t u : Table} {s s' : Schema}
    (hu : u ∈ t.instances s.algorithms) (hcommand : u.command? = some (name, parameters))
    (h : addOtherTable config report t s = .ok (report', s')) :
    Defines name u.handleCount parameters s' := by
  unfold Table.instances at hu
  cases hexpand : t.expand s.algorithms with
  | error e =>
    rw [hexpand] at hu
    cases hu
  | ok expansion =>
    cases expansion with
    | none =>
      rw [hexpand] at hu
      obtain rfl := List.mem_singleton.mp hu
      rw [addOtherTable_of_plain hexpand] at h
      exact defines_of_addExpandedTable hcommand h
    | some tables =>
      have hu : u ∈ tables := by
        rw [hexpand] at hu
        exact hu
      rw [addOtherTable_of_template hexpand] at h
      exact Preserves.foldlM_mem (P := fun _ => True) (f := addExpandedTable config) hu
        (fun _ _ _ _ _ _ _ => ⟨trivial, trivial⟩)
        (fun _ _ => addExpandedTable_preserves addTable_defines _ _)
        (fun _ _ _ _ h _ => defines_of_addExpandedTable hcommand h) h trivial

theorem defines_of_addTables {tables : List Table} {report : ExtractionReport} {t u : Table}
    {s s' : Schema} (ht : t ∈ tables) (hu : u ∈ t.instances s'.algorithms)
    (hcommand : u.command? = some (name, parameters))
    (h : addTables config tables s = .ok (report, s')) :
    Defines name u.handleCount parameters s' := by
  obtain ⟨⟨report₁, s₁⟩, -, hsecond⟩ := bind_eq_ok.mp h
  have halgorithms : s'.algorithms = s₁.algorithms := (Preserves.foldlM (R := fun _ => True) trivial
    (fun _ _ _ _ => addOtherTable_algorithms _ _) s₁ report s' hsecond rfl).1
  rw [halgorithms] at hu
  exact Preserves.foldlM_mem (P := (·.algorithms = s₁.algorithms)) (f := addOtherTable config) ht
    (fun _ _ => addOtherTable_algorithms _ _)
    (fun _ _ => addOtherTable_preserves addTable_defines _ _)
    (fun _ _ _ _ h hs => defines_of_addOtherTable (hs ▸ hu) hcommand h) hsecond rfl

/-- Making arrays of what a selector chooses leaves all else of a structure. -/
theorem recast_selectArrays (s : Schema) :
    s.RecastBy (fun _ => Record.Extracts) (selectArrays s) := by
  let change (f : Field) : Field :=
    if f.marshal == .unionBody &&
        ((s.unions.filter (·.2.isArrayUnion)).map (·.1.specName)).contains f.typeName then
      { f with marshal := .selectedArray }
    else f
  refine .mapRecord (P := fun _ => Record.Extracts) (f := fun _ x =>
    { x with fields := x.fields.map change }) fun _ x =>
      ⟨List.forall₂_map_right_iff.mpr (List.forall₂_same.mpr fun f _ => ?_), rfl, rfl⟩
  dsimp only [change]
  split
  · exact .inr rfl
  · exact .inl rfl

/-- The structure of a table of a command is there after extraction. -/
theorem exists_of_extract {tables : List Table} {r : Registry} {report : ExtractionReport}
    {t u : Table} (h : extract tables config = .ok (r, report)) (ht : t ∈ tables)
    (hu : u ∈ t.instances r.algorithms) (hcommand : u.command? = some (name, parameters)) :
    ∃ made x, parameters.foldlM (addParameter name u.handleCount) {} = .ok made ∧
      (r.lookup? name).bind TypeEntry.record? = some x ∧ made.Extracts x := by
  unfold extract at h
  obtain ⟨⟨report', s⟩, hadd, h⟩ := bind_eq_ok.mp h
  dsimp only at h
  split at h
  · next r' hcheck =>
    cases h
    obtain ⟨known, -, rfl⟩ := Registry.yields_of_calculate hcheck
    have hu : u ∈ t.instances s.algorithms := hu
    obtain ⟨made, role, errorCode, hmade, hfound⟩ := defines_of_addTables ht hu hcommand hadd
    obtain ⟨x, hx, hselected⟩ := (recast_selectArrays s).exists_found hfound
    obtain ⟨_, hlinked, rfl⟩ := Schema.recast_linkUnions.exists_found hx
    exact ⟨made, _, hmade, hlinked, hselected.fields, hselected.handleCount,
      hselected.authHandleCount⟩
  · cases h

end Extraction

end WireTables
