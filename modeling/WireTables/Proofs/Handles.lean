import WireTables.Proofs.Commands
import WireTables.Proofs.Normal.Heads
import WireTables.Proofs.WireSize

/-!
# Handles and their counts

The first parameters of a command are its handles. Rows are read one after the other, and each adds
one field (`led_addParameter`), so after extraction the first fields are marked as handles and
counted. Normal form splits fields, copies them and takes counts away, and does not count handles
again; still the marked fields are the first ones, as many as the table says or as there are
parameters, and the counts are theirs (`handles_counted`). For that the handles have to be of
elementary types, and no other parameter may be an array that is counted by one of them. To be named
as a selector does a handle no harm.
-/

namespace WireTables

/-- What the row of a handle says about its field. -/
def FieldRow.head (row : FieldRow) : String × Bool :=
  (row.name, row.requiresAuth)

/-- The first rows are of elementary types, and no other row names one of them as its count. -/
structure HandleRows (s : Schema) (count : Nat) (rows : List FieldRow) : Prop where
  scalar : ∀ i row, i < count → rows[i]? = some row → (s.scalar? row.typeName).isSome = true
  unnamed : ∀ i j row other, i < count → j ≠ i → rows[i]? = some row → rows[j]? = some other →
    other.array ≠ some row.name

/-- The handles of the structure are its first fields, and its counts are those of its handles. -/
structure Record.HandlesFirst (count : Nat) (x : Record) : Prop where
  enough : count ≤ x.fields.length
  flags : ∀ i f, x.fields[i]? = some f → (f.isHandle = true ↔ i < count)
  handleCount : x.handleCount = count
  authHandleCount : x.authHandleCount = (x.fields.take count).countP (·.requiresAuth)

section Leading

variable {s : Schema} {heads : List (String × Bool)} {fields : List Field}

/-- Where there are no more fields than handles, all of them are handles. -/
theorem LedBy.all (h : LedBy s heads fields) (hlength : fields.length ≤ heads.length) :
    fields.map Field.head = heads ∧ ∀ f ∈ fields, f.IsHead s := by
  obtain ⟨handles, others, rfl, rfl, first, -⟩ := h
  rw [List.length_append, List.length_map] at hlength
  obtain rfl := List.length_eq_zero_iff.mp (show others.length = 0 by omega)
  rw [List.append_nil]
  exact ⟨rfl, first⟩

/-- A structure without fields has no handles. -/
theorem Record.LedBy.empty (s : Schema) : ({} : Record).LedBy s [] where
  fields := ⟨[], [], rfl, rfl, fun _ hf => (List.not_mem_nil hf).elim,
    fun _ hf => (List.not_mem_nil hf).elim⟩
  handleCount := rfl
  authHandleCount := rfl

/-- One more handle after all others. -/
theorem LedBy.concat_head (h : LedBy s heads fields) (hlength : fields.length ≤ heads.length)
    {f : Field} (hf : f.IsHead s) : LedBy s (heads ++ [f.head]) (fields ++ [f]) := by
  obtain ⟨hheads, hfirst⟩ := h.all hlength
  refine ⟨fields ++ [f], [], (List.append_nil _).symm, ?_, fun g hg => ?_,
    fun _ hg => (List.not_mem_nil hg).elim⟩
  · rw [List.map_append, hheads, List.map_singleton]
  · rcases List.mem_append.mp hg with hg | hg
    · exact hfirst g hg
    · exact List.mem_singleton.mp hg ▸ hf

/-- One more field that is no handle. -/
theorem LedBy.concat (h : LedBy s heads fields) {f : Field} (hf : f.FollowsHeads heads) :
    LedBy s heads (fields ++ [f]) := by
  obtain ⟨handles, others, rfl, named, first, rest⟩ := h
  refine ⟨handles, others ++ [f], List.append_assoc .., named, first, fun g hg => ?_⟩
  rcases List.mem_append.mp hg with hg | hg
  · exact rest g hg
  · exact List.mem_singleton.mp hg ▸ hf

/-- One more handle is counted. -/
theorem Record.LedBy.addHandle {x : Record} (h : x.LedBy s heads)
    (hlength : x.fields.length ≤ heads.length)
    (hkept : List.Forall₂ (Field.KeepsHead s) x.fields fields) {f : Field} (hf : f.IsHead s) :
    Record.LedBy s (heads ++ [f.head]) { x with
      fields := fields ++ [f]
      handleCount := x.handleCount + 1
      authHandleCount := x.authHandleCount + if f.requiresAuth then 1 else 0 } where
  fields := (h.fields.of_forall₂ hkept).concat_head (hkept.length_eq ▸ hlength) hf
  handleCount := by
    rw [List.length_append, ← h.handleCount]
    rfl
  authHandleCount := by
    rw [List.countP_append, ← h.authHandleCount, List.countP_singleton]
    rfl

/-- The handles are the first fields, under the names that they are to have. -/
theorem Record.LedBy.handlesFirst {x : Record} (h : x.LedBy s heads) :
    x.HandlesFirst heads.length ∧ (x.fields.take heads.length).map Field.head = heads := by
  obtain ⟨⟨handles, others, parts, rfl, first, rest⟩, hcount, hauth⟩ := h
  rw [List.length_map] at hcount ⊢
  have htake : x.fields.take handles.length = handles := by
    rw [parts]
    exact List.take_left
  refine ⟨⟨?_, fun i f hf => ?_, hcount, ?_⟩, congrArg _ htake⟩
  · rw [parts, List.length_append]
    exact Nat.le_add_right ..
  · rw [parts, List.getElem?_append] at hf
    split at hf
    · next hi => exact iff_of_true (first f (List.mem_of_getElem? hf)).handle hi
    · next hi =>
      refine iff_of_false ?_ hi
      rw [(rest f (List.mem_of_getElem? hf)).handle]
      exact Bool.false_ne_true
  · rw [htake, hauth, List.countP_map]
    rfl

end Leading

namespace Extraction

variable {s : Schema} {owner : String} {fields fields' : List Field} {row : FieldRow}

/-- What one more row makes of the fields before it, and its own field. -/
structure AddsField (s : Schema) (fields : List Field) (row : FieldRow) (before : List Field)
    (f : Field) : Prop where
  kept : List.Forall₂ (Field.KeepsHead s) fields before
  head : f.head = row.head
  type : f.typeName = row.typeName

variable {before linked : List Field} {f f' : Field}

theorem addsField_plainField (h : plainField row = .ok f) :
    AddsField s fields row fields f ∧ f.marshal ≠ .countedArray := by
  have hkept : List.Forall₂ (Field.KeepsHead s) fields fields :=
    List.forall₂_same.mpr fun f _ => .refl s f
  obtain ⟨domain, -, h⟩ := bind_eq_ok.mp h
  split at h <;> cases h <;> exact ⟨⟨hkept, rfl, rfl⟩, nofun⟩

theorem addsField_linkSelector {selector : Option String} (h : AddsField s fields row before f)
    (hf : f.marshal ≠ .countedArray)
    (hl : linkSelector owner before f selector = .ok (linked, f')) :
    AddsField s fields row linked f' ∧ f'.marshal ≠ .countedArray := by
  unfold linkSelector at hl
  split at hl
  · cases hl
    exact ⟨h, hf⟩
  · split at hl
    · cases hl
      exact ⟨⟨keepsHead_trans h.kept (keepsHead_changeFirst fun f => ⟨rfl, rfl, id, nofun⟩),
        h.head, h.type⟩, nofun⟩
    · cases hl

/-- A field is only counted by one that was there before. -/
theorem addsField_linkCount {array : Option String} (h : AddsField s fields row before f)
    (hf : f.marshal ≠ .countedArray) (hl : linkCount before f array = (linked, f')) :
    AddsField s fields row linked f' ∧ (f'.marshal = .countedArray →
      ∃ g ∈ fields, array = some g.name ∧ f'.partner = some g.name) := by
  unfold linkCount at hl
  split at hl
  · cases hl
    exact ⟨h, fun hm => (hf hm).elim⟩
  · split at hl
    · cases hl
      exact ⟨⟨h.kept, h.head, h.type⟩, nofun⟩
    · split at hl
      · next hfield =>
        cases hl
        refine ⟨⟨keepsHead_trans h.kept (keepsHead_changeFirst fun f => ⟨rfl, rfl, id, nofun⟩),
          h.head, h.type⟩, fun _ => ?_⟩
        obtain ⟨g', hg', rfl⟩ := List.mem_map.mp (hasField_iff.mp hfield)
        obtain ⟨g, hg, hsame⟩ := exists_of_forall₂ h.kept hg'
        have hname : g'.name = g.name := congrArg Prod.fst hsame.head
        exact ⟨g, hg, congrArg some hname, congrArg some hname⟩
      · cases hl
        exact ⟨⟨h.kept, h.head, h.type⟩, nofun⟩

theorem exists_of_addField (h : addField owner fields row = .ok fields') :
    ∃ before f, fields' = before ++ [f] ∧ AddsField s fields row before f ∧
      (f.marshal = .countedArray →
        ∃ g ∈ fields, row.array = some g.name ∧ f.partner = some g.name) := by
  unfold addField at h
  obtain ⟨f₁, hplain, h⟩ := bind_eq_ok.mp h
  obtain ⟨⟨fields₂, f₂⟩, hselector, h⟩ := bind_eq_ok.mp h
  cases hcount : linkCount fields₂ f₂ row.array with
  | mk fields₃ f₃ =>
    simp only [hcount] at h
    cases h
    obtain ⟨h₁, hm₁⟩ : AddsField s fields row fields f₁ ∧ _ := addsField_plainField hplain
    obtain ⟨h₂, hm₂⟩ := addsField_linkSelector h₁ hm₁ hselector
    exact ⟨fields₃, f₃, rfl, addsField_linkCount h₂ hm₂ hcount⟩

variable {count : Nat} {rows done rest : List FieldRow}

/-- A parameter is a handle, marked and counted, as long as there are fewer fields than handles. -/
theorem exists_of_addParameter {count : Nat} {x x' : Record}
    (h : addParameter owner count x row = .ok x') : ∃ before f isHandle,
      AddsField s x.fields row before f ∧ (f.marshal = .countedArray →
        ∃ g ∈ x.fields, row.array = some g.name ∧ f.partner = some g.name) ∧
      isHandle = decide (x.fields.length < count) ∧ x' = { x with
        fields := before ++ [{ f with isHandle }]
        handleCount := x.handleCount + if isHandle then 1 else 0
        authHandleCount := x.authHandleCount + if isHandle && row.requiresAuth then 1 else 0 } := by
  unfold addParameter at h
  obtain ⟨fields, hadd, h⟩ := bind_eq_ok.mp h
  cases h
  obtain ⟨before, f, rfl, hadds, hcounted⟩ := exists_of_addField (s := s) hadd
  refine ⟨before, f, _, hadds, hcounted, rfl, ?_⟩
  simp only [List.dropLast_concat, List.getLast?_concat, Option.map_some, Option.toList_some]

section Rows

variable {count : Nat} {rows done rest : List FieldRow}
  (hrows : HandleRows s count (done ++ row :: rest))

include hrows

/-- The row of a handle is of an elementary type. -/
theorem scalar_of_lt (hlt : done.length < count) : (s.scalar? row.typeName).isSome = true := by
  refine hrows.scalar done.length row hlt ?_
  rw [List.getElem?_append_right le_rfl, Nat.sub_self]
  rfl

/-- No later row names that of a handle as its count. -/
theorem unnamed_of_mem {head : String × Bool} (hhead : head ∈ (done.take count).map FieldRow.head) :
    row.array ≠ some head.1 := by
  obtain ⟨other, hother, rfl⟩ := List.mem_map.mp hhead
  obtain ⟨i, hi⟩ := List.mem_iff_getElem?.mp hother
  rw [List.getElem?_take] at hi
  split at hi
  · next hlt =>
    obtain ⟨hbound, -⟩ := List.getElem?_eq_some_iff.mp hi
    refine hrows.unnamed i done.length other row hlt (Nat.ne_of_gt hbound) ?_ ?_
    · rw [List.getElem?_append_left hbound, hi]
    · rw [List.getElem?_append_right le_rfl, Nat.sub_self]
      rfl
  · cases hi

/-- One more row keeps handles in front, and adds one if there are not enough yet. -/
theorem led_addParameter {x x' : Record} (hled : x.LedBy s ((done.take count).map FieldRow.head))
    (hlength : x.fields.length = done.length) (h : addParameter owner count x row = .ok x') :
    x'.LedBy s (((done ++ [row]).take count).map FieldRow.head) ∧
      x'.fields.length = (done ++ [row]).length := by
  obtain ⟨before, f, isHandle, hadds, hcounted, hisHandle, rfl⟩ := exists_of_addParameter (s := s) h
  rw [hlength] at hisHandle
  have hbefore : before.length = done.length := hadds.kept.length_eq.symm.trans hlength
  refine ⟨?_, by simp only [List.length_append, List.length_singleton, hbefore]⟩
  by_cases hlt : done.length < count
  · obtain rfl : isHandle = true := hisHandle.trans (decide_eq_true hlt)
    have htake : done.take count = done := List.take_of_length_le (Nat.le_of_lt hlt)
    have htake' : (done ++ [row]).take count = done ++ [row] :=
      List.take_of_length_le (by rw [List.length_append]; exact hlt)
    rw [htake', List.map_append, List.map_singleton, ← hadds.head]
    have hfull : x.fields.length ≤ ((done.take count).map FieldRow.head).length := by
      rw [htake, List.length_map, hlength]
    have hhead : Field.IsHead s { f with isHandle := true } := by
      refine ⟨rfl, hadds.type ▸ scalar_of_lt hrows hlt, fun hm => ?_⟩
      -- all fields so far are handles, and none of them counts this one
      obtain ⟨g, hg, harray, -⟩ := hcounted hm
      have hmem := (hled.fields.all hfull).1 ▸ List.mem_map_of_mem (f := Field.head) hg
      exact unnamed_of_mem hrows hmem harray
    have hadded := hled.addHandle hfull hadds.kept hhead
    rw [htake] at hadded
    have hauth : f.requiresAuth = row.requiresAuth := congrArg Prod.snd hadds.head
    exact ⟨hadded.fields, hadded.handleCount, hauth ▸ hadded.authHandleCount⟩
  · obtain rfl : isHandle = false := hisHandle.trans (decide_eq_false hlt)
    rw [List.take_append_of_le_length (by omega)]
    refine ⟨(hled.fields.of_forall₂ hadds.kept).concat ⟨rfl, fun hm head hhead heq => ?_⟩,
      hled.handleCount, hled.authHandleCount⟩
    obtain ⟨g, -, harray, hpartner⟩ := hcounted hm
    exact unnamed_of_mem hrows hhead (harray.trans (hpartner.symm.trans heq))

end Rows

variable {count : Nat} {rows done : List FieldRow}

theorem led_addParameters {x x' : Record} (hrows : HandleRows s count (done ++ rows))
    (hled : x.LedBy s ((done.take count).map FieldRow.head))
    (hlength : x.fields.length = done.length)
    (h : rows.foldlM (addParameter owner count) x = .ok x') :
    x'.LedBy s (((done ++ rows).take count).map FieldRow.head) := by
  induction rows generalizing done x with
  | nil =>
    cases h
    rwa [List.append_nil]
  | cons row rows ih =>
    rw [List.foldlM_cons] at h
    obtain ⟨next, hnext, h⟩ := bind_eq_ok.mp h
    obtain ⟨hled', hlength'⟩ := led_addParameter hrows hled hlength hnext
    rw [List.append_cons] at hrows ⊢
    exact ih hrows hled' hlength' h

end Extraction

/-- Arrays that selectors choose are no handles less for it. -/
theorem Record.LedBy.extracts {s : Schema} {heads : List (String × Bool)} {made x : Record}
    (h : made.LedBy s heads) (hx : made.Extracts x) : x.LedBy s heads where
  fields := h.fields.of_forall₂ (hx.fields.imp fun f f' hf => by
    rcases hf with rfl | rfl
    · exact .refl s f'
    · exact ⟨rfl, rfl, id, nofun⟩)
  handleCount := hx.handleCount.trans h.handleCount
  authHandleCount := hx.authHandleCount.trans h.authHandleCount

/-- In normal form the handles of a command are the first fields of its structure, as many as the
table says or as there are parameters, under the names of the first rows, and the structure has the
number of them and the number of those that require authorization. -/
theorem handles_counted {tables : List Table} {config : Config} {r₀ r : Registry}
    {report : ExtractionReport} (hextract : Extraction.extract tables config = .ok (r₀, report))
    (hy : Yields (Edit.normalize config) r₀ () r) {t u : Table} (ht : t ∈ tables)
    (hu : u ∈ t.instances r₀.algorithms) {name : String} {parameters : List FieldRow}
    (hcommand : u.command? = some (name, parameters))
    (hrows : HandleRows r₀.toSchema u.handleCount parameters) :
    ∃ y x, r.lookup? name = some y ∧ y.record? = some x ∧
      x.HandlesFirst (min u.handleCount parameters.length) ∧
      (x.fields.take (min u.handleCount parameters.length)).map Field.head =
        (parameters.take u.handleCount).map FieldRow.head := by
  obtain ⟨made, x₀, hmade, hx₀, hextracts⟩ := Extraction.exists_of_extract hextract ht hu hcommand
  have hempty : ({} : Record).LedBy r₀.toSchema
      ((([] : List FieldRow).take u.handleCount).map FieldRow.head) := by
    rw [List.take_nil]
    exact .empty r₀.toSchema
  have hmade : made.LedBy r₀.toSchema ((parameters.take u.handleCount).map FieldRow.head) :=
    Extraction.led_addParameters hrows hempty rfl hmade
  have hnames : r₀.names.Nodup := (Extraction.tabled_of_extract hextract).2.names
  obtain ⟨x, hx, hled⟩ := Edit.exists_ledBy_of_passes hnames (Edit.passes_of_normalize hy).1 hx₀
    (hmade.extracts hextracts)
  obtain ⟨y, hy, hx⟩ := Option.bind_eq_some_iff.mp hx
  have hfirst := hled.handlesFirst
  rw [List.length_map, List.length_take] at hfirst
  exact ⟨y, x, hy, hx, hfirst⟩

section Dock

/-- A command with two handles, one of which requires authorization, and a load. -/
def dockCommand : Table :=
  { caption := "Table 3 — TPM2_Dock Command",
    rows := [["TPMI_ST_COMMAND_TAG", "tag", ""], ["UINT32", "commandSize", ""],
      ["TPM_CC", "commandCode", "TPM_CC_Dock"], ["TPM_HANDLE", "@pier", ""], ["#TPM_RC_DOCK"],
      ["TPM_HANDLE", "ship", ""], ["TPM2B_LOAD", "load", ""]],
    handleCount := 2 }

/-- The load is a wrapper, so two fields take its place. -/
def dockTables : List Table :=
  [{ caption := "Table 1 — Definition of Types for Docks", rows := [["UINT32", "TPM_HANDLE", ""]] },
    { caption := "Table 2 — Definition of TPM2B_LOAD Structure",
      rows := [["size", "UINT16", ""], ["buffer[size]", "BYTE", ""]] }, dockCommand]

/-- The rows of the parameters. -/
def dockParameters : List FieldRow :=
  [{ name := "pier", typeName := "TPM_HANDLE", requiresAuth := true },
    { name := "ship", typeName := "TPM_HANDLE" }, { name := "load", typeName := "TPM2B_LOAD" }]

/-- The handles of the command after its load has given way to two fields. -/
theorem handles_counted_dock : ∃ (r₀ r : Registry) (report : ExtractionReport),
    (Extraction.extract dockTables {} = .ok (r₀, report) ∧ Yields (Edit.normalize {}) r₀ () r ∧
      dockCommand ∈ dockTables ∧ dockCommand ∈ dockCommand.instances r₀.algorithms ∧
      dockCommand.command? = some ("TPM2_Dock_REQUEST", dockParameters) ∧
      HandleRows r₀.toSchema 2 dockParameters) ∧
    ∃ y x, r.lookup? "TPM2_Dock_REQUEST" = some y ∧ y.record? = some x ∧ x.HandlesFirst 2 ∧
      (x.fields.take 2).map Field.head = [("pier", true), ("ship", false)] ∧
      x.fields.map (·.name) = ["pier", "ship", "loadSize", "load"] := by
  have hcommand : dockCommand.command? = some ("TPM2_Dock_REQUEST", dockParameters) := by
    decide +kernel
  have hfacts : (normalForms? dockTables).map (fun p => decide (
      dockCommand ∈ dockCommand.instances p.1.algorithms ∧
      (p.1.scalar? "TPM_HANDLE").isSome = true ∧
      ((p.2.lookup? "TPM2_Dock_REQUEST").bind TypeEntry.record?).map (·.fields.map (·.name)) =
        some ["pier", "ship", "loadSize", "load"])) = some true := by
    decide +kernel
  obtain ⟨⟨r₀, r⟩, hforms, hfacts⟩ := Option.map_eq_some_iff.mp hfacts
  obtain ⟨⟨report, hextract⟩, hy⟩ := exists_of_normalForms? hforms
  obtain ⟨hinstance, hscalar, hfields⟩ := of_decide_eq_true hfacts
  have hmem : dockCommand ∈ dockTables := by simp [dockTables]
  have hrows : HandleRows r₀.toSchema dockCommand.handleCount dockParameters := by
    refine ⟨fun i row hi hrow => ?_, fun i j row other _ _ _ hother => ?_⟩
    · match i, hi with
      | 0, _ => cases hrow; exact hscalar
      | 1, _ => cases hrow; exact hscalar
    · have hnone : ∀ other ∈ dockParameters, other.array = none := by decide
      rw [hnone other (List.mem_of_getElem? hother)]
      exact nofun
  obtain ⟨y, x, hlookup, hx, hfirst, hheads⟩ :=
    handles_counted hextract hy hmem hinstance hcommand hrows
  rw [hlookup, Option.bind_some, hx, Option.map_some, Option.some.injEq] at hfields
  exact ⟨r₀, r, report, ⟨hextract, hy, hmem, hinstance, hcommand, hrows⟩, y, x, hlookup, hx, hfirst,
    hheads, hfields⟩

/-- A handle that counts an array goes with the count, and is counted still. -/
example :
    let moor : Table :=
      { caption := "Table 1 — TPM2_Moor Command",
        rows := [["UINT16", "ropes", ""], ["BYTE", "knots[ropes]", ""]], handleCount := 1 }
    let config : Config := { implicitLengths := [⟨"TPM2_Moor_REQUEST", "knots"⟩] }
    ((Registry.ofTables? [moor] config).bind fun r =>
      ((r.lookup? "TPM2_Moor_REQUEST").bind TypeEntry.record?).map fun x =>
        (x.fields.map fun f => (f.name, f.isHandle), x.handleCount)) =
      some ([("knots", false)], 1) := by
  decide +kernel

end Dock

end WireTables
