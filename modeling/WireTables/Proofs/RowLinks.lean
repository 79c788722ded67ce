import Mathlib.Data.List.Induction
import Mathlib.Data.List.Nodup
import WireTables.Proofs.Normal.PlainTail

/-!
# What rows make of fields

A row adds its own field at the end, and the field of an earlier row may become its selector or its
count. Rows agree if they refer to earlier rows that are neither chosen nor arrays, and no row serves
as more than one count (`FieldRow.Agree`). Then what each field is can be said of the rows alone,
without the order in which they are added (`FieldRow.AllBecome`): a row that others choose is the
selector of the last of them.

One more row leaves each earlier field what all rows so far say it is (`FieldRow.Becomes.note`), and so
do all rows (`Extraction.allBecome_addFields`). Nothing but a domain that cannot be read keeps such rows
from being added (`Extraction.exists_addFields_iff`).
-/

namespace WireTables

namespace FieldRow

/-- The length of an array, where one is written. -/
def count? (row : FieldRow) : Option String :=
  row.array.filter (!·.isEmpty)

/-- A row that is neither chosen by another one nor an array. -/
def IsLone (row : FieldRow) : Prop :=
  row.selector = none ∧ row.array = none

instance : DecidablePred IsLone := fun row =>
  inferInstanceAs (Decidable (row.selector = none ∧ row.array = none))

/-- Before a place there is a lone row of the name. -/
def LoneBefore (rows : List FieldRow) (i : Nat) (name : String) : Prop :=
  ∃ tag ∈ rows.take i, tag.name = name ∧ tag.IsLone

instance (rows : List FieldRow) (i : Nat) : DecidablePred (LoneBefore rows i) := fun name =>
  inferInstanceAs (Decidable (∃ tag ∈ rows.take i, tag.name = name ∧ tag.IsLone))

/-- Rows have different names, refer to lone rows before them, and no row is a count twice, or a
count and a selector. The length of an array may be no row at all. -/
structure Agree (rows : List FieldRow) : Prop where
  distinct : (rows.map (·.name)).Nodup
  selectors : ∀ i : Fin rows.length, ∀ name ∈ rows[i].selector, LoneBefore rows i name
  counts : ∀ i : Fin rows.length, ∀ name ∈ rows[i].count?,
    LoneBefore rows i name ∨ name ∉ rows.map (·.name)
  once : ∀ tag ∈ rows, ∀ row ∈ rows, ∀ other ∈ rows,
    row.count? = some tag.name → other.count? = some tag.name → row = other
  apart : ∀ tag ∈ rows, ∀ row ∈ rows, ∀ other ∈ rows,
    row.count? = some tag.name → other.selector ≠ some tag.name
  single : ∀ row ∈ rows, row.selector = none ∨ row.count? = none

/-- No row refers to the row. -/
def Unnamed (rows : List FieldRow) (row : FieldRow) : Prop :=
  ∀ other ∈ rows, other.count? ≠ some row.name ∧ other.selector ≠ some row.name

end FieldRow

/-- How a field is encoded, which field it belongs to, and of which length it is. -/
def Field.Is (f : Field) (marshal : Marshal) (partner size : Option String) : Prop :=
  f.marshal = marshal ∧ f.partner = partner ∧ f.arraySize = size

/-- The field, which now describes another one if it has the name. -/
def Field.describing (f : Field) (name : Option String) (marshal : Marshal) (partner : String) :
    Field :=
  if name = some f.name then { f with marshal, partner := some partner } else f

section Describing

variable {f : Field} {name : Option String} {marshal : Marshal} {partner : String}

@[simp]
theorem Field.name_describing : (f.describing name marshal partner).name = f.name := by
  unfold describing
  split <;> rfl

@[simp]
theorem Field.typeName_describing : (f.describing name marshal partner).typeName = f.typeName := by
  unfold describing
  split <;> rfl

theorem Field.describing_of_ne (h : name ≠ some f.name) :
    f.describing name marshal partner = f :=
  if_neg h

@[simp]
theorem Field.arraySize_describing : (f.describing name marshal partner).arraySize = f.arraySize := by
  unfold describing
  split <;> rfl

theorem Field.describing_is (h : name = some f.name) :
    (f.describing name marshal partner).Is marshal (some partner) f.arraySize := by
  unfold Field.describing
  rw [if_pos h]
  exact ⟨rfl, rfl, rfl⟩

theorem Field.map_describing_none {fields : List Field} :
    (fields.map fun g => g.describing none marshal partner) = fields := by
  rw [List.map_congr_left fun g _ => Field.describing_of_ne (by simp), List.map_id']

theorem Field.names_describing {fields : List Field} :
    (fields.map fun g => g.describing name marshal partner).map (·.name) =
      fields.map (·.name) := by
  simp [Function.comp_def]

/-- The field of a name describes another one, where fields have different names. -/
theorem Field.changeFirst_eq_map_describing {fields : List Field} {name : String}
    (hnames : (fields.map (·.name)).Nodup) :
    Extraction.changeFirst name (fun g => { g with marshal, partner := some partner }) fields =
      fields.map fun g => g.describing (some name) marshal partner := by
  rw [changeFirst_eq_map hnames]
  refine List.map_congr_left fun g _ => ?_
  unfold Field.describing
  by_cases hg : g.name = name
  · rw [if_pos (beq_iff_eq.mpr hg), if_pos (congrArg some hg.symm)]
  · rw [if_neg (mt beq_iff_eq.mp hg), if_neg fun h => hg (Option.some.inj h).symm]

end Describing

namespace FieldRow

/-- What a row says of its own field, where fields have the names. A union-typed field is an array if
its type is among `arrays`. -/
inductive Own (arrays names : List String) (row : FieldRow) (f : Field) : Prop
  | implied : row.array = some "" → f.Is .restArray row.selector none → Own arrays names row f
  | counted {count : String} : row.count? = some count → count ∈ names →
      f.Is .countedArray (some count) none → Own arrays names row f
  | fixed {length : String} : row.count? = some length → length ∉ names →
      f.Is .fixedArray row.selector (some length) → Own arrays names row f
  | object {selector : String} : row.array = none → row.selector = some selector →
      row.typeName ∉ arrays → f.Is .unionBody (some selector) none → Own arrays names row f
  | selected {selector : String} : row.array = none → row.selector = some selector →
      row.typeName ∈ arrays → f.Is .selectedArray (some selector) none → Own arrays names row f
  | constant {value : String} : row.IsLone → row.constant = some value → f.Is .constant none none →
      Own arrays names row f
  | plain : row.IsLone → row.constant = none → f.Is .plain none none → Own arrays names row f

/-- What the field of a row is, by what all rows say: a lone row that another one refers to is the
count of the one that it is named by, or the selector of the last one. -/
inductive Role (arrays : List String) (rows : List FieldRow) (row : FieldRow) (f : Field) : Prop
  | own : (row.IsLone → row.Unnamed rows) → Own arrays (rows.map (·.name)) row f →
      Role arrays rows row f
  | count {array : FieldRow} : row.IsLone → array ∈ rows → array.count? = some row.name →
      f.Is .count (some array.name) none → Role arrays rows row f
  | selector {before after : List FieldRow} {object : FieldRow} : row.IsLone →
      rows = before ++ object :: after → object.selector = some row.name →
      (∀ later ∈ after, later.selector ≠ some row.name) →
      f.Is .selector (some object.name) none → Role arrays rows row f

/-- The field of a row, as all rows have it. -/
structure Becomes (arrays : List String) (rows : List FieldRow) (row : FieldRow) (f : Field) :
    Prop where
  name : f.name = row.name
  typeName : f.typeName = row.typeName
  role : row.Role arrays rows f

variable {arrays : List String} {rows done : List FieldRow} {row x y tag : FieldRow} {f : Field}
  {name : String}

theorem count?_eq_some_iff : row.count? = some name ↔ row.array = some name ∧ name ≠ "" := by
  simp [count?, Option.filter_eq_some_iff]

theorem IsLone.count?_ne (h : row.IsLone) : row.count? ≠ some name := fun hc => by
  cases h.2.symm.trans (count?_eq_some_iff.mp hc).1

theorem IsLone.selector_ne (h : row.IsLone) : row.selector ≠ some name := fun hs => by
  cases h.1.symm.trans hs

/-! ## One row -/

/-- What a later row does to a field that it refers to. -/
def note (row : FieldRow) (f : Field) : Field :=
  (f.describing row.selector .selector row.name).describing row.count? .count row.name

@[simp]
theorem name_note : (row.note f).name = f.name := by
  simp [note]

@[simp]
theorem typeName_note : (row.note f).typeName = f.typeName := by
  simp [note]

theorem note_of_count (h : row.count? = some f.name) :
    (row.note f).Is .count (some row.name) f.arraySize := by
  unfold note
  rw [← Field.arraySize_describing]
  exact Field.describing_is (by simpa using h)

theorem note_of_selector (hcount : row.count? ≠ some f.name) (h : row.selector = some f.name) :
    (row.note f).Is .selector (some row.name) f.arraySize := by
  unfold note
  rw [Field.describing_of_ne (by simpa using hcount)]
  exact Field.describing_is h

theorem note_eq_self (hcount : row.count? ≠ some f.name) (hselector : row.selector ≠ some f.name) :
    row.note f = f := by
  unfold note
  rw [Field.describing_of_ne hselector, Field.describing_of_ne hcount]

end FieldRow

namespace Extraction

open FieldRow

variable {rows done : List FieldRow} {row : FieldRow} {f f' : Field} {fields fields' : List Field}
  {owner : String}

theorem plainField_eq_ok (h : plainField row = .ok f) : f.name = row.name ∧
    f.typeName = row.typeName ∧
    f.Is (if row.constant.isSome then .constant else .plain) none none := by
  obtain ⟨domain, -, h⟩ := bind_eq_ok.mp h
  split at h
  · next hvalue =>
    cases h
    exact ⟨rfl, rfl, by rw [hvalue]; exact ⟨rfl, rfl, rfl⟩⟩
  · next hvalue =>
    cases h
    exact ⟨rfl, rfl, by rw [hvalue]; exact ⟨rfl, rfl, rfl⟩⟩

theorem linkSelector_eq_ok (hnames : (fields.map (·.name)).Nodup) {selector : Option String}
    (h : linkSelector owner fields f selector = .ok (fields', f')) :
    fields' = fields.map (·.describing selector .selector f.name) ∧
    f'.name = f.name ∧ f'.typeName = f.typeName ∧
    f'.Is (if selector.isSome then .unionBody else f.marshal) (selector.or f.partner)
      f.arraySize := by
  cases selector with
  | none =>
    cases h
    exact ⟨Field.map_describing_none.symm, rfl, rfl, rfl, rfl, rfl⟩
  | some selector =>
    unfold linkSelector at h
    dsimp only at h
    split at h
    · cases h
      exact ⟨Field.changeFirst_eq_map_describing hnames, rfl, rfl, rfl, rfl, rfl⟩
    · cases h

theorem linkCount_eq (hnames : (fields.map (·.name)).Nodup) {array : Option String}
    (h : linkCount fields f array = (fields', f')) :
    fields' = fields.map (·.describing (array.filter (!·.isEmpty)) .count f.name) ∧
    f'.name = f.name ∧ f'.typeName = f.typeName ∧
    ((array = none ∧ f' = f) ∨
      (array = some "" ∧ f'.Is .restArray f.partner f.arraySize) ∨
      ∃ length, array.filter (!·.isEmpty) = some length ∧
        ((length ∈ fields.map (·.name) ∧ f'.Is .countedArray (some length) f.arraySize) ∨
          (length ∉ fields.map (·.name) ∧ f'.Is .fixedArray f.partner (some length)))) := by
  unfold linkCount at h
  split at h
  · cases h
    exact ⟨Field.map_describing_none.symm, rfl, rfl, .inl ⟨rfl, rfl⟩⟩
  · next length =>
    split at h
    · next hempty =>
      cases h
      obtain rfl : length = "" := by simpa using hempty
      exact ⟨Field.map_describing_none.symm, rfl, rfl, .inr (.inl ⟨rfl, rfl, rfl, rfl⟩)⟩
    · next hempty =>
      have hcount : (some length).filter (!·.isEmpty) = some length := by simp [hempty]
      rw [hcount]
      split at h
      · next hfield =>
        cases h
        exact ⟨Field.changeFirst_eq_map_describing hnames, rfl, rfl,
          .inr (.inr ⟨length, rfl, .inl ⟨hasField_iff.mp hfield, rfl, rfl, rfl⟩⟩)⟩
      · next hfield =>
        cases h
        have habsent : length ∉ fields.map (·.name) := mt hasField_iff.mpr hfield
        refine ⟨?_, rfl, rfl, .inr (.inr ⟨length, rfl, .inr ⟨habsent, rfl, rfl, rfl⟩⟩)⟩
        have hid : ∀ g ∈ fields, g.describing (some length) .count f.name = id g := fun g hg =>
          Field.describing_of_ne fun heq =>
            habsent (List.mem_map.mpr ⟨g, hg, (Option.some.inj heq).symm⟩)
        rw [List.map_congr_left hid, List.map_id]

/-- A row adds its field at the end, and is noted with the field that it refers to. -/
theorem eq_of_addField (hnames : (fields.map (·.name)).Nodup)
    (h : addField owner fields row = .ok fields') :
    ∃ f, fields' = fields.map row.note ++ [f] ∧ f.name = row.name ∧ f.typeName = row.typeName ∧
      Own [] (fields.map (·.name)) row f := by
  obtain ⟨f₀, hplain, h⟩ := bind_eq_ok.mp h
  obtain ⟨⟨fields₁, f₁⟩, hselector, h⟩ := bind_eq_ok.mp h
  obtain ⟨hname₀, htype₀, hm₀, hp₀, hs₀⟩ := plainField_eq_ok hplain
  obtain ⟨rfl, hname₁, htype₁, hm₁, hp₁, hs₁⟩ := linkSelector_eq_ok hnames hselector
  cases hcount : linkCount (fields.map (·.describing row.selector .selector f₀.name)) f₁ row.array with
  | mk fields₂ f₂ =>
    simp only [hcount] at h
    cases h
    obtain ⟨rfl, hname₂, htype₂, hown⟩ := linkCount_eq (by rwa [Field.names_describing]) hcount
    rw [hname₀] at hname₁
    rw [htype₀] at htype₁
    rw [hp₀, Option.or_none] at hp₁
    rw [hs₀] at hs₁
    rw [Field.names_describing, hp₁, hs₁] at hown
    refine ⟨f₂, ?_, hname₂.trans hname₁, htype₂.trans htype₁, ?_⟩
    · rw [List.map_map, hname₀, hname₁]
      rfl
    · rcases hown with ⟨hnone, rfl⟩ | ⟨hempty, his⟩ | ⟨length, hlength, ⟨hmem, his⟩ | ⟨hmem, his⟩⟩
      · cases hsome : row.selector with
        | some selector =>
          rw [hsome] at hm₁ hp₁
          exact .object hnone hsome List.not_mem_nil ⟨hm₁, hp₁, hs₁⟩
        | none =>
          rw [hsome] at hm₁ hp₁
          rw [hm₀] at hm₁
          cases hvalue : row.constant with
          | some value =>
            rw [hvalue] at hm₁
            exact .constant ⟨hsome, hnone⟩ hvalue ⟨hm₁, hp₁, hs₁⟩
          | none =>
            rw [hvalue] at hm₁
            exact .plain ⟨hsome, hnone⟩ hvalue ⟨hm₁, hp₁, hs₁⟩
      · exact .implied hempty his
      · exact .counted hlength hmem his
      · exact .fixed hlength hmem his

end Extraction

namespace FieldRow

variable {arrays : List String} {rows done : List FieldRow} {row x y tag : FieldRow} {f : Field}
  {name : String}

namespace Agree

theorem eq_of_name (h : Agree rows) (hx : x ∈ rows) (hy : y ∈ rows) (hname : x.name = y.name) :
    x = y :=
  List.inj_on_of_nodup_map h.distinct hx hy hname

/-- What chooses a row is there, and alone. -/
theorem exists_selector (h : Agree rows) (hx : x ∈ rows) (hs : x.selector = some name) :
    ∃ tag ∈ rows, tag.name = name ∧ tag.IsLone := by
  obtain ⟨i, hi, rfl⟩ := List.getElem_of_mem hx
  obtain ⟨tag, htag, hname, hlone⟩ := h.selectors ⟨i, hi⟩ name hs
  exact ⟨tag, List.mem_of_mem_take htag, hname, hlone⟩

theorem lone_of_selector (h : Agree rows) (htag : tag ∈ rows) (hx : x ∈ rows)
    (hs : x.selector = some tag.name) : tag.IsLone := by
  obtain ⟨other, hother, hname, hlone⟩ := h.exists_selector hx hs
  exact h.eq_of_name hother htag hname ▸ hlone

theorem lone_of_count (h : Agree rows) (htag : tag ∈ rows) (hx : x ∈ rows)
    (hc : x.count? = some tag.name) : tag.IsLone := by
  obtain ⟨i, hi, rfl⟩ := List.getElem_of_mem hx
  rcases h.counts ⟨i, hi⟩ tag.name hc with ⟨other, hother, hname, hlone⟩ | habsent
  · exact h.eq_of_name (List.mem_of_mem_take hother) htag hname ▸ hlone
  · exact (habsent (List.mem_map_of_mem htag)).elim

/-- Nothing but rows before the last one is referred to. -/
theorem mem_of_loneBefore {i : Nat} (hi : i < (done ++ [row]).length)
    (h : LoneBefore (done ++ [row]) i name) : name ∈ done.map (·.name) := by
  have hle : i ≤ done.length := by simpa [Nat.lt_succ_iff] using hi
  obtain ⟨tag, htag, hname, -⟩ := h
  rw [List.take_append_of_le_length hle] at htag
  exact List.mem_map.mpr ⟨tag, List.mem_of_mem_take htag, hname⟩

theorem mem_of_selector (h : Agree (done ++ [row])) (hx : x ∈ done ++ [row])
    (hs : x.selector = some name) : name ∈ done.map (·.name) := by
  obtain ⟨i, hi, rfl⟩ := List.getElem_of_mem hx
  exact mem_of_loneBefore hi (h.selectors ⟨i, hi⟩ name hs)

theorem mem_of_count (h : Agree (done ++ [row])) (hx : x ∈ done ++ [row])
    (hc : x.count? = some name) (hname : name ∈ (done ++ [row]).map (·.name)) :
    name ∈ done.map (·.name) := by
  obtain ⟨i, hi, rfl⟩ := List.getElem_of_mem hx
  exact mem_of_loneBefore hi ((h.counts ⟨i, hi⟩ name hc).resolve_right fun habsent => habsent hname)

theorem loneBefore_of_concat {i : Nat} (hi : i < done.length)
    (h : LoneBefore (done ++ [row]) i name) : LoneBefore done i name := by
  unfold LoneBefore at h
  rwa [List.take_append_of_le_length (Nat.le_of_lt hi)] at h

/-- Rows agree without the last one. -/
theorem of_concat (h : Agree (done ++ [row])) : Agree done := by
  have mem {x : FieldRow} (hx : x ∈ done) : x ∈ done ++ [row] := List.mem_append_left _ hx
  have place (i : Fin done.length) : i.1 < (done ++ [row]).length := by
    rw [List.length_append]
    exact Nat.lt_add_right _ i.2
  have same (i : Fin done.length) :
      (done ++ [row])[(⟨i.1, place i⟩ : Fin (done ++ [row]).length)] = done[i] :=
    List.getElem_append_left i.2
  refine ⟨?_, fun i name hs => ?_, fun i name hc => ?_, fun tag htag x hx y hy =>
    h.once tag (mem htag) x (mem hx) y (mem hy), fun tag htag x hx y hy =>
    h.apart tag (mem htag) x (mem hx) y (mem hy), fun x hx => h.single x (mem hx)⟩
  · have hnames := h.distinct
    rw [List.map_append] at hnames
    exact hnames.of_append_left
  · exact loneBefore_of_concat i.2 (h.selectors ⟨i.1, place i⟩ name ((same i).symm ▸ hs))
  · refine (h.counts ⟨i.1, place i⟩ name ((same i).symm ▸ hc)).imp (loneBefore_of_concat i.2)
      fun habsent hname => habsent ?_
    rw [List.map_append]
    exact List.mem_append_left _ hname

end Agree

/-- What a row says of its field stays as long as the names it may mean do. -/
theorem Own.of_names {names names' : List String} (h : Own arrays names row f)
    (hsubset : names ⊆ names')
    (hcount : ∀ name, row.count? = some name → name ∈ names' → name ∈ names) :
    Own arrays names' row f := by
  cases h with
  | implied harray his => exact .implied harray his
  | counted hc hmem his => exact .counted hc (hsubset hmem) his
  | fixed hc hmem his => exact .fixed hc (fun hmem' => hmem (hcount _ hc hmem')) his
  | object harray hs htype his => exact .object harray hs htype his
  | selected harray hs htype his => exact .selected harray hs htype his
  | constant hlone hvalue his => exact .constant hlone hvalue his
  | plain hlone hvalue his => exact .plain hlone hvalue his

/-- The field of a lone row is of no constant length. -/
theorem Role.size_eq_none (h : row.Role arrays rows f) (hlone : row.IsLone) :
    f.arraySize = none := by
  rcases h with ⟨-, how⟩ | ⟨-, -, -, his⟩ | ⟨-, -, -, -, his⟩
  · cases how with
    | fixed hc => exact (hlone.count?_ne hc).elim
    | implied _ his | counted _ _ his | object _ _ _ his | selected _ _ _ his
    | constant _ _ his | plain _ _ his => exact his.2.2
  · exact his.2.2
  · exact his.2.2

theorem names_subset_concat : done.map (·.name) ⊆ (done ++ [row]).map (·.name) := by
  rw [List.map_append]
  exact List.subset_append_left _ _

/-- One more row that does not refer to an earlier one changes nothing of its field. -/
theorem Role.concat (hrows : Agree (done ++ [row])) (hx : x ∈ done) (h : x.Role [] done f)
    (hcount : row.count? ≠ some x.name) (hselector : row.selector ≠ some x.name) :
    x.Role [] (done ++ [row]) f := by
  rcases h with ⟨hunnamed, how⟩ | ⟨hlone, harray, hc, his⟩ | ⟨hlone, rfl, hobject, hlater, his⟩
  · refine .own (fun hlone other hother => ?_)
      (how.of_names names_subset_concat fun _ => hrows.mem_of_count (List.mem_append_left _ hx))
    rcases List.mem_append.mp hother with hother | hother
    · exact hunnamed hlone other hother
    · rw [List.mem_singleton.mp hother]
      exact ⟨hcount, hselector⟩
  · exact .count hlone (List.mem_append_left _ harray) hc his
  · refine .selector hlone (List.append_assoc ..) hobject (fun later hmem => ?_) his
    rcases List.mem_append.mp hmem with hmem | hmem
    · exact hlater later hmem
    · rw [List.mem_singleton.mp hmem]
      exact hselector

/-! ## All rows -/

/-- One more row leaves the field of each earlier one what all rows say it is. -/
theorem Becomes.note (hrows : Agree (done ++ [row])) (hx : x ∈ done)
    (h : x.Becomes [] done f) : x.Becomes [] (done ++ [row]) (row.note f) := by
  have hname : f.name = x.name := h.name
  have hx' : x ∈ done ++ [row] := List.mem_append_left _ hx
  have hrow : row ∈ done ++ [row] := List.mem_append_right _ (List.mem_singleton_self row)
  refine ⟨name_note.trans hname, typeName_note.trans h.typeName, ?_⟩
  by_cases hcount : row.count? = some x.name
  · have hlone := hrows.lone_of_count hx' hrow hcount
    have his := note_of_count (hname ▸ hcount)
    rw [h.role.size_eq_none hlone] at his
    exact .count hlone hrow hcount his
  · by_cases hselector : row.selector = some x.name
    · have hlone := hrows.lone_of_selector hx' hrow hselector
      have his := note_of_selector (hname ▸ hcount) (hname ▸ hselector)
      rw [h.role.size_eq_none hlone] at his
      -- the row is the last one so far, and it chooses the earlier one
      exact .selector hlone rfl hselector (fun _ hlater => (List.not_mem_nil hlater).elim) his
    · rw [note_eq_self (hname ▸ hcount) (hname ▸ hselector)]
      exact h.role.concat hrows hx hcount hselector

/-- The field of a new row is what the row says of it. -/
theorem becomes_of_own (hrows : Agree (done ++ [row])) (hname : f.name = row.name)
    (htype : f.typeName = row.typeName) (h : Own [] (done.map (·.name)) row f) :
    row.Becomes [] (done ++ [row]) f := by
  have hrow : row ∈ done ++ [row] := List.mem_append_right _ (List.mem_singleton_self row)
  have hnew : row.name ∉ done.map (·.name) := by
    have hdistinct := hrows.distinct
    rw [List.map_append] at hdistinct
    exact fun hmem => hdistinct.disjoint hmem List.mem_cons_self
  refine ⟨hname, htype, .own (fun _ other hother => ⟨fun hc => ?_, fun hs => ?_⟩)
    (h.of_names names_subset_concat fun _ => hrows.mem_of_count hrow)⟩
  · exact hnew (hrows.mem_of_count hother hc (List.mem_map_of_mem hrow))
  · exact hnew (hrows.mem_of_selector hother hs)

/-- Rows and the fields that they become. -/
def AllBecome (arrays : List String) (rows : List FieldRow) (fields : List Field) : Prop :=
  List.Forall₂ (fun row f => row.Becomes arrays rows f) rows fields

theorem AllBecome.names {fields : List Field} (h : AllBecome arrays rows fields) :
    fields.map (·.name) = rows.map (·.name) := by
  have heq : List.Forall₂ Eq (fields.map (·.name)) (rows.map (·.name)) := by
    rw [List.forall₂_map_left_iff, List.forall₂_map_right_iff]
    exact h.flip.imp fun _ _ hbecomes => hbecomes.name
  exact List.forall₂_eq_eq_eq ▸ heq

end FieldRow

namespace Extraction

open FieldRow

variable {rows done : List FieldRow} {row : FieldRow} {fields fields' : List Field} {owner : String}

/-- One more row keeps the fields what all rows say they are. -/
theorem allBecome_addField (hrows : Agree (done ++ [row])) (h : AllBecome [] done fields)
    (hadd : addField owner fields row = .ok fields') : AllBecome [] (done ++ [row]) fields' := by
  have hnames : (fields.map (·.name)).Nodup := h.names ▸ hrows.of_concat.distinct
  obtain ⟨f, rfl, hname, htype, hown⟩ := eq_of_addField hnames hadd
  rw [h.names] at hown
  refine List.rel_append ?_ (.cons (becomes_of_own hrows hname htype hown) .nil)
  rw [List.forall₂_map_right_iff]
  exact (forall₂_mem h).imp fun _ _ ⟨hx, hbecomes⟩ => hbecomes.note hrows hx

theorem addFields_concat : (done ++ [row]).foldlM (addField owner) [] = .ok fields ↔
    ∃ before, done.foldlM (addField owner) [] = .ok before ∧
      addField owner before row = .ok fields := by
  simp only [List.foldlM_append, List.foldlM_cons, List.foldlM_nil, bind_pure, bind_eq_ok]

/-- The fields that rows are added as are what the rows say they are. -/
theorem allBecome_addFields (hrows : Agree rows)
    (h : rows.foldlM (addField owner) [] = .ok fields) : AllBecome [] rows fields := by
  induction rows using List.reverseRecOn generalizing fields with
  | nil =>
    cases h
    exact .nil
  | append_singleton done row ih =>
    obtain ⟨before, hbefore, h⟩ := addFields_concat.mp h
    exact allBecome_addField hrows (ih hrows.of_concat hbefore) h

/-- The domain of a row can be read. -/
def HasDomain (row : FieldRow) : Prop :=
  ∃ domain, ({} : Domain).addText (row.domain.getD "") = .ok domain

/-- Where the selector is there, only a domain that cannot be read keeps a row from being added. -/
theorem exists_addField_iff
    (hselector : ∀ name, row.selector = some name → name ∈ fields.map (·.name)) :
    (∃ fields', addField owner fields row = .ok fields') ↔ HasDomain row := by
  constructor
  · rintro ⟨fields', h⟩
    obtain ⟨f, hplain, -⟩ := bind_eq_ok.mp h
    obtain ⟨domain, hdomain, -⟩ := bind_eq_ok.mp hplain
    exact ⟨domain, hdomain⟩
  · rintro ⟨domain, hdomain⟩
    obtain ⟨f, hplain⟩ : ∃ f, plainField row = .ok f := by
      unfold plainField
      rw [hdomain]
      exact ⟨_, rfl⟩
    obtain ⟨⟨linked, f'⟩, hlink⟩ : ∃ r, linkSelector owner fields f row.selector = .ok r := by
      unfold linkSelector
      cases hs : row.selector with
      | none => exact ⟨_, rfl⟩
      | some name =>
        dsimp only
        rw [if_pos (hasField_iff.mpr (hselector name hs))]
        exact ⟨_, rfl⟩
    unfold addField
    rw [hplain]
    exact ⟨_, bind_eq_ok.mpr ⟨f, rfl, bind_eq_ok.mpr ⟨_, hlink, rfl⟩⟩⟩

/-- Rows that agree can be added if their domains can be read. -/
theorem exists_addFields_iff (hrows : Agree rows) :
    (∃ fields, rows.foldlM (addField owner) [] = .ok fields) ↔ ∀ row ∈ rows, HasDomain row := by
  induction rows using List.reverseRecOn with
  | nil => exact iff_of_true ⟨_, rfl⟩ fun _ hmem => (List.not_mem_nil hmem).elim
  | append_singleton done row ih =>
    rw [List.forall_mem_append, List.forall_mem_singleton, ← ih hrows.of_concat]
    simp only [addFields_concat]
    have hselector : ∀ before, done.foldlM (addField owner) [] = .ok before →
        ∀ name, row.selector = some name → name ∈ before.map (·.name) := by
      intro before hbefore name hs
      rw [(allBecome_addFields hrows.of_concat hbefore).names]
      exact hrows.mem_of_selector (List.mem_append_right _ (List.mem_singleton_self row)) hs
    constructor
    · rintro ⟨fields, before, hbefore, h⟩
      exact ⟨⟨before, hbefore⟩, (exists_addField_iff (hselector before hbefore)).mp ⟨fields, h⟩⟩
    · rintro ⟨⟨before, hbefore⟩, hdomain⟩
      obtain ⟨fields, h⟩ := (exists_addField_iff (hselector before hbefore)).mpr hdomain
      exact ⟨fields, before, hbefore, h⟩

end Extraction

end WireTables
