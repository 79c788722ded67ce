import WireTables.Proofs.Normal.Inlining
import WireTables.Proofs.Wire.Structure
import WireTables.Proofs.Wire.Transfer

/-!
# Flattened values

Where wrappers are inlined, the value of a structure is the flattened one (`flatten`): the entries
of a wrapper stand in the place of the wrapper, the data under the name of the inlined field itself.
What reading gives for the pieces of a field is what the entry of the field is spread into
(`spread_pair`), and names that do not collide keep the entries of other fields apart.
-/

namespace WireTables.Wire

/-- The entries that come from the value of a field. An inlined field has those of its wrapper: the
data under the name of the field itself, the tag under the name that it has among its new
siblings. -/
def spread (wrapper : Option (Field × Field)) (f : Field) (v : Value) : List (String × Value) :=
  match wrapper, v with
  | some (tag, _), .struct entries => entries.map fun e =>
      (if e.1 == tag.name then Schema.inlinedTagName f tag else f.name, e.2)
  | _, v => [(f.name, v)]

mutual

/-- A value of a type of `s` as one of the same type of `s'`, where wrappers are inlined. -/
def flatten (s s' : Schema) (config : Config) (type : String) : Value → Value
  | .struct entries =>
    match s.recordOf? type with
    | some (t, r) => .struct (flattenEntries s s' config t.specName r.fields entries)
    | none => .struct entries
  | .list items => .list (flattenItems s s' config type items)
  | .union inner v => .union inner (flatten s s' config inner v)
  | .number n => .number n
  | .bool b => .bool b
  | .bytes data => .bytes data
  | .null => .null

/-- The entries of a structure with inlined fields spread. -/
def flattenEntries (s s' : Schema) (config : Config) (owner : String) (fields : List Field) :
    List (String × Value) → List (String × Value)
  | [] => []
  | (name, v) :: rest =>
    (match fields.find? (·.name == name) with
    | some f => spread (s'.wrapperOf? config owner f) f (flatten s s' config f.typeName v)
    | none => [(name, v)]) ++ flattenEntries s s' config owner fields rest

/-- The elements of an array, all of one type. -/
def flattenItems (s s' : Schema) (config : Config) (type : String) : List Value → List Value
  | [] => []
  | v :: rest => flatten s s' config type v :: flattenItems s s' config type rest

end

section Values

variable {s s' : Schema} {config : Config} {owner type : String} {fields : List Field} {f : Field}

theorem flatten_elementary {v : Value} (hv : Elementary v) : flatten s s' config type v = v := by
  cases v with
  | number n => rfl
  | bool b => rfl
  | bytes | struct | list | union | null => cases hv

theorem flatten_struct {t : TypeEntry} {x : Record} (hx : s.recordOf? type = some (t, x))
    (entries : List (String × Value)) : flatten s s' config type (.struct entries) =
      .struct (flattenEntries s s' config t.specName x.fields entries) := by
  rw [flatten, hx]

theorem flattenEntries_append (es es' : List (String × Value)) :
    flattenEntries s s' config owner fields (es ++ es') =
      flattenEntries s s' config owner fields es ++
        flattenEntries s s' config owner fields es' := by
  induction es with
  | nil => rfl
  | cons e es ih =>
    obtain ⟨name, v⟩ := e
    rw [List.cons_append, flattenEntries, flattenEntries, ih, List.append_assoc]

/-- The entry of a field gives way to those that its value is spread into. -/
theorem flattenEntries_entry (hnames : (fields.map (·.name)).Nodup) (hf : f ∈ fields)
    (v : Option Value) : flattenEntries s s' config owner fields (entry f.name v) =
      v.toList.flatMap fun v =>
        spread (s'.wrapperOf? config owner f) f (flatten s s' config f.typeName v) := by
  have found : fields.find? (·.name == f.name) = some f := Schema.find?_of_mem hnames hf
  cases v with
  | none => rfl
  | some v =>
    show flattenEntries s s' config owner fields [(f.name, v)] = _
    rw [flattenEntries, found, flattenEntries]
    simp

theorem flattenEntries_kept (hnames : (fields.map (·.name)).Nodup) (hf : f ∈ fields)
    (hw : s'.wrapperOf? config owner f = none) (v : Option Value) :
    flattenEntries s s' config owner fields (entry f.name v) =
      entry f.name (v.map (flatten s s' config f.typeName)) := by
  rw [flattenEntries_entry hnames hf, hw]
  cases v <;> rfl

/-- The entries of a wrapper under the names that its fields have from now on. -/
theorem spread_pair {tag data : Field} (hne : data.name ≠ tag.name) (vt vd : Option Value) :
    spread (some (tag, data)) f
        (.struct (Value.putFields [] (entry tag.name vt ++ entry data.name vd))) =
      entry (Schema.inlinedTagName f tag) vt ++ entry f.name vd := by
  have hput : Value.putFields [] (entry tag.name vt ++ entry data.name vd) =
      entry tag.name vt ++ entry data.name vd := by
    refine putFields_of_nodup ?_
    cases vt <;> cases vd <;> simp [entry, hne.symm]
  rw [hput]
  cases vt <;> cases vd <;> simp [spread, entry, hne]

/-- Flattened is what a structure was read as. -/
def Flat (s s' : Schema) (config : Config) (type : String) (v v' : Value) : Prop :=
  (∃ entries, v = .struct entries) ∧ v' = flatten s s' config type v

theorem Flat.of_recordOf?_eq {other : String} {v v' : Value}
    (hrecord : s.recordOf? other = s.recordOf? type) (h : Flat s s' config other v v') :
    Flat s s' config type v v' := by
  obtain ⟨⟨entries, rfl⟩, rfl⟩ := h
  refine ⟨⟨entries, rfl⟩, ?_⟩
  rw [flatten, flatten, hrecord]

/-- A structure is found under its own name. -/
theorem recordOf?_objectName {object : String} (ho : objectName? s type = some object) :
    s.recordOf? object = s.recordOf? type := by
  obtain ⟨⟨t, x⟩, hx, rfl⟩ := Option.map_eq_some_iff.mp ho
  obtain ⟨ht, hr⟩ := Schema.recordOf?_eq_some.mp hx
  rw [hx]
  refine Schema.recordOf?_eq_some.mpr ⟨?_, hr⟩
  exact Schema.target_of_lookup? (Schema.lookup?_of_target ht).1 (Schema.lookup?_of_target ht).2

theorem Flat.eq_flatten {object : String} {v v' : Value} (ho : objectName? s type = some object)
    (h : Flat s s' config object v v') : v' = flatten s s' config type v :=
  (h.of_recordOf?_eq (recordOf?_objectName ho)).2

/-- The structures in a step are those that the type of its field denotes. -/
theorem objectName?_of_steps {known : Known} {all : List Field} {op : Op} {isData : Bool}
    {object : String} (h : Steps s known all f op isData)
    (hop : op = .object object ∨ ∃ length, op = .array (.object object) length) :
    objectName? s f.typeName = some object := by
  have element : element? s f.typeName = some (.object object) →
      objectName? s f.typeName = some object := by
    intro he
    unfold element? at he
    split at he
    · next ho =>
      cases he
      exact ho
    · obtain ⟨c, -, he⟩ := Option.map_eq_some_iff.mp he
      split at he <;> cases he
  rcases hop with rfl | ⟨length, rfl⟩
  · cases h with
    | object _ ho => exact ho
  · cases h with
    | counted _ _ he | fixed _ he | rest _ he => exact element he

/-- A value in which all structures inside are flattened is flattened. -/
theorem eq_flatten_of_corresponds {op : Op} {v v' : Value}
    (hobject : ∀ object, (op = .object object ∨ ∃ length, op = .array (.object object) length) →
      objectName? s type = some object)
    (h : Corresponds (Flat s s' config) op v v') : v' = flatten s s' config type v := by
  cases h with
  | elementary hv => exact (flatten_elementary hv).symm
  | bytes | null => rfl
  | object h => exact h.eq_flatten (hobject _ (.inl rfl))
  | held hv => rw [flatten, flatten_elementary hv]
  | record h => rw [flatten, h.2]
  | @items element length items items' h =>
    rw [flatten]
    congr 1
    induction h with
    | nil => rfl
    | cons hv _ ih =>
      rw [flattenItems, ih]
      congr 1
      cases hv with
      | scalar hv => exact (flatten_elementary hv).symm
      | object h => exact h.eq_flatten (hobject _ (.inr ⟨length, rfl⟩))

end Values

section Names

variable {s : Schema} {config : Config} {owner : String} {fields : List Field}

theorem mem_flatMap_pieces {g : Field} : g ∈ fields.flatMap (s.pieces config owner) ↔
    (g ∈ fields ∧ s.wrapperOf? config owner g = none) ∨ ∃ f ∈ fields, ∃ tag data,
      s.wrapperOf? config owner f = some (tag, data) ∧ g ∈ Schema.inlineParts f tag data := by
  rw [List.mem_flatMap]
  constructor
  · rintro ⟨f, hf, hg⟩
    unfold Schema.pieces at hg
    split at hg
    · next tag data hw => exact .inr ⟨f, hf, tag, data, hw, hg⟩
    · next hw =>
      obtain rfl := List.mem_singleton.mp hg
      exact .inl ⟨hf, hw⟩
  · rintro (⟨hg, hw⟩ | ⟨f, hf, tag, data, hw, hg⟩)
    · exact ⟨g, hg, Schema.pieces_of_kept hw ▸ List.mem_singleton_self g⟩
    · exact ⟨f, hf, Schema.pieces_of_wrapper hw ▸ hg⟩

variable (hnames : ((fields.flatMap (s.pieces config owner)).map (·.name)).Nodup)

include hnames

theorem nodup_of_pieces : (fields.map (·.name)).Nodup :=
  List.nodup_iff_count_le_one.mpr fun name =>
    Once.of_inline Schema.inlines_pieces (List.nodup_iff_count_le_one.mp hnames name)

variable {f tag data : Field} (hf : f ∈ fields)

include hf

/-- The name of a tag is a new one. -/
theorem inlinedTagName_not_mem (hw : s.wrapperOf? config owner f = some (tag, data)) :
    Schema.inlinedTagName f tag ∉ fields.map (·.name) := by
  obtain ⟨before, after, rfl⟩ := List.append_of_mem hf
  have hpieces := Schema.pieces_of_wrapper hw
  have hcount := List.nodup_iff_count_le_one.mp hnames (Schema.inlinedTagName f tag)
  have hmore : ∀ fields : List Field, (fields.map (·.name)).count (Schema.inlinedTagName f tag) ≤
      ((fields.flatMap (s.pieces config owner)).map (·.name)).count
        (Schema.inlinedTagName f tag) := fun _ => count_le_inline Schema.inlines_pieces _
  have hbefore := hmore before
  have hafter := hmore after
  rw [List.flatMap_append, List.flatMap_cons, hpieces, List.map_append, List.map_append,
    List.count_append, List.count_append] at hcount
  have hparts : ((Schema.inlineParts f tag data).map (·.name)).count
      (Schema.inlinedTagName f tag) = [f.name].count (Schema.inlinedTagName f tag) + 1 :=
    List.count_cons_self
  rw [← List.count_pos_iff, List.map_append, List.map_cons, List.count_append,
    ← List.singleton_append, List.count_append]
  omega

/-- A field that stays selects what it selected before. -/
theorem selectsObject_kept :
    selectsObject (fields.flatMap (s.pieces config owner)) f = selectsObject fields f := by
  rw [Bool.eq_iff_iff]
  simp only [selectsObject, List.any_eq_true, Bool.and_eq_true, beq_iff_eq]
  constructor
  · rintro ⟨u, hu, hm, hp⟩
    rcases mem_flatMap_pieces.mp hu with ⟨hu, -⟩ | ⟨g, hg, tag, data, hw, hu⟩
    · exact ⟨u, hu, hm, hp⟩
    · obtain ⟨-, t, r, -, -, hwraps⟩ := Schema.wrapperOf?_eq_some.mp hw
      rcases List.mem_pair.mp hu with rfl | rfl
      · rcases hwraps.marshal with ⟨ht, -⟩ | ⟨ht, -⟩ <;> cases ht.symm.trans hm
      · refine (inlinedTagName_not_mem hnames hg hw ?_).elim
        rw [Option.some.inj hp]
        exact List.mem_map_of_mem hf
  · rintro ⟨u, hu, hm, hp⟩
    refine ⟨u, mem_flatMap_pieces.mpr (.inl ⟨hu, ?_⟩), hm, hp⟩
    cases hw : s.wrapperOf? config owner u with
    | none => rfl
    | some p => cases (Schema.wrapperOf?_eq_some.mp hw).1.1.symm.trans hm

/-- A tag that was inlined selects what came with it, if anything. -/
theorem selectsObject_inlined (htags : TagsFirst [] [] fields)
    (hw : s.wrapperOf? config owner f = some (tag, data)) {g : Field}
    (hg : g.name = Schema.inlinedTagName f tag) :
    selectsObject (fields.flatMap (s.pieces config owner)) g = (data.marshal == .unionBody) := by
  rw [Bool.eq_iff_iff]
  simp only [selectsObject, List.any_eq_true, Bool.and_eq_true, beq_iff_eq, hg]
  constructor
  · rintro ⟨u, hu, hm, hp⟩
    rcases mem_flatMap_pieces.mp hu with ⟨hu, -⟩ | ⟨f₁, hf₁, tag₁, data₁, hw₁, hu⟩
    · obtain ⟨before, after, rfl⟩ := List.append_of_mem hu
      have htag : u.tag? = some (Schema.inlinedTagName f tag) := by
        rw [Field.tag?, hm]
        exact hp
      have hmem := (htags.mem htag List.not_mem_nil).resolve_left List.not_mem_nil
      refine (inlinedTagName_not_mem hnames hf hw ?_).elim
      rw [List.map_append]
      exact List.mem_append_left _ hmem
    · have same : ∀ {p q : Field}, p ∈ fields.flatMap (s.pieces config owner) →
          q ∈ fields.flatMap (s.pieces config owner) → p.name = q.name → p = q :=
        fun hp hq => List.inj_on_of_nodup_map hnames hp hq
      have parts : ∀ {f tag data p : Field}, f ∈ fields →
          s.wrapperOf? config owner f = some (tag, data) → p ∈ Schema.inlineParts f tag data →
            p ∈ fields.flatMap (s.pieces config owner) := fun hf hw hp =>
        mem_flatMap_pieces.mpr (.inr ⟨_, hf, _, _, hw, hp⟩)
      obtain ⟨-, t, r, -, -, hwraps⟩ := Schema.wrapperOf?_eq_some.mp hw₁
      rcases List.mem_pair.mp hu with rfl | rfl
      · rcases hwraps.marshal with ⟨ht, -⟩ | ⟨ht, -⟩ <;> cases ht.symm.trans hm
      · have htag := same (parts hf₁ hw₁ List.mem_cons_self) (parts hf hw List.mem_cons_self)
          (Option.some.inj hp)
        have hname : f₁.name = f.name := Option.some.inj (congrArg Field.partner htag)
        have hdata := same (parts hf₁ hw₁ (List.mem_cons_of_mem _ List.mem_cons_self))
          (parts hf hw (List.mem_cons_of_mem _ List.mem_cons_self)) hname
        exact (congrArg Field.marshal hdata).symm.trans hm
  · intro hm
    exact ⟨_, mem_flatMap_pieces.mpr (.inr ⟨f, hf, tag, data, hw,
      List.mem_cons_of_mem _ List.mem_cons_self⟩), hm, rfl⟩

end Names

end WireTables.Wire
