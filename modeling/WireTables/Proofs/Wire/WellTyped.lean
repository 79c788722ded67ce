import WireTables.Proofs.Wire.RoundTrip

/-!
# Well-typed values

Values that have what their types ask for, and that decoding gives back. `WellTyped` speaks of a
structure by its plan; a well-typed value is `Decided` (`decided_of_wellTyped`), and what is read of
it is the `Same` value, because a number of the right kind is read back from its bytes.
-/

namespace WireTables.Wire

/-- The same value: the fields of a structure have no order. -/
inductive Same : Value → Value → Prop
  | number {n} : Same (.number n) (.number n)
  | bool {b} : Same (.bool b) (.bool b)
  | bytes {data} : Same (.bytes data) (.bytes data)
  | null : Same .null .null
  | list {items items'} (h : List.Forall₂ Same items items') : Same (.list items) (.list items')
  | union {type v w} (h : Same v w) : Same (.union type v) (.union type w)
  | struct {fields fields' : List (String × Value)}
    (hnames : (fields.map (·.1)).Perm (fields'.map (·.1)))
    (h : ∀ name v w, fields.lookup name = some v → fields'.lookup name = some w → Same v w) :
    Same (.struct fields) (.struct fields')

/-- A value for a field that travels as `op`; `well` tells the well-typed structures. No array has
more elements than memory has bytes. -/
inductive Fits (s : Schema) (well : String → Value → Prop) : Op → Value → Prop
  | scalar {c v} (h : HoldsScalar c v) : Fits s well (.scalar c) v
  | selector {c object derived v} (h : HoldsScalar c v) :
    Fits s well (.selector c object derived) v
  | object {type v} (h : well type v) : Fits s well (.object type) v
  | sized {c type v} (h : well type v) : Fits s well (.sized c type) v
  | bytes {length data} (hlen : data.length < 0x8000000000000000) :
    Fits s well (.array .byte length) (.bytes data)
  | scalars {c length items} (hlen : items.length < 0x8000000000000000)
    (h : ∀ x ∈ items, HoldsScalar c x) : Fits s well (.array (.scalar c) length) (.list items)
  | objects {type length items} (hlen : items.length < 0x8000000000000000)
    (h : ∀ x ∈ items, well type x) : Fits s well (.array (.object type) length) (.list items)
  | absent {union tag} : Fits s well (.union union tag) .null
  | record {union tag u m i v} (hu : (s.lookup? union).bind TypeEntry.union? = some u)
    (hm : (m, i) ∈ u.members.zipIdx) (hi : u.nullMember ≠ some i)
    (hr : s.isRecord m.typeName = true) (h : well m.typeName v) :
    Fits s well (.union union tag) (.union m.typeName v)
  | member {union tag u m i c v} (hu : (s.lookup? union).bind TypeEntry.union? = some u)
    (hm : (m, i) ∈ u.members.zipIdx) (hi : u.nullMember ≠ some i)
    (hr : s.isRecord m.typeName = false) (hc : s.scalar? m.typeName = some c)
    (h : HoldsScalar c v) : Fits s well (.union union tag) (.union m.typeName v)

/-- A union value stands for a member whose selector has this value. -/
def Selects (s : Schema) (known : Known) (union : String) (v : Value) (n : Int) : Prop :=
  ∃ u m, (s.lookup? union).bind TypeEntry.union? = some u ∧ memberHolding? u v = some m ∧
    Yields (s.constantValue m.selector) known n known

/-- A structure with one entry for each field that is part of the value, as far as the structure
goes. Unions under one selector agree about its value. -/
inductive WellTyped (s : Schema) (known : Known) : String → Value → Prop
  | struct {type fields steps tail} (hplan : Plan s known type steps tail)
    (hnames : (fields.map (·.1)).Perm
      (((written tail fields steps).filter (·.isData)).map (·.field.name)))
    (hfits : ∀ st ∈ written tail fields steps, ∀ v, fields.lookup st.field.name = some v →
      Fits s (WellTyped s known) st.op v)
    (hagree : ∀ st ∈ steps, ∀ st' ∈ steps, ∀ union union' tag, st.op = .union union tag →
      st'.op = .union union' tag → ∀ v v', fields.lookup st.field.name = some v →
        fields.lookup st'.field.name = some v' →
          ∃ n, Selects s known union v n ∧ Selects s known union' v' n) :
    WellTyped s known type (.struct fields)

variable {s : Schema} {known : Known}

section Parts

/-- What is inside a well-typed value is well-typed. -/
theorem wellTyped_of_part {type inner : String} {v x : Value} (hpart : Part s known type v inner x)
    (hv : WellTyped s known type v) : WellTyped s known inner x := by
  induction hpart with
  | refl => exact hv
  | @step type fields steps tail st w next y last z hplan hst hw hy _ ih =>
    refine ih ?_
    cases hv with
    | struct hplan' _ hfits =>
      obtain ⟨rfl, rfl⟩ := hplan.unique hplan'
      have hfit := hfits st hst w hw
      generalize st.op = op at hfit hy
      cases hy with
      | object =>
        cases hfit with
        | object h => exact h
      | sized =>
        cases hfit with
        | sized h => exact h
      | element hx =>
        cases hfit with
        | objects _ h => exact h _ hx
      | member hr =>
        cases hfit with
        | record _ _ _ _ h => exact h
        | member _ _ _ hr' => cases hr.symm.trans hr'

end Parts

theorem HoldsScalar.number_or_bool {c : Scalar} {v : Value} (h : HoldsScalar c v) :
    (∃ n, v = .number n) ∨ ∃ b, v = .bool b := by
  unfold HoldsScalar at h
  split at h
  · exact .inr h
  · obtain ⟨num, rfl, -⟩ := h
    exact .inl ⟨num, rfl⟩

section Members

/-- Only a step for a union has a value that stands for a union member. -/
theorem union_of_fits {op : Op} {v : Value} {u : UnionType} {m : UnionMember}
    (h : Fits s (WellTyped s known) op v) (hm : memberHolding? u v = some m) :
    ∃ union tag, op = .union union tag := by
  cases h with
  | scalar h | selector h => rcases h.number_or_bool with ⟨n, rfl⟩ | ⟨b, rfl⟩ <;> cases hm
  | object h | sized h => cases h; cases hm
  | bytes | scalars | objects => cases hm
  | absent | record | member => exact ⟨_, _, rfl⟩

/-- A union value that fits is absent or stands for a member by name. -/
theorem namesMember_of_fits {union tag : String} {u : UnionType} {v : Value}
    (hfits : Fits s (WellTyped s known) (.union union tag) v)
    (hu : (s.lookup? union).bind TypeEntry.union? = some u) : NamesMember u v := by
  cases hfits with
  | absent => exact .absent
  | record hu' hm hi | member hu' hm hi =>
    cases hu.symm.trans hu'
    exact .named hm hi

end Members

section Decided

variable {steps : List Step} {tail : Option (String × Int)} {type : String}
  {fields : List (String × Value)}

theorem mem_names_of_lookup {name : String} {v : Value} (h : fields.lookup name = some v) :
    name ∈ fields.map (·.1) :=
  List.mem_map_of_mem (f := fun e : String × Value => e.1) (mem_of_lookup_eq_some h)

/-- An entry of a well-typed value belongs to a step that is part of the value. -/
theorem step_of_entry (hv : WellTyped s known type (.struct fields))
    (hplan : Plan s known type steps tail) {name : String} {v : Value}
    (hlookup : fields.lookup name = some v) : ∃ st ∈ written tail fields steps,
      st.isData = true ∧ st.field.name = name ∧ Fits s (WellTyped s known) st.op v := by
  cases hv with
  | struct hplan' hnames hfits =>
    obtain ⟨rfl, rfl⟩ := hplan.unique hplan'
    obtain ⟨st, hst, rfl⟩ := List.mem_map.mp (hnames.subset (mem_names_of_lookup hlookup))
    obtain ⟨hst, hdata⟩ := List.mem_filter.mp hst
    exact ⟨st, hst, hdata, rfl, hfits st hst v hlookup⟩

theorem fits_of_step (hv : WellTyped s known type (.struct fields))
    (hplan : Plan s known type steps tail) {st : Step} (hst : st ∈ written tail fields steps)
    {v : Value} (hlookup : fields.lookup st.field.name = some v) :
    Fits s (WellTyped s known) st.op v := by
  cases hv with
  | struct hplan' _ hfits =>
    obtain ⟨rfl, rfl⟩ := hplan.unique hplan'
    exact hfits st hst v hlookup

/-- A step that is part of a well-typed value has an entry. -/
theorem entry_of_step (hv : WellTyped s known type (.struct fields))
    (hplan : Plan s known type steps tail) {st : Step} (hst : st ∈ written tail fields steps)
    (hdata : st.isData = true) :
    ∃ v, fields.lookup st.field.name = some v ∧ Fits s (WellTyped s known) st.op v := by
  cases hv with
  | struct hplan' hnames hfits =>
    obtain ⟨rfl, rfl⟩ := hplan.unique hplan'
    have hmem : st.field.name ∈ fields.map (·.1) := by
      refine hnames.symm.subset (List.mem_map_of_mem (f := fun st : Step => st.field.name) ?_)
      exact List.mem_filter.mpr ⟨hst, hdata⟩
    cases hlookup : fields.lookup st.field.name with
    | none =>
      obtain ⟨e, he, hname⟩ := List.mem_map.mp hmem
      have := List.lookup_eq_none_iff.mp hlookup e he
      simp [hname] at this
    | some v => exact ⟨v, rfl, hfits st hst v hlookup⟩

/-- The numbers of a well-typed value are read as they are written, and its unions are those that
their selectors choose. -/
theorem decided_of_wellTyped (hv : WellTyped s known type (.struct fields))
    (hplan : Plan s known type steps tail) (hsound : SoundPlan s steps tail)
    (hregular : Regular s known steps) : Decided s known steps tail fields where
  chosen := by
    intro st hst union tag hop v hlookup st' hst' hname n hn
    have hmem := mem_of_mem_written hst
    obtain ⟨pre, post, hsplit⟩ := List.append_of_mem hmem
    obtain ⟨st₁, hst₁, hname₁, c₁, object₁, hop₁⟩ := hsound.linked.union pre st post hsplit _ _ hop
    have hmem₁ : st₁ ∈ steps := by
      rw [hsplit]
      exact List.mem_append_left _ hst₁
    obtain rfl := hsound.step_eq hmem₁ hst' (hname₁.trans hname.symm)
    rcases hn with ⟨w, hw, -⟩ | ⟨-, c, object, w, hop', hw, hderives⟩
    · -- A selector that is determined by a union is not part of the value.
      obtain ⟨st₂, hst₂, hdata, hname₂, -⟩ := step_of_entry hv hplan hw
      obtain rfl := hsound.step_eq (mem_of_mem_written hst₂) hst' hname₂
      rw [hsound.linked.isData st₂ hst', hop₁] at hdata
      cases hdata
    · -- It is determined by a union under it, and all of these agree.
      obtain ⟨st₂, hst₂, -, hname₂, hfits₂⟩ := step_of_entry hv hplan hw
      have hmem₂ := mem_of_mem_written hst₂
      obtain ⟨step, u₂, m₂, hfind, hu₂, hm₂, hn₂⟩ := hderives
      have hstep : step.field.name = object := by simpa using List.find?_some hfind
      obtain rfl :=
        hsound.step_eq (List.mem_of_find?_eq_some hfind) hmem₂ (hstep.trans hname₂.symm)
      obtain ⟨union₂, tag₂, hop₂⟩ := union_of_fits hfits₂ hm₂
      obtain rfl := hsound.linked.object _ hst' _ _ _ hop' _ hmem₂ hname₂ _ _ hop₂
      rw [hsound.linked.unionType _ hmem₂ _ _ hop₂] at hu₂
      rw [← hname] at hop
      rw [← hname₂] at hw
      have hfits := fits_of_step hv hplan hst hlookup
      cases hv with
      | struct hplan' _ _ hagree =>
        obtain ⟨rfl, rfl⟩ := hplan.unique hplan'
        obtain ⟨k, ⟨u, m, hu, hm, hk⟩, u₂', m₂', hu₂', hm₂', hk₂⟩ :=
          hagree st hmem _ hmem₂ _ _ _ hop hop₂ _ _ hlookup hw
        cases hu₂.symm.trans hu₂'
        cases hm₂.symm.trans hm₂'
        obtain ⟨rfl, -⟩ := hn₂.unique hk₂
        rw [hop] at hfits
        obtain ⟨i, hi, hstands⟩ := stands_of_namesMember (namesMember_of_fits hfits hu)
          (hregular.distinct st hmem _ _ _ hop hu) (hsound.members st hmem _ _ _ hop hu) hm
        exact ⟨u, m, i, hu, hi, hk, hstands⟩
  ending := by
    intro selector null htail st hst hname c hop hbool
    have hdata : st.isData = true := by
      rw [hsound.linked.isData st (mem_of_mem_written hst), hop]
      rfl
    obtain ⟨v, hlookup, hfits⟩ := entry_of_step hv hplan hst hdata
    rw [hop] at hfits
    rw [hname] at hlookup
    cases hfits with
    | scalar h =>
      unfold HoldsScalar at h
      rw [if_pos hbool] at h
      obtain ⟨b, rfl⟩ := h
      exact ⟨b, hlookup⟩
  lengths := by
    intro name v count hlookup hcount
    obtain ⟨st, -, -, -, hfits⟩ := step_of_entry hv hplan hlookup
    generalize st.op = op at hfits
    cases hfits with
    | scalar h | selector h => rcases h.number_or_bool with ⟨n, rfl⟩ | ⟨b, rfl⟩ <;> cases hcount
    | object h | sized h => cases h; cases hcount
    | bytes hlen | scalars hlen | objects hlen =>
      cases hcount
      exact hlen
    | absent | record | member => cases hcount

end Decided

section Same

/-- A number or truth value is read back from its bytes. -/
theorem same_of_readsBack {c : Scalar} {v w : Value} (hc : Standard c) (hv : HoldsScalar c v)
    (h : ReadsBack c v w) : Same v w := by
  obtain ⟨n, bytes, hn, hb, hw⟩ := h
  rw [scalarValue?_of_holds hc hv hn hb, Option.some.injEq] at hw
  subst hw
  rcases hv.number_or_bool with ⟨n, rfl⟩ | ⟨b, rfl⟩
  · exact .number
  · exact .bool

/-- A value that fits is read back as it is. -/
theorem same_of_matches {op : Op} {v w : Value} (hstd : ∀ c, op.Uses s c → Standard c)
    (hfits : Fits s (WellTyped s known) op v)
    (h : Matches s ReadsBack (fun _ => Same) op v w) : Same v w := by
  cases h with
  | scalar h =>
    cases hfits with
    | scalar hv => exact same_of_readsBack (hstd _ .scalar) hv h
  | selector h =>
    cases hfits with
    | selector hv => exact same_of_readsBack (hstd _ .selector) hv h
  | object h | sized h => exact h
  | bytes => exact .bytes
  | byteItems => cases hfits
  | scalars h =>
    cases hfits with
    | scalars _ hv =>
      have hall := (List.forall₂_and_left _ _).mpr ⟨hv, h⟩
      exact .list (hall.imp fun _ _ hx => same_of_readsBack (hstd _ .element) hx.1 hx.2)
  | objects hlen h => exact .list (List.forall₂_iff_zip.mpr ⟨hlen, fun hx => h _ _ hx⟩)
  | absent => exact .null
  | record _ h => exact .union h
  | member hr hc h =>
    cases hfits with
    | record _ _ _ hr' => cases hr.symm.trans hr'
    | member hu hm hi hr' hc' hv =>
      cases hc.symm.trans hc'
      exact .union (same_of_readsBack (hstd _ (.member hu hm hi hr' hc')) hv h)

/-- Entries that match those of a well-typed value make up the same value. -/
theorem same_of_entriesMatch {steps : List Step} {tail : Option (String × Int)} {type : String}
    {fields entries : List (String × Value)} (hv : WellTyped s known type (.struct fields))
    (hplan : Plan s known type steps tail) (hsound : SoundPlan s steps tail)
    (h : EntriesMatch s (fun _ => Same) fields (written tail fields steps) entries) :
    Same (.struct fields) (.struct entries) := by
  refine .struct ?_ fun name v w hv' hw => ?_
  · rw [names_of_entriesMatch h]
    cases hv with
    | struct hplan' hnames =>
      obtain ⟨rfl, rfl⟩ := hplan.unique hplan'
      exact hnames
  · obtain ⟨st, hst, rfl, x, hx, hmatch⟩ := step_of_entriesMatch h hw
    rw [hv', Option.some.injEq] at hx
    subst hx
    exact same_of_matches (hsound.standard st (mem_of_mem_written hst))
      (fits_of_step hv hplan hst hv') hmatch

end Same

/-- A well-typed value is decoded from what it is encoded in. -/
theorem decode_of_wellTyped (h : s.Remembers (· = known)) {type : String} {v : Value}
    {bytes : List UInt8} {k' : Known} (hv : WellTyped s known type v)
    (hw : Yields (encode s type v) known bytes k') (hlength : bytes.length < 0x8000000000000000)
    (hsound : ∀ inner steps tail, Reaches s known type inner → Plan s known inner steps tail →
      SoundPlan s steps tail ∧ Regular s known steps ∧ ∀ st ∈ steps, ∀ next, st.op.Holds s next →
        (∃ c, st.op = .sized c next) ∨ Closed s known next) :
    ∃ w, Yields (decode s type bytes) known w known ∧ Same v w := by
  have well : ∀ {inner fields}, Part s known type v inner (.struct fields) →
      WellTyped s known inner (.struct fields) := fun hpart => wellTyped_of_part hpart hv
  refine decode_of_encode (R := fun _ => Same) h hw hlength hsound
    (fun inner fields steps tail hreach hpart hplan => ?_)
    fun inner fields steps tail entries hreach hpart hplan hall => ?_
  · obtain ⟨hsteps, hregular, -⟩ := hsound inner steps tail hreach hplan
    exact decided_of_wellTyped (well hpart) hplan hsteps hregular
  · obtain ⟨hsteps, -⟩ := hsound inner steps tail hreach hplan
    exact same_of_entriesMatch (well hpart) hplan hsteps hall

end WireTables.Wire
