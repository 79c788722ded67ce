import WireTables.Proofs.Wire.Decoding

/-!
# What a structure holds

The scalars and structures that a plan speaks of, those that can be reached from a structure, and
the parts of a value that are values of structures themselves. `SoundPlan` collects what the plans
of a normalized registry guarantee about their steps.

Where the names of fields are different, the value of a structure has one entry for each step that
was read and is data, and the number of a field is the one that was noted last under its name.
`readsAll_at` finds the reading of any one step in the reading of a structure.
-/

namespace WireTables.Wire

/-- An elementary encoding that a step reads or writes. -/
inductive Op.Uses (s : Schema) : Op → Scalar → Prop
  | scalar {c} : Uses s (.scalar c) c
  | constant {c text} : Uses s (.constant c text) c
  | count {c array} : Uses s (.count c array) c
  | size {c type} : Uses s (.sized c type) c
  | selector {c object derived} : Uses s (.selector c object derived) c
  | element {c length} : Uses s (.array (.scalar c) length) c
  | member {union tag u m i c} (hu : (s.lookup? union).bind TypeEntry.union? = some u)
    (hm : (m, i) ∈ u.members.zipIdx) (hi : u.nullMember ≠ some i)
    (hr : s.isRecord m.typeName = false) (hc : s.scalar? m.typeName = some c) :
    Uses s (.union union tag) c

/-- A structure that a step reads or writes. -/
inductive Op.Holds (s : Schema) : Op → String → Prop
  | object {type} : Holds s (.object type) type
  | sized {c type} : Holds s (.sized c type) type
  | element {type length} : Holds s (.array (.object type) length) type
  | member {union tag u m i} (hu : (s.lookup? union).bind TypeEntry.union? = some u)
    (hm : (m, i) ∈ u.members.zipIdx) (hi : u.nullMember ≠ some i)
    (hr : s.isRecord m.typeName = true) : Holds s (.union union tag) m.typeName

/-- The second structure is the first one or is held somewhere inside it. -/
inductive Reaches (s : Schema) (known : Known) : String → String → Prop
  | refl {type} : Reaches s known type type
  | step {type inner last steps tail st} (hplan : Plan s known type steps tail) (hst : st ∈ steps)
    (hinner : st.op.Holds s inner) (h : Reaches s known inner last) : Reaches s known type last

namespace Reaches

theorem trans {s : Schema} {known : Known} {type inner last : String}
    (h₁ : Reaches s known type inner) (h₂ : Reaches s known inner last) :
    Reaches s known type last := by
  induction h₁ with
  | refl => exact h₂
  | step hplan hst hinner _ ih => exact .step hplan hst hinner (ih h₂)

end Reaches

/-- The structure after a selector is absent under this value of it. -/
def cutsAfter (tail : Option (String × Int)) (fields : List (String × Value)) (st : Step) : Bool :=
  match tail with
  | some (selector, null) =>
    selector == st.field.name && (fields.lookup selector).bind Value.word? == some null
  | none => false

/-- The steps that a value goes through: all of them, or those up to the selector when it has the
null value. -/
def written (tail : Option (String × Int)) (fields : List (String × Value)) :
    List Step → List Step
  | [] => []
  | st :: rest => if cutsAfter tail fields st then [st] else st :: written tail fields rest

theorem mem_of_mem_written {tail : Option (String × Int)} {fields : List (String × Value)}
    {steps : List Step} {st : Step} (h : st ∈ written tail fields steps) : st ∈ steps := by
  induction steps with
  | nil => cases h
  | cons first rest ih =>
    unfold written at h
    split at h
    · rw [List.mem_singleton.mp h]
      exact List.mem_cons_self
    · rcases List.mem_cons.mp h with rfl | h
      · exact List.mem_cons_self
      · exact List.mem_cons_of_mem _ (ih h)

theorem written_none {fields : List (String × Value)} {steps : List Step} :
    written none fields steps = steps := by
  induction steps with
  | nil => rfl
  | cons st rest ih => rw [written, cutsAfter, if_neg Bool.false_ne_true, ih]

/-- The value of a structure directly inside the value of a field. -/
inductive Inside (s : Schema) : Op → Value → String → Value → Prop
  | object {type v} : Inside s (.object type) v type v
  | sized {c type v} : Inside s (.sized c type) v type v
  | element {type length items v} (hv : v ∈ items) :
    Inside s (.array (.object type) length) (.list items) type v
  | member {union tag type v} (hr : s.isRecord type = true) :
    Inside s (.union union tag) (.union type v) type v

/-- The second value is the first one or the value of a structure somewhere inside it; a structure
stands with the name of its type. -/
inductive Part (s : Schema) (known : Known) : String → Value → String → Value → Prop
  | refl {type v} : Part s known type v type v
  | step {type fields steps tail st w inner x last y} (hplan : Plan s known type steps tail)
    (hst : st ∈ written tail fields steps) (hw : fields.lookup st.field.name = some w)
    (hx : Inside s st.op w inner x) (h : Part s known inner x last y) :
    Part s known type (.struct fields) last y

/-- What the plans of a normalized registry guarantee when the names of fields are different. -/
structure SoundPlan (s : Schema) (steps : List Step) (tail : Option (String × Int)) : Prop where
  linked : LinkedSteps steps
  standard : ∀ st ∈ steps, ∀ c, st.op.Uses s c → Standard c
  members : ∀ st ∈ steps, ∀ union tag u, st.op = .union union tag →
    (s.lookup? union).bind TypeEntry.union? = some u →
      ∀ m ∈ u.members, ∀ m' ∈ u.members, m.typeName = m'.typeName → m.selector = m'.selector
  tailUnion : tail.isSome = true → ∀ st ∈ steps, ∀ union tag, st.op ≠ .union union tag
  tailDerived : tail.isSome = true → ∀ st ∈ steps, ∀ c object, st.op ≠ .selector c object true
  tailSelector : ∀ selector null, tail = some (selector, null) → ∀ st ∈ steps,
    st.field.name = selector → (∃ c, st.op = .scalar c) ∨ ∃ type, st.op = .object type

section Lookup

variable {α : Type} {name other : String}

theorem lookup_cons_ne {a : α} {l : List (String × α)} (h : other ≠ name) :
    ((name, a) :: l).lookup other = l.lookup other := by
  rw [List.lookup_cons, beq_false_of_ne h]

theorem lookup_eq_none_of_not_mem {l : List (String × α)} (h : name ∉ l.map (·.1)) :
    l.lookup name = none := by
  rw [List.lookup_eq_none_iff]
  intro p hp
  rw [bne_iff_ne]
  rintro rfl
  exact h (List.mem_map_of_mem hp)

theorem mem_of_lookup_eq_some {a : α} {l : List (String × α)} (h : l.lookup name = some a) :
    (name, a) ∈ l := by
  obtain ⟨l₁, l₂, rfl, -⟩ := List.lookup_eq_some_iff.mp h
  exact List.mem_append_right _ List.mem_cons_self

end Lookup

theorem putField_of_not_mem {name : String} {v : Value} {fields : List (String × Value)}
    (h : name ∉ fields.map (·.1)) : Value.putField name v fields = fields ++ [(name, v)] := by
  induction fields with
  | nil => rfl
  | cons p fields ih =>
    obtain ⟨other, old⟩ := p
    rw [List.map_cons, List.mem_cons, not_or] at h
    rw [Value.putField, beq_false_of_ne (Ne.symm h.1), if_neg Bool.false_ne_true, ih h.2,
      List.cons_append]

/-- Fields with different names are put in one after the other. -/
theorem putFields_of_nodup {fields entries : List (String × Value)}
    (h : ((fields ++ entries).map (·.1)).Nodup) :
    Value.putFields fields entries = fields ++ entries := by
  induction entries generalizing fields with
  | nil => rw [List.append_nil]; rfl
  | cons e entries ih =>
    have hsplit : fields ++ e :: entries = fields ++ [e] ++ entries := by
      rw [List.append_assoc, List.singleton_append]
    have hfresh : e.1 ∉ fields.map (·.1) := by
      rw [List.map_append, List.nodup_append] at h
      exact fun hmem => h.2.2 _ hmem e.1 (by simp) rfl
    rw [hsplit] at h ⊢
    rw [← ih h, Value.putFields, List.foldl_cons, putField_of_not_mem hfresh]
    rfl

section Entry

variable {name other : String} {v : Option Value} {l : List (String × Value)}

theorem lookup_entry_append_self (h : name ∉ l.map (·.1)) :
    (entry name v ++ l).lookup name = v := by
  cases v with
  | none => exact lookup_eq_none_of_not_mem h
  | some w => exact List.lookup_cons_self

theorem lookup_entry_append_ne (h : other ≠ name) :
    (entry name v ++ l).lookup other = l.lookup other := by
  cases v with
  | none => rfl
  | some w => exact lookup_cons_ne h

theorem lookup_entry_self : (entry name v).lookup name = v := by
  cases v with
  | none => rfl
  | some w => exact List.lookup_cons_self

theorem lookup_entry_ne (h : other ≠ name) : (entry name v).lookup other = none := by
  cases v with
  | none => rfl
  | some w => exact lookup_cons_ne h

end Entry

section Reads

variable {s : Schema} {known : Known} {nested : String → Reader → Value → Reader → Prop}

/-- A step notes at most the number of its own field. -/
theorem lookup_of_reads {locals locals' : Locals} {f : Field} {isData : Bool} {op : Op}
    {r r' : Reader} {v : Option Value} {name : String}
    (h : Reads s known nested locals f isData op r v locals' r') (hname : name ≠ f.name) :
    locals'.lookup name = locals.lookup name := by
  cases h with
  | scalar | count | selector => exact lookup_cons_ne hname
  | object | constant | array | sized | union => rfl

/-- The entries of a structure are those of its steps in order. -/
theorem names_of_readsAll {tail : Option (String × Int)} {locals : Locals} {steps : List Step}
    {r r' : Reader} {entries : List (String × Value)}
    (h : ReadsAll s known nested tail locals steps r entries r') :
    (entries.map (·.1)).Sublist (steps.map (·.field.name)) := by
  have names : ∀ name v, ((entry name v).map (·.1)).Sublist [name] := fun name v => by
    cases v with
    | none => exact List.nil_sublist _
    | some w => exact List.Sublist.refl _
  induction h with
  | done => exact List.nil_sublist _
  | @last _ _ step rest _ v =>
    exact (names step.field.name v).trans (List.singleton_sublist.mpr List.mem_cons_self)
  | @more _ _ step rest _ v _ others _ _ _ _ ih =>
    rw [List.map_append, List.map_cons]
    exact (names step.field.name v).append ih

/-- What was read is the value as it was put together. -/
theorem putFields_of_readsAll {tail : Option (String × Int)} {locals : Locals} {steps : List Step}
    {r r' : Reader} {entries : List (String × Value)}
    (h : ReadsAll s known nested tail locals steps r entries r')
    (hnames : (steps.map (·.field.name)).Nodup) : Value.putFields [] entries = entries :=
  putFields_of_nodup ((names_of_readsAll h).nodup hnames)

variable (htakes : ∀ type r v r', nested type r v r' → ∃ taken, Takes taken r r')

include htakes

/-- A step of a structure was read, with the numbers of the steps before it, or the structure ended
before it. -/
theorem readsAll_at {tail : Option (String × Int)} {locals : Locals} {steps : List Step}
    {r r' : Reader} {entries : List (String × Value)} {st : Step}
    (h : ReadsAll s known nested tail locals steps r entries r')
    (hnames : (steps.map (·.field.name)).Nodup) (hst : st ∈ steps) :
    (∃ locals₁ locals₂ v r₁ r₂,
      Reads s known nested locals₁ st.field st.isData st.op r₁ v locals₂ r₂ ∧
        entries.lookup st.field.name = v ∧
        (∀ name, name ∉ steps.map (·.field.name) → locals₁.lookup name = locals.lookup name) ∧
          r₁.left.length ≤ r.left.length) ∨
      (entries.lookup st.field.name = none ∧
        ∃ st' ∈ steps, ∃ ls, endsAfter tail st'.field.name ls = true) := by
  induction h with
  | done => cases hst
  | @last _ _ step rest r v r' hread hend =>
    rw [List.map_cons, List.nodup_cons] at hnames
    rcases List.mem_cons.mp hst with rfl | hst
    · exact .inl ⟨_, _, v, r, r', hread, lookup_entry_self, fun _ _ => rfl, Nat.le_refl _⟩
    · have hne : st.field.name ≠ step.field.name := fun heq =>
        hnames.1 (heq ▸ List.mem_map_of_mem (f := fun st : Step => st.field.name) hst)
      exact .inr ⟨lookup_entry_ne hne, step, List.mem_cons_self, _, hend⟩
  | @more _ locals' step rest r v r' others _ hread hend hrest ih =>
    rw [List.map_cons, List.nodup_cons] at hnames
    rcases List.mem_cons.mp hst with rfl | hst
    · refine .inl ⟨_, _, v, r, r', hread, ?_, fun _ _ => rfl, Nat.le_refl _⟩
      exact lookup_entry_append_self fun hmem => hnames.1 ((names_of_readsAll hrest).subset hmem)
    · have hne : st.field.name ≠ step.field.name := fun heq =>
        hnames.1 (heq ▸ List.mem_map_of_mem (f := fun st : Step => st.field.name) hst)
      rw [lookup_entry_append_ne hne]
      rcases ih hnames.2 hst with
        ⟨locals₁, locals₂, w, r₁, r₂, hread₁, hw, hlocals, hle⟩ | ⟨hnone, st', hst', ls, hend'⟩
      · obtain ⟨taken, ht⟩ := takes_of_reads htakes hread
        refine .inl ⟨locals₁, locals₂, w, r₁, r₂, hread₁, hw, fun name hname => ?_,
          Nat.le_trans hle ht.length_le⟩
        rw [List.map_cons, List.mem_cons, not_or] at hname
        rw [hlocals name hname.2, lookup_of_reads hread hname.1]
      · exact .inr ⟨hnone, st', List.mem_cons_of_mem _ hst', ls, hend'⟩

end Reads

end WireTables.Wire
