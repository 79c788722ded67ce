import WireTables.Proofs.Wire.Structure

/-!
# Where a structure ends

A structure with an absent tail ends after its selector, both for the one who reads it and for the
one who writes it, and `written` tells from the value alone which steps there are. So a step that a
value goes through was read (`readsAll_written`) and is written (`writesAll_written`).
-/

namespace WireTables.Wire

variable {s : Schema} {known : Known} {steps : List Step} {tail : Option (String × Int)}
  {fields : List (String × Value)}

/-- A structure only ends after a number or a structure of its own. -/
theorem endsAfter_inv (hsound : SoundPlan s steps tail) {st : Step} (hst : st ∈ steps)
    {locals : Locals}
    (h : endsAfter tail st.field.name locals = true) :
    ∃ null, tail = some (st.field.name, null) ∧
      ((∃ c, st.op = .scalar c) ∨ ∃ type, st.op = .object type) := by
  unfold endsAfter at h
  split at h
  · next selector null =>
    obtain ⟨hname, -⟩ := Bool.and_eq_true_iff.mp h
    have hname : selector = st.field.name := by simpa using hname
    subst hname
    exact ⟨null, rfl, hsound.tailSelector _ _ rfl st hst rfl⟩
  · cases h

section Reading

variable {reads : String → Reader → Value → Reader → Prop}

/-- A structure ends at a step for its value as it does for the numbers that were read. -/
theorem cutsAfter_eq_endsAfter (hsound : SoundPlan s steps tail)
    (hstruct : ∀ type r v r', reads type r v r' → ∃ fields, v = .struct fields) {st : Step}
    (hst : st ∈ steps)
    {locals locals' : Locals} {r r' : Reader} {v : Option Value}
    (h : Reads s known reads locals st.field st.isData st.op r v locals' r')
    (hv : fields.lookup st.field.name = v) (hfresh : locals.lookup st.field.name = none) :
    cutsAfter tail fields st = endsAfter tail st.field.name locals' := by
  unfold cutsAfter endsAfter
  split
  · next selector null =>
    by_cases hname : selector = st.field.name
    · subst hname
      simp only [beq_self_eq_true, Bool.true_and]
      rw [hv]
      rcases hsound.tailSelector _ _ rfl st hst rfl with ⟨c, hop⟩ | ⟨type, hop⟩
      · rw [hop] at h
        cases h with
        | scalar _ hn => rw [List.lookup_cons_self, Option.bind_some, hn]
      · rw [hop] at h
        cases h with
        | object h =>
          obtain ⟨fields', rfl⟩ := hstruct _ _ _ _ h
          rw [hfresh]
          rfl
    · simp only [beq_false_of_ne hname, Bool.false_and]
  · rfl

/-- Every step that the value goes through was read. -/
theorem readsAll_written (hsound : SoundPlan s steps tail)
    (hstruct : ∀ type r v r', reads type r v r' → ∃ fields, v = .struct fields)
    {rest : List Step} {locals : Locals} {r r' : Reader} {entries : List (String × Value)}
    (h : ReadsAll s known reads tail locals rest r entries r')
    (hrest : ∀ st ∈ rest, st ∈ steps) (hnames : (rest.map (·.field.name)).Nodup)
    (hentries : ∀ st ∈ rest, fields.lookup st.field.name = entries.lookup st.field.name)
    (hfresh : ∀ st ∈ rest, locals.lookup st.field.name = none) {st : Step}
    (hst : st ∈ written tail fields rest) :
    ∃ locals₁ locals₂ v r₁ r₂,
      Reads s known reads locals₁ st.field st.isData st.op r₁ v locals₂ r₂ ∧
        fields.lookup st.field.name = v := by
  induction h with
  | done => cases hst
  | @last locals locals' first rest r v r' hread hend =>
    have hv : fields.lookup first.field.name = v := by
      rw [hentries first List.mem_cons_self, lookup_entry_self]
    have hcut : cutsAfter tail fields first = true := by
      rw [cutsAfter_eq_endsAfter hsound hstruct (hrest _ List.mem_cons_self) hread hv
        (hfresh _ List.mem_cons_self), hend]
    unfold written at hst
    rw [if_pos hcut, List.mem_singleton] at hst
    subst hst
    exact ⟨_, _, _, _, _, hread, hv⟩
  | @more locals locals' first rest r v r₁ others r' hread hend hmore ih =>
    rw [List.map_cons, List.nodup_cons] at hnames
    have hne : ∀ st' ∈ rest, st'.field.name ≠ first.field.name := fun st' hst' heq =>
      hnames.1 (heq ▸ List.mem_map_of_mem (f := fun st : Step => st.field.name) hst')
    have hv : fields.lookup first.field.name = v := by
      rw [hentries first List.mem_cons_self]
      exact lookup_entry_append_self fun hmem => hnames.1 ((names_of_readsAll hmore).subset hmem)
    have hcut : cutsAfter tail fields first = false := by
      rw [cutsAfter_eq_endsAfter hsound hstruct (hrest _ List.mem_cons_self) hread hv
        (hfresh _ List.mem_cons_self), hend]
    unfold written at hst
    rw [if_neg (by rw [hcut]; exact Bool.false_ne_true)] at hst
    rcases List.mem_cons.mp hst with rfl | hst
    · exact ⟨_, _, _, _, _, hread, hv⟩
    · refine ih (fun st' hst' => hrest st' (List.mem_cons_of_mem _ hst')) hnames.2
        (fun st' hst' => ?_) (fun st' hst' => ?_) hst
      · rw [hentries st' (List.mem_cons_of_mem _ hst'), lookup_entry_append_ne (hne st' hst')]
      · rw [lookup_of_reads hread (hne st' hst'), hfresh st' (List.mem_cons_of_mem _ hst')]

end Reading

section Writing

variable {writes : String → Value → List UInt8 → Prop}

/-- A step notes at most the number of its own field. -/
theorem lookup_of_writes {enc enc' : Locals} {f : Field} {op : Op} {bytes : List UInt8}
    {name : String} (h : Writes s known writes steps fields enc f op bytes enc')
    (hname : name ≠ f.name) : enc'.lookup name = enc.lookup name := by
  cases h with
  | scalar | count | given | derived => exact lookup_cons_ne hname
  | object | constant | array | sized | absent | held => rfl

/-- A structure ends at a step for its value as it does for the numbers that are written. -/
theorem cutsAfter_eq_endsAfter_of_writes (hsound : SoundPlan s steps tail)
    (hstruct : ∀ type v bytes, writes type v bytes → ∃ fields, v = .struct fields) {st : Step}
    (hst : st ∈ steps) {enc enc' : Locals} {bytes : List UInt8}
    (h : Writes s known writes steps fields enc st.field st.op bytes enc')
    (hfresh : enc.lookup st.field.name = none) :
    cutsAfter tail fields st = endsAfter tail st.field.name enc' := by
  unfold cutsAfter endsAfter
  split
  · next selector null =>
    by_cases hname : selector = st.field.name
    · subst hname
      simp only [beq_self_eq_true, Bool.true_and]
      rcases hsound.tailSelector _ _ rfl st hst rfl with ⟨c, hop⟩ | ⟨type, hop⟩
      · rw [hop] at h
        cases h with
        | scalar hv hn => rw [hv, List.lookup_cons_self, Option.bind_some, hn]
      · rw [hop] at h
        cases h with
        | object hv h =>
          obtain ⟨fields', rfl⟩ := hstruct _ _ _ h
          rw [hv, hfresh]
          rfl
    · simp only [beq_false_of_ne hname, Bool.false_and]
  · rfl

/-- Every step that the value goes through is written. -/
theorem writesAll_written (hsound : SoundPlan s steps tail)
    (hstruct : ∀ type v bytes, writes type v bytes → ∃ fields, v = .struct fields)
    {rest : List Step} {enc : Locals} {bytes : List UInt8}
    (h : WritesAll s known writes steps tail fields enc rest bytes)
    (hrest : ∀ st ∈ rest, st ∈ steps) (hnames : (rest.map (·.field.name)).Nodup)
    (hfresh : ∀ st ∈ rest, enc.lookup st.field.name = none) {st : Step}
    (hst : st ∈ written tail fields rest) :
    ∃ enc₁ enc₂ out, Writes s known writes steps fields enc₁ st.field st.op out enc₂ := by
  induction h with
  | done => cases hst
  | @last enc enc' first rest _ hw hend =>
    have hcut : cutsAfter tail fields first = true := by
      rw [cutsAfter_eq_endsAfter_of_writes hsound hstruct (hrest _ List.mem_cons_self) hw
        (hfresh _ List.mem_cons_self), hend]
    unfold written at hst
    rw [if_pos hcut, List.mem_singleton] at hst
    subst hst
    exact ⟨_, _, _, hw⟩
  | @more enc enc' first rest _ _ hw hend hmore ih =>
    rw [List.map_cons, List.nodup_cons] at hnames
    have hne : ∀ st' ∈ rest, st'.field.name ≠ first.field.name := fun st' hst' heq =>
      hnames.1 (heq ▸ List.mem_map_of_mem (f := fun st : Step => st.field.name) hst')
    have hcut : cutsAfter tail fields first = false := by
      rw [cutsAfter_eq_endsAfter_of_writes hsound hstruct (hrest _ List.mem_cons_self) hw
        (hfresh _ List.mem_cons_self), hend]
    unfold written at hst
    rw [if_neg (by rw [hcut]; exact Bool.false_ne_true)] at hst
    rcases List.mem_cons.mp hst with rfl | hst
    · exact ⟨_, _, _, hw⟩
    · refine ih (fun st' hst' => hrest st' (List.mem_cons_of_mem _ hst')) hnames.2
        (fun st' hst' => ?_) hst
      rw [lookup_of_writes hw (hne st' hst'), hfresh st' (List.mem_cons_of_mem _ hst')]

end Writing

section Levels

variable (h : s.Remembers (· = known)) {levels : Nat} {type : String}

include h

theorem struct_of_decodes {r r' : Reader} {v : Value}
    (hread : Decodes s known levels type r v r') : ∃ fields, v = .struct fields := by
  cases levels with
  | zero => exact (not_yields_throw hread.2).elim
  | succ levels =>
    obtain ⟨-, steps, tail, entries, -, -, rfl⟩ := (decodes_succ h).mp hread
    exact ⟨_, rfl⟩

theorem struct_of_encodes {v : Value} {bytes : List UInt8}
    (hw : Encodes s known levels type v bytes) : ∃ fields, v = .struct fields := by
  cases levels with
  | zero => exact (not_yields_throw hw).elim
  | succ levels =>
    obtain ⟨fields, steps, tail, rfl, -⟩ := (encodes_succ h).mp hw
    exact ⟨fields, rfl⟩

theorem reads_written {r r' : Reader} (hread : Decodes s known levels type r (.struct fields) r')
    (hplan : Plan s known type steps tail) (hsound : SoundPlan s steps tail) :
    ∃ inner, ∀ st ∈ written tail fields steps, ∃ locals₁ locals₂ v r₁ r₂,
      Reads s known (Decodes s known inner) locals₁ st.field st.isData st.op r₁ v locals₂ r₂ ∧
        fields.lookup st.field.name = v := by
  cases levels with
  | zero => exact (not_yields_throw hread.2).elim
  | succ levels =>
    obtain ⟨-, steps', tail', entries, hplan', hall, hfields⟩ := (decodes_succ h).mp hread
    obtain ⟨rfl, rfl⟩ := hplan.unique hplan'
    rw [putFields_of_readsAll hall hsound.linked.names, Value.struct.injEq] at hfields
    subst hfields
    exact ⟨levels, fun st hst => readsAll_written hsound (fun _ _ _ _ => struct_of_decodes h) hall
      (fun _ hst => hst) hsound.linked.names (fun _ _ => rfl) (fun _ _ => rfl) hst⟩

theorem writes_written {bytes : List UInt8}
    (hwrite : Encodes s known levels type (.struct fields) bytes)
    (hplan : Plan s known type steps tail) (hsound : SoundPlan s steps tail) :
    ∃ inner, ∀ st ∈ written tail fields steps, ∃ enc₁ enc₂ out,
      Writes s known (Encodes s known inner) steps fields enc₁ st.field st.op out enc₂ := by
  cases levels with
  | zero => exact (not_yields_throw hwrite).elim
  | succ levels =>
    obtain ⟨fields', steps', tail', hfields, hplan', hall⟩ := (encodes_succ h).mp hwrite
    obtain ⟨rfl, rfl⟩ := hplan.unique hplan'
    cases hfields
    exact ⟨levels, fun st hst => writesAll_written hsound (fun _ _ _ => struct_of_encodes h) hall
      (fun _ hst => hst) hsound.linked.names (fun _ _ => rfl) hst⟩

end Levels

end WireTables.Wire
