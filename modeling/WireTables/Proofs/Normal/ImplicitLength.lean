import WireTables.Proofs.Normal.Wrapper

/-!
# Lengths that are implied

An array that takes the rest of its region loses its count, and what the count stood for is gone for
good: fields stay `Ordered` but for tags that are not there any more. Sizes noted for commands leave
fields alone, and looking them up finds no value that was not known.
-/

namespace WireTables

theorem Arranged.ordered {fields : List Field} (h : Arranged fields) : Ordered fields :=
  ⟨⟨[], h.tags, fun _ _ => List.not_mem_nil⟩, h.selectors⟩

theorem ordered_nil : Ordered [] :=
  Extraction.arranged_nil.ordered

section Filter

variable {fields : List Field} {name : String}

theorem count_filter {other : String} (hne : other ≠ name) :
    ((fields.filter (·.name != name)).map (·.name)).count other =
      (fields.map (·.name)).count other := by
  induction fields with
  | nil => rfl
  | cons f rest ih =>
    by_cases hf : f.name = name
    · rw [List.filter_cons_of_neg (by simp [hf]), List.map_cons, List.count_cons_of_ne, ih]
      exact fun h => hne (h.symm.trans hf)
    · rw [List.filter_cons_of_pos (by simpa using hf), List.map_cons, List.map_cons,
        List.count_cons, List.count_cons, ih]

theorem once_filter {other : String} (hne : other ≠ name) :
    Once (fields.filter (·.name != name)) other ↔ Once fields other := by
  unfold Once
  rw [count_filter hne]

/-- Without the fields of a name, tags of that name are gone. -/
theorem TagsFirst.filter {gone seen seen' : List String} (h : TagsFirst gone seen fields)
    (hseen : ∀ other ∈ seen, other ≠ name → other ∈ seen') :
    TagsFirst (name :: gone) seen' (fields.filter (·.name != name)) := by
  induction fields generalizing seen seen' with
  | nil => exact trivial
  | cons f rest ih =>
    by_cases hf : f.name = name
    · rw [List.filter_cons_of_neg (by simp [hf])]
      refine ih h.2 fun other hmem hne => ?_
      rcases List.mem_cons.mp hmem with rfl | hmem
      · exact (hne hf).elim
      · exact hseen other hmem hne
    · rw [List.filter_cons_of_pos (by simpa using hf)]
      refine ⟨fun tag htag hgone => ?_, ih h.2 fun other hmem hne => ?_⟩
      · rw [List.mem_cons, not_or] at hgone
        exact hseen tag (h.1 tag htag hgone.2) hgone.1
      · rcases List.mem_cons.mp hmem with rfl | hmem
        · exact List.mem_cons_self
        · exact List.mem_cons_of_mem _ (hseen other hmem hne)

theorem Ordered.filter (h : Ordered fields) : Ordered (fields.filter (·.name != name)) := by
  obtain ⟨gone, htags, hgone⟩ := h.tags
  have kept : ∀ f ∈ fields.filter (·.name != name), f ∈ fields ∧ f.name ≠ name := by
    intro f hf
    simpa using hf
  refine ⟨⟨name :: gone, htags.filter fun _ hm _ => hm, fun f hf hmem => ?_⟩, ?_⟩
  · obtain ⟨hf, hne⟩ := kept f hf
    rcases List.mem_cons.mp hmem with heq | hmem
    · exact hne heq
    · exact hgone f hf hmem
  · intro f hf u hu hfo huo hm hp hum
    obtain ⟨hf, hfn⟩ := kept f hf
    obtain ⟨hu, hun⟩ := kept u hu
    exact h.selectors f hf u hu ((once_filter hfn).mp hfo) ((once_filter hun).mp huo) hm hp hum

end Filter

section Imply

variable {fields : List Field} {field element : String} {count : Option String} {domain : Domain}

theorem ordered_implyLength (h : Ordered fields) :
    Ordered (Schema.implyLength field count element domain fields) := by
  have change : ∀ {l : List Field}, Ordered l → Ordered (Extraction.changeFirst field
      (fun f => { f with marshal := .restArray, typeName := element, domain, partner := none })
      l) :=
    fun hl => hl.demoted (forall₂_changeFirst Demoted.refl fun _ => ⟨rfl, .inr ⟨nofun, nofun⟩⟩)
      (forall₂_changeFirst TagKept.refl fun _ => ⟨rfl, .inl rfl⟩)
  cases count with
  | none =>
    have := change h
    rw [← modify_findIdx?] at this
    exact this
  | some count =>
    have hfilter : Ordered (fields.filter (·.name != count)) := h.filter
    have := change hfilter
    rw [← modify_findIdx?] at this
    exact this

/-- A field was there before, or takes the rest of its region. -/
theorem mem_implyLength {f : Field} (h : f ∈ Schema.implyLength field count element domain fields) :
    f ∈ fields ∨ f.marshal = .restArray := by
  have changed : ∀ {l : List Field}, f ∈ Extraction.changeFirst field (fun f =>
      { f with marshal := .restArray, typeName := element, domain, partner := none }) l →
        f ∈ l ∨ f.marshal = .restArray := by
    intro l hf
    rcases mem_changeFirst hf with hf | ⟨g, -, -, rfl⟩
    · exact .inl hf
    · exact .inr rfl
  cases count with
  | none =>
    refine changed ?_
    rw [← modify_findIdx?]
    exact h
  | some count =>
    have h : f ∈ fields.filter (·.name != count) ∨ f.marshal = .restArray := by
      refine changed ?_
      rw [← modify_findIdx?]
      exact h
    exact h.imp_left fun hf => (List.mem_filter.mp hf).1

theorem implyLength_nil : Schema.implyLength field count element domain [] = [] := by
  cases count <;> rfl

end Imply

/-- A structure without a base and without an absent tail. -/
structure Record.Flat (r : Record) : Prop where
  fields : Ordered r.fields
  base : r.base = none
  tail : r.nullTail = none

/-- A registry of such structures. -/
def Registry.Flat (r : Registry) : Prop :=
  r.Sound Record.Flat (· = true)

theorem Registry.Raw.flat {r : Registry} (h : r.Raw) : r.Flat :=
  h.imp (fun _ hr => ⟨hr.fields.ordered, hr.base, hr.tail⟩) fun _ hu => hu

namespace Edit

variable {config : Config} {r r' : Registry} {n : Nat}

/-- A field becomes an array that takes the rest of its region. -/
theorem flat_implyLengthOf {ref : FieldRef} (h : r.Flat) (hy : Yields (implyLengthOf ref) r n r') :
    r'.Flat := by
  unfold implyLengthOf at hy
  obtain ⟨_, _, hs, hy⟩ := yields_bind.mp hy
  obtain ⟨rfl, rfl⟩ := yields_schema.mp hs
  split at hy
  · obtain ⟨-, rfl⟩ := yields_pure.mp hy
    exact h
  · next found hfound =>
    split at hy
    · exact (not_yields_throw hy).elim
    · next f _ =>
      dsimp only at hy
      split at hy
      · obtain ⟨-, rfl⟩ := yields_pure.mp hy
        exact h
      · split at hy
        · exact (not_yields_throw hy).elim
        · obtain ⟨_, _, hupdate, hend⟩ := yields_bind.mp hy
          obtain ⟨-, rfl⟩ := yields_pure.mp hend
          rw [yields_update.mp hupdate]
          refine h.modifyRecord hfound
            (fun hr => ⟨ordered_implyLength hr.fields, hr.base, hr.tail⟩) fun hempty => ?_
          show Schema.implyLength _ _ _ _ found.fields = []
          rw [hempty]
          exact implyLength_nil

theorem flat_implyLengths (h : r.Flat) (hy : Yields (implyLengths config) r n r') : r'.Flat := by
  refine Yields.foldlM hy h fun ref _ count r n r' hr hy => ?_
  obtain ⟨m, r₂, hm, hy⟩ := yields_bind.mp hy
  obtain ⟨-, rfl⟩ := yields_pure.mp hy
  exact flat_implyLengthOf hr hm

end Edit

namespace Schema

variable {s : Schema} {P : Known → Prop}

theorem tagSizes_keeps (h : s.Remembers P) (r : Record) (tag : Field) :
    Keeps P (s.tagSizes r tag) fun _ => True := by
  unfold tagSizes
  split
  · exact Keeps.pure trivial
  · next data _ =>
    refine (wireSize_keeps h _).bind fun _ _ => Keeps.bind (Q := fun _ => True) ?_ fun _ _ =>
      Keeps.pure trivial
    unfold countedSize
    split
    · exact Keeps.pure trivial
    · exact wireSize_keeps h _

theorem sessionPrefix_keeps (h : s.Remembers P) (r : Record) :
    Keeps P (s.sessionPrefix r) fun _ => True := by
  unfold sessionPrefix
  split
  · exact Keeps.pure trivial
  · split
    · exact tagSizes_keeps h _ _
    · exact tagSizes_keeps h _ _
    · split
      · split
        · split
          · exact tagSizes_keeps h _ _
          · exact Keeps.pure trivial
        · exact Keeps.pure trivial
      · exact Keeps.pure trivial
    · exact Keeps.pure trivial

theorem sessionPrefixes_keeps (h : s.Remembers P) : Keeps P s.sessionPrefixes fun _ => True := by
  refine (Keeps.filterMapM (R := fun _ => True) fun x _ => ?_).trivial
  exact (sessionPrefix_keeps h _).bind fun _ _ => Keeps.pure fun _ _ => trivial

end Schema

namespace Edit

variable {r r' : Registry} {n : Nat}

/-- Sizes are noted without finding new values. -/
theorem flat_noteSessionPrefixes (h : r.Flat) (hy : Yields noteSessionPrefixes r n r') :
    r'.Flat := by
  unfold noteSessionPrefixes at hy
  obtain ⟨found, _, hcalculate, hy⟩ := yields_bind.mp hy
  obtain ⟨known, hknown, rfl⟩ := yields_calculate hcalculate
  have hsame : known = r.known := ((Schema.sessionPrefixes_keeps
    (Schema.remembers_complete h.settled.words h.settled.complete)).of_yields rfl hknown).1
  subst hsame
  obtain ⟨_, r₁, hloop, hy⟩ := yields_bind.mp hy
  obtain ⟨-, rfl⟩ := yields_pure.mp hy
  refine hloop.forM h fun x _ r r' hr hy => ?_
  rw [yields_update.mp hy]
  refine hr.change rfl rfl
    (hr.shaped.modifyType (TypeEntry.specName_mapRecord _) fun t _ _ ht => ?_)
  exact ht.mapRecord (fun _ _ hr => ⟨hr.fields, hr.base, hr.tail⟩) fun _ _ hempty => hempty

end Edit

end WireTables
