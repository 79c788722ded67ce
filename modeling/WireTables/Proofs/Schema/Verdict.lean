import WireTables.Proofs.Schema.Check
import WireTables.Proofs.Schema.Resolve

/-!
# What the checks decide

The checks look at each tag and at each tagged field on its own, remember the last selector under
which a type was seen in a union, and the first one under which it was seen in any union. What they
decide is said of all fields, members and unions at once: tags and what they describe name each
other, and one type has one selector (`Schema.Consistent`). A schema has no finding that is an error
exactly if it is consistent (`harmless_findings_iff`). An enumeration without constants is found as
well, but it is no error.
-/

namespace WireTables

theorem harmless_append {l l' : List Finding} :
    Harmless (l ++ l') ↔ Harmless l ∧ Harmless l' :=
  ⟨Harmless.of_append, fun ⟨h, h'⟩ f hf => (List.mem_append.mp hf).elim (h f) (h' f)⟩

theorem harmless_nil : Harmless [] :=
  fun _ h => (List.not_mem_nil h).elim

namespace Record

/-- One field points back at a tag and no other; it is of the kind that the tag describes, and the
tag names it. -/
def Describes (r : Record) (tag : Field) (kind : Marshal) : Prop :=
  r.fields.countP (·.partner == some tag.name) = 1 ∧
    ∃ p ∈ r.fields, p.partner = some tag.name ∧ p.marshal = kind ∧ tag.partner = some p.name

/-- A field names another, and the first one of that name is of the kind. -/
def Names (r : Record) (f : Field) (kind : Marshal) : Prop :=
  ∃ name g, f.partner = some name ∧ r.field? name = some g ∧ g.marshal = kind

/-- Tags describe what names them, and what needs a tag names one. -/
structure Consistent (r : Record) : Prop where
  counts : ∀ f ∈ r.fields, f.marshal = .count → r.Describes f .countedArray
  sizes : ∀ f ∈ r.fields, f.marshal = .bodySize → r.Describes f .sizedBody
  arrays : ∀ f ∈ r.fields, f.marshal = .countedArray → r.Names f .count
  bodies : ∀ f ∈ r.fields, f.marshal = .sizedBody → r.Names f .bodySize
  choices : ∀ f ∈ r.fields, f.marshal = .unionBody ∨ f.marshal = .selectedArray →
    r.Names f .selector

end Record

namespace Schema

/-- Two names stand for one type: they are the same, or they denote the same structure. -/
def SameType (s : Schema) (name name' : String) : Prop :=
  name = name' ∨ ∃ x, s.recordOf? name = some x ∧ s.recordOf? name' = some x

/-- A union that is put out has the member. -/
def HasMember (s : Schema) (m : UnionMember) : Prop :=
  ∃ t ∈ s.implemented, ∃ u, t.union? = some u ∧ m ∈ u.members

/-- The structures that are put out are consistent, no union that is put out has one type under two
selectors, and no structure has two selectors under its name in all of these unions. -/
structure Consistent (s : Schema) : Prop where
  records : ∀ t ∈ s.implemented, ∀ r, t.record? = some r → r.Consistent
  members : ∀ t ∈ s.implemented, ∀ u, t.union? = some u → ∀ m ∈ u.members, ∀ m' ∈ u.members,
    s.SameType m.typeName m'.typeName → m.selector = m'.selector
  unions : ∀ m m', s.HasMember m → s.HasMember m' → s.isRecord m.typeName = true →
    m.typeName = m'.typeName → m.selector = m'.selector

section Record

variable {r : Record} {f : Field} {kind : Marshal}

theorem partnerMarshal?_eq_some :
    partnerMarshal? r f = some kind ↔ r.Names f kind := by
  constructor
  · intro h
    obtain ⟨name, hname, h⟩ := Option.bind_eq_some_iff.mp h
    obtain ⟨g, hg, h⟩ := Option.bind_eq_some_iff.mp h
    exact ⟨name, g, hname, hg, Option.some.inj h⟩
  · rintro ⟨name, g, hname, hg, rfl⟩
    unfold partnerMarshal?
    rw [hname]
    show (r.field? name >>= fun partner => some partner.marshal) = some g.marshal
    rw [hg]
    rfl

/-- Exactly one element of a list is picked. -/
theorem filter_eq_singleton {α : Type} {p : α → Bool} {xs : List α} {x : α}
    (hone : xs.countP p = 1) (hx : x ∈ xs) (hp : p x = true) : xs.filter p = [x] := by
  rw [List.countP_eq_length_filter] at hone
  obtain ⟨y, hy⟩ := List.length_eq_one_iff.mp hone
  have hmem : x ∈ xs.filter p := List.mem_filter.mpr ⟨hx, hp⟩
  rw [hy] at hmem ⊢
  rw [List.mem_singleton.mp hmem]

/-- What the tags find nothing wrong with, they describe. -/
theorem describes_iff : r.Describes f kind ↔
    ∃ p, r.fields.filter (·.partner == some f.name) = [p] ∧
      p.marshal = kind ∧ f.partner = some p.name := by
  constructor
  · rintro ⟨hone, p, hp, hback, hkind, hname⟩
    exact ⟨p, filter_eq_singleton hone hp (beq_iff_eq.mpr hback), hkind, hname⟩
  · rintro ⟨p, hp, hkind, hname⟩
    have hmem : p ∈ r.fields.filter (·.partner == some f.name) := hp ▸ List.mem_singleton_self p
    obtain ⟨hpr, hback⟩ := List.mem_filter.mp hmem
    refine ⟨?_, p, hpr, beq_iff_eq.mp hback, hkind, hname⟩
    rw [List.countP_eq_length_filter, hp]
    rfl

/-- A look at the fields that name a tag finds nothing wrong exactly if the tag describes one. -/
theorem counterpart_findings_eq_nil :
    (match r.fields.filter (·.partner == some f.name) with
      | [p] => if p.marshal == kind && f.partner == some p.name then []
          else [FindingCause.wrongCounterpart p.name p.marshal kind]
      | partners => [.counterpartCount partners.length kind]) = [] ↔ r.Describes f kind := by
  rw [describes_iff]
  split
  · next p hp => simp [hp]
  · next hnot =>
    simp only [reduceCtorEq, false_iff, not_exists, not_and]
    intro p hp
    exact (hnot p hp).elim

theorem tagFindings_eq_nil : tagFindings r f = [] ↔
    (f.marshal = .count → r.Describes f .countedArray) ∧
      (f.marshal = .bodySize → r.Describes f .sizedBody) := by
  unfold tagFindings
  dsimp only
  split
  · next hm =>
    rw [hm]
    exact counterpart_findings_eq_nil.trans (by simp)
  · next hm =>
    rw [hm]
    exact counterpart_findings_eq_nil.trans (by simp)
  · next hcount hsize =>
    exact iff_of_true rfl ⟨fun h => (hcount h).elim, fun h => (hsize h).elim⟩

/-- A look at one partner finds nothing wrong exactly if that is what the field names. -/
theorem partner_findings_eq_nil {cause : FindingCause} :
    (if partnerMarshal? r f == some kind then [] else [cause]) = [] ↔ r.Names f kind := by
  rw [← partnerMarshal?_eq_some]
  by_cases h : partnerMarshal? r f = some kind <;> simp [h]

theorem taggedFindings_eq_nil : taggedFindings r f = [] ↔
    (f.marshal = .countedArray → r.Names f .count) ∧
      (f.marshal = .sizedBody → r.Names f .bodySize) := by
  unfold taggedFindings
  dsimp only
  split
  · next hm =>
    rw [hm]
    exact partner_findings_eq_nil.trans (by simp)
  · next hm =>
    rw [hm]
    exact partner_findings_eq_nil.trans (by simp)
  · next harray hbody =>
    exact iff_of_true rfl ⟨fun h => (harray h).elim, fun h => (hbody h).elim⟩

theorem selectorFindings_eq_nil : selectorFindings r f = [] ↔
    (f.marshal = .unionBody ∨ f.marshal = .selectedArray → r.Names f .selector) := by
  unfold selectorFindings
  split
  · next hm =>
    rw [hm]
    exact partner_findings_eq_nil.trans (by simp)
  · next hm =>
    rw [hm]
    exact partner_findings_eq_nil.trans (by simp)
  · next hbody harray =>
    exact iff_of_true rfl fun h => (h.elim hbody harray).elim

theorem clean_iff : Clean r f ↔
    ((f.marshal = .count → r.Describes f .countedArray) ∧
        (f.marshal = .bodySize → r.Describes f .sizedBody)) ∧
      ((f.marshal = .countedArray → r.Names f .count) ∧
        (f.marshal = .sizedBody → r.Names f .bodySize)) ∧
      (f.marshal = .unionBody ∨ f.marshal = .selectedArray → r.Names f .selector) := by
  rw [← tagFindings_eq_nil, ← taggedFindings_eq_nil, ← selectorFindings_eq_nil]
  exact ⟨fun h => ⟨h.tag, h.tagged, h.selector⟩, fun ⟨htag, htagged, hsel⟩ => ⟨htag, htagged, hsel⟩⟩

/-- What is checked field by field is that the structure is consistent. -/
theorem harmless_recordFindings_iff {name : String} :
    Harmless (recordFindings name r) ↔ r.Consistent := by
  constructor
  · intro h
    have clean : ∀ f ∈ r.fields, Clean r f := fun f hf => clean_of_recordFindings h hf
    exact {
      counts := fun f hf => (clean_iff.mp (clean f hf)).1.1
      sizes := fun f hf => (clean_iff.mp (clean f hf)).1.2
      arrays := fun f hf => (clean_iff.mp (clean f hf)).2.1.1
      bodies := fun f hf => (clean_iff.mp (clean f hf)).2.1.2
      choices := fun f hf => (clean_iff.mp (clean f hf)).2.2 }
  · intro h finding hfinding
    obtain ⟨f, hf, hcause⟩ := List.mem_flatMap.mp hfinding
    have clean : Clean r f := clean_iff.mpr
      ⟨⟨h.counts f hf, h.sizes f hf⟩, ⟨h.arrays f hf, h.bodies f hf⟩, h.choices f hf⟩
    rw [clean.tag, clean.tagged, clean.selector] at hcause
    cases hcause

end Record

section Denotation

variable {s : Schema} {name name' : String} {t : TypeEntry} {r : Record}

theorem concreteName_of_recordOf? (h : s.recordOf? name = some (t, r)) :
    s.concreteName name = t.specName := by
  unfold concreteName
  rw [h]

theorem concreteName_of_none (h : s.recordOf? name = none) : s.concreteName name = name := by
  unfold concreteName
  rw [h]

/-- The names under which the checks compare types are equal exactly for names of one type. -/
theorem concreteName_eq_iff : s.concreteName name = s.concreteName name' ↔
    s.SameType name name' := by
  constructor
  · intro h
    cases hx : s.recordOf? name with
    | none =>
      rw [concreteName_of_none hx] at h
      cases hy : s.recordOf? name' with
      | none => exact .inl (h.trans (concreteName_of_none hy))
      | some y =>
        rw [concreteName_of_recordOf? hy] at h
        cases hx.symm.trans (h ▸ recordOf?_specName hy)
    | some x =>
      rw [concreteName_of_recordOf? hx] at h
      have hname := recordOf?_specName hx
      cases hy : s.recordOf? name' with
      | none =>
        rw [concreteName_of_none hy] at h
        cases hy.symm.trans (h ▸ hname)
      | some y =>
        rw [concreteName_of_recordOf? hy] at h
        rw [h, recordOf?_specName hy] at hname
        exact .inr ⟨x, hx, hy.trans hname⟩
  · rintro (rfl | ⟨x, hx, hy⟩)
    · rfl
    · rw [concreteName_of_recordOf? hx, concreteName_of_recordOf? hy]

end Denotation

section Union

variable {s : Schema} {union : String} {P : UnionMember → Prop}

/-- What has been seen of the type of a member, a structure, agrees with the member. -/
def Agrees (s : Schema) (selected : Selected) (m : UnionMember) : Prop :=
  s.isRecord m.typeName = true → ∀ selector other,
    selected.lookup m.typeName = some (selector, other) → selector = m.selector

/-- What is remembered of a member agrees with another one of its type if they have one selector. -/
theorem Agrees.cons {selected : Selected} {first m : UnionMember} (h : s.Agrees selected m)
    (hsame : first.typeName = m.typeName → first.selector = m.selector) :
    s.Agrees ((first.typeName, first.selector, union) :: selected) m := by
  intro hr selector other hlookup
  by_cases hname : first.typeName = m.typeName
  · rw [hname, List.lookup_cons_self] at hlookup
    cases hlookup
    exact hsame hname
  · rw [List.lookup_cons, beq_eq_false_iff_ne.mpr (Ne.symm hname)] at hlookup
    exact h hr selector other hlookup

/-- A type that was seen under the same selector is no error. -/
theorem harmless_twice {concrete selector : String} {seen : List (String × String)}
    (union member : String)
    (h : ∀ other, seen.lookup concrete = some other → other = selector) :
    Harmless (match seen.lookup concrete with
      | some other =>
        if other == selector then [] else [⟨union, some member, .typeUsedTwice concrete other⟩]
      | none => []) := by
  split
  · next other hother =>
    rw [h other hother, beq_self_eq_true, if_pos rfl]
    exact harmless_nil
  · exact harmless_nil

/-- Nothing is found among members that agree with each other and with what was seen before them,
and after them all is as it was. -/
theorem harmless_memberFindings {members : List UnionMember} {seen : List (String × String)}
    {selected : Selected} (hP : ∀ m ∈ members, P m)
    (hunions : ∀ m m', P m → P m' → s.isRecord m.typeName = true →
      m.typeName = m'.typeName → m.selector = m'.selector)
    (hmembers : ∀ m ∈ members, ∀ m' ∈ members,
      s.concreteName m.typeName = s.concreteName m'.typeName → m.selector = m'.selector)
    (hseen : ∀ m ∈ members, ∀ selector,
      seen.lookup (s.concreteName m.typeName) = some selector → selector = m.selector)
    (hselected : ∀ m, P m → s.Agrees selected m) :
    Harmless (s.memberFindings union seen selected members).1 ∧
      ∀ m, P m → s.Agrees (s.memberFindings union seen selected members).2 m := by
  induction members generalizing seen selected with
  | nil => exact ⟨harmless_nil, hselected⟩
  | cons first rest ih =>
    have hfirst := hP first List.mem_cons_self
    have hseen' : ∀ m ∈ rest, ∀ selector,
        ((s.concreteName first.typeName, first.selector) :: seen).lookup
          (s.concreteName m.typeName) = some selector → selector = m.selector := by
      intro m hm selector hlookup
      rw [List.lookup_cons] at hlookup
      split at hlookup
      · next hsame =>
        cases hlookup
        exact hmembers first List.mem_cons_self m (List.mem_cons_of_mem _ hm)
          (beq_iff_eq.mp hsame).symm
      · exact hseen m (List.mem_cons_of_mem _ hm) selector hlookup
    have ih := fun selected' (hselected' : ∀ m, P m → s.Agrees selected' m) =>
      ih (fun m hm => hP m (List.mem_cons_of_mem _ hm))
        (fun m hm m' hm' => hmembers m (List.mem_cons_of_mem _ hm) m' (List.mem_cons_of_mem _ hm'))
        hseen' hselected'
    -- the same member in the union does not contradict, and what was seen elsewhere does not either
    have htwice := harmless_twice union first.name (hseen first List.mem_cons_self)
    unfold memberFindings
    dsimp only
    by_cases hr : s.isRecord first.typeName = true
    · simp only [hr, if_true]
      rcases hfound : selected.lookup first.typeName with _ | ⟨selector, other⟩
      · have hselected' : ∀ m, P m →
            s.Agrees ((first.typeName, first.selector, union) :: selected) m := fun m hm =>
          (hselected m hm).cons (hunions first m hfirst hm hr)
        obtain ⟨hrest, hafter⟩ := ih _ hselected'
        exact ⟨harmless_append.mpr ⟨harmless_append.mpr ⟨htwice, harmless_nil⟩, hrest⟩, hafter⟩
      · simp only [hselected first hfirst hr selector other hfound, beq_self_eq_true, if_true]
        obtain ⟨hrest, hafter⟩ := ih selected hselected
        exact ⟨harmless_append.mpr ⟨harmless_append.mpr ⟨htwice, harmless_nil⟩, hrest⟩, hafter⟩
    · simp only [Bool.not_eq_true] at hr
      simp only [hr, Bool.false_eq_true, if_false]
      obtain ⟨hrest, hafter⟩ := ih selected hselected
      exact ⟨harmless_append.mpr ⟨harmless_append.mpr ⟨htwice, harmless_nil⟩, hrest⟩, hafter⟩

/-- Nothing that is an error is found in types that agree. -/
theorem harmless_typeFindings {types : List TypeEntry} {selected : Selected}
    (hunions : ∀ m m', P m → P m' → s.isRecord m.typeName = true →
      m.typeName = m'.typeName → m.selector = m'.selector)
    (hrecords : ∀ t ∈ types, ∀ r, t.record? = some r → r.Consistent)
    (hP : ∀ t ∈ types, ∀ u, t.union? = some u → ∀ m ∈ u.members, P m)
    (hmembers : ∀ t ∈ types, ∀ u, t.union? = some u → ∀ m ∈ u.members, ∀ m' ∈ u.members,
      s.SameType m.typeName m'.typeName → m.selector = m'.selector)
    (hselected : ∀ m, P m → s.Agrees selected m) : Harmless (s.typeFindings selected types) := by
  induction types generalizing selected with
  | nil => exact harmless_nil
  | cons first rest ih =>
    have ih := fun selected' (hselected' : ∀ m, P m → s.Agrees selected' m) =>
      ih (fun t ht => hrecords t (List.mem_cons_of_mem _ ht))
        (fun t ht => hP t (List.mem_cons_of_mem _ ht))
        (fun t ht => hmembers t (List.mem_cons_of_mem _ ht)) hselected'
    have hrecord := hrecords first List.mem_cons_self
    have hunion := hP first List.mem_cons_self
    have hmember := hmembers first List.mem_cons_self
    obtain ⟨id, specName, name, comment, implemented, kind⟩ := first
    cases kind with
    | record r =>
      exact harmless_append.mpr ⟨harmless_recordFindings_iff.mpr (hrecord r rfl), ih _ hselected⟩
    | union u =>
      obtain ⟨hfound, hafter⟩ : Harmless (s.memberFindings specName [] selected u.members).1 ∧
          ∀ m, P m → s.Agrees (s.memberFindings specName [] selected u.members).2 m :=
        harmless_memberFindings (hunion u rfl) hunions
          (fun m hm m' hm' h => hmember u rfl m hm m' hm' (concreteName_eq_iff.mp h))
          (fun _ _ _ h => by cases h) hselected
      exact harmless_append.mpr ⟨hfound, ih _ hafter⟩
    | enum e =>
      refine harmless_append.mpr ⟨?_, ih _ hselected⟩
      -- no constants is a warning
      split
      · intro finding hfinding
        rw [List.mem_singleton.mp hfinding]
        rfl
      · exact harmless_nil
    | value c => exact ih _ hselected
    | aliasOf a => exact ih _ hselected
    | bitfield b => exact ih _ hselected

end Union

/-- No finding is an error exactly if the schema is consistent. -/
theorem harmless_findings_iff {s : Schema} : Harmless s.findings ↔ s.Consistent := by
  constructor
  · intro h
    refine ⟨fun t ht r hr => ?_, fun t ht u hu m hm m' hm' hsame => ?_, ?_⟩
    · exact harmless_recordFindings_iff.mp ((harmless_of_mem h ht).1 r hr)
    · obtain ⟨selected, hmembers⟩ := (harmless_of_mem h ht).2 u hu
      exact selector_of_memberFindings hmembers m hm m' hm' (concreteName_eq_iff.mpr hsame)
    · rintro m m' ⟨t, ht, u, hu, hm⟩ ⟨t', ht', u', hu', hm'⟩ hr hname
      exact selector_of_members h ht ht' hu hu' hm hm' hname hr
  · intro h
    exact harmless_typeFindings (P := s.HasMember) h.unions h.records
      (fun t ht u hu m hm => ⟨t, ht, u, hu, hm⟩) h.members (fun _ _ _ _ _ hlookup => by cases hlookup)

end Schema
end WireTables
