import Mathlib.Data.List.Basic
import WireTables.Proofs.Schema.Shape
import WireTables.Schema.Check

/-!
# What the checks say

A schema without errors: in every structure that is put out the fields are linked, given that they
are in order and have different names (`linked_of_clean`), and in every union that is put out one
type has one selector (`selector_of_findings`).
-/

namespace WireTables

/-- A list of findings without errors. -/
def Harmless (findings : List Finding) : Prop :=
  ∀ f ∈ findings, f.cause.isError = false

theorem Harmless.of_append {l l' : List Finding} (h : Harmless (l ++ l')) :
    Harmless l ∧ Harmless l' :=
  ⟨fun f hf => h f (List.mem_append_left _ hf), fun f hf => h f (List.mem_append_right _ hf)⟩

namespace Schema

section Record

variable {r : Record} {f : Field}

/-- Nothing is wrong with the links of a field. -/
structure Clean (r : Record) (f : Field) : Prop where
  tag : tagFindings r f = []
  tagged : taggedFindings r f = []
  selector : selectorFindings r f = []

/-- Whatever is wrong with a field is an error. -/
theorem isError_of_mem {cause : FindingCause}
    (h : cause ∈ tagFindings r f ++ taggedFindings r f ++ selectorFindings r f) :
    cause.isError = true := by
  have listed : ∀ {c : Prop} [Decidable c] {x : FindingCause},
      cause ∈ (if c then [] else [x]) → x.isError = true → cause.isError = true := by
    intro c _ x h hx
    split at h
    · cases h
    · rw [List.mem_singleton.mp h]
      exact hx
  simp only [List.mem_append] at h
  rcases h with (h | h) | h
  · unfold tagFindings at h
    dsimp only at h
    split at h
    · split at h
      · exact listed h rfl
      · rw [List.mem_singleton.mp h]
        rfl
    · split at h
      · exact listed h rfl
      · rw [List.mem_singleton.mp h]
        rfl
    · cases h
  · unfold taggedFindings at h
    dsimp only at h
    split at h
    · exact listed h rfl
    · exact listed h rfl
    · cases h
  · unfold selectorFindings at h
    split at h
    · exact listed h rfl
    · exact listed h rfl
    · cases h

theorem clean_of_recordFindings {name : String} (h : Harmless (recordFindings name r))
    (hf : f ∈ r.fields) : Clean r f := by
  have hnone : tagFindings r f ++ taggedFindings r f ++ selectorFindings r f = [] := by
    rw [List.eq_nil_iff_forall_not_mem]
    intro cause hcause
    have := h ⟨name, some f.name, cause⟩
      (List.mem_flatMap.mpr ⟨f, hf, List.mem_map.mpr ⟨cause, hcause, rfl⟩⟩)
    cases this.symm.trans (isError_of_mem hcause)
  rw [List.append_eq_nil_iff, List.append_eq_nil_iff] at hnone
  exact ⟨hnone.1.1, hnone.1.2, hnone.2⟩

theorem exists_of_partnerMarshal? {m : Marshal} (h : partnerMarshal? r f = some m) :
    ∃ g ∈ r.fields, f.partner = some g.name ∧ g.marshal = m := by
  obtain ⟨tag, htag, h⟩ := Option.bind_eq_some_iff.mp h
  obtain ⟨g, hg, h⟩ := Option.bind_eq_some_iff.mp h
  cases h
  have hname : g.name = tag := by simpa using List.find?_some hg
  exact ⟨g, List.mem_of_find?_eq_some hg, hname ▸ htag, rfl⟩

/-- What a field is measured or chosen by is there and of the right kind. -/
theorem Clean.exists_tag (h : Clean r f) (hm : f.marshal = .countedArray ∨
    f.marshal = .unionBody ∨ f.marshal = .selectedArray) :
    ∃ g ∈ r.fields, f.tag? = some g.name ∧ g.marshal = f.tagMarshal := by
  have hmarshal : partnerMarshal? r f = some f.tagMarshal := by
    rcases hm with hm | hm | hm
    · have htagged := h.tagged
      unfold taggedFindings at htagged
      simp only [hm] at htagged
      split at htagged
      · next hp =>
        rw [Field.tagMarshal, if_pos hm]
        simpa using hp
      · cases htagged
    all_goals
      have hselector := h.selector
      unfold selectorFindings at hselector
      simp only [hm] at hselector
      split at hselector
      · next hp =>
        rw [Field.tagMarshal, if_neg (by rw [hm]; decide)]
        simpa using hp
      · cases hselector
  obtain ⟨g, hg, hpartner, hgm⟩ := exists_of_partnerMarshal? hmarshal
  refine ⟨g, hg, ?_, hgm⟩
  unfold Field.tag?
  rcases hm with hm | hm | hm <;> rw [hm] <;> exact hpartner

/-- A count or the length of a structure is that of one field, which names it. -/
theorem Clean.exists_tagged (h : Clean r f) {expected : Marshal}
    (hm : f.marshal = .count ∧ expected = .countedArray ∨
      f.marshal = .bodySize ∧ expected = .sizedBody) :
    ∃ p ∈ r.fields, p.marshal = expected ∧ p.partner = some f.name ∧ f.partner = some p.name ∧
      ∀ q ∈ r.fields, q.partner = some f.name → q = p := by
  have htag : ∃ p, r.fields.filter (·.partner == some f.name) = [p] ∧
      p.marshal = expected ∧ f.partner = some p.name := by
    have htag := h.tag
    unfold tagFindings at htag
    rcases hm with ⟨hm, rfl⟩ | ⟨hm, rfl⟩
    all_goals
      simp only [hm] at htag
      split at htag
      · next p hp =>
        split at htag
        · next hlink => exact ⟨p, hp, by simpa using hlink⟩
        · cases htag
      · cases htag
  obtain ⟨p, hp, hpm, hfp⟩ := htag
  have only : ∀ q, q ∈ r.fields ∧ q.partner = some f.name ↔ q = p := fun q => by
    have hmem : q ∈ [p] ↔ q = p := List.mem_singleton
    rwa [← hp, List.mem_filter, beq_iff_eq] at hmem
  obtain ⟨hpr, hpartner⟩ := (only p).mpr rfl
  exact ⟨p, hpr, hpm, hpartner, hfp, fun q hq hqp => (only q).mp ⟨hq, hqp⟩⟩

/-- Fields in order with different names are linked when nothing is wrong with them. -/
theorem linked_of_clean (ho : Ordered r.fields) (hclean : ∀ f ∈ r.fields, Clean r f)
    (hnames : (r.fields.map (·.name)).Nodup) : Linked r.fields := by
  have once : ∀ f : Field, Once r.fields f.name := fun f => List.nodup_iff_count_le_one.mp hnames _
  have tagged : ∀ {f : Field} {tag : String}, f.tag? = some tag →
      f.marshal = .countedArray ∨ f.marshal = .unionBody ∨ f.marshal = .selectedArray := by
    intro f tag h
    unfold Field.tag? at h
    split at h
    · next hm => exact .inl hm
    · next hm => exact .inr (.inl hm)
    · next hm => exact .inr (.inr hm)
    · cases h
  obtain ⟨gone, htags, hgone⟩ := ho.tags
  refine ⟨fun f hf hm => ?_, fun pre f post hsplit tag htag => ?_, fun f hf hm => ?_,
    fun f hf hm u hu hp hum => ?_⟩
  · obtain ⟨g, -, htag, -⟩ := (hclean f hf).exists_tag hm
    exact ⟨g.name, htag⟩
  · have hf : f ∈ r.fields := hsplit ▸ List.mem_append_right _ List.mem_cons_self
    obtain ⟨g, hg, hname, hgm⟩ := (hclean f hf).exists_tag (tagged htag)
    rw [htag, Option.some.injEq] at hname
    have hbefore : tag ∈ pre.map (·.name) := by
      rw [hsplit] at htags
      exact (htags.mem htag (hname ▸ hgone g hg)).resolve_left List.not_mem_nil
    obtain ⟨g', hg', hname'⟩ := List.mem_map.mp hbefore
    have hmem : g' ∈ r.fields := hsplit ▸ List.mem_append_left _ hg'
    rw [(once g).eq hg hmem rfl (hname'.trans hname)] at hgm
    exact ⟨g', hg', hname', hgm⟩
  · exact (hclean f hf).exists_tagged (.inl ⟨hm, rfl⟩)
  · exact ho.selectors f hf u hu (once f) (once u) hm hp hum

end Record

section Union

variable {s : Schema} {union : String}

/-- A member has the selector under which its type was seen before, and the others are checked after
it. -/
theorem harmless_memberFindings_cons {seen : List (String × String)} {selected : Selected}
    {first : UnionMember} {rest : List UnionMember}
    (h : Harmless (s.memberFindings union seen selected (first :: rest)).1) :
    (∀ selector, seen.lookup (s.concreteName first.typeName) = some selector →
      selector = first.selector) ∧ ∃ selected', Harmless (s.memberFindings union
        ((s.concreteName first.typeName, first.selector) :: seen) selected' rest).1 := by
  unfold memberFindings at h
  dsimp only at h
  obtain ⟨hfirst, hrest⟩ := h.of_append
  obtain ⟨htwice, -⟩ := hfirst.of_append
  refine ⟨fun selector hs => ?_, _, hrest⟩
  rw [hs] at htwice
  by_contra hne
  dsimp only at htwice
  rw [if_neg (by simpa using hne)] at htwice
  cases htwice _ List.mem_cons_self

/-- A type that was seen before in a union is seen again under the same selector. -/
theorem selector_of_seen {seen : List (String × String)} {selected : Selected}
    {members : List UnionMember} (h : Harmless (s.memberFindings union seen selected members).1)
    {m : UnionMember} (hm : m ∈ members) {selector : String}
    (hs : seen.lookup (s.concreteName m.typeName) = some selector) : selector = m.selector := by
  induction members generalizing seen selected with
  | nil => cases hm
  | cons first rest ih =>
    obtain ⟨hfirst, selected', hrest⟩ := harmless_memberFindings_cons h
    rcases List.mem_cons.mp hm with rfl | hm
    · exact hfirst selector hs
    · refine ih hrest hm ?_
      by_cases hsame : s.concreteName m.typeName = s.concreteName first.typeName
      · rw [hsame] at hs ⊢
        rw [List.lookup_cons_self, hfirst selector hs]
      · rw [List.lookup_cons, beq_eq_false_iff_ne.mpr hsame]
        exact hs

/-- Members that denote one type have one selector. -/
theorem selector_of_memberFindings {seen : List (String × String)} {selected : Selected}
    {members : List UnionMember} (h : Harmless (s.memberFindings union seen selected members).1) :
    ∀ m ∈ members, ∀ m' ∈ members, s.concreteName m.typeName = s.concreteName m'.typeName →
      m.selector = m'.selector := by
  induction members generalizing seen selected with
  | nil => exact fun _ hm => (List.not_mem_nil hm).elim
  | cons first rest ih =>
    obtain ⟨-, selected', hrest⟩ := harmless_memberFindings_cons h
    have later : ∀ m ∈ rest, s.concreteName m.typeName = s.concreteName first.typeName →
        first.selector = m.selector :=
      fun m hm hname => selector_of_seen hrest hm (by rw [hname, List.lookup_cons_self])
    intro m hm m' hm' hname
    rcases List.mem_cons.mp hm with hfirst | hm <;> rcases List.mem_cons.mp hm' with hfirst' | hm'
    · rw [hfirst, hfirst']
    · rw [hfirst]
      exact later m' hm' (by rw [← hname, hfirst])
    · rw [hfirst']
      exact (later m hm (by rw [hname, hfirst'])).symm
    · exact ih hrest m hm m' hm' hname

/-- What was seen of a type is never replaced. -/
def Kept (selected selected' : Selected) : Prop :=
  ∀ name x, selected.lookup name = some x → selected'.lookup name = some x

/-- The type of a member that is a structure has been seen, with the selector of the member. -/
def Saw (s : Schema) (selected : Selected) (m : UnionMember) : Prop :=
  s.isRecord m.typeName = true → ∃ other, selected.lookup m.typeName = some (m.selector, other)

theorem Saw.kept {selected selected' : Selected} {m : UnionMember} (h : s.Saw selected m)
    (hkept : Kept selected selected') : s.Saw selected' m := fun hr =>
  let ⟨other, hother⟩ := h hr
  ⟨other, hkept _ _ hother⟩

/-- After a member without errors its type has been seen with its selector. -/
theorem saw_memberFindings_cons {seen : List (String × String)} {selected : Selected}
    {first : UnionMember} {rest : List UnionMember}
    (h : Harmless (s.memberFindings union seen selected (first :: rest)).1) :
    ∃ seen' selected', Kept selected selected' ∧ s.Saw selected' first ∧
      Harmless (s.memberFindings union seen' selected' rest).1 ∧
      (s.memberFindings union seen selected (first :: rest)).2 =
        (s.memberFindings union seen' selected' rest).2 := by
  generalize hout : s.memberFindings union seen selected (first :: rest) = out at h ⊢
  unfold memberFindings at hout
  dsimp only at hout
  subst hout
  obtain ⟨hfirst, hrest⟩ := h.of_append
  obtain ⟨-, helsewhere⟩ := hfirst.of_append
  refine ⟨_, _, ?_, ?_, hrest, rfl⟩
  · intro name x hx
    split
    · split
      · split <;> exact hx
      · next hnone =>
        rw [List.lookup_cons]
        split
        · next heq =>
          rw [beq_iff_eq.mp heq, hnone] at hx
          cases hx
        · exact hx
    · exact hx
  · intro hr
    rw [if_pos hr] at helsewhere ⊢
    split at helsewhere
    · next selector other hfound =>
      split at helsewhere
      · next hsame =>
        rw [if_pos hsame]
        exact ⟨other, beq_iff_eq.mp hsame ▸ hfound⟩
      · cases helsewhere _ List.mem_cons_self
    · exact ⟨union, List.lookup_cons_self⟩

/-- After a union without errors the types of its members have been seen with their selectors. -/
theorem saw_of_memberFindings {seen : List (String × String)} {selected : Selected}
    {members : List UnionMember} (h : Harmless (s.memberFindings union seen selected members).1) :
    Kept selected (s.memberFindings union seen selected members).2 ∧
      ∀ m ∈ members, s.Saw (s.memberFindings union seen selected members).2 m := by
  induction members generalizing seen selected with
  | nil => exact ⟨fun _ _ hx => hx, fun _ hm => (List.not_mem_nil hm).elim⟩
  | cons first rest ih =>
    obtain ⟨seen', selected', hkept, hsaw, hrest, hsame⟩ := saw_memberFindings_cons h
    obtain ⟨hkept', hsaw'⟩ := ih hrest
    rw [hsame]
    refine ⟨fun name x hx => hkept' _ _ (hkept _ _ hx), fun m hm => ?_⟩
    rcases List.mem_cons.mp hm with rfl | hm
    · exact hsaw.kept hkept'
    · exact hsaw' m hm

end Union

section Types

variable {s : Schema} {selected : Selected} {types : List TypeEntry} {t : TypeEntry}

/-- A type is checked, and so are those after it. -/
theorem harmless_typeFindings_cons (h : Harmless (s.typeFindings selected (t :: types))) :
    (∀ r, t.record? = some r → Harmless (recordFindings t.specName r)) ∧
      (∀ u, t.union? = some u → Harmless (s.memberFindings t.specName [] selected u.members).1) ∧
        ∃ selected', Harmless (s.typeFindings selected' types) := by
  obtain ⟨id, specName, name, comment, implemented, kind⟩ := t
  cases kind with
  | record r =>
    obtain ⟨hr, hrest⟩ := Harmless.of_append h
    refine ⟨?_, nofun, _, hrest⟩
    rintro _ ⟨⟩
    exact hr
  | union u =>
    obtain ⟨hu, hrest⟩ := Harmless.of_append h
    refine ⟨nofun, ?_, _, hrest⟩
    rintro _ ⟨⟩
    exact hu
  | enum e => exact ⟨nofun, nofun, _, (Harmless.of_append h).2⟩
  | value c => exact ⟨nofun, nofun, _, h⟩
  | aliasOf a => exact ⟨nofun, nofun, _, h⟩
  | bitfield b => exact ⟨nofun, nofun, _, h⟩

/-- Every structure and every union among the types has been checked. -/
theorem harmless_of_mem (h : Harmless (s.typeFindings selected types)) (ht : t ∈ types) :
    (∀ r, t.record? = some r → Harmless (recordFindings t.specName r)) ∧
      ∀ u, t.union? = some u → ∃ selected',
        Harmless (s.memberFindings t.specName [] selected' u.members).1 := by
  induction types generalizing selected with
  | nil => cases ht
  | cons first rest ih =>
    obtain ⟨hrecord, hunion, selected', hrest⟩ := harmless_typeFindings_cons h
    rcases List.mem_cons.mp ht with rfl | ht
    · exact ⟨hrecord, fun u hu => ⟨selected, hunion u hu⟩⟩
    · exact ih hrest ht

/-- Nothing is wrong with the fields of a structure that is put out. -/
theorem clean_of_findings (h : Harmless s.findings) (ht : t ∈ s.types)
    (himplemented : t.implemented = true) {r : Record} (hr : t.record? = some r) {f : Field}
    (hf : f ∈ r.fields) : Clean r f :=
  clean_of_recordFindings
    ((harmless_of_mem h (List.mem_filter.mpr ⟨ht, himplemented⟩)).1 r hr) hf

/-- Members of one type have one selector in a union that is put out. -/
theorem selector_of_findings (h : Harmless s.findings) (ht : t ∈ s.types)
    (himplemented : t.implemented = true) {u : UnionType} (hu : t.union? = some u) :
    ∀ m ∈ u.members, ∀ m' ∈ u.members, m.typeName = m'.typeName → m.selector = m'.selector := by
  obtain ⟨selected, hmembers⟩ :=
    (harmless_of_mem h (List.mem_filter.mpr ⟨ht, himplemented⟩)).2 u hu
  exact fun m hm m' hm' hname =>
    selector_of_memberFindings hmembers m hm m' hm' (congrArg s.concreteName hname)

/-- After types without errors the structures among the members of their unions have been seen. -/
theorem saw_of_typeFindings (h : Harmless (s.typeFindings selected types)) :
    ∃ selected', Kept selected selected' ∧ ∀ t ∈ types, ∀ u, t.union? = some u →
      ∀ m ∈ u.members, s.Saw selected' m := by
  induction types generalizing selected with
  | nil => exact ⟨selected, fun _ _ hx => hx, fun _ ht => (List.not_mem_nil ht).elim⟩
  | cons first rest ih =>
    have step : ∃ selected₁, Kept selected selected₁ ∧
        (∀ u, first.union? = some u → ∀ m ∈ u.members, s.Saw selected₁ m) ∧
          Harmless (s.typeFindings selected₁ rest) := by
      obtain ⟨id, specName, name, comment, implemented, kind⟩ := first
      cases kind with
      | union u =>
        obtain ⟨hmembers, hrest⟩ := Harmless.of_append h
        obtain ⟨hkept, hsaw⟩ := saw_of_memberFindings hmembers
        refine ⟨_, hkept, ?_, hrest⟩
        rintro _ ⟨⟩
        exact hsaw
      | record r => exact ⟨selected, fun _ _ hx => hx, nofun, (Harmless.of_append h).2⟩
      | enum e => exact ⟨selected, fun _ _ hx => hx, nofun, (Harmless.of_append h).2⟩
      | value c => exact ⟨selected, fun _ _ hx => hx, nofun, h⟩
      | aliasOf a => exact ⟨selected, fun _ _ hx => hx, nofun, h⟩
      | bitfield b => exact ⟨selected, fun _ _ hx => hx, nofun, h⟩
    obtain ⟨selected₁, hkept, hfirst, hrest⟩ := step
    obtain ⟨selected', hkept', hsaw⟩ := ih hrest
    refine ⟨selected', fun name x hx => hkept' _ _ (hkept _ _ hx), fun t ht u hu m hm => ?_⟩
    rcases List.mem_cons.mp ht with rfl | ht
    · exact (hfirst u hu m hm).kept hkept'
    · exact hsaw t ht u hu m hm

/-- Members of one structure type have one selector in all unions that are put out. -/
theorem selector_of_members (h : Harmless s.findings) {t t' : TypeEntry} (ht : t ∈ s.implemented)
    (ht' : t' ∈ s.implemented) {u u' : UnionType} (hu : t.union? = some u)
    (hu' : t'.union? = some u') {m m' : UnionMember} (hm : m ∈ u.members) (hm' : m' ∈ u'.members)
    (hname : m.typeName = m'.typeName) (hr : s.isRecord m.typeName = true) :
    m.selector = m'.selector := by
  obtain ⟨selected, -, hsaw⟩ := saw_of_typeFindings h
  obtain ⟨other, hseen⟩ := hsaw t ht u hu m hm hr
  obtain ⟨other', hseen'⟩ := hsaw t' ht' u' hu' m' hm' (hname ▸ hr)
  rw [hname, hseen', Option.some.injEq, Prod.mk.injEq] at hseen
  exact hseen.1.symm

end Types

end Schema

end WireTables
