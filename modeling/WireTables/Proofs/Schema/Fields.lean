import Mathlib.Data.List.Forall2
import WireTables.Extraction

/-!
# Fields in their order

What holds of the fields of a structure from the tables to the normal form, whatever their names
are. A field that is measured or chosen by another one comes after it (`TagsFirst`), and a selector
is the selector of the field that it names (`SelectorsName`). Names that are given twice are exempt,
because a row finds an earlier field by its name. Most changes only make fields something other than
selectors and union bodies; these are `Demoted` fields.

Some fields of a structure describe a sibling. `Linked` says what has to hold between them for a
plan to make sense: whatever a field is measured or chosen by comes before it, a count and its
array name each other, and a selector is the selector of the union-typed field that it names. All
of that is about structures whose field names are different.
-/

namespace WireTables

/-- The name of the field that a field is measured or chosen by. -/
def Field.tag? (f : Field) : Option String :=
  match f.marshal with
  | .countedArray | .unionBody | .selectedArray => f.partner
  | _ => none

/-- The kind of field that measures or chooses a field. -/
def Field.tagMarshal (f : Field) : Marshal :=
  if f.marshal = .countedArray then .count else .selector

/-- What the fields of a structure with different names say about each other. -/
structure Linked (fields : List Field) : Prop where
  tagged : ∀ f ∈ fields, f.marshal = .countedArray ∨ f.marshal = .unionBody ∨
    f.marshal = .selectedArray → ∃ tag, f.tag? = some tag
  before : ∀ pre f post, fields = pre ++ f :: post → ∀ tag, f.tag? = some tag →
    ∃ g ∈ pre, g.name = tag ∧ g.marshal = f.tagMarshal
  count : ∀ f ∈ fields, f.marshal = .count →
    ∃ p ∈ fields, p.marshal = .countedArray ∧ p.partner = some f.name ∧ f.partner = some p.name ∧
      ∀ q ∈ fields, q.partner = some f.name → q = p
  object : ∀ f ∈ fields, f.marshal = .selector → ∀ u ∈ fields, f.partner = some u.name →
    u.marshal = .unionBody → u.partner = some f.name

/-- Every field that is measured or chosen by another one comes after it, except for those whose
tags are gone. -/
def TagsFirst (gone : List String) : List String → List Field → Prop
  | _, [] => True
  | seen, f :: rest =>
    (∀ tag, f.tag? = some tag → tag ∉ gone → tag ∈ seen) ∧ TagsFirst gone (f.name :: seen) rest

/-- At most one field has the name. -/
def Once (fields : List Field) (name : String) : Prop :=
  (fields.map (·.name)).count name ≤ 1

/-- A selector is the selector of the union-typed field that it names, if the names are clear. -/
def SelectorsName (fields : List Field) : Prop :=
  ∀ f ∈ fields, ∀ u ∈ fields, Once fields f.name → Once fields u.name → f.marshal = .selector →
    f.partner = some u.name → u.marshal = .unionBody → u.partner = some f.name

/-- A selector names no field that is plain. -/
def SelectorsUsed (fields : List Field) : Prop :=
  ∀ f ∈ fields, ∀ u ∈ fields, Once fields u.name → f.marshal = .selector →
    f.partner = some u.name → u.marshal ≠ .plain

/-- The fields that selectors name are there. -/
def SelectorsPresent (fields : List Field) : Prop :=
  ∀ f ∈ fields, f.marshal = .selector →
    ∃ name, f.partner = some name ∧ name ∈ fields.map (·.name)

/-- Fields after their tags, unless the tags are gone, and selectors that select what names them. -/
structure Ordered (fields : List Field) : Prop where
  tags : ∃ gone, TagsFirst gone [] fields ∧ ∀ f ∈ fields, f.name ∉ gone
  selectors : SelectorsName fields

/-- The field is measured and chosen as it was, or not at all any more. -/
structure TagKept (f f' : Field) : Prop where
  name : f'.name = f.name
  tag : f'.tag? = none ∨ f'.tag? = f.tag?

/-- The field is as it was, or it was made something else than a selector or a union body. -/
structure Demoted (f f' : Field) : Prop where
  name : f'.name = f.name
  marshal : f' = f ∨ f'.marshal ≠ .selector ∧ f'.marshal ≠ .unionBody

/-- The field is as it was, or it was made something that is plain no more. -/
def Occupied (f f' : Field) : Prop :=
  f' = f ∨ f'.marshal ≠ .plain

theorem TagKept.refl (f : Field) : TagKept f f :=
  ⟨rfl, .inr rfl⟩

theorem Demoted.refl (f : Field) : Demoted f f :=
  ⟨rfl, .inl rfl⟩

section Once

variable {fields fields' : List Field} {name : String}

theorem Once.congr (h : fields'.map (·.name) = fields.map (·.name)) :
    Once fields' name ↔ Once fields name := by
  unfold Once
  rw [h]

theorem Once.of_append (h : Once (fields ++ fields') name) : Once fields name := by
  unfold Once at h ⊢
  rw [List.map_append, List.count_append] at h
  omega

theorem Once.of_cons {f : Field} (h : Once (f :: fields) name) : Once fields name := by
  unfold Once at h ⊢
  rw [List.map_cons, List.count_cons] at h
  omega

/-- A name that is there once is not there another time. -/
theorem Once.not_mem {f : Field} (h : Once (fields ++ [f]) f.name) :
    f.name ∉ fields.map (·.name) := by
  intro hmem
  unfold Once at h
  rw [List.map_append, List.count_append, List.map_singleton, List.count_singleton_self] at h
  have := List.count_pos_iff.mpr hmem
  omega

theorem Once.eq {f g : Field} (h : Once fields name) (hf : f ∈ fields) (hg : g ∈ fields)
    (hfn : f.name = name) (hgn : g.name = name) : f = g := by
  induction fields with
  | nil => cases hf
  | cons x rest ih =>
    unfold Once at h
    rw [List.map_cons, List.count_cons] at h
    have absent : x.name = name → ∀ y ∈ rest, y.name ≠ name := by
      intro hx y hy hyn
      have := List.count_pos_iff.mpr (hyn ▸ List.mem_map_of_mem (f := fun f : Field => f.name) hy)
      simp only [hx, beq_self_eq_true, ↓reduceIte] at h
      omega
    rcases List.mem_cons.mp hf with hfx | hfr <;> rcases List.mem_cons.mp hg with hgx | hgr
    · exact hfx.trans hgx.symm
    · exact (absent (hfx ▸ hfn) g hgr hgn).elim
    · exact (absent (hgx ▸ hgn) f hfr hfn).elim
    · exact ih (by unfold Once; omega) hfr hgr

end Once

theorem mem_of_occupied {fields fields' : List Field} (h : List.Forall₂ Occupied fields fields')
    {f : Field} (hf : f ∈ fields') : f ∈ fields ∨ f.marshal ≠ .plain := by
  induction h with
  | nil => cases hf
  | cons h _ ih =>
    rcases List.mem_cons.mp hf with rfl | hf
    · rcases h with rfl | hm
      · exact .inl List.mem_cons_self
      · exact .inr hm
    · exact (ih hf).imp_left (List.mem_cons_of_mem _)

section Demoted

variable {fields fields' : List Field} (h : List.Forall₂ Demoted fields fields')

include h

theorem names_of_demoted : fields'.map (·.name) = fields.map (·.name) := by
  induction h with
  | nil => rfl
  | cons h _ ih => rw [List.map_cons, List.map_cons, ih, h.name]

theorem mem_of_demoted {f : Field} (hf : f ∈ fields')
    (hm : f.marshal = .selector ∨ f.marshal = .unionBody) : f ∈ fields := by
  induction h with
  | nil => cases hf
  | cons h _ ih =>
    rcases List.mem_cons.mp hf with rfl | hf
    · rcases h.marshal with rfl | ⟨hs, hu⟩
      · exact List.mem_cons_self
      · exact (hm.elim hs hu).elim
    · exact List.mem_cons_of_mem _ (ih hf)

theorem SelectorsName.demoted (hs : SelectorsName fields) : SelectorsName fields' := by
  intro f hf u hu hfo huo hfm hp hum
  have hnames := names_of_demoted h
  exact hs f (mem_of_demoted h hf (.inl hfm)) u (mem_of_demoted h hu (.inr hum))
    ((Once.congr hnames).mp hfo) ((Once.congr hnames).mp huo) hfm hp hum

theorem SelectorsPresent.demoted (hs : SelectorsPresent fields) : SelectorsPresent fields' := by
  intro f hf hm
  rw [names_of_demoted h]
  exact hs f (mem_of_demoted h hf (.inl hm)) hm

theorem SelectorsUsed.demoted (h' : List.Forall₂ Occupied fields fields')
    (hs : SelectorsUsed fields) : SelectorsUsed fields' := by
  intro f hf u hu huo hfm hp
  rcases mem_of_occupied h' hu with hu | hu
  · exact hs f (mem_of_demoted h hf (.inl hfm)) u hu ((Once.congr (names_of_demoted h)).mp huo)
      hfm hp
  · exact hu

end Demoted

theorem TagsFirst.congr {gone seen : List String} {fields fields' : List Field}
    (h : List.Forall₂ TagKept fields fields') (ht : TagsFirst gone seen fields) :
    TagsFirst gone seen fields' := by
  induction h generalizing seen with
  | nil => exact ht
  | cons h _ ih =>
    obtain ⟨hf, hrest⟩ := ht
    refine ⟨fun tag htag hgone => ?_, ?_⟩
    · rcases h.tag with hnone | hsame
      · cases hnone.symm.trans htag
      · exact hf tag (hsame ▸ htag) hgone
    · rw [h.name]
      exact ih hrest

/-- Fields stay in order when some are made something else than selectors and union bodies. -/
theorem Ordered.demoted {fields fields' : List Field} (h : Ordered fields)
    (hd : List.Forall₂ Demoted fields fields') (hk : List.Forall₂ TagKept fields fields') :
    Ordered fields' := by
  obtain ⟨gone, htags, hgone⟩ := h.tags
  refine ⟨⟨gone, htags.congr hk, fun f hf => ?_⟩, h.selectors.demoted hd⟩
  have hmem : f.name ∈ fields.map (·.name) := names_of_demoted hd ▸ List.mem_map_of_mem hf
  obtain ⟨g, hg, hname⟩ := List.mem_map.mp hmem
  exact hname ▸ hgone g hg

section Append

variable {fields : List Field} {f : Field}

theorem tagsFirst_append {gone seen : List String} : TagsFirst gone seen (fields ++ [f]) ↔
    TagsFirst gone seen fields ∧
      ∀ tag, f.tag? = some tag → tag ∉ gone → tag ∈ seen ∨ tag ∈ fields.map (·.name) := by
  induction fields generalizing seen with
  | nil => simp [TagsFirst]
  | cons g rest ih =>
    rw [List.cons_append, TagsFirst, TagsFirst, ih, and_assoc]
    simp only [List.mem_cons, List.map_cons, or_assoc, or_left_comm]

/-- What a field is measured or chosen by is among the fields before it. -/
theorem TagsFirst.mem {gone seen : List String} {pre post : List Field}
    (h : TagsFirst gone seen (pre ++ f :: post)) {tag : String} (htag : f.tag? = some tag)
    (hgone : tag ∉ gone) : tag ∈ seen ∨ tag ∈ pre.map (·.name) := by
  induction pre generalizing seen with
  | nil => exact .inl (h.1 tag htag hgone)
  | cons g pre ih =>
    rcases ih h.2 with hmem | hmem
    · rcases List.mem_cons.mp hmem with rfl | hmem
      · exact .inr List.mem_cons_self
      · exact .inl hmem
    · exact .inr (List.mem_cons_of_mem _ hmem)

/-- A field that is no selector and no union body can come last. -/
theorem SelectorsName.append (hs : SelectorsName fields) (hm : f.marshal ≠ .selector)
    (hm' : f.marshal ≠ .unionBody) : SelectorsName (fields ++ [f]) := by
  intro g hg u hu hgo huo hgm hp hum
  have old : ∀ {x}, x ∈ fields ++ [f] → x ≠ f → x ∈ fields := by
    intro x hx hne
    rcases List.mem_append.mp hx with hx | hx
    · exact hx
    · exact (hne (List.mem_singleton.mp hx)).elim
  exact hs g (old hg (by rintro rfl; exact hm hgm)) u (old hu (by rintro rfl; exact hm' hum))
    hgo.of_append huo.of_append hgm hp hum

end Append

section ChangeFirst

open Extraction

variable {name : String} {change : Field → Field} {fields : List Field}

theorem mem_changeFirst {f : Field} (h : f ∈ changeFirst name change fields) :
    f ∈ fields ∨ ∃ g ∈ fields, g.name = name ∧ f = change g := by
  induction fields with
  | nil => cases h
  | cons g rest ih =>
    unfold changeFirst at h
    split at h
    · next hg =>
      rcases List.mem_cons.mp h with rfl | h
      · exact .inr ⟨g, List.mem_cons_self, by simpa using hg, rfl⟩
      · exact .inl (List.mem_cons_of_mem _ h)
    · rcases List.mem_cons.mp h with rfl | h
      · exact .inl List.mem_cons_self
      · rcases ih h with h | ⟨x, hx, hname, rfl⟩
        · exact .inl (List.mem_cons_of_mem _ h)
        · exact .inr ⟨x, List.mem_cons_of_mem _ hx, hname, rfl⟩

theorem forall₂_changeFirst {p : Field → Field → Prop} (hrefl : ∀ f, p f f)
    (hchange : ∀ f, p f (change f)) : List.Forall₂ p fields (changeFirst name change fields) := by
  induction fields with
  | nil => exact .nil
  | cons g rest ih =>
    unfold changeFirst
    split
    · exact .cons (hchange g) (List.forall₂_same.mpr fun f _ => hrefl f)
    · exact .cons (hrefl g) ih

theorem names_changeFirst (h : ∀ f, (change f).name = f.name) :
    (changeFirst name change fields).map (·.name) = fields.map (·.name) := by
  induction fields with
  | nil => rfl
  | cons g rest ih =>
    unfold changeFirst
    split
    · rw [List.map_cons, List.map_cons, h]
    · rw [List.map_cons, List.map_cons, ih]

/-- What is changed is the field that a search by the name finds. -/
theorem exists_of_changed {f : Field} (h : f ∈ changeFirst name change fields) :
    f ∈ fields ∨ ∃ g, fields.find? (·.name == name) = some g ∧ f = change g := by
  induction fields with
  | nil => cases h
  | cons g rest ih =>
    unfold changeFirst at h
    split at h
    · next hg =>
      rcases List.mem_cons.mp h with rfl | h
      · exact .inr ⟨g, List.find?_cons_of_pos hg, rfl⟩
      · exact .inl (List.mem_cons_of_mem _ h)
    · next hg =>
      rcases List.mem_cons.mp h with rfl | h
      · exact .inl List.mem_cons_self
      · rcases ih h with h | ⟨x, hx, rfl⟩
        · exact .inl (List.mem_cons_of_mem _ h)
        · refine .inr ⟨x, ?_, rfl⟩
          rw [List.find?_cons, Bool.eq_false_iff.mpr hg]
          exact hx

/-- What a search by a name finds afterwards it found before, or it is changed. -/
theorem find?_changeFirst (hchange : ∀ g, (change g).name = g.name) {tag : String} {f : Field}
    (h : (changeFirst name change fields).find? (·.name == tag) = some f) :
    fields.find? (·.name == tag) = some f ∨ ∃ g, f = change g := by
  induction fields with
  | nil => cases h
  | cons g rest ih =>
    unfold changeFirst at h
    split at h
    · rw [List.find?_cons, hchange] at h
      split at h
      · cases h
        exact .inr ⟨g, rfl⟩
      · next htag => exact .inl ((List.find?_cons_of_neg (by simpa using htag)).trans h)
    · rw [List.find?_cons] at h ⊢
      split at h
      · exact .inl h
      · exact ih h

/-- The only field of the name is a changed one. -/
theorem exists_of_mem_changeFirst (hchange : ∀ g, (change g).name = g.name) {f : Field}
    (h : f ∈ changeFirst name change fields) (hn : f.name = name) (honce : Once fields name) :
    ∃ g, f = change g := by
  have honce' : Once (changeFirst name change fields) name :=
    (Once.congr (names_changeFirst hchange)).mpr honce
  induction fields with
  | nil => cases h
  | cons g rest ih =>
    unfold changeFirst at h honce'
    split at h
    · next hg =>
      rw [if_pos hg] at honce'
      exact ⟨g, honce'.eq h List.mem_cons_self hn ((hchange g).trans (by simpa using hg))⟩
    · next hg =>
      rw [if_neg hg] at honce'
      rcases List.mem_cons.mp h with rfl | h
      · exact (hg (by simpa using hn)).elim
      · exact ih h (honce.of_cons) honce'.of_cons

/-- Changing a field at the place that a search by name finds is changing the first of that name. -/
theorem modify_findIdx? : (match fields.findIdx? (·.name == name) with
    | some i => fields.modify i change
    | none => fields) = changeFirst name change fields := by
  induction fields with
  | nil => rfl
  | cons g rest ih =>
    unfold changeFirst
    rw [List.findIdx?_cons]
    by_cases hg : (g.name == name) = true
    · rw [if_pos hg, if_pos hg]
      rfl
    · rw [if_neg hg, if_neg hg, ← ih]
      cases rest.findIdx? (·.name == name) <;> rfl

theorem hasField_iff : hasField fields name = true ↔ name ∈ fields.map (·.name) := by
  simp [hasField]

end ChangeFirst

end WireTables
