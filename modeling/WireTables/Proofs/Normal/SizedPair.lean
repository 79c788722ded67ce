import WireTables.Proofs.Normal.Concrete

/-!
# Lengths of structures

Lengths of structures come from sized pairs, which are structures of two fields, and no pass puts
another field beside these. So the length of a structure is the first of two fields, and the second
is what it measures (`SizeFirst`), unless one of them was made an array since. What the second is of
denotes a structure ever after.
-/

namespace WireTables

/-- The fields have no length of a structure among them, or are a length and the structure that it
measures; either may have become an array that takes the rest of its region. -/
inductive SizeFirst (s : Schema) : List Field → Prop where
  | unsized {fields} (h : Unsized fields) : SizeFirst s fields
  | pair {size body} (hsize : size.marshal = .bodySize ∨ size.marshal = .restArray)
    (hbody : body.marshal = .sizedBody ∧ s.isRecord body.typeName = true ∨
      body.marshal = .restArray) : SizeFirst s [size, body]

namespace SizeFirst

variable {s s' : Schema} {fields : List Field}

theorem mono (h : SizeFirst s fields)
    (hs : ∀ name, s.isRecord name = true → s'.isRecord name = true) : SizeFirst s' fields := by
  cases h with
  | unsized h => exact .unsized h
  | pair hsize hbody => exact .pair hsize (hbody.imp_left fun ⟨hm, hr⟩ => ⟨hm, hs _ hr⟩)

/-- The only length of a structure has the structure right after it. -/
theorem eq_of_split {pre post : List Field} {f : Field} (h : SizeFirst s (pre ++ f :: post))
    (hf : f.marshal = .bodySize) : ∃ body, pre = [] ∧ post = [body] ∧
      (body.marshal = .sizedBody ∧ s.isRecord body.typeName = true ∨
        body.marshal = .restArray) := by
  generalize hfields : pre ++ f :: post = fields at h
  cases h with
  | unsized h => exact ((h f (hfields ▸ List.mem_append_right _ List.mem_cons_self)).1 hf).elim
  | @pair size body hsize hbody =>
    rcases List.append_eq_cons_iff.mp hfields with ⟨rfl, hpost⟩ | ⟨rest, rfl, hrest⟩
    · cases hpost
      exact ⟨body, rfl, rfl, hbody⟩
    · have hlast : f = body := by
        have hmem : f ∈ rest ++ f :: post := List.mem_append_right _ List.mem_cons_self
        rw [← hrest] at hmem
        exact List.mem_singleton.mp hmem
      rw [hlast] at hf
      rcases hbody with ⟨hm, -⟩ | hm <;> cases hf.symm.trans hm

section Passes

variable (h : SizeFirst s fields)

include h

theorem link : SizeFirst s ((s.linkSizedPair fields).getD fields) := by
  unfold Schema.linkSizedPair
  split
  · next tag body =>
    split
    · next hpair =>
      have hrecord : s.isRecord body.typeName = true := (Bool.and_eq_true_iff.mp hpair).2
      exact .pair (.inl rfl) (.inl ⟨rfl, hrecord⟩)
    · exact h
  · exact h

theorem inline {config : Config} {owner : String} :
    SizeFirst s (fields.flatMap (s.pieces config owner)) := by
  cases h with
  | unsized h =>
    refine .unsized fun g hg => ?_
    rcases mem_inline Schema.inlines_pieces hg with ⟨hg, -⟩ | ⟨f, -, -, tag, data, -, hor, hin⟩
    · exact h g hg
    · cases hin with
      | pair _ htag _ hdata =>
        rcases hor with rfl | rfl
        · rcases htag with hm | hm <;> rw [hm] <;> exact ⟨nofun, nofun⟩
        · rcases hdata with hm | hm | hm <;> rw [hm] <;> exact ⟨nofun, nofun⟩
  | @pair size body hsize hbody =>
    -- neither of the two is plain
    have hsize' : size.marshal ≠ .plain := by rcases hsize with hm | hm <;> rw [hm] <;> exact nofun
    have hbody' : body.marshal ≠ .plain := by
      rcases hbody with ⟨hm, -⟩ | hm <;> rw [hm] <;> exact nofun
    rw [List.flatMap_cons, List.flatMap_singleton, Schema.pieces_eq_self hsize',
      Schema.pieces_eq_self hbody']
    exact .pair hsize hbody

/-- Neither of the two is an array with a count, so that both stay. -/
theorem imply {f : Field} (hf : f ∈ fields) {name element : String} {domain : Domain} :
    SizeFirst s (Schema.implyLength name
      (if f.marshal == .countedArray then f.partner else none) element domain fields) := by
  cases h with
  | unsized h =>
    refine .unsized fun g hg => ?_
    rcases mem_implyLength hg with hg | hm
    · exact h g hg
    · rw [hm]
      exact ⟨nofun, nofun⟩
  | @pair size body hsize hbody =>
    have hcount : (f.marshal == .countedArray) = false := by
      rcases List.mem_pair.mp hf with rfl | rfl
      · rcases hsize with hm | hm <;> rw [hm] <;> rfl
      · rcases hbody with ⟨hm, -⟩ | hm <;> rw [hm] <;> rfl
    rw [hcount, if_neg Bool.false_ne_true]
    have changed : SizeFirst s (Extraction.changeFirst name (fun f =>
        { f with marshal := .restArray, typeName := element, domain, partner := none })
        [size, body]) := by
      unfold Extraction.changeFirst
      split
      · exact .pair (.inr rfl) hbody
      · unfold Extraction.changeFirst
        split
        · exact .pair hsize (.inr rfl)
        · exact .pair hsize hbody
    rw [← modify_findIdx?] at changed
    exact changed

end Passes

/-- What has a union-typed field has no length of a structure. -/
theorem tail {x : Record} {owner selector null : String} {parts : List Schema.TailField}
    (h : SizeFirst s x.fields) (ht : s.tailFields owner x = .ok parts)
    (hlast : parts.getLast?.bind (·.selector) = some selector) :
    SizeFirst s (Schema.withNullTail parts selector null x).fields := by
  obtain ⟨hparts, -⟩ := tailFields_eq_ok ht
  generalize hfields : x.fields = fields at h hparts
  cases h with
  | unsized h =>
    refine .unsized fun g hg => ?_
    rcases mem_makePlain hg with hg | hm
    · rcases mem_withPlain hg with hg | hm
      · exact h g (hfields ▸ hg)
      · rw [hm]
        exact ⟨nofun, nofun⟩
    · rw [hm]
      exact ⟨nofun, nofun⟩
  | @pair size body hsize hbody =>
    have hsize' : (size.marshal == .unionBody) = false := by
      rcases hsize with hm | hm <;> rw [hm] <;> rfl
    have hbody' : (body.marshal == .unionBody) = false := by
      rcases hbody with ⟨hm, -⟩ | hm <;> rw [hm] <;> rfl
    simp only [List.filter_cons, hsize', hbody', List.filter_nil, List.map_nil,
      List.map_eq_nil_iff, Bool.false_eq_true, ↓reduceIte] at hparts
    rw [hparts] at hlast
    cases hlast

end SizeFirst

/-- If the type is a structure, its fields are as its tables or sized pairs have them. -/
def TypeEntry.SizeFirst (s : Schema) (t : TypeEntry) : Prop :=
  ∀ x, t.record? = some x → WireTables.SizeFirst s x.fields

namespace TypeEntry.SizeFirst

variable {s : Schema} {t : TypeEntry}

theorem mapRecord {f : Record → Record} (h : t.SizeFirst s)
    (hf : ∀ x, t.record? = some x → WireTables.SizeFirst s x.fields →
      WireTables.SizeFirst s (f x).fields) : (t.mapRecord f).SizeFirst s := by
  obtain ⟨id, specName, name, comment, implemented, kind⟩ := t
  cases kind with
  | record x =>
    rintro _ ⟨⟩
    exact hf x rfl (h x rfl)
  | _ => exact h

/-- A structure without fields. -/
theorem of_nil {x : Record} (hk : t.kind = .record x) (hx : x.fields = []) : t.SizeFirst s := by
  intro y hy
  unfold record? at hy
  rw [hk] at hy
  cases hy
  rw [hx]
  exact .unsized unsized_nil

end TypeEntry.SizeFirst

namespace Schema

/-- Names are unique, and lengths of structures stand in front of these. -/
def SizesFirst (s : Schema) : Prop :=
  s.Shaped (TypeEntry.SizeFirst s)

variable {s s' : Schema} {touched : String → Prop}

/-- Names of structures stay names of structures. -/
theorem SizesFirst.becomes (h : s'.Shaped (TypeEntry.SizeFirst s)) (hnames : s.names.Nodup)
    (hb : s.Becomes touched s') : s'.SizesFirst :=
  ⟨h.names, fun t ht x hx => (h.entries t ht x hx).mono fun _ => hb.isRecord hnames⟩

/-- The structure that was found under a name is changed. -/
theorem SizesFirst.modifyRecord {name : String} {found : Record} {f : Record → Record}
    (h : s.SizesFirst) (hl : (s.lookup? name).bind TypeEntry.record? = some found)
    (hf : SizeFirst s found.fields → SizeFirst s (f found).fields) :
    (s.modifyRecord name f).Shaped (TypeEntry.SizeFirst s) := by
  refine Shaped.modifyType h (TypeEntry.specName_mapRecord f) fun t ht hn hp =>
    hp.mapRecord fun x hx hfields => ?_
  rw [← hn, lookup?_of_mem h.names ht] at hl
  cases hx.symm.trans hl
  exact hf hfields

theorem Tabled.sizesFirst (h : s.Tabled) : s.SizesFirst :=
  ⟨h.names, fun _ ht _ hx => .unsized (h.record ht hx).unsized⟩

end Schema

namespace Edit

open Schema

variable {config : Config} {r r' : Registry} {n : Nat}

theorem sizesFirst_of_reshapes (h : r.SizesFirst) (hstep : Reshapes config r r') :
    r'.SizesFirst := by
  have hb : r.Becomes (fun _ => True) r'.toSchema := becomes_of_reshapes hstep
  refine .becomes ?_ h.names hb
  cases hstep with
  | pairs =>
    exact Shaped.map h rfl (fun t => TypeEntry.specName_mapRecord _ t) fun t _ ht =>
      ht.mapRecord fun _ _ hx => hx.link
  | rewrite hstep =>
    cases hstep with
    | inline lookup inlined =>
      refine SizesFirst.modifyRecord h lookup fun hx => ?_
      rw [inlineFields_eq_ok inlined]
      exact hx.inline
    | imply listed lookup field =>
      exact SizesFirst.modifyRecord h lookup fun hx => hx.imply (List.mem_of_find?_eq_some field)
    | remember => exact h
    | note name sizes =>
      exact Shaped.modifyType h (TypeEntry.specName_mapRecord _) fun t _ _ ht =>
        ht.mapRecord fun _ _ hx => hx
    | tail lookup before tail last =>
      exact SizesFirst.modifyRecord h lookup fun hx => hx.tail tail last
    | drop => exact Shaped.modifyType h (fun _ => rfl) fun t _ _ ht => ht

theorem sizesFirst_of_separates {union : String} (h : r.SizesFirst)
    (hstep : Separates union r r') : r'.SizesFirst := by
  refine .becomes ?_ h.names (becomes_of_separates hstep)
  cases hstep with
  | derive target moved =>
    refine Shaped.ensureAfter ?_ moved
    exact Shaped.modifyType h (fun _ => rfl) fun t _ _ _ => .of_nil rfl rfl
  | add added => exact Shaped.addType h added fun id => .of_nil rfl rfl
  | rename index type =>
    refine Shaped.modifyType h (TypeEntry.specName_mapUnion _) fun t _ _ ht => ?_
    obtain ⟨id, specName, name, comment, implemented, kind⟩ := t
    cases kind <;> exact ht

/-- The lengths of structures in normal form stand in front of these. -/
theorem sizesFirst_of_passes (h : Passes config r r') (hr : r.SizesFirst) : r'.SizesFirst := by
  refine invariant_of_passes (I := fun r => r.SizesFirst) h hr (fun _ _ => sizesFirst_of_reshapes)
    (fun union m r₁ r₂ h₁ hy => ?_) fun r₁ h₁ => ?_
  · exact invariant_of_steps (I := fun r => r.SizesFirst) (separates_separateUnion hy) h₁
      fun _ _ => sizesFirst_of_separates
  · exact .becomes (Shaped.map h₁ rfl (fun t => TypeEntry.specName_mapRecord _ t) fun t _ ht =>
      ht.mapRecord fun _ _ hx => hx) h₁.names (becomes_linkUnions r₁.toSchema fun _ => True).1

end Edit

theorem Registry.Normalized.sizesFirst {tables : List Table} {config : Config} {r : Registry}
    (hr : r.Normalized tables config) : r.SizesFirst := by
  obtain ⟨r₀, report, hextract, hy⟩ := hr
  exact Edit.sizesFirst_of_passes (Edit.passes_of_normalize hy).1
    (Extraction.tabled_of_extract hextract).2.sizesFirst

end WireTables
