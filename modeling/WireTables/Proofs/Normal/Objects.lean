import WireTables.Proofs.Additions
import WireTables.Proofs.Normal.Inlining
import WireTables.Proofs.Normal.Steps

/-!
# Objects of selectors

A row of a union type makes an earlier field its selector, and a selector names as its object the
last field that did so. The object need not stay a union-typed field: it may be an array at once, it
may become the count or the selector of a later row, and passes turn fields into arrays that take
the rest of their region. That is all (`Field.IsObject`), and the object goes away only with a count
that is no longer needed. Structures whose tail may be absent are left out, because there
union-typed fields become plain.
-/

namespace WireTables

/-- What a union-typed field can become: an array, or the count or selector of another field. -/
def Marshal.isReused : Marshal → Bool
  | .selectedArray | .countedArray | .fixedArray | .restArray | .count | .selector => true
  | _ => false

namespace Field

/-- The field is of a union whose member the selector chooses, or what such a field can become. -/
def IsObject (selector : String) (u : Field) : Prop :=
  u.marshal = .unionBody ∧ u.partner = some selector ∨ u.marshal.isReused = true

/-- The field travels under its name as before, or has become one of what it can become. -/
structure GoesOn (u u' : Field) : Prop where
  name : u'.name = u.name
  marshal : u'.marshal = u.marshal ∧ u'.partner = u.partner ∨ u'.marshal.isReused = true

variable {selector : String} {u u' : Field}

theorem GoesOn.refl (u : Field) : u.GoesOn u :=
  ⟨rfl, .inl ⟨rfl, rfl⟩⟩

theorem IsObject.goesOn (h : u.IsObject selector) (hg : u.GoesOn u') : u'.IsObject selector := by
  rcases hg.marshal with ⟨hm, hp⟩ | hm
  · unfold IsObject
    rwa [hm, hp]
  · exact .inr hm

theorem IsObject.not_plain (h : u.IsObject selector) : u.marshal ≠ .plain := by
  intro hm
  unfold IsObject at h
  rw [hm] at h
  rcases h with ⟨h, -⟩ | h <;> cases h

end Field

/-- Among the fields is what the selector names as its object. -/
def ObjectOf (fields : List Field) (f : Field) : Prop :=
  ∀ object, f.partner = some object → ∃ u ∈ fields, u.name = object ∧ u.IsObject f.name

/-- Among the fields is the object of each selector. -/
def ObjectsThere (fields : List Field) : Prop :=
  ∀ f ∈ fields, f.marshal = .selector → ObjectOf fields f

/-- Among the fields is the object of each selector, if there is any field of its name. -/
def ObjectsKept (fields : List Field) : Prop :=
  ∀ f ∈ fields, f.marshal = .selector →
    (∀ u ∈ fields, f.partner ≠ some u.name) ∨ ObjectOf fields f

section Fields

variable {fields fields' : List Field} {f : Field}

theorem ObjectOf.goesOn (h : ObjectOf fields f)
    (hu : ∀ u ∈ fields, u.marshal ≠ .plain → ∃ u' ∈ fields', u.GoesOn u') : ObjectOf fields' f := by
  intro object hobject
  obtain ⟨u, hmem, hname, hof⟩ := h object hobject
  obtain ⟨u', hmem', hgoes⟩ := hu u hmem hof.not_plain
  exact ⟨u', hmem', hgoes.name.trans hname, hof.goesOn hgoes⟩

/-- Selectors are old ones or have their object, and no field but plain ones goes away. -/
theorem ObjectsThere.goesOn (h : ObjectsThere fields)
    (hu : ∀ u ∈ fields, u.marshal ≠ .plain → ∃ u' ∈ fields', u.GoesOn u')
    (hselector : ∀ f ∈ fields', f.marshal = .selector → f ∈ fields ∨ ObjectOf fields' f) :
    ObjectsThere fields' := by
  intro f hf hm
  rcases hselector f hf hm with hf | hof
  · exact (h f hf hm).goesOn hu
  · exact hof

theorem ObjectsThere.kept (h : ObjectsThere fields) : ObjectsKept fields :=
  fun f hf hm => .inr (h f hf hm)

/-- Without selectors there is nothing to say. -/
theorem objectsThere_of_none (h : ∀ f ∈ fields, f.marshal ≠ .selector) : ObjectsThere fields :=
  fun f hf hm => (h f hf hm).elim

theorem exists_goesOn_changeFirst {name : String} {change : Field → Field}
    (hchange : ∀ u : Field, u.GoesOn (change u)) {u : Field} (hu : u ∈ fields) :
    ∃ u' ∈ Extraction.changeFirst name change fields, u.GoesOn u' := by
  have hrel : List.Forall₂ Field.GoesOn fields (Extraction.changeFirst name change fields) :=
    forall₂_changeFirst .refl hchange
  clear hchange
  generalize Extraction.changeFirst name change fields = fields' at hrel
  induction hrel with
  | nil => cases hu
  | cons hgoes _ ih =>
    rcases List.mem_cons.mp hu with rfl | hu
    · exact ⟨_, List.mem_cons_self, hgoes⟩
    · obtain ⟨u', hu', hgoes'⟩ := ih hu
      exact ⟨u', List.mem_cons_of_mem _ hu', hgoes'⟩

end Fields

namespace Extraction

variable {fields fields' : List Field} {f f' : Field} {owner : String}

/-- The field that is selected is the object of the selector. -/
theorem objectsThere_linkSelector {selector : Option String} (h : ObjectsThere fields)
    (hf : f.marshal ≠ .selector) (hl : linkSelector owner fields f selector = .ok (fields', f')) :
    ObjectsThere (fields' ++ [f']) := by
  unfold linkSelector at hl
  split at hl
  · cases hl
    refine h.goesOn (fun u hu _ => ⟨u, List.mem_append_left _ hu, .refl u⟩) fun g hg hm => ?_
    rcases List.mem_append.mp hg with hg | hg
    · exact .inl hg
    · rw [List.mem_singleton.mp hg] at hm
      exact (hf hm).elim
  · next tag =>
    split at hl
    · cases hl
      have hold : ∀ u ∈ fields, ∃ u' ∈ changeFirst tag
          (fun tag => { tag with marshal := .selector, partner := some f.name }) fields,
            u.GoesOn u' :=
        fun u hu => exists_goesOn_changeFirst (by exact fun _ => ⟨rfl, .inr rfl⟩) hu
      refine h.goesOn (fun u hu _ => ?_) fun g hg hm => ?_
      · obtain ⟨u', hu', hgoes⟩ := hold u hu
        exact ⟨u', List.mem_append_left _ hu', hgoes⟩
      · rcases List.mem_append.mp hg with hg | hg
        · rcases mem_changeFirst hg with hg | ⟨x, -, hname, rfl⟩
          · exact .inl hg
          · right
            rintro _ ⟨⟩
            exact ⟨_, List.mem_append_right _ List.mem_cons_self, rfl, .inl ⟨rfl, by rw [hname]⟩⟩
        · rw [List.mem_singleton.mp hg] at hm
          cases hm
    · cases hl

theorem objectsThere_linkCount {array : Option String} (h : ObjectsThere (fields ++ [f]))
    (hl : linkCount fields f array = (fields', f')) : ObjectsThere (fields' ++ [f']) := by
  -- the new field is an array now, and perhaps another one is its count
  have array_ : ∀ {counted : List Field} {g : Field},
      (∀ u ∈ fields, ∃ u' ∈ counted, u.GoesOn u') →
      (∀ x ∈ counted, x.marshal = .selector → x ∈ fields) → f.GoesOn g → g.marshal ≠ .selector →
        ObjectsThere (counted ++ [g]) := by
    intro counted g hold hselector hgoes hg
    refine h.goesOn (fun u hu _ => ?_) fun x hx hm => .inl ?_
    · rcases List.mem_append.mp hu with hu | hu
      · obtain ⟨u', hu', hgoes'⟩ := hold u hu
        exact ⟨u', List.mem_append_left _ hu', hgoes'⟩
      · rw [List.mem_singleton.mp hu]
        exact ⟨g, List.mem_append_right _ List.mem_cons_self, hgoes⟩
    · rcases List.mem_append.mp hx with hx | hx
      · exact List.mem_append_left _ (hselector x hx hm)
      · rw [List.mem_singleton.mp hx] at hm
        exact (hg hm).elim
  have same : ∀ u ∈ fields, ∃ u' ∈ fields, u.GoesOn u' := fun u hu => ⟨u, hu, .refl u⟩
  unfold linkCount at hl
  split at hl
  · cases hl
    exact h
  · split at hl
    · cases hl
      exact array_ same (fun _ hx _ => hx) ⟨rfl, .inr rfl⟩ nofun
    · split at hl
      · cases hl
        refine array_ (fun u hu => exists_goesOn_changeFirst (by exact fun _ => ⟨rfl, .inr rfl⟩) hu)
          (fun x hx hm => ?_) ⟨rfl, .inr rfl⟩ nofun
        rcases mem_changeFirst hx with hx | ⟨y, -, -, rfl⟩
        · exact hx
        · cases hm
      · cases hl
        exact array_ same (fun _ hx _ => hx) ⟨rfl, .inr rfl⟩ nofun

/-- Rows keep the objects of selectors. -/
theorem rowsKeep_objectsThere : RowsKeep ObjectsThere where
  nil := fun _ hf => (List.not_mem_nil hf).elim
  addField := by
    intro owner fields row fields' h ha
    unfold addField at ha
    obtain ⟨g, hg, ha⟩ := bind_eq_ok.mp ha
    obtain ⟨⟨linked, g₁⟩, hl, ha⟩ := bind_eq_ok.mp ha
    have hplain : g.marshal ≠ .selector := by
      unfold plainField at hg
      obtain ⟨domain, -, hg⟩ := bind_eq_ok.mp hg
      split at hg <;> cases hg <;> exact nofun
    have hlinked := objectsThere_linkSelector h hplain hl
    cases hc : linkCount linked g₁ row.array with
    | mk counted g₂ =>
      simp only [hc] at ha
      cases ha
      exact objectsThere_linkCount hlinked hc
  handle := by
    intro fields f isHandle h g hg hm
    have goes : ∀ u ∈ fields ++ [f], u.marshal ≠ .plain →
        ∃ u' ∈ fields ++ [{ f with isHandle }], u.GoesOn u' := by
      intro u hu _
      rcases List.mem_append.mp hu with hu | hu
      · exact ⟨u, List.mem_append_left _ hu, .refl u⟩
      · rw [List.mem_singleton.mp hu]
        exact ⟨_, List.mem_append_right _ List.mem_cons_self, rfl, .inl ⟨rfl, rfl⟩⟩
    rcases List.mem_append.mp hg with hg | hg
    · exact (h g (List.mem_append_left _ hg) hm).goesOn goes
    · rw [List.mem_singleton.mp hg] at hm ⊢
      have hof := (h f (List.mem_append_right _ List.mem_cons_self) hm).goesOn goes
      exact fun object hobject => hof object hobject

/-- Fields that become byte arrays are still objects. -/
theorem objectsThere_selectArrays {change : Field → Field} (h : ObjectsThere fields)
    (hchange : ∀ f, change f = f ∨ change f = { f with marshal := .selectedArray }) :
    ObjectsThere (fields.map change) := by
  refine h.goesOn (fun u hu _ => ⟨change u, List.mem_map_of_mem hu, ?_⟩) fun f hf hm => ?_
  · rcases hchange u with heq | heq <;> rw [heq]
    · exact .refl u
    · exact ⟨rfl, .inr rfl⟩
  · obtain ⟨g, hg, rfl⟩ := List.mem_map.mp hf
    rcases hchange g with heq | heq
    · exact .inl (heq.symm ▸ hg)
    · rw [heq] at hm
      cases hm

end Extraction

/-- If the type is a structure, it has the property. -/
def TypeEntry.Records (p : Record → Prop) (t : TypeEntry) : Prop :=
  ∀ x, t.record? = some x → p x

namespace TypeEntry.Records

variable {p q : Record → Prop} {t : TypeEntry}

theorem mapRecord {f : Record → Record} (h : t.Records p) (hf : ∀ x, p x → q (f x)) :
    (t.mapRecord f).Records q := by
  intro y hy
  rw [record?_mapRecord] at hy
  obtain ⟨x, hx, rfl⟩ := Option.map_eq_some_iff.mp hy
  exact hf x (h x hx)

theorem of_kind {x : Record} (hk : t.kind = .record x) (hx : p x) : t.Records p := by
  intro y hy
  unfold record? at hy
  rw [hk] at hy
  cases hy
  exact hx

theorem imp (h : t.Records p) (hpq : ∀ x, p x → q x) : t.Records q :=
  fun x hx => hpq x (h x hx)

end TypeEntry.Records

/-- A structure without an absent tail in which each selector has its object. -/
structure Record.HasObjects (x : Record) : Prop where
  tail : x.nullTail = none
  objects : ObjectsThere x.fields

/-- A structure without an absent tail in which no selector names another field than its object. -/
structure Record.KeepsObjects (x : Record) : Prop where
  tail : x.nullTail = none
  objects : ObjectsKept x.fields

/-- A structure that keeps the objects of its selectors unless it was given an absent tail. -/
def Record.KeepsUnlessTailed (config : Config) (x : Record) : Prop :=
  x.KeepsObjects ∨ config.nullTails ≠ [] ∧ x.nullTail.isSome = true

namespace Extraction

theorem hasObjects_of_extract {tables : List Table} {config : Config} {r : Registry}
    {report : ExtractionReport} (h : extract tables config = .ok (r, report)) :
    r.toSchema.Shaped (TypeEntry.Records Record.HasObjects) := by
  have htabled := (tabled_of_extract h).2
  refine ⟨htabled.names, fun t ht x hx => ⟨(htabled.record ht hx).tail, ?_⟩⟩
  unfold extract at h
  obtain ⟨⟨report', s⟩, hadd, h⟩ := bind_eq_ok.mp h
  have hfields : ∀ t ∈ s.types, t.Records fun x => ObjectsThere x.fields :=
    fieldsMeet_of_addTables rowsKeep_objectsThere hadd fun t ht x hx => by
      have hnone : ∀ t ∈ Schema.elementary, t.record? = none := by decide
      cases (hnone t ht).symm.trans hx
  have hselected : ∀ t ∈ (selectArrays s).types, t.Records fun x => ObjectsThere x.fields := by
    intro t hmem
    obtain ⟨u, hu, rfl⟩ := List.mem_map.mp hmem
    refine (hfields u hu).mapRecord fun x hx => objectsThere_selectArrays hx fun f => ?_
    split
    · exact .inr rfl
    · exact .inl rfl
  have hlinked : ∀ t ∈ (selectArrays s).linkUnions.types,
      t.Records fun x => ObjectsThere x.fields := by
    intro t hmem
    obtain ⟨u, hu, rfl⟩ := List.mem_map.mp hmem
    exact (hselected u hu).mapRecord fun x hx => hx
  simp only at h
  split at h
  · next r' hcheck =>
    cases h
    obtain ⟨known, -, rfl⟩ := Registry.yields_of_calculate hcheck
    exact hlinked t ht x hx
  · cases h

end Extraction

section Steps

variable {s : Schema} {fields : List Field}

/-- The two fields of a sized pair are plain. -/
theorem objectsThere_linkSizedPair (h : ObjectsThere fields) :
    ObjectsThere ((s.linkSizedPair fields).getD fields) := by
  unfold Schema.linkSizedPair
  split
  · split
    · refine objectsThere_of_none fun f hf => ?_
      rcases List.mem_pair.mp hf with rfl | rfl <;> exact nofun
    · exact h
  · exact h

/-- The selector that a field of wrapper type brings has its object beside it. -/
theorem ObjectsThere.inline {parts : Field → List Field} (h : ObjectsThere fields)
    (hparts : ∀ f, Inlines f (parts f)) : ObjectsThere (fields.flatMap parts) := by
  refine h.goesOn (fun u hu hm => ⟨u, ?_, .refl u⟩) fun f hf hm => ?_
  · have hout := hparts u
    generalize hp : parts u = out at hout
    cases hout with
    | kept => exact List.mem_flatMap.mpr ⟨u, hu, hp ▸ List.mem_cons_self⟩
    | pair hplain => exact (hm hplain).elim
  · rcases mem_inline hparts hf with ⟨hf, -⟩ | ⟨g, hg, -, tag, data, hp, hor, hin⟩
    · exact .inl hf
    · right
      cases hin with
      | pair _ _ hpartner hdata hname hback =>
        rcases hor with rfl | rfl
        · intro object hobject
          cases hpartner.symm.trans hobject
          refine ⟨data, List.mem_flatMap.mpr ⟨g, hg, ?_⟩, hname, ?_⟩
          · rw [hp]
            exact List.mem_cons_of_mem _ List.mem_cons_self
          · rcases hdata with hd | hd | hd
            · exact .inr (hd ▸ rfl)
            · exact .inl ⟨hd, hback⟩
            · exact .inr (hd ▸ rfl)
        · rcases hdata with hd | hd | hd <;> cases hd.symm.trans hm

/-- A count that is no longer needed takes away all that have its name. -/
theorem ObjectsKept.imply {name element : String} {count : Option String} {domain : Domain}
    (h : ObjectsKept fields) :
    ObjectsKept (Schema.implyLength name count element domain fields) := by
  -- the field becomes an array
  have change : ∀ {l : List Field}, ObjectsKept l → ObjectsKept (Extraction.changeFirst name
      (fun f => { f with marshal := .restArray, typeName := element, domain, partner := none })
      l) := by
    intro l hl f hf hm
    rcases mem_changeFirst hf with hf | ⟨g, -, -, rfl⟩
    · rcases hl f hf hm with hnone | hof
      · refine .inl fun u hu => ?_
        rcases mem_changeFirst hu with hu | ⟨g, hg, -, rfl⟩
        · exact hnone u hu
        · exact hnone g hg
      · exact .inr (hof.goesOn fun u hu _ =>
          exists_goesOn_changeFirst (by exact fun _ => ⟨rfl, .inr rfl⟩) hu)
    · cases hm
  have filter : ∀ count : String, ObjectsKept (fields.filter (·.name != count)) := by
    intro count f hf hm
    rcases h f (List.mem_of_mem_filter hf) hm with hnone | hof
    · exact .inl fun u hu => hnone u (List.mem_of_mem_filter hu)
    · by_cases hcount : f.partner = some count
      · refine .inl fun u hu heq => ?_
        have hne := (List.mem_filter.mp hu).2
        rw [hcount, Option.some.injEq] at heq
        simp [heq] at hne
      · refine .inr fun object hobject => ?_
        obtain ⟨u, hu, hname, hobj⟩ := hof object hobject
        refine ⟨u, List.mem_filter.mpr ⟨hu, ?_⟩, hname, hobj⟩
        have hne : u.name ≠ count := by
          rintro rfl
          exact hcount (hname ▸ hobject)
        simpa using hne
  cases count with
  | none =>
    have := change h
    rw [← modify_findIdx?] at this
    exact this
  | some count =>
    have := change (filter count)
    rw [← modify_findIdx?] at this
    exact this

end Steps

namespace Schema

variable {s : Schema} {p : Record → Prop}

/-- The structure that was found under a name is changed. -/
theorem Shaped.modifyRecords {name : String} {found : Record} {f : Record → Record}
    (h : s.Shaped (TypeEntry.Records p))
    (hl : (s.lookup? name).bind TypeEntry.record? = some found) (hf : p found → p (f found)) :
    (s.modifyRecord name f).Shaped (TypeEntry.Records p) := by
  refine h.modifyType (TypeEntry.specName_mapRecord f) fun t ht hn hp y hy => ?_
  rw [← hn, lookup?_of_mem h.names ht] at hl
  rw [TypeEntry.record?_mapRecord] at hy
  obtain ⟨x, hx, rfl⟩ := Option.map_eq_some_iff.mp hy
  cases hx.symm.trans hl
  exact hf (hp _ hx)

/-- Wrappers are inlined in one structure after the other. -/
theorem Shaped.inlining {config : Config} {s' : Schema} (h : Inlining config s s')
    (hs : s.Shaped (TypeEntry.Records Record.HasObjects)) :
    s'.Shaped (TypeEntry.Records Record.HasObjects) := by
  induction h with
  | start => exact hs
  | @inline s₁ name _ _ ih =>
    have hparts : ∀ owner f,
        Inlines f (if owner = name then s₁.pieces config owner f else [f]) := by
      intro owner f
      split
      · exact inlines_pieces f
      · exact .kept
    exact ih.map rfl (fun t => TypeEntry.specName_expand) fun t _ hp => hp.mapRecord fun x hx =>
      ⟨hx.tail, hx.objects.inline (hparts t.specName)⟩

end Schema

namespace Edit

open Schema

variable {config : Config} {r r' : Registry} {n : Nat}

theorem keepsObjects_implyLengthOf {ref : FieldRef}
    (h : r.Shaped (TypeEntry.Records Record.KeepsObjects)) (hy : Yields (implyLengthOf ref) r n r') :
    r'.Shaped (TypeEntry.Records Record.KeepsObjects) := by
  unfold implyLengthOf at hy
  obtain ⟨_, _, hs, hy⟩ := yields_bind.mp hy
  obtain ⟨rfl, rfl⟩ := yields_schema.mp hs
  split at hy
  · obtain ⟨-, rfl⟩ := yields_pure.mp hy
    exact h
  · next found hfound =>
    split at hy
    · exact (not_yields_throw hy).elim
    · dsimp only at hy
      split at hy
      · obtain ⟨-, rfl⟩ := yields_pure.mp hy
        exact h
      · split at hy
        · exact (not_yields_throw hy).elim
        · obtain ⟨_, _, hupdate, hend⟩ := yields_bind.mp hy
          obtain ⟨-, rfl⟩ := yields_pure.mp hend
          rw [yields_update.mp hupdate]
          exact h.modifyRecords hfound fun hx => ⟨hx.tail, hx.objects.imply⟩

theorem keepsObjects_implyLengths (h : r.Shaped (TypeEntry.Records Record.KeepsObjects))
    (hy : Yields (implyLengths config) r n r') :
    r'.Shaped (TypeEntry.Records Record.KeepsObjects) := by
  refine Yields.foldlM (I := fun r => r.Shaped (TypeEntry.Records Record.KeepsObjects)) hy h
    fun ref _ count r n r' hr hy => ?_
  obtain ⟨m, r₂, hm, hy⟩ := yields_bind.mp hy
  obtain ⟨-, rfl⟩ := yields_pure.mp hy
  exact keepsObjects_implyLengthOf hr hm

theorem keepsObjects_noteSessionPrefixes (h : r.Shaped (TypeEntry.Records Record.KeepsObjects))
    (hy : Yields noteSessionPrefixes r n r') :
    r'.Shaped (TypeEntry.Records Record.KeepsObjects) := by
  unfold noteSessionPrefixes at hy
  obtain ⟨found, _, hcalculate, hy⟩ := yields_bind.mp hy
  obtain ⟨known, -, rfl⟩ := yields_calculate hcalculate
  obtain ⟨_, r₁, hloop, hy⟩ := yields_bind.mp hy
  obtain ⟨-, rfl⟩ := yields_pure.mp hy
  refine hloop.forM (I := fun r => r.Shaped (TypeEntry.Records Record.KeepsObjects)) h
    fun x _ r r' hr hy => ?_
  rw [yields_update.mp hy]
  exact hr.modifyType (TypeEntry.specName_mapRecord _) fun t _ _ ht =>
    ht.mapRecord fun x hx => ⟨hx.tail, hx.objects⟩

section Tails

variable (h : r.Shaped (TypeEntry.Records (Record.KeepsUnlessTailed config)))

include h

/-- Only configured structures get absent tails. -/
theorem keepsObjects_markNullTails (hy : Yields (markNullTails config) r n r') :
    r'.Shaped (TypeEntry.Records (Record.KeepsUnlessTailed config)) := by
  unfold markNullTails at hy
  obtain ⟨unions, r₁, hmark, hy⟩ := yields_bind.mp hy
  obtain ⟨_, r₂, hdrop, hy⟩ := yields_bind.mp hy
  obtain ⟨-, rfl⟩ := yields_pure.mp hy
  obtain ⟨hmarked, -⟩ := hmark.filterMapM
    (I := fun s => s.Shaped (TypeEntry.Records (Record.KeepsUnlessTailed config)))
    (R := fun _ => True) h fun name hname s y s' hs hy => by
      refine ⟨?_, fun _ _ => trivial⟩
      rcases markNullTail_cases hy with ⟨-, rfl⟩ | ⟨found, tail, selector, hfound, -, -, -, -, rfl⟩
      · exact hs
      · exact hs.modifyRecords hfound fun _ => .inr ⟨List.ne_nil_of_mem hname, rfl⟩
  refine hdrop.forM (I := fun s => s.Shaped (TypeEntry.Records (Record.KeepsUnlessTailed config)))
    hmarked fun union _ s s' hs hy => ?_
  rcases dropUnusedUnion_cases hy with rfl | ⟨-, rfl⟩
  · exact hs
  · exact hs.modifyType (fun _ => rfl) fun t _ _ ht => ht

theorem keepsObjects_of_separates {union : String} (hstep : Separates union r r') :
    r'.Shaped (TypeEntry.Records (Record.KeepsUnlessTailed config)) := by
  -- a structure that is derived has no fields of its own
  have derived : ∀ {x : Record}, x.nullTail = none → x.fields = [] →
      x.KeepsUnlessTailed config := by
    intro x htail hfields
    refine .inl ⟨htail, ?_⟩
    rw [hfields]
    exact fun _ hf => (List.not_mem_nil hf).elim
  cases hstep with
  | derive target moved =>
    refine Shaped.ensureAfter ?_ moved
    exact h.modifyType (fun _ => rfl) fun t _ _ _ => .of_kind rfl (derived rfl rfl)
  | add added => exact h.addType added fun id => .of_kind rfl (derived rfl rfl)
  | rename index type =>
    refine h.modifyType (TypeEntry.specName_mapUnion _) fun t _ _ ht => ?_
    obtain ⟨id, specName, name, comment, implemented, kind⟩ := t
    cases kind <;> exact ht

end Tails

/-- In normal form no selector names another field than its object, but in a structure whose tail
may be absent. -/
theorem keepsObjects_of_passes (hp : Passes config r r')
    (h : r.Shaped (TypeEntry.Records Record.HasObjects)) :
    r'.Shaped (TypeEntry.Records (Record.KeepsUnlessTailed config)) := by
  obtain ⟨hpairs, hwrappers, hlengths, hprefixes, htails, hunions⟩ := hp
  rename_i r₁ r₂ r₃ r₄ r₅ r₆ _ _ _ _ _ _
  have h₁ : r₁.Shaped (TypeEntry.Records Record.HasObjects) := by
    obtain ⟨_, _, hs, hy⟩ := yields_bind.mp hpairs
    obtain ⟨rfl, rfl⟩ := yields_schema.mp hs
    obtain ⟨_, _, hupdate, hend⟩ := yields_bind.mp hy
    obtain ⟨-, rfl⟩ := yields_pure.mp hend
    rw [yields_update.mp hupdate]
    exact h.map rfl (fun t => TypeEntry.specName_mapRecord _ t) fun t _ ht =>
      ht.mapRecord fun x hx => ⟨hx.tail, objectsThere_linkSizedPair hx.objects⟩
  have h₂ : r₂.Shaped (TypeEntry.Records Record.KeepsObjects) := by
    have hinlined := Shaped.inlining (inlining_of_inlineWrappers h₁.names hwrappers .start).1.1 h₁
    exact ⟨hinlined.names, fun t ht => (hinlined.entries t ht).imp fun x hx =>
      ⟨hx.tail, hx.objects.kept⟩⟩
  have h₄ := keepsObjects_noteSessionPrefixes (keepsObjects_implyLengths h₂ hlengths) hprefixes
  have h₅ : r₅.Shaped (TypeEntry.Records (Record.KeepsUnlessTailed config)) :=
    keepsObjects_markNullTails ⟨h₄.names, fun t ht => (h₄.entries t ht).imp fun x hx => .inl hx⟩
      htails
  have h₆ : r₆.Shaped (TypeEntry.Records (Record.KeepsUnlessTailed config)) :=
    invariant_of_separateUnions
      (I := fun r => r.Shaped (TypeEntry.Records (Record.KeepsUnlessTailed config))) hunions h₅
      fun union m s s' hs hy => invariant_of_steps
        (I := fun r => r.Shaped (TypeEntry.Records (Record.KeepsUnlessTailed config)))
        (separates_separateUnion hy) hs fun _ _ hs hstep => keepsObjects_of_separates hs hstep
  exact h₆.map rfl (fun t => TypeEntry.specName_mapRecord _ t) fun t _ ht =>
    ht.mapRecord fun x hx => hx.imp (fun hx => ⟨hx.tail, hx.objects⟩) fun hx => hx

end Edit

/-- What is known of the objects of selectors in normal form. -/
theorem Registry.Normalized.keepsObjects {tables : List Table} {config : Config} {r : Registry}
    (hr : r.Normalized tables config) :
    r.Shaped (TypeEntry.Records (Record.KeepsUnlessTailed config)) := by
  obtain ⟨r₀, report, hextract, hy⟩ := hr
  exact Edit.keepsObjects_of_passes (Edit.passes_of_normalize hy).1
    (Extraction.hasObjects_of_extract hextract)

end WireTables
