import WireTables.Proofs.Normal.Steps
import WireTables.Proofs.Schema.Inheritance
import WireTables.Proofs.Schema.Recast
import WireTables.Proofs.Wire.Fitness

/-!
# Structures that stay ready

What the passes before unions are separated leave of structures that have a layout. Their fields go
on to fit, and two more things are kept with that because a later pass leans on them: a length is of
an elementary type, and so are inherited fields of its name, which come before it in a layout; and
so is the selector of a structure that is to have an absent tail (`Record.Ready`, `Schema.Ready`). A
pass only has to say what it makes of the fields of one structure (`Reworks`).

An array that takes the rest of its region may be made of a wrapper whose array is as long as a
selector says. Then its elements are of the type of a union; such a field is `Stray` and left out.
-/

namespace WireTables

open Wire

/-- A configured field that has become an array of elements of a type that was chosen by selectors.
-/
structure Field.Stray (config : Config) (chosen : String → Prop) (f : Field) : Prop where
  marshal : f.marshal = .restArray
  listed : ∃ ref ∈ config.implicitLengths, ref.field = f.name
  chosen : chosen f.typeName

/-- The field is of an elementary type, or it comes in the place of one of the same name, which is
of the same type or of a structure. -/
def Field.Descends (s : Schema) (f f' : Field) : Prop :=
  (s.scalar? f'.typeName).isSome = true ∨
    f'.name = f.name ∧ (f'.typeName = f.typeName ∨ s.isRecord f.typeName = true)

theorem Field.Descends.refl (s : Schema) (f : Field) : f.Descends s f :=
  .inr ⟨rfl, .inl rfl⟩

/-- Where all fields of a name are elementary, what comes in their place is. -/
theorem Field.Descends.scalar {s : Schema} {f f' : Field} (h : f.Descends s f')
    (hf : f'.name = f.name → (s.scalar? f.typeName).isSome = true) :
    (s.scalar? f'.typeName).isSome = true := by
  rcases h with h | ⟨hname, htype | hrecord⟩
  · exact h
  · exact htype ▸ hf hname
  · have := hf hname
    rw [Schema.scalar?_of_isRecord hrecord] at this
    cases this

/-- The field is the length of a structure. -/
def Field.IsSize (f : Field) : Prop :=
  f.marshal = .bodySize

/-- The field is the length of a structure, or is marked as one. -/
def Field.MayBeSize (f : Field) : Prop :=
  f.marshal = .bodySize ∨ f.sizeMarker = true

/-- What a pass makes of the fields of a structure. What is the length of a structure afterwards was
one of a kind before, under the same name. -/
structure Reworks (size : Field → Prop) (config : Config) (chosen : String → Prop) (s : Schema)
    (fields fields' : List Field) : Prop where
  origin : ∀ f' ∈ fields', ∃ f ∈ fields, f.Descends s f'
  size : ∀ g ∈ fields', g.IsSize → ∃ g' ∈ fields, g'.name = g.name ∧ size g'
  first : ∀ tag g, fields'.find? (·.name == tag) = some g → g.IsSize →
    fields.find? (·.name == tag) = some g ∨ (s.scalar? g.typeName).isSome = true
  body : ∀ f ∈ fields', f.marshal = .sizedBody → f ∈ fields ∨
    ∀ tag g, f.partner = some tag → fields'.find? (·.name == tag) = some g → g.IsSize →
      (s.scalar? g.typeName).isSome = true
  union : ∀ u ∈ fields', u.marshal = .unionBody → u ∈ fields ∨
    ∀ g ∈ fields', u.partner = some g.name → (s.scalar? g.typeName).isSome = true
  fits : ∀ f ∈ fields', f ∈ fields ∨ Suits s f ∨ f.Stray config chosen
  array : ∀ f ∈ fields', f.marshal = .selectedArray → f ∈ fields ∨ chosen f.typeName

/-- A structure whose fields fit. -/
structure Record.Ready (config : Config) (chosen : String → Prop) (s : Schema) (name : String)
    (x : Record) : Prop where
  fits : ∀ f ∈ x.fields, Suits s f ∨ f.Stray config chosen
  array : ∀ f ∈ x.fields, f.marshal = .selectedArray → chosen f.typeName
  size : ∀ f ∈ x.fields, f.marshal = .sizedBody → s.isRecord f.typeName = true →
    ∀ tag g, f.partner = some tag → x.fields.find? (·.name == tag) = some g → g.IsSize →
      (s.scalar? g.typeName).isSome = true
  selector : name ∈ config.nullTails → x.nullTail = none →
    ∀ u ∈ x.fields, u.marshal = .unionBody → ∀ g ∈ x.fields, u.partner = some g.name →
      (s.scalar? g.typeName).isSome = true

/-- A schema whose structures have layouts, as far as that is a matter of their fields. -/
structure Schema.Ready (size : Field → Prop) (config : Config) (chosen : String → Prop)
    (s : Schema) : Prop where
  names : s.names.Nodup
  put : ∀ t ∈ s.types, ∀ x, t.record? = some x → t.implemented = true ∨ x.fields = []
  complete : ∀ t ∈ s.types, t.record?.isSome = true → ∃ fields, s.HasFields t.specName fields
  record : ∀ t ∈ s.types, ∀ x, t.record? = some x → x.Ready config chosen s t.specName
  inherited : ∀ t ∈ s.types, ∀ x, t.record? = some x → ∀ base, x.base = some base →
    ∀ fields, s.HasFields base fields → ∀ g ∈ x.fields, size g →
      ∀ y ∈ fields, y.name = g.name → (s.scalar? y.typeName).isSome = true

section Reworks

variable {size : Field → Prop} {config : Config} {chosen : String → Prop} {s : Schema}
  {fields fields' fields'' : List Field}

theorem Reworks.refl (fields : List Field) :
    Reworks Field.IsSize config chosen s fields fields :=
  ⟨fun f hf => ⟨f, hf, .refl s f⟩, fun g hg hm => ⟨g, hg, rfl, hm⟩, fun _ _ h _ => .inl h,
    fun _ h _ => .inl h, fun _ h _ => .inl h, fun _ h => .inl h, fun _ h _ => .inl h⟩

theorem Field.Descends.trans {f f' f'' : Field} (h : f.Descends s f') (h' : f'.Descends s f'') :
    f.Descends s f'' := by
  rcases h with hscalar | ⟨hname, htype⟩
  · exact .inl (h'.scalar fun _ => hscalar)
  · rcases h' with hscalar | ⟨hname', htype' | hrecord⟩
    · exact .inl hscalar
    · exact .inr ⟨hname'.trans hname, htype.imp_left htype'.trans⟩
    · exact .inr ⟨hname'.trans hname, .inr (htype.elim (fun heq => heq ▸ hrecord) id)⟩

theorem Reworks.trans (h : Reworks size config chosen s fields fields')
    (h' : Reworks Field.IsSize config chosen s fields' fields'') :
    Reworks size config chosen s fields fields'' where
  origin f'' hf'' := by
    obtain ⟨f', hf', hd'⟩ := h'.origin f'' hf''
    obtain ⟨f, hf, hd⟩ := h.origin f' hf'
    exact ⟨f, hf, hd.trans hd'⟩
  size g hg hm := by
    obtain ⟨g', hg', hname', hm'⟩ := h'.size g hg hm
    obtain ⟨g₀, hg₀, hname, hsize⟩ := h.size g' hg' hm'
    exact ⟨g₀, hg₀, hname.trans hname', hsize⟩
  first tag g hg hm := (h'.first tag g hg hm).elim (fun hg' => h.first tag g hg' hm) .inr
  body f hf hm := by
    rcases h'.body f hf hm with hf' | hscalar
    · refine (h.body f hf' hm).imp_right fun hscalar tag g hp hg hgm => ?_
      exact (h'.first tag g hg hgm).elim (fun hg' => hscalar tag g hp hg' hgm) id
    · exact .inr hscalar
  union u hu hm := by
    rcases h'.union u hu hm with hu' | hscalar
    · refine (h.union u hu' hm).imp_right fun hscalar g hg hp => ?_
      obtain ⟨g', hg', hd⟩ := h'.origin g hg
      exact hd.scalar fun hname => hscalar g' hg' (hname ▸ hp)
    · exact .inr hscalar
  fits f hf := (h'.fits f hf).elim (h.fits f) .inr
  array f hf hm := (h'.array f hf hm).elim (fun hf' => h.array f hf' hm) .inr

/-- A structure stays ready when a pass reworks its fields. -/
theorem Record.Ready.reworks {name : String} {x x' : Record} (h : x.Ready config chosen s name)
    (hw : Reworks size config chosen s x.fields x'.fields)
    (htail : x'.nullTail = none → x.nullTail = none) : x'.Ready config chosen s name where
  fits f hf := (hw.fits f hf).elim (h.fits f) id
  array f hf hm := (hw.array f hf hm).elim (fun hf' => h.array f hf' hm) id
  size f hf hm hr tag g hp hg hgm := by
    rcases hw.first tag g hg hgm with hg' | hscalar
    · rcases hw.body f hf hm with hf' | hscalar
      · exact h.size f hf' hm hr tag g hp hg' hgm
      · exact hscalar tag g hp hg hgm
    · exact hscalar
  selector hname hnone u hu hm g hg hp := by
    rcases hw.union u hu hm with hu' | hscalar
    · obtain ⟨g', hg', hd⟩ := hw.origin g hg
      exact hd.scalar fun hsame => h.selector hname (htail hnone) u hu' hm g' hg' (hsame ▸ hp)
    · exact hscalar g hg hp

/-- Only what names denote matters. -/
theorem Record.Ready.congr {s' : Schema} {name : String} {x : Record}
    (h : x.Ready config chosen s name) (hrecord : ∀ type, s'.isRecord type = s.isRecord type)
    (hscalar : ∀ type, s'.scalar? type = s.scalar? type) : x.Ready config chosen s' name := by
  have hfits : ∀ f, Suits s f → Suits s' f := by
    intro f hf
    unfold Suits Schema.IsData at hf ⊢
    simpa only [hrecord, hscalar] using hf
  refine ⟨fun f hf => (h.fits f hf).imp_left (hfits f), h.array, ?_, ?_⟩
  · simpa only [hrecord, hscalar] using h.size
  · simpa only [hscalar] using h.selector

end Reworks

namespace Schema

variable {size : Field → Prop} {config : Config} {chosen : String → Prop} {s : Schema}

/-- A schema stays ready when structures are changed in place and their fields are reworked. -/
theorem Ready.mapTypes {change : TypeEntry → TypeEntry} (h : s.Ready size config chosen)
    (hin : TypeEntry.InPlace change)
    (hput : ∀ t ∈ s.types, t.record?.isSome = true → (change t).implemented = t.implemented)
    (hrecord : ∀ t ∈ s.types, ∀ x x', t.record? = some x → (change t).record? = some x' →
      x'.base = x.base ∧ Reworks size config chosen s x.fields x'.fields ∧
        (x'.nullTail = none → x.nullTail = none)) :
    (s.mapTypes change).Ready Field.IsSize config chosen := by
  -- a structure of the new schema was one before
  have old : ∀ t' ∈ (s.mapTypes change).types, ∀ x', t'.record? = some x' →
      ∃ t ∈ s.types, ∃ x, t' = change t ∧ t.record? = some x ∧ (change t).record? = some x' := by
    intro t' ht' x' hx'
    obtain ⟨t, ht, rfl⟩ := List.mem_map.mp ht'
    have hsome := hin.record t
    rw [hx'] at hsome
    obtain ⟨x, hx⟩ := Option.isSome_iff_exists.mp hsome.symm
    exact ⟨t, ht, x, rfl, hx, hx'⟩
  refine ⟨(names_mapTypes hin).symm ▸ h.names, fun t' ht' x' hx' => ?_, fun t' ht' hr' => ?_,
    fun t' ht' x' hx' => ?_,
    fun t' ht' x' hx' base hbase fields' hfields' g hg hm y' hy' hname => ?_⟩
  · obtain ⟨t, ht, x, rfl, hx, -⟩ := old t' ht' x' hx'
    rw [hput t ht (hx ▸ rfl)]
    refine (h.put t ht x hx).imp_right fun hnone =>
      List.eq_nil_iff_forall_not_mem.mpr fun f hf => ?_
    obtain ⟨f', hf', -⟩ := (hrecord t ht x x' hx hx').2.1.origin f hf
    rw [hnone] at hf'
    cases hf'
  · obtain ⟨x', hx'⟩ := Option.isSome_iff_exists.mp hr'
    obtain ⟨t, ht, x, rfl, hx, -⟩ := old t' ht' x' hx'
    obtain ⟨fields, hfields⟩ := h.complete t ht (hx ▸ rfl)
    obtain ⟨fields', hfields', -⟩ := hfields.mapTypes (P := fun _ _ => True) hin
      (fun _ _ _ _ _ _ => trivial) fun t ht x x' hx hx' => ⟨(hrecord t ht x x' hx hx').1, trivial⟩
    exact ⟨fields', hin.name t ▸ hfields'⟩
  · obtain ⟨t, ht, x, rfl, hx, -⟩ := old t' ht' x' hx'
    obtain ⟨-, hworks, htail⟩ := hrecord t ht x x' hx hx'
    rw [hin.name]
    exact ((h.record t ht x hx).reworks hworks htail).congr (fun _ => isRecord_mapTypes hin)
      fun _ => scalar?_mapTypes hin
  · obtain ⟨t, ht, x, rfl, hx, -⟩ := old t' ht' x' hx'
    obtain ⟨hsame, hworks, -⟩ := hrecord t ht x x' hx hx'
    obtain ⟨fields, hfields, hfrom⟩ := exists_of_hasFields
      (P := fun fields fields' => ∀ f' ∈ fields', ∃ f ∈ fields, f.Descends s f') hin
      (fun a a' b b' ha hb f' hf' => by
        rcases List.mem_append.mp hf' with hf' | hf'
        · obtain ⟨f, hf, hd⟩ := ha f' hf'
          exact ⟨f, List.mem_append_left _ hf, hd⟩
        · obtain ⟨f, hf, hd⟩ := hb f' hf'
          exact ⟨f, List.mem_append_right _ hf, hd⟩)
      (fun t ht x x' hx hx' =>
        ⟨(hrecord t ht x x' hx hx').1, (hrecord t ht x x' hx hx').2.1.origin⟩)
      hfields'
    obtain ⟨y, hy, hd⟩ := hfrom y' hy'
    obtain ⟨g', hg', hgname, hsize⟩ := hworks.size g hg hm
    rw [scalar?_mapTypes hin]
    exact hd.scalar fun hyname => h.inherited t ht x hx base (hsame.symm.trans hbase) fields
      hfields g' hg' hsize y hy (hyname.symm.trans (hname.trans hgname.symm))

/-- The structure of a name is changed. -/
theorem Ready.modifyRecord {name : String} {f : Record → Record}
    (h : s.Ready Field.IsSize config chosen)
    (hf : ∀ x, (s.lookup? name).bind TypeEntry.record? = some x → (f x).base = x.base ∧
      Reworks Field.IsSize config chosen s x.fields (f x).fields ∧
        ((f x).nullTail = none → x.nullTail = none)) :
    (s.modifyRecord name f).Ready Field.IsSize config chosen := by
  refine h.mapTypes ((TypeEntry.InPlace.mapRecord fun _ => f).modify name) (fun t _ _ => ?_)
    fun t ht x x' hx hx' => ?_
  · split
    · exact TypeEntry.implemented_mapRecord f t
    · rfl
  · split at hx'
    · next hname =>
      rw [TypeEntry.record?_mapRecord, hx] at hx'
      cases hx'
      refine hf x ?_
      rw [← show t.specName = name from by simpa using hname, lookup?_of_mem h.names ht]
      exact hx
    · cases hx.symm.trans hx'
      exact ⟨rfl, .refl _, id⟩

end Schema

end WireTables
