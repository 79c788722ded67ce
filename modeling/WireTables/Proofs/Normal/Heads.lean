import WireTables.Proofs.Normal.Division
import WireTables.Proofs.Normal.PlainTail
import WireTables.Proofs.Normal.Reworking

/-!
# Handles in front

The fields of a command start with its handles, and nothing else in it is one (`LedBy`). That is
kept by the passes because of two more things, which are kept along with it: a handle is of an
elementary type, so no wrapper takes its place; and no array after the handles is counted by one of
them, so none goes when the count of an array is taken away. The counts of handles in a structure
are never touched, so they stay right as long as the handles stay what they are
(`exists_ledBy_of_passes`).
-/

namespace WireTables

open Relation (ReflTransGen)

/-- What the fields of handles are compared by: the name, and whether authorization is required. -/
def Field.head (f : Field) : String × Bool :=
  (f.name, f.requiresAuth)

/-- A handle that the passes leave in its place. -/
structure Field.IsHead (s : Schema) (f : Field) : Prop where
  handle : f.isHandle = true
  scalar : (s.scalar? f.typeName).isSome = true
  uncounted : f.marshal ≠ .countedArray

/-- A field after the handles, which is not counted by one of them. -/
structure Field.FollowsHeads (heads : List (String × Bool)) (f : Field) : Prop where
  handle : f.isHandle = false
  count : f.marshal = .countedArray → ∀ head ∈ heads, f.partner ≠ some head.1

/-- The fields start with these handles, and none of the others is one. -/
inductive LedBy (s : Schema) (heads : List (String × Bool)) (fields : List Field) : Prop where
  | intro (handles others : List Field) (parts : fields = handles ++ others)
    (named : handles.map Field.head = heads) (first : ∀ f ∈ handles, f.IsHead s)
    (rest : ∀ f ∈ others, f.FollowsHeads heads)

/-- The fields start with these handles, and the counts of the structure are theirs. -/
structure Record.LedBy (s : Schema) (heads : List (String × Bool)) (x : Record) : Prop where
  fields : WireTables.LedBy s heads x.fields
  handleCount : x.handleCount = heads.length
  authHandleCount : x.authHandleCount = heads.countP (·.2)

/-- The field is as good a handle as it was, or as little one. -/
structure Field.KeepsHead (s : Schema) (f f' : Field) : Prop where
  head : f'.head = f.head
  handle : f'.isHandle = f.isHandle
  scalar : (s.scalar? f.typeName).isSome = true → (s.scalar? f'.typeName).isSome = true
  count : f'.marshal = .countedArray → f.marshal = .countedArray ∧ f'.partner = f.partner

namespace Field.KeepsHead

variable {s : Schema} {f f' f'' : Field}

theorem refl (s : Schema) (f : Field) : f.KeepsHead s f :=
  ⟨rfl, rfl, id, fun h => ⟨h, rfl⟩⟩

theorem trans (h : f.KeepsHead s f') (h' : f'.KeepsHead s f'') : f.KeepsHead s f'' where
  head := h'.head.trans h.head
  handle := h'.handle.trans h.handle
  scalar hf := h'.scalar (h.scalar hf)
  count hf := ⟨(h.count (h'.count hf).1).1, (h'.count hf).2.trans (h.count (h'.count hf).1).2⟩

end Field.KeepsHead

theorem keepsHead_trans {s : Schema} {fields fields' fields'' : List Field}
    (h : List.Forall₂ (Field.KeepsHead s) fields fields')
    (h' : List.Forall₂ (Field.KeepsHead s) fields' fields'') :
    List.Forall₂ (Field.KeepsHead s) fields fields'' :=
  forall₂_trans (R := Field.KeepsHead s) (fun _ _ _ => .trans) h h'

/-- A change that keeps handles keeps them as the first field of a name as well. -/
theorem keepsHead_changeFirst {s : Schema} {name : String} {change : Field → Field}
    {fields : List Field} (hchange : ∀ f, Field.KeepsHead s f (change f)) :
    List.Forall₂ (Field.KeepsHead s) fields (Extraction.changeFirst name change fields) :=
  forall₂_changeFirst (Field.KeepsHead.refl s) hchange

namespace LedBy

variable {s s' : Schema} {heads : List (String × Bool)} {fields fields' : List Field}

/-- Only elementary values matter. -/
theorem of_scalar? (h : LedBy s heads fields) (hs : ∀ name, s'.scalar? name = s.scalar? name) :
    LedBy s' heads fields := by
  obtain ⟨handles, others, parts, named, first, rest⟩ := h
  exact ⟨handles, others, parts, named, fun f hf =>
    ⟨(first f hf).handle, by rw [hs]; exact (first f hf).scalar, (first f hf).uncounted⟩, rest⟩

/-- Fields that are changed each on its own. -/
theorem of_forall₂ (h : LedBy s heads fields)
    (hall : List.Forall₂ (Field.KeepsHead s) fields fields') : LedBy s heads fields' := by
  obtain ⟨handles, others, rfl, rfl, first, rest⟩ := h
  have hhandles := (List.forall₂_take_append _ _ _ hall.flip).flip
  have hothers := (List.forall₂_drop_append _ _ _ hall.flip).flip
  refine ⟨_, _, (List.take_append_drop handles.length fields').symm, ?_, fun f' hf' => ?_,
    fun f' hf' => ?_⟩
  · have hheads : List.Forall₂ Eq (handles.map Field.head)
        ((fields'.take handles.length).map Field.head) :=
      List.forall₂_map_left_iff.mpr (List.forall₂_map_right_iff.mpr
        (hhandles.imp fun _ _ hf => hf.head.symm))
    rw [List.forall₂_eq_eq_eq] at hheads
    exact hheads.symm
  · obtain ⟨f, hf, hkept⟩ := exists_of_forall₂ hhandles hf'
    exact ⟨hkept.handle.trans (first f hf).handle, hkept.scalar (first f hf).scalar,
      fun hm => (first f hf).uncounted (hkept.count hm).1⟩
  · obtain ⟨f, hf, hkept⟩ := exists_of_forall₂ hothers hf'
    refine ⟨hkept.handle.trans (rest f hf).handle, fun hm => ?_⟩
    rw [(hkept.count hm).2]
    exact (rest f hf).count (hkept.count hm).1

/-- Fields that share their name with no handle can be taken away. -/
theorem filter (h : LedBy s heads fields) {name : String} (hname : ∀ head ∈ heads, head.1 ≠ name) :
    LedBy s heads (fields.filter (·.name != name)) := by
  obtain ⟨handles, others, rfl, rfl, first, rest⟩ := h
  have hkept : handles.filter (·.name != name) = handles :=
    List.filter_eq_self.mpr fun f hf => bne_iff_ne.mpr (hname _ (List.mem_map_of_mem hf))
  rw [List.filter_append, hkept]
  exact ⟨_, _, rfl, rfl, first, fun f hf => rest f (List.mem_filter.mp hf).1⟩

/-- A field that shares its name with no handle can be changed to anything but a counted array. -/
theorem changeFirst (h : LedBy s heads fields) {name : String} {change : Field → Field}
    (hname : ∀ head ∈ heads, head.1 ≠ name) (hhandle : ∀ f, (change f).isHandle = f.isHandle)
    (hcount : ∀ f, (change f).marshal ≠ .countedArray) :
    LedBy s heads (Extraction.changeFirst name change fields) := by
  obtain ⟨handles, others, rfl, rfl, first, rest⟩ := h
  have happend : ∀ {l : List Field}, (∀ f ∈ l, f.name ≠ name) →
      Extraction.changeFirst name change (l ++ others) =
        l ++ Extraction.changeFirst name change others := by
    intro l hl
    induction l with
    | nil => rfl
    | cons f l ih =>
      rw [List.cons_append, Extraction.changeFirst, if_neg (by simpa using hl f List.mem_cons_self),
        ih fun g hg => hl g (List.mem_cons_of_mem _ hg)]
      rfl
  rw [happend fun f hf => hname _ (List.mem_map_of_mem hf)]
  refine ⟨_, _, rfl, rfl, first, fun f hf => ?_⟩
  rcases mem_changeFirst hf with hf | ⟨g, hg, -, rfl⟩
  · exact rest f hf
  · exact ⟨(hhandle g).trans (rest g hg).handle, fun hm => (hcount g hm).elim⟩

end LedBy

section Steps

open Schema

variable {s : Schema} {config : Config} {heads : List (String × Bool)} {x : Record}
  {fields fields' : List Field}

/-- A handle is of no structure. -/
theorem Field.IsHead.recordOf?_eq_none {f : Field} (h : f.IsHead s) :
    s.recordOf? f.typeName = none := by
  rw [← Option.not_isSome_iff_eq_none]
  intro hrecord
  have := h.scalar
  rw [scalar?_of_isRecord hrecord] at this
  cases this

/-- Either field of a sized pair may be a handle. -/
theorem keepsHead_linkSizedPair (h : s.linkSizedPair fields = some fields') :
    List.Forall₂ (Field.KeepsHead s) fields fields' := by
  unfold linkSizedPair at h
  split at h
  · split at h
    · cases h
      exact .cons ⟨rfl, rfl, id, nofun⟩ (.cons ⟨rfl, rfl, id, nofun⟩ .nil)
    · cases h
  · cases h

/-- No wrapper takes the place of a handle, and the tags that come in are named after no field. -/
theorem LedBy.inline {owner : String} {n : Nat} (h : LedBy s heads x.fields)
    (hi : s.inlineFields config owner x = .ok (fields, n)) : LedBy s heads fields := by
  obtain ⟨handles, others, parts, rfl, first, rest⟩ := h
  have hkept : handles.flatMap (s.pieces config owner) = handles := by
    refine (List.flatMap_congr fun f hf => pieces_of_kept ?_).trans
      (List.flatMap_singleton' handles)
    cases hw : s.wrapperOf? config owner f with
    | none => rfl
    | some p =>
      obtain ⟨-, t, y, hrecord, -⟩ := wrapperOf?_eq_some.mp hw
      cases (first f hf).recordOf?_eq_none.symm.trans hrecord
  have hparts := inlineFields_eq_ok hi
  rw [parts, List.flatMap_append, hkept] at hparts
  refine ⟨handles, _, hparts, rfl, first, fun g hg => ?_⟩
  obtain ⟨f, hf, hg⟩ := List.mem_flatMap.mp hg
  cases hw : s.wrapperOf? config owner f with
  | none =>
    rw [pieces_of_kept hw, List.mem_singleton] at hg
    exact hg ▸ rest f hf
  | some p =>
    obtain ⟨tag, data⟩ := p
    obtain ⟨-, t, y, -, -, hwraps⟩ := wrapperOf?_eq_some.mp hw
    have hfresh := fresh_of_inlineFields hi (parts ▸ List.mem_append_right _ hf) hw
    rw [pieces_of_wrapper hw, inlineParts, List.mem_pair] at hg
    rcases hg with rfl | rfl
    · refine ⟨(rest f hf).handle, fun hm => ?_⟩
      have hm : tag.marshal = .countedArray := hm
      rcases hwraps.tag_marshal with htag | htag <;> cases htag.symm.trans hm
    · refine ⟨(rest f hf).handle, fun _ head hhead heq => ?_⟩
      obtain ⟨g, hg, rfl⟩ := List.mem_map.mp hhead
      exact hfresh g (parts ▸ List.mem_append_left _ hg) (Option.some.inj heq).symm

/-- Neither the field whose length is implied nor its count is named like a handle. -/
theorem LedBy.implyLength {name element : String} {count : Option String} {domain : Domain}
    (h : LedBy s heads fields) (hname : ∀ head ∈ heads, head.1 ≠ name)
    (hcount : ∀ head ∈ heads, count ≠ some head.1) :
    LedBy s heads (Schema.implyLength name count element domain fields) := by
  cases count with
  | none =>
    rw [show Schema.implyLength name none element domain fields = _ from modify_findIdx?]
    exact h.changeFirst hname (fun _ => rfl) fun _ => nofun
  | some count =>
    rw [show Schema.implyLength name (some count) element domain fields = _ from modify_findIdx?]
    have hfilter := h.filter fun head hhead heq => hcount head hhead (congrArg some heq.symm)
    exact hfilter.changeFirst hname (fun _ => rfl) fun _ => nofun

/-- An array whose length is implied is no handle, and neither is its count. -/
theorem LedBy.imply {name element : String} {domain : Domain} {f : Field}
    (h : LedBy s heads x.fields) (field : x.field? name = some f)
    (part : s.arrayPart? f = some (element, domain)) :
    LedBy s heads (Schema.implyLength name
      (if f.marshal == .countedArray then f.partner else none) element domain x.fields) := by
  obtain ⟨handles, others, parts, rfl, first, rest⟩ := id h
  have hnot : f ∉ handles := by
    intro hf
    unfold arrayPart? at part
    rw [if_neg (by simpa using (first f hf).uncounted), (first f hf).recordOf?_eq_none] at part
    cases part
  have hf : f ∈ others :=
    (List.mem_append.mp (parts ▸ List.mem_of_find?_eq_some field)).resolve_left hnot
  refine h.implyLength (fun head hhead heq => ?_) fun head hhead => ?_
  · -- a handle of the name would be the first field of the name
    obtain ⟨g, hg, rfl⟩ := List.mem_map.mp hhead
    obtain ⟨g', hg'⟩ := Option.isSome_iff_exists.mp
      (List.find?_isSome (p := (·.name == name)).mpr ⟨g, hg, beq_iff_eq.mpr heq⟩)
    unfold Record.field? at field
    rw [parts, List.find?_append, hg', Option.some_or] at field
    cases field
    exact hnot (List.mem_of_find?_eq_some hg')
  · split
    · next hm => exact (rest f hf).count (by simpa using hm) head hhead
    · exact nofun

theorem keepsHead_makePlain {name : String} {typeName : Option String}
    (htype : ∀ t, typeName = some t → (s.scalar? t).isSome = true) :
    List.Forall₂ (Field.KeepsHead s) fields (makePlain name typeName fields) := by
  rw [makePlain_eq]
  refine keepsHead_changeFirst fun f => ⟨rfl, rfl, fun hf => ?_, nofun⟩
  cases typeName with
  | none => exact hf
  | some t => exact htype t rfl

theorem keepsHead_withPlain {tail : List TailField}
    (htail : ∀ t ∈ tail, (s.scalar? t.scalar).isSome = true) :
    List.Forall₂ (Field.KeepsHead s) fields (withPlain tail fields) := by
  unfold withPlain
  induction tail generalizing fields with
  | nil => exact List.forall₂_same.mpr fun f _ => .refl s f
  | cons t tail ih =>
    refine keepsHead_trans (keepsHead_makePlain ?_)
      (ih fun u hu => htail u (List.mem_cons_of_mem _ hu))
    rintro _ ⟨⟩
    exact htail t List.mem_cons_self

end Steps

namespace Record

variable {s s' : Schema} {x x' : Record} {name : String}

theorem LedBy.of_scalar? {heads : List (String × Bool)} (h : x.LedBy s heads)
    (hs : ∀ name, s'.scalar? name = s.scalar? name) : x.LedBy s' heads :=
  ⟨h.fields.of_scalar? hs, h.handleCount, h.authHandleCount⟩

/-- Handles that lead the structure lead it still. -/
def StaysLed (s : Schema) (_ : String) (x x' : Record) : Prop :=
  ∀ heads, x.LedBy s heads → x'.LedBy s heads

theorem StaysLed.refl (s : Schema) (name : String) (x : Record) : StaysLed s name x x :=
  fun _ h => h

theorem StaysLed.trans (name : String) (x y z : Record) (h : StaysLed s name x y)
    (h' : StaysLed s name y z) : StaysLed s name x z :=
  fun heads hx => h' heads (h heads hx)

/-- Other fields are all that a pass gives the structure. -/
theorem StaysLed.of_fields {fields : List Field}
    (h : ∀ heads, WireTables.LedBy s heads x.fields → WireTables.LedBy s heads fields) :
    StaysLed s name x { x with fields } :=
  fun heads hx => ⟨h heads hx.fields, hx.handleCount, hx.authHandleCount⟩

end Record

namespace Edit

open Schema

variable {config : Config} {r r' : Registry} {n : Nat} {name : String}

theorem staysLed_of_rewrites (hnames : r.names.Nodup) (h : Rewrites config r r') :
    r.RecastBy (Record.StaysLed r.toSchema) r'.toSchema := by
  cases h with
  | inline lookup inlined =>
    exact .modifyFound hnames lookup (.refl _) (.of_fields fun _ hx => hx.inline inlined)
  | imply _ lookup field _ part =>
    exact .modifyFound hnames lookup (.refl _) (.of_fields fun _ hx => hx.imply field part)
  | remember => exact .refl (.refl _)
  | note =>
    exact .modifyRecord (.refl _) fun x heads hx => ⟨hx.fields, hx.handleCount, hx.authHandleCount⟩
  | tail lookup _ tail =>
    refine .modifyFound hnames lookup (.refl _) fun heads hx =>
      ⟨hx.fields.of_forall₂ ?_, hx.handleCount, hx.authHandleCount⟩
    refine keepsHead_trans (keepsHead_withPlain fun t ht => ?_) (keepsHead_makePlain nofun)
    obtain ⟨-, -, -, -, hscalar⟩ := exists_of_mem_tailFields tail ht
    exact hscalar
  | drop =>
    exact .modifyType ⟨fun _ => rfl, fun _ => rfl, fun _ _ => rfl⟩ (fun _ => rfl) (.refl _)

/-- What each pass makes of a structure before unions are separated. -/
theorem staysLed_of_reshapes (hnames : r.names.Nodup) (h : Reshapes config r r') :
    r.RecastBy (Record.StaysLed r.toSchema) r'.toSchema := by
  cases h with
  | pairs =>
    refine .mapRecord (P := Record.StaysLed r.toSchema) (f := fun _ x =>
      { x with fields := (r.toSchema.linkSizedPair x.fields).getD x.fields }) fun _ x =>
        .of_fields fun heads hx => ?_
    cases hpair : r.toSchema.linkSizedPair x.fields with
    | none => exact hx
    | some fields => exact hx.of_forall₂ (keepsHead_linkSizedPair hpair)
  | rewrite h => exact staysLed_of_rewrites hnames h

/-- Structures stay as they are when unions are separated. -/
theorem lookup?_separateUnions (hnames : r.names.Nodup) (hy : Yields (separateUnions config) r n r')
    {t : TypeEntry} {x : Record} (ht : r.lookup? name = some t) (hx : t.record? = some x) :
    r'.lookup? name = some t := by
  let I (r' : Registry) : Prop := r'.names.Nodup ∧ r'.lookup? name = some t
  refine (invariant_of_separateUnions (I := I) hy ⟨hnames, ht⟩ fun union m r₁ r₂ h₁ hy => ?_).2
  rcases separateUnion_cases hy with ⟨-, rfl⟩ | ⟨found, hfound, -⟩
  · exact h₁
  · obtain ⟨u, hu, hunion⟩ := Option.bind_eq_some_iff.mp hfound
    exact invariant_of_steps (I := I) (divides_separateUnion h₁.1 hu hunion hy).1 h₁
      fun r₃ r₄ h₃ hstep => ⟨hstep.names h₃.1, (hstep.retains h₃.1).lookup?_record h₃.2 hx⟩

/-- The handles of a structure are its handles in normal form. -/
theorem exists_ledBy_of_passes (hnames : r.names.Nodup) (h : Passes config r r')
    {heads : List (String × Bool)} {x : Record}
    (hx : (r.lookup? name).bind TypeEntry.record? = some x) (hled : x.LedBy r.toSchema heads) :
    ∃ x', (r'.lookup? name).bind TypeEntry.record? = some x' ∧ x'.LedBy r.toSchema heads := by
  obtain ⟨r₅, r₆, n₆, hreshaped, hseparated, rfl⟩ := reshapes_of_passes h
  have hrecast : r.RecastBy (Record.StaysLed r.toSchema) r₅.toSchema :=
    invariant_of_steps (I := fun r' => r.RecastBy (Record.StaysLed r.toSchema) r'.toSchema)
      hreshaped (.refl (.refl _)) fun r₁ r₂ h₁ hstep => by
        have hnames₁ : r₁.names.Nodup := h₁.names_eq ▸ hnames
        have hscalar : ∀ name, r₁.scalar? name = r.scalar? name := fun _ => h₁.scalar?
        exact h₁.trans Record.StaysLed.trans ((staysLed_of_reshapes hnames₁ hstep).imp
          fun _ y z hyz heads hy => (hyz heads (hy.of_scalar? hscalar)).of_scalar? fun name =>
            (hscalar name).symm)
  obtain ⟨x₅, hx₅, hstays⟩ := hrecast.exists_found hx
  obtain ⟨t, ht, ht₅⟩ := Option.bind_eq_some_iff.mp hx₅
  have ht₆ : r₆.lookup? name = some t :=
    lookup?_separateUnions (hrecast.names_eq ▸ hnames) hseparated ht ht₅
  have hx₆ : (r₆.lookup? name).bind TypeEntry.record? = some x₅ := by
    rw [ht₆, Option.bind_some, ht₅]
  obtain ⟨x', hx', rfl⟩ := recast_linkUnions.exists_found hx₆
  have hled₅ := hstays heads hled
  exact ⟨_, hx', hled₅.fields, hled₅.handleCount, hled₅.authHandleCount⟩

end Edit

end WireTables
