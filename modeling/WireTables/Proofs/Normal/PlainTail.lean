import WireTables.Proofs.Normal.NullTail
import WireTables.Proofs.Schema.Recast

/-!
# What absent tails make of structures

Where a structure gets an absent tail, its fields keep their names and their order: a union-typed
field becomes a plain one of the elementary type that the members of its union are encoded as, the
selector of the last of them becomes plain, and every other field stays as it is (`MadePlain`,
`forall₂_madePlain_withNullTail`). Giving absent tails to some structures and taking unions out of
what is put out changes nothing that this depends on, so that it holds of all configured structures
at once (`recast_markNullTails`).
-/

namespace WireTables

open Schema (TailField)

section Names

variable {fields : List Field} {name : String} {change : Field → Field}

/-- Where fields have different names, changing the first of a name is changing all of that name. -/
theorem changeFirst_eq_map (h : (fields.map (·.name)).Nodup) :
    Extraction.changeFirst name change fields =
      fields.map fun f => if f.name == name then change f else f := by
  induction fields with
  | nil => rfl
  | cons g rest ih =>
    obtain ⟨hg, hrest⟩ := List.nodup_cons.mp h
    unfold Extraction.changeFirst
    rw [List.map_cons]
    split
    · next hname =>
      have hothers : ∀ f ∈ rest, (if f.name == name then change f else f) = id f := by
        intro f hf
        refine if_neg fun hf' => hg (List.mem_map.mpr ⟨f, hf, ?_⟩)
        exact (beq_iff_eq.mp hf').trans (beq_iff_eq.mp hname).symm
      rw [List.map_congr_left hothers, List.map_id]
    · rw [ih hrest]

end Names

/-- What an absent tail makes of a field of its structure. -/
inductive MadePlain (s : Schema) : Field → Field → Prop where
  | same {f : Field} : MadePlain s f f
  | selector {f : Field} (h : f.marshal ≠ .unionBody) :
    MadePlain s f { f with marshal := .plain, partner := none }
  | body {f : Field} {u : UnionType} {scalar : String} (h : f.marshal = .unionBody)
    (union : (s.lookup? f.typeName).bind TypeEntry.union? = some u)
    (common : s.commonScalar f.typeName none u.present = .ok scalar) :
    MadePlain s f { f with marshal := .plain, typeName := scalar, partner := none }

theorem names_of_madePlain {s : Schema} {fields fields' : List Field}
    (h : List.Forall₂ (MadePlain s) fields fields') :
    fields'.map (·.name) = fields.map (·.name) := by
  induction h with
  | nil => rfl
  | cons hf _ ih =>
    rw [List.map_cons, List.map_cons, ih]
    cases hf <;> rfl

section Tail

variable {s : Schema} {owner selector nullValue : String} {r : Record} {tail : List TailField}
  {fields : List Field}

/-- The field as its part of a tail makes it, if there is one. -/
def plainBy (tail : List TailField) (f : Field) : Field :=
  match tail.find? (·.field == f.name) with
  | some t => { f with marshal := .plain, typeName := t.scalar, partner := none }
  | none => f

theorem name_plainBy {f : Field} : (plainBy tail f).name = f.name := by
  unfold plainBy
  split <;> rfl

/-- With different names, each field is changed by its own part of the tail. -/
theorem withPlain_eq_map (h : (fields.map (·.name)).Nodup) (ht : (tail.map (·.field)).Nodup) :
    withPlain tail fields = fields.map (plainBy tail) := by
  induction tail generalizing fields with
  | nil => exact (List.map_id fields).symm
  | cons t tail ih =>
    obtain ⟨hnot, ht⟩ := List.nodup_cons.mp ht
    have hfirst : Schema.makePlain t.field (some t.scalar) fields = fields.map fun f =>
        if f.name == t.field then
          { f with marshal := .plain, typeName := t.scalar, partner := none } else f := by
      rw [makePlain_eq, changeFirst_eq_map h]
      rfl
    have hnames : ((Schema.makePlain t.field (some t.scalar) fields).map (·.name)).Nodup := by
      rw [names_of_demoted demoted_makePlain]
      exact h
    refine (ih hnames ht).trans ?_
    rw [hfirst, List.map_map]
    refine List.map_congr_left fun f _ => ?_
    rw [Function.comp_apply]
    unfold plainBy
    rw [List.find?_cons]
    by_cases hf : f.name = t.field
    · have hlater : tail.find? (·.field == t.field) = none := List.find?_eq_none.mpr
        fun x hx heq => hnot (List.mem_map.mpr ⟨x, hx, beq_iff_eq.mp heq⟩)
      simp only [hf, beq_self_eq_true, if_true, hlater]
    · simp only [beq_false_of_ne hf, beq_false_of_ne (Ne.symm hf), Bool.false_eq_true, if_false]

/-- A part of a tail is made of a union-typed field. -/
theorem exists_body_of_tailFields (h : s.tailFields owner r = .ok tail) {t : TailField}
    (ht : t ∈ tail) : ∃ f ∈ r.fields, f.marshal = .unionBody ∧ t.field = f.name ∧
      ∃ u, (s.lookup? f.typeName).bind TypeEntry.union? = some u ∧
        s.commonScalar f.typeName none u.present = .ok t.scalar := by
  obtain ⟨f, hf, hof⟩ := exists_of_mem_mapM h ht
  obtain ⟨hf, hm⟩ := List.mem_filter.mp hf
  obtain ⟨entry, hrequire, hof⟩ := bind_eq_ok.mp hof
  split at hof
  · cases hof
  · next u hu =>
    obtain ⟨scalar, hscalar, hof⟩ := bind_eq_ok.mp hof
    cases hof
    refine ⟨f, hf, beq_iff_eq.mp hm, rfl, u, ?_, hscalar⟩
    rw [Schema.require_eq_ok.mp hrequire]
    exact hu

/-- Union-typed fields become numbers of the common types of their unions, and no others do. -/
theorem plainBy_cases (h : s.tailFields owner r = .ok tail) (hnames : (r.fields.map (·.name)).Nodup)
    {f : Field} (hf : f ∈ r.fields) : (f.marshal ≠ .unionBody ∧ plainBy tail f = f) ∨
      f.marshal = .unionBody ∧ ∃ u scalar, (s.lookup? f.typeName).bind TypeEntry.union? = some u ∧
        s.commonScalar f.typeName none u.present = .ok scalar ∧
          plainBy tail f = { f with marshal := .plain, typeName := scalar, partner := none } := by
  unfold plainBy
  cases hfind : tail.find? (·.field == f.name) with
  | none =>
    refine .inl ⟨fun hm => ?_, rfl⟩
    have hmem : f.name ∈ tail.map (·.field) := by
      rw [(tailFields_eq_ok h).1]
      exact List.mem_map_of_mem (List.mem_filter.mpr ⟨hf, beq_iff_eq.mpr hm⟩)
    obtain ⟨t, ht, hname⟩ := List.mem_map.mp hmem
    exact List.find?_eq_none.mp hfind t ht (beq_iff_eq.mpr hname)
  | some t =>
    obtain ⟨g, hg, hm, hname, u, hu, hscalar⟩ :=
      exists_body_of_tailFields h (List.mem_of_find?_eq_some hfind)
    have hfound : t.field = f.name := by simpa using List.find?_some hfind
    obtain rfl := List.inj_on_of_nodup_map hnames hg hf (hname.symm.trans hfound)
    exact .inr ⟨hm, u, t.scalar, hu, hscalar, rfl⟩

/-- What an absent tail makes of the fields of a structure with different names. -/
theorem forall₂_madePlain_withNullTail (h : s.tailFields owner r = .ok tail)
    (hnames : (r.fields.map (·.name)).Nodup) : List.Forall₂ (MadePlain s) r.fields
      (Schema.withNullTail tail selector nullValue r).fields := by
  have htail : (tail.map (·.field)).Nodup := by
    rw [(tailFields_eq_ok h).1]
    exact hnames.sublist (List.filter_sublist.map _)
  have hplain : withPlain tail r.fields = r.fields.map (plainBy tail) :=
    withPlain_eq_map hnames htail
  have hsame : ((withPlain tail r.fields).map (·.name)).Nodup := by
    rw [names_withPlain]
    exact hnames
  have hall : (Schema.withNullTail tail selector nullValue r).fields = r.fields.map fun f =>
      if f.name == selector then { plainBy tail f with marshal := .plain, partner := none }
      else plainBy tail f := by
    show Schema.makePlain selector none (withPlain tail r.fields) = _
    rw [makePlain_eq, changeFirst_eq_map hsame, hplain, List.map_map]
    refine List.map_congr_left fun f _ => ?_
    simp only [Function.comp_apply, name_plainBy, Option.getD_none]
  rw [hall, List.forall₂_map_right_iff, List.forall₂_same]
  intro f hf
  rcases plainBy_cases h hnames hf with ⟨hm, heq⟩ | ⟨hm, u, scalar, hu, hscalar, heq⟩
  · rw [heq]
    split
    · exact .selector hm
    · exact .same
  · rw [heq]
    split <;> exact .body hm hu hscalar

end Tail

section Common

variable {s : Schema} {union name : String} {found : Option String} {members : List UnionMember}

/-- The type that was found is the common one, and the types of all members denote it. -/
theorem scalarOf?_of_commonScalar (h : s.commonScalar union found members = .ok name) :
    (∀ other, found = some other → other = name) ∧
      ∀ m ∈ members, ∃ t c, s.scalarOf? m.typeName = some (t, c) ∧ t.specName = name := by
  induction members generalizing found with
  | nil =>
    cases found with
    | none => cases h
    | some other =>
      cases h
      exact ⟨fun _ hother => (Option.some.inj hother).symm, fun _ hm => (List.not_mem_nil hm).elim⟩
  | cons m rest ih =>
    rw [Schema.commonScalar] at h
    split at h
    · cases h
    · next t c hscalar =>
      have hall : t.specName = name → (∀ m ∈ rest, ∃ t c, s.scalarOf? m.typeName = some (t, c) ∧
          t.specName = name) → ∀ m' ∈ m :: rest, ∃ t c, s.scalarOf? m'.typeName = some (t, c) ∧
            t.specName = name :=
        fun hname hrest => List.forall_mem_cons.mpr ⟨⟨t, c, hscalar, hname⟩, hrest⟩
      split at h
      · next other =>
        split at h
        · next hsame =>
          obtain ⟨hfound, hrest⟩ := ih h
          exact ⟨hfound, hall ((beq_iff_eq.mp hsame).symm.trans (hfound other rfl)) hrest⟩
        · cases h
      · obtain ⟨hfound, hrest⟩ := ih h
        refine ⟨fun _ hother => ?_, hall (hfound _ rfl) hrest⟩
        cases hother

/-- A member is encoded as the common elementary type. -/
theorem scalar?_of_mem_commonScalar (h : s.commonScalar union none members = .ok name)
    {m : UnionMember} (hm : m ∈ members) :
    ∃ c, s.scalar? m.typeName = some c ∧ s.scalar? name = some c := by
  obtain ⟨t, c, hscalar, rfl⟩ := (scalarOf?_of_commonScalar h).2 m hm
  refine ⟨c, ?_, Schema.scalar?_of_scalarOf? hscalar⟩
  unfold Schema.scalar?
  rw [hscalar, Option.map_some]

end Common

section InPlace

open TypeEntry (InPlace)

variable {s : Schema} {change : TypeEntry → TypeEntry} (h : InPlace change)

include h

theorem commonScalar_mapTypes {union : String} {found : Option String}
    {members : List UnionMember} :
    (s.mapTypes change).commonScalar union found members = s.commonScalar union found members := by
  induction members generalizing found with
  | nil => cases found <;> rfl
  | cons m rest ih =>
    rw [Schema.commonScalar, Schema.commonScalar, Schema.scalarOf?_mapTypes h]
    cases s.scalarOf? m.typeName with
    | none => rfl
    | some p =>
      simp only [Option.map_some, h.name, ih]

/-- The parts of the tail of a structure do not depend on other structures. -/
theorem tailFields_mapTypes {owner : String} {r : Record} :
    (s.mapTypes change).tailFields owner r = s.tailFields owner r := by
  unfold Schema.tailFields
  congr 1
  funext f
  rw [Schema.require_mapTypes h]
  -- Two continuations are compared by rewriting; evaluation would follow all names in them.
  cases s.require f.typeName owner with
  | error e => simp only [Except.map, bind, Except.bind]
  | ok t => simp only [Except.map, bind, Except.bind, h.union, commonScalar_mapTypes h]

end InPlace

theorem Schema.found_modifyRecord {s : Schema} {name : String} {f : Record → Record} {x : Record}
    (hx : (s.lookup? name).bind TypeEntry.record? = some x) :
    ((s.modifyRecord name f).lookup? name).bind TypeEntry.record? = some (f x) := by
  obtain ⟨t, ht, hr⟩ := Option.bind_eq_some_iff.mp hx
  have hlookup : (s.modifyRecord name f).lookup? name = some (t.mapRecord f) := by
    refine (lookup?_mapTypes ((TypeEntry.InPlace.mapRecord fun _ => f).modify name)).trans ?_
    rw [ht, Option.map_some, if_pos (beq_iff_eq.mpr (mem_of_lookup? ht).2)]
  rw [hlookup, Option.bind_some, TypeEntry.record?_mapRecord, hr, Option.map_some]

/-- With different names, only the structure that is found under a name is changed. -/
theorem Schema.RecastBy.modifyFound {P : String → Record → Record → Prop} {s : Schema}
    {name : String} {f : Record → Record} {found : Record} (hnames : s.names.Nodup)
    (hfound : (s.lookup? name).bind TypeEntry.record? = some found) (hP : ∀ name x, P name x x)
    (hf : P name found (f found)) : s.RecastBy P (s.modifyRecord name f) := by
  refine ⟨(TypeEntry.InPlace.mapRecord fun _ => f).modify name, fun t ht x x' hx hx' => ?_⟩
  split at hx'
  · next hname =>
    obtain rfl := beq_iff_eq.mp hname
    rw [TypeEntry.record?_mapRecord, hx] at hx'
    rw [lookup?_of_mem hnames ht, Option.bind_some, hx] at hfound
    cases hfound
    cases hx'
    exact hf
  · cases hx.symm.trans hx'
    exact hP _ _

/-- What a structure may become when configured structures get absent tails. -/
inductive GetsTail (config : Config) (s : Schema) (name : String) (r : Record) : Record → Prop where
  | same : GetsTail config s name r r
  | tail {tail : List TailField} {selector : String} (listed : name ∈ config.nullTails)
    (before : r.nullTail = none) (parts : s.tailFields name r = .ok tail)
    (last : tail.getLast?.bind (·.selector) = some selector) :
    GetsTail config s name r (Schema.withNullTail tail selector config.nullSelector r)

/-- A structure that has a tail stays as it is. -/
theorem GetsTail.trans {config : Config} {s : Schema} {name : String} {x y z : Record}
    (h : GetsTail config s name x y) (h' : GetsTail config s name y z) :
    GetsTail config s name x z := by
  cases h with
  | same => exact h'
  | tail listed before parts last =>
    cases h' with
    | same => exact .tail listed before parts last
    | tail _ before' => cases before'

section Marking

open Edit

variable {config : Config} {s : Schema} {r r' : Registry} {name : String}

/-- Absent tails in a schema are those in one that it was recast from. -/
theorem GetsTail.of_recast {P : String → Record → Record → Prop} {s' : Schema} {x x' : Record}
    (h : s.RecastBy P s') (hx : GetsTail config s' name x x') : GetsTail config s name x x' := by
  cases hx with
  | same => exact .same
  | tail listed before parts last =>
    obtain ⟨place, -⟩ := h
    rw [tailFields_mapTypes place] at parts
    exact .tail listed before parts last

/-- One structure may get an absent tail; all others stay. -/
theorem recast_markNullTail {unions : Option (List String)} (hnames : s.names.Nodup)
    (hlisted : name ∈ config.nullTails) (h : s.RecastBy (GetsTail config s) r.toSchema)
    (hy : Yields (markNullTail config name) r unions r') :
    s.RecastBy (GetsTail config s) r'.toSchema := by
  rcases markNullTail_cases hy with
    ⟨-, rfl⟩ | ⟨found, tail, selector, hfound, hbefore, htail, hlast, -, rfl⟩
  · exact h
  · refine h.trans (fun _ _ _ _ => GetsTail.trans)
      (.modifyFound (h.names_eq ▸ hnames) hfound (fun _ _ => .same) ?_)
    exact .of_recast h (.tail hlisted hbefore htail hlast)

/-- A structure of the name has an absent tail then. -/
theorem nullTail_of_markNullTail {unions : Option (List String)} {x : Record}
    (hx : (r.lookup? name).bind TypeEntry.record? = some x)
    (hy : Yields (markNullTail config name) r unions r') :
    ∃ x', (r'.lookup? name).bind TypeEntry.record? = some x' ∧ x'.nullTail.isSome = true := by
  unfold markNullTail at hy
  obtain ⟨_, _, hs, hy⟩ := yields_bind.mp hy
  obtain ⟨rfl, rfl⟩ := yields_schema.mp hs
  rw [hx] at hy
  dsimp only at hy
  split at hy
  · next htail =>
    obtain ⟨-, rfl⟩ := yields_pure.mp hy
    exact ⟨x, hx, htail⟩
  · obtain ⟨tail, _, hof, hmark⟩ := yields_bind.mp hy
    obtain ⟨-, rfl⟩ := yields_ofExcept.mp hof
    split at hmark
    · exact (not_yields_throw hmark).elim
    · obtain ⟨_, _, hupdate, hend⟩ := yields_bind.mp hmark
      obtain ⟨-, rfl⟩ := yields_pure.mp hend
      rw [yields_update.mp hupdate]
      exact ⟨_, Schema.found_modifyRecord hx, rfl⟩

theorem recast_filterMapM {names : List String} {unions : List (List String)}
    (hnames : r.names.Nodup) (hlisted : ∀ name ∈ names, name ∈ config.nullTails)
    (hy : Yields (names.filterMapM (markNullTail config)) r unions r') :
    r.RecastBy (GetsTail config r.toSchema) r'.toSchema :=
  (hy.filterMapM (I := fun q => r.RecastBy (GetsTail config r.toSchema) q.toSchema)
    (R := fun _ => True) (.refl fun _ _ => .same) fun _ hmem _ _ _ h hy =>
      ⟨recast_markNullTail hnames (hlisted _ hmem) h hy, fun _ _ => trivial⟩).1

/-- All structures of the names have absent tails in the end. -/
theorem nullTail_of_filterMapM {names : List String} {unions : List (List String)} {x : Record}
    (hnames : r.names.Nodup) (hlisted : ∀ name ∈ names, name ∈ config.nullTails)
    (hy : Yields (names.filterMapM (markNullTail config)) r unions r') (hmem : name ∈ names)
    (hx : (r.lookup? name).bind TypeEntry.record? = some x) :
    ∃ x', (r'.lookup? name).bind TypeEntry.record? = some x' ∧ x'.nullTail.isSome = true := by
  induction names generalizing r unions x with
  | nil => exact (List.not_mem_nil hmem).elim
  | cons head names ih =>
    obtain ⟨y, r₁, rest, hfirst, hrest, -⟩ := yields_filterMapM_cons.mp hy
    obtain ⟨hhead, hothers⟩ := List.forall_mem_cons.mp hlisted
    have h₁ := recast_markNullTail hnames hhead (.refl fun _ _ => .same) hfirst
    have hnames₁ : r₁.names.Nodup := h₁.names_eq ▸ hnames
    rcases List.mem_cons.mp hmem with rfl | hmem
    · obtain ⟨x₁, hx₁, htail⟩ := nullTail_of_markNullTail hx hfirst
      obtain ⟨x', hx', hgets⟩ := (recast_filterMapM hnames₁ hothers hrest).exists_found hx₁
      cases hgets with
      | same => exact ⟨x₁, hx', htail⟩
      | tail _ before =>
        rw [before] at htail
        cases htail
    · obtain ⟨x₁, hx₁, -⟩ := h₁.exists_found hx
      exact ih hnames₁ hothers hrest hmem hx₁

theorem recast_dropUnusedUnion {P : String → Record → Record → Prop} {union : String} {u : Unit}
    (hP : ∀ name x, P name x x) (hy : Yields (dropUnusedUnion union) r u r') :
    r.RecastBy P r'.toSchema := by
  rcases dropUnusedUnion_cases hy with rfl | ⟨-, rfl⟩
  · exact .refl hP
  · exact .modifyType ⟨fun _ => rfl, fun _ => rfl, fun _ _ => rfl⟩ (fun _ => rfl) hP

/-- Each structure keeps what it is or gets an absent tail, and every configured structure that is
there and has none gets one. -/
theorem recast_markNullTails {n : Nat} (hnames : r.names.Nodup)
    (hy : Yields (markNullTails config) r n r') :
    r.RecastBy (GetsTail config r.toSchema) r'.toSchema ∧ ∀ name ∈ config.nullTails, ∀ x,
      (r.lookup? name).bind TypeEntry.record? = some x → x.nullTail = none → ∃ tail selector,
        r.tailFields name x = .ok tail ∧ tail.getLast?.bind (·.selector) = some selector ∧
          (r'.lookup? name).bind TypeEntry.record? =
            some (Schema.withNullTail tail selector config.nullSelector x) := by
  unfold markNullTails at hy
  obtain ⟨unions, r₁, hmark, hy⟩ := yields_bind.mp hy
  obtain ⟨_, r₂, hdrop, hy⟩ := yields_bind.mp hy
  obtain ⟨-, rfl⟩ := yields_pure.mp hy
  have hmarked := recast_filterMapM hnames (fun _ => id) hmark
  have hkept : r₁.RecastBy (fun _ => Eq) r'.toSchema :=
    hdrop.forM (I := fun q => r₁.RecastBy (fun _ => Eq) q.toSchema) (.refl fun _ _ => rfl)
      fun _ _ _ _ h hy => h.trans (fun _ _ _ _ => Eq.trans)
        (recast_dropUnusedUnion (fun _ _ => rfl) hy)
  have hrecast : r.RecastBy (GetsTail config r.toSchema) r'.toSchema :=
    hmarked.trans (fun _ _ _ _ => GetsTail.trans) <| hkept.imp fun _ _ _ heq => by
      rw [heq]
      exact .same
  refine ⟨hrecast, fun name hlisted x hx hbefore => ?_⟩
  obtain ⟨x₁, hx₁, htail⟩ := nullTail_of_filterMapM hnames (fun _ => id) hmark hlisted hx
  obtain ⟨_, hx₂, rfl⟩ := hkept.exists_found hx₁
  obtain ⟨x', hx', hgets⟩ := hrecast.exists_found hx
  cases hx₂.symm.trans hx'
  cases hgets with
  | same =>
    rw [hbefore] at htail
    cases htail
  | tail _ _ parts last => exact ⟨_, _, parts, last, hx'⟩

end Marking

/-- What giving absent tails makes of all fields of a structure. -/
theorem forall₂_madePlain_collectFields {config : Config} {s s' : Schema} {owner : String}
    (h : s.RecastBy (GetsTail config s) s') : ∀ {room : Nat} {name : String} {fields : List Field},
      s.collectFields owner room name = .ok fields → (fields.map (·.name)).Nodup →
        ∃ fields', s'.collectFields owner room name = .ok fields' ∧
          List.Forall₂ (MadePlain s) fields fields' := by
  intro room
  induction room with
  | zero =>
    intro _ _ hf
    cases hf
  | succ room ih =>
    intro name fields hf hnames
    obtain ⟨t, x, ht, hx, hf⟩ := Schema.collectFields_succ.mp hf
    obtain ⟨t', x', ht', hx', hgets⟩ : ∃ t' x', s'.target name = .ok t' ∧ t'.record? = some x' ∧
        GetsTail config s t.specName x x' := by
      obtain ⟨t', x', hrecord, hgets⟩ := h.recordOf? (Schema.recordOf?_eq_some.mpr ⟨ht, hx⟩)
      obtain ⟨ht', hx'⟩ := Schema.recordOf?_eq_some.mp hrecord
      exact ⟨t', x', ht', hx', hgets⟩
    have hbase : x'.base = x.base := by cases hgets <;> rfl
    have hown : (x.fields.map (·.name)).Nodup → List.Forall₂ (MadePlain s) x.fields x'.fields := by
      intro hnodup
      cases hgets with
      | same => exact List.forall₂_same.mpr fun _ _ => .same
      | tail _ _ parts => exact forall₂_madePlain_withNullTail parts hnodup
    rcases hf with ⟨hnone, rfl⟩ | ⟨base, inherited, hlink, hinherited, rfl⟩
    · exact ⟨x'.fields, Schema.collectFields_succ.mpr
        ⟨t', x', ht', hx', .inl ⟨hbase.trans hnone, rfl⟩⟩, hown hnames⟩
    · rw [List.map_append, List.nodup_append] at hnames
      obtain ⟨above, habove, hplain⟩ := ih hinherited hnames.1
      exact ⟨above ++ x'.fields, Schema.collectFields_succ.mpr
        ⟨t', x', ht', hx', .inr ⟨base, above, hbase.trans hlink, habove, rfl⟩⟩,
        List.rel_append hplain (hown hnames.2.1)⟩

end WireTables
