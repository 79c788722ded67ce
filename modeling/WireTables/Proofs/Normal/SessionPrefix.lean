import WireTables.Proofs.Normal.Separation
import WireTables.Proofs.Normal.Inlining
import WireTables.Proofs.Schema.Recast

/-!
# Where noted sizes come from

The sizes for the first parameter of a command are looked up between two passes. Before that nothing
is noted; afterwards structures get absent tails, unions are separated and structures are linked to
them. What is said of a noted command in the end goes back to the schema in which the sizes were
looked up (`Schema.Traced`): elementary values are the ones that they were, all fields of a name end
with what has become of the fields that it named, and a command without an absent tail has the
fields that it had (`exists_traced`).
-/

namespace WireTables

open Relation (ReflTransGen)

/-- The field is as it was, or it was made plain. -/
def SameOrPlain (f f' : Field) : Prop :=
  f' = f ∨ f'.marshal = .plain

section SameOrPlain

variable {fields fields' fields'' : List Field}

theorem SameOrPlain.refl (f : Field) : SameOrPlain f f :=
  .inl rfl

theorem SameOrPlain.trans {f f' f'' : Field} (h : SameOrPlain f f') (h' : SameOrPlain f' f'') :
    SameOrPlain f f'' := by
  rcases h' with rfl | hplain
  · exact h
  · exact .inr hplain

theorem sameOrPlain_refl (fields : List Field) : List.Forall₂ SameOrPlain fields fields :=
  List.forall₂_same.mpr fun f _ => .refl f

theorem sameOrPlain_trans (h : List.Forall₂ SameOrPlain fields fields')
    (h' : List.Forall₂ SameOrPlain fields' fields'') :
    List.Forall₂ SameOrPlain fields fields'' :=
  forall₂_trans (R := SameOrPlain) (fun _ _ _ => .trans) h h'

theorem sameOrPlain_makePlain {name : String} {typeName : Option String} :
    List.Forall₂ SameOrPlain fields (Schema.makePlain name typeName fields) := by
  rw [makePlain_eq]
  exact forall₂_changeFirst SameOrPlain.refl fun _ => .inr rfl

theorem sameOrPlain_withPlain {tail : List Schema.TailField} :
    List.Forall₂ SameOrPlain fields (withPlain tail fields) := by
  unfold withPlain
  induction tail generalizing fields with
  | nil => exact sameOrPlain_refl fields
  | cons t tail ih => exact sameOrPlain_trans sameOrPlain_makePlain ih

end SameOrPlain

namespace Record

/-- What is noted for a structure stays. -/
def SamePrefix (_ : String) (x x' : Record) : Prop :=
  x'.sessionPrefix = x.sessionPrefix

theorem SamePrefix.refl (name : String) (x : Record) : SamePrefix name x x :=
  rfl

theorem SamePrefix.trans (name : String) (x y z : Record) (h : SamePrefix name x y)
    (h' : SamePrefix name y z) : SamePrefix name x z :=
  Eq.trans h' h

/-- Sizes that were found are noted for a structure, or it gets an absent tail. -/
structure Noted (found : List (String × SessionPrefix)) (name : String) (x x' : Record) : Prop where
  fields : List.Forall₂ SameOrPlain x.fields x'.fields
  kept : x'.nullTail = none → x' = { x with sessionPrefix := x'.sessionPrefix }
  sizes : x'.sessionPrefix = x.sessionPrefix ∨ ∃ p, (name, p) ∈ found ∧ x'.sessionPrefix = some p

variable {found : List (String × SessionPrefix)}

theorem Noted.refl (name : String) (x : Record) : x.Noted found name x :=
  ⟨sameOrPlain_refl _, fun _ => rfl, .inl rfl⟩

theorem Noted.trans (name : String) (x y z : Record) (h : x.Noted found name y)
    (h' : y.Noted found name z) : x.Noted found name z where
  fields := sameOrPlain_trans h.fields h'.fields
  kept hnone := by
    have hz := h'.kept hnone
    have hy := h.kept (by rw [hz] at hnone; exact hnone)
    rw [hz, hy]
  sizes := by
    rcases h'.sizes with hsame | hnew
    · exact hsame ▸ h.sizes
    · exact .inr hnew

end Record

namespace Schema

variable {s s' : Schema} {name : String}

/-- Nothing is noted for structures of the name. -/
def Unmarked (s : Schema) (name : String) : Prop :=
  ∀ t ∈ s.types, t.specName = name → ∀ x, t.record? = some x → x.sessionPrefix = none

theorem Unmarked.recast (h : s.Unmarked name) (hs : s.RecastBy Record.SamePrefix s') :
    s'.Unmarked name := by
  intro t' ht' hname x' hx'
  obtain ⟨t, ht, x, heq, hx, hsame⟩ := hs.exists_record ht' hx'
  exact Eq.trans hsame (h t ht (heq.symm.trans hname) x hx)

/-- What the schema has come from by separating unions. -/
structure Stems (s₀ s : Schema) : Prop where
  names : s.names.Nodup
  origin : ∀ name t, s.lookup? name = some t → s₀.lookup? name = some t ∨
    t.union?.isSome = true ∨ ∃ x, t.record? = some x ∧ x.fields = []
  shows : ∀ name own, s₀.Shows name own → s.Shows name own

/-- An elementary value was one before. -/
theorem Stems.scalar? (h : s.Stems s') {c : Scalar} (hc : s'.scalar? name = some c) :
    s.scalar? name = some c := by
  -- what is followed is neither a union nor a structure
  have found : ∀ {name : String} {hops : Nat} {t x : TypeEntry}, s'.lookup? name = some t →
      s'.followScalar? hops t = some (x, c) → s.lookup? name = some t := by
    intro name hops t x ht hf
    rcases h.origin name t ht with hsame | hunion | ⟨y, hy, -⟩
    · exact hsame
    · obtain ⟨u, hu⟩ := Option.isSome_iff_exists.mp hunion
      cases hops with
      | zero => cases hf
      | succ hops =>
        unfold followScalar? at hf
        rw [TypeEntry.kind_of_union? hu] at hf
        cases hf
    · cases hops with
      | zero => cases hf
      | succ hops =>
        unfold followScalar? at hf
        rw [TypeEntry.kind_of_record? hy] at hf
        cases hf
  have follow : ∀ {hops : Nat} {t x : TypeEntry}, s'.followScalar? hops t = some (x, c) →
      s.followScalar? hops t = some (x, c) := by
    intro hops
    induction hops with
    | zero =>
      intro t x hf
      cases hf
    | succ hops ih =>
      intro t x hf
      have next : ∀ {base : String}, (s'.lookup? base >>= s'.followScalar? hops) = some (x, c) →
          (s.lookup? base >>= s.followScalar? hops) = some (x, c) := by
        intro base hb
        obtain ⟨t, ht, hb⟩ := Option.bind_eq_some_iff.mp hb
        exact Option.bind_eq_some_iff.mpr ⟨t, found ht hb, ih hb⟩
      unfold followScalar? at hf ⊢
      split at hf
      · exact hf
      · exact next hf
      · exact next hf
      · exact next hf
      · cases hf
      · cases hf
  obtain ⟨⟨x, c'⟩, hscalar, rfl⟩ := Option.map_eq_some_iff.mp hc
  obtain ⟨t, ht, hf⟩ := Option.bind_eq_some_iff.mp hscalar
  exact Option.map_eq_some_iff.mpr
    ⟨(x, c'), Option.bind_eq_some_iff.mpr ⟨t, found ht hf, follow hf⟩, rfl⟩

/-- A structure with fields was there before. -/
theorem Stems.mem_of_fields (h : s.Stems s') {t : TypeEntry} {x : Record} (ht : t ∈ s'.types)
    (hx : t.record? = some x) (hsome : x.fields ≠ []) : t ∈ s.types := by
  rcases h.origin _ _ (lookup?_of_mem h.names ht) with hfound | hunion | ⟨y, hy, hnil⟩
  · exact (mem_of_lookup? hfound).1
  · obtain ⟨u, hu⟩ := Option.isSome_iff_exists.mp hunion
    cases (TypeEntry.kind_of_record? hx).symm.trans (TypeEntry.kind_of_union? hu)
  · cases hy.symm.trans hx
    exact (hsome hnil).elim

section Sizes

variable {k k' : Known} {x : Record} {p : SessionPrefix}

/-- Sizes that are found for a tag are those of the tag and of what it counts. -/
theorem exists_of_tagSizes {tag : Field} (h : Yields (s.tagSizes x tag) k (some p) k') :
    ∃ data, tag.partner.bind x.field? = some data ∧
      ∃ k₁, Yields (s.wireSize tag.typeName) k p.sizeLen k₁ ∧
        Yields (s.countedSize data) k₁ p.valLen k' := by
  unfold tagSizes at h
  split at h
  · cases (yields_pure.mp h).1
  · next data hdata =>
    obtain ⟨sizeLen, k₁, hsize, h⟩ := yields_bind.mp h
    obtain ⟨valLen, k₂, hvalue, h⟩ := yields_bind.mp h
    obtain ⟨heq, rfl⟩ := yields_pure.mp h
    cases heq
    exact ⟨data, hdata, k₁, hsize, hvalue⟩

/-- Sizes are found for a first parameter that is a tag, or is of a structure that starts with one.
-/
theorem exists_of_sessionPrefix (h : Yields (s.sessionPrefix x) k (some p) k') :
    ∃ first rest, x.parameters = first :: rest ∧
      ((first.marshal = .count ∨ first.marshal = .bodySize) ∧
          Yields (s.tagSizes x first) k (some p) k' ∨
        first.marshal = .plain ∧ ∃ t inner tag others,
          s.recordOf? first.typeName = some (t, inner) ∧ inner.fields = tag :: others ∧
            tag.marshal.isTag = true ∧ Yields (s.tagSizes inner tag) k (some p) k') := by
  unfold sessionPrefix at h
  split at h
  · cases (yields_pure.mp h).1
  · next first rest hfirst =>
    refine ⟨first, rest, hfirst, ?_⟩
    split at h
    · next hm => exact .inl ⟨.inl hm, h⟩
    · next hm => exact .inl ⟨.inr hm, h⟩
    · next hm =>
      split at h
      · next t inner hrecord =>
        split at h
        · next tag others hfields =>
          split at h
          · next htag => exact .inr ⟨hm, t, inner, tag, others, hrecord, hfields, htag, h⟩
          · cases (yields_pure.mp h).1
        · cases (yields_pure.mp h).1
      · cases (yields_pure.mp h).1
    · cases (yields_pure.mp h).1

/-- The sizes that are found are those for the structures of their names. -/
theorem exists_of_sessionPrefixes {found : List (String × SessionPrefix)}
    (h : Yields s.sessionPrefixes k found k') : ∀ p ∈ found, ∃ t ∈ s.types, ∃ x,
      t.specName = p.1 ∧ t.record? = some x ∧
        ∃ k₁ k₂, Yields (s.sessionPrefix x) k₁ (some p.2) k₂ := by
  unfold sessionPrefixes at h
  refine (h.filterMapM (I := fun _ => True) (R := fun p => ∃ t ∈ s.types, ∃ x,
    t.specName = p.1 ∧ t.record? = some x ∧
      ∃ k₁ k₂, Yields (s.sessionPrefix x) k₁ (some p.2) k₂) trivial
    fun (t, x) hmem k₁ sizes k₂ _ hy => ⟨trivial, ?_⟩).2
  obtain ⟨t', ht', heq⟩ := List.mem_filterMap.mp (List.mem_filter.mp hmem).1
  obtain ⟨x', hx', heq⟩ := Option.map_eq_some_iff.mp heq
  cases heq
  obtain ⟨found, _, hfound, hend⟩ := yields_bind.mp hy
  obtain ⟨rfl, rfl⟩ := yields_pure.mp hend
  intro p hp
  obtain ⟨sizes, rfl, rfl⟩ := Option.map_eq_some_iff.mp hp
  exact ⟨t, (List.mem_filter.mp ht').1, x, rfl, hx', _, _, hfound⟩

end Sizes

/-- Sizes that are noted for a structure without an absent tail were looked up for its fields. -/
theorem exists_of_noted {found : List (String × SessionPrefix)} {k k' : Known} (hs : s.names.Nodup)
    (hfound : Yields s.sessionPrefixes k found k') (h : s.RecastBy (Record.Noted found) s')
    {t : TypeEntry} {x : Record} {p : SessionPrefix} (ht : t ∈ s'.types) (hx : t.record? = some x)
    (hnone : x.nullTail = none) (hp : x.sessionPrefix = some p)
    (hunmarked : s.Unmarked t.specName) :
    ∃ y k₁ k₂, y.fields = x.fields ∧ Yields (s.sessionPrefix y) k₁ (some p) k₂ := by
  obtain ⟨t₀, ht₀, x₀, hname, hx₀, hnoted⟩ := h.exists_record ht hx
  rcases hnoted.sizes with hsame | ⟨q, hq, hsizes⟩
  · rw [hsame, hunmarked t₀ ht₀ hname.symm x₀ hx₀] at hp
    cases hp
  · cases hsizes.symm.trans hp
    obtain ⟨u, hu, y, hname', hy, k₁, k₂, hsize⟩ := exists_of_sessionPrefixes hfound _ hq
    obtain rfl := List.inj_on_of_nodup_map hs hu ht₀ hname'
    cases hy.symm.trans hx₀
    exact ⟨x₀, k₁, k₂, by rw [hnoted.kept hnone], hsize⟩

/-- What a schema in normal form goes back to, in the schema in which the sizes were looked up. -/
structure Traced (s s' : Schema) : Prop where
  scalar : ∀ name c, s'.scalar? name = some c → s.scalar? name = some c
  fields : ∀ name t x fields, s.recordOf? name = some (t, x) → s'.HasFields name fields →
    ∃ above own, fields = above ++ own ∧ List.Forall₂ SameOrPlain x.fields own
  noted : ∀ t' ∈ s'.types, ∀ x' p, t'.record? = some x' → x'.fields ≠ [] → x'.nullTail = none →
    x'.sessionPrefix = some p → s.Unmarked t'.specName →
      ∃ x k k', x.fields = x'.fields ∧ Yields (s.sessionPrefix x) k (some p) k'

end Schema

namespace Edit

open Schema

variable {config : Config} {r r' : Registry} {n : Nat} {found : List (String × SessionPrefix)}

section Before

theorem recast_linkSizedPairs (hy : Yields linkSizedPairs r n r') :
    r.RecastBy Record.SamePrefix r'.toSchema := by
  unfold linkSizedPairs at hy
  simp only [yields_bind, yields_schema, yields_update, yields_pure] at hy
  obtain ⟨_, _, ⟨rfl, rfl⟩, _, _, rfl, rfl, rfl⟩ := hy
  exact .mapRecord (P := Record.SamePrefix) (f := fun _ x =>
    { x with fields := (Schema.linkSizedPair _ x.fields).getD x.fields }) fun _ _ => rfl

theorem recast_inlineWrappers (hnames : r.names.Nodup)
    (hy : Yields (inlineWrappers config) r n r') : r.RecastBy Record.SamePrefix r'.toSchema := by
  rw [(inlined_of_inlineWrappers hnames hy).1.eq_expand]
  exact .mapRecord (f := fun owner x => x.expand (r'.pieces config owner)) fun _ _ => rfl

theorem recast_implyLengthOf {ref : FieldRef} (hy : Yields (implyLengthOf ref) r n r') :
    r.RecastBy Record.SamePrefix r'.toSchema := by
  unfold implyLengthOf at hy
  obtain ⟨_, _, hs, hy⟩ := yields_bind.mp hy
  obtain ⟨rfl, rfl⟩ := yields_schema.mp hs
  split at hy
  · obtain ⟨-, rfl⟩ := yields_pure.mp hy
    exact .refl Record.SamePrefix.refl
  · split at hy
    · exact (not_yields_throw hy).elim
    · dsimp only at hy
      split at hy
      · obtain ⟨-, rfl⟩ := yields_pure.mp hy
        exact .refl Record.SamePrefix.refl
      · split at hy
        · exact (not_yields_throw hy).elim
        · obtain ⟨_, _, hupdate, hend⟩ := yields_bind.mp hy
          obtain ⟨-, rfl⟩ := yields_pure.mp hend
          rw [yields_update.mp hupdate]
          exact .modifyRecord Record.SamePrefix.refl fun _ => rfl

theorem recast_implyLengths (hy : Yields (implyLengths config) r n r') :
    r.RecastBy Record.SamePrefix r'.toSchema := by
  refine Yields.foldlM (I := fun r' => r.RecastBy Record.SamePrefix r'.toSchema) hy
    (.refl Record.SamePrefix.refl) fun ref _ count r₁ n r₂ hr hy => ?_
  obtain ⟨m, _, hm, hy⟩ := yields_bind.mp hy
  obtain ⟨-, rfl⟩ := yields_pure.mp hy
  exact hr.trans Record.SamePrefix.trans (recast_implyLengthOf hm)

end Before

section After

/-- Sizes are noted for the structures that they were found for. -/
theorem noted_noteSessionPrefixes (hy : Yields noteSessionPrefixes r n r') :
    ∃ found k k', Yields r.toSchema.sessionPrefixes k found k' ∧
      r.RecastBy (Record.Noted found) r'.toSchema := by
  unfold noteSessionPrefixes at hy
  obtain ⟨found, _, hcalculate, hy⟩ := yields_bind.mp hy
  obtain ⟨known, hasked, rfl⟩ := yields_calculate hcalculate
  obtain ⟨_, r₁, hloop, hy⟩ := yields_bind.mp hy
  obtain ⟨-, rfl⟩ := yields_pure.mp hy
  refine ⟨found, _, _, hasked, ?_⟩
  refine hloop.forM (I := fun r' => r.RecastBy (Record.Noted found) r'.toSchema)
    (.refl Record.Noted.refl) fun p hp r₁ r₂ hr hy => hr.trans Record.Noted.trans ?_
  rw [yields_update.mp hy]
  exact .modifyRecord Record.Noted.refl fun x =>
    ⟨sameOrPlain_refl _, fun _ => rfl, .inr ⟨p.2, hp, rfl⟩⟩

theorem noted_markNullTail {name : String} {unions : Option (List String)}
    (hy : Yields (markNullTail config name) r unions r') :
    r.RecastBy (Record.Noted found) r'.toSchema := by
  rcases markNullTail_cases hy with ⟨-, rfl⟩ | ⟨_, tail, selector, -, -, -, -, -, rfl⟩
  · exact .refl Record.Noted.refl
  · exact .modifyRecord Record.Noted.refl fun x =>
      ⟨sameOrPlain_trans sameOrPlain_withPlain sameOrPlain_makePlain, nofun, .inl rfl⟩

theorem noted_dropUnusedUnion {union : String} {u : Unit}
    (hy : Yields (dropUnusedUnion union) r u r') : r.RecastBy (Record.Noted found) r'.toSchema := by
  rcases dropUnusedUnion_cases hy with rfl | ⟨-, rfl⟩
  · exact .refl Record.Noted.refl
  · have hin : TypeEntry.InPlace ({ · with implemented := false }) :=
      ⟨fun _ => rfl, fun _ => rfl, fun _ _ => rfl⟩
    refine ⟨hin.modify union, fun t _ x x' hx hx' => ?_⟩
    split at hx'
    · cases hx.symm.trans hx'
      exact .refl _ _
    · cases hx.symm.trans hx'
      exact .refl _ _

theorem noted_markNullTails (hy : Yields (markNullTails config) r n r') :
    r.RecastBy (Record.Noted found) r'.toSchema := by
  unfold markNullTails at hy
  obtain ⟨unions, r₁, hmark, hy⟩ := yields_bind.mp hy
  obtain ⟨_, r₂, hdrop, hy⟩ := yields_bind.mp hy
  obtain ⟨-, rfl⟩ := yields_pure.mp hy
  have hmarked : r.RecastBy (Record.Noted found) r₁.toSchema :=
    (hmark.filterMapM (I := fun r' => r.RecastBy (Record.Noted found) r'.toSchema)
      (R := fun _ => True) (.refl Record.Noted.refl) fun _ _ _ _ _ hr hy =>
        ⟨hr.trans Record.Noted.trans (noted_markNullTail hy), fun _ _ => trivial⟩).1
  exact hdrop.forM (I := fun r' => r.RecastBy (Record.Noted found) r'.toSchema) hmarked
    fun _ _ _ _ hr hy => hr.trans Record.Noted.trans (noted_dropUnusedUnion hy)

theorem stems_separateUnions (hnames : r.names.Nodup) (hy : Yields (separateUnions config) r n r') :
    r.Stems r'.toSchema := by
  refine invariant_of_separateUnions (I := fun r' => r.Stems r'.toSchema) hy
    ⟨hnames, fun _ _ h => .inl h, fun _ _ h => h⟩ fun union m r₁ r₂ hg hy => ?_
  rcases separateUnion_cases hy with ⟨-, rfl⟩ | ⟨found, hfound, -⟩
  · exact hg
  · obtain ⟨t, ht, hu⟩ := Option.bind_eq_some_iff.mp hfound
    refine invariant_of_steps (I := fun r' => r.Stems r'.toSchema)
      (divides_separateUnion hg.names ht hu hy).1 hg fun r₁ r₂ hg hstep =>
        ⟨hstep.names hg.names, fun name t ht => ?_, fun name own hs =>
          (hstep.retains hg.names).shows (hg.shows name own hs)⟩
    exact (hstep.found_cases hg.names ht).elim (hg.origin name t) .inr

end After

/-- Normal form goes back to a schema in which sizes were looked up, before which none were noted.
-/
theorem exists_traced (hnames : r.names.Nodup) (h : Passes config r r') :
    ∃ s, r.RecastBy Record.SamePrefix s ∧ s.Traced r'.toSchema := by
  obtain @⟨r₁, r₂, r₃, r₄, r₅, r₆, _, _, _, _, _, _, hpairs, hwrappers, hlengths, hprefixes, htails,
    hunions⟩ := h
  have h₁ := recast_linkSizedPairs hpairs
  have h₂ := recast_inlineWrappers (h₁.names_eq ▸ hnames) hwrappers
  have h₃ := (h₁.trans Record.SamePrefix.trans h₂).trans Record.SamePrefix.trans
    (recast_implyLengths hlengths)
  obtain ⟨found, k, k', hasked, h₄⟩ := noted_noteSessionPrefixes hprefixes
  have h₅ := h₄.trans Record.Noted.trans (noted_markNullTails htails)
  have hnames₃ : r₃.names.Nodup := h₃.names_eq ▸ hnames
  have hstems := stems_separateUnions (h₅.names_eq ▸ hnames₃) hunions
  refine ⟨r₃.toSchema, h₃, ⟨fun name c hc => ?_, fun name t x fields hrecord hfields => ?_,
    fun t' ht' x' p hx' hsome hnone hp hunmarked => ?_⟩⟩
  · rw [← h₅.scalar?]
    exact hstems.scalar? (scalar?_linkUnions ▸ hc)
  · obtain ⟨t₅, x₅, hrecord₅, hnoted⟩ := h₅.recordOf? hrecord
    obtain ⟨above, rfl⟩ :=
      (hstems.shows name _ (.own hrecord₅)).exists_above (hasFields_linkUnions.mp hfields)
    exact ⟨above, x₅.fields, rfl, hnoted.fields⟩
  · obtain ⟨t₆, ht₆, x₆, hname, hx₆, rfl⟩ := recast_linkUnions.exists_record ht' hx'
    rw [hname] at hunmarked
    exact exists_of_noted (x := x₆) hnames₃ hasked h₅ (hstems.mem_of_fields ht₆ hx₆ hsome) hx₆
      hnone hp hunmarked

end Edit

end WireTables
