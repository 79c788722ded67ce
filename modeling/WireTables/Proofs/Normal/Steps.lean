import Mathlib.Logic.Relation
import WireTables.Proofs.Normal.Basic

/-!
# The steps of normal form

Everything that the passes do to a registry comes down to a few elementary changes. Those before the
unions are separated change structures under their names and take unions out of what is put out
(`Reshapes`, of which all but the linking of sized pairs are `Rewrites`); those that separate a
union turn further names into structures, add structures and rename the types of members
(`Separates`). What each of these steps keeps, the passes keep.
-/

namespace WireTables

open Relation (ReflTransGen)

namespace Edit

/-- One change by the passes between the sized pairs and the unions. -/
inductive Rewrites (config : Config) (r : Registry) : Registry → Prop where
  | inline {name : String} {found : Record} {fields : List Field} {n : Nat}
    (lookup : (r.lookup? name).bind TypeEntry.record? = some found)
    (inlined : r.inlineFields config name found = .ok (fields, n)) :
    Rewrites config r { r with toSchema := r.toSchema.modifyRecord name ({ · with fields }) }
  | imply {ref : FieldRef} {found : Record} {f : Field} {element : String} {domain : Domain}
    (listed : ref ∈ config.implicitLengths)
    (lookup : (r.lookup? ref.record).bind TypeEntry.record? = some found)
    (field : found.field? ref.field = some f) (before : f.marshal ≠ .restArray)
    (part : r.arrayPart? f = some (element, domain)) :
    Rewrites config r { r with
      toSchema := r.toSchema.modifyRecord ref.record fun x => { x with
        fields := Schema.implyLength ref.field
          (if f.marshal == .countedArray then f.partner else none) element domain x.fields } }
  | remember {found : List (String × SessionPrefix)} {known : Known}
    (asked : Yields r.toSchema.sessionPrefixes r.known found known) :
    Rewrites config r { r with known }
  | note (name : String) (sizes : SessionPrefix) :
    Rewrites config r { r with
      toSchema := r.toSchema.modifyRecord name ({ · with sessionPrefix := some sizes }) }
  | tail {name selector : String} {found : Record} {parts : List Schema.TailField}
    (lookup : (r.lookup? name).bind TypeEntry.record? = some found)
    (before : found.nullTail = none) (tail : r.tailFields name found = .ok parts)
    (last : parts.getLast?.bind (·.selector) = some selector) (listed : name ∈ config.nullTails) :
    Rewrites config r { r with
      toSchema :=
        r.toSchema.modifyRecord name (Schema.withNullTail parts selector config.nullSelector) }
  | drop {union : String} (unused : r.isFieldType union = false) (there : union ∈ r.unionNames) :
    Rewrites config r { r with
      toSchema := r.toSchema.modifyType union ({ · with implemented := false }) }

/-- One change by the passes before unions are separated. -/
inductive Reshapes (config : Config) (r : Registry) : Registry → Prop where
  | pairs : Reshapes config r { r with toSchema := r.toSchema.linkSizedPairs }
  | rewrite {r' : Registry} (h : Rewrites config r r') : Reshapes config r r'

/-- One change by which a union is separated. -/
inductive Separates (union : String) (r : Registry) : Registry → Prop where
  | derive {name : String} {base : TypeEntry} {errorCode : Option String} {s : Schema}
    (target : r.target name = .ok base)
    (moved : (r.toSchema.modifyType name
      ({ · with kind := .record { base := some base.specName, errorCode } })).ensureAfter
        name base.specName = .ok s) :
    Separates union r { r with toSchema := s }
  | add {shared derived comment anchor : String} {s : Schema}
    (added : r.toSchema.addType
      (TypeEntry.new derived (.record { base := some shared }) comment) (some anchor) = .ok s) :
    Separates union r { r with toSchema := s }
  | rename (index : Nat) (type : String) :
    Separates union r { r with
      toSchema := r.toSchema.modifyType union (·.mapUnion fun u =>
        { u with members := u.members.modify index ({ · with typeName := type }) }) }

variable {config : Config} {r r' : Registry} {n : Nat} {u : Unit}

theorem rewrites_inlineWrappers (hy : Yields (inlineWrappers config) r n r') :
    ReflTransGen (Rewrites config) r r' :=
  inlineWrappers_induction (fun h hfound hinline => h.tail (.inline hfound hinline)) .refl hy

theorem rewrites_implyLengths (hy : Yields (implyLengths config) r n r') :
    ReflTransGen (Rewrites config) r r' := by
  refine Yields.foldlM (I := ReflTransGen (Rewrites config) r) hy .refl
    fun ref href count r₁ n r₂ hr hy => hr.trans ?_
  obtain ⟨m, _, hm, hy⟩ := yields_bind.mp hy
  obtain ⟨-, rfl⟩ := yields_pure.mp hy
  unfold implyLengthOf at hm
  obtain ⟨_, _, hs, hm⟩ := yields_bind.mp hm
  obtain ⟨rfl, rfl⟩ := yields_schema.mp hs
  split at hm
  · obtain ⟨-, rfl⟩ := yields_pure.mp hm
    exact .refl
  · next found hfound =>
    split at hm
    · exact (not_yields_throw hm).elim
    · next f hf =>
      dsimp only at hm
      split at hm
      · obtain ⟨-, rfl⟩ := yields_pure.mp hm
        exact .refl
      · next hbefore =>
        split at hm
        · exact (not_yields_throw hm).elim
        · next element domain hpart =>
          obtain ⟨_, _, hupdate, hend⟩ := yields_bind.mp hm
          obtain ⟨-, rfl⟩ := yields_pure.mp hend
          rw [yields_update.mp hupdate]
          exact .single (.imply href hfound hf (by simpa using hbefore) hpart)

theorem rewrites_noteSessionPrefixes (hy : Yields noteSessionPrefixes r n r') :
    ReflTransGen (Rewrites config) r r' := by
  unfold noteSessionPrefixes at hy
  obtain ⟨found, _, hcalculate, hy⟩ := yields_bind.mp hy
  obtain ⟨known, hasked, rfl⟩ := yields_calculate hcalculate
  obtain ⟨_, r₁, hloop, hy⟩ := yields_bind.mp hy
  obtain ⟨-, rfl⟩ := yields_pure.mp hy
  refine hloop.forM (I := ReflTransGen (Rewrites config) r) (.single (.remember hasked))
    fun x _ r₁ r₂ hr hy => hr.trans ?_
  rw [yields_update.mp hy]
  exact .single (.note x.1 x.2)

theorem rewrites_markNullTail {name : String} {unions : Option (List String)}
    (hname : name ∈ config.nullTails)
    (hy : Yields (markNullTail config name) r unions r') :
    ReflTransGen (Rewrites config) r r' := by
  rcases markNullTail_cases hy with
    ⟨-, rfl⟩ | ⟨found, tail, selector, hfound, hbefore, htail, hselector, -, rfl⟩
  · exact .refl
  · exact .single (.tail hfound hbefore htail hselector hname)

theorem rewrites_markNullTails (hy : Yields (markNullTails config) r n r') :
    ReflTransGen (Rewrites config) r r' := by
  unfold markNullTails at hy
  obtain ⟨unions, r₁, hmark, hy⟩ := yields_bind.mp hy
  obtain ⟨_, r₂, hdrop, hy⟩ := yields_bind.mp hy
  obtain ⟨-, rfl⟩ := yields_pure.mp hy
  obtain ⟨hmarked, hunions⟩ := hmark.filterMapM
    (I := fun s => ReflTransGen (Rewrites config) r s ∧ s.unionNames = r.unionNames)
    (R := fun names => ∀ union ∈ names, union ∈ r.unionNames) ⟨.refl, rfl⟩
    fun name hname s y s' hs hy => by
      obtain ⟨hnames, hof⟩ := unionNames_markNullTail hy
      exact ⟨⟨hs.1.trans (rewrites_markNullTail hname hy), hnames.trans hs.2⟩,
        fun names hn => hs.2 ▸ hof names hn⟩
  refine (hdrop.forM (I := fun s => ReflTransGen (Rewrites config) r s ∧
    s.unionNames = r.unionNames) hmarked fun union hunion s s' hs hy => ?_).1
  refine ⟨?_, (unionNames_dropUnusedUnion hy).trans hs.2⟩
  obtain ⟨names, hn, hmem⟩ := List.mem_flatten.mp hunion
  rcases dropUnusedUnion_cases hy with rfl | ⟨hunused, rfl⟩
  · exact hs.1
  · exact hs.1.tail (.drop hunused (hs.2 ▸ hunions names hn union hmem))

/-- A further name becomes a structure whose base is what it stood for, and is moved. -/
theorem exists_of_deriveFromAlias {name : String} (hy : Yields (deriveFromAlias name) r u r') :
    ∃ base errorCode s, r.target name = .ok base ∧
      (r.toSchema.modifyType name
        ({ · with kind := .record { base := some base.specName, errorCode } })).ensureAfter
          name base.specName = .ok s ∧ r' = { r with toSchema := s } := by
  unfold deriveFromAlias at hy
  obtain ⟨_, _, hs, hy⟩ := yields_bind.mp hy
  obtain ⟨rfl, rfl⟩ := yields_schema.mp hs
  obtain ⟨base, r₁, hof, hchange⟩ := yields_bind.mp hy
  obtain ⟨hbase, rfl⟩ := yields_ofExcept.mp hof
  obtain ⟨_, r₂, hupdate, hmove⟩ := yields_bind.mp hchange
  obtain ⟨s, hs, rfl⟩ := yields_tryUpdate.mp hmove
  rw [yields_update.mp hupdate] at hs ⊢
  exact ⟨base, _, s, hbase, hs, rfl⟩

theorem separates_deriveFromAlias {name union : String}
    (hy : Yields (deriveFromAlias name) r u r') : Separates union r r' := by
  obtain ⟨base, errorCode, s, hbase, hs, rfl⟩ := exists_of_deriveFromAlias hy
  exact .derive hbase hs

/-- A structure is added unless its name is taken, right after its base or the type that was last
derived from it, and a member is of that type from then on. -/
theorem anchored_of_addDerived {union : String} {anchors : List (String × String)}
    {change : Renaming} {result : List (String × String) × Nat}
    (hy : Yields (addDerived union anchors change) r result r') :
    ∃ r₁, (r.contains change.derived = true ∧ r₁ = r ∧ result.1 = anchors ∨
        ∃ comment s, r.toSchema.addType
          (TypeEntry.new change.derived (.record { base := some change.shared }) comment)
            (some ((anchors.lookup change.shared).getD change.shared)) = .ok s ∧
          r₁ = { r with toSchema := s } ∧
            result.1 = (change.shared, change.derived) :: anchors) ∧
      r' = { r₁ with toSchema := r₁.toSchema.modifyType union (·.mapUnion fun u => { u with
        members := u.members.modify change.index ({ · with typeName := change.derived }) }) } := by
  unfold addDerived at hy
  obtain ⟨_, r₀, hs, hy⟩ := yields_bind.mp hy
  obtain ⟨rfl, rfl⟩ := yields_schema.mp hs
  dsimp only at hy
  split at hy
  · obtain ⟨_, r₁, hadd, hy⟩ := yields_bind.mp hy
    obtain ⟨s, hs, rfl⟩ := yields_tryUpdate.mp hadd
    obtain ⟨_, _, hupdate, hend⟩ := yields_bind.mp hy
    obtain ⟨rfl, rfl⟩ := yields_pure.mp hend
    exact ⟨_, .inr ⟨_, s, hs, rfl, rfl⟩, yields_update.mp hupdate⟩
  · next htaken =>
    obtain ⟨_, _, hupdate, hend⟩ := yields_bind.mp hy
    obtain ⟨rfl, rfl⟩ := yields_pure.mp hend
    exact ⟨_, .inl ⟨by simpa using htaken, rfl, rfl⟩, yields_update.mp hupdate⟩

theorem exists_of_addDerived {union : String} {anchors : List (String × String)}
    {change : Renaming} {result : List (String × String) × Nat}
    (hy : Yields (addDerived union anchors change) r result r') :
    ∃ r₁, (r.contains change.derived = true ∧ r₁ = r ∨ ∃ comment anchor s, r.toSchema.addType
        (TypeEntry.new change.derived (.record { base := some change.shared }) comment)
          (some anchor) = .ok s ∧ r₁ = { r with toSchema := s }) ∧
      r' = { r₁ with toSchema := r₁.toSchema.modifyType union (·.mapUnion fun u => { u with
        members := u.members.modify change.index ({ · with typeName := change.derived }) }) } := by
  obtain ⟨r₁, hadded, hr'⟩ := anchored_of_addDerived hy
  refine ⟨r₁, hadded.imp (fun h => ⟨h.1, h.2.1⟩) ?_, hr'⟩
  rintro ⟨comment, s, hs, hr₁, -⟩
  exact ⟨comment, _, s, hs, hr₁⟩

theorem separates_addAllDerived {union : String} {renamings : List Renaming}
    {anchors : List (String × String)}
    (hy : Yields (addAllDerived union anchors renamings) r n r') :
    ReflTransGen (Separates union) r r' := by
  induction renamings generalizing r n anchors with
  | nil =>
    obtain ⟨-, rfl⟩ := yields_pure.mp hy
    exact .refl
  | cons change rest ih =>
    unfold addAllDerived at hy
    obtain ⟨⟨anchors', count⟩, r₁, hadd, hy⟩ := yields_bind.mp hy
    obtain ⟨m, r₂, hrest, hend⟩ := yields_bind.mp hy
    obtain ⟨-, rfl⟩ := yields_pure.mp hend
    refine ReflTransGen.trans ?_ (ih hrest)
    obtain ⟨r₃, ⟨-, rfl⟩ | ⟨comment, anchor, s, hs, rfl⟩, rfl⟩ := exists_of_addDerived hadd
    · exact .single (.rename _ _)
    · exact (ReflTransGen.single (.add hs)).tail (.rename _ _)

/-- What is not a union is not separated; otherwise its further names of structures are turned into
structures, and then its shared types get structures for their members. -/
theorem separateUnion_cases {union : String} (hy : Yields (separateUnion config union) r n r') :
    ((r.lookup? union).bind TypeEntry.union? = none ∧ r' = r) ∨ ∃ found,
      (r.lookup? union).bind TypeEntry.union? = some found ∧ ∃ r₁ renamings m,
        Yields ((r.memberAliases found).forM deriveFromAlias) r ⟨⟩ r₁ ∧
          r₁.renamings config union found = .ok renamings ∧
            Yields (addAllDerived union [] renamings) r₁ m r' := by
  unfold separateUnion at hy
  obtain ⟨_, _, hs, hy⟩ := yields_bind.mp hy
  obtain ⟨rfl, rfl⟩ := yields_schema.mp hs
  split at hy
  · next hnone =>
    obtain ⟨-, rfl⟩ := yields_pure.mp hy
    exact .inl ⟨hnone, rfl⟩
  · next found hfound =>
    obtain ⟨_, r₁, hderive, hy⟩ := yields_bind.mp hy
    obtain ⟨_, _, hs, hy⟩ := yields_bind.mp hy
    obtain ⟨rfl, rfl⟩ := yields_schema.mp hs
    obtain ⟨renamings, r₂, hof, hadd⟩ := yields_bind.mp hy
    obtain ⟨hrenamings, rfl⟩ := yields_ofExcept.mp hof
    obtain ⟨m, r₃, hrest, hend⟩ := yields_bind.mp hadd
    obtain ⟨-, rfl⟩ := yields_pure.mp hend
    exact .inr ⟨found, hfound, _, renamings, m, hderive, hrenamings, hrest⟩

theorem separates_separateUnion {union : String} (hy : Yields (separateUnion config union) r n r') :
    ReflTransGen (Separates union) r r' := by
  rcases separateUnion_cases hy with ⟨-, rfl⟩ | ⟨found, -, r₁, renamings, m, hderive, -, hadd⟩
  · exact .refl
  · refine ReflTransGen.trans ?_ (separates_addAllDerived hadd)
    exact hderive.forM (I := ReflTransGen (Separates union) r) .refl
      fun _ _ _ _ hs hy => hs.tail (separates_deriveFromAlias hy)

/-- What each step keeps, all of them keep. -/
theorem invariant_of_steps {R : Registry → Registry → Prop} {I : Registry → Prop}
    (h : ReflTransGen R r r') (hstart : I r) (hstep : ∀ r₁ r₂, I r₁ → R r₁ r₂ → I r₂) : I r' := by
  induction h with
  | refl => exact hstart
  | tail _ hlast ih => exact hstep _ _ ih hlast

/-- What separating one union keeps, separating all of them keeps. -/
theorem invariant_of_separateUnions {I : Registry → Prop}
    (hy : Yields (separateUnions config) r n r') (hstart : I r)
    (hunion : ∀ union m r₁ r₂, I r₁ → Yields (separateUnion config union) r₁ m r₂ → I r₂) :
    I r' := by
  unfold separateUnions at hy
  obtain ⟨_, _, hs, hloop⟩ := yields_bind.mp hy
  obtain ⟨rfl, rfl⟩ := yields_schema.mp hs
  refine hloop.foldlM (I := I) hstart fun union _ count r₁ m r₂ hr hy => ?_
  obtain ⟨k, _, hy, hend⟩ := yields_bind.mp hy
  obtain ⟨-, rfl⟩ := yields_pure.mp hend
  exact hunion union k r₁ _ hr hy

theorem reshapes_of_rewrites (h : ReflTransGen (Rewrites config) r r') :
    ReflTransGen (Reshapes config) r r' :=
  ReflTransGen.mono (fun _ _ => Reshapes.rewrite) _ _ h

/-- Between the sized pairs and the unions there are only rewriting steps. -/
theorem rewrites_of_passes (h : Passes config r r') : ∃ r₅ r₆ n₆,
    ReflTransGen (Rewrites config) { r with toSchema := r.toSchema.linkSizedPairs } r₅ ∧
      Yields (separateUnions config) r₅ n₆ r₆ ∧
        r' = { r₆ with toSchema := r₆.toSchema.linkUnions } := by
  obtain ⟨hpairs, hwrappers, hlengths, hprefixes, htails, hunions⟩ := h
  unfold linkSizedPairs at hpairs
  simp only [yields_bind, yields_schema, yields_update, yields_pure] at hpairs
  obtain ⟨_, _, ⟨rfl, rfl⟩, _, _, rfl, rfl, rfl⟩ := hpairs
  exact ⟨_, _, _, (rewrites_inlineWrappers hwrappers).trans <|
    (rewrites_implyLengths hlengths).trans <| (rewrites_noteSessionPrefixes hprefixes).trans
      (rewrites_markNullTails htails), hunions, rfl⟩

/-- Before unions are separated there are only reshaping steps. -/
theorem reshapes_of_passes (h : Passes config r r') : ∃ r₅ r₆ n₆,
    ReflTransGen (Reshapes config) r r₅ ∧ Yields (separateUnions config) r₅ n₆ r₆ ∧
      r' = { r₆ with toSchema := r₆.toSchema.linkUnions } := by
  obtain ⟨r₅, r₆, n₆, hrewritten, hunions, hr'⟩ := rewrites_of_passes h
  exact ⟨r₅, r₆, n₆, .head .pairs (reshapes_of_rewrites hrewritten), hunions, hr'⟩

/-- What each reshaping step, the separation of each union and the links to unions keep, the passes
keep. -/
theorem invariant_of_passes {I : Registry → Prop} (h : Passes config r r') (hstart : I r)
    (hreshape : ∀ r₁ r₂, I r₁ → Reshapes config r₁ r₂ → I r₂)
    (hunion : ∀ union m r₁ r₂, I r₁ → Yields (separateUnion config union) r₁ m r₂ → I r₂)
    (hlink : ∀ r₁, I r₁ → I { r₁ with toSchema := r₁.toSchema.linkUnions }) : I r' := by
  obtain ⟨r₅, r₆, n₆, hreshaped, hseparated, rfl⟩ := reshapes_of_passes h
  exact hlink r₆ (invariant_of_separateUnions hseparated
    (invariant_of_steps hreshaped hstart hreshape) hunion)

end Edit

end WireTables
