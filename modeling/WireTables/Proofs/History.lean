import WireTables.Normal.Basic
import WireTables.Proofs.Schema.Mirrors
import WireTables.Target.Adapt

/-!
# What a registry has gone through

A registry comes about by operations, each of which may fail and may have done part of its work
then. On an arena they are made of the calls that change it: a pass that is put together from edits
of registries is put together in the same way from what realizes these edits on arenas
(`Realization`), and it asks what it asks of the registry that the arena is read as.

So every operation keeps the parts of an arena together whatever its outcome, and over a whole
history what has been registered stays under its number and its name (`Arena.reflects_after`). A
single call that fails has changed nothing, and one that succeeds has put the type where it should
be (`Arena.order_and_names_kept`).
-/

namespace WireTables

/-- A change of arenas that does to them what an edit does to the registries that they are read
as. -/
structure Realization {α : Type} (m : Edit α) where
  edit : ArenaEdit α
  mirrors : Mirrors m edit

namespace Realization

section Building

variable {α β : Type}

def pure (x : α) : Realization (Pure.pure x : Edit α) :=
  ⟨Pure.pure x, .pure⟩

def throw (e : Error) : Realization (MonadExcept.throw e : Edit α) :=
  ⟨MonadExcept.throw e, .throw⟩

def ofExcept (result : Except Error α) : Realization (Edit.ofExcept result) :=
  ⟨ArenaEdit.ofExcept result, .ofExcept⟩

def schema : Realization Edit.schema :=
  ⟨ArenaEdit.schema, .schema⟩

def calculate (m : Schema → Eval α) : Realization (Edit.calculate m) :=
  ⟨ArenaEdit.calculate m, .calculate⟩

def bind {m : Edit α} {f : α → Edit β} (x : Realization m) (y : ∀ v, Realization (f v)) :
    Realization (m >>= f) :=
  ⟨x.edit >>= fun v => (y v).edit, x.mirrors.bind fun v => (y v).mirrors⟩

def foldlM {f : β → α → Edit β} {vs : List α} {b : β} (x : ∀ b v, Realization (f b v)) :
    Realization (vs.foldlM f b) :=
  ⟨vs.foldlM (fun b v => (x b v).edit) b, .foldlM fun b v => (x b v).mirrors⟩

def forM {f : α → Edit Unit} {vs : List α} (x : ∀ v, Realization (f v)) :
    Realization (vs.forM f) :=
  ⟨vs.forM fun v => (x v).edit, .forM fun v => (x v).mirrors⟩

def filterMapM {f : α → Edit (Option β)} {vs : List α} (x : ∀ v, Realization (f v)) :
    Realization (vs.filterMapM f) :=
  ⟨vs.filterMapM fun v => (x v).edit, .filterMapM fun v => (x v).mirrors⟩

def ite {c : Prop} [Decidable c] {m m' : Edit α} (x : Realization m) (y : Realization m') :
    Realization (if c then m else m') :=
  ⟨if c then x.edit else y.edit, by split; exacts [x.mirrors, y.mirrors]⟩

end Building

section Calls

/-- A structure is changed under its name. -/
def modifyRecord (name : String) (f : Record → Record) :
    Realization (Edit.update (·.modifyRecord name f)) :=
  ⟨ArenaEdit.amendType name (·.mapRecord f),
    mirrors_amendType name (TypeEntry.id_mapRecord f) (TypeEntry.specName_mapRecord f)⟩

def modifyUnion (name : String) (f : UnionType → UnionType) :
    Realization (Edit.update (·.modifyType name (·.mapUnion f))) :=
  ⟨ArenaEdit.amendType name (·.mapUnion f),
    mirrors_amendType name (TypeEntry.id_mapUnion f) (TypeEntry.specName_mapUnion f)⟩

def addType (t : TypeEntry) (anchor : Option String) :
    Realization (Edit.tryUpdate (·.addType t anchor)) :=
  ⟨ArenaEdit.addType t anchor, mirrors_addType t anchor⟩

def ensureAfter (name anchor : String) : Realization (Edit.tryUpdate (·.ensureAfter name anchor)) :=
  ⟨ArenaEdit.ensureAfter name anchor, mirrors_ensureAfter name anchor⟩

def addConstant (c : Constant) : Realization (Edit.tryUpdate (·.addConstant c)) :=
  ⟨ArenaEdit.addConstant c, mirrors_addConstant c⟩

def linkUnions : Realization (Edit.update (·.linkUnions)) :=
  ⟨ArenaEdit.linkUnions, mirrors_linkUnions⟩

/-- A type gets another kind. -/
def setKind (name : String) (kind : TypeKind) :
    Realization (Edit.update (·.modifyType name ({ · with kind }))) :=
  ⟨ArenaEdit.amendType name ({ · with kind }), mirrors_amendType name (fun _ => rfl) fun _ => rfl⟩

def setName (specName name : String) : Realization (Edit.setTypeName specName name) :=
  ⟨ArenaEdit.amendType specName ({ · with name }),
    mirrors_amendType specName (fun _ => rfl) fun _ => rfl⟩

/-- A constant is changed under its number. -/
def amendConstant (number : Nat) {change : Constant → Constant}
    (hname : ∀ c, (change c).specName = c.specName) :
    Realization (Edit.update fun s => { s with constants := s.constants.modify number change }) :=
  ⟨ArenaEdit.amendConstant number change, mirrors_amendConstant number hname⟩

end Calls

section Passes

/-- All sized pairs are looked for before the first one is linked. -/
theorem mirrors_linkSizedPairs : Mirrors (Edit.update (·.linkSizedPairs)) (do
    let s ← ArenaEdit.schema
    ArenaEdit.amendTypes (·.mapRecord fun r =>
      { r with fields := (s.linkSizedPair r.fields).getD r.fields })) :=
  (Mirrors.schema.bind fun _ => mirrors_amendTypes (TypeEntry.id_mapRecord _)
    (TypeEntry.specName_mapRecord _)).of_run_eq fun _ _ => rfl

def linkSizedPairs : Realization Edit.linkSizedPairs :=
  .bind .schema fun _ => .bind ⟨_, mirrors_linkSizedPairs⟩ fun _ => .pure _

def inlineRecord (config : Config) (name : String) : Realization (Edit.inlineRecord config name) :=
  .bind .schema fun s =>
    match (s.lookup? name).bind TypeEntry.record? with
    | none => .pure 0
    | some _ => .bind (.ofExcept _) fun (fields, count) =>
      .ite (.bind (.modifyRecord name ({ · with fields })) fun _ => .pure count) (.pure count)

def inlineRound (config : Config) : Realization (Edit.inlineRound config) :=
  .bind .schema fun _ => .foldlM fun _ name => .bind (inlineRecord config name) fun _ => .pure _

def inlineRounds (config : Config) :
    ∀ rounds total, Realization (Edit.inlineRounds config rounds total)
  | 0, total => .pure total
  | rounds + 1, total => .bind (inlineRound config) fun changed =>
    .ite (.pure total) (inlineRounds config rounds (total + changed))

def inlineWrappers (config : Config) : Realization (Edit.inlineWrappers config) :=
  .bind .schema fun s => inlineRounds config (s.plainCount + 1) 0

def implyLengthOf (ref : FieldRef) : Realization (Edit.implyLengthOf ref) :=
  -- one match stands directly in the other, so each is decided before the next one is looked at
  .bind .schema fun s => by
    cases (s.lookup? ref.record).bind TypeEntry.record? with
    | none => exact .pure 0
    | some r =>
      dsimp only
      cases r.field? ref.field with
      | none => exact .throw _
      | some f =>
        refine .ite (.pure 0) ?_
        cases s.arrayPart? f with
        | none => exact .throw _
        | some part => exact .bind (.modifyRecord ref.record _) fun _ => .pure 1

def implyLengths (config : Config) : Realization (Edit.implyLengths config) :=
  .foldlM fun _ ref => .bind (implyLengthOf ref) fun _ => .pure _

def noteSessionPrefixes : Realization Edit.noteSessionPrefixes :=
  .bind (.calculate _) fun _ => .bind (.forM fun (name, _) => .modifyRecord name _) fun _ => .pure _

def markNullTail (config : Config) (name : String) : Realization (Edit.markNullTail config name) :=
  .bind .schema fun s =>
    match (s.lookup? name).bind TypeEntry.record? with
    | none => .pure none
    | some _ => .ite (.pure none) <| .bind (.ofExcept _) fun tail =>
      match tail.getLast?.bind (·.selector) with
      | none => .throw _
      | some _ => .bind (.modifyRecord name _) fun _ => .pure _

def dropUnusedUnion (union : String) : Realization (Edit.dropUnusedUnion union) :=
  .bind .schema fun _ => .ite
    ⟨ArenaEdit.amendType union ({ · with implemented := false }),
      mirrors_amendType union (fun _ => rfl) fun _ => rfl⟩
    (.pure ())

def markNullTails (config : Config) : Realization (Edit.markNullTails config) :=
  .bind (.filterMapM (markNullTail config)) fun _ => .bind (.forM dropUnusedUnion) fun _ => .pure _

def deriveFromAlias (name : String) : Realization (Edit.deriveFromAlias name) :=
  .bind .schema fun _ => .bind (.ofExcept _) fun base =>
    .bind (.setKind name _) fun _ => .ensureAfter name base.specName

def addDerived (union : String) (anchors : List (String × String)) (r : Edit.Renaming) :
    Realization (Edit.addDerived union anchors r) :=
  .bind .schema fun _ => .ite
    (.bind (.addType _ _) fun _ => .bind (.modifyUnion union _) fun _ => .pure _)
    (.bind (.modifyUnion union _) fun _ => .pure _)

def addAllDerived (union : String) :
    ∀ anchors renamings, Realization (Edit.addAllDerived union anchors renamings)
  | _, [] => .pure 0
  | anchors, r :: rest => .bind (addDerived union anchors r) fun (anchors, _) =>
    .bind (addAllDerived union anchors rest) fun _ => .pure _

def separateUnion (config : Config) (union : String) :
    Realization (Edit.separateUnion config union) :=
  .bind .schema fun s =>
    match (s.lookup? union).bind TypeEntry.union? with
    | none => .pure 0
    | some _ => .bind (.forM deriveFromAlias) fun _ => .bind .schema fun _ =>
      .bind (.ofExcept _) fun renamings =>
        .bind (addAllDerived union [] renamings) fun _ => .pure _

def separateUnions (config : Config) : Realization (Edit.separateUnions config) :=
  .bind .schema fun _ => .foldlM fun _ union => .bind (separateUnion config union) fun _ => .pure _

def normalize (config : Config) : Realization (Edit.normalize config) :=
  .bind linkSizedPairs fun _ => .bind (inlineWrappers config) fun _ =>
    .bind (implyLengths config) fun _ => .bind noteSessionPrefixes fun _ =>
    .bind (markNullTails config) fun _ => .bind (separateUnions config) fun _ =>
    .bind linkUnions fun _ => .bind .schema fun _ => .ite (.throw _) (.pure ())

end Passes

section Adapting

def renameTypes (lang : Language) : Realization (Edit.renameTypes lang) :=
  .bind .schema fun _ => .bind
    (.forM fun t =>
      match Target.typeName? lang t with
      | some name => .setName t.specName name
      | none => .pure ())
    fun _ => .forM fun t =>
      match t.kind with
      | .aliasOf _ => .bind .schema fun _ => .bind (.ofExcept _) fun target =>
        .setName t.specName target.name
      | .value _ | .enum _ | .bitfield _ | .record _ | .union _ => .pure ()

def renderValue (lang : Language) (processed : List Nat) (number : Nat) :
    Realization (Edit.renderValue lang processed number) :=
  .bind .schema fun s =>
    match s.constants[number]? with
    | none => .pure processed
    | some _ => .bind (.calculate _) fun _ =>
      .bind (.amendConstant number (by intro _; rfl)) fun _ => .pure _

def renderValues (lang : Language) : Realization (Edit.renderValues lang) :=
  .bind .schema fun _ => .bind (.foldlM (renderValue lang)) fun _ => .pure ()

def fillTargetTypes (lang : Language) : Realization (Edit.fillTargetTypes lang) :=
  .bind .schema fun _ => .forM fun t => .bind .schema fun _ => .bind (.ofExcept _) fun kind =>
    .setKind t.specName kind

def adapt (lang : Language) : Realization (Edit.adapt lang) :=
  .bind .schema fun s =>
    match s.adaptedFor with
    | some _ => .throw _
    | none => .bind (renameTypes lang) fun _ =>
      .bind ⟨ArenaEdit.amendConstants Target.renameConstant, mirrors_amendConstants fun _ => rfl⟩
        fun _ => .bind (renderValues lang) fun _ => .bind (fillTargetTypes lang) fun _ =>
          ⟨ArenaEdit.setAdapted lang, mirrors_setAdapted lang⟩

end Adapting

end Realization

/-- One operation on a registry. -/
inductive Operation where
  | addType (t : TypeEntry) (anchor : Option String)
  | ensureAfter (name anchor : String)
  | addConstant (c : Constant)
  | linkUnions
  | linkSizedPairs
  | inlineWrappers (config : Config)
  | implyLengths (config : Config)
  | noteSessionPrefixes
  | markNullTails (config : Config)
  | separateUnions (config : Config)
  | normalize (config : Config)
  | adapt (lang : Language)
  deriving Repr

namespace Operation

/-- What an operation does to a registry. -/
def edit : Operation → Edit Unit
  | addType t anchor => Edit.tryUpdate (·.addType t anchor)
  | ensureAfter name anchor => Edit.tryUpdate (·.ensureAfter name anchor)
  | addConstant c => Edit.tryUpdate (·.addConstant c)
  | linkUnions => Edit.update (·.linkUnions)
  | linkSizedPairs => do let _ ← Edit.linkSizedPairs
  | inlineWrappers config => do let _ ← Edit.inlineWrappers config
  | implyLengths config => do let _ ← Edit.implyLengths config
  | noteSessionPrefixes => do let _ ← Edit.noteSessionPrefixes
  | markNullTails config => do let _ ← Edit.markNullTails config
  | separateUnions config => do let _ ← Edit.separateUnions config
  | normalize config => Edit.normalize config
  | adapt lang => Edit.adapt lang

/-- What an operation does to an arena. -/
def realization : (op : Operation) → Realization op.edit
  | addType t anchor => .addType t anchor
  | ensureAfter name anchor => .ensureAfter name anchor
  | addConstant c => .addConstant c
  | linkUnions => .linkUnions
  | linkSizedPairs => .bind .linkSizedPairs fun _ => .pure ()
  | inlineWrappers config => .bind (.inlineWrappers config) fun _ => .pure ()
  | implyLengths config => .bind (.implyLengths config) fun _ => .pure ()
  | noteSessionPrefixes => .bind .noteSessionPrefixes fun _ => .pure ()
  | markNullTails config => .bind (.markNullTails config) fun _ => .pure ()
  | separateUnions config => .bind (.separateUnions config) fun _ => .pure ()
  | normalize config => .normalize config
  | adapt lang => .adapt lang

/-- The operation adds or moves one thing. -/
def IsSingle : Operation → Prop
  | addType .. | ensureAfter .. | addConstant _ => True
  | _ => False

/-- What comes of an operation, and the registry that it leaves. -/
def perform (op : Operation) (r : Registry) : Except Error Unit × Registry :=
  Id.run (op.edit.run r)

/-- What comes of an operation, and the arena that it leaves. -/
def performOn (op : Operation) (a : Arena) : Except Error Unit × Arena :=
  Id.run (op.realization.edit.run a)

variable {op : Operation} {a : Arena}

theorem reflects_performOn (h : a.Coherent) : Reflects a (op.perform a.shown) (op.performOn a) :=
  op.realization.mirrors a h

/-- An operation that adds or moves one thing fails without a change. -/
theorem unchanged_of_fails (hop : op.IsSingle) {e : Error} (h : (op.performOn a).1 = .error e) :
    (op.performOn a).2 = a := by
  cases op with
  | addType t anchor => exact Arena.eq_of_addType_error h
  | ensureAfter name anchor => exact Arena.eq_of_ensureAfter_error h
  | addConstant c => exact Arena.eq_of_addConstant_error h
  | _ => cases hop

end Operation

/-- The registry after some operations, each of which was done to what the one before it had left,
whether that one had failed or not. -/
def Registry.after (r : Registry) (ops : List Operation) : Registry :=
  ops.foldl (fun r op => (op.perform r).2) r

namespace Arena

/-- The arena after some operations, each of which was done to what the one before it had left,
whether that one had failed or not. -/
def after (a : Arena) (ops : List Operation) : Arena :=
  ops.foldl (fun a op => (op.performOn a).2) a

/-- Over a whole history the parts of an arena stay together, what has been registered stays so, and
the arena is read as the registry that has gone through the same. -/
theorem reflects_after {a : Arena} (h : a.Coherent) (ops : List Operation) :
    (a.after ops).Coherent ∧ a.Continues (a.after ops) ∧
      (a.after ops).shown = a.shown.after ops := by
  induction ops generalizing a with
  | nil => exact ⟨h, .refl a, rfl⟩
  | cons op ops ih =>
    have hop := op.reflects_performOn h
    obtain ⟨hcoherent, hcontinues, hshown⟩ := ih hop.coherent
    refine ⟨hcoherent, hop.continues.trans hcontinues, hshown.trans ?_⟩
    exact congrArg (Registry.after · ops) (congrArg Prod.snd hop.shown).symm

/-- However an arena has come about, its parts fit together, and it is read as the registry that has
come about in the same way; that holds of every further operation and its outcome. What has been
registered keeps its number and its name whatever happens to it. A type that is added or moved comes
where it should and leaves the others in order, and where that fails nothing has changed. -/
theorem order_and_names_kept (done later : List Operation) :
    let a := initial.after done
    a.Coherent ∧ a.shown = Registry.initial.after done ∧
    (∀ name, a.shown.lookup? name = a.lookup? name ∧ a.shown.position? name = a.position? name) ∧
    (∀ op : Operation,
      op.perform a.shown = ((op.performOn a).1, (op.performOn a).2.shown)) ∧
    a.Continues (a.after later) ∧
    (∀ (op : Operation) (e : Error), op.IsSingle → (op.performOn a).1 = .error e →
      (op.performOn a).2 = a) ∧
    (∀ t anchor a', (Operation.addType t anchor).performOn a = (.ok (), a') →
      a.Added t anchor a') ∧
    (∀ name anchor a', (Operation.ensureAfter name anchor).performOn a = (.ok (), a') →
      a.Moved name anchor a') := by
  intro a
  obtain ⟨hcoherent, -, hshown⟩ := reflects_after coherent_initial done
  rw [shown_initial] at hshown
  exact ⟨hcoherent, hshown,
    fun name => ⟨hcoherent.lookup?_shown name, hcoherent.position?_shown name⟩,
    fun op => (op.reflects_performOn hcoherent).shown, (reflects_after hcoherent later).2.1,
    fun op _ hop he => op.unchanged_of_fails hop he, fun _ _ _ h => hcoherent.added h,
    fun _ _ _ h => hcoherent.moved h⟩

/-- A type comes after the first elementary one, which is moved behind the second one then; a type
of that name again is not added. -/
theorem order_and_names_kept_three :
    let first := TypeEntry.new "TPMS_EMPTY" (.record {})
    let a := initial.after [.addType first (some "BYTE"), .addType first none]
    let moved := (Operation.ensureAfter "BYTE" "UINT8").performOn a
    a.Coherent ∧ a.Moved "BYTE" "UINT8" moved.2 ∧
      a.order = [0, 10, 1, 2, 3, 4, 5, 6, 7, 8, 9] ∧
      moved.2.order = [10, 1, 0, 2, 3, 4, 5, 6, 7, 8, 9] :=
  have h := order_and_names_kept [.addType (TypeEntry.new "TPMS_EMPTY" (.record {})) (some "BYTE"),
    .addType (TypeEntry.new "TPMS_EMPTY" (.record {})) none] []
  ⟨h.1, h.2.2.2.2.2.2.2 "BYTE" "UINT8" _ rfl, by decide, by decide⟩

end Arena

end WireTables
