import Mathlib.Data.List.DropRight
import WireTables.Proofs.BackReferences
import WireTables.Proofs.Ownership

/-!
# Names of constants beside their owner

In a target language the name of a constant is what it leaves over beside the name of the type that
lists it, up to a low line (`Target.Leaves`). The common start is found first and then cut back to its
last low line; that is the longest start that is shared up to a low line, also where the constant is
shorter than the name of the type or goes on after it (`Target.sharesStart_shared`). The name is never
empty and starts with no digit (`Target.exists_leaves_withoutOwner`).

Each constant is shortened on its own, and nothing looks at the others of the type: two of them may
leave the same, because they share starts of different lengths with the type, or because one leaves a
digit first, which gets a low line of its own. `names_clash_iff` says exactly when that happens. Among
constants that go on after the whole name of the type only digits are in the way.

Constants of one registry have different names in the tables (`Extraction.differ_of_extract`), so a
clash is the work of the shortening.
-/

namespace WireTables

open Target (commonStart guardDigit listedConstants throughLastUnderscore withoutOwnerChars)

namespace Target

variable {owner constant start rest cs ds : List Char}

/-! ## What a constant leaves over -/

/-- A start that a constant has in common with its owner and a low line, up to some low line. -/
structure SharesStart (owner constant start : List Char) : Prop where
  constant : start <+: constant
  owner : start <+: owner ++ ['_']
  last : start = [] ∨ start.getLast? = some '_'

/-- What a constant leaves over beside its owner: what follows the longest start that they share, or
all of it where nothing follows. -/
def Leaves (owner constant rest : List Char) : Prop :=
  ∃ start, SharesStart owner constant start ∧
    (∀ other, SharesStart owner constant other → other <+: start) ∧
    (constant = start ++ rest ∧ rest ≠ [] ∨ constant = start ∧ rest = constant)

/-- The text starts with a digit. -/
def DigitFirst (cs : List Char) : Prop :=
  ∃ c rest, cs = c :: rest ∧ c.isDigit = true

/-- The texts are the same but for a low line that one of them has in front of a digit. -/
def Alike (cs ds : List Char) : Prop :=
  cs = ds ∨ (cs = '_' :: ds ∧ DigitFirst ds) ∨ (ds = '_' :: cs ∧ DigitFirst cs)

theorem commonStart_isPrefix_left : ∀ cs ds : List Char, commonStart cs ds <+: cs
  | [], _ => by simp [commonStart]
  | c :: cs, [] => by simp [commonStart]
  | c :: cs, d :: ds => by
    unfold commonStart
    split
    · exact List.cons_prefix_cons.mpr ⟨rfl, commonStart_isPrefix_left cs ds⟩
    · exact List.nil_prefix

theorem commonStart_isPrefix_right : ∀ cs ds : List Char, commonStart cs ds <+: ds
  | [], _ => by simp [commonStart]
  | c :: cs, [] => by simp [commonStart]
  | c :: cs, d :: ds => by
    unfold commonStart
    split
    · next h =>
      obtain rfl := eq_of_beq h
      exact List.cons_prefix_cons.mpr ⟨rfl, commonStart_isPrefix_right cs ds⟩
    · exact List.nil_prefix

theorem isPrefix_commonStart : ∀ {start cs ds : List Char}, start <+: cs → start <+: ds →
    start <+: commonStart cs ds
  | [], _, _, _, _ => List.nil_prefix
  | c :: start, cs, ds, hc, hd => by
    obtain ⟨more, rfl⟩ := hc
    obtain ⟨others, rfl⟩ := hd
    have hrest := isPrefix_commonStart (List.prefix_append start more)
      (List.prefix_append start others)
    simpa [commonStart] using hrest

theorem throughLastUnderscore_eq (cs : List Char) :
    throughLastUnderscore cs = cs.rdropWhile (· != '_') :=
  rfl

theorem throughLastUnderscore_last (cs : List Char) :
    throughLastUnderscore cs = [] ∨ (throughLastUnderscore cs).getLast? = some '_' := by
  rw [throughLastUnderscore_eq]
  rcases List.eq_nil_or_concat (cs.rdropWhile (· != '_')) with h | ⟨init, c, h⟩
  · exact .inl h
  · have hlast := List.rdropWhile_last_not (· != '_') cs (by simp [h])
    simp only [h, List.concat_eq_append, List.getLast_concat, bne_iff_ne, ne_eq,
      Decidable.not_not] at hlast
    exact .inr (by rw [h, hlast, List.concat_eq_append, List.getLast?_concat])

/-- Whatever ends in a low line is in front of the last one. -/
theorem isPrefix_throughLastUnderscore (h : start <+: cs)
    (hlast : start = [] ∨ start.getLast? = some '_') : start <+: throughLastUnderscore cs := by
  rcases hlast with rfl | hlast
  · exact List.nil_prefix
  · obtain ⟨more, rfl⟩ := h
    rw [throughLastUnderscore_eq]
    induction more using List.reverseRecOn with
    | nil =>
      obtain ⟨init, rfl⟩ := List.getLast?_eq_some_iff.mp hlast
      simp
    | append_singleton more c ih =>
      rw [← List.append_assoc, List.rdropWhile_concat]
      split
      · exact ih
      · exact (List.prefix_append start more).trans (List.prefix_append _ [c])

/-- The start that is cut off is the longest one that is shared. -/
theorem sharesStart_shared (owner constant : List Char) :
    SharesStart owner constant (throughLastUnderscore (commonStart constant (owner ++ ['_']))) ∧
      ∀ other, SharesStart owner constant other →
        other <+: throughLastUnderscore (commonStart constant (owner ++ ['_'])) := by
  have hcut : throughLastUnderscore (commonStart constant (owner ++ ['_'])) <+:
      commonStart constant (owner ++ ['_']) := List.rdropWhile_prefix (· != '_') _
  refine ⟨⟨hcut.trans (commonStart_isPrefix_left _ _), hcut.trans (commonStart_isPrefix_right _ _),
    throughLastUnderscore_last _⟩, fun other h => ?_⟩
  exact isPrefix_throughLastUnderscore (isPrefix_commonStart h.constant h.owner) h.last

/-- A name is what the constant leaves over, with a low line before a digit. -/
theorem exists_leaves (owner constant : List Char) :
    ∃ rest, Leaves owner constant rest ∧ withoutOwnerChars constant owner = guardDigit rest := by
  obtain ⟨hshares, hmost⟩ := sharesStart_shared owner constant
  generalize hstart : throughLastUnderscore (commonStart constant (owner ++ ['_'])) = start at *
  obtain ⟨rest, rfl⟩ := hshares.constant
  unfold withoutOwnerChars
  dsimp only
  rw [hstart, List.drop_left]
  cases rest with
  | nil => exact ⟨_, ⟨start, hshares, hmost, .inr ⟨List.append_nil start, rfl⟩⟩, rfl⟩
  | cons c rest => exact ⟨_, ⟨start, hshares, hmost, .inl ⟨rfl, nofun⟩⟩, rfl⟩

/-- What is left over is the end of the constant. -/
theorem Leaves.isSuffix (h : Leaves owner constant rest) : rest <:+ constant := by
  obtain ⟨start, -, -, ⟨rfl, -⟩ | ⟨-, rfl⟩⟩ := h
  · exact List.suffix_append start rest
  · exact List.suffix_refl rest

/-- Only the empty constant leaves nothing over. -/
theorem Leaves.eq_nil_iff (h : Leaves owner constant rest) : rest = [] ↔ constant = [] := by
  obtain ⟨start, -, -, ⟨rfl, hne⟩ | ⟨-, rfl⟩⟩ := h
  · simp [hne]
  · exact Iff.rfl

/-- A constant leaves one text over. -/
theorem Leaves.unique {rest' : List Char} (h : Leaves owner constant rest)
    (h' : Leaves owner constant rest') : rest = rest' := by
  obtain ⟨start, hshares, hmost, hrest⟩ := h
  obtain ⟨start', hshares', hmost', hrest'⟩ := h'
  obtain rfl : start = start' :=
    (hmost' start hshares).eq_of_length_le (hmost start' hshares').length_le
  rcases hrest with ⟨heq, hne⟩ | ⟨heq, rfl⟩ <;> rcases hrest' with ⟨heq', hne'⟩ | ⟨heq', rfl⟩
  · exact List.append_cancel_left (heq.symm.trans heq')
  · exact absurd (by simpa using heq'.symm.trans heq) hne
  · exact absurd (by simpa using heq.symm.trans heq') hne'
  · rfl

/-- What a constant leaves over that goes on after the name of its owner. -/
theorem leaves_append (hne : rest ≠ []) : Leaves owner (owner ++ '_' :: rest) rest := by
  refine ⟨owner ++ ['_'], ⟨?_, List.prefix_refl _, .inr List.getLast?_concat⟩, fun other h => h.owner,
    .inl ⟨by simp, hne⟩⟩
  exact ⟨rest, by simp⟩

theorem guardDigit_of_digitFirst (h : DigitFirst cs) : guardDigit cs = '_' :: cs := by
  obtain ⟨c, rest, rfl, hc⟩ := h
  simp [guardDigit, hc]

theorem guardDigit_of_not_digitFirst (h : ¬ DigitFirst cs) : guardDigit cs = cs := by
  cases cs with
  | nil => rfl
  | cons c rest =>
    have hc : c.isDigit = false := Bool.eq_false_iff.mpr fun hc => h ⟨c, rest, rfl, hc⟩
    simp [guardDigit, hc]

theorem not_digitFirst_underscore (cs : List Char) : ¬ DigitFirst ('_' :: cs) := by
  rintro ⟨c, rest, h, hc⟩
  obtain ⟨rfl, -⟩ := List.cons.inj h
  cases hc

theorem guardDigit_eq_iff : guardDigit cs = guardDigit ds ↔ Alike cs ds := by
  constructor
  · intro h
    by_cases hc : DigitFirst cs <;> by_cases hd : DigitFirst ds
    · rw [guardDigit_of_digitFirst hc, guardDigit_of_digitFirst hd] at h
      exact .inl (List.cons.inj h).2
    · rw [guardDigit_of_digitFirst hc, guardDigit_of_not_digitFirst hd] at h
      exact .inr (.inr ⟨h.symm, hc⟩)
    · rw [guardDigit_of_not_digitFirst hc, guardDigit_of_digitFirst hd] at h
      exact .inr (.inl ⟨h, hd⟩)
    · rw [guardDigit_of_not_digitFirst hc, guardDigit_of_not_digitFirst hd] at h
      exact .inl h
  · rintro (rfl | ⟨rfl, hd⟩ | ⟨rfl, hc⟩)
    · rfl
    · rw [guardDigit_of_digitFirst hd, guardDigit_of_not_digitFirst (not_digitFirst_underscore _)]
    · rw [guardDigit_of_digitFirst hc, guardDigit_of_not_digitFirst (not_digitFirst_underscore _)]

theorem not_digitFirst_guardDigit (cs : List Char) : ¬ DigitFirst (guardDigit cs) := by
  by_cases h : DigitFirst cs
  · rw [guardDigit_of_digitFirst h]
    exact not_digitFirst_underscore cs
  · rwa [guardDigit_of_not_digitFirst h]

theorem guardDigit_eq_nil_iff : guardDigit cs = [] ↔ cs = [] := by
  by_cases h : DigitFirst cs
  · obtain ⟨c, rest, rfl, hc⟩ := h
    simp [guardDigit, hc]
  · rw [guardDigit_of_not_digitFirst h]

/-- A name is what the constant leaves over, which is the end of the constant, with a low line before
it exactly if a digit comes first. No name starts with a digit, and only the empty constant has none. -/
theorem exists_leaves_withoutOwner (constant owner : String) :
    ∃ rest, Leaves owner.toList constant.toList rest ∧ rest <:+ constant.toList ∧
      (DigitFirst rest ∧ (withoutOwner constant owner).toList = '_' :: rest ∨
        ¬ DigitFirst rest ∧ (withoutOwner constant owner).toList = rest) ∧
      ¬ DigitFirst (withoutOwner constant owner).toList ∧
      (withoutOwner constant owner = "" ↔ constant = "") := by
  obtain ⟨rest, hrest, hname⟩ := exists_leaves owner.toList constant.toList
  have hname : (withoutOwner constant owner).toList = guardDigit rest := by
    rw [withoutOwner, String.toList_ofList, hname]
  refine ⟨rest, hrest, hrest.isSuffix, ?_, hname ▸ not_digitFirst_guardDigit rest, ?_⟩
  · by_cases hdigit : DigitFirst rest
    · exact .inl ⟨hdigit, hname.trans (guardDigit_of_digitFirst hdigit)⟩
    · exact .inr ⟨hdigit, hname.trans (guardDigit_of_not_digitFirst hdigit)⟩
  · rw [← String.toList_eq_nil_iff, hname, guardDigit_eq_nil_iff, hrest.eq_nil_iff,
      String.toList_eq_nil_iff]

/-- A constant that would leave nothing over is kept whole, and may still start with a digit. -/
example : withoutOwner "1_" "1" = "_1_" := by rfl

/-- Beside one owner two constants have the same name exactly if they leave the same over, but for the
low line before a digit. -/
theorem withoutOwner_eq_iff {a b owner : String} : withoutOwner a owner = withoutOwner b owner ↔
    ∃ x y, Leaves owner.toList a.toList x ∧ Leaves owner.toList b.toList y ∧ Alike x y := by
  obtain ⟨x, hx, hnameA⟩ := exists_leaves owner.toList a.toList
  obtain ⟨y, hy, hnameB⟩ := exists_leaves owner.toList b.toList
  unfold withoutOwner
  rw [String.ofList_inj, hnameA, hnameB, guardDigit_eq_iff]
  constructor
  · intro h
    exact ⟨x, y, hx, hy, h⟩
  · rintro ⟨x', y', hx', hy', h⟩
    rwa [hx.unique hx', hy.unique hy']

/-- Constants of an owner without a name keep their names. -/
theorem name_renameConstant_eq_iff {c d : Constant} (h : d.owner = c.owner)
    (hne : c.specName ≠ d.specName) : (renameConstant c).name = (renameConstant d).name ↔
      c.owner ≠ "" ∧ ∃ x y, Leaves c.owner.toList c.specName.toList x ∧
        Leaves c.owner.toList d.specName.toList y ∧ Alike x y := by
  unfold renameConstant
  dsimp only
  rw [h]
  by_cases howner : c.owner = ""
  · simp [howner, hne]
  · have hempty : c.owner.isEmpty = false := by simpa using howner
    simp only [hempty, Bool.false_eq_true, if_false, ne_eq, howner, not_false_eq_true, true_and]
    exact withoutOwner_eq_iff

end Target

/-! ## Constants have different names in the tables -/

/-- The names of all constants differ. -/
def Schema.ConstantsDiffer (s : Schema) : Prop :=
  (s.constants.toList.map (·.specName)).Nodup

namespace Extraction

open Build

variable {config : Config}

theorem addConstant_differ (c : Constant) :
    Preserves Schema.ConstantsDiffer (addConstant config c) fun _ => True := by
  refine Preserves.get.bind fun s _ => ?_
  split
  · exact Preserves.pure trivial
  · refine (Preserves.update fun s s' hs ha => ?_).bind fun _ _ => Preserves.pure trivial
    unfold Schema.addConstant at ha
    split at ha
    · cases ha
    · next hnew =>
      cases ha
      have hnot : c.specName ∉ s.constants.toList.map (·.specName) := by
        intro hmem
        obtain ⟨d, hd, hname⟩ := List.mem_map.mp hmem
        exact hnew (Schema.hasConstant_iff.mpr ⟨d, Array.mem_toList_iff.mp hd, hname⟩)
      have happend := List.nodup_append.mpr ⟨hs, List.nodup_singleton c.specName, fun x hx y hy =>
        fun heq => hnot (List.mem_singleton.mp hy ▸ heq ▸ hx)⟩
      simpa [Schema.ConstantsDiffer] using happend

/-- Types are added and changed without a look at constants. -/
theorem addTable_differ (t : Table) (kind : TableKind) :
    Preserves Schema.ConstantsDiffer (addTable config t kind) fun _ => True := by
  have addType : ∀ t : TypeEntry, Preserves Schema.ConstantsDiffer (Build.addType t) fun _ => True :=
    fun t => Preserves.update fun s s' hs ha => by
      obtain ⟨-, rfl⟩ := Schema.eq_of_addType ha
      exact hs
  have ensure : ∀ name underlying isGroup,
      Preserves Schema.ConstantsDiffer (ensureEnum name underlying isGroup) fun _ => True :=
    fun _ _ _ => Preserves.get.bind fun _ _ => by
      split
      · exact addType _
      · exact Preserves.pure trivial
  have extend : ∀ name numbers errorCode,
      Preserves Schema.ConstantsDiffer (extendEnum name numbers errorCode) fun _ => True :=
    fun _ _ _ => Preserves.modify fun _ hs => hs
  refine addTable_preserves (F := fun _ => True) ⟨trivial, fun _ _ => trivial, fun _ => trivial⟩
    (fun _ _ hs ha => ?_) (fun base rows _ => ?_) (fun name base rows => ?_)
    (fun name base rows => ?_) t kind
  · obtain ⟨-, rfl⟩ := Schema.eq_of_addType ha
    exact hs
  · refine (ensure _ _ _).bind fun _ _ => (Preserves.filterMapM fun row _ => ?_).bind fun _ _ =>
      extend _ _ _
    refine (addConstant_differ _).bind fun number _ => ?_
    split
    · refine (Preserves.modify fun s hs => ?_).bind fun _ _ => Preserves.pure trivial
      exact hs
    · exact Preserves.pure trivial
  · exact (ensure _ _ _).bind fun _ _ => (Preserves.filterMapM fun _ _ => addConstant_differ _).bind
      fun _ _ => extend _ _ _
  · exact (Preserves.filterMapM fun _ _ => addConstant_differ _).bind fun _ _ => addType _

/-- The constants that tables define have different names. -/
theorem differ_of_extract {tables : List Table} {r : Registry} {report : ExtractionReport}
    (h : extract tables config = .ok (r, report)) : r.ConstantsDiffer := by
  unfold extract at h
  obtain ⟨⟨report', s⟩, hadd, h⟩ := bind_eq_ok.mp h
  have hs : s.ConstantsDiffer :=
    (addTables_preserves addTable_differ tables _ _ _ hadd List.nodup_nil).1
  simp only at h
  split at h
  · next r' hcheck =>
    cases h
    obtain ⟨known, -, rfl⟩ := Registry.yields_of_calculate hcheck
    exact hs
  · cases h

end Extraction

/-! ## Names that clash -/

theorem Schema.constantsDiffer_neutral (s : Schema) :
    s.neutral.ConstantsDiffer = s.ConstantsDiffer := by
  simp only [ConstantsDiffer, neutral, Array.toList_map, List.map_map]
  rfl

/-- An adapted constant has the name that its name in the tables and its owner say. -/
theorem name_of_adapt {r r' : Registry} {lang : Language} (hnames : r.names.Nodup)
    (h : r.adapt lang = .ok r') {i : Nat} {c : Constant} (hc : r'.constants[i]? = some c) :
    c.name = (Target.renameConstant c).name := by
  obtain ⟨r₁, r₂, -, hnamed, hvalues, hlater, -⟩ := Edit.exists_of_adapt hnames h
  have honward := (Edit.onward_of_renderValues hvalues).trans hlater
  have hat := congrArg (·[i]?) honward.constants
  have hneutral := congrArg (fun s : Schema => s.constants[i]?) honward.neutral
  simp only [Schema.neutral, Array.getElem?_map, hc, Option.map_some] at hat hneutral
  obtain ⟨c₁, hc₁, heq⟩ := Option.map_eq_some_iff.mp hat.symm
  simp only [hc₁, Option.map_some, Option.some.injEq] at hneutral
  obtain ⟨howner, hname⟩ := Prod.mk.inj heq
  have hspec : c.neutral.specName = c₁.neutral.specName := by rw [hneutral]
  have hspec : c.specName = c₁.specName := hspec
  rw [← hname, ← hnamed c₁ (Array.mem_of_getElem? hc₁)]
  simp only [Target.renameConstant, hspec, howner]

/-- Two constants that one type lists have different names in the tables. In a target language they
have the same name exactly if they leave the same over beside the name of the type, but for the low
line before a digit. If both go on after the whole name of the type, only that low line can make
them the same. -/
theorem names_clash_iff {config : Config} {tables : List Table} {r r' : Registry}
    {report : ExtractionReport} {lang : Language}
    (h : Extraction.extract tables config = .ok (r, report)) (ha : r.adapt lang = .ok r') :
    ∀ t ∈ r'.types, ∀ i ∈ listedConstants t, ∀ j ∈ listedConstants t, i ≠ j →
      ∃ c d, r'.constants[i]? = some c ∧ r'.constants[j]? = some d ∧ c.specName ≠ d.specName ∧
        (c.name = d.name ↔ t.specName ≠ "" ∧ ∃ x y,
          Target.Leaves t.specName.toList c.specName.toList x ∧
          Target.Leaves t.specName.toList d.specName.toList y ∧ Target.Alike x y) ∧
        ∀ x y, c.specName.toList = t.specName.toList ++ '_' :: x →
          d.specName.toList = t.specName.toList ++ '_' :: y → x ≠ [] → y ≠ [] → c.name = d.name →
          x = '_' :: y ∧ Target.DigitFirst y ∨ y = '_' :: x ∧ Target.DigitFirst x := by
  have howned := Extraction.owned_of_extract h
  have hneutral := Edit.neutral_of_adapt howned.names ha
  have hdiffer : r'.ConstantsDiffer := by
    rw [← Schema.constantsDiffer_neutral, hneutral, Schema.constantsDiffer_neutral]
    exact Extraction.differ_of_extract h
  intro t ht i hi j hj hij
  have listed : ∀ i ∈ listedConstants t, ∃ c, r'.constants[i]? = some c ∧ c.owner = t.specName := by
    intro i hi
    have hmem : t.neutral ∈ r.toSchema.neutral.types := hneutral ▸ List.mem_map_of_mem ht
    obtain ⟨t₀, ht₀, heq⟩ := List.mem_map.mp hmem
    rw [← Schema.listedConstants_neutral, ← heq, Schema.listedConstants_neutral] at hi
    obtain ⟨c₀, hc₀, howner, -⟩ := howned.listed t₀ ht₀ i hi
    have hat := congrArg (fun s : Schema => s.constants[i]?) hneutral
    simp only [Schema.neutral, Array.getElem?_map, hc₀, Option.map_some] at hat
    obtain ⟨c, hc, heq'⟩ := Option.map_eq_some_iff.mp hat
    refine ⟨c, hc, ?_⟩
    have hsame : c.neutral.owner = c₀.neutral.owner := by rw [heq']
    have hname : t₀.neutral.specName = t.neutral.specName := by rw [heq]
    exact hsame.trans (howner.trans hname)
  obtain ⟨c, hc, howner⟩ := listed i hi
  obtain ⟨d, hd, howner'⟩ := listed j hj
  have hne : c.specName ≠ d.specName := by
    intro heq
    obtain ⟨hlt, -⟩ := Array.getElem?_eq_some_iff.mp hc
    refine hij ((List.getElem?_inj (by simpa using hlt) hdiffer).mp ?_)
    simp [hc, hd, heq]
  have hiff := Target.name_renameConstant_eq_iff (howner'.trans howner.symm) hne
  rw [← name_of_adapt howned.names ha hc, ← name_of_adapt howned.names ha hd, howner] at hiff
  refine ⟨c, d, hc, hd, hne, hiff, fun x y hx hy hxne hyne hname => ?_⟩
  obtain ⟨-, x', y', hleft, hright, halike⟩ := hiff.mp hname
  rw [hx] at hleft
  rw [hy] at hright
  obtain rfl := hleft.unique (Target.leaves_append hxne)
  obtain rfl := hright.unique (Target.leaves_append hyne)
  refine halike.resolve_left fun heq => hne ?_
  rw [← String.toList_inj, hx, hy, heq]

/-- Kinds whose constants have the start of their names from other places. -/
def kindTables : List Table :=
  [{ caption := "Table 1 — Definition of (UINT8) TPM_KIND_ID Constants",
     rows := [["TPM_KIND_A", "1", ""], ["TPM_A", "2", ""], ["TPM_KIND_ID_B", "3", ""],
      ["TPM_KIND_ID_1", "4", ""], ["TPM_KIND_ID__1", "5", ""]] }]

/-- The registry that the tables of kinds are extracted to. -/
def kinds : Registry :=
  match Extraction.extract kindTables {} with
  | .ok (r, _) => r
  | .error _ => default

/-- The kinds as they are named in a language. -/
theorem kinds_facts :
    (Extraction.extract kindTables {}).toOption.map Prod.fst = some kinds ∧
      (kinds.adapt .node).toOption.map (fun r =>
        (r.types.map fun t => (t.specName, listedConstants t),
          r.constants.map fun c => (c.specName, c.name))) =
      some (Schema.elementary.map (fun t => (t.specName, [])) ++
          [("TPM_KIND_ID", [0, 1, 2, 3, 4])],
        #[("TPM_KIND_A", "A"), ("TPM_A", "A"), ("TPM_KIND_ID_B", "B"), ("TPM_KIND_ID_1", "_1"),
          ("TPM_KIND_ID__1", "_1")]) := by
  decide +kernel

/-- Two kinds share a start with their type that ends at another low line, and leave the same over. -/
theorem kinds_clash :
    ∃ report r', Extraction.extract kindTables {} = .ok (kinds, report) ∧
      kinds.adapt .node = .ok r' ∧ ∃ t ∈ r'.types, t.specName = "TPM_KIND_ID" ∧
        0 ∈ listedConstants t ∧ 1 ∈ listedConstants t ∧
        ∃ c d, r'.constants[0]? = some c ∧ r'.constants[1]? = some d ∧ c.specName ≠ d.specName ∧
          c.name = d.name ∧ ∃ x y,
            Target.Leaves "TPM_KIND_ID".toList c.specName.toList x ∧
            Target.Leaves "TPM_KIND_ID".toList d.specName.toList y ∧ Target.Alike x y := by
  obtain ⟨hextract, hadapt⟩ := kinds_facts
  obtain ⟨⟨_, report⟩, hextract, rfl⟩ := Option.map_eq_some_iff.mp hextract
  obtain ⟨r', hadapt, heq⟩ := Option.map_eq_some_iff.mp hadapt
  obtain ⟨htypes, hconstants⟩ := Prod.mk.inj heq
  have hmem : ("TPM_KIND_ID", [0, 1, 2, 3, 4]) ∈
      r'.types.map fun t => (t.specName, listedConstants t) := by
    rw [htypes]
    exact List.mem_append_right _ List.mem_cons_self
  obtain ⟨t, ht, heq⟩ := List.mem_map.mp hmem
  obtain ⟨hname, hlist⟩ := Prod.mk.inj heq
  have h₀ : 0 ∈ listedConstants t := by simp [hlist]
  have h₁ : 1 ∈ listedConstants t := by simp [hlist]
  obtain ⟨c, d, hc, hd, hne, hiff, -⟩ := names_clash_iff (ok_of_toOption hextract)
    (ok_of_toOption hadapt) t ht 0 h₀ 1 h₁ (by decide)
  have hsame : c.name = "A" ∧ d.name = "A" := by
    have hat := congrArg (fun names => (names[0]?.map (·.2), names[1]?.map (·.2))) hconstants
    simpa [hc, hd] using hat
  refine ⟨report, r', ok_of_toOption hextract, ok_of_toOption hadapt, t, ht, hname, h₀, h₁, c, d, hc,
    hd, hne, hsame.1.trans hsame.2.symm, ?_⟩
  exact hname ▸ (hiff.mp (hsame.1.trans hsame.2.symm)).2

end WireTables
