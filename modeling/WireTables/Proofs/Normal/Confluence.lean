import WireTables.Proofs.Normal.Inlining
import WireTables.Proofs.Flattening

/-!
# The end of inlining

Inlining goes on round by round until a round changes nothing (`InliningRounds`). Each wrapper that
is inlined is a plain field less in the whole registry, so there is such a round, and the bound that
`Edit.inlineRounds` has on the rounds is never what ends them. Then no field is of wrapper type, and
inlining again inlines nothing (`inlineWrappers_fixpoint`). An inlined pair can make its new home a
wrapper, and structures can have fields of each other's type.

Structures are inlined in the order in which types stand, over several rounds, and the fields that
are copied are those of the wrapper at that moment. The outcome does not depend on the order
(`inlineWrappers_confluent`): in the end every field is in the pieces that the outcome itself
defines, and a wrapper only depends on wrappers of lower rank. So by induction on the rank of one
outcome, what is a wrapper there is the same wrapper in the other. As each wrapper that is inlined
is a plain field less, their number is the same as well.

One order may fail where the other does not, when a name is taken already; nothing is said of that
case.
-/

namespace WireTables

open Schema (Inlining Inlined)

namespace Schema

variable {s : Schema} {config : Config} {owner : String}

/-- Fields of no wrapper type are left as they are. -/
theorem inlineFields_of_none {r : Record}
    (h : ∀ f ∈ r.fields, s.wrapperOf? config owner f = none) :
    s.inlineFields config owner r = .ok (r.fields, 0) := by
  have hparts : r.fields.mapM (s.inlineField config owner r) =
      .ok (r.fields.map fun f => ([f], 0)) := by
    refine mapM_eq_ok.mpr (List.forall₂_map_right_iff.mpr (List.forall₂_same.mpr fun f hf => ?_))
    unfold inlineField
    rw [h f hf]
  have hcount : ∀ fields : List Field,
      (fields.map fun f => ([f], 0)).foldl (fun n part => n + part.2) 0 = 0 := by
    intro fields
    induction fields with
    | nil => rfl
    | cons f rest ih => exact ih
  unfold inlineFields
  refine bind_eq_ok.mpr ⟨_, hparts, ?_⟩
  rw [List.flatMap_map, List.flatMap_singleton', hcount]
  rfl

end Schema

/-- Rounds of inlining, however many it takes, until one fails or inlines nothing, with what comes
of them. -/
inductive InliningRounds (config : Config) : Nat → Registry → Except Error Nat × Registry → Prop
  | done {total r r'} (h : Id.run ((Edit.inlineRound config).run r) = (.ok 0, r')) :
    InliningRounds config total r (.ok total, r')
  | failed {total r e r'} (h : Id.run ((Edit.inlineRound config).run r) = (.error e, r')) :
    InliningRounds config total r (.error e, r')
  | again {total r count r₁ out}
    (h : Id.run ((Edit.inlineRound config).run r) = (.ok count, r₁)) (hcount : count ≠ 0)
    (hrest : InliningRounds config (total + count) r₁ out) : InliningRounds config total r out

/-- Rounds come to one end, if to any. -/
theorem InliningRounds.unique {config : Config} {total : Nat} {r : Registry}
    {out out' : Except Error Nat × Registry} (h : InliningRounds config total r out)
    (h' : InliningRounds config total r out') : out' = out := by
  induction h with
  | done hround =>
    cases h' with
    | done hround' => cases hround.symm.trans hround'; rfl
    | failed hround' => cases hround.symm.trans hround'
    | again hround' hcount =>
      cases hround.symm.trans hround'
      exact (hcount rfl).elim
  | failed hround =>
    cases h' with
    | done hround' => cases hround.symm.trans hround'
    | failed hround' => cases hround.symm.trans hround'; rfl
    | again hround' => cases hround.symm.trans hround'
  | again hround hcount _ ih =>
    cases h' with
    | done hround' =>
      cases hround.symm.trans hround'
      exact (hcount rfl).elim
    | failed hround' => cases hround.symm.trans hround'
    | again hround' _ hrest' =>
      cases hround.symm.trans hround'
      exact ih hrest'

namespace Edit

variable {config : Config} {r : Registry}

/-- The bound on the rounds is not reached, because each round takes plain fields away. -/
theorem rounds_of_inlineRounds {rounds total : Nat} (hnames : r.names.Nodup)
    (hrounds : r.plainCount < rounds) :
    InliningRounds config total r (Id.run ((inlineRounds config rounds total).run r)) := by
  induction rounds generalizing r total with
  | zero => exact (Nat.not_lt_zero _ hrounds).elim
  | succ rounds ih =>
    unfold inlineRounds
    rw [run_bind]
    split
    · next count r₁ hround =>
      obtain ⟨⟨hinlining, -⟩, hless, -⟩ := inlining_of_inlineRound hnames .start hround
      by_cases hzero : count = 0
      · subst hzero
        exact .done hround
      · rw [if_neg (by simpa using hzero)]
        exact .again hround hzero (ih (hinlining.names ▸ hnames) (by omega))
    · next e r₁ hround => exact .failed hround

theorem yields_inlineRecord_of_none {name : String} (h : ¬ r.HasWrapped config name) :
    Yields (inlineRecord config name) r 0 r := by
  unfold inlineRecord
  refine yields_bind.mpr ⟨_, r, yields_schema.mpr ⟨rfl, rfl⟩, ?_⟩
  split
  · exact yields_pure.mpr ⟨rfl, rfl⟩
  · next x hx =>
    obtain ⟨t, ht, hx⟩ := Option.bind_eq_some_iff.mp hx
    obtain ⟨hmem, hname⟩ := Schema.mem_of_lookup? ht
    have hnone : ∀ f ∈ x.fields, r.wrapperOf? config name f = none := fun f hf =>
      Option.not_isSome_iff_eq_none.mp fun hw => h ⟨t, hmem, hname, x, hx, f, hf, hw⟩
    exact yields_bind.mpr ⟨_, r, yields_ofExcept.mpr ⟨Schema.inlineFields_of_none hnone, rfl⟩,
      yields_pure.mpr ⟨rfl, rfl⟩⟩

/-- Where no field is of wrapper type, inlining inlines nothing. -/
theorem yields_inlineWrappers_of_none (h : ∀ name, ¬ r.HasWrapped config name) :
    Yields (inlineWrappers config) r 0 r := by
  have hnames : ∀ names : List String, Yields (names.foldlM (fun count name => do
      return count + (← inlineRecord config name)) 0) r 0 r := by
    intro names
    induction names with
    | nil => exact yields_pure.mpr ⟨rfl, rfl⟩
    | cons name names ih =>
      rw [List.foldlM_cons]
      exact yields_bind.mpr ⟨0, r, yields_bind.mpr
        ⟨0, r, yields_inlineRecord_of_none (h name), yields_pure.mpr ⟨rfl, rfl⟩⟩, ih⟩
  have hround : Yields (inlineRound config) r 0 r :=
    yields_bind.mpr ⟨_, r, yields_schema.mpr ⟨rfl, rfl⟩, hnames _⟩
  unfold inlineWrappers
  refine yields_bind.mpr ⟨_, r, yields_schema.mpr ⟨rfl, rfl⟩, ?_⟩
  unfold inlineRounds
  exact yields_bind.mpr ⟨0, r, hround, yields_pure.mpr ⟨rfl, rfl⟩⟩

/-- Inlining comes to an end, whether it fails or not, and what the bounded rounds give is the one
thing that rounds without a bound come to. If they do not fail, no field is of a type that denotes
another structure that is a wrapper, unless the type or the structure is kept, and there is nothing
left to inline. -/
theorem inlineWrappers_fixpoint (config : Config) (hnames : r.names.Nodup) :
    (∀ out, InliningRounds config 0 r out ↔ out = Id.run ((inlineWrappers config).run r)) ∧
      ∀ n r', Yields (inlineWrappers config) r n r' →
        (∀ t ∈ r'.types, ∀ x, t.record? = some x → ∀ f ∈ x.fields, f.marshal = .plain →
          config.keptWrappers.contains f.typeName = false →
            ∀ u y, r'.recordOf? f.typeName = some (u, y) → u.specName ≠ t.specName →
              config.keptWrappers.contains u.specName = false → ∀ tag data, ¬ y.Wraps tag data) ∧
          Yields (inlineWrappers config) r' 0 r' := by
  constructor
  · have hrounds : InliningRounds config 0 r (Id.run ((inlineWrappers config).run r)) := by
      unfold inlineWrappers
      rw [run_bind]
      exact rounds_of_inlineRounds hnames (Nat.lt_succ_self _)
    exact fun out => ⟨hrounds.unique, fun h => h ▸ hrounds⟩
  · intro n r' hy
    obtain ⟨-, -, hdone⟩ := inlining_of_inlineWrappers hnames hy .start
    refine ⟨fun t ht x hx f hf hplain hkept u y hu hother hnamed tag data hwraps => ?_,
      yields_inlineWrappers_of_none hdone⟩
    refine hdone t.specName ⟨t, ht, rfl, x, hx, f, hf, Option.isSome_iff_exists.mpr ⟨(tag, data), ?_⟩⟩
    exact Schema.wrapperOf?_eq_some.mpr ⟨⟨hplain, hkept⟩, u, y, hu, ⟨hother, hnamed⟩, hwraps⟩

end Edit

section Nested

/-- A structure that is a wrapper only when its one field is inlined. -/
def nestedTables : List Table :=
  [{ caption := "Table 1 — Definition of TPMS_USER Structure", comment := "",
     rows := [["first", "TPMS_OUTER", ""], ["second", "TPMS_OUTER", ""]], handleCount := 0 },
   { caption := "Table 2 — Definition of TPMS_OUTER Structure", comment := "",
     rows := [["data", "TPM2B_DATA", ""]], handleCount := 0 },
   { caption := "Table 3 — Definition of TPM2B_DATA Structure", comment := "",
     rows := [["size", "UINT16", ""], ["buffer[size]{:4}", "BYTE", ""]], handleCount := 0 }]

theorem nested_facts : (extractedOf nestedTables).names.Nodup ∧
    (Id.run ((Edit.inlineWrappers {}).run (extractedOf nestedTables))).1.toOption = some 3 ∧
    ((inlinedOf nestedTables).recordOf? "TPMS_OUTER").map (fun p =>
      (p.1.specName, p.2.wrapperParts?.isSome)) = some ("TPMS_OUTER", true) := by
  decide +kernel

/-- It takes more than one round until no field is of the outer type, which is a wrapper only
then. -/
theorem inlineWrappers_nested :
    (extractedOf nestedTables).names.Nodup ∧
      Yields (Edit.inlineWrappers {}) (extractedOf nestedTables) 3 (inlinedOf nestedTables) ∧
      InliningRounds {} 0 (extractedOf nestedTables) (.ok 3, inlinedOf nestedTables) ∧
      (∀ t ∈ (inlinedOf nestedTables).types, t.specName ≠ "TPMS_OUTER" → ∀ x, t.record? = some x →
        ∀ f ∈ x.fields, f.marshal = .plain → f.typeName ≠ "TPMS_OUTER") ∧
      Yields (Edit.inlineWrappers {}) (inlinedOf nestedTables) 0 (inlinedOf nestedTables) := by
  obtain ⟨hnames, hcount, houter⟩ := nested_facts
  have hy : Yields (Edit.inlineWrappers {}) (extractedOf nestedTables) 3 (inlinedOf nestedTables) :=
    yields_of_toOption hcount
  obtain ⟨⟨u, y⟩, hu, hy'⟩ := Option.map_eq_some_iff.mp houter
  obtain ⟨hname, hwraps⟩ := Prod.mk.inj hy'
  obtain ⟨⟨tag, data⟩, hparts⟩ := Option.isSome_iff_exists.mp hwraps
  obtain ⟨hrounds, hdone⟩ := Edit.inlineWrappers_fixpoint {} hnames
  obtain ⟨hnone, hagain⟩ := hdone 3 _ hy
  refine ⟨hnames, hy, (hrounds _).mpr hy.symm, fun t ht hother x hx f hf hplain htype => ?_, hagain⟩
  rw [← htype] at hu
  have hne : u.specName ≠ t.specName := fun h => hother (h.symm.trans hname)
  have hkept : ({} : Config).keptWrappers.contains "TPMS_OUTER" = false := by decide
  exact hnone t ht x hx f hf hplain (htype ▸ hkept) u y hu hne (hname ▸ hkept) tag data
    (Record.wrapperParts?_eq_some.mp hparts)

end Nested

/-! ## In whatever order -/

/-- The type without its number, which tells when it was registered. -/
def TypeEntry.unnumbered (t : TypeEntry) : TypeEntry :=
  { t with id := 0 }

theorem TypeEntry.of_unnumbered_eq {t t₂ : TypeEntry} (h : t₂.unnumbered = t.unnumbered) :
    t₂.specName = t.specName ∧ t₂.kind = t.kind := by
  simp only [unnumbered, mk.injEq] at h
  exact ⟨h.2.1, h.2.2.2.2.2⟩

theorem TypeEntry.record?_of_kind {t t₂ : TypeEntry} (h : t₂.kind = t.kind) :
    t₂.record? = t.record? := by
  unfold record?
  rw [h]

theorem TypeEntry.unnumbered_expand {parts : Field → List Field} {t : TypeEntry} :
    (t.expand parts).unnumbered = t.unnumbered.expand parts := by
  obtain ⟨id, specName, name, comment, implemented, kind⟩ := t
  cases kind <;> rfl

namespace Schema

/-- The same types, in whatever order they stand. -/
def SameTypes (s s₂ : Schema) : Prop :=
  (s₂.types.map TypeEntry.unnumbered).Perm (s.types.map TypeEntry.unnumbered)

namespace SameTypes

variable {s s₂ : Schema} {name : String}

theorem symm (h : s.SameTypes s₂) : s₂.SameTypes s :=
  List.Perm.symm h

theorem names_perm (h : s.SameTypes s₂) : s₂.names.Perm s.names := by
  have hnames : ∀ s : Schema, (s.types.map TypeEntry.unnumbered).map (·.specName) = s.names :=
    fun s => List.map_map
  rw [← hnames, ← hnames]
  exact h.map _

variable (h : s.SameTypes s₂) (hnames : s.names.Nodup)

include h

theorem plainCount_eq : s₂.plainCount = s.plainCount := by
  have hsum : ∀ s : Schema, s.plainCount = ((s.types.map TypeEntry.unnumbered).map fun t =>
      (t.record?.map Record.plainCount).getD 0).sum := by
    intro s
    rw [plainCount_eq_sum, List.map_map]
    rfl
  rw [hsum, hsum]
  exact (h.map _).sum_eq

include hnames

theorem exists_lookup? {t : TypeEntry} (ht : s.lookup? name = some t) :
    ∃ t₂, s₂.lookup? name = some t₂ ∧ t₂.unnumbered = t.unnumbered := by
  obtain ⟨hmem, hname⟩ := mem_of_lookup? ht
  obtain ⟨t₂, hmem₂, heq⟩ := List.mem_map.mp (h.mem_iff.mpr (List.mem_map_of_mem hmem))
  have hname₂ : t₂.specName = name := (TypeEntry.of_unnumbered_eq heq).1.trans hname
  exact ⟨t₂, hname₂ ▸ lookup?_of_mem (h.names_perm.nodup_iff.mpr hnames) hmem₂, heq⟩

theorem exists_followAliases {hops : Nat} {t t₂ u : TypeEntry}
    (heq : t₂.unnumbered = t.unnumbered) (hu : s.followAliases name hops t = .ok u) :
    ∃ u₂, s₂.followAliases name hops t₂ = .ok u₂ ∧ u₂.unnumbered = u.unnumbered := by
  induction hops generalizing t t₂ with
  | zero => cases hu
  | succ hops ih =>
    unfold followAliases at hu ⊢
    rw [(TypeEntry.of_unnumbered_eq heq).2]
    split at hu
    · obtain ⟨next, hnext, hu⟩ := bind_eq_ok.mp hu
      obtain ⟨next₂, hnext₂, hsame⟩ := h.exists_lookup? hnames (require_eq_ok.mp hnext)
      obtain ⟨u₂, hu₂, hsame⟩ := ih hsame hu
      exact ⟨u₂, bind_eq_ok.mpr ⟨next₂, require_eq_ok.mpr hnext₂, hu₂⟩, hsame⟩
    · cases hu
      exact ⟨t₂, rfl, heq⟩

/-- A name denotes the same structure. -/
theorem exists_recordOf? {t : TypeEntry} {x : Record} (ht : s.recordOf? name = some (t, x)) :
    ∃ t₂, s₂.recordOf? name = some (t₂, x) ∧ t₂.specName = t.specName := by
  obtain ⟨htarget, hx⟩ := recordOf?_eq_some.mp ht
  obtain ⟨first, hfirst, hu⟩ := bind_eq_ok.mp htarget
  obtain ⟨first₂, hfirst₂, hsame⟩ := h.exists_lookup? hnames (require_eq_ok.mp hfirst)
  obtain ⟨t₂, ht₂, hsame⟩ := h.exists_followAliases hnames hsame hu
  obtain ⟨hname, hkind⟩ := TypeEntry.of_unnumbered_eq hsame
  refine ⟨t₂, recordOf?_eq_some.mpr ⟨?_, (TypeEntry.record?_of_kind hkind).trans hx⟩, hname⟩
  exact bind_eq_ok.mpr ⟨first₂, require_eq_ok.mpr hfirst₂, ht₂⟩

theorem record?_eq : (s₂.lookup? name).bind TypeEntry.record? =
    (s.lookup? name).bind TypeEntry.record? := by
  cases ht : s.lookup? name with
  | some t =>
    obtain ⟨t₂, ht₂, heq⟩ := h.exists_lookup? hnames ht
    rw [ht₂]
    exact TypeEntry.record?_of_kind (TypeEntry.of_unnumbered_eq heq).2
  | none =>
    cases ht₂ : s₂.lookup? name with
    | none => rfl
    | some t₂ =>
      have hnames₂ := h.names_perm.nodup_iff.mpr hnames
      obtain ⟨t, ht', -⟩ := h.symm.exists_lookup? hnames₂ ht₂
      cases ht.symm.trans ht'

end SameTypes

section Outcomes

variable {s s₂ s' s₂' : Schema} {config : Config} (hsame : s.SameTypes s₂)
  (hnames : s.names.Nodup) (h : Inlined config s s') (h₂ : Inlined config s₂ s₂')

include hsame hnames h h₂

/-- What a field is inlined to in one outcome it is inlined to in the other. -/
theorem Inlined.wrapperOf?_eq_some {t : TypeEntry} (ht : t ∈ s.types) {x : Record}
    (hx : t.record? = some x) {f : Field} (hf : f ∈ x.fields) {tag data : Field}
    (hw : s'.wrapperOf? config t.specName f = some (tag, data)) :
    s₂'.wrapperOf? config t.specName f = some (tag, data) := by
  obtain ⟨rank, hranked⟩ := h.ranked
  -- The wrapper has a lower rank than the structure that it is inlined in.
  induction hrank : rank t.specName using Nat.strong_induction_on
    generalizing t x f tag data with
  | _ _ ih =>
    obtain ⟨hplain, u', y', hu', hother, hwraps⟩ := Schema.wrapperOf?_eq_some.mp hw
    obtain ⟨_, _, hranked', hless⟩ := hranked t ht x hx f hf (by rw [hw]; rfl)
    cases hu'.symm.trans hranked'
    rw [h.eq_expand, recordOf?_expand] at hu'
    obtain ⟨⟨u, y⟩, hu, heq⟩ := Option.map_eq_some_iff.mp hu'
    obtain ⟨rfl, rfl⟩ := Prod.mk.inj heq
    rw [TypeEntry.specName_expand] at hless hother
    obtain ⟨hmem, hy⟩ := mem_of_recordOf? hu
    have hfields : y.expand (s₂'.pieces config u.specName) =
        y.expand (s'.pieces config u.specName) := by
      unfold Record.expand
      refine congrArg (fun fields => { y with fields }) (List.flatMap_congr fun g hg => ?_)
      cases hgw : s'.wrapperOf? config u.specName g with
      | some parts =>
        rw [pieces_of_wrapper hgw, pieces_of_wrapper (ih _ (hrank ▸ hless) hmem hy hg hgw rfl)]
      | none =>
        -- A field that is left is one of the two of the wrapper, and these are not plain.
        have hleft : g ∈ [tag, data] := hwraps.fields ▸ List.mem_flatMap.mpr
          ⟨g, hg, by rw [pieces_of_kept hgw]; exact List.mem_singleton_self g⟩
        have hgm : g.marshal ≠ .plain := by
          rcases List.mem_pair.mp hleft with rfl | rfl
          · exact hwraps.not_plain.1
          · exact hwraps.not_plain.2
        rw [pieces_eq_self hgm, pieces_eq_self hgm]
    obtain ⟨u₂, hu₂, hname⟩ := hsame.exists_recordOf? hnames hu
    refine Schema.wrapperOf?_eq_some.mpr ⟨hplain, u₂.expand (s₂'.pieces config u₂.specName),
      y.expand (s₂'.pieces config u₂.specName), ?_, ?_, ?_⟩
    · rw [h₂.eq_expand, recordOf?_expand, hu₂]
      exact congrArg some (Prod.ext (by rw [← h₂.eq_expand]) (by rw [← h₂.eq_expand]))
    · rw [TypeEntry.specName_expand, hname]
      exact hother
    · rw [hname, hfields]
      exact hwraps

/-- In both outcomes a field is in the same pieces. -/
theorem Inlined.pieces_eq {t : TypeEntry} (ht : t ∈ s.types) {x : Record}
    (hx : t.record? = some x) {f : Field} (hf : f ∈ x.fields) :
    s₂'.pieces config t.specName f = s'.pieces config t.specName f := by
  obtain ⟨t₂, ht₂, heq⟩ := List.mem_map.mp (hsame.mem_iff.mpr (List.mem_map_of_mem ht))
  obtain ⟨hname, hkind⟩ := TypeEntry.of_unnumbered_eq heq
  have hx₂ : t₂.record? = some x := (TypeEntry.record?_of_kind hkind).trans hx
  have hnames₂ := hsame.names_perm.nodup_iff.mpr hnames
  cases hw : s'.wrapperOf? config t.specName f with
  | some parts =>
    rw [pieces_of_wrapper hw, pieces_of_wrapper (h.wrapperOf?_eq_some hsame hnames h₂ ht hx hf hw)]
  | none =>
    rw [pieces_of_kept hw]
    cases hw₂ : s₂'.wrapperOf? config t.specName f with
    | none => exact pieces_of_kept hw₂
    | some parts =>
      rw [← hname] at hw₂
      have hw' := h₂.wrapperOf?_eq_some hsame.symm hnames₂ h ht₂ hx₂ hf hw₂
      rw [hname, hw] at hw'
      cases hw'

/-- Both outcomes hold the same types. -/
theorem Inlined.sameTypes : s'.SameTypes s₂' := by
  have houtcome : ∀ {s s' : Schema}, Inlined config s s' → s'.types.map TypeEntry.unnumbered =
      (s.types.map TypeEntry.unnumbered).map fun t => t.expand (s'.pieces config t.specName) := by
    intro s s' h
    rw [List.map_map]
    conv_lhs => rw [h.eq_expand, expand, List.map_map]
    exact List.map_congr_left fun t _ => TypeEntry.unnumbered_expand
  unfold SameTypes
  rw [houtcome h, houtcome h₂]
  have hexpand : (s.types.map TypeEntry.unnumbered).map
        (fun t => t.expand (s'.pieces config t.specName)) =
      (s.types.map TypeEntry.unnumbered).map
        fun t => t.expand (s₂'.pieces config t.specName) := by
    refine List.map_congr_left fun u hu => ?_
    obtain ⟨t, ht, rfl⟩ := List.mem_map.mp hu
    rw [← TypeEntry.unnumbered_expand, ← TypeEntry.unnumbered_expand]
    refine congrArg TypeEntry.unnumbered ?_
    show t.expand (s'.pieces config t.specName) = t.expand (s₂'.pieces config t.specName)
    cases hx : t.record? with
    | none => rw [TypeEntry.expand_of_not_record hx, TypeEntry.expand_of_not_record hx]
    | some x =>
      rw [TypeEntry.expand_of_record? hx, TypeEntry.expand_of_record? hx, Record.expand,
        Record.expand, List.flatMap_congr fun f hf =>
          (h.pieces_eq hsame hnames h₂ ht hx hf).symm]
  rw [hexpand]
  exact List.Perm.map _ hsame

end Outcomes

end Schema

/-- Where the same types are inlined in another order and neither fails, as many wrappers are inlined
and every structure comes out the same, with all of its fields. -/
theorem Edit.inlineWrappers_confluent {config : Config} {r r₂ r' r₂' : Registry} {n n₂ : Nat}
    (hnames : r.names.Nodup) (hsame : r.SameTypes r₂.toSchema)
    (hy : Yields (inlineWrappers config) r n r') (hy₂ : Yields (inlineWrappers config) r₂ n₂ r₂') :
    n₂ = n ∧ ∀ name, (r₂'.lookup? name).bind TypeEntry.record? =
      (r'.lookup? name).bind TypeEntry.record? := by
  have hnames₂ : r₂.names.Nodup := hsame.names_perm.nodup_iff.mpr hnames
  obtain ⟨⟨hinlining, -⟩, hcount, hdone⟩ := inlining_of_inlineWrappers hnames hy .start
  obtain ⟨⟨hinlining₂, -⟩, hcount₂, hdone₂⟩ := inlining_of_inlineWrappers hnames₂ hy₂ .start
  have hsame' : r'.SameTypes r₂'.toSchema := (hinlining.inlined hnames hdone).sameTypes hsame hnames
    (hinlining₂.inlined hnames₂ hdone₂)
  refine ⟨?_, fun name => hsame'.record?_eq (hinlining.names ▸ hnames)⟩
  have hbefore := hsame.plainCount_eq
  have hafter := hsame'.plainCount_eq
  omega

section Nested

theorem nested_orders :
    (extractedOf nestedTables).SameTypes (extractedOf nestedTables.reverse).toSchema ∧
    (Id.run ((Edit.inlineWrappers {}).run (extractedOf nestedTables.reverse))).1.toOption.isSome ∧
    (extractedOf nestedTables.reverse).names ≠ (extractedOf nestedTables).names ∧
    (((inlinedOf nestedTables).lookup? "TPMS_USER").bind TypeEntry.record?).map
      (·.fields.map fun f => (f.name, f.partner)) =
        some [("firstDataSize", some "first"), ("first", some "firstDataSize"),
          ("secondDataSize", some "second"), ("second", some "secondDataSize")] := by
  unfold Schema.SameTypes
  decide +kernel

/-- One order needs a round more than the other, for the same fields. -/
theorem inlineWrappers_reversed :
    (extractedOf nestedTables.reverse).names ≠ (extractedOf nestedTables).names ∧
      (extractedOf nestedTables).SameTypes (extractedOf nestedTables.reverse).toSchema ∧
      Yields (Edit.inlineWrappers {}) (extractedOf nestedTables) 3 (inlinedOf nestedTables) ∧
      Yields (Edit.inlineWrappers {}) (extractedOf nestedTables.reverse) 3
        (inlinedOf nestedTables.reverse) ∧
      (((inlinedOf nestedTables.reverse).lookup? "TPMS_USER").bind TypeEntry.record?).map
        (·.fields.map fun f => (f.name, f.partner)) =
          some [("firstDataSize", some "first"), ("first", some "firstDataSize"),
            ("secondDataSize", some "second"), ("second", some "secondDataSize")] := by
  obtain ⟨hnames, hcount, -⟩ := nested_facts
  obtain ⟨hsame, hends, hother, hfields⟩ := nested_orders
  obtain ⟨n, hn⟩ := Option.isSome_iff_exists.mp hends
  have hy : Yields (Edit.inlineWrappers {}) (extractedOf nestedTables) 3 (inlinedOf nestedTables) :=
    yields_of_toOption hcount
  have hy₂ : Yields (Edit.inlineWrappers {}) (extractedOf nestedTables.reverse) n
      (inlinedOf nestedTables.reverse) := yields_of_toOption hn
  obtain ⟨rfl, hrecords⟩ := Edit.inlineWrappers_confluent hnames hsame hy hy₂
  exact ⟨hother, hsame, hy, hy₂, by rw [hrecords]; exact hfields⟩

end Nested

end WireTables
