import Mathlib.Algebra.GroupWithZero.Nat
import Mathlib.Algebra.Order.BigOperators.Group.List
import Mathlib.Algebra.Order.Group.Nat
import WireTables.Proofs.Normal.Wrapper
import WireTables.Proofs.Schema.Recast

/-!
# Inlining to the end

Inlining only replaces fields of wrapper type by the fields of their wrappers, and it goes on until
no such field is left (`inlined_of_inlineWrappers`). A structure is a wrapper no later than its
fields are inlined elsewhere, and does not change from then on. So in the end every structure has
the pieces of its fields as the outcome itself defines them, and no structure is inlined in itself,
however many steps away (`Inlined.ranked`).
-/

namespace WireTables

/-- The structure with each of its fields in pieces. -/
def Record.expand (parts : Field → List Field) (r : Record) : Record :=
  { r with fields := r.fields.flatMap parts }

theorem Record.plainCount_expand (r : Record) (parts : Field → List Field) :
    (r.expand parts).plainCount =
      (r.fields.map fun f => (parts f).countP (·.marshal == .plain)).sum := by
  unfold plainCount expand
  rw [List.countP_flatMap]
  rfl

theorem Record.expand_singleton (r : Record) : r.expand (fun f => [f]) = r := by
  unfold expand
  rw [List.flatMap_singleton']

/-- The type with each field of its structure in pieces, if it is a structure. -/
def TypeEntry.expand (parts : Field → List Field) (t : TypeEntry) : TypeEntry :=
  t.mapRecord (·.expand parts)

namespace TypeEntry

variable {parts : Field → List Field} {t : TypeEntry}

@[simp] theorem specName_expand : (t.expand parts).specName = t.specName :=
  specName_mapRecord _ t

theorem record?_expand : (t.expand parts).record? = t.record?.map (·.expand parts) :=
  record?_mapRecord _ t

/-- Only structures have fields in pieces. -/
theorem InPlace.expand (parts : String → Field → List Field) :
    InPlace fun t => t.expand (parts t.specName) :=
  .mapRecord fun name r => r.expand (parts name)

theorem expand_of_record? {r : Record} (hr : t.record? = some r) :
    t.expand parts = { t with kind := .record (r.expand parts) } := by
  obtain ⟨id, specName, name, comment, implemented, kind⟩ := t
  cases kind <;> cases hr
  rfl

theorem expand_of_not_record (hr : t.record? = none) : t.expand parts = t := by
  obtain ⟨id, specName, name, comment, implemented, kind⟩ := t
  cases kind <;> first | rfl | cases hr

theorem expand_singleton : t.expand (fun f => [f]) = t := by
  cases hr : t.record? with
  | none => exact expand_of_not_record hr
  | some r =>
    rw [expand_of_record? hr, r.expand_singleton]
    obtain ⟨id, specName, name, comment, implemented, kind⟩ := t
    cases kind <;> cases hr
    rfl

end TypeEntry

namespace Schema

/-- The schema with each field of each structure in pieces. -/
def expand (s : Schema) (parts : String → Field → List Field) : Schema :=
  { s with types := s.types.map fun t => t.expand (parts t.specName) }

section Expand

variable {s : Schema} {parts parts' : String → Field → List Field} {name : String}

theorem expand_eq_mapTypes :
    s.expand parts = s.mapTypes fun t => t.expand (parts t.specName) :=
  rfl

theorem lookup?_expand :
    (s.expand parts).lookup? name = (s.lookup? name).map fun t => t.expand (parts t.specName) :=
  lookup?_mapTypes (.expand parts)

theorem names_expand : (s.expand parts).names = s.names :=
  names_mapTypes (.expand parts)

/-- A name denotes the same structure, with its fields in pieces. -/
theorem recordOf?_expand : (s.expand parts).recordOf? name = (s.recordOf? name).map fun p =>
    (p.1.expand (parts p.1.specName), p.2.expand (parts p.1.specName)) := by
  rw [expand_eq_mapTypes, recordOf?_mapTypes (.expand parts)]
  cases hr : s.recordOf? name with
  | none => rfl
  | some p =>
    obtain ⟨t, r⟩ := p
    rw [Option.bind_some, TypeEntry.record?_expand, (recordOf?_eq_some.mp hr).2]
    rfl

/-- A name denotes the same elementary value. -/
theorem scalar?_expand : (s.expand parts).scalar? name = s.scalar? name :=
  scalar?_mapTypes (.expand parts)

theorem union?_expand : ((s.expand parts).lookup? name).bind TypeEntry.union? =
    (s.lookup? name).bind TypeEntry.union? := by
  rw [lookup?_expand]
  cases s.lookup? name with
  | none => rfl
  | some t =>
    obtain ⟨id, specName, tname, comment, implemented, kind⟩ := t
    cases kind <;> rfl

/-- Only the pieces of the fields that there are matter. -/
theorem expand_congr (h : ∀ t ∈ s.types, ∀ r, t.record? = some r → ∀ f ∈ r.fields,
    parts t.specName f = parts' t.specName f) : s.expand parts = s.expand parts' := by
  unfold expand
  congr 1
  refine List.map_congr_left fun t ht => ?_
  cases hr : t.record? with
  | none => rw [TypeEntry.expand_of_not_record hr, TypeEntry.expand_of_not_record hr]
  | some r =>
    rw [TypeEntry.expand_of_record? hr, TypeEntry.expand_of_record? hr, Record.expand,
      Record.expand, List.flatMap_congr (h t ht r hr)]

theorem expand_self : s.expand (fun _ f => [f]) = s := by
  unfold expand
  rw [List.map_id'' (fun t => t.expand_singleton) s.types]

/-- Pieces of pieces are pieces. -/
theorem expand_expand : (s.expand parts).expand parts' =
    s.expand fun owner f => (parts owner f).flatMap (parts' owner) := by
  unfold expand
  rw [List.map_map]
  congr 1
  refine List.map_congr_left fun t _ => ?_
  show (t.expand (parts t.specName)).expand (parts' (t.expand (parts t.specName)).specName) = _
  rw [TypeEntry.specName_expand]
  cases hr : t.record? with
  | none =>
    rw [TypeEntry.expand_of_not_record hr, TypeEntry.expand_of_not_record hr,
      TypeEntry.expand_of_not_record hr]
  | some r =>
    rw [TypeEntry.expand_of_record? hr, TypeEntry.expand_of_record? hr]
    show ({ t with kind := .record ((r.expand _).expand _) } : TypeEntry) = _
    rw [Record.expand, Record.expand, Record.expand, List.flatMap_assoc]

/-- The only structure of a name is changed. -/
theorem modifyRecord_eq_expand (hnames : s.names.Nodup) {r : Record} {p : Field → List Field}
    (hr : (s.lookup? name).bind TypeEntry.record? = some r) :
    (s.modifyRecord name fun x => { x with fields := r.fields.flatMap p }) =
      s.expand fun owner f => if owner = name then p f else [f] := by
  obtain ⟨t₀, ht₀, hr⟩ := Option.bind_eq_some_iff.mp hr
  unfold modifyRecord modifyType expand
  congr 1
  refine List.map_congr_left fun t ht => ?_
  by_cases hname : t.specName = name
  · have hlookup := lookup?_of_mem hnames ht
    rw [hname, ht₀, Option.some.injEq] at hlookup
    subst hlookup
    obtain ⟨id, specName, tname, comment, implemented, kind⟩ := t₀
    cases kind <;> cases hr
    simp [TypeEntry.expand, TypeEntry.mapRecord, Record.expand, show specName = name from hname]
  · rw [if_neg (by simpa using hname)]
    simp only [if_neg hname]
    exact TypeEntry.expand_singleton.symm

end Expand

/-- The schema with the wrappers in one structure inlined. -/
def inlineAt (s : Schema) (config : Config) (name : String) : Schema :=
  s.expand fun owner f => if owner = name then s.pieces config owner f else [f]

/-- The structure has a field of wrapper type. -/
def HasWrapped (s : Schema) (config : Config) (name : String) : Prop :=
  ∃ t ∈ s.types, t.specName = name ∧ ∃ r, t.record? = some r ∧
    ∃ f ∈ r.fields, (s.wrapperOf? config name f).isSome = true

/-- Wrappers are inlined in one structure after the other. -/
inductive Inlining (config : Config) (s : Schema) : Schema → Prop
  | start : Inlining config s s
  | inline {s₁ name} (h : Inlining config s s₁) (hname : s₁.HasWrapped config name) :
    Inlining config s (s₁.inlineAt config name)

section Rounds

variable {s : Schema} {config : Config} {name owner : String}

theorem plainCount_eq_sum :
    s.plainCount = (s.types.map fun t => (t.record?.map Record.plainCount).getD 0).sum := by
  unfold plainCount
  rw [List.sum_eq_foldl, List.foldl_map]

/-- The pieces of a field of wrapper type are not plain. -/
theorem countP_pieces (f : Field) : (s.pieces config owner f).countP (·.marshal == .plain) =
    if (s.wrapperOf? config owner f).isSome then 0 else [f].countP (·.marshal == .plain) := by
  unfold pieces
  cases hw : s.wrapperOf? config owner f with
  | none => rfl
  | some p =>
    obtain ⟨tag, data⟩ := p
    obtain ⟨-, t, r, -, -, hwraps⟩ := wrapperOf?_eq_some.mp hw
    rcases hwraps.marshal with ⟨ht, hd⟩ | ⟨ht, hd | hd⟩ <;> simp [inlineParts, ht, hd]

/-- The number of fields of wrapper type. -/
def wrappedCount (s : Schema) (config : Config) (owner : String) (fields : List Field) : Nat :=
  fields.countP fun f => (s.wrapperOf? config owner f).isSome

theorem wrappedCount_eq_zero {fields : List Field} : s.wrappedCount config owner fields = 0 ↔
    ∀ f ∈ fields, s.wrapperOf? config owner f = none := by
  simp [wrappedCount, List.countP_eq_zero]

/-- What is counted is the fields of wrapper type. -/
theorem inlineFields_count {r : Record} {fields : List Field} {n : Nat}
    (h : s.inlineFields config owner r = .ok (fields, n)) :
    n = s.wrappedCount config owner r.fields := by
  unfold inlineFields at h
  obtain ⟨outs, houts, hpure⟩ := bind_eq_ok.mp h
  cases hpure
  have heach := mapM_eq_ok.mp houts
  clear houts h
  unfold wrappedCount
  generalize r.fields = before at heach
  suffices hsum : ∀ start, outs.foldl (fun n part => n + part.2) start =
      start + before.countP fun f => (s.wrapperOf? config owner f).isSome by
    simpa using hsum 0
  induction heach with
  | nil => exact fun _ => rfl
  | @cons f out _ _ hf _ ih =>
    intro start
    have hcount : out.2 = if (s.wrapperOf? config owner f).isSome then 1 else 0 := by
      unfold inlineField at hf
      split at hf
      · next hnone =>
        cases hf
        rw [hnone]
        rfl
      · next hsome =>
        dsimp only at hf
        split at hf
        · cases hf
        · cases hf
          rw [hsome]
          rfl
    rw [List.foldl_cons, ih, hcount, List.countP_cons]
    omega

/-- Each field of wrapper type is a plain field less in a structure. -/
theorem plainCount_expand_pieces (r : Record) :
    (r.expand (s.pieces config owner)).plainCount + s.wrappedCount config owner r.fields =
      r.plainCount := by
  rw [r.plainCount_expand, wrappedCount, Record.plainCount]
  induction r.fields with
  | nil => rfl
  | cons f rest ih =>
    have hplain : (s.wrapperOf? config owner f).isSome = true → (f.marshal == .plain) = true := by
      intro hw
      obtain ⟨p, hp⟩ := Option.isSome_iff_exists.mp hw
      simp [(wrapperOf?_eq_some.mp hp).1.1]
    rw [List.map_cons, List.sum_cons, countP_pieces, List.countP_singleton, List.countP_cons,
      List.countP_cons, ← ih]
    by_cases hw : (s.wrapperOf? config owner f).isSome = true
    · rw [if_pos hw, if_pos hw, if_pos (hplain hw)]
      omega
    · rw [if_neg hw, if_neg hw]
      omega

/-- The only structure of a name has less plain fields where its wrappers are inlined, by the
number of wrappers. -/
theorem plainCount_inlineAt (hnames : s.names.Nodup) {r : Record}
    (hr : (s.lookup? name).bind TypeEntry.record? = some r) :
    (s.inlineAt config name).plainCount + s.wrappedCount config name r.fields =
      s.plainCount := by
  obtain ⟨t₀, ht₀, hr⟩ := Option.bind_eq_some_iff.mp hr
  obtain ⟨hmem, hname⟩ := mem_of_lookup? ht₀
  let less (t : TypeEntry) : Nat :=
    if t.specName = name then s.wrappedCount config name r.fields else 0
  have hless : s.wrappedCount config name r.fields = (s.types.map less).sum := by
    have hother : ∀ t, t ≠ t₀ → t ∈ s.types → less t = 0 := by
      intro t hne ht
      refine if_neg fun hn => hne ?_
      have hlookup := lookup?_of_mem hnames ht
      rw [hn, ht₀, Option.some.injEq] at hlookup
      exact hlookup.symm
    rw [List.sum_map_eq_nsmul_single t₀ less hother,
      List.count_eq_one_of_mem (List.Nodup.of_map _ hnames) hmem, one_nsmul]
    exact (if_pos hname).symm
  rw [plainCount_eq_sum, plainCount_eq_sum, hless, inlineAt, expand, List.map_map,
    ← List.sum_map_add]
  refine congrArg List.sum (List.map_congr_left fun t ht => ?_)
  rw [Function.comp_apply, TypeEntry.record?_expand]
  by_cases hn : t.specName = name
  · have hlookup := lookup?_of_mem hnames ht
    rw [hn, ht₀, Option.some.injEq] at hlookup
    subst hlookup
    show ((t₀.record?.map _).map _).getD 0 + less t₀ = _
    rw [hr, show less t₀ = _ from if_pos hn]
    simp only [hn, if_true]
    exact plainCount_expand_pieces r
  · simp only [if_neg hn, less, Nat.add_zero]
    cases t.record? with
    | none => rfl
    | some x => rw [Option.map_some, x.expand_singleton]

theorem Inlining.names {s' : Schema} (h : Inlining config s s') : s'.names = s.names := by
  induction h with
  | start => rfl
  | inline _ _ ih => exact names_expand.trans ih

end Rounds

section Persist

variable {s : Schema} {config : Config} {name owner : String} (hnames : s.names.Nodup)
  (hname : s.HasWrapped config name)

include hnames hname

/-- A wrapper has no field of wrapper type itself, so it stays what it is. -/
theorem specName_ne_of_wraps {type : String} {t : TypeEntry} {r : Record} {tag data : Field}
    (hrecord : s.recordOf? type = some (t, r)) (hwraps : r.Wraps tag data) :
    t.specName ≠ name := by
  rintro rfl
  obtain ⟨t', ht', hsame, r', hr', f, hf, hw⟩ := hname
  obtain ⟨ht, hr⟩ := recordOf?_eq_some.mp hrecord
  have hlookup := lookup?_of_mem hnames ht'
  rw [hsame, (lookup?_of_target ht).1, Option.some.injEq] at hlookup
  subst hlookup
  cases hr.symm.trans hr'
  obtain ⟨p, hp⟩ := Option.isSome_iff_exists.mp hw
  obtain ⟨⟨hplain, -⟩, -⟩ := wrapperOf?_eq_some.mp hp
  rw [hwraps.fields, List.mem_pair] at hf
  rcases hf with rfl | rfl
  · exact hwraps.not_plain.1 hplain
  · exact hwraps.not_plain.2 hplain

omit hnames hname in
theorem recordOf?_inlineAt {type : String} {t : TypeEntry} {r : Record}
    (hrecord : s.recordOf? type = some (t, r)) (hne : t.specName ≠ name) :
    (s.inlineAt config name).recordOf? type = some (t, r) := by
  rw [inlineAt, recordOf?_expand, hrecord, Option.map_some]
  simp only [if_neg hne]
  rw [t.expand_singleton, r.expand_singleton]

theorem wrapperOf?_inlineAt {f tag data : Field}
    (hw : s.wrapperOf? config owner f = some (tag, data)) :
    (s.inlineAt config name).wrapperOf? config owner f = some (tag, data) := by
  obtain ⟨hf, t, r, hrecord, hother, hwraps⟩ := wrapperOf?_eq_some.mp hw
  exact wrapperOf?_eq_some.mpr ⟨hf, t, r, recordOf?_inlineAt hrecord
    (specName_ne_of_wraps hnames hname hrecord hwraps), hother, hwraps⟩

end Persist

/-- Fields are in pieces as the schema itself defines them, if at all, and the structure whose
fields they are has a higher rank than the wrapper. -/
structure Expansion (config : Config) (s s' : Schema) (parts : String → Field → List Field)
    (rank : String → Nat) : Prop where
  eq_expand : s' = s.expand parts
  parts : ∀ owner f, parts owner f = [f] ∨ ∃ tag data t r,
    s'.wrapperOf? config owner f = some (tag, data) ∧ parts owner f = inlineParts f tag data ∧
      s'.recordOf? f.typeName = some (t, r) ∧ rank t.specName < rank owner

section Outcome

variable {s s' : Schema} {config : Config} (hnames : s.names.Nodup)

/-- No piece of a wrapper is of wrapper type. -/
theorem flatMap_pieces_inlineParts {owner owner' : String} {f tag data : Field} {s₁ : Schema}
    (hw : s.wrapperOf? config owner f = some (tag, data)) :
    (inlineParts f tag data).flatMap (s₁.pieces config owner') = inlineParts f tag data := by
  obtain ⟨-, t, r, -, -, hwraps⟩ := wrapperOf?_eq_some.mp hw
  have hpart : ∀ g ∈ inlineParts f tag data, g.marshal ≠ .plain := by
    intro g hg
    rcases List.mem_pair.mp hg with rfl | rfl
    · exact hwraps.not_plain.1
    · exact hwraps.not_plain.2
  rw [List.flatMap_congr fun g hg => pieces_eq_self (hpart g hg), List.flatMap_singleton']

include hnames

/-- Each step of inlining only adds pieces of wrappers that are there to stay. -/
theorem Inlining.exists_expansion (h : Inlining config s s') : ∃ parts rank bound,
    Expansion config s s' parts rank ∧ ∀ name, rank name < bound := by
  induction h with
  | start => exact ⟨fun _ f => [f], fun _ => 0, 1, ⟨expand_self.symm, fun _ _ => .inl rfl⟩,
      fun _ => Nat.one_pos⟩
  | @inline s₁ name h hname ih =>
    obtain ⟨parts, rank, bound, hexp, hbound⟩ := ih
    have hnames₁ : s₁.names.Nodup := h.names ▸ hnames
    -- Structures that change now rank above all that changed before.
    refine ⟨fun owner f => (parts owner f).flatMap fun g =>
        if owner = name then s₁.pieces config owner g else [g],
      fun owner => if owner = name then bound else rank owner, bound + 1, ⟨?_, ?_⟩, ?_⟩
    · refine Eq.trans ?_ expand_expand
      rw [← hexp.eq_expand]
      rfl
    · intro owner f
      have ranked : ∀ {t r tag data}, s₁.recordOf? f.typeName = some (t, r) → r.Wraps tag data →
          rank t.specName < (if owner = name then bound else rank owner) →
            (s₁.inlineAt config name).recordOf? f.typeName = some (t, r) ∧
              (if t.specName = name then bound else rank t.specName) <
                if owner = name then bound else rank owner := by
        intro t r tag data hrecord hwraps hrank
        have hne := specName_ne_of_wraps hnames₁ hname hrecord hwraps
        exact ⟨recordOf?_inlineAt hrecord hne, by rwa [if_neg hne]⟩
      rcases hexp.parts owner f with hp | ⟨tag, data, t, r, hw, hp, hrecord, hrank⟩
      · rw [hp, List.flatMap_singleton]
        split
        · next howner =>
          unfold pieces
          cases hw : s₁.wrapperOf? config owner f with
          | none => exact .inl rfl
          | some p =>
            obtain ⟨tag, data⟩ := p
            obtain ⟨-, t, r, hrecord, -, hwraps⟩ := wrapperOf?_eq_some.mp hw
            obtain ⟨hrecord, hrank⟩ := ranked hrecord hwraps (by rw [if_pos howner]; exact hbound _)
            rw [if_pos howner] at hrank
            exact .inr ⟨tag, data, t, r, wrapperOf?_inlineAt hnames₁ hname hw, rfl, hrecord, hrank⟩
        · exact .inl rfl
      · obtain ⟨-, t', r', hrecord', -, hwraps⟩ := wrapperOf?_eq_some.mp hw
        cases hrecord.symm.trans hrecord'
        obtain ⟨hrecord, hrank⟩ :=
          ranked hrecord hwraps (by split <;> [exact hbound _; exact hrank])
        refine .inr ⟨tag, data, t, r, wrapperOf?_inlineAt hnames₁ hname hw, ?_, hrecord, hrank⟩
        rw [hp]
        split
        · exact flatMap_pieces_inlineParts hw
        · exact List.flatMap_singleton' _
    · intro other
      dsimp only
      split
      · exact Nat.lt_succ_self _
      · exact Nat.lt_succ_of_lt (hbound other)

end Outcome

/-- Every field is in the pieces that the schema itself defines for it in the end, and structures
are ranked above the wrappers among them. -/
structure Inlined (config : Config) (s s' : Schema) : Prop where
  eq_expand : s' = s.expand (s'.pieces config)
  ranked : ∃ rank : String → Nat, ∀ t ∈ s.types, ∀ r, t.record? = some r → ∀ f ∈ r.fields,
    (s'.wrapperOf? config t.specName f).isSome = true →
      ∃ u x, s'.recordOf? f.typeName = some (u, x) ∧ rank u.specName < rank t.specName

/-- Where nothing is left to inline, every field is in its pieces. -/
theorem Inlining.inlined {s s' : Schema} {config : Config} (hnames : s.names.Nodup)
    (h : Inlining config s s') (hdone : ∀ name, ¬ s'.HasWrapped config name) :
    Inlined config s s' := by
  obtain ⟨parts, rank, -, ⟨hexp, hparts⟩, -⟩ := h.exists_expansion hnames
  -- A field that is still there is of no wrapper type.
  have kept : ∀ t ∈ s.types, ∀ r, t.record? = some r → ∀ f ∈ r.fields,
      parts t.specName f = [f] → s'.wrapperOf? config t.specName f = none := by
    intro t ht r hr f hf hp
    by_contra hw
    refine hdone t.specName ⟨t.expand (parts t.specName), ?_, TypeEntry.specName_expand,
      r.expand (parts t.specName), ?_, f, ?_, Option.isSome_iff_ne_none.mpr hw⟩
    · rw [hexp]
      exact List.mem_map_of_mem ht
    · rw [TypeEntry.record?_expand, hr, Option.map_some]
    · exact List.mem_flatMap.mpr ⟨f, hf, hp ▸ List.mem_singleton_self f⟩
  refine ⟨hexp.trans (expand_congr fun t ht r hr f hf => ?_), rank, fun t ht r hr f hf hw => ?_⟩
  · unfold pieces
    rcases hparts t.specName f with hp | ⟨tag, data, -, -, hw, hp, -⟩
    · rw [hp, kept t ht r hr f hf hp]
    · rw [hp, hw]
  · rcases hparts t.specName f with hp | ⟨-, -, u, x, -, -, hu, hrank⟩
    · rw [kept t ht r hr f hf hp] at hw
      cases hw
    · exact ⟨u, x, hu, hrank⟩

end Schema

namespace Edit

open Schema (Inlining)

variable {config : Config} {s : Schema} {r r' : Registry} {n : Nat}
  (hnames : s.names.Nodup)

include hnames

/-- Each wrapper that is inlined is a plain field less, and if there is none, nothing changes. -/
theorem inlining_of_inlineRecord {name : String} (h : Inlining config s r.toSchema)
    (hy : Yields (inlineRecord config name) r n r') :
    (Inlining config s r'.toSchema ∧ r'.known = r.known) ∧
      r'.plainCount + n = r.plainCount ∧ (n = 0 → r' = r ∧ ¬ r.HasWrapped config name) := by
  have hnodup : r.names.Nodup := h.names ▸ hnames
  have found : ∀ t ∈ r.types, t.specName = name →
      (r.lookup? name).bind TypeEntry.record? = t.record? := by
    rintro t ht rfl
    rw [Schema.lookup?_of_mem hnodup ht]
    rfl
  unfold inlineRecord at hy
  obtain ⟨_, _, hs, hy⟩ := yields_bind.mp hy
  obtain ⟨rfl, rfl⟩ := yields_schema.mp hs
  split at hy
  · next hnone =>
    obtain ⟨rfl, rfl⟩ := yields_pure.mp hy
    refine ⟨⟨h, rfl⟩, rfl, fun _ => ⟨rfl, ?_⟩⟩
    rintro ⟨t, ht, hname, x, hx, -⟩
    cases hnone.symm.trans ((found t ht hname).trans hx)
  · next x hx =>
    obtain ⟨⟨fields, count⟩, r₁, hof, hupdates⟩ := yields_bind.mp hy
    obtain ⟨hinline, rfl⟩ := yields_ofExcept.mp hof
    dsimp only at hupdates
    obtain rfl := Schema.inlineFields_count hinline
    obtain rfl := Schema.inlineFields_eq_ok hinline
    split at hupdates
    · next hpos =>
      obtain ⟨_, _, hupdate, hend⟩ := yields_bind.mp hupdates
      obtain ⟨rfl, rfl⟩ := yields_pure.mp hend
      rw [yields_update.mp hupdate]
      have hwrapped : r₁.HasWrapped config name := by
        obtain ⟨t, ht, hrecord⟩ := Option.bind_eq_some_iff.mp hx
        obtain ⟨hmem, hname⟩ := Schema.mem_of_lookup? ht
        refine ⟨t, hmem, hname, x, hrecord, ?_⟩
        by_contra hnone
        refine (Nat.ne_of_gt hpos) (Schema.wrappedCount_eq_zero.mpr fun f hf => ?_)
        exact Option.not_isSome_iff_eq_none.mp fun hw => hnone ⟨f, hf, hw⟩
      have hat : (r₁.toSchema.modifyRecord name fun y =>
          { y with fields := x.fields.flatMap (r₁.pieces config name) }) =
            r₁.toSchema.inlineAt config name := by
        rw [Schema.modifyRecord_eq_expand hnodup hx, Schema.inlineAt]
        refine congrArg r₁.toSchema.expand (funext fun owner => funext fun f => ?_)
        split
        · next heq => rw [heq]
        · rfl
      show (Inlining config s (r₁.toSchema.modifyRecord name _) ∧ _) ∧
        (r₁.toSchema.modifyRecord name _).plainCount + _ = _ ∧ _
      rw [hat]
      exact ⟨⟨h.inline hwrapped, rfl⟩, Schema.plainCount_inlineAt hnodup hx,
        fun hzero => (Nat.ne_of_gt hpos hzero).elim⟩
    · next hpos =>
      obtain ⟨rfl, rfl⟩ := yields_pure.mp hupdates
      have hzero := Nat.le_zero.mp (Nat.not_lt.mp hpos)
      refine ⟨⟨h, rfl⟩, by rw [hzero, Nat.add_zero], fun _ => ⟨rfl, ?_⟩⟩
      rintro ⟨t, ht, hname, y, hy, f, hf, hw⟩
      cases hx.symm.trans ((found t ht hname).trans hy)
      rw [Schema.wrappedCount_eq_zero.mp hzero f hf] at hw
      cases hw

theorem inlining_of_names {names : List String} {start : Nat} (h : Inlining config s r.toSchema)
    (hy : Yields (names.foldlM (fun count name => do
      return count + (← inlineRecord config name)) start) r n r') :
    (Inlining config s r'.toSchema ∧ r'.known = r.known) ∧
      (start ≤ n ∧ r'.plainCount + n = r.plainCount + start) ∧
        (n = start → r' = r ∧ ∀ name ∈ names, ¬ r.HasWrapped config name) := by
  induction names generalizing start r with
  | nil =>
    obtain ⟨rfl, rfl⟩ := yields_pure.mp hy
    exact ⟨⟨h, rfl⟩, ⟨Nat.le_refl _, rfl⟩, fun _ => ⟨rfl, fun _ hn => (List.not_mem_nil hn).elim⟩⟩
  | cons name names ih =>
    rw [List.foldlM_cons] at hy
    obtain ⟨next, r₁, hfirst, hrest⟩ := yields_bind.mp hy
    obtain ⟨count, _, hfirst, hnext⟩ := yields_bind.mp hfirst
    obtain ⟨rfl, rfl⟩ := yields_pure.mp hnext
    obtain ⟨⟨h₁, hknown₁⟩, hcount₁, hzero₁⟩ := inlining_of_inlineRecord hnames h hfirst
    obtain ⟨⟨h', hknown⟩, ⟨hle, hcount⟩, hzero⟩ := ih h₁ hrest
    refine ⟨⟨h', hknown.trans hknown₁⟩, ⟨by omega, by omega⟩, fun hn => ?_⟩
    obtain ⟨rfl, hname⟩ := hzero₁ (by omega)
    obtain ⟨rfl, hnames⟩ := hzero (by omega)
    refine ⟨rfl, fun other hother => ?_⟩
    rcases List.mem_cons.mp hother with rfl | hother
    · exact hname
    · exact hnames other hother

/-- A round that inlines nothing has looked at every structure. -/
theorem inlining_of_inlineRound (h : Inlining config s r.toSchema)
    (hy : Yields (inlineRound config) r n r') :
    (Inlining config s r'.toSchema ∧ r'.known = r.known) ∧
      r'.plainCount + n = r.plainCount ∧
        (n = 0 → r' = r ∧ ∀ name, ¬ r.HasWrapped config name) := by
  unfold inlineRound at hy
  obtain ⟨_, _, hs, hround⟩ := yields_bind.mp hy
  obtain ⟨rfl, rfl⟩ := yields_schema.mp hs
  obtain ⟨hinlining, ⟨-, hcount⟩, hzero⟩ := inlining_of_names hnames h hround
  refine ⟨hinlining, hcount, fun hn => ?_⟩
  obtain ⟨rfl, hnone⟩ := hzero hn
  refine ⟨rfl, ?_⟩
  rintro name ⟨t, ht, rfl, hwrapped⟩
  exact hnone t.specName (List.mem_map_of_mem ht) ⟨t, ht, rfl, hwrapped⟩

/-- Inlining goes on until no field is of wrapper type. -/
theorem inlining_of_inlineRounds {rounds total : Nat} (h : Inlining config s r.toSchema)
    (hrounds : r.plainCount < rounds) (hy : Yields (inlineRounds config rounds total) r n r') :
    (Inlining config s r'.toSchema ∧ r'.known = r.known) ∧
      r'.plainCount + n = r.plainCount + total ∧ ∀ name, ¬ r'.HasWrapped config name := by
  induction rounds generalizing r total with
  | zero => exact (Nat.not_lt_zero _ hrounds).elim
  | succ rounds ih =>
    unfold inlineRounds at hy
    obtain ⟨changed, r₁, hround, hrest⟩ := yields_bind.mp hy
    obtain ⟨⟨h₁, hknown₁⟩, hcount₁, hzero₁⟩ := inlining_of_inlineRound hnames h hround
    split at hrest
    · next hzero =>
      obtain ⟨rfl, rfl⟩ := yields_pure.mp hrest
      obtain ⟨rfl, hnone⟩ := hzero₁ (by simpa using hzero)
      exact ⟨⟨h₁, hknown₁⟩, rfl, hnone⟩
    · next hzero =>
      have hpos : changed ≠ 0 := by simpa using hzero
      obtain ⟨⟨h', hknown⟩, hcount, hdone⟩ := ih h₁ (by omega) hrest
      exact ⟨⟨h', hknown.trans hknown₁⟩, by omega, hdone⟩

/-- What inlining of all wrappers leaves: no field of wrapper type, and a plain field less for each
wrapper that was inlined. -/
theorem inlining_of_inlineWrappers (hy : Yields (inlineWrappers config) r n r')
    (h : Inlining config s r.toSchema) :
    (Inlining config s r'.toSchema ∧ r'.known = r.known) ∧
      r'.plainCount + n = r.plainCount ∧ ∀ name, ¬ r'.HasWrapped config name := by
  unfold inlineWrappers at hy
  obtain ⟨_, _, hs, hy⟩ := yields_bind.mp hy
  obtain ⟨rfl, rfl⟩ := yields_schema.mp hs
  exact inlining_of_inlineRounds hnames h (Nat.lt_succ_self _) hy

omit hnames in
/-- In the end every field of wrapper type is inlined everywhere, and nothing else has changed. -/
theorem inlined_of_inlineWrappers (hnames : r.names.Nodup)
    (hy : Yields (inlineWrappers config) r n r') :
    r.Inlined config r'.toSchema ∧ r'.known = r.known := by
  obtain ⟨⟨h, hknown⟩, -, hdone⟩ := inlining_of_inlineWrappers hnames hy .start
  exact ⟨h.inlined hnames hdone, hknown⟩

end Edit

end WireTables
