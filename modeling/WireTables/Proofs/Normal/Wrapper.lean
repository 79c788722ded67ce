import WireTables.Normal.Basic
import WireTables.Proofs.Editing
import WireTables.Proofs.Extraction

/-!
# Sized pairs and wrappers

The first passes only link fields that are plain, so that the fields of structures stay arranged.
A field of wrapper type gives way to a tag and the field that this one describes, under the name
that was there before.
-/

namespace WireTables

/-- What becomes of a field: it stays, or a tag comes in front of what it describes. -/
inductive Inlines (f : Field) : List Field → Prop
  | kept : Inlines f [f]
  | pair {tag data} (hf : f.marshal = .plain)
    (htag : tag.marshal = .count ∨ tag.marshal = .selector) (hpartner : tag.partner = some f.name)
    (hdata : data.marshal = .countedArray ∨ data.marshal = .unionBody ∨
      data.marshal = .selectedArray)
    (hname : data.name = f.name) (hback : data.partner = some tag.name) : Inlines f [tag, data]

section Inline

variable {fields : List Field} {parts : Field → List Field} (hparts : ∀ f, Inlines f (parts f))

include hparts

theorem count_le_inline (name : String) :
    (fields.map (·.name)).count name ≤ ((fields.flatMap parts).map (·.name)).count name := by
  induction fields with
  | nil => exact Nat.le_refl _
  | cons f rest ih =>
    have hf : ([f.name].count name) ≤ ((parts f).map (·.name)).count name := by
      have hf := hparts f
      generalize parts f = out at hf
      cases hf with
      | kept => exact Nat.le_refl _
      | pair _ _ _ _ hname =>
        rw [List.map_cons, List.map_singleton, hname]
        exact (List.sublist_cons_self _ _).count_le name
    rw [List.flatMap_cons, List.map_append, List.count_append, List.map_cons,
      ← List.singleton_append,
      List.count_append]
    exact Nat.add_le_add hf ih

theorem Once.of_inline {name : String} (h : Once (fields.flatMap parts) name) : Once fields name :=
  Nat.le_trans (count_le_inline hparts name) h

theorem TagsFirst.inline {seen seen' : List String} (h : TagsFirst [] seen fields)
    (hseen : ∀ name ∈ seen, name ∈ seen') : TagsFirst [] seen' (fields.flatMap parts) := by
  induction fields generalizing seen seen' with
  | nil => exact trivial
  | cons f rest ih =>
    rw [List.flatMap_cons]
    have hf := hparts f
    generalize parts f = out at hf
    cases hf with
    | kept =>
      refine ⟨fun tag htag hgone => hseen tag (h.1 tag htag hgone), ih h.2 fun name hname => ?_⟩
      rcases List.mem_cons.mp hname with rfl | hname
      · exact List.mem_cons_self
      · exact List.mem_cons_of_mem _ (hseen name hname)
    | @pair tag data _ htag _ hdata hname hback =>
      refine ⟨fun t ht => ?_, fun t ht _ => ?_, ih h.2 fun name hmem => ?_⟩
      · rcases htag with hm | hm <;> rw [Field.tag?, hm] at ht <;> cases ht
      · have : data.partner = some t := by
          rcases hdata with hm | hm | hm <;> rw [Field.tag?, hm] at ht <;> exact ht
        rw [hback, Option.some.injEq] at this
        exact this ▸ List.mem_cons_self
      · rcases List.mem_cons.mp hmem with rfl | hmem
        · rw [hname]
          exact List.mem_cons_self
        · exact List.mem_cons_of_mem _ (List.mem_cons_of_mem _ (hseen name hmem))

/-- A field of the outcome was there before, or belongs to the pair that a plain field gave way
to. -/
theorem mem_inline {g : Field} (h : g ∈ fields.flatMap parts) :
    (g ∈ fields ∧ parts g = [g]) ∨ ∃ f ∈ fields, f.marshal = .plain ∧ ∃ tag data,
      parts f = [tag, data] ∧ (g = tag ∨ g = data) ∧ Inlines f [tag, data] := by
  obtain ⟨f, hf, hg⟩ := List.mem_flatMap.mp h
  have hout := hparts f
  generalize hp : parts f = out at hout hg
  cases hout with
  | kept =>
    rw [List.mem_singleton.mp hg]
    exact .inl ⟨hf, hp⟩
  | @pair tag data hm htag hpartner hdata hname hback =>
    refine .inr ⟨f, hf, hm, tag, data, hp, ?_, .pair hm htag hpartner hdata hname hback⟩
    simpa using hg

/-- Fields stay arranged when plain ones give way to pairs. -/
theorem Arranged.inline (h : Arranged fields) : Arranged (fields.flatMap parts) := by
  -- A selector was there before, or selects the field that came with it.
  have selector : ∀ {g}, g ∈ fields.flatMap parts → g.marshal = .selector → g ∈ fields ∨
      ∃ f ∈ fields, f.marshal = .plain ∧ g.partner = some f.name ∧
        ∃ data, parts f = [g, data] ∧ data.partner = some g.name := by
    intro g hg hgm
    rcases mem_inline hparts hg with ⟨hg, -⟩ | ⟨f, hf, hm, tag, data, hp, hor, hin⟩
    · exact .inl hg
    · cases hin with
      | pair _ _ hpartner hdata _ hback =>
        rcases hor with rfl | rfl
        · exact .inr ⟨f, hf, hm, hpartner, data, hp, hback⟩
        · rcases hdata with hd | hd | hd <;> cases hgm.symm.trans hd
  -- A field that is not plain was there before, or came in the place of a plain one.
  have body : ∀ {u}, u ∈ fields.flatMap parts → u.marshal = .unionBody →
      (u ∈ fields ∧ parts u = [u]) ∨ ∃ f ∈ fields, f.marshal = .plain ∧ u.name = f.name ∧
        ∃ tag, parts f = [tag, u] := by
    intro u hu hum
    rcases mem_inline hparts hu with hu | ⟨f, hf, hm, tag, data, hp, hor, hin⟩
    · exact .inl hu
    · cases hin with
      | pair _ htag _ _ hname _ =>
        rcases hor with rfl | rfl
        · rcases htag with ht | ht <;> cases hum.symm.trans ht
        · exact .inr ⟨f, hf, hm, hname, tag, hp⟩
  have present : ∀ f ∈ fields, f.name ∈ (fields.flatMap parts).map (·.name) := by
    intro f hf
    have := List.count_pos_iff.mpr (List.mem_map_of_mem (f := fun f : Field => f.name) hf)
    exact List.count_pos_iff.mp (Nat.lt_of_lt_of_le this (count_le_inline hparts f.name))
  refine ⟨h.tags.inline hparts fun _ hn => hn, ?_, ?_, ?_⟩
  · intro g hg u hu hgo huo hgm hp hum
    rcases selector hg hgm with hg | ⟨f, hf, hfm, hpartner, data, hparts', hback⟩
    · rcases body hu hum with ⟨hu, -⟩ | ⟨x, hx, hxm, hxn, -⟩
      · exact h.selectors g hg u hu (hgo.of_inline hparts) (huo.of_inline hparts) hgm hp hum
      · rw [hxn] at hp huo
        exact (h.used g hg x hx (huo.of_inline hparts) hgm hp hxm).elim
    · have hname : u.name = f.name := Option.some.inj (hp.symm.trans hpartner)
      have honce : Once fields f.name := hname ▸ huo.of_inline hparts
      rcases body hu hum with ⟨hu, hkept⟩ | ⟨x, hx, -, hxn, tag, hpair⟩
      · obtain rfl := honce.eq hu hf hname rfl
        cases hkept.symm.trans hparts'
      · obtain rfl := honce.eq hx hf (hxn.symm.trans hname) rfl
        cases hpair.symm.trans hparts'
        exact hback
  · intro g hg u hu huo hgm hp hum
    have hplain : u ∈ fields ∧ parts u = [u] := by
      rcases mem_inline hparts hu with hu | ⟨f, -, -, tag, data, -, hor, hin⟩
      · exact hu
      · cases hin with
        | pair _ htag _ hdata =>
          rcases hor with rfl | rfl
          · rcases htag with ht | ht <;> cases hum.symm.trans ht
          · rcases hdata with hd | hd | hd <;> cases hum.symm.trans hd
    rcases selector hg hgm with hg | ⟨f, hf, -, hpartner, data, hparts', -⟩
    · exact h.used g hg u hplain.1 (huo.of_inline hparts) hgm hp hum
    · have hname : u.name = f.name := Option.some.inj (hp.symm.trans hpartner)
      have honce : Once fields f.name := hname ▸ huo.of_inline hparts
      obtain rfl := honce.eq hplain.1 hf hname rfl
      cases hplain.2.symm.trans hparts'
  · intro g hg hgm
    rcases selector hg hgm with hg | ⟨f, hf, -, hpartner, -⟩
    · obtain ⟨name, hname, hmem⟩ := h.present g hg hgm
      obtain ⟨f, hf, rfl⟩ := List.mem_map.mp hmem
      exact ⟨f.name, hname, present f hf⟩
    · exact ⟨f.name, hpartner, present f hf⟩

end Inline

section SizedPair

/-- A length and the structure that it measures stay where they are. -/
theorem arranged_linkSizedPair {s : Schema} {fields : List Field} (h : Arranged fields) :
    Arranged ((s.linkSizedPair fields).getD fields) := by
  unfold Schema.linkSizedPair
  split
  · next tag body =>
    split
    · have hdemoted : List.Forall₂ Demoted [tag, body]
          [{ tag with marshal := .bodySize, partner := some body.name },
            { body with marshal := .sizedBody, partner := some tag.name }] :=
        .cons ⟨rfl, .inr ⟨nofun, nofun⟩⟩ (.cons ⟨rfl, .inr ⟨nofun, nofun⟩⟩ .nil)
      have hkept : List.Forall₂ TagKept [tag, body]
          [{ tag with marshal := .bodySize, partner := some body.name },
            { body with marshal := .sizedBody, partner := some tag.name }] :=
        .cons ⟨rfl, .inl rfl⟩ (.cons ⟨rfl, .inl rfl⟩ .nil)
      exact ⟨h.tags.congr hkept, h.selectors.demoted hdemoted, h.used.demoted hdemoted
        (.cons (.inr nofun) (.cons (.inr nofun) .nil)), h.present.demoted hdemoted⟩
    · exact h
  · exact h

theorem raw_linkSizedPairs {s : Schema} (h : s.Raw) : s.linkSizedPairs.Raw := by
  refine h.map rfl (fun t => TypeEntry.specName_mapRecord _ t) fun t _ ht =>
    ht.mapRecord (fun r _ hr => ⟨arranged_linkSizedPair hr.fields, hr.base, hr.tail⟩)
      fun r _ hr => ?_
  show (s.linkSizedPair r.fields).getD r.fields = []
  rw [hr]
  rfl

end SizedPair

/-- A structure of a tag and what it describes, which name each other. -/
structure Record.Wraps (r : Record) (tag data : Field) : Prop where
  fields : r.fields = [tag, data]
  partner : tag.partner = some data.name
  back : data.partner = some tag.name
  marshal : tag.marshal = .count ∧ data.marshal = .countedArray ∨
    tag.marshal = .selector ∧ (data.marshal = .unionBody ∨ data.marshal = .selectedArray)
  base : r.base = none

namespace Record.Wraps

variable {r : Record} {tag data : Field} (h : r.Wraps tag data)

include h

theorem tag_marshal : tag.marshal = .count ∨ tag.marshal = .selector :=
  h.marshal.imp And.left And.left

theorem not_plain : tag.marshal ≠ .plain ∧ data.marshal ≠ .plain := by
  rcases h.marshal with ⟨ht, hd⟩ | ⟨ht, hd | hd⟩ <;> rw [ht, hd] <;> decide

theorem tag?_eq : data.tag? = some tag.name := by
  unfold Field.tag?
  rcases h.marshal with ⟨-, hm⟩ | ⟨-, hm | hm⟩ <;> rw [hm] <;> exact h.back

end Record.Wraps

theorem Record.wrapperParts?_eq_some {r : Record} {tag data : Field} :
    r.wrapperParts? = some (tag, data) ↔ r.Wraps tag data := by
  have parts : ∀ {c : Bool} {t d : Field}, (if c = true then some (t, d) else none) =
      some (tag, data) → c = true ∧ t = tag ∧ d = data := by
    intro c t d hc
    cases c <;> simp_all
  unfold wrapperParts?
  constructor
  · intro h
    split at h
    · next t d hfields =>
      obtain ⟨hall, rfl, rfl⟩ := parts h
      rw [Bool.and_eq_true, Bool.and_eq_true, Bool.and_eq_true] at hall
      obtain ⟨⟨⟨hpartner, hback⟩, hshape⟩, hbase⟩ := hall
      refine ⟨hfields, by simpa using hpartner, by simpa using hback, ?_, by simpa using hbase⟩
      split at hshape
      · next ht hd => exact .inl ⟨ht, hd⟩
      · next ht hd => exact .inr ⟨ht, .inl hd⟩
      · next ht hd => exact .inr ⟨ht, .inr hd⟩
      · cases hshape
    · cases h
  · intro h
    rw [h.fields]
    dsimp only
    rw [h.partner, h.back, h.base]
    rcases h.marshal with ⟨ht, hd⟩ | ⟨ht, hd | hd⟩ <;> simp [ht, hd]

namespace Schema

/-- The fields that a field of the structure `owner` gives way to. -/
def pieces (s : Schema) (config : Config) (owner : String) (f : Field) : List Field :=
  match s.wrapperOf? config owner f with
  | some (tag, data) => inlineParts f tag data
  | none => [f]

variable {s : Schema} {config : Config} {owner : String} {r : Record}

theorem wrapperOf?_eq_some {f tag data : Field} :
    s.wrapperOf? config owner f = some (tag, data) ↔
      (f.marshal = .plain ∧ config.keptWrappers.contains f.typeName = false) ∧
        ∃ t r, s.recordOf? f.typeName = some (t, r) ∧
          (t.specName ≠ owner ∧ config.keptWrappers.contains t.specName = false) ∧
            r.Wraps tag data := by
  have kept : ∀ {c d : Bool}, ¬ (c || d) = true ↔ c = false ∧ d = false := by decide
  unfold wrapperOf?
  constructor
  · intro h
    split at h
    · cases h
    · next hkept =>
      obtain ⟨⟨t, r⟩, hrecord, h⟩ := Option.bind_eq_some_iff.mp h
      dsimp only at h
      split at h
      · cases h
      · next hother =>
        obtain ⟨hplain, hkept⟩ := kept.mp hkept
        obtain ⟨hother, hnamed⟩ := kept.mp hother
        exact ⟨⟨by simpa using hplain, hkept⟩, t, r, hrecord, ⟨by simpa using hother, hnamed⟩,
          Record.wrapperParts?_eq_some.mp h⟩
  · rintro ⟨⟨hplain, hkept⟩, t, r, hrecord, ⟨hother, hnamed⟩, hwraps⟩
    rw [if_neg (kept.mpr ⟨by simpa using hplain, hkept⟩), hrecord]
    show (if _ then _ else _) = _
    rw [if_neg (kept.mpr ⟨by simpa using hother, hnamed⟩)]
    exact Record.wrapperParts?_eq_some.mpr hwraps

theorem pieces_of_wrapper {f tag data : Field}
    (hw : s.wrapperOf? config owner f = some (tag, data)) :
    s.pieces config owner f = inlineParts f tag data := by
  unfold pieces
  rw [hw]

theorem pieces_of_kept {f : Field} (hw : s.wrapperOf? config owner f = none) :
    s.pieces config owner f = [f] := by
  unfold pieces
  rw [hw]

/-- Only plain fields give way. -/
theorem pieces_eq_self {f : Field} (hf : f.marshal ≠ .plain) : s.pieces config owner f = [f] := by
  cases hw : s.wrapperOf? config owner f with
  | none => exact pieces_of_kept hw
  | some p => exact (hf (wrapperOf?_eq_some.mp hw).1.1).elim

/-- A field stays as it is, or gives way to a pair. -/
theorem inlines_pieces (f : Field) : Inlines f (s.pieces config owner f) := by
  unfold pieces
  split
  · next tag data hw =>
    obtain ⟨⟨hplain, -⟩, t, r, -, -, hwraps⟩ := wrapperOf?_eq_some.mp hw
    have htag : tag.marshal = .count ∨ tag.marshal = .selector :=
      hwraps.marshal.imp And.left And.left
    have hdata : data.marshal = .countedArray ∨ data.marshal = .unionBody ∨
        data.marshal = .selectedArray := hwraps.marshal.imp And.right And.right
    exact .pair hplain htag rfl hdata rfl rfl
  · exact .kept

/-- Each field of a structure gives way to its pieces. -/
theorem inlineFields_eq_ok {fields : List Field} {n : Nat}
    (h : s.inlineFields config owner r = .ok (fields, n)) :
    fields = r.fields.flatMap (s.pieces config owner) := by
  unfold inlineFields at h
  obtain ⟨outs, houts, hpure⟩ := bind_eq_ok.mp h
  cases hpure
  have heach := mapM_eq_ok.mp houts
  clear houts h
  generalize r.fields = before at heach
  induction heach with
  | nil => rfl
  | @cons f out _ _ hf _ ih =>
    have hfst : out.1 = s.pieces config owner f := by
      unfold inlineField at hf
      unfold pieces
      split at hf
      · next hnone =>
        cases hf
        rw [hnone]
      · next hsome =>
        dsimp only at hf
        split at hf
        · cases hf
        · cases hf
          rw [hsome]
    rw [List.flatMap_cons, List.flatMap_cons, ih, hfst]

end Schema

/-- A registry whose types are as tables define them. -/
def Registry.Raw (r : Registry) : Prop :=
  r.Sound Record.Raw (· = true)

namespace Edit

variable {config : Config} {r r' : Registry} {n : Nat}

theorem raw_linkSizedPairs (h : r.Raw) (hy : Yields linkSizedPairs r n r') : r'.Raw := by
  unfold linkSizedPairs at hy
  simp only [yields_bind, yields_schema, yields_update, yields_pure] at hy
  obtain ⟨_, _, ⟨rfl, rfl⟩, _, _, rfl, rfl, rfl⟩ := hy
  exact h.change rfl rfl (WireTables.raw_linkSizedPairs h.shaped)

section Loop

variable {I : Registry → Prop} (hstep : ∀ {r : Registry} {name found fields n}, I r →
  (r.lookup? name).bind TypeEntry.record? = some found →
    r.inlineFields config name found = .ok (fields, n) →
      I { r with toSchema := r.toSchema.modifyRecord name ({ · with fields }) })

include hstep

theorem inlineRecord_induction {name : String} (h : I r)
    (hy : Yields (inlineRecord config name) r n r') : I r' := by
  unfold inlineRecord at hy
  obtain ⟨_, _, hs, hy⟩ := yields_bind.mp hy
  obtain ⟨rfl, rfl⟩ := yields_schema.mp hs
  split at hy
  · obtain ⟨-, rfl⟩ := yields_pure.mp hy
    exact h
  · next found hfound =>
    obtain ⟨⟨fields, count⟩, r₁, hof, hupdates⟩ := yields_bind.mp hy
    obtain ⟨hinline, rfl⟩ := yields_ofExcept.mp hof
    dsimp only at hupdates
    split at hupdates
    · obtain ⟨_, _, hupdate, hend⟩ := yields_bind.mp hupdates
      obtain ⟨-, rfl⟩ := yields_pure.mp hend
      rw [yields_update.mp hupdate]
      exact hstep h hfound hinline
    · obtain ⟨-, rfl⟩ := yields_pure.mp hupdates
      exact h

theorem inlineRounds_induction {rounds total : Nat} (h : I r)
    (hy : Yields (inlineRounds config rounds total) r n r') : I r' := by
  induction rounds generalizing r total with
  | zero =>
    obtain ⟨-, rfl⟩ := yields_pure.mp hy
    exact h
  | succ rounds ih =>
    unfold inlineRounds at hy
    obtain ⟨changed, r₁, hround, hy⟩ := yields_bind.mp hy
    have h₁ : I r₁ := by
      unfold inlineRound at hround
      obtain ⟨_, _, hs, hround⟩ := yields_bind.mp hround
      obtain ⟨rfl, rfl⟩ := yields_schema.mp hs
      refine hround.foldlM h fun name _ count r n r' hr hy => ?_
      obtain ⟨m, r₂, hm, hy⟩ := yields_bind.mp hy
      obtain ⟨-, rfl⟩ := yields_pure.mp hy
      exact inlineRecord_induction hstep hr hm
    split at hy
    · obtain ⟨-, rfl⟩ := yields_pure.mp hy
      exact h₁
    · exact ih h₁ hy

/-- What inlining in one structure keeps, inlining to the end keeps. -/
theorem inlineWrappers_induction (h : I r) (hy : Yields (inlineWrappers config) r n r') : I r' := by
  unfold inlineWrappers at hy
  obtain ⟨_, _, hs, hy⟩ := yields_bind.mp hy
  obtain ⟨rfl, rfl⟩ := yields_schema.mp hs
  exact inlineRounds_induction hstep h hy

end Loop

theorem raw_inlineWrappers (h : r.Raw) (hy : Yields (inlineWrappers config) r n r') : r'.Raw := by
  refine inlineWrappers_induction (fun {r name found fields n} h hfound hinline => ?_) h hy
  obtain rfl := Schema.inlineFields_eq_ok hinline
  refine h.modifyRecord hfound
    (fun hr => ⟨hr.fields.inline Schema.inlines_pieces, hr.base, hr.tail⟩) fun hempty => ?_
  show found.fields.flatMap _ = []
  rw [hempty]
  rfl

end Edit

end WireTables
