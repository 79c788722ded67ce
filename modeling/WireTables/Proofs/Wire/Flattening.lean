import WireTables.Proofs.Normal.InlinedSize
import WireTables.Proofs.Wire.Spread

/-!
# Decoding after inlining

What is read for the pieces of a field of wrapper type is what is read for the wrapper itself, under
other names (`ReadsFields.pair`). So the fields of a structure are read from the same bytes before
and after inlining, and what is read afterwards is the flattened value (`Flattened.decoded_iff`).
From before to after this is an induction on the levels of nesting. On the way back a wrapper is put
together on the level of the structure that it is inlined in, so there the induction goes on over
the ranks of structures among which wrappers are inlined.
-/

namespace WireTables.Wire

section Pair

variable {s : Schema} {known : Known} {nested : String → Reader → Value → Reader → Prop}
  {all all' : List Field} {f g t d t' d' : Field} {op : Op} {isData : Bool}

/-- What is read for a field is also read for a field that travels in the same way. -/
theorem Reads.rename (hlike : Renamed f g)
    (hselects : f.marshal = .selector → selectsObject all' g = selectsObject all f)
    {locals locals₁ : Locals} (locals' : Locals) (hlocals : ∀ tag tag', f.tag? = some tag →
      g.tag? = some tag' → locals'.lookup tag' = locals.lookup tag)
    (hstep : Steps s known all f op isData) {r r' : Reader} {v : Option Value}
    (h : Reads s known nested locals f isData op r v locals₁ r') :
    ∃ op' n, Steps s known all' g op' isData ∧
      Reads s known nested locals' g isData op' r v (noted g.name n ++ locals') r' ∧
        locals₁ = noted f.name n ++ locals := by
  have self : ∀ type r v r', nested type r v r' → ∃ v', nested type r v' r' ∧ v = v' :=
    fun _ _ v _ h => ⟨v, h, rfl⟩
  obtain ⟨op', v', n, hstep', hread, hnoted, hv⟩ :=
    h.transfer self (.refl s known) (.refl s known f) hlike hselects hlocals hstep
  have hv : v = v' := by
    cases hv with
    | some hsame => rw [hsame.eq]
    | none => rfl
  exact ⟨op', n, hstep', hv ▸ hread, hnoted⟩

/-- A tag and what it describes are read under other names as they are under their own. -/
theorem ReadsFields.pair (ht : Renamed t t') (hd : Renamed d d')
    (hm : t.marshal = .count ∨ t.marshal = .selector) (hback : d.tag? = some t.name)
    (hback' : d'.tag? = some t'.name) (hselects : selectsObject all' t' = selectsObject all t)
    {locals locals₁ : Locals} (locals' : Locals) {r r' : Reader} {entries : List (String × Value)}
    (h : ReadsFields s known nested all locals [t, d] r entries locals₁ r') :
    ∃ vt vd n, entries = entry t.name vt ++ entry d.name vd ∧ locals₁ = (t.name, n) :: locals ∧
      ReadsFields s known nested all' locals' [t', d'] r (entry t'.name vt ++ entry d'.name vd)
        ((t'.name, n) :: locals') r' := by
  have tagless : t.tag? = none := by
    unfold Field.tag?
    rcases hm with hm | hm <;> rw [hm]
  have untagged : d.marshal ≠ .selector := by
    intro hm
    unfold Field.tag? at hback
    rw [hm] at hback
    cases hback
  obtain ⟨_, _, vt, _, _, _, htag, hread, hrest, rfl⟩ := cons_iff.mp h
  obtain ⟨_, _, vd, _, _, _, hdata, hread₂, hend, rfl⟩ := cons_iff.mp hrest
  cases hend
  obtain ⟨n, rfl⟩ := (noted_of_reads htag hread).1 hm
  obtain rfl := (noted_of_reads hdata hread₂).2 (by rw [hback]; rfl)
  obtain ⟨_, n', htag', hread', hnoted⟩ := hread.rename ht (fun _ => hselects)
    locals' (fun _ _ htag => by rw [tagless] at htag; cases htag) htag
  obtain rfl : n' = some n := by
    cases n' with
    | none => exact (List.cons_ne_self _ _ hnoted).elim
    | some m =>
      obtain ⟨hpair, -⟩ := List.cons.inj hnoted
      rw [(Prod.mk.inj hpair).2]
  obtain ⟨_, n', hdata', hread₂', hnoted⟩ := hread₂.rename hd (fun hm => (untagged hm).elim)
    ((t'.name, n) :: locals') (fun tag tag' htag htag' => by
      cases hback.symm.trans htag
      cases hback'.symm.trans htag'
      rw [List.lookup_cons_self, List.lookup_cons_self]) hdata
  obtain rfl : n' = none := by
    cases n' with
    | none => rfl
    | some m => exact (List.cons_ne_self _ _ hnoted.symm).elim
  refine ⟨vt, vd, n, by rw [List.append_nil], rfl, ?_⟩
  have hall := ReadsFields.cons htag' hread' (.cons hdata' hread₂' .nil)
  rwa [List.append_nil] at hall

/-- The entries of a structure are those of its fields in order. -/
theorem names_of_readsFields {fields : List Field} {locals locals' : Locals} {r r' : Reader}
    {entries : List (String × Value)}
    (h : ReadsFields s known nested all locals fields r entries locals' r') :
    (entries.map (·.1)).Sublist (fields.map (·.name)) := by
  induction h with
  | nil => exact List.nil_sublist _
  | @cons _ _ _ f _ _ _ _ _ _ v _ _ _ _ ih =>
    rw [List.map_append, List.map_cons, ← List.singleton_append]
    refine List.Sublist.append ?_ ih
    cases v with
    | none => exact List.nil_sublist _
    | some w => exact List.Sublist.refl _

/-- What was read is the value as it was put together. -/
theorem putFields_of_readsFields {fields : List Field} {locals locals' : Locals} {r r' : Reader}
    {entries : List (String × Value)}
    (h : ReadsFields s known nested all locals fields r entries locals' r')
    (hnames : (fields.map (·.name)).Nodup) : Value.putFields [] entries = entries :=
  putFields_of_nodup ((names_of_readsFields h).nodup hnames)

end Pair

/-- The same numbers are known under some names. -/
def AgreeOn (names : List String) (locals locals' : Locals) : Prop :=
  ∀ name ∈ names, locals'.lookup name = locals.lookup name

namespace AgreeOn

variable {names : List String} {locals locals' : Locals}

theorem append (h : AgreeOn names locals locals') (more : Locals) :
    AgreeOn names (more ++ locals) (more ++ locals') := by
  intro name hname
  rw [List.lookup_append, List.lookup_append, h name hname]

/-- A number under another name changes nothing. -/
theorem cons {name : String} (h : AgreeOn names locals locals') (hname : name ∉ names) (n : Int) :
    AgreeOn names locals ((name, n) :: locals') := by
  intro other hother
  have hne : other ≠ name := by
    rintro rfl
    exact hname hother
  rw [lookup_cons_ne hne, h other hother]

end AgreeOn

/-- What becomes of a schema when its wrappers are inlined, fields have different names afterwards,
and whatever is evaluated where a field is read has the same value as before. -/
structure Flattened (config : Config) (s s' : Schema) (known : Known) : Prop
    extends Schema.Flattens config s s' where
  distinct : ∀ t ∈ s'.types, ∀ x, t.record? = some x → (x.fields.map (·.name)).Nodup
  alike : Alike s s' known
  values : ∀ t ∈ s.types, ∀ x, t.record? = some x → ∀ f ∈ x.fields, SameValues s s' known f
  remembers : s.Remembers (· = known)
  remembers' : s'.Remembers (· = known)

namespace Flattened

variable {config : Config} {s s' : Schema} {known : Known} (h : Flattened config s s' known)
  {type : String} {t : TypeEntry} {x : Record} (hx : s.recordOf? type = some (t, x))

include h in
theorem exists_recordOf? {t' : TypeEntry} {x' : Record} (hx' : s'.recordOf? type = some (t', x')) :
    ∃ t x, s.recordOf? type = some (t, x) ∧ t.specName = t'.specName := by
  rw [h.recordOf?_eq] at hx'
  obtain ⟨⟨t, x⟩, hx, heq⟩ := Option.map_eq_some_iff.mp hx'
  cases heq
  exact ⟨t, x, hx, TypeEntry.specName_expand.symm⟩

section Fields

include h hx

theorem recordOf?_pieces : ∃ t' x', s'.recordOf? type = some (t', x') ∧
    t'.specName = t.specName ∧ x'.fields = x.fields.flatMap (s'.pieces config t.specName) := by
  refine ⟨_, _, by rw [h.recordOf?_eq, hx]; rfl, TypeEntry.specName_expand, rfl⟩

theorem distinct_pieces :
    ((x.fields.flatMap (s'.pieces config t.specName)).map (·.name)).Nodup := by
  obtain ⟨t', x', hx', -, hfields⟩ := h.recordOf?_pieces hx
  obtain ⟨ht, hr⟩ := Schema.mem_of_recordOf? hx'
  exact hfields ▸ h.distinct _ ht _ hr

theorem distinct_fields : (x.fields.map (·.name)).Nodup :=
  nodup_of_pieces (h.distinct_pieces hx)

theorem tagsFirst : TagsFirst [] [] x.fields :=
  (tabled_of_recordOf? h.tabled hx).fields.tags

/-- What a field is measured or chosen by is a field of the same structure. -/
theorem tag_mem {f : Field} (hf : f ∈ x.fields) {tag : String} (htag : f.tag? = some tag) :
    tag ∈ x.fields.map (·.name) := by
  obtain ⟨before, after, hsplit⟩ := List.append_of_mem hf
  have htags := h.tagsFirst hx
  rw [hsplit] at htags
  rw [hsplit, List.map_append]
  exact List.mem_append_left _ ((htags.mem htag List.not_mem_nil).resolve_left List.not_mem_nil)

theorem sameValues {f : Field} (hf : f ∈ x.fields) : SameValues s s' known f :=
  let ⟨ht, hr⟩ := Schema.mem_of_recordOf? hx
  h.values t ht x hr f hf

end Fields

/-- What is known of a field that is inlined. -/
theorem exists_wrapper {owner : String} {f tag data : Field}
    (hw : s'.wrapperOf? config owner f = some (tag, data)) : f.marshal = .plain ∧
      ∃ u y, objectName? s' f.typeName = some u.specName ∧
        s'.recordOf? u.specName = some (u, y) ∧ y.Wraps tag data := by
  obtain ⟨⟨hm, -⟩, u, y, hy, -, hwraps⟩ := Schema.wrapperOf?_eq_some.mp hw
  have ho : objectName? s' f.typeName = some u.specName := by
    unfold objectName?
    rw [hy]
    rfl
  exact ⟨hm, u, y, ho, (recordOf?_objectName ho).trans hy, hwraps⟩

include h in
theorem data_ne_tag {owner : String} {f tag data : Field}
    (hw : s'.wrapperOf? config owner f = some (tag, data)) : data.name ≠ tag.name := by
  obtain ⟨-, u, y, -, hy, hwraps⟩ := exists_wrapper hw
  obtain ⟨hu, hr⟩ := Schema.mem_of_recordOf? hy
  have hdistinct := h.distinct u hu y hr
  rw [hwraps.fields] at hdistinct
  exact fun heq => (List.nodup_cons.mp hdistinct).1 (by simp [heq])

section Parts

variable {f tag data : Field} (hf : f ∈ x.fields)
  (hw : s'.wrapperOf? config t.specName f = some (tag, data))
  {nested : String → Reader → Value → Reader → Prop} {locals locals₁ : Locals} {r r' : Reader}
  {entries : List (String × Value)}

include h hx hf hw

/-- The fields of a wrapper and its pieces travel in the same way. -/
theorem renamed_parts {tag' data' : Field}
    (hparts : Schema.inlineParts f tag data = [tag', data']) :
    Renamed tag tag' ∧ Renamed data data' := by
  obtain ⟨ht, hr⟩ := Schema.mem_of_recordOf? hx
  obtain ⟨-, u, y, -, -, hwraps⟩ := exists_wrapper hw
  have hdomain := h.domains t ht x hr f hf (by rw [hw]; rfl)
  cases hparts
  refine ⟨⟨rfl, rfl, rfl, rfl, ?_⟩, ⟨rfl, rfl, rfl, Domain.merge_of_isEmpty hdomain, ?_⟩⟩
  · rw [hwraps.partner]
    rfl
  · rw [hwraps.back]
    rfl

omit h hx hf in
/-- What was described by the tag of a wrapper is described by the tag that it comes with. -/
theorem tag?_part {tag' data' : Field} (hparts : Schema.inlineParts f tag data = [tag', data']) :
    data'.tag? = some tag'.name := by
  obtain ⟨-, u, y, -, -, hwraps⟩ := exists_wrapper hw
  cases hparts
  unfold Field.tag?
  rcases hwraps.marshal with ⟨-, hm⟩ | ⟨-, hm | hm⟩ <;> simp only [hm]

/-- A tag selects what it selects as a piece. -/
theorem selectsObject_parts {tag' data' : Field}
    (hparts : Schema.inlineParts f tag data = [tag', data']) :
    selectsObject (x.fields.flatMap (s'.pieces config t.specName)) tag' =
      selectsObject [tag, data] tag := by
  obtain ⟨-, u, y, -, -, hwraps⟩ := exists_wrapper hw
  cases hparts
  rw [selectsObject_inlined (h.distinct_pieces hx) hf (h.tagsFirst hx) hw rfl]
  have htag : (tag.marshal == .unionBody) = false := by
    rcases hwraps.tag_marshal with hm | hm <;> rw [hm] <;> rfl
  simp [selectsObject, htag, hwraps.back]

/-- What is read for a wrapper is read where it is inlined, and spread. -/
theorem reads_parts (locals' : Locals)
    (hread : ReadsFields s' known nested [tag, data] [] [tag, data] r entries locals₁ r') :
    ∃ n, ReadsFields s' known nested (x.fields.flatMap (s'.pieces config t.specName)) locals'
        (Schema.inlineParts f tag data) r
        (spread (some (tag, data)) f (.struct (Value.putFields [] entries)))
        ((Schema.inlinedTagName f tag, n) :: locals') r' := by
  obtain ⟨htag, hdata⟩ := h.renamed_parts hx hf hw rfl
  obtain ⟨-, u, y, -, hy, hwraps⟩ := exists_wrapper hw
  obtain ⟨vt, vd, n, rfl, -, hparts⟩ := hread.pair htag hdata hwraps.tag_marshal hwraps.tag?_eq
    (tag?_part hw rfl) (h.selectsObject_parts hx hf hw rfl) locals'
  rw [spread_pair (h.data_ne_tag hw)]
  exact ⟨n, hparts⟩

/-- What is read for the pieces of a wrapper is read for the wrapper, and spread. -/
theorem reads_wrapper {locals : Locals}
    (hread : ReadsFields s' known nested (x.fields.flatMap (s'.pieces config t.specName)) locals
      (Schema.inlineParts f tag data) r entries locals₁ r') :
    ∃ es locals₂ n, ReadsFields s' known nested [tag, data] [] [tag, data] r es locals₂ r' ∧
      entries = spread (some (tag, data)) f (.struct (Value.putFields [] es)) ∧
        locals₁ = (Schema.inlinedTagName f tag, n) :: locals := by
  obtain ⟨htag, hdata⟩ := h.renamed_parts hx hf hw rfl
  obtain ⟨-, u, y, -, hy, hwraps⟩ := exists_wrapper hw
  obtain ⟨vt, vd, n, rfl, rfl, hparts⟩ := hread.pair htag.symm hdata.symm
    (htag.marshal ▸ hwraps.tag_marshal) (tag?_part hw rfl) hwraps.tag?_eq
    (h.selectsObject_parts hx hf hw rfl).symm []
  refine ⟨_, _, n, hparts, ?_, rfl⟩
  rw [spread_pair (h.data_ne_tag hw)]

end Parts

section Fields

variable {nested nested' : String → Reader → Value → Reader → Prop}
  {locals locals' locals₁ : Locals} {r r' : Reader} {f : Field} {op : Op} {isData : Bool}
  {v : Option Value} {entries : List (String × Value)}

include h hx

/-- What is read for a field is read for its pieces afterwards. -/
theorem reads_pieces (hnested : ∀ type r v r', nested type r v r' →
      ∃ v', Decoded s' known type r v' r' ∧ Flat s s' config type v v')
    (hf : f ∈ x.fields) (hagree : AgreeOn (x.fields.map (·.name)) locals locals')
    (hstep : Steps s known x.fields f op isData)
    (hread : Reads s known nested locals f isData op r v locals₁ r') :
    ∃ locals₁', ReadsFields s' known (Decoded s' known)
        (x.fields.flatMap (s'.pieces config t.specName)) locals' (s'.pieces config t.specName f) r
        (flattenEntries s s' config t.specName x.fields (entry f.name v)) locals₁' r' ∧
      AgreeOn (x.fields.map (·.name)) locals₁ locals₁' := by
  have hnames := h.distinct_fields hx
  cases hw : s'.wrapperOf? config t.specName f with
  | none =>
    obtain ⟨op', v', n, hstep', hread', rfl, hv⟩ := hread.transfer hnested h.alike
      (h.sameValues hx hf) (.refl f) (fun _ => selectsObject_kept (h.distinct_pieces hx) hf)
      (fun tag tag' htag htag' => by
        cases htag.symm.trans htag'
        exact hagree tag (h.tag_mem hx hf htag)) hstep
    have hv : v' = v.map (flatten s s' config f.typeName) := by
      cases hv with
      | none => rfl
      | some hsame =>
        rw [Option.map_some, eq_flatten_of_corresponds
          (fun _ hop => objectName?_of_steps hstep hop) hsame]
    rw [flattenEntries_kept hnames hf hw, ← hv, Schema.pieces_of_kept hw]
    exact ⟨_, List.append_nil (entry f.name v') ▸ .cons hstep' hread' .nil, hagree.append _⟩
  | some parts =>
    obtain ⟨tag, data⟩ := parts
    obtain ⟨hm, u, y, ho, hy, hwraps⟩ := exists_wrapper hw
    have ho : objectName? s f.typeName = some u.specName := (h.alike.object _).symm.trans ho
    have hobject : op = .object u.specName := by
      cases hstep with
      | scalar _ hnone => cases hnone.symm.trans ho
      | object _ hsome =>
        cases hsome.symm.trans ho
        rfl
      | constant hm' | count hm' | selector hm' | union hm' | selected hm' | counted hm'
      | fixed hm' | rest hm' => cases hm.symm.trans hm'
    subst hobject
    cases hread with
    | object hread =>
      obtain ⟨v', hdecoded, hflat⟩ := hnested _ _ _ _ hread
      obtain ⟨-, _, _, es, locals₂, hy', hfields, rfl⟩ :=
        (decoded_iff h.remembers' h.tabled').mp hdecoded
      cases hy.symm.trans hy'
      rw [hwraps.fields] at hfields
      obtain ⟨n, hparts⟩ := h.reads_parts hx hf hw locals' hfields
      rw [flattenEntries_entry hnames hf, hw, Schema.pieces_of_wrapper hw]
      refine ⟨_, ?_, hagree.cons (inlinedTagName_not_mem (h.distinct_pieces hx) hf hw) n⟩
      simpa [← hflat.eq_flatten ho] using hparts

/-- What is read for the pieces of a field was read for the field before. -/
theorem reads_of_pieces (hnested : ∀ type r v' r', nested type r v' r' →
      ∃ v, Decoded s known type r v r' ∧ Flat s s' config type v v')
    (hwrapper : ∀ tag data, s'.wrapperOf? config t.specName f = some (tag, data) →
      ∀ object, objectName? s f.typeName = some object → ∀ es locals r',
        ReadsFields s' known nested [tag, data] [] [tag, data] r es locals r' →
          ∃ v, Decoded s known object r v r' ∧
            Flat s s' config object v (.struct (Value.putFields [] es)))
    (hf : f ∈ x.fields) (hagree : AgreeOn (x.fields.map (·.name)) locals locals')
    {locals₁' : Locals} (hread : ReadsFields s' known nested
      (x.fields.flatMap (s'.pieces config t.specName)) locals' (s'.pieces config t.specName f) r
      entries locals₁' r') :
    ∃ op isData v locals₁, Steps s known x.fields f op isData ∧
      Reads s known (Decoded s known) locals f isData op r v locals₁ r' ∧
        entries = flattenEntries s s' config t.specName x.fields (entry f.name v) ∧
          AgreeOn (x.fields.map (·.name)) locals₁ locals₁' := by
  have hnames := h.distinct_fields hx
  cases hw : s'.wrapperOf? config t.specName f with
  | none =>
    rw [Schema.pieces_of_kept hw] at hread
    obtain ⟨op', isData, v', _, _, _, hstep', hread', hend, rfl⟩ := ReadsFields.cons_iff.mp hread
    cases hend
    obtain ⟨op, v, n, hstep, hfield, rfl, hv⟩ := hread'.transfer hnested h.alike.symm
      (h.sameValues hx hf).symm (.refl f)
      (fun _ => (selectsObject_kept (h.distinct_pieces hx) hf).symm)
      (fun tag tag' htag htag' => by
        cases htag.symm.trans htag'
        exact (hagree tag (h.tag_mem hx hf htag)).symm) hstep'
    refine ⟨op, isData, v, _, hstep, hfield, ?_, hagree.append _⟩
    rw [flattenEntries_kept hnames hf hw, List.append_nil]
    congr 1
    cases hv with
    | none => rfl
    | some hsame =>
      rw [Option.map_some, eq_flatten_of_corresponds (fun _ hop =>
        (h.alike.object _).symm.trans (objectName?_of_steps hstep' hop)) hsame.flip]
  | some parts =>
    obtain ⟨tag, data⟩ := parts
    obtain ⟨hm, u, y, ho, hy, hwraps⟩ := exists_wrapper hw
    have ho : objectName? s f.typeName = some u.specName := (h.alike.object _).symm.trans ho
    rw [Schema.pieces_of_wrapper hw] at hread
    obtain ⟨es, locals₂, n, hfields, rfl, rfl⟩ := h.reads_wrapper hx hf hw hread
    obtain ⟨v, hdecoded, hflat⟩ := hwrapper tag data hw _ ho es locals₂ _ hfields
    refine ⟨_, _, some v, locals, .object hm ho, .object hdecoded, ?_,
      hagree.cons (inlinedTagName_not_mem (h.distinct_pieces hx) hf hw) n⟩
    rw [flattenEntries_entry hnames hf, hw]
    simp [← hflat.eq_flatten ho]

/-- All fields of a structure are read in their pieces afterwards. -/
theorem readsFields_pieces (hnested : ∀ type r v r', nested type r v r' →
      ∃ v', Decoded s' known type r v' r' ∧ Flat s s' config type v v')
    {fields : List Field} (hfields : ∀ f ∈ fields, f ∈ x.fields)
    (hagree : AgreeOn (x.fields.map (·.name)) locals locals')
    (hread : ReadsFields s known nested x.fields locals fields r entries locals₁ r') :
    ∃ locals₁', ReadsFields s' known (Decoded s' known)
      (x.fields.flatMap (s'.pieces config t.specName)) locals'
      (fields.flatMap (s'.pieces config t.specName)) r
      (flattenEntries s s' config t.specName x.fields entries) locals₁' r' := by
  induction hread generalizing locals' with
  | nil => exact ⟨locals', .nil⟩
  | cons hstep hread _ ih =>
    obtain ⟨locals₂, hfirst, hagree⟩ :=
      h.reads_pieces hx hnested (hfields _ List.mem_cons_self) hagree hstep hread
    obtain ⟨locals₁', hrest⟩ := ih (fun g hg => hfields g (List.mem_cons_of_mem _ hg)) hagree
    rw [List.flatMap_cons, flattenEntries_append]
    exact ⟨locals₁', ReadsFields.append_iff.mpr ⟨_, _, locals₂, _, hfirst, hrest, rfl⟩⟩

/-- All fields of a structure were read before if their pieces are read. -/
theorem readsFields_of_pieces (hnested : ∀ type r v' r', nested type r v' r' →
      ∃ v, Decoded s known type r v r' ∧ Flat s s' config type v v')
    (hwrapper : ∀ f ∈ x.fields, ∀ tag data,
      s'.wrapperOf? config t.specName f = some (tag, data) →
        ∀ object, objectName? s f.typeName = some object → ∀ r es locals r', r.known = known →
          ReadsFields s' known nested [tag, data] [] [tag, data] r es locals r' →
            ∃ v, Decoded s known object r v r' ∧
              Flat s s' config object v (.struct (Value.putFields [] es)))
    {fields : List Field} (hfields : ∀ f ∈ fields, f ∈ x.fields) (hr : r.known = known)
    (hagree : AgreeOn (x.fields.map (·.name)) locals locals') {locals₁' : Locals}
    (hread : ReadsFields s' known nested (x.fields.flatMap (s'.pieces config t.specName)) locals'
      (fields.flatMap (s'.pieces config t.specName)) r entries locals₁' r') :
    ∃ es locals₁, ReadsFields s known (Decoded s known) x.fields locals fields r es locals₁ r' ∧
      entries = flattenEntries s s' config t.specName x.fields es := by
  induction fields generalizing locals locals' r entries with
  | nil =>
    cases hread
    exact ⟨[], locals, .nil, rfl⟩
  | cons f fields ih =>
    rw [List.flatMap_cons] at hread
    obtain ⟨_, _, locals₂, r₁, hfirst, hrest, rfl⟩ := ReadsFields.append_iff.mp hread
    have hf := hfields f List.mem_cons_self
    obtain ⟨op, isData, v, _, hstep, hfield, rfl, hagree⟩ := h.reads_of_pieces hx hnested
      (fun tag data hw object ho es locals r' =>
        hwrapper f hf tag data hw object ho r es locals r' hr)
      hf hagree hfirst
    obtain ⟨taken, ht⟩ := takes_of_reads (fun _ _ _ _ => takes_of_decoded h.remembers) hfield
    obtain ⟨es, locals₁, hothers, rfl⟩ := ih (fun g hg => hfields g (List.mem_cons_of_mem _ hg))
      (ht.known.trans hr) hagree hrest
    exact ⟨_, locals₁, .cons hstep hfield hothers, (flattenEntries_append _ _).symm⟩

end Fields

include h hx in
/-- A wrapper ranks below the structures that it is inlined in. -/
theorem exists_lower {rank : String → Nat} (hrank : ∀ t ∈ s.types, ∀ x, t.record? = some x →
      ∀ f ∈ x.fields, (s'.wrapperOf? config t.specName f).isSome = true →
        ∃ u y, s'.recordOf? f.typeName = some (u, y) ∧ rank u.specName < rank t.specName)
    {f tag data : Field} (hf : f ∈ x.fields)
    (hw : s'.wrapperOf? config t.specName f = some (tag, data)) {object : String}
    (ho : objectName? s f.typeName = some object) : ∃ u y u₀ y₀,
      s'.recordOf? object = some (u, y) ∧ y.fields = [tag, data] ∧
        s.recordOf? object = some (u₀, y₀) ∧ rank u₀.specName < rank t.specName := by
  obtain ⟨-, u, y, ho', hy, hwraps⟩ := exists_wrapper hw
  cases ho.symm.trans ((h.alike.object _).symm.trans ho')
  obtain ⟨ht, hr⟩ := Schema.mem_of_recordOf? hx
  obtain ⟨u', y', hy', hlt⟩ := hrank t ht x hr f hf (by rw [hw]; rfl)
  obtain ⟨u₀, y₀, hy₀, hname⟩ := h.exists_recordOf? hy
  have hsame : u.specName = u'.specName := by
    unfold objectName? at ho'
    rw [hy'] at ho'
    exact (Option.some.inj ho').symm
  exact ⟨u, y, u₀, y₀, hy, hwraps.fields, hy₀, by rwa [hname, hsame]⟩

include h

/-- A structure that is read is read afterwards as well, as the flattened value. -/
theorem decoded_of_decodes {levels : Nat} {r r' : Reader} {v : Value}
    (hread : Decodes s known levels type r v r') :
    ∃ v', Decoded s' known type r v' r' ∧ Flat s s' config type v v' := by
  induction levels generalizing type r v r' with
  | zero => exact (not_yields_throw hread.2).elim
  | succ levels ih =>
    obtain ⟨hr, t, x, entries, locals, hx, hfields, rfl⟩ :=
      (decodes_fields h.remembers h.tabled).mp hread
    obtain ⟨t', x', hx', -, hpieces⟩ := h.recordOf?_pieces hx
    obtain ⟨locals', hfields'⟩ := h.readsFields_pieces hx (fun _ _ _ _ => ih) (fun _ hf => hf)
      (fun _ _ => rfl) hfields
    rw [putFields_of_readsFields hfields (h.distinct_fields hx)]
    refine ⟨_, (decoded_iff h.remembers' h.tabled').mpr
      ⟨hr, t', x', _, locals', hx', by rwa [hpieces], rfl⟩, ⟨entries, rfl⟩, ?_⟩
    rw [putFields_of_readsFields hfields' (h.distinct_pieces hx), flatten_struct hx]

/-- A structure that is read afterwards was read before. -/
theorem decoded_of_decodes' {levels : Nat} {r r' : Reader} {v' : Value}
    (hread : Decodes s' known levels type r v' r') :
    ∃ v, Decoded s known type r v r' ∧ Flat s s' config type v v' := by
  obtain ⟨rank, hrank⟩ := h.ranked
  induction levels generalizing type r v' r' with
  | zero => exact (not_yields_throw hread.2).elim
  | succ levels ih =>
    -- Wrappers are put together on this level, so they need the ranks to go down.
    suffices hall : ∀ n type t x r v' r', s.recordOf? type = some (t, x) → rank t.specName = n →
        Decodes s' known (levels + 1) type r v' r' →
          ∃ v, Decoded s known type r v r' ∧ Flat s s' config type v v' by
      obtain ⟨-, t', x', -, -, hx', -⟩ := (decodes_fields h.remembers' h.tabled').mp hread
      obtain ⟨t, x, hx, -⟩ := h.exists_recordOf? hx'
      exact hall _ type t x r v' r' hx rfl hread
    clear hread
    intro n
    induction n using Nat.strong_induction_on with
    | _ n ihn =>
      rintro type t x r v' r' hx rfl hread
      obtain ⟨t', x', hx', -, hpieces⟩ := h.recordOf?_pieces hx
      obtain ⟨hr, _, _, entries, locals', hx'', hfields', rfl⟩ :=
        (decodes_fields h.remembers' h.tabled').mp hread
      cases hx'.symm.trans hx''
      rw [hpieces] at hfields'
      obtain ⟨es, locals, hfields, rfl⟩ := h.readsFields_of_pieces hx (fun _ _ _ _ => ih)
        (fun f hf tag data hw object ho r es locals r' hr hread => by
          obtain ⟨u, y, u₀, y₀, hy, hfields, hy₀, hlt⟩ := h.exists_lower hx hrank hf hw ho
          exact ihn _ hlt object u₀ y₀ r _ r' hy₀ rfl ((decodes_fields h.remembers' h.tabled').mpr
            ⟨hr, u, y, es, locals, hy, hfields ▸ hread, rfl⟩))
        (fun _ hf => hf) hr (fun _ _ => rfl) hfields'
      rw [putFields_of_readsFields hfields' (h.distinct_pieces hx)]
      refine ⟨_, (decoded_iff h.remembers h.tabled).mpr ⟨hr, t, x, es, _, hx, hfields, rfl⟩,
        ⟨_, rfl⟩, ?_⟩
      rw [putFields_of_readsFields hfields (h.distinct_fields hx), flatten_struct hx]

/-- Inlining keeps what bytes are read as, but for the flattening. -/
theorem decoded_iff {r r' : Reader} {v' : Value} : Decoded s' known type r v' r' ↔
    ∃ v, Decoded s known type r v r' ∧ v' = flatten s s' config type v := by
  constructor
  · rintro ⟨levels, hread⟩
    obtain ⟨v, hread, -, hv⟩ := h.decoded_of_decodes' hread
    exact ⟨v, hread, hv⟩
  · rintro ⟨v, ⟨levels, hread⟩, rfl⟩
    obtain ⟨v', hread, -, rfl⟩ := h.decoded_of_decodes hread
    exact hread

end Flattened

end WireTables.Wire
