import WireTables.Normal.Basic
import WireTables.Proofs.Normal.ImplicitLength
import WireTables.Proofs.Schema.Resolve

/-!
# Absent tails

A structure whose tail may be absent has no union-typed field any more, and its selector is plain.
Unions are taken out of what is put out only when no field is of them (`Schema.UnionsPut`).
-/

namespace WireTables

/-- A structure of a normalized registry. -/
structure Record.Normal (r : Record) : Prop where
  fields : Ordered r.fields
  derived : r.base.isSome = true → r.fields = [] ∧ r.nullTail = none
  tailUnion : r.nullTail.isSome = true → ∀ f ∈ r.fields, Once r.fields f.name →
    f.marshal ≠ .unionBody
  tailSelector : ∀ tail, r.nullTail = some tail → ∀ f ∈ r.fields, Once r.fields f.name →
    f.name = tail.selector → f.marshal = .plain

theorem Record.Flat.normal {r : Record} (h : r.Flat) : r.Normal := by
  refine ⟨h.fields, fun hb => ?_, fun ht => ?_, fun t ht => ?_⟩
  · rw [h.base] at hb
    cases hb
  · rw [h.tail] at ht
    cases ht
  · rw [h.tail] at ht
    cases ht

section MakePlain

open Schema

variable {name : String} {typeName : Option String} {fields : List Field} {tail : List TailField}

theorem makePlain_eq : makePlain name typeName fields = Extraction.changeFirst name (fun f =>
    { f with marshal := .plain, typeName := typeName.getD f.typeName, partner := none }) fields :=
  modify_findIdx?

theorem demoted_makePlain : List.Forall₂ Demoted fields (makePlain name typeName fields) := by
  rw [makePlain_eq]
  exact forall₂_changeFirst Demoted.refl fun _ => ⟨rfl, .inr ⟨nofun, nofun⟩⟩

theorem tagKept_makePlain : List.Forall₂ TagKept fields (makePlain name typeName fields) := by
  rw [makePlain_eq]
  exact forall₂_changeFirst TagKept.refl fun _ => ⟨rfl, .inl rfl⟩

theorem ordered_makePlain (h : Ordered fields) : Ordered (makePlain name typeName fields) :=
  h.demoted demoted_makePlain tagKept_makePlain

theorem mem_makePlain {f : Field} (h : f ∈ makePlain name typeName fields) :
    f ∈ fields ∨ f.marshal = .plain := by
  rw [makePlain_eq] at h
  rcases mem_changeFirst h with h | ⟨g, -, -, rfl⟩
  · exact .inl h
  · exact .inr rfl

/-- The only field of the name is plain afterwards. -/
theorem plain_of_mem_makePlain {f : Field} (h : f ∈ makePlain name typeName fields)
    (hn : f.name = name) (honce : Once fields name) : f.marshal = .plain := by
  rw [makePlain_eq] at h
  obtain ⟨g, rfl⟩ := exists_of_mem_changeFirst (by exact fun _ => rfl) h hn honce
  rfl

variable (tail) in
/-- The fields with those of the tail made plain. -/
def withPlain (fields : List Field) : List Field :=
  tail.foldl (fun fields t => makePlain t.field (some t.scalar) fields) fields

theorem ordered_withPlain (h : Ordered fields) : Ordered (withPlain tail fields) := by
  unfold withPlain
  induction tail generalizing fields with
  | nil => exact h
  | cons t tail ih => exact ih (ordered_makePlain h)

theorem names_withPlain : (withPlain tail fields).map (·.name) = fields.map (·.name) := by
  unfold withPlain
  induction tail generalizing fields with
  | nil => rfl
  | cons t tail ih => exact ih.trans (names_of_demoted demoted_makePlain)

theorem mem_withPlain {f : Field} (h : f ∈ withPlain tail fields) :
    f ∈ fields ∨ f.marshal = .plain := by
  unfold withPlain at h
  induction tail generalizing fields with
  | nil => exact .inl h
  | cons t tail ih =>
    rcases ih h with h | h
    · exact mem_makePlain h
    · exact .inr h

/-- A field that is in the tail is plain afterwards. -/
theorem plain_of_mem_withPlain {f : Field} (h : f ∈ withPlain tail fields)
    (honce : Once fields f.name) (hf : f.name ∈ tail.map (·.field)) : f.marshal = .plain := by
  induction tail generalizing fields with
  | nil => cases hf
  | cons t tail ih =>
    have honce' : Once (makePlain t.field (some t.scalar) fields) f.name :=
      (Once.congr (names_of_demoted demoted_makePlain)).mpr honce
    by_cases hlater : f.name ∈ tail.map (·.field)
    · exact ih h honce' hlater
    · have hnow : f.name = t.field := (List.mem_cons.mp hf).resolve_right hlater
      have hmem : f ∈ makePlain t.field (some t.scalar) fields ∨ f.marshal = .plain :=
        mem_withPlain h
      rcases hmem with h | h
      · exact plain_of_mem_makePlain h hnow (hnow ▸ honce)
      · exact h

end MakePlain

/-- The tail consists of the union-typed fields, each of a union that is there. -/
theorem tailFields_eq_ok {s : Schema} {owner : String} {r : Record} {tail : List Schema.TailField}
    (h : s.tailFields owner r = .ok tail) :
    tail.map (·.field) = (r.fields.filter (·.marshal == .unionBody)).map (·.name) ∧
      ∀ t ∈ tail, ∃ entry ∈ s.types, entry.specName = t.union ∧ entry.union?.isSome = true := by
  unfold Schema.tailFields at h
  generalize r.fields.filter (·.marshal == .unionBody) = bodies at h
  have heach := mapM_eq_ok.mp h
  clear h
  induction heach with
  | nil => exact ⟨rfl, fun _ ht => (List.not_mem_nil ht).elim⟩
  | @cons f t _ _ hf _ ih =>
    obtain ⟨entry, hrequire, hf⟩ := bind_eq_ok.mp hf
    have hentry : s.lookup? f.typeName = some entry := by
      unfold Schema.require at hrequire
      split at hrequire
      · next h =>
        cases hrequire
        exact h
      · cases hrequire
    split at hf
    · cases hf
    · next u hu =>
      obtain ⟨scalar, -, hf⟩ := bind_eq_ok.mp hf
      cases hf
      obtain ⟨hmem, hname⟩ := Schema.mem_of_lookup? hentry
      refine ⟨by rw [List.map_cons, List.map_cons, ih.1], fun t ht => ?_⟩
      rcases List.mem_cons.mp ht with rfl | ht
      · exact ⟨entry, hmem, hname, by rw [hu]; rfl⟩
      · exact ih.2 t ht

/-- Members of a union are only encoded as an elementary type. -/
theorem scalar?_of_commonScalar {s : Schema} {union name : String} {found : Option String}
    {members : List UnionMember} (h : s.commonScalar union found members = .ok name)
    (hfound : ∀ other, found = some other → (s.scalar? other).isSome = true) :
    (s.scalar? name).isSome = true := by
  induction members generalizing found with
  | nil =>
    cases found with
    | none => cases h
    | some other =>
      cases h
      exact hfound _ rfl
  | cons m rest ih =>
    have hrest : ∀ found', s.commonScalar union found' rest = .ok name →
        (∀ other, found' = some other → (s.scalar? other).isSome = true) →
          (s.scalar? name).isSome = true := fun _ => ih
    rw [Schema.commonScalar] at h
    split at h
    · cases h
    · next t c hscalar =>
      split at h
      · split at h
        · exact hrest _ h hfound
        · cases h
      · refine hrest _ h ?_
        rintro _ ⟨⟩
        exact Schema.scalar?_of_scalarOf? hscalar ▸ rfl

/-- The tail is one of union-typed fields, which become elementary. -/
theorem exists_of_mem_tailFields {s : Schema} {owner : String} {r : Record}
    {tail : List Schema.TailField} (h : s.tailFields owner r = .ok tail) {t : Schema.TailField}
    (ht : t ∈ tail) : ∃ f ∈ r.fields, f.marshal = .unionBody ∧ t.selector = f.partner ∧
      (s.scalar? t.scalar).isSome = true := by
  obtain ⟨f, hf, hof⟩ := exists_of_mem_mapM h ht
  obtain ⟨hf, hm⟩ := List.mem_filter.mp hf
  obtain ⟨entry, -, hof⟩ := bind_eq_ok.mp hof
  split at hof
  · cases hof
  · obtain ⟨scalar, hscalar, hof⟩ := bind_eq_ok.mp hof
    cases hof
    exact ⟨f, hf, by simpa using hm, rfl, scalar?_of_commonScalar hscalar nofun⟩

theorem Record.Normal.withNullTail {s : Schema} {owner selector nullValue : String} {r : Record}
    {tail : List Schema.TailField} (h : r.Normal) (ht : s.tailFields owner r = .ok tail)
    (hbase : r.base = none) : (Schema.withNullTail tail selector nullValue r).Normal := by
  have hnames : (Schema.makePlain selector none (withPlain tail r.fields)).map (·.name) =
      r.fields.map (·.name) :=
    (names_of_demoted demoted_makePlain).trans names_withPlain
  refine ⟨ordered_makePlain (ordered_withPlain h.fields), fun hb => ?_, fun _ f hf honce => ?_, ?_⟩
  · have hb : r.base.isSome = true := hb
    rw [hbase] at hb
    cases hb
  · have honce : Once r.fields f.name := (Once.congr hnames).mp honce
    rcases mem_makePlain hf with hf | hplain
    · intro hm
      have hbody : f ∈ r.fields := (mem_withPlain hf).resolve_right fun hp => by
        rw [hm] at hp
        cases hp
      have hmem : f.name ∈ tail.map (·.field) := by
        rw [(tailFields_eq_ok ht).1]
        exact List.mem_map_of_mem (List.mem_filter.mpr ⟨hbody, by rw [hm]; rfl⟩)
      have hplain := plain_of_mem_withPlain hf honce hmem
      rw [hm] at hplain
      cases hplain
    · rw [hplain]
      exact nofun
  · rintro _ ⟨⟩ f hf honce hname
    have honce : Once r.fields f.name := (Once.congr hnames).mp honce
    have hname : f.name = selector := hname
    refine plain_of_mem_makePlain hf hname ((Once.congr names_withPlain).mpr ?_)
    exact hname ▸ honce

namespace Schema

/-- Every union is put out unless no field is of it. -/
def UnionsPut (s : Schema) : Prop :=
  ∀ t ∈ s.types, t.union?.isSome = true →
    t.implemented = true ∨ ∀ u ∈ s.types, ∀ r, u.record? = some r → ∀ f ∈ r.fields,
      f.typeName ≠ t.specName

/-- The names of the unions. -/
def unionNames (s : Schema) : List String :=
  (s.types.filter (·.union?.isSome)).map (·.specName)

end Schema

/-- A type under the same name that has no fields but those it had; it is a union only if it was
one, and put out as before then. -/
structure TypeEntry.Within (t t' : TypeEntry) : Prop where
  name : t'.specName = t.specName
  union : t'.union?.isSome = true → t.union?.isSome = true ∧ t'.implemented = t.implemented
  fields : ∀ r', t'.record? = some r' →
    r'.fields = [] ∨ ∃ r, t.record? = some r ∧ r'.fields = r.fields

theorem TypeEntry.union?_mapRecord (f : Record → Record) (t : TypeEntry) :
    (t.mapRecord f).union?.isSome = t.union?.isSome := by
  obtain ⟨_, _, _, _, _, kind⟩ := t
  cases kind <;> rfl

theorem TypeEntry.Within.refl (t : TypeEntry) : t.Within t :=
  ⟨rfl, fun h => ⟨h, rfl⟩, fun r hr => .inr ⟨r, hr, rfl⟩⟩

namespace Schema

variable {s s' : Schema}

/-- Types that are no more than they were keep unions put out, and so do new structures without
fields. -/
theorem UnionsPut.of_within (h : s.UnionsPut) (hs : ∀ t' ∈ s'.types,
    (∃ t ∈ s.types, t.Within t') ∨ ∃ r, t'.kind = .record r ∧ r.fields = []) : s'.UnionsPut := by
  intro t' ht' hunion
  rcases hs t' ht' with ⟨t, ht, hw⟩ | ⟨r, hkind, -⟩
  · obtain ⟨hwas, himplemented⟩ := hw.union hunion
    rcases h t ht hwas with hput | hunused
    · exact .inl (himplemented.trans hput)
    · refine .inr fun u' hu' r' hr' f hf => ?_
      rcases hs u' hu' with ⟨u, hu, hw'⟩ | ⟨r, hkind, hnone⟩
      · rcases hw'.fields r' hr' with hnone | ⟨r, hr, hsame⟩
        · rw [hnone] at hf
          cases hf
        · rw [hw.name]
          exact hunused u hu r hr f (hsame ▸ hf)
      · unfold TypeEntry.record? at hr'
        rw [hkind] at hr'
        cases hr'
        rw [hnone] at hf
        cases hf
  · unfold TypeEntry.union? at hunion
    rw [hkind] at hunion
    cases hunion

/-- Changing a type that stays a union or stays none leaves the names of unions as they are. -/
theorem unionNames_modifyType {name : String} {f : TypeEntry → TypeEntry}
    (hname : ∀ t, (f t).specName = t.specName)
    (hunion : ∀ t, (f t).union?.isSome = t.union?.isSome) :
    (s.modifyType name f).unionNames = s.unionNames := by
  unfold unionNames modifyType
  rw [List.filter_map, List.map_map]
  have hfilter : ((·.union?.isSome) ∘ fun t : TypeEntry =>
      if t.specName == name then f t else t) = (·.union?.isSome) := by
    funext t
    show (if t.specName == name then f t else t).union?.isSome = _
    split
    · exact hunion t
    · rfl
  rw [hfilter]
  refine List.map_congr_left fun t _ => ?_
  show (if t.specName == name then f t else t).specName = _
  split
  · exact hname t
  · rfl

theorem exists_of_mem_unionNames {name : String} (h : name ∈ s.unionNames) :
    ∃ t ∈ s.types, t.specName = name ∧ t.union?.isSome = true := by
  obtain ⟨t, ht, hname⟩ := List.mem_map.mp h
  obtain ⟨ht, hunion⟩ := List.mem_filter.mp ht
  exact ⟨t, ht, hname, hunion⟩

/-- A union that no field is of is taken out. -/
theorem UnionsPut.drop {union : String} (h : s.UnionsPut) (hunused : s.isFieldType union = false) :
    (s.modifyType union ({ · with implemented := false })).UnionsPut := by
  have unchanged : ∀ t' ∈ (s.modifyType union ({ · with implemented := false })).types,
      ∃ t ∈ s.types, t'.specName = t.specName ∧ t'.kind = t.kind ∧
        (t.specName ≠ union → t'.implemented = t.implemented) := by
    intro t' ht'
    obtain ⟨t, ht, rfl⟩ := List.mem_map.mp ht'
    refine ⟨t, ht, ?_⟩
    split
    · next hn => exact ⟨rfl, rfl, fun hne => (hne (by simpa using hn)).elim⟩
    · exact ⟨rfl, rfl, fun _ => rfl⟩
  have record : ∀ {t t' : TypeEntry}, t'.kind = t.kind → t'.record? = t.record? := by
    intro t t' hkind
    unfold TypeEntry.record?
    rw [hkind]
  intro t' ht' hunion
  obtain ⟨t, ht, hname, hkind, hkept⟩ := unchanged t' ht'
  have fields : (∀ u ∈ s.types, ∀ r, u.record? = some r → ∀ f ∈ r.fields, f.typeName ≠ t.specName) →
      ∀ u' ∈ (s.modifyType union ({ · with implemented := false })).types, ∀ r,
        u'.record? = some r → ∀ f ∈ r.fields, f.typeName ≠ t'.specName := by
    intro hall u' hu' r hr f hf
    obtain ⟨u, hu, -, hukind, -⟩ := unchanged u' hu'
    rw [hname]
    exact hall u hu r (record hukind ▸ hr) f hf
  by_cases hn : t.specName = union
  · refine .inr (fields fun u hu r hr f hf heq => ?_)
    unfold isFieldType at hunused
    have := List.any_eq_false.mp hunused u hu
    rw [hr] at this
    exact this (List.any_eq_true.mpr ⟨f, hf, by rw [heq, hn]; exact beq_self_eq_true _⟩)
  · have hwas : t.union?.isSome = true := by
      unfold TypeEntry.union? at hunion ⊢
      rw [← hkind]
      exact hunion
    exact (h t ht hwas).imp (fun hput => (hkept hn).trans hput) fields

end Schema

/-- A registry of structures that may have absent tails and bases, with unions put out if some field
is of them. -/
structure Registry.Tailed (r : Registry) : Prop where
  sound : r.Sound Record.Normal fun _ => True
  put : r.toSchema.UnionsPut

namespace Edit

variable {config : Config} {r r' : Registry} {n : Nat}

/-- A configured structure without an absent tail gets one if its union-typed fields allow it. -/
theorem markNullTail_cases {name : String} {unions : Option (List String)}
    (hy : Yields (markNullTail config name) r unions r') : (unions = none ∧ r' = r) ∨
      ∃ found tail selector, (r.lookup? name).bind TypeEntry.record? = some found ∧
        found.nullTail = none ∧ r.tailFields name found = .ok tail ∧
        tail.getLast?.bind (·.selector) = some selector ∧ unions = some (tail.map (·.union)) ∧
        r' = { r with toSchema :=
          r.toSchema.modifyRecord name (Schema.withNullTail tail selector config.nullSelector) } := by
  unfold markNullTail at hy
  obtain ⟨_, _, hs, hy⟩ := yields_bind.mp hy
  obtain ⟨rfl, rfl⟩ := yields_schema.mp hs
  split at hy
  · exact .inl (yields_pure.mp hy)
  · next found hfound =>
    split at hy
    · exact .inl (yields_pure.mp hy)
    · next hbefore =>
      obtain ⟨tail, r₁, hof, hmark⟩ := yields_bind.mp hy
      obtain ⟨htail, rfl⟩ := yields_ofExcept.mp hof
      split at hmark
      · exact (not_yields_throw hmark).elim
      · next selector hselector =>
        obtain ⟨_, _, hupdate, hend⟩ := yields_bind.mp hmark
        obtain ⟨rfl, rfl⟩ := yields_pure.mp hend
        exact .inr ⟨found, tail, selector, hfound, by simpa using hbefore, htail, hselector, rfl,
          yields_update.mp hupdate⟩

/-- The unions of a tail are unions, and go on to be. -/
theorem unionNames_markNullTail {name : String} {unions : Option (List String)}
    (hy : Yields (markNullTail config name) r unions r') : r'.unionNames = r.unionNames ∧
      ∀ names, unions = some names → ∀ union ∈ names, union ∈ r.unionNames := by
  rcases markNullTail_cases hy with
    ⟨rfl, rfl⟩ | ⟨found, tail, selector, -, -, htail, -, rfl, rfl⟩
  · exact ⟨rfl, nofun⟩
  · refine ⟨Schema.unionNames_modifyType (TypeEntry.specName_mapRecord _)
      (TypeEntry.union?_mapRecord _), ?_⟩
    rintro _ ⟨⟩ union hunion
    obtain ⟨t, ht, rfl⟩ := List.mem_map.mp hunion
    obtain ⟨entry, hmem, hname, hu⟩ := (tailFields_eq_ok htail).2 t ht
    exact List.mem_map.mpr ⟨entry, List.mem_filter.mpr ⟨hmem, hu⟩, hname⟩

/-- A structure whose tail is found gets an absent tail. -/
theorem sound_markNullTail {name : String} {unions : Option (List String)}
    (h : r.Sound Record.Normal (· = true)) (hy : Yields (markNullTail config name) r unions r') :
    r'.Sound Record.Normal (· = true) := by
  rcases markNullTail_cases hy with
    ⟨-, rfl⟩ | ⟨found, tail, selector, hfound, -, htail, hselector, -, rfl⟩
  · exact h
  · -- The tail is not empty, so there are fields.
    have hsome : found.fields ≠ [] := by
      intro hnone
      have hfields := (tailFields_eq_ok htail).1
      rw [hnone] at hfields
      rw [List.map_eq_nil_iff.mp hfields] at hselector
      cases hselector
    refine h.modifyRecord hfound (fun hr => hr.withNullTail htail ?_) fun hnone =>
      (hsome hnone).elim
    cases hb : found.base with
    | none => rfl
    | some base => exact (hsome (hr.derived (by rw [hb]; rfl)).1).elim

theorem dropUnusedUnion_cases {union : String} {u : Unit}
    (hy : Yields (dropUnusedUnion union) r u r') : r' = r ∨ r.isFieldType union = false ∧
      r' = { r with toSchema := r.toSchema.modifyType union ({ · with implemented := false }) } := by
  unfold dropUnusedUnion at hy
  obtain ⟨_, _, hs, hy⟩ := yields_bind.mp hy
  obtain ⟨rfl, rfl⟩ := yields_schema.mp hs
  split at hy
  · next hunused => exact .inr ⟨by simpa using hunused, yields_update.mp hy⟩
  · exact .inl (yields_pure.mp hy).2

theorem unionNames_dropUnusedUnion {union : String} {u : Unit}
    (hy : Yields (dropUnusedUnion union) r u r') : r'.unionNames = r.unionNames := by
  rcases dropUnusedUnion_cases hy with rfl | ⟨-, rfl⟩
  · rfl
  · exact Schema.unionNames_modifyType (fun _ => rfl) fun _ => rfl

theorem tailed_dropUnusedUnion {union : String} {u : Unit} (h : r.Tailed)
    (hunion : union ∈ r.unionNames) (hy : Yields (dropUnusedUnion union) r u r') : r'.Tailed := by
  rcases dropUnusedUnion_cases hy with rfl | ⟨hunused, rfl⟩
  · exact h
  · obtain ⟨t, ht, hname, hu⟩ := Schema.exists_of_mem_unionNames hunion
    refine ⟨h.sound.change rfl rfl (h.sound.shaped.modifyType (fun _ => rfl) fun x hx hn hp => ?_),
      h.put.drop hunused⟩
    obtain rfl := List.inj_on_of_nodup_map h.sound.shaped.names hx ht (hn.trans hname.symm)
    obtain ⟨id, specName, name, comment, implemented, kind⟩ := x
    cases kind with
    | union u => exact trivial
    | _ => cases hu

/-- Configured structures get absent tails, and unions that no field is of any more are not put
out. -/
theorem tailed_markNullTails (h : r.Flat) (hy : Yields (markNullTails config) r n r') :
    r'.Tailed := by
  unfold markNullTails at hy
  obtain ⟨unions, r₁, hmark, hy⟩ := yields_bind.mp hy
  obtain ⟨_, r₂, hdrop, hy⟩ := yields_bind.mp hy
  obtain ⟨-, rfl⟩ := yields_pure.mp hy
  have hnormal : r.Sound Record.Normal (· = true) := h.imp (fun _ hr => hr.normal) fun _ hu => hu
  obtain ⟨⟨h₁, hnames₁⟩, hunions⟩ := hmark.filterMapM
    (I := fun s => s.Sound Record.Normal (· = true) ∧ s.unionNames = r.unionNames)
    (R := fun names => ∀ union ∈ names, union ∈ r.unionNames) ⟨hnormal, rfl⟩
    fun name _ s y s' hs hy => by
      obtain ⟨hnames, hof⟩ := unionNames_markNullTail hy
      exact ⟨⟨sound_markNullTail hs.1 hy, hnames.trans hs.2⟩, fun names hn => hs.2 ▸ hof names hn⟩
  have hput : r₁.toSchema.UnionsPut := by
    intro t ht hu
    have hmeets := h₁.shaped.entries t ht
    obtain ⟨id, specName, name, comment, implemented, kind⟩ := t
    cases kind with
    | union u => exact .inl hmeets
    | _ => cases hu
  refine (hdrop.forM (I := fun s => s.Tailed ∧ s.unionNames = r.unionNames)
    ⟨⟨h₁.imp (fun _ hr => hr) fun _ _ => trivial, hput⟩, hnames₁⟩
      fun union hunion s s' hs hy => ?_).1
  obtain ⟨names, hn, hmem⟩ := List.mem_flatten.mp hunion
  exact ⟨tailed_dropUnusedUnion hs.1 (hs.2 ▸ hunions names hn union hmem) hy,
    (unionNames_dropUnusedUnion hy).trans hs.2⟩

end Edit

end WireTables
