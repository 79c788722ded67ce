import WireTables.Proofs.Calculation
import WireTables.Proofs.Schema.Fields

/-!
# Fields from rows

The rows of a table are added one by one, and each may turn an earlier field into its selector or
its count. Whatever they say, the fields stay `Arranged` (`arranged_addField`).
-/

namespace WireTables

/-- Fields as they come from the rows of a table. -/
structure Arranged (fields : List Field) : Prop where
  tags : TagsFirst [] [] fields
  selectors : SelectorsName fields
  used : SelectorsUsed fields
  present : SelectorsPresent fields

/-- No field is the length of a structure, or a structure after its length. -/
def Unsized (fields : List Field) : Prop :=
  ∀ f ∈ fields, f.marshal ≠ .bodySize ∧ f.marshal ≠ .sizedBody

theorem unsized_nil : Unsized [] :=
  fun _ hf => (List.not_mem_nil hf).elim

/-- Only names, encodings and partners matter. -/
theorem Arranged.congr {fields fields' : List Field} (h : Arranged fields)
    (hsame : List.Forall₂ (fun f f' => f'.name = f.name ∧ f'.marshal = f.marshal ∧
      f'.partner = f.partner) fields fields') : Arranged fields' := by
  have hnames : fields'.map (·.name) = fields.map (·.name) := by
    clear h
    induction hsame with
    | nil => rfl
    | cons h _ ih => rw [List.map_cons, List.map_cons, ih, h.1]
  have old : ∀ f' ∈ fields', ∃ f ∈ fields,
      f'.name = f.name ∧ f'.marshal = f.marshal ∧ f'.partner = f.partner := by
    clear h hnames
    induction hsame with
    | nil => exact fun _ hf => (List.not_mem_nil hf).elim
    | cons h _ ih =>
      intro f' hf
      rcases List.mem_cons.mp hf with rfl | hf
      · exact ⟨_, List.mem_cons_self, h⟩
      · obtain ⟨f, hmem, hsame⟩ := ih f' hf
        exact ⟨f, List.mem_cons_of_mem _ hmem, hsame⟩
  have htag : ∀ f f' : Field, f'.name = f.name ∧ f'.marshal = f.marshal ∧ f'.partner = f.partner →
      TagKept f f' := by
    rintro f f' ⟨hn, hm, hp⟩
    refine ⟨hn, .inr ?_⟩
    unfold Field.tag?
    rw [hm, hp]
  refine ⟨h.tags.congr (hsame.imp htag), ?_, ?_, ?_⟩
  · intro f' hf u' hu hfo huo hm hp hum
    obtain ⟨f, hf, hfn, hfm, hfp⟩ := old f' hf
    obtain ⟨u, hu, hun, huM, hup⟩ := old u' hu
    rw [Once.congr hnames] at hfo huo
    rw [hfn] at hfo ⊢
    rw [hun] at huo hp
    rw [hup]
    exact h.selectors f hf u hu hfo huo (hfm ▸ hm) (hfp ▸ hp) (huM ▸ hum)
  · intro f' hf u' hu huo hm hp
    obtain ⟨f, hf, -, hfm, hfp⟩ := old f' hf
    obtain ⟨u, hu, hun, huM, -⟩ := old u' hu
    rw [Once.congr hnames] at huo
    rw [hun] at huo hp
    rw [huM]
    exact h.used f hf u hu huo (hfm ▸ hm) (hfp ▸ hp)
  · intro f' hf hm
    obtain ⟨f, hf, -, hfm, hfp⟩ := old f' hf
    rw [hnames, hfp]
    exact h.present f hf (hfm ▸ hm)

/-- Fields that become something else than plain, selectors or union bodies stay arranged. -/
theorem Arranged.map {fields : List Field} {change : Field → Field} (h : Arranged fields)
    (hchange : ∀ f, Demoted f (change f) ∧ Occupied f (change f) ∧ TagKept f (change f)) :
    Arranged (fields.map change) := by
  have each : ∀ {p : Field → Field → Prop}, (∀ f, p f (change f)) →
      List.Forall₂ p fields (fields.map change) := by
    intro p hp
    rw [List.forall₂_map_right_iff]
    exact List.forall₂_same.mpr fun f _ => hp f
  have hdemoted := each fun f => (hchange f).1
  exact ⟨h.tags.congr (each fun f => (hchange f).2.2), h.selectors.demoted hdemoted,
    h.used.demoted hdemoted (each fun f => (hchange f).2.1), h.present.demoted hdemoted⟩

namespace Extraction

theorem arranged_nil : Arranged [] :=
  ⟨trivial, fun _ hf => (List.not_mem_nil hf).elim, fun _ hf => (List.not_mem_nil hf).elim,
    fun _ hf => (List.not_mem_nil hf).elim⟩

variable {fields : List Field} {f : Field}

/-- A new field that describes nothing comes last. -/
theorem arranged_append (h : Arranged fields) (hm : f.marshal = .plain ∨ f.marshal = .constant) :
    Arranged (fields ++ [f]) := by
  have hs : f.marshal ≠ .selector := by rcases hm with hm | hm <;> rw [hm] <;> decide
  have hu : f.marshal ≠ .unionBody := by rcases hm with hm | hm <;> rw [hm] <;> decide
  have ht : f.tag? = none := by rcases hm with hm | hm <;> rw [Field.tag?, hm]
  have old : ∀ {g}, g ∈ fields ++ [f] → g.marshal = .selector → g ∈ fields := by
    intro g hg hgm
    rcases List.mem_append.mp hg with hg | hg
    · exact hg
    · rw [List.mem_singleton.mp hg] at hgm
      exact (hs hgm).elim
  refine ⟨tagsFirst_append.mpr ⟨h.tags, ?_⟩, h.selectors.append hs hu, ?_, ?_⟩
  · intro tag htag
    cases ht.symm.trans htag
  · intro g hg u hu huo hgm hp
    rcases List.mem_append.mp hu with hu | hu
    · exact h.used g (old hg hgm) u hu huo.of_append hgm hp
    · rw [List.mem_singleton.mp hu] at huo hp
      obtain ⟨name, hname, hmem⟩ := h.present g (old hg hgm) hgm
      cases hp.symm.trans hname
      exact (huo.not_mem hmem).elim
  · intro g hg hgm
    obtain ⟨name, hname, hmem⟩ := h.present g (old hg hgm) hgm
    refine ⟨name, hname, ?_⟩
    rw [List.map_append]
    exact List.mem_append_left _ hmem

/-- The first field of a name becomes the selector of the new field. -/
theorem arranged_selector {tag : String} (h : Arranged fields)
    (htag : tag ∈ fields.map (·.name)) :
    Arranged (changeFirst tag (fun g => { g with marshal := .selector, partner := some f.name })
      fields ++ [{ f with marshal := .unionBody, partner := some tag }]) := by
  generalize hchange : (fun g : Field =>
    { g with marshal := .selector, partner := some f.name }) = change
  have hname : ∀ g, (change g).name = g.name := fun g => by rw [← hchange]
  have hmarshal : ∀ g, (change g).marshal = .selector := fun g => by rw [← hchange]
  have hpartner : ∀ g, (change g).partner = some f.name := fun g => by rw [← hchange]
  have hnames : (changeFirst tag change fields).map (·.name) = fields.map (·.name) :=
    names_changeFirst hname
  have honce : ∀ {n}, Once (changeFirst tag change fields ++
      [{ f with marshal := .unionBody, partner := some tag }]) n → Once (fields ++ [f]) n := by
    intro n hn
    refine (Once.congr ?_).mp hn
    rw [List.map_append, List.map_append, hnames]
    rfl
  have hkeep : List.Forall₂ TagKept fields (changeFirst tag change fields) := by
    refine forall₂_changeFirst TagKept.refl fun g => ⟨hname g, .inl ?_⟩
    rw [Field.tag?, hmarshal]
  -- A selector among the fields is the one that was made, or an old one.
  have selector : ∀ {g}, g ∈ changeFirst tag change fields ++
      [{ f with marshal := .unionBody, partner := some tag }] → g.marshal = .selector →
        g ∈ fields ∨ g.name = tag ∧ g.partner = some f.name := by
    intro g hg hgm
    rcases List.mem_append.mp hg with hg | hg
    · rcases mem_changeFirst hg with hg | ⟨x, -, hx, rfl⟩
      · exact .inl hg
      · exact .inr ⟨(hname x).trans hx, hpartner x⟩
    · rw [List.mem_singleton.mp hg] at hgm
      cases hgm
  -- No old field has the name of the new one, if that name is clear.
  have fresh : ∀ {g u : Field}, u ∈ fields → Once (fields ++ [f]) u.name →
      g.partner = some u.name → g.partner ≠ some f.name := by
    intro g u hu huo hp hp'
    have hname : u.name = f.name := Option.some.inj (hp.symm.trans hp')
    rw [hname] at huo
    exact huo.not_mem (hname ▸ List.mem_map_of_mem (f := fun f : Field => f.name) hu)
  refine ⟨tagsFirst_append.mpr ⟨h.tags.congr hkeep, ?_⟩, ?_, ?_, ?_⟩
  · rintro t ⟨⟩ -
    rw [hnames]
    exact .inr htag
  · intro g hg u hu hgo huo hgm hp hum
    rcases List.mem_append.mp hu with hu | hu
    · rcases mem_changeFirst hu with hu | ⟨x, -, -, rfl⟩
      · rcases selector hg hgm with hg | ⟨-, hpartner'⟩
        · exact h.selectors g hg u hu (honce hgo).of_append (honce huo).of_append hgm hp hum
        · exact (fresh hu (honce huo) hp hpartner').elim
      · cases (hmarshal x).symm.trans hum
    · rw [List.mem_singleton.mp hu] at hp huo ⊢
      rcases selector hg hgm with hg | ⟨hgn, -⟩
      · obtain ⟨n, hn, hmem⟩ := h.present g hg hgm
        cases hp.symm.trans hn
        exact ((honce huo).not_mem hmem).elim
      · rw [hgn]
  · intro g hg u hu huo hgm hp
    rcases List.mem_append.mp hu with hu | hu
    · rcases mem_changeFirst hu with hu | ⟨x, -, -, rfl⟩
      · rcases selector hg hgm with hg | ⟨-, hpartner'⟩
        · exact h.used g hg u hu (honce huo).of_append hgm hp
        · exact (fresh hu (honce huo) hp hpartner').elim
      · rw [hmarshal]
        decide
    · rw [List.mem_singleton.mp hu]
      exact nofun
  · intro g hg hgm
    rw [List.map_append, hnames, List.map_singleton]
    rcases selector hg hgm with hg | ⟨-, hpartner'⟩
    · obtain ⟨n, hn, hmem⟩ := h.present g hg hgm
      exact ⟨n, hn, List.mem_append_left _ hmem⟩
    · exact ⟨f.name, hpartner', List.mem_append_right _ (List.mem_singleton_self _)⟩

/-- A row that names its selector makes it one, and makes its own field the union body. -/
theorem arranged_linkSelector {owner : String} {selector : Option String} {fields' : List Field}
    {f' : Field} (h : Arranged fields) (hf : f.marshal = .plain ∨ f.marshal = .constant)
    (hl : linkSelector owner fields f selector = .ok (fields', f')) :
    Arranged (fields' ++ [f']) := by
  unfold linkSelector at hl
  cases selector with
  | none =>
    cases hl
    exact arranged_append h hf
  | some tag =>
    simp only at hl
    split at hl
    · next htag =>
      cases hl
      exact arranged_selector h (hasField_iff.mp htag)
    · cases hl

/-- A field becomes an array, and the first field of the name of its length a count. -/
theorem arranged_linkCount {array : Option String} {fields' : List Field} {f' : Field}
    (h : Arranged (fields ++ [f])) (hl : linkCount fields f array = (fields', f')) :
    Arranged (fields' ++ [f']) := by
  -- Whatever the new field becomes, it is no selector, no union body and not plain.
  have array_ : ∀ {g : List Field} {f' : Field}, List.Forall₂ Demoted fields g →
      List.Forall₂ Occupied fields g → List.Forall₂ TagKept fields g → f'.name = f.name →
        f'.marshal ≠ .selector → f'.marshal ≠ .unionBody → f'.marshal ≠ .plain →
          (∀ tag, f'.tag? = some tag → tag ∈ fields.map (·.name)) → Arranged (g ++ [f']) := by
    intro g f' hd ho hk hname hs hu hp ht
    have hdemoted : List.Forall₂ Demoted (fields ++ [f]) (g ++ [f']) :=
      List.rel_append hd (.cons ⟨hname, .inr ⟨hs, hu⟩⟩ .nil)
    have hoccupied : List.Forall₂ Occupied (fields ++ [f]) (g ++ [f']) :=
      List.rel_append ho (.cons (.inr hp) .nil)
    exact ⟨tagsFirst_append.mpr ⟨(tagsFirst_append.mp h.tags).1.congr hk, fun tag htag _ =>
        .inr (names_of_demoted hd ▸ ht tag htag)⟩, h.selectors.demoted hdemoted,
        h.used.demoted hdemoted hoccupied,
      h.present.demoted hdemoted⟩
  have same : ∀ {p : Field → Field → Prop}, (∀ f, p f f) → List.Forall₂ p fields fields :=
    fun hp => List.forall₂_same.mpr fun f _ => hp f
  unfold linkCount at hl
  cases array with
  | none =>
    cases hl
    exact h
  | some length =>
    simp only at hl
    split at hl
    · cases hl
      exact array_ (same Demoted.refl) (same fun _ => .inl rfl) (same TagKept.refl) rfl nofun nofun
        nofun nofun
    · split at hl
      · next htag =>
        cases hl
        refine array_ (forall₂_changeFirst Demoted.refl fun _ => ⟨rfl, .inr ⟨nofun, nofun⟩⟩)
          (forall₂_changeFirst (fun _ => .inl rfl) fun _ => .inr nofun)
          (forall₂_changeFirst TagKept.refl fun _ => ⟨rfl, .inl rfl⟩) rfl nofun nofun nofun ?_
        rintro tag ⟨⟩
        exact hasField_iff.mp htag
      · cases hl
        exact array_ (same Demoted.refl) (same fun _ => .inl rfl) (same TagKept.refl) rfl nofun
          nofun nofun nofun

/-- One more row keeps the fields arranged. -/
theorem arranged_addField {owner : String} {row : FieldRow} {fields' : List Field}
    (h : Arranged fields) (ha : addField owner fields row = .ok fields') : Arranged fields' := by
  unfold addField at ha
  obtain ⟨g, hg, ha⟩ := bind_eq_ok.mp ha
  obtain ⟨⟨linked, g₁⟩, hl, ha⟩ := bind_eq_ok.mp ha
  cases hc : linkCount linked g₁ row.array with
  | mk counted g₂ =>
    simp only [hc] at ha
    cases ha
    refine arranged_linkCount (arranged_linkSelector h ?_ hl) hc
    unfold plainField at hg
    obtain ⟨domain, -, hg⟩ := bind_eq_ok.mp hg
    split at hg
    · cases hg
      exact .inr rfl
    · cases hg
      exact .inl rfl

theorem arranged_addFields {owner : String} {rows : List FieldRow} {fields' : List Field}
    (h : Arranged fields) (ha : rows.foldlM (addField owner) fields = .ok fields') :
    Arranged fields' := by
  induction rows generalizing fields with
  | nil =>
    cases ha
    exact h
  | cons row rows ih =>
    rw [List.foldlM_cons] at ha
    obtain ⟨next, hnext, ha⟩ := bind_eq_ok.mp ha
    exact ih (arranged_addField h hnext) ha

/-- A parameter of a command is a row like any other. -/
theorem arranged_addParameter {owner : String} {handleCount : Nat} {r r' : Record} {row : FieldRow}
    (h : Arranged r.fields) (ha : addParameter owner handleCount r row = .ok r') :
    Arranged r'.fields ∧ r'.base = r.base ∧ r'.nullTail = r.nullTail := by
  unfold addParameter at ha
  obtain ⟨fields, hf, ha⟩ := bind_eq_ok.mp ha
  cases ha
  refine ⟨(arranged_addField h hf).congr ?_, rfl, rfl⟩
  rcases List.eq_nil_or_concat fields with rfl | ⟨init, f, rfl⟩
  · exact .nil
  · rw [List.concat_eq_append, List.dropLast_concat, List.getLast?_concat]
    exact List.rel_append (List.forall₂_same.mpr fun _ _ => ⟨rfl, rfl, rfl⟩)
      (.cons ⟨rfl, rfl, rfl⟩ .nil)

/-- One more row makes no field the length of a structure. -/
theorem unsized_addField {owner : String} {row : FieldRow} {fields' : List Field}
    (h : Unsized fields) (ha : addField owner fields row = .ok fields') : Unsized fields' := by
  unfold addField at ha
  obtain ⟨g, hg, ha⟩ := bind_eq_ok.mp ha
  obtain ⟨⟨linked, g₁⟩, hl, ha⟩ := bind_eq_ok.mp ha
  have changed : ∀ {name : String} {change : Field → Field} {fields : List Field},
      (∀ x, (change x).marshal ≠ .bodySize ∧ (change x).marshal ≠ .sizedBody) → Unsized fields →
        Unsized (changeFirst name change fields) := by
    intro name change fields hchange h f hf
    rcases mem_changeFirst hf with hf | ⟨x, -, -, rfl⟩
    · exact h f hf
    · exact hchange x
  have hplain : g.marshal ≠ .bodySize ∧ g.marshal ≠ .sizedBody := by
    unfold plainField at hg
    obtain ⟨domain, -, hg⟩ := bind_eq_ok.mp hg
    split at hg <;> cases hg <;> exact ⟨nofun, nofun⟩
  obtain ⟨hlinked, hg₁⟩ : Unsized linked ∧ g₁.marshal ≠ .bodySize ∧ g₁.marshal ≠ .sizedBody := by
    unfold linkSelector at hl
    split at hl
    · cases hl
      exact ⟨h, hplain⟩
    · split at hl
      · cases hl
        exact ⟨changed (fun _ => ⟨nofun, nofun⟩) h, nofun, nofun⟩
      · cases hl
  cases hc : linkCount linked g₁ row.array with
  | mk counted g₂ =>
    simp only [hc] at ha
    cases ha
    obtain ⟨hcounted, hg₂⟩ :
        Unsized counted ∧ g₂.marshal ≠ .bodySize ∧ g₂.marshal ≠ .sizedBody := by
      unfold linkCount at hc
      split at hc
      · cases hc
        exact ⟨hlinked, hg₁⟩
      · split at hc
        · cases hc
          exact ⟨hlinked, nofun, nofun⟩
        · split at hc
          · cases hc
            exact ⟨changed (fun _ => ⟨nofun, nofun⟩) hlinked, nofun, nofun⟩
          · cases hc
            exact ⟨hlinked, nofun, nofun⟩
    intro f hf
    rcases List.mem_append.mp hf with hf | hf
    · exact hcounted f hf
    · rw [List.mem_singleton.mp hf]
      exact hg₂

theorem unsized_addFields {owner : String} {rows : List FieldRow} {fields' : List Field}
    (h : Unsized fields) (ha : rows.foldlM (addField owner) fields = .ok fields') :
    Unsized fields' := by
  induction rows generalizing fields with
  | nil =>
    cases ha
    exact h
  | cons row rows ih =>
    rw [List.foldlM_cons] at ha
    obtain ⟨next, hnext, ha⟩ := bind_eq_ok.mp ha
    exact ih (unsized_addField h hnext) ha

theorem unsized_addParameter {owner : String} {handleCount : Nat} {r r' : Record} {row : FieldRow}
    (h : Unsized r.fields) (ha : addParameter owner handleCount r row = .ok r') :
    Unsized r'.fields := by
  unfold addParameter at ha
  obtain ⟨fields, hf, ha⟩ := bind_eq_ok.mp ha
  cases ha
  have hfields := unsized_addField h hf
  intro g hg
  rcases List.mem_append.mp hg with hg | hg
  · exact hfields g (List.dropLast_subset _ hg)
  · obtain ⟨f, hlast, rfl⟩ := Option.map_eq_some_iff.mp (Option.mem_toList.mp hg)
    exact hfields f (List.mem_of_getLast? hlast)

end Extraction

end WireTables
