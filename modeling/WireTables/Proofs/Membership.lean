import WireTables.Proofs.Normal.Separation
import WireTables.Proofs.Schema.Recast
import WireTables.Source.Reference

/-!
# Members and selectors

In normal form the type of a value tells its selector: a member of a union that denotes a structure
names it, the structure knows the union, and it has the same selector in all unions that it is a
member of (`selected_of_normalize`). The exception is a further name of a structure that is there
from the start and either denoted no structure then, because its chain of names was too long, or has
the very name that a type for the selector gets: such a name is taken for the type itself, and is
left as it is.
-/

namespace WireTables

namespace Schema

section Links

variable {s : Schema}

theorem unions_linkUnions : s.linkUnions.unions = s.unions := by
  unfold unions implemented linkUnions
  rw [List.filter_map, List.filterMap_map]
  have himplemented : ∀ (t : TypeEntry) f, (t.mapRecord f).implemented = t.implemented := by
    rintro ⟨id, specName, name, comment, implemented, kind⟩ f
    cases kind <;> rfl
  have hunion : ∀ (t : TypeEntry) f,
      (t.mapRecord f).union?.map (t.mapRecord f, ·) = t.union?.map (t, ·) := by
    rintro ⟨id, specName, name, comment, implemented, kind⟩ f
    cases kind <;> rfl
  exact congrArg₂ List.filterMap (funext fun t => hunion t _)
    (congrArg (List.filter · s.types) (funext fun t => himplemented t _))

/-- A structure is linked to the unions that are put out, once for each selector that chooses it. -/
theorem mem_memberOf_linkUnions {t : TypeEntry} (ht : t ∈ s.linkUnions.types) {x : Record}
    (hx : t.record? = some x) {union selector : String} :
    (union, selector) ∈ x.memberOf ↔ ∃ t' u, (t', u) ∈ s.linkUnions.unions ∧
      t'.specName = union ∧ ∃ m ∈ u.members, m.selector = selector ∧ m.typeName = t.specName ∧
        s.linkUnions.isRecord m.typeName = true := by
  obtain ⟨t₀, ht₀, rfl⟩ := List.mem_map.mp ht
  have hmember : x.memberOf =
      ((s.memberships.filter (·.1 == t₀.specName)).map (·.2)).eraseDups := by
    obtain ⟨id, specName, name, comment, implemented, kind⟩ := t₀
    cases kind <;> cases hx
    rfl
  rw [hmember, TypeEntry.specName_mapRecord, unions_linkUnions]
  simp only [List.mem_eraseDups, List.mem_map, List.mem_filter, beq_iff_eq, memberships,
    List.mem_flatMap, isRecord_linkUnions]
  constructor
  · rintro ⟨_, ⟨⟨⟨t', u⟩, htu, m, ⟨hm, hr⟩, rfl⟩, hname⟩, heq⟩
    cases heq
    exact ⟨t', u, htu, rfl, m, hm, rfl, hname, hr⟩
  · rintro ⟨t', u, htu, rfl, m, hm, rfl, hname, hr⟩
    exact ⟨_, ⟨⟨(t', u), htu, m, ⟨hm, hr⟩, rfl⟩, hname⟩, rfl⟩

/-- A structure that is named by a member of a union has the selector of the member. -/
theorem exists_selected (h : s.names.Nodup) (hharmless : Harmless s.linkUnions.findings)
    {t : TypeEntry} {u : UnionType} (htu : (t, u) ∈ s.linkUnions.unions) {m : UnionMember}
    (hm : m ∈ u.members) (hrecord : s.linkUnions.isRecord m.typeName = true)
    (hnode : s.linkUnions.IsNode m.typeName) :
    ∃ x, (s.linkUnions.lookup? m.typeName).bind TypeEntry.record? = some x ∧
      (t.specName, m.selector) ∈ x.memberOf ∧ (∀ p ∈ x.memberOf, p.2 = m.selector) ∧
        Source.unionSelector? x = some m.selector := by
  obtain ⟨concrete, hmem, hname, hx⟩ := hnode
  obtain ⟨x, hx⟩ := Option.isSome_iff_exists.mp hx
  have hlinked : (s.linkUnions).names.Nodup :=
    (becomes_linkUnions s fun _ => True).1.names h
  have hmember : (t.specName, m.selector) ∈ x.memberOf :=
    (mem_memberOf_linkUnions hmem hx).mpr ⟨t, u, htu, rfl, m, hm, rfl, hname.symm, hrecord⟩
  have hsame : ∀ p ∈ x.memberOf, p.2 = m.selector := by
    rintro ⟨union, selector⟩ hp
    obtain ⟨t', u', htu', -, m', hm', rfl, hname', -⟩ := (mem_memberOf_linkUnions hmem hx).mp hp
    obtain ⟨ht, himplemented, hu⟩ := mem_unions.mp htu
    obtain ⟨ht', himplemented', hu'⟩ := mem_unions.mp htu'
    exact (selector_of_members hharmless (List.mem_filter.mpr ⟨ht, himplemented⟩)
      (List.mem_filter.mpr ⟨ht', himplemented'⟩) hu hu' hm hm' (hname.symm.trans hname'.symm)
        hrecord).symm
  refine ⟨x, ?_, hmember, hsame, ?_⟩
  · rw [← hname, lookup?_of_mem hlinked hmem]
    exact hx
  · unfold Source.unionSelector?
    cases hlist : x.memberOf with
    | nil =>
      rw [hlist] at hmember
      cases hmember
    | cons p rest => exact congrArg some (hsame p (hlist ▸ List.mem_cons_self))

end Links

end Schema

open Schema

/-- In normal form a member of a union that denotes a structure names it, and the structure has the
selector of the member in all unions that it is a member of; unless the name is a further name that
was there before, denoted no structure then, or is the name of a type for the selector. -/
theorem selected_of_normalize {config : Config} {r₀ r : Registry} (hnames : r₀.names.Nodup)
    (hy : Yields (Edit.normalize config) r₀ () r) {t : TypeEntry} {u : UnionType}
    (htu : (t, u) ∈ r.unions) {m : UnionMember} (hm : m ∈ u.members)
    (hrecord : r.isRecord m.typeName = true) :
    (∃ x, (r.lookup? m.typeName).bind TypeEntry.record? = some x ∧
      (t.specName, m.selector) ∈ x.memberOf ∧ (∀ p ∈ x.memberOf, p.2 = m.selector) ∧
        Source.unionSelector? x = some m.selector) ∨
    (∃ a, (r.lookup? m.typeName).bind TypeEntry.alias? = some a ∧
      (r₀.lookup? m.typeName).bind TypeEntry.alias? = some a) ∧
      (r₀.isRecord m.typeName = false ∨
        ∃ u₀ m₀, (r₀.lookup? t.specName).bind TypeEntry.union? = some u₀ ∧ m₀ ∈ u₀.members ∧
          m₀.selector = m.selector ∧ m.typeName = derivedName config m₀.typeName m₀.selector) := by
  obtain ⟨hpasses, hharmless⟩ := Edit.passes_of_normalize hy
  obtain ⟨r₅, r₆, n₆, hreshaped, hseparated, rfl⟩ := Edit.reshapes_of_passes hpasses
  have hb₅ : r₀.Becomes (fun _ => False) r₅.toSchema :=
    Edit.becomes_of_steps hreshaped fun _ _ => Edit.becomes_of_reshapes
  obtain ⟨hb₆, hall⟩ := Edit.separated_separateUnions hnames hb₅ hseparated
  have hlinked := (becomes_linkUnions r₆.toSchema fun _ => True).1
  have hb : r₀.Becomes (fun _ => True) r₆.toSchema.linkUnions := hb₆.trans hlinked
  by_cases hnode : r₆.toSchema.linkUnions.IsNode m.typeName
  · exact .inl (exists_selected (hb₆.names hnames) hharmless htu hm hrecord hnode)
  · -- a further name is left, which was there from the start
    obtain ⟨a, ha⟩ := (isNode_or_alias hrecord).resolve_left hnode
    obtain ⟨left, hlookup, ha'⟩ := Option.bind_eq_some_iff.mp ha
    obtain ⟨hmem, hname⟩ := mem_of_lookup? hlookup
    obtain ⟨old, hold, hname', ha₀⟩ := hb.exists_alias hmem ha'
    have halias : (r₀.lookup? m.typeName).bind TypeEntry.alias? = some a := by
      rw [← hname, ← hname', lookup?_of_mem hnames hold]
      exact ha₀
    refine .inr ⟨⟨a, ha, halias⟩, ?_⟩
    have htu₆ : (t, u) ∈ r₆.unions := unions_linkUnions (s := r₆.toSchema) ▸ htu
    obtain ⟨ht, -, hu⟩ := mem_unions.mp htu₆
    rcases hall t u htu₆ t ht rfl u hu m hm with
      hnode₆ | hdenoted | ⟨t₀, ht₀, hname₀, u₀, hu₀, m₀, hm₀, hselector, hderived⟩
    · exact (hnode (hlinked.isNode hnode₆)).elim
    · refine .inl ?_
      unfold isRecordAlias at hdenoted
      rw [halias] at hdenoted
      simpa using hdenoted
    · refine .inr ⟨u₀, m₀, ?_, hm₀, hselector, hderived⟩
      rw [← hname₀, lookup?_of_mem hnames ht₀]
      exact hu₀

section Colors

/-- Colors that are chosen by two selectors. A further name of another structure is called what the
type for the first selector gets as its name. -/
def colorTables : List Table :=
  [{ caption := "Table 1 — Definition of (UINT16) TPM_ALG_ID Constants", comment := "",
     rows := [["TPM_ALG_RED", "1", "A", "", ""], ["TPM_ALG_BLUE", "2", "A", "", ""]],
     handleCount := 0 },
   { caption := "Table 2 — Definition of TPMS_COLOR Structure", comment := "",
     rows := [["shade", "UINT8", ""]], handleCount := 0 },
   { caption := "Table 3 — Definition of TPMS_OTHER Structure", comment := "",
     rows := [["depth", "UINT16", ""]], handleCount := 0 },
   { caption := "Table 4 — Definition of Types for Colors", comment := "",
     rows := [["TPMS_OTHER", "TPMS_COLOR_RED", ""]], handleCount := 0 },
   { caption := "Table 5 — Definition of TPMU_COLOR Union", comment := "",
     rows := [["red", "TPMS_COLOR", "TPM_ALG_RED", ""],
       ["blue", "TPMS_COLOR", "TPM_ALG_BLUE", ""]], handleCount := 0 }]

/-- The registry that the tables of colors are extracted to. -/
def extractedColors : Registry :=
  match Extraction.extract colorTables {} with
  | .ok (r, _) => r
  | .error _ => default

/-- The registry of colors in normal form. -/
def colors : Registry :=
  (Id.run ((Edit.normalize {}).run extractedColors)).2

/-- A member of the union of colors in normal form. -/
def colorMember (name typeName selector : String) : UnionMember :=
  { name, typeName, selector }

theorem color_facts :
    extractedColors.names.Nodup ∧
      (Id.run ((Edit.normalize {}).run extractedColors)).1.toOption = some () ∧
      colors.unions.map (fun p => (p.1.specName, p.2.members)) =
        [("TPMU_COLOR", [colorMember "red" "TPMS_COLOR_RED" "TPM_ALG_RED",
          colorMember "blue" "TPMS_COLOR_BLUE" "TPM_ALG_BLUE"])] ∧
      colors.isRecord "TPMS_COLOR_BLUE" = true ∧ colors.isRecord "TPMS_COLOR_RED" = true ∧
      ((extractedColors.lookup? "TPMS_COLOR_BLUE").bind TypeEntry.alias?).isNone = true ∧
      ((colors.lookup? "TPMS_COLOR_RED").bind TypeEntry.record?).isNone = true := by
  decide +kernel

/-- The type of blue colors is made for them; the type of red colors is the further name that was
there before, which is left as it is. -/
theorem selected_colors :
    (extractedColors.names.Nodup ∧ Yields (Edit.normalize {}) extractedColors () colors) ∧
    (∃ t u, (t, u) ∈ colors.unions ∧ t.specName = "TPMU_COLOR" ∧
      colorMember "blue" "TPMS_COLOR_BLUE" "TPM_ALG_BLUE" ∈ u.members ∧
        colorMember "red" "TPMS_COLOR_RED" "TPM_ALG_RED" ∈ u.members) ∧
    (colors.isRecord "TPMS_COLOR_BLUE" = true ∧ colors.isRecord "TPMS_COLOR_RED" = true) ∧
    (∃ x, (colors.lookup? "TPMS_COLOR_BLUE").bind TypeEntry.record? = some x ∧
      ("TPMU_COLOR", "TPM_ALG_BLUE") ∈ x.memberOf ∧
        (∀ p ∈ x.memberOf, p.2 = "TPM_ALG_BLUE") ∧
          Source.unionSelector? x = some "TPM_ALG_BLUE") ∧
    ∃ a, (colors.lookup? "TPMS_COLOR_RED").bind TypeEntry.alias? = some a := by
  obtain ⟨hnames, hnormal, hunions, hblue, hred, hnew, hleft⟩ := color_facts
  have hy : Yields (Edit.normalize {}) extractedColors () colors := yields_of_toOption hnormal
  obtain ⟨⟨t, u⟩, htu, hmembers⟩ := List.mem_map.mp (hunions ▸ List.mem_singleton_self _)
  obtain ⟨hname, hmembers⟩ := Prod.mk.inj hmembers
  have hmred : colorMember "red" "TPMS_COLOR_RED" "TPM_ALG_RED" ∈ u.members :=
    hmembers ▸ List.mem_cons_self
  have hmblue : colorMember "blue" "TPMS_COLOR_BLUE" "TPM_ALG_BLUE" ∈ u.members :=
    hmembers ▸ List.mem_cons_of_mem _ List.mem_cons_self
  refine ⟨⟨hnames, hy⟩, ⟨t, u, htu, hname, hmblue, hmred⟩, ⟨hblue, hred⟩, ?_, ?_⟩
  · rcases selected_of_normalize hnames hy htu hmblue hblue with h | ⟨⟨a, -, ha⟩, -⟩
    · exact hname ▸ h
    · cases (Option.isNone_iff_eq_none.mp hnew).symm.trans ha
  · rcases selected_of_normalize hnames hy htu hmred hred with ⟨x, hx, -⟩ | ⟨⟨a, ha, -⟩, -⟩
    · cases (Option.isNone_iff_eq_none.mp hleft).symm.trans hx
    · exact ⟨a, ha⟩

end Colors

end WireTables
