import WireTables.Proofs.Editing
import WireTables.Proofs.RowLinks
import WireTables.Proofs.Schema.Recast
import WireTables.Proofs.Schema.Verdict

/-!
# Wired fields

An array and its count name each other, and so do a selector and the last object that it selects. Rows
that agree leave the fields of a structure so, and the checks find nothing wrong inside it
(`Extraction.wired_addFields`). At the end of an extraction the objects of unions whose members are
arrays become arrays themselves. They keep their selectors, so that all of it stays true.

What is said of commands is left out: their rows are added in the same way, but some of their fields
are marked as handles in between.
-/

namespace WireTables

namespace FieldRow

variable {arrays : List String} {rows : List FieldRow} {row x tag : FieldRow} {f : Field}
  {name : String}

/-! ## What a row says, read off its field -/

/-- What a row says of its own field makes it no tag. -/
theorem Own.not_tag {names : List String} (h : Own arrays names row f) :
    ∀ m ∈ [Marshal.count, .selector, .bodySize, .sizedBody], f.marshal ≠ m := by
  cases h with
  | implied _ his | counted _ _ his | fixed _ _ his | object _ _ _ his | selected _ _ _ his
  | constant _ _ his | plain _ _ his =>
    rw [his.1]
    decide

section Encoding

variable (h : row.Becomes arrays rows f)

include h

theorem Becomes.of_countedArray (hm : f.marshal = .countedArray) :
    ∃ name, row.count? = some name ∧ name ∈ rows.map (·.name) ∧ f.partner = some name := by
  rcases h.role with ⟨-, how⟩ | ⟨-, -, -, his⟩ | ⟨-, -, -, -, his⟩
  · cases how with
    | counted hc hmem his => exact ⟨_, hc, hmem, his.2.1⟩
    | implied _ his | fixed _ _ his | object _ _ _ his | selected _ _ _ his
    | constant _ _ his | plain _ _ his => cases hm.symm.trans his.1
  · cases hm.symm.trans his.1
  · cases hm.symm.trans his.1

theorem Becomes.of_object (hm : f.marshal = .unionBody ∨ f.marshal = .selectedArray) :
    ∃ name, row.selector = some name ∧ f.partner = some name := by
  rcases h.role with ⟨-, how⟩ | ⟨-, -, -, his⟩ | ⟨-, -, -, -, his⟩
  · cases how with
    | object _ hs _ his | selected _ hs _ his => exact ⟨_, hs, his.2.1⟩
    | implied _ his | counted _ _ his | fixed _ _ his | constant _ _ his | plain _ _ his =>
      rcases hm with hm | hm <;> cases hm.symm.trans his.1
  · rcases hm with hm | hm <;> cases hm.symm.trans his.1
  · rcases hm with hm | hm <;> cases hm.symm.trans his.1

theorem Becomes.of_count (hm : f.marshal = .count) : row.IsLone ∧
    ∃ array ∈ rows, array.count? = some row.name ∧ f.partner = some array.name := by
  rcases h.role with ⟨-, how⟩ | ⟨hlone, harray, hc, his⟩ | ⟨-, -, -, -, his⟩
  · exact (how.not_tag .count (by simp) hm).elim
  · exact ⟨hlone, _, harray, hc, his.2.1⟩
  · cases hm.symm.trans his.1

theorem Becomes.of_selector (hm : f.marshal = .selector) : row.IsLone ∧
    ∃ before object after, rows = before ++ object :: after ∧ object.selector = some row.name ∧
      (∀ later ∈ after, later.selector ≠ some row.name) ∧ f.partner = some object.name := by
  rcases h.role with ⟨-, how⟩ | ⟨-, -, -, his⟩ | ⟨hlone, hsplit, hobject, hlater, his⟩
  · exact (how.not_tag .selector (by simp) hm).elim
  · cases hm.symm.trans his.1
  · exact ⟨hlone, _, _, _, hsplit, hobject, hlater, his.2.1⟩

/-- Rows make no field the length of a structure, or a structure after its length. -/
theorem Becomes.unsized : f.marshal ≠ .bodySize ∧ f.marshal ≠ .sizedBody := by
  rcases h.role with ⟨-, how⟩ | ⟨-, -, -, his⟩ | ⟨-, -, -, -, his⟩
  · exact ⟨how.not_tag .bodySize (by simp), how.not_tag .sizedBody (by simp)⟩
  · exact his.1 ▸ ⟨nofun, nofun⟩
  · exact his.1 ▸ ⟨nofun, nofun⟩

end Encoding

/-- A row that counts with another one becomes an array. -/
theorem Becomes.is_countedArray (h : row.Becomes arrays rows f) (htag : tag ∈ rows)
    (hc : row.count? = some tag.name) : f.Is .countedArray (some tag.name) none := by
  rcases h.role with ⟨-, how⟩ | ⟨hlone, -⟩ | ⟨hlone, -⟩
  · cases how with
    | implied harray =>
      obtain ⟨hname, hne⟩ := count?_eq_some_iff.mp hc
      exact (hne (Option.some.inj (hname.symm.trans harray))).elim
    | counted hc' _ his =>
      cases hc.symm.trans hc'
      exact his
    | fixed hc' habsent =>
      cases hc.symm.trans hc'
      exact (habsent (List.mem_map_of_mem htag)).elim
    | object harray | selected harray =>
      cases (count?_eq_some_iff.mp hc).1.symm.trans harray
    | constant hlone | plain hlone => exact (hlone.count?_ne hc).elim
  · exact (hlone.count?_ne hc).elim
  · exact (hlone.count?_ne hc).elim

section Reference

variable (hrows : Agree rows) (h : row.Becomes arrays rows f)

include hrows h

/-- A row that is chosen by another one names it. -/
theorem Becomes.partner_of_selector (hrow : row ∈ rows) (hs : row.selector = some name) :
    f.partner = some name := by
  have hcount : row.count? = none := (hrows.single row hrow).resolve_left (by simp [hs])
  rcases h.role with ⟨-, how⟩ | ⟨hlone, -⟩ | ⟨hlone, -⟩
  · cases how with
    | implied _ his => exact his.2.1.trans hs
    | counted hc | fixed hc => cases hcount.symm.trans hc
    | object _ hs' _ his | selected _ hs' _ his => exact his.2.1.trans (hs'.symm.trans hs)
    | constant hlone | plain hlone => exact (hlone.selector_ne hs).elim
  · exact (hlone.selector_ne hs).elim
  · exact (hlone.selector_ne hs).elim

/-- Only a row that refers to a lone one has a field that names it. -/
theorem Becomes.refers_of_partner (htag : tag ∈ rows) (hlone : tag.IsLone)
    (hp : f.partner = some tag.name) :
    row.count? = some tag.name ∨ row.selector = some tag.name := by
  -- a tag names a row that refers to it, which no lone row does
  have hnot {other : FieldRow} (hother : other ∈ rows) (hp' : f.partner = some other.name) :
      other = tag := hrows.eq_of_name hother htag (Option.some.inj (hp'.symm.trans hp))
  rcases h.role with ⟨-, how⟩ | ⟨-, harray, hc, his⟩ | ⟨-, rfl, hobject, -, his⟩
  · cases how with
    | implied _ his => exact .inr (his.2.1.symm.trans hp)
    | counted hc _ his => exact .inl (hc.trans (his.2.1.symm.trans hp))
    | fixed _ _ his => exact .inr (his.2.1.symm.trans hp)
    | object _ hs _ his | selected _ hs _ his => exact .inr (hs.trans (his.2.1.symm.trans hp))
    | constant _ _ his | plain _ _ his => cases his.2.1.symm.trans hp
  · rw [hnot harray his.2.1] at hc
    exact (hlone.count?_ne hc).elim
  · rw [hnot (by simp) his.2.1] at hobject
    exact (hlone.selector_ne hobject).elim

/-- A row that another one counts with becomes its count. -/
theorem Becomes.is_count (hrow : row ∈ rows) (hx : x ∈ rows) (hc : x.count? = some row.name) :
    f.Is .count (some x.name) none := by
  have hlone := hrows.lone_of_count hrow hx hc
  rcases h.role with ⟨hunnamed, -⟩ | ⟨-, hy, hc', his⟩ | ⟨-, rfl, hobject, -⟩
  · exact ((hunnamed hlone x hx).1 hc).elim
  · rw [hrows.once row hrow x hx _ hy hc hc']
    exact his
  · exact (hrows.apart row hrow x hx _ (by simp) hc hobject).elim

/-- A row that chooses another one becomes a selector. -/
theorem Becomes.is_selector (hrow : row ∈ rows) (hx : x ∈ rows) (hs : x.selector = some row.name) :
    f.marshal = .selector := by
  have hlone := hrows.lone_of_selector hrow hx hs
  rcases h.role with ⟨hunnamed, -⟩ | ⟨-, hy, hc, -⟩ | ⟨-, -, -, -, his⟩
  · exact ((hunnamed hlone x hx).2 hs).elim
  · exact (hrows.apart row hrow _ hy x hx hc hs).elim
  · exact his.1

end Reference

end FieldRow

/-- Fields that belong together name each other: an array and its count, and an object and its
selector, which may have more than one and names the last. -/
structure Record.Paired (r : Record) : Prop where
  arrays : ∀ array ∈ r.fields, array.marshal = .countedArray → ∃ count ∈ r.fields,
    count.marshal = .count ∧ array.partner = some count.name ∧ count.partner = some array.name
  counts : ∀ count ∈ r.fields, count.marshal = .count → ∃ array ∈ r.fields,
    array.marshal = .countedArray ∧ array.partner = some count.name ∧ count.partner = some array.name
  objects : ∀ object ∈ r.fields, object.marshal = .unionBody ∨ object.marshal = .selectedArray →
    ∃ selector ∈ r.fields, selector.marshal = .selector ∧ object.partner = some selector.name
  selectors : ∀ selector ∈ r.fields, selector.marshal = .selector → ∃ before object after,
    r.fields = before ++ object :: after ∧ object.partner = some selector.name ∧
      selector.partner = some object.name ∧ ∀ later ∈ after, later.partner ≠ some selector.name

namespace FieldRow

namespace AllBecome

variable {arrays : List String} {rows : List FieldRow} {row : FieldRow} {fields : List Field}
  {f g : Field} {r : Record}

theorem exists_row (h : AllBecome arrays rows fields) (hf : f ∈ fields) :
    ∃ row ∈ rows, row.Becomes arrays rows f :=
  exists_of_forall₂ h hf

theorem exists_field (h : AllBecome arrays rows fields) (hrow : row ∈ rows) :
    ∃ f ∈ fields, row.Becomes arrays rows f :=
  exists_of_forall₂ h.flip hrow

variable (hrows : Agree rows) (h : AllBecome arrays rows r.fields)

include hrows h

theorem nodup_names : (r.fields.map (·.name)).Nodup :=
  h.names ▸ hrows.distinct

/-- A count belongs to one array only. -/
theorem exists_array (hf : f ∈ r.fields) (hm : f.marshal = .count) :
    ∃ array ∈ r.fields, array.marshal = .countedArray ∧ array.partner = some f.name ∧
      f.partner = some array.name ∧ ∀ g ∈ r.fields, g.partner = some f.name → g = array := by
  obtain ⟨tag, htag, hcount⟩ := h.exists_row hf
  obtain ⟨hlone, x, hx, hc, hp⟩ := hcount.of_count hm
  obtain ⟨array, harray, hbecomes⟩ := h.exists_field hx
  obtain ⟨hm', hp', -⟩ := hbecomes.is_countedArray htag hc
  refine ⟨array, harray, hm', hcount.name ▸ hp', hbecomes.name ▸ hp, fun g hg hgp => ?_⟩
  rw [hcount.name] at hgp
  obtain ⟨y, hy, hother⟩ := h.exists_row hg
  rcases hother.refers_of_partner hrows htag hlone hgp with hc' | hs
  · have hsame := hrows.once tag htag y hy x hx hc' hc
    refine List.inj_on_of_nodup_map (h.nodup_names hrows) hg harray ?_
    rw [hother.name, hbecomes.name, hsame]
  · exact (hrows.apart tag htag x hx y hy hc hs).elim

theorem paired : r.Paired where
  arrays := by
    intro array harray hm
    obtain ⟨row, hrow, hbecomes⟩ := h.exists_row harray
    obtain ⟨_, hc, hname, hp⟩ := hbecomes.of_countedArray hm
    obtain ⟨tag, htag, rfl⟩ := List.mem_map.mp hname
    obtain ⟨count, hcount, htagged⟩ := h.exists_field htag
    obtain ⟨hm', hp', -⟩ := htagged.is_count hrows htag hrow hc
    exact ⟨count, hcount, hm', htagged.name ▸ hp, hbecomes.name ▸ hp'⟩
  counts := by
    intro count hcount hm
    obtain ⟨array, harray, hm', hp, hp', -⟩ := h.exists_array hrows hcount hm
    exact ⟨array, harray, hm', hp, hp'⟩
  objects := by
    intro object hobject hm
    obtain ⟨row, hrow, hbecomes⟩ := h.exists_row hobject
    obtain ⟨_, hs, hp⟩ := hbecomes.of_object hm
    obtain ⟨tag, htag, rfl, -⟩ := hrows.exists_selector hrow hs
    obtain ⟨selector, hselector, htagged⟩ := h.exists_field htag
    exact ⟨selector, hselector, htagged.is_selector hrows htag hrow hs, htagged.name ▸ hp⟩
  selectors := by
    intro selector hselector hm
    obtain ⟨tag, htag, htagged⟩ := h.exists_row hselector
    obtain ⟨hlone, before, x, after, hsplit, hs, hlater, hp⟩ := htagged.of_selector hm
    have hx : x ∈ rows := hsplit ▸ by simp
    have hall : List.Forall₂ (fun row f => row.Becomes arrays rows f) (before ++ x :: after)
        r.fields := by
      rw [← hsplit]
      exact h
    obtain ⟨before', rest, hfields, -, hrest⟩ := exists_of_forall₂_append hall
    obtain ⟨object, after', hbecomes, hafter, rfl⟩ := List.forall₂_cons_left_iff.mp hrest
    refine ⟨before', object, after', hfields, ?_, hbecomes.name ▸ hp, fun later hmem hlp => ?_⟩
    · exact htagged.name ▸ hbecomes.partner_of_selector hrows hx hs
    · rw [htagged.name] at hlp
      obtain ⟨y, hy, hother⟩ := exists_of_forall₂ hafter hmem
      rcases hother.refers_of_partner hrows htag hlone hlp with hc | hs'
      · exact hrows.apart tag htag y (hsplit ▸ by simp [hy]) x hx hc hs
      · exact hlater y hy hs'

/-- What the rows wire up is consistent. -/
theorem consistent : r.Consistent := by
  have hpaired := h.paired hrows
  have hnames := h.nodup_names hrows
  have names {f g : Field} (hg : g ∈ r.fields) (hp : f.partner = some g.name) {kind : Marshal}
      (hm : g.marshal = kind) : r.Names f kind :=
    ⟨g.name, g, hp, Schema.find?_of_mem hnames hg, hm⟩
  refine ⟨fun f hf hm => ?_, fun f hf hm => ?_, fun f hf hm => ?_, fun f hf hm => ?_,
    fun f hf hm => ?_⟩
  · obtain ⟨array, harray, hm', hp, hp', hunique⟩ := h.exists_array hrows hf hm
    refine ⟨?_, array, harray, hp, hm', hp'⟩
    have hsame : ∀ g ∈ r.fields, (g.partner == some f.name) = true ↔ (g == array) = true := by
      intro g hg
      rw [beq_iff_eq, beq_iff_eq]
      exact ⟨hunique g hg, fun heq => heq ▸ hp⟩
    rw [List.countP_congr hsame]
    exact List.count_eq_one_of_mem (List.Nodup.of_map _ hnames) harray
  · obtain ⟨row, -, hbecomes⟩ := h.exists_row hf
    exact (hbecomes.unsized.1 hm).elim
  · obtain ⟨count, hcount, hm', hp, -⟩ := hpaired.arrays f hf hm
    exact names hcount hp hm'
  · obtain ⟨row, -, hbecomes⟩ := h.exists_row hf
    exact (hbecomes.unsized.2 hm).elim
  · obtain ⟨selector, hselector, hm', hp⟩ := hpaired.objects f hf hm
    exact names hselector hp hm'

end AllBecome

end FieldRow

/-- Nothing is found wrong inside a consistent structure. -/
theorem Record.Consistent.findings_eq_nil {r : Record} (h : r.Consistent) (owner : String) :
    Schema.recordFindings owner r = [] := by
  unfold Schema.recordFindings
  rw [List.flatMap_eq_nil_iff]
  intro f hf
  have hclean : Schema.Clean r f := Schema.clean_iff.mpr
    ⟨⟨h.counts f hf, h.sizes f hf⟩, ⟨h.arrays f hf, h.bodies f hf⟩, h.choices f hf⟩
  rw [hclean.tag, hclean.tagged, hclean.selector]
  rfl

/-! ## The end of the extraction -/

/-- The unions all of whose members are arrays. -/
def Schema.arrayUnionNames (s : Schema) : List String :=
  (s.unions.filter (·.2.isArrayUnion)).map (·.1.specName)

/-- A union-typed field of one of the types, as an array. -/
def Field.selectedIn (arrays : List String) (f : Field) : Field :=
  if f.marshal == .unionBody && arrays.contains f.typeName then { f with marshal := .selectedArray }
  else f

namespace FieldRow

variable {arrays : List String} {rows : List FieldRow} {row : FieldRow} {f : Field}

theorem selectedIn_eq_self (h : f.marshal ≠ .unionBody) : f.selectedIn arrays = f :=
  if_neg (by simp [h])

/-- What the rows say of a field they say of it as an array, if it becomes one. -/
theorem Becomes.selectedIn (h : row.Becomes [] rows f) :
    row.Becomes arrays rows (f.selectedIn arrays) := by
  have hne {m : Marshal} (his : f.marshal = m) (hm : m ≠ .unionBody) : f.selectedIn arrays = f :=
    selectedIn_eq_self (his ▸ hm)
  have keep {m : Marshal} {p size : Option String} (his : f.Is m p size) (hm : m ≠ .unionBody)
      (hrole : row.Role arrays rows f) : row.Becomes arrays rows (f.selectedIn arrays) := by
    rw [hne his.1 hm]
    exact ⟨h.name, h.typeName, hrole⟩
  rcases h.role with ⟨hunnamed, how⟩ | ⟨hlone, harray, hc, his⟩ |
    ⟨hlone, hsplit, hobject, hlater, his⟩
  · cases how with
    | implied harray his => exact keep his nofun (.own hunnamed (.implied harray his))
    | counted hc hmem his => exact keep his nofun (.own hunnamed (.counted hc hmem his))
    | fixed hc hmem his => exact keep his nofun (.own hunnamed (.fixed hc hmem his))
    | constant hlone hvalue his => exact keep his nofun (.own hunnamed (.constant hlone hvalue his))
    | plain hlone hvalue his => exact keep his nofun (.own hunnamed (.plain hlone hvalue his))
    | selected _ _ htype => exact (List.not_mem_nil htype).elim
    | object harray hs _ his =>
      by_cases htype : row.typeName ∈ arrays
      · have heq : f.selectedIn arrays = { f with marshal := .selectedArray } :=
          if_pos (by simp [his.1, h.typeName, htype])
        rw [heq]
        exact ⟨h.name, h.typeName, .own hunnamed (.selected harray hs htype ⟨rfl, his.2⟩)⟩
      · have heq : f.selectedIn arrays = f := if_neg (by simp [h.typeName, htype])
        rw [heq]
        exact ⟨h.name, h.typeName, .own hunnamed (.object harray hs htype his)⟩
  · exact keep his nofun (.count hlone harray hc his)
  · exact keep his nofun (.selector hlone hsplit hobject hlater his)

theorem AllBecome.selectedIn {fields : List Field} (h : AllBecome [] rows fields) :
    AllBecome arrays rows (fields.map (·.selectedIn arrays)) := by
  unfold AllBecome
  rw [List.forall₂_map_right_iff]
  exact h.imp fun _ _ hbecomes => hbecomes.selectedIn

end FieldRow

/-- The fields of a structure are what the rows say, those that belong together name each other, and
nothing is found wrong with them. -/
structure Record.Wired (arrays : List String) (rows : List FieldRow) (r : Record) : Prop where
  fields : FieldRow.AllBecome arrays rows r.fields
  paired : r.Paired
  findings : ∀ owner, Schema.recordFindings owner r = []

namespace Extraction

open FieldRow

variable {rows : List FieldRow}

theorem wired_of_allBecome {arrays : List String} {r : Record} (hrows : Agree rows)
    (h : AllBecome arrays rows r.fields) : r.Wired arrays rows :=
  ⟨h, h.paired hrows, (h.consistent hrows).findings_eq_nil⟩

/-- At the end a structure is there with its union-typed fields selected. -/
theorem exists_finished {s : Schema} {name : String} {r : Record}
    (h : (s.lookup? name).bind TypeEntry.record? = some r) :
    ∃ r', ((selectArrays s).linkUnions.lookup? name).bind TypeEntry.record? = some r' ∧
      r'.fields = r.fields.map (·.selectedIn s.arrayUnionNames) := by
  have hselect : s.RecastBy (fun _ x x' => x'.fields = x.fields.map
      (·.selectedIn s.arrayUnionNames)) (selectArrays s) :=
    .mapRecord (f := fun _ x => { x with fields := x.fields.map (·.selectedIn s.arrayUnionNames) })
      fun _ _ => rfl
  obtain ⟨x, hx, hfields⟩ := hselect.exists_found h
  obtain ⟨_, hlinked, rfl⟩ := Schema.recast_linkUnions.exists_found hx
  exact ⟨_, hlinked, hfields⟩

/-- Rows that agree can be added if their domains can be read, and wire up the fields of a structure.
So they are at the end, when union-typed fields have become arrays. -/
theorem wired_addFields (hrows : Agree rows) (owner : String) :
    ((∃ fields, rows.foldlM (addField owner) [] = .ok fields) ↔ ∀ row ∈ rows, HasDomain row) ∧
    ∀ r : Record, rows.foldlM (addField owner) [] = .ok r.fields → r.Wired [] rows ∧
      ∀ (s : Schema) (name : String), (s.lookup? name).bind TypeEntry.record? = some r →
        ∃ r', ((selectArrays s).linkUnions.lookup? name).bind TypeEntry.record? = some r' ∧
          r'.Wired s.arrayUnionNames rows := by
  refine ⟨exists_addFields_iff hrows, fun r hr => ?_⟩
  have hbecome := allBecome_addFields hrows hr
  refine ⟨wired_of_allBecome hrows hbecome, fun s name h => ?_⟩
  obtain ⟨r', hr', hfields⟩ := exists_finished h
  exact ⟨r', hr', wired_of_allBecome hrows (hfields ▸ hbecome.selectedIn)⟩

/-- A count with its array, a selector with two objects, and fields of other kinds between them. -/
def sampleRows : List FieldRow :=
  [{ name := "size", typeName := "UINT16" },
    { name := "hashAlg", typeName := "TPM_ALG_ID" },
    { name := "buffer", typeName := "BYTE", array := some "size" },
    { name := "digest", typeName := "TPMU_HA", selector := some "hashAlg" },
    { name := "magic", typeName := "UINT32", constant := some "TPM_GENERATED_VALUE" },
    { name := "key", typeName := "TPMU_KEY", selector := some "hashAlg" },
    { name := "pad", typeName := "BYTE", array := some "4" },
    { name := "rest", typeName := "BYTE", array := some "" }]

/-- The structure of the rows. -/
def sampleRecord : Record :=
  { fields :=
      [{ name := "size", typeName := "UINT16", marshal := .count, partner := some "buffer" },
        { name := "hashAlg", typeName := "TPM_ALG_ID", marshal := .selector, partner := some "key" },
        { name := "buffer", typeName := "BYTE", marshal := .countedArray, partner := some "size" },
        { name := "digest", typeName := "TPMU_HA", marshal := .unionBody, partner := some "hashAlg" },
        { name := "magic", typeName := "UINT32", marshal := .constant,
          domain := Domain.empty.addValue "TPM_GENERATED_VALUE" },
        { name := "key", typeName := "TPMU_KEY", marshal := .unionBody, partner := some "hashAlg" },
        { name := "pad", typeName := "BYTE", marshal := .fixedArray, arraySize := some "4" },
        { name := "rest", typeName := "BYTE", marshal := .restArray }] }

/-- A union whose only member is an array. -/
def sampleUnion : UnionType :=
  { members := [⟨"sha1", "BYTE", "TPM_ALG_SHA1", some "20", "", ""⟩] }

/-- The structure next to the union. -/
def sampleSchema : Schema :=
  { types := [TypeEntry.new "TPMS_SAMPLE" (.record sampleRecord),
      TypeEntry.new "TPMU_HA" (.union sampleUnion)] }

theorem wired_sampleRows : Agree sampleRows ∧
    sampleRows.foldlM (addField "TPMS_SAMPLE") [] = .ok sampleRecord.fields ∧
    sampleRecord.Wired [] sampleRows ∧
    ∃ r', ((selectArrays sampleSchema).linkUnions.lookup? "TPMS_SAMPLE").bind TypeEntry.record? =
      some r' ∧ r'.Wired ["TPMU_HA"] sampleRows := by
  have hrows : Agree sampleRows :=
    ⟨by decide, by decide, by decide, by decide, by decide, by decide⟩
  have hfields : sampleRows.foldlM (addField "TPMS_SAMPLE") [] = .ok sampleRecord.fields := by rfl
  have hunions : sampleSchema.arrayUnionNames = ["TPMU_HA"] := by rfl
  obtain ⟨-, hbecomed⟩ := wired_addFields hrows "TPMS_SAMPLE"
  obtain ⟨hadded, hfinished⟩ := hbecomed sampleRecord hfields
  exact ⟨hrows, hfields, hadded, hunions ▸ hfinished sampleSchema "TPMS_SAMPLE" (by rfl)⟩

end Extraction

end WireTables
