import WireTables.Proofs.Calculation
import WireTables.Proofs.Markers
import WireTables.Proofs.Text.Case

/-!
# What templates stand for

A table is told apart by where its markers stand, and everything that it stands for is settled with
that (`Table.expand_complete`). A name could make a marker together with the text around it, so that
no marker is left over only holds where every exclamation mark starts one.
-/

namespace WireTables

namespace Algorithm

variable {algorithms : List Algorithm} {a : Algorithm} {letters : List Char}

theorem hasClasses_iff : a.hasClasses letters = true ↔ ∀ c ∈ letters, c ∈ a.classes.toList := by
  simp [hasClasses]

/-- No algorithm has all the letters that are asked for. So it is where nothing is asked for. -/
def NoneHas (algorithms : List Algorithm) (asked : List Char → Prop) : Prop :=
  ∀ letters, asked letters → ∀ a ∈ algorithms, ∃ c ∈ letters, c ∉ a.classes.toList

section Matching

variable {asked : List Char → Prop} {found? : Option (List Char)}
  (hfound : ∀ letters, found? = some letters ↔ asked letters)
  (hne : ∀ letters, asked letters → letters ≠ [])

include hfound hne

theorem matching_of_asked (h : asked letters) :
    matching algorithms (found?.getD []) = algorithms.filter (·.hasClasses letters) := by
  rw [(hfound letters).mpr h, Option.getD_some, matching, List.isEmpty_eq_false_iff.mpr (hne _ h)]
  rfl

theorem matching_eq_nil_iff :
    matching algorithms (found?.getD []) = [] ↔ NoneHas algorithms asked := by
  constructor
  · intro h letters hasked a ha
    rw [matching_of_asked hfound hne hasked, List.filter_eq_nil_iff] at h
    simpa [hasClasses_iff] using h a ha
  · intro h
    cases hcase : found? with
    | none => rfl
    | some letters =>
      have hasked := (hfound letters).mp hcase
      rw [← hcase, matching_of_asked hfound hne hasked, List.filter_eq_nil_iff]
      intro a ha
      simpa [hasClasses_iff] using h letters hasked a ha

/-- Where algorithms are chosen, there are letters, and they are the algorithms that have them. -/
theorem exists_of_matching_ne_nil (h : matching algorithms (found?.getD []) ≠ []) :
    ∃ letters, asked letters ∧
      matching algorithms (found?.getD []) = algorithms.filter (·.hasClasses letters) := by
  cases hcase : found? with
  | none =>
    rw [hcase] at h
    exact (h rfl).elim
  | some letters =>
    have hasked := (hfound letters).mp hcase
    exact ⟨letters, hasked, hcase ▸ matching_of_asked hfound hne hasked⟩

end Matching

/-- A name without an exclamation mark leaves no marker over. -/
theorem not_occurs_substitute (ha : '!' ∉ a.mnemonic.toList) {text : String}
    (h : Marker.OnlyMarkers text.toList) : ¬ Marker.Occurs (a.substitute text).toList := by
  have huncased : Text.isUncased '!' = true := by decide
  rw [substitute, String.toList_ofList]
  exact Marker.not_occurs_of_notMem (Marker.notMem_replaceIn
    (fun hmem => ha (Text.mem_of_mem_upper huncased hmem))
    (fun hmem => ha (Text.mem_of_mem_lower huncased hmem)) h)

end Algorithm

/-! ## Rows -/

/-- All elements of a list are taken through a step that fails for one of them. -/
theorem mapM_fails_iff {ε α β : Type} {f : α → Except ε β} {xs : List α} :
    (∃ e, xs.mapM f = .error e) ↔ ∃ x ∈ xs, ∃ e, f x = .error e := by
  induction xs with
  | nil => exact iff_of_false (nomatch ·) (by simp)
  | cons x xs ih =>
    rw [List.mapM_cons, List.exists_mem_cons_iff, ← ih]
    cases hx : f x with
    | error e => exact iff_of_true ⟨e, rfl⟩ (.inl ⟨e, rfl⟩)
    | ok y =>
      cases hxs : xs.mapM f with
      | error e => exact iff_of_true ⟨e, rfl⟩ (.inr ⟨e, rfl⟩)
      | ok ys => exact iff_of_false (nomatch ·) (by simp)

namespace Table

/-- A marker stands in a cell of a row. -/
def RowMarked (cells : List String) : Prop :=
  ∃ cell ∈ cells, Marker.Occurs cell.toList

/-- The letters that the first marker with letters of a row asks for. -/
def RowAsks (cells : List String) (letters : List Char) : Prop :=
  ∃ before cell after, cells = before ++ cell :: after ∧ Marker.FirstAsks cell.toList letters ∧
    ∀ other ∈ before, ∀ letters, ¬ Marker.FirstAsks other.toList letters

/-- A row without a marker stands for itself, any other one for a row for each algorithm that has
the letters of its first marker with letters. -/
inductive RowStandsFor (algorithms : List Algorithm) (cells : List String) :
    List (List String) → Prop
  | itself : ¬ RowMarked cells → RowStandsFor algorithms cells [cells]
  | each {letters : List Char} : RowMarked cells → RowAsks cells letters →
      RowStandsFor algorithms cells
        ((algorithms.filter (·.hasClasses letters)).map (·.substituteRow cells))

variable {algorithms : List Algorithm} {cells : List String} {rows : List (List String)}
  {letters : List Char} {t : Table} {tables : List Table}

theorem rowHasMarker_iff : rowHasMarker cells = true ↔ RowMarked cells := by
  simp [rowHasMarker, RowMarked, Marker.occursIn_iff]

theorem findSome?_classesIn?_eq_some_iff (letters : List Char) :
    cells.findSome? Marker.classesIn? = some letters ↔ RowAsks cells letters := by
  rw [List.findSome?_eq_some_iff]
  simp only [Marker.classesIn?_eq_some_iff, Marker.classesIn?_eq_none_iff]
  rfl

theorem RowAsks.ne_nil (h : RowAsks cells letters) : letters ≠ [] := by
  obtain ⟨-, cell, -, -, h, -⟩ := h
  exact h.ne_nil

/-- What a row stands for, if it stands for something. -/
theorem expandRow_eq_ok (h : expandRow algorithms cells = .ok rows) :
    RowStandsFor algorithms cells rows := by
  unfold expandRow at h
  split at h
  · next hmarker =>
    dsimp only at h
    split at h
    · cases h
    · next hmatching =>
      cases h
      obtain ⟨letters, hletters, heq⟩ := Algorithm.exists_of_matching_ne_nil
        findSome?_classesIn?_eq_some_iff (fun _ => RowAsks.ne_nil) hmatching
      rw [heq]
      exact .each (rowHasMarker_iff.mp hmarker) hletters
  · next hmarker =>
    cases h
    exact .itself (mt rowHasMarker_iff.mpr hmarker)

theorem expandRow_fails_iff : (∃ u, expandRow algorithms cells = .error u) ↔
    RowMarked cells ∧ Algorithm.NoneHas algorithms (RowAsks cells) := by
  rw [← rowHasMarker_iff, ← Algorithm.matching_eq_nil_iff findSome?_classesIn?_eq_some_iff
    (fun _ => RowAsks.ne_nil)]
  unfold expandRow
  split
  · next hmarker =>
    dsimp only
    split
    · next hmatching => exact iff_of_true ⟨_, rfl⟩ ⟨hmarker, hmatching⟩
    · next hmatching => exact iff_of_false (nomatch ·) fun h => hmatching h.2
  · next hmarker => exact iff_of_false (nomatch ·) fun h => hmarker h.1

/-- A row with a name in it has no marker left, if every exclamation mark started one. -/
theorem not_rowMarked_substituteRow {a : Algorithm} (ha : '!' ∉ a.mnemonic.toList)
    (h : ∀ cell ∈ cells, Marker.OnlyMarkers cell.toList) : ¬ RowMarked (a.substituteRow cells) := by
  rintro ⟨_, hcell, hoccurs⟩
  obtain ⟨cell, hmem, rfl⟩ := List.mem_map.mp hcell
  exact Algorithm.not_occurs_substitute ha (h cell hmem) hoccurs

theorem RowStandsFor.not_rowMarked (hrows : RowStandsFor algorithms cells rows)
    (halgorithms : ∀ a ∈ algorithms, '!' ∉ a.mnemonic.toList)
    (h : ∀ cell ∈ cells, Marker.OnlyMarkers cell.toList) : ∀ row ∈ rows, ¬ RowMarked row := by
  intro row hrow
  cases hrows with
  | itself hnot =>
    rw [List.mem_singleton.mp hrow]
    exact hnot
  | each =>
    obtain ⟨a, ha, rfl⟩ := List.mem_map.mp hrow
    exact not_rowMarked_substituteRow (halgorithms a (List.mem_of_mem_filter ha)) h

/-! ## Tables -/

/-- A marker stands in the caption or in a cell. -/
def Marked (t : Table) : Prop :=
  Marker.Occurs t.caption.toList ∨ ∃ cells ∈ t.rows, RowMarked cells

/-- Every exclamation mark of the caption and of the cells starts a marker. -/
def OnlyMarkers (t : Table) : Prop :=
  Marker.OnlyMarkers t.caption.toList ∧
    ∀ cells ∈ t.rows, ∀ cell ∈ cells, Marker.OnlyMarkers cell.toList

instance : DecidablePred OnlyMarkers := fun t =>
  inferInstanceAs (Decidable (Marker.OnlyMarkers t.caption.toList ∧
    ∀ cells ∈ t.rows, ∀ cell ∈ cells, Marker.OnlyMarkers cell.toList))

/-- A table with a marker in its caption stands for a table for each algorithm that has the letters
of the first marker with letters; any other one stands for one table, in which each row gives way to
the rows that it stands for. -/
inductive StandsFor (algorithms : List Algorithm) (t : Table) : List Table → Prop
  | each {letters : List Char} : Marker.Occurs t.caption.toList →
      Marker.FirstAsks t.caption.toList letters →
      StandsFor algorithms t
        ((algorithms.filter (·.hasClasses letters)).map (·.substituteTable t))
  | rows {rows : List (List (List String))} : ¬ Marker.Occurs t.caption.toList →
      List.Forall₂ (RowStandsFor algorithms) t.rows rows →
      StandsFor algorithms t [{ t with rows := rows.flatten }]

/-- No algorithm has the letters that the caption asks for; or there is no marker in the caption, and
no algorithm has the letters that a row with a marker asks for. -/
def StandsForNothing (algorithms : List Algorithm) (t : Table) : Prop :=
  (Marker.Occurs t.caption.toList ∧
    Algorithm.NoneHas algorithms (Marker.FirstAsks t.caption.toList)) ∨
  (¬ Marker.Occurs t.caption.toList ∧
    ∃ cells ∈ t.rows, RowMarked cells ∧ Algorithm.NoneHas algorithms (RowAsks cells))

/-- The cells of each row, counted. -/
def shape (t : Table) : List Nat :=
  t.rows.map List.length

theorem any_rowHasMarker_iff : t.rows.any rowHasMarker = true ↔ ∃ cells ∈ t.rows, RowMarked cells := by
  simp only [List.any_eq_true, rowHasMarker_iff]

theorem expand_eq_none_iff : t.expand algorithms = .ok none ↔ ¬ t.Marked := by
  rw [Marked, ← Marker.occursIn_iff, ← any_rowHasMarker_iff]
  unfold expand
  split
  · next hcaption =>
    refine iff_of_false ?_ fun h => h (.inl hcaption)
    dsimp only
    split <;> exact (nomatch ·)
  · next hcaption =>
    split
    · next hrows =>
      refine iff_of_false (fun h => ?_) fun h => h (.inr hrows)
      obtain ⟨rows, -, h⟩ := bind_eq_ok.mp h
      cases h
    · next hrows => exact iff_of_true rfl (not_or.mpr ⟨hcaption, hrows⟩)

theorem expand_fails_iff :
    (∃ u, t.expand algorithms = .error u) ↔ t.StandsForNothing algorithms := by
  rw [StandsForNothing, ← Marker.occursIn_iff, ← Algorithm.matching_eq_nil_iff
    (fun _ => Marker.classesIn?_eq_some_iff) (fun _ => Marker.FirstAsks.ne_nil)]
  unfold expand
  split
  · next hcaption =>
    rw [or_iff_left fun h => h.1 hcaption, and_iff_right hcaption]
    dsimp only
    split
    · next hmatching => exact iff_of_true ⟨_, rfl⟩ hmatching
    · next hmatching => exact iff_of_false (nomatch ·) hmatching
  · next hcaption =>
    rw [or_iff_right fun h => hcaption h.1, and_iff_right hcaption]
    simp only [← expandRow_fails_iff, ← mapM_fails_iff]
    split
    · cases hrows : t.rows.mapM (expandRow algorithms) with
      | error u => exact iff_of_true ⟨u, rfl⟩ ⟨u, rfl⟩
      | ok rows => exact iff_of_false (nomatch ·) (nomatch ·)
    · next hnone =>
      refine iff_of_false (nomatch ·) fun h => ?_
      obtain ⟨cells, hcells, h⟩ := mapM_fails_iff.mp h
      exact hnone (any_rowHasMarker_iff.mpr ⟨cells, hcells, (expandRow_fails_iff.mp h).1⟩)

theorem expand_eq_some (h : t.expand algorithms = .ok (some tables)) :
    t.StandsFor algorithms tables := by
  unfold expand at h
  split at h
  · next hcaption =>
    dsimp only at h
    split at h
    · cases h
    · next hmatching =>
      cases h
      obtain ⟨letters, hletters, heq⟩ := Algorithm.exists_of_matching_ne_nil
        (fun _ => Marker.classesIn?_eq_some_iff) (fun _ => Marker.FirstAsks.ne_nil) hmatching
      rw [heq]
      exact .each (Marker.occursIn_iff.mp hcaption) hletters
  · next hcaption =>
    split at h
    · obtain ⟨rows, hrows, h⟩ := bind_eq_ok.mp h
      cases h
      exact .rows (mt Marker.occursIn_iff.mpr hcaption)
        ((mapM_eq_ok.mp hrows).imp fun _ _ => expandRow_eq_ok)
    · cases h

theorem StandsFor.not_marked (htables : t.StandsFor algorithms tables)
    (halgorithms : ∀ a ∈ algorithms, '!' ∉ a.mnemonic.toList) (h : t.OnlyMarkers) :
    ∀ u ∈ tables, ¬ u.Marked := by
  intro u hu
  cases htables with
  | each =>
    obtain ⟨a, ha, rfl⟩ := List.mem_map.mp hu
    have ha := halgorithms a (List.mem_of_mem_filter ha)
    rintro (hcaption | ⟨row, hrow, hmarked⟩)
    · exact Algorithm.not_occurs_substitute ha h.1 hcaption
    · obtain ⟨cells, hcells, rfl⟩ := List.mem_map.mp hrow
      exact not_rowMarked_substituteRow ha (h.2 cells hcells) hmarked
  | rows hcaption hrows =>
    rw [List.mem_singleton.mp hu]
    rintro (hoccurs | ⟨row, hrow, hmarked⟩)
    · exact hcaption hoccurs
    · obtain ⟨part, hpart, hrow⟩ := List.mem_flatten.mp hrow
      obtain ⟨cells, hcells, hstands⟩ := exists_of_forall₂ hrows hpart
      exact hstands.not_rowMarked halgorithms (h.2 cells hcells) row hrow hmarked

theorem StandsFor.shape_eq (htables : t.StandsFor algorithms tables)
    (hcaption : Marker.Occurs t.caption.toList) : ∀ u ∈ tables, u.shape = t.shape := by
  intro u hu
  cases htables with
  | each =>
    obtain ⟨a, -, rfl⟩ := List.mem_map.mp hu
    simp [shape, Algorithm.substituteTable, Algorithm.substituteRow]
  | rows hnot => exact (hnot hcaption).elim

/-- If every exclamation mark of a table starts a marker and no name has one, then a table without a
marker stays as it is, one that stands for nothing is refused, and any other one gives all the tables
that it stands for. They have no marker left, and those of a caption have the shape of their
template. -/
theorem expand_complete (halgorithms : ∀ a ∈ algorithms, '!' ∉ a.mnemonic.toList)
    (h : t.OnlyMarkers) :
    (t.expand algorithms = .ok none ↔ ¬ t.Marked) ∧
    ((∃ u, t.expand algorithms = .error u) ↔ t.StandsForNothing algorithms) ∧
    ∀ tables, t.expand algorithms = .ok (some tables) →
      t.StandsFor algorithms tables ∧ (∀ u ∈ tables, ¬ u.Marked) ∧
      (Marker.Occurs t.caption.toList → ∀ u ∈ tables, u.shape = t.shape) := by
  refine ⟨expand_eq_none_iff, expand_fails_iff, fun tables htables => ?_⟩
  have hstands := expand_eq_some htables
  exact ⟨hstands, hstands.not_marked halgorithms h, hstands.shape_eq⟩

/-- A template in a caption. -/
def digestTemplate : Table where
  caption := "Definition of TPMS_!ALG.H_DIGEST Structure"
  rows := [["digest[!ALG_SIZE]", "BYTE", "!alg digest"]]

/-- A template in a row. -/
def digestUnion : Table where
  caption := "Definition of TPMU_HA Union"
  rows := [["!alg.H [!ALG_DIGEST_SIZE]", "BYTE", "TPM_ALG_!ALG"], ["null", "", "TPM_ALG_NULL"]]

/-- Two algorithms of one class and one of another. -/
def sampleAlgorithms : List Algorithm :=
  [⟨"SHA1", "0x0004", "H"⟩, ⟨"AES", "0x0006", "S"⟩, ⟨"SHA256", "0x000B", "H"⟩]

theorem expand_samples :
    (∀ a ∈ sampleAlgorithms, '!' ∉ a.mnemonic.toList) ∧
    (digestTemplate.OnlyMarkers ∧ digestTemplate.StandsFor sampleAlgorithms
      [{ caption := "Definition of TPMS_SHA1_DIGEST Structure"
         rows := [["digest[SHA1_SIZE]", "BYTE", "sha1 digest"]] },
       { caption := "Definition of TPMS_SHA256_DIGEST Structure"
         rows := [["digest[SHA256_SIZE]", "BYTE", "sha256 digest"]] }]) ∧
    (digestUnion.OnlyMarkers ∧ digestUnion.StandsFor sampleAlgorithms
      [{ caption := "Definition of TPMU_HA Union"
         rows := [["sha1 [SHA1_DIGEST_SIZE]", "BYTE", "TPM_ALG_SHA1"],
           ["sha256 [SHA256_DIGEST_SIZE]", "BYTE", "TPM_ALG_SHA256"],
           ["null", "", "TPM_ALG_NULL"]] }]) := by
  have hnames : ∀ a ∈ sampleAlgorithms, '!' ∉ a.mnemonic.toList := by decide +kernel
  have htemplate : digestTemplate.OnlyMarkers := by decide +kernel
  have hunion : digestUnion.OnlyMarkers := by decide +kernel
  obtain ⟨-, -, htables⟩ := expand_complete hnames htemplate
  obtain ⟨-, -, hrows⟩ := expand_complete hnames hunion
  exact ⟨hnames, ⟨htemplate, (htables _ (by rfl)).1⟩, hunion, (hrows _ (by rfl)).1⟩

end Table

end WireTables
