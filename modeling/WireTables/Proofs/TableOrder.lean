import WireTables.Proofs.Additions
import WireTables.Proofs.Captions

/-!
# The place of algorithm tables

The registry does not depend on where tables of algorithms stand among the others
(`registry_of_interleaved`). They are read first, and are met once more when everything else is
read. By then the tables that they stand for must do nothing at all, which is more than a matter of
their own captions: a template is passed over only because the algorithms' names leave its caption
that of an algorithm table (`passes_over`). Only the report tells that these tables were met.
-/

namespace WireTables

namespace Build

/-- The steps leave the same schema, or fail alike, whatever else they give. -/
def Alike (m : Build α) (m' : Build β) : Prop :=
  ∀ s, (m s).map Prod.snd = (m' s).map Prod.snd

namespace Alike

theorem bind {m : Build α} {m' : Build β} {f : α → Build γ} {f' : β → Build δ} (h : Alike m m')
    (hf : ∀ a b, Alike (f a) (f' b)) : Alike (m >>= f) (m' >>= f') := by
  intro s
  have hs := h s
  show (Except.bind (m s) fun p => f p.1 p.2).map _ = (Except.bind (m' s) fun p => f' p.1 p.2).map _
  cases hm : m s with
  | error e =>
    cases hm' : m' s <;> rw [hm, hm'] at hs <;> cases hs
    rfl
  | ok p =>
    cases hm' : m' s with
    | error e => rw [hm, hm'] at hs; cases hs
    | ok p' =>
      rw [hm, hm'] at hs
      have hsame : p.2 = p'.2 := Except.ok.inj hs
      show (f p.1 p.2).map _ = (f' p'.1 p'.2).map _
      rw [hsame]
      exact hf _ _ _

theorem foldlM {f : β → α → Build β} (h : ∀ b b' x, Alike (f b x) (f b' x)) :
    ∀ (xs : List α) (b b' : β), Alike (xs.foldlM f b) (xs.foldlM f b')
  | [], _, _ => fun _ => rfl
  | x :: xs, b, b' => by
    rw [List.foldlM_cons, List.foldlM_cons]
    exact (h b b' x).bind fun c c' => foldlM h xs c c'

end Alike

theorem get_bind_apply (f : Schema → Build α) (s : Schema) : (get >>= f) s = f s s :=
  rfl

end Build

namespace Extraction

open Build

variable {config : Config}

/-- No algorithm has a bracket in its name. -/
def NamesUnbracketed (s : Schema) : Prop :=
  ∀ a ∈ s.algorithms, Caption.Unbracketed a.mnemonic.toList

theorem unbracketed_of_isName {name : String} (h : Table.isName name = true) (head : String) :
    Caption.Unbracketed (Text.dropHead head name).toList := by
  have bracket {c : Char} (hc : Caption.isBracket c = true) :
      Text.isNameStart c = false ∧ Text.isWord c = false := by
    simp only [Caption.isBracket, Bool.or_eq_true, beq_iff_eq] at hc
    rcases hc with ((rfl | rfl) | rfl) | rfl <;> decide
  have hname : Caption.Unbracketed name.toList := by
    intro c hc
    by_contra hbracket
    obtain ⟨hstart, hword⟩ := bracket (by simpa using hbracket)
    unfold Table.isName Text.isName at h
    split at h
    · cases h
    · next first rest hchars =>
      rw [hchars] at hc
      rw [Bool.and_eq_true] at h
      rcases List.mem_cons.mp hc with rfl | hc
      · cases hstart.symm.trans h.1
      · cases hword.symm.trans (List.all_eq_true.mp h.2 c hc)
  unfold Text.dropHead Text.dropHead? Text.dropHeadChars?
  split
  · intro c hc
    rw [Option.map_some, Option.getD_some, String.toList_ofList] at hc
    exact hname c (List.mem_of_mem_drop hc)
  · exact hname

theorem additive_namesUnbracketed : Additive (fun _ => True) NamesUnbracketed where
  addType _ hs ha := by
    unfold Schema.addType at ha
    split at ha
    · cases ha
    · cases ha
      exact hs
  constants hs := hs
  algorithm hname hs a ha := by
    rcases List.mem_append.mp ha with ha | ha
    · exact hs a ha
    · rw [List.mem_singleton.mp ha]
      exact unbracketed_of_isName hname _
  modifyType _ hs := hs

theorem addTable_keepsNames (t : Table) (kind : TableKind) :
    Preserves NamesUnbracketed (addTable config t kind) fun _ => True :=
  additive_namesUnbracketed.addTable_preserves ⟨trivial, fun _ _ => trivial, fun _ => trivial⟩ t kind

theorem addAlgorithmTable_of_other {t : Table} (h : isAlgorithmTable t = false)
    (report : ExtractionReport) : addAlgorithmTable config report t = pure report := by
  unfold isAlgorithmTable at h
  unfold addAlgorithmTable
  split
  · next hkind =>
    rw [hkind] at h
    cases h
  · rfl

theorem addExpandedTable_of_algorithms {t : Table} (h : isAlgorithmTable t = true)
    (report : ExtractionReport) : addExpandedTable config report t = pure report := by
  unfold isAlgorithmTable at h
  unfold addExpandedTable
  split at h
  · next hkind => rw [hkind]
  · cases h

section Expansion

variable {s : Schema} {t : Table} {report : ExtractionReport}

theorem addOtherTable_of_unclassified {u : Table.Unclassified}
    (h : t.expand s.algorithms = .error u) : addOtherTable config report t s =
      .ok ({ report with skipped := report.skipped ++
        [(t.caption, .unclassifiedAlgorithm u.classes)] }, s) := by
  unfold addOtherTable
  rw [get_bind_apply, h]
  rfl

theorem addOtherTable_of_plain (h : t.expand s.algorithms = .ok none) :
    addOtherTable config report t s = addExpandedTable config report t s := by
  unfold addOtherTable
  rw [get_bind_apply, h]

theorem addOtherTable_of_template {tables : List Table}
    (h : t.expand s.algorithms = .ok (some tables)) : addOtherTable config report t s =
      tables.foldlM (addExpandedTable config)
        { report with expanded := report.expanded + tables.length } s := by
  unfold addOtherTable
  rw [get_bind_apply, h]

end Expansion

/-- In the first round only the tables of algorithms count. -/
theorem foldlM_addAlgorithmTable (tables : List Table) (report : ExtractionReport) :
    tables.foldlM (addAlgorithmTable config) report =
      (tables.filter isAlgorithmTable).foldlM (addAlgorithmTable config) report := by
  induction tables generalizing report with
  | nil => rfl
  | cons t tables ih =>
    cases ht : isAlgorithmTable t with
    | false =>
      rw [List.filter_cons_of_neg (by simp [ht]), List.foldlM_cons, addAlgorithmTable_of_other ht,
        pure_bind, ih]
    | true =>
      rw [List.filter_cons_of_pos ht, List.foldlM_cons, List.foldlM_cons]
      exact congrArg _ (funext ih)

/-- The tables that a table of algorithms stands for are tables of algorithms. -/
theorem isAlgorithmTable_of_expand {algorithms : List Algorithm} {t : Table} {tables : List Table}
    (halgorithms : ∀ a ∈ algorithms, Caption.Unbracketed a.mnemonic.toList)
    (ht : isAlgorithmTable t = true) (h : t.expand algorithms = .ok (some tables)) :
    ∀ u ∈ tables, isAlgorithmTable u = true := by
  obtain ⟨base, hkind⟩ : ∃ base, Caption.kind? t.caption = some (.algorithms base) := by
    unfold isAlgorithmTable at ht
    split at ht
    · exact ⟨_, ‹_›⟩
    · cases ht
  unfold Table.expand at h
  split at h
  · dsimp only at h
    split at h
    · cases h
    · cases h
      intro u hu
      obtain ⟨a, ha, rfl⟩ := List.mem_map.mp hu
      have ha : a ∈ algorithms := by
        unfold Algorithm.matching at ha
        split at ha
        · cases ha
        · exact List.mem_of_mem_filter ha
      unfold isAlgorithmTable Algorithm.substituteTable
      rw [Algorithm.kind?_substitute (halgorithms a ha) hkind]
  · split at h
    · obtain ⟨rows, -, h⟩ := bind_eq_ok.mp h
      cases h
      intro u hu
      rw [List.mem_singleton.mp hu]
      exact ht
    · cases h

/-- In the second round a table of algorithms does nothing, and neither do those that it stands
for. -/
theorem passes_over {s : Schema} (hs : NamesUnbracketed s) {t : Table}
    (ht : isAlgorithmTable t = true) (report : ExtractionReport) :
    ∃ report', addOtherTable config report t s = .ok (report', s) := by
  cases hexpand : t.expand s.algorithms with
  | error u => exact ⟨_, addOtherTable_of_unclassified hexpand⟩
  | ok expansion =>
    cases expansion with
    | none =>
      rw [addOtherTable_of_plain hexpand, addExpandedTable_of_algorithms ht]
      exact ⟨_, rfl⟩
    | some tables =>
      rw [addOtherTable_of_template hexpand]
      have hall := isAlgorithmTable_of_expand hs ht hexpand
      clear hexpand
      generalize ({ report with expanded := report.expanded + tables.length } : ExtractionReport) =
        start
      induction tables generalizing start with
      | nil => exact ⟨start, rfl⟩
      | cons u tables ih =>
        rw [List.foldlM_cons, addExpandedTable_of_algorithms (hall u List.mem_cons_self), pure_bind]
        exact ih (fun v hv => hall v (List.mem_cons_of_mem u hv)) start

theorem alike_addExpandedTable (report report' : ExtractionReport) (t : Table) :
    Alike (addExpandedTable config report t) (addExpandedTable config report' t) := by
  unfold addExpandedTable
  split
  · exact fun _ => rfl
  · exact Alike.bind (fun _ => rfl) fun _ _ _ => rfl
  · exact fun _ => rfl

/-- What a table adds does not depend on the report. -/
theorem alike_addOtherTable (report report' : ExtractionReport) (t : Table) :
    Alike (addOtherTable config report t) (addOtherTable config report' t) := by
  intro s
  cases hexpand : t.expand s.algorithms with
  | error u =>
    rw [addOtherTable_of_unclassified hexpand, addOtherTable_of_unclassified hexpand]
    rfl
  | ok expansion =>
    cases expansion with
    | none =>
      rw [addOtherTable_of_plain hexpand, addOtherTable_of_plain hexpand]
      exact alike_addExpandedTable _ _ t s
    | some tables =>
      rw [addOtherTable_of_template hexpand, addOtherTable_of_template hexpand]
      exact Alike.foldlM alike_addExpandedTable _ _ _ s

/-- In the second round only the other tables count. -/
theorem foldlM_addOtherTable (tables : List Table) {s : Schema} (hs : NamesUnbracketed s)
    (report : ExtractionReport) :
    (tables.foldlM (addOtherTable config) report s).map Prod.snd =
      ((tables.filter (!isAlgorithmTable ·)).foldlM (addOtherTable config) report s).map
        Prod.snd := by
  induction tables generalizing s report with
  | nil => rfl
  | cons t tables ih =>
    cases ht : isAlgorithmTable t with
    | true =>
      obtain ⟨report', hover⟩ : ∃ report', addOtherTable config report t s = .ok (report', s) :=
        passes_over hs ht report
      rw [List.filter_cons_of_neg (by simp [ht]), List.foldlM_cons]
      show (Except.bind (addOtherTable config report t s) fun p => _).map _ = _
      rw [hover]
      exact (ih hs report').trans (Alike.foldlM alike_addOtherTable _ _ _ s)
    | false =>
      rw [List.filter_cons_of_pos (by simp [ht]), List.foldlM_cons, List.foldlM_cons]
      show (Except.bind _ _).map _ = (Except.bind _ _).map _
      cases hadd : addOtherTable config report t s with
      | error e => rfl
      | ok p =>
        have hnext : NamesUnbracketed p.2 :=
          (addOtherTable_preserves addTable_keepsNames report t s p.1 p.2 hadd hs).1
        exact ih hnext p.1

/-- The schema of tables with the same tables of algorithms and the same others, each in the same
order. -/
theorem alike_addTables {tables tables' : List Table}
    (halgorithms : tables.filter isAlgorithmTable = tables'.filter isAlgorithmTable)
    (hothers : tables.filter (!isAlgorithmTable ·) = tables'.filter (!isAlgorithmTable ·))
    {s : Schema} (hs : NamesUnbracketed s) :
    (addTables config tables s).map Prod.snd = (addTables config tables' s).map Prod.snd := by
  unfold addTables
  rw [foldlM_addAlgorithmTable tables, foldlM_addAlgorithmTable tables', halgorithms]
  show (Except.bind _ _).map _ = (Except.bind _ _).map _
  cases hfirst : (tables'.filter isAlgorithmTable).foldlM (addAlgorithmTable config) {} s with
  | error e => rfl
  | ok p =>
    have hnext : NamesUnbracketed p.2 := (Preserves.foldlM (R := fun _ => True) trivial
      (fun _ _ _ _ => addAlgorithmTable_preserves addTable_keepsNames _ _) s p.1 p.2 hfirst hs).1
    show (tables.foldlM (addOtherTable config) p.1 p.2).map _ =
      (tables'.foldlM (addOtherTable config) p.1 p.2).map _
    rw [foldlM_addOtherTable tables hnext, foldlM_addOtherTable tables' hnext, hothers]

/-- Where the tables of algorithms stand among the others changes neither the registry nor the
failure. -/
theorem registry_of_interleaved (config : Config) {tables tables' : List Table}
    (halgorithms : tables.filter isAlgorithmTable = tables'.filter isAlgorithmTable)
    (hothers : tables.filter (!isAlgorithmTable ·) = tables'.filter (!isAlgorithmTable ·)) :
    (extract tables config).map Prod.fst = (extract tables' config).map Prod.fst := by
  have hadded : (addTables config tables
        { Schema.initial with algPrefix := config.algPrefix }).map Prod.snd =
      (addTables config tables' { Schema.initial with algPrefix := config.algPrefix }).map
        Prod.snd := alike_addTables halgorithms hothers nofun
  unfold extract
  show (Except.bind _ _).map _ = (Except.bind _ _).map _
  cases htables : addTables config tables { Schema.initial with algPrefix := config.algPrefix } with
  | error e =>
    cases htables' : addTables config tables' { Schema.initial with algPrefix := config.algPrefix }
    all_goals
      rw [htables, htables'] at hadded
      cases hadded
    rfl
  | ok p =>
    cases htables' : addTables config tables' { Schema.initial with algPrefix := config.algPrefix }
    with
    | error e =>
      rw [htables, htables'] at hadded
      cases hadded
    | ok p' =>
      rw [htables, htables'] at hadded
      have hsame : p.2 = p'.2 := Except.ok.inj hadded
      obtain ⟨report, s⟩ := p
      obtain ⟨report', s'⟩ := p'
      obtain rfl : s = s' := hsame
      dsimp only [Except.bind]
      split <;> rfl

section Dyes

/-- A table of algorithms that is a template itself: its marker stands in braces. -/
def firstDyes : Table :=
  { caption := "Table 1 — Definition of (UINT16) \x7b!ALG.D\x7d TPM_ALG_ID Constants",
    rows := [["TPM_ALG_RED", "1", "D", "", ""], ["TPM_ALG_NULL", "0", "", "", ""]] }

/-- One more table of algorithms. -/
def moreDyes : Table :=
  { caption := "Table 2 — Definition of (UINT16) TPM_ALG_ID Constants",
    rows := [["TPM_ALG_BLUE", "2", "D", "", ""]] }

/-- A structure for each dye. -/
def dyeShades : Table :=
  { caption := "Table 3 — Definition of TPMS_!ALG.D Structure", rows := [["shade", "UINT8", ""]] }

/-- A union with a member for each dye. -/
def dyeUnion : Table :=
  { caption := "Table 4 — Definition of TPMU_DYE Union",
    rows := [["!ALG.D", "TPMS_!ALG.D", "TPM_ALG_!ALG.D"], ["none", "", "TPM_ALG_NULL"]] }

theorem dye_facts :
    [firstDyes, moreDyes, dyeShades, dyeUnion].filter isAlgorithmTable =
        [dyeShades, firstDyes, dyeUnion, moreDyes].filter isAlgorithmTable ∧
      [firstDyes, moreDyes, dyeShades, dyeUnion].filter (!isAlgorithmTable ·) =
        [dyeShades, firstDyes, dyeUnion, moreDyes].filter (!isAlgorithmTable ·) ∧
      (extract [firstDyes, moreDyes, dyeShades, dyeUnion] {}).isOk = true := by
  decide +kernel

/-- Templates in front of the algorithms that they stand for give the same registry. -/
theorem registry_of_dyes_interleaved :
    [firstDyes, moreDyes, dyeShades, dyeUnion].filter isAlgorithmTable =
        [dyeShades, firstDyes, dyeUnion, moreDyes].filter isAlgorithmTable ∧
      [firstDyes, moreDyes, dyeShades, dyeUnion].filter (!isAlgorithmTable ·) =
        [dyeShades, firstDyes, dyeUnion, moreDyes].filter (!isAlgorithmTable ·) ∧
      (extract [firstDyes, moreDyes, dyeShades, dyeUnion] {}).isOk = true ∧
      (extract [firstDyes, moreDyes, dyeShades, dyeUnion] {}).map Prod.fst =
        (extract [dyeShades, firstDyes, dyeUnion, moreDyes] {}).map Prod.fst := by
  obtain ⟨halgorithms, hothers, hok⟩ := dye_facts
  exact ⟨halgorithms, hothers, hok, registry_of_interleaved {} halgorithms hothers⟩

end Dyes

end Extraction

end WireTables
