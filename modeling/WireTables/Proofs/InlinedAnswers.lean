import WireTables.Proofs.Flattening
import WireTables.Proofs.WireSize

/-!
# Sizes that inlining keeps

A size that is calculated before wrappers are inlined is calculated afterwards, and is the same
(`wireSize_inlineWrappers`), as long as no number of elements is negative. Then the sums on the way
grow from one field to the next, so that they are words wherever the last one is; what is asked
about the pieces of a wrapper nests less deep than what was asked about its fields; and of the
largest values that an inlined field and its wrapper allow, that of the wrapper comes first. Without
the condition it fails, as `not_decoded_after_inlining` shows for a length; and a size may well be
calculated afterwards only, where structures were too deep inside each other before.
-/

namespace WireTables

/-- The largest value that two domains allow is that of the first one, if it has one. -/
theorem Domain.maximum?_merge {d e : Domain} {text : String} (h : d.maximum? = some text) :
    (d.merge e).maximum? = some text := by
  unfold maximum? merge at *
  rw [List.findSome?_append, h]
  rfl

namespace Schema

section Sums

theorem fitsWord_of_total? {sizes : List Int} : ∀ {start n : Int}, fitsWord start = true →
    total? start sizes = some n → fitsWord n = true := by
  induction sizes with
  | nil =>
    rintro start n hstart ⟨⟩
    exact hstart
  | cons size sizes ih =>
    intro start n _ h
    rw [total?, List.foldlM_cons] at h
    obtain ⟨next, hadd, h⟩ := Option.bind_eq_some_iff.mp h
    exact ih (checkedWord_eq_some hadd).2 h

/-- Sums of sizes that are not negative are words on the way if they are in the end. -/
theorem total?_of_nonneg {sizes : List Int} : ∀ {start : Int}, 0 ≤ start →
    (∀ size ∈ sizes, 0 ≤ size) → fitsWord (start + sizes.sum) = true →
      total? start sizes = some (start + sizes.sum) := by
  induction sizes with
  | nil =>
    intro start _ _ _
    rw [List.sum_nil, Int.add_zero]
    rfl
  | cons size sizes ih =>
    intro start hstart hsizes hfits
    have hsize := hsizes size List.mem_cons_self
    have hrest : ∀ size ∈ sizes, 0 ≤ size := fun x hx => hsizes x (List.mem_cons_of_mem _ hx)
    have hsum := List.sum_nonneg hrest
    rw [List.sum_cons, ← Int.add_assoc] at hfits ⊢
    have hnext : checkedWord (start + size) = some (start + size) := by
      unfold checkedWord
      rw [if_pos]
      simp only [fitsWord, Bool.and_eq_true, decide_eq_true_eq] at hfits ⊢
      omega
    rw [total?, List.foldlM_cons, hnext]
    exact ih (by omega) hrest hfits

end Sums

section Depth

variable {s : Schema} {known : Known} {sub sub' : Query → Int → Prop} {type : String}
  {depth depth' nesting : Nat} {n : Int}

/-- Only the largest value of a domain matters for the number of elements. -/
theorem CountOf.of_maximum {f g : Field} (h : CountOf sub f n) (hm : g.marshal = f.marshal)
    (hsize : g.arraySize = f.arraySize)
    (hmax : ∀ text, f.domain.maximum? = some text → g.domain.maximum? = some text) :
    CountOf sub g n := by
  unfold CountOf countText? at h ⊢
  rw [hm, hsize]
  cases hk : f.marshal <;> rw [hk] at h
  case countedArray | restArray =>
    obtain ⟨text, htext, hn⟩ := h
    exact ⟨text, hmax text htext, hn⟩
  all_goals exact h

theorem FieldSizeOf.shallower {f : Field} (hle : depth ≤ depth')
    (hsub : ∀ type depth depth' n, depth ≤ depth' → sub (.size type depth') n →
      sub (.size type depth) n) (h : FieldSizeOf sub depth' f n) : FieldSizeOf sub depth f n := by
  obtain ⟨e, c, he, hc, hn⟩ := h
  exact ⟨e, c, hsub _ _ _ _ (by omega) he, hc, hn⟩

/-- A size that is found is found as well where the question nests less deep. -/
theorem AnswerIn.shallower (hle : depth ≤ depth')
    (h : AnswerIn s known nesting (.size type depth') n) :
    AnswerIn s known nesting (.size type depth) n := by
  induction nesting generalizing type depth depth' n with
  | zero => exact h.elim
  | succ nesting ih =>
    cases h with
    | @size _ _ t _ hd ht hn =>
      refine .size (by omega) ht ?_
      generalize t.kind = kind at hn
      cases kind with
      | value c => exact hn
      | aliasOf a | enum e | bitfield b => exact ih (by omega) hn
      | record r =>
        obtain ⟨fields, sizes, hf, hs, htotal⟩ := hn
        exact ⟨fields, sizes, hf,
          hs.imp fun _ _ h => h.shallower hle fun _ _ _ _ hle h => ih hle h, htotal⟩
      | union u =>
        obtain ⟨sizes, hs, hmax⟩ := hn
        refine ⟨sizes, hs.imp ?_, hmax⟩
        rintro m size ⟨c, e, hc, he, hsize⟩
        exact ⟨c, e, hc, ih (by omega) he, hsize⟩

/-- The size of a further name is that of what it names, asked for one level deeper. -/
theorem AnswerIn.target {t : TypeEntry} (ht : s.target type = .ok t)
    (h : AnswerIn s known nesting (.size type depth) n) :
    ∃ nesting' ≤ nesting, ∃ depth', depth ≤ depth' ∧
      AnswerIn s known nesting' (.size t.specName depth') n := by
  have follow : ∀ {hops nesting depth : Nat} {t t' : TypeEntry} {name : String},
      AnswerIn s known nesting (.size t.specName depth) n → s.lookup? t.specName = some t →
        s.followAliases name hops t = .ok t' → ∃ nesting' ≤ nesting, ∃ depth', depth ≤ depth' ∧
          AnswerIn s known nesting' (.size t'.specName depth') n := by
    intro hops
    induction hops with
    | zero => exact fun _ _ hf => nomatch hf
    | succ hops ih =>
      intro nesting depth t t' name h ht hf
      unfold followAliases at hf
      split at hf
      · next a hk =>
        obtain ⟨next, hnext, hf⟩ := bind_eq_ok.mp hf
        have hnext := require_eq_ok.mp hnext
        have hname := (mem_of_lookup? hnext).2
        cases nesting with
        | zero => exact h.elim
        | succ nesting =>
          cases h with
          | size _ ht' hn =>
            cases ht.symm.trans ht'
            rw [hk] at hn
            have hbase : AnswerIn s known nesting (.size a.base (depth + 1)) _ := hn
            obtain ⟨nesting', hle, depth', hdepth, h⟩ := ih (hname ▸ hbase) (hname ▸ hnext) hf
            exact ⟨nesting', by omega, depth', by omega, h⟩
      · cases hf
        exact ⟨nesting, Nat.le_refl _, depth, Nat.le_refl _, h⟩
  obtain ⟨first, hfirst, hf⟩ := bind_eq_ok.mp ht
  have hfirst := require_eq_ok.mp hfirst
  have hname := (mem_of_lookup? hfirst).2
  exact follow (hname ▸ h) (hname ▸ hfirst) hf

end Depth

/-- What becomes of a schema of tables in which no number of elements is negative when its wrappers
are inlined. -/
structure InlinesCounted (config : Config) (s s' : Schema) (known : Known) : Prop
    extends Inlined config s s' where
  tabled : s.Tabled
  complete : s.Complete known
  counts : s.CountsNonnegative known

namespace InlinesCounted

variable {config : Config} {s s' : Schema} {known : Known}
  (h : InlinesCounted config s s' known) {nesting depth : Nat} {n : Int}

/-- What is answered before is answered afterwards. -/
def AnswersKept (s s' : Schema) (known : Known) (nesting : Nat) : Prop :=
  ∀ q n, AnswerIn s known nesting q n → AnswerIn s' known nesting q n

/-- The fields of structures have sizes afterwards if they had before, and their pieces have the
same sizes together. -/
def SumsKept (config : Config) (s s' : Schema) (known : Known) (nesting : Nat) : Prop :=
  ∀ t ∈ s.types, ∀ r, t.record? = some r → ∀ depth sizes,
    List.Forall₂ (FieldSizeOf (AnswerIn s known nesting) depth) r.fields sizes →
      ∃ sizes', List.Forall₂ (FieldSizeOf (AnswerIn s' known nesting) depth)
          (r.expand (s'.pieces config t.specName)).fields sizes' ∧
        (∀ size ∈ sizes', 0 ≤ size) ∧ sizes'.sum = sizes.sum

include h

theorem nonneg (hle : nesting ≤ s.nesting) {type : String}
    (ha : AnswerIn s known nesting (.size type depth) n) : 0 ≤ n := by
  have hshaped : s.Shaped (TypeEntry.Meets Record.Tabled (· = true)) := h.tabled
  exact ha.nonneg h.complete h.counts (fun _ ht _ hk => hshaped.standard_of_mem ht hk) hle

/-- A structure is the sum of its fields, which are asked for no less deep and with less room. -/
theorem exists_sizes {type : String} {t : TypeEntry} {r : Record}
    (hrecord : s.recordOf? type = some (t, r))
    (ha : AnswerIn s known nesting (.size type depth) n) :
    ∃ nesting' < nesting, ∃ depth' ≥ depth, ∃ sizes,
      List.Forall₂ (FieldSizeOf (AnswerIn s known nesting') depth') r.fields sizes ∧
        total? 0 sizes = some n := by
  obtain ⟨ht, hr⟩ := recordOf?_eq_some.mp hrecord
  obtain ⟨nesting', hle, depth', hdepth, ha⟩ := ha.target ht
  cases nesting' with
  | zero => exact ha.elim
  | succ nesting' =>
    cases ha with
    | size _ ht' hn =>
      cases (lookup?_of_target ht).1.symm.trans ht'
      rw [TypeEntry.kind_of_record? hr] at hn
      obtain ⟨fields, sizes, hf, hs, htotal⟩ := hn
      obtain ⟨t', r', hrecord', rfl⟩ := (allFields_eq_ok h.tabled.bases).mp hf
      cases (recordOf?_specName hrecord).symm.trans hrecord'
      exact ⟨nesting', by omega, depth', hdepth, sizes, hs, htotal⟩

/-- A field that has a size has pieces of the same size together. -/
theorem exists_sizes_pieces (hle : nesting ≤ s.nesting) (hanswers : AnswersKept s s' known nesting)
    (hsums : ∀ nesting' < nesting, SumsKept config s s' known nesting') {t : TypeEntry}
    {r : Record} (ht : t ∈ s.types) (hr : t.record? = some r) {f : Field} (hf : f ∈ r.fields)
    (hsize : FieldSizeOf (AnswerIn s known nesting) depth f n) :
    ∃ sizes, List.Forall₂ (FieldSizeOf (AnswerIn s' known nesting) depth)
        (s'.pieces config t.specName f) sizes ∧ (∀ size ∈ sizes, 0 ≤ size) ∧ sizes.sum = n := by
  unfold pieces
  split
  · next tag data hw =>
    obtain ⟨⟨hplain, -⟩, t', r', hrecord', -, hwraps⟩ := wrapperOf?_eq_some.mp hw
    obtain ⟨⟨t₀, r₀⟩, hrecord, hsame⟩ :=
      Option.map_eq_some_iff.mp (h.toInlined.recordOf?_eq.symm.trans hrecord')
    obtain ⟨-, hexpand⟩ := Prod.mk.inj hsame
    obtain ⟨e, c, he, hcount, hn⟩ := hsize
    obtain rfl : c = 1 := by
      unfold CountOf countText? at hcount
      rwa [hplain] at hcount
    -- the wrapper has the size of its fields, and they are the pieces but for their names
    obtain ⟨nesting', hlt, depth', hdepth, sizes, hs, htotal⟩ := h.exists_sizes hrecord he
    obtain ⟨hmem, hr₀⟩ := mem_of_recordOf? hrecord
    obtain ⟨sizes', hs', hnonneg, hsum⟩ := hsums nesting' hlt t₀ hmem r₀ hr₀ depth' sizes hs
    have hfields : (r₀.expand (s'.pieces config t₀.specName)).fields = [tag, data] := by
      rw [← hwraps.fields, ← hexpand]
    have hout : ∀ g size, FieldSizeOf (AnswerIn s' known nesting') depth' g size →
        FieldSizeOf (AnswerIn s' known nesting) depth g size := fun g size hg =>
      (hg.shallower (by omega) fun _ _ _ _ hle ha => ha.shallower hle).mono fun _ _ =>
        AnswerIn.mono (by omega)
    rw [hfields] at hs'
    refine ⟨sizes', ?_, hnonneg, ?_⟩
    · obtain _ | ⟨htag, _ | ⟨hdata, _ | _⟩⟩ := hs'
      obtain ⟨e', c', he', hcount', hn'⟩ := hout data _ hdata
      exact .cons (hout tag _ htag) (.cons ⟨e', c', he', hcount'.of_maximum rfl rfl
        fun text => Domain.maximum?_merge, hn'⟩ .nil)
    · rw [hsum, checkedWord_eq hn, total?_eq htotal]
      omega
  · obtain ⟨e, c, he, hcount, hn⟩ := hsize
    refine ⟨[n], .cons ⟨e, c, hanswers _ _ he, hcount.mono hanswers, hn⟩ .nil, ?_,
      List.sum_singleton⟩
    intro size hmem
    rw [List.mem_singleton.mp hmem, checkedWord_eq hn]
    exact Int.mul_nonneg (h.nonneg hle he) (hcount.nonneg h.complete h.counts hle ht hr hf)

theorem sumsKept (hle : nesting ≤ s.nesting) (hanswers : AnswersKept s s' known nesting)
    (hsums : ∀ nesting' < nesting, SumsKept config s s' known nesting') :
    SumsKept config s s' known nesting := by
  intro t ht r hr depth sizes hs
  have along : ∀ {fields : List Field}, (∀ f ∈ fields, f ∈ r.fields) → ∀ {sizes : List Int},
      List.Forall₂ (FieldSizeOf (AnswerIn s known nesting) depth) fields sizes →
        ∃ sizes', List.Forall₂ (FieldSizeOf (AnswerIn s' known nesting) depth)
            (fields.flatMap (s'.pieces config t.specName)) sizes' ∧
          (∀ size ∈ sizes', 0 ≤ size) ∧ sizes'.sum = sizes.sum := by
    intro fields hfields sizes hs
    induction hs with
    | nil => exact ⟨[], .nil, fun _ hx => (List.not_mem_nil hx).elim, rfl⟩
    | @cons f size fields sizes hf _ ih =>
      obtain ⟨rest, hrest, hnonneg, hsum⟩ := ih fun g hg => hfields g (List.mem_cons_of_mem _ hg)
      obtain ⟨first, hfirst, hnonneg', hsum'⟩ :=
        h.exists_sizes_pieces hle hanswers hsums ht hr (hfields f List.mem_cons_self) hf
      refine ⟨first ++ rest, List.rel_append hfirst hrest, fun x hx => ?_, ?_⟩
      · exact (List.mem_append.mp hx).elim (hnonneg' x) (hnonneg x)
      · rw [List.sum_append, List.sum_cons, hsum, hsum']
  exact along (fun _ hf => hf) hs

/-- One question more is answered afterwards as it was before. -/
theorem answersKept_succ (hanswers : AnswersKept s s' known nesting)
    (hsums : SumsKept config s s' known nesting) : AnswersKept s s' known (nesting + 1) := by
  intro q n ha
  cases ha with
  | constant hr hk => exact .constant ((h.toInlined.resolveConstant? _).trans hr) hk
  | @size type depth t _ hd ht hn =>
    have ht' : s'.lookup? type = some (t.expand (s'.pieces config t.specName)) := by
      conv_lhs => rw [h.eq_expand]
      rw [lookup?_expand, ht]
      rfl
    refine .size hd ht' ?_
    cases hr : t.record? with
    | none =>
      rw [TypeEntry.expand_of_not_record hr]
      have hn := hn.mono hanswers
      obtain ⟨id, specName, name, comment, implemented, kind⟩ := t
      cases kind with
      | record r => cases hr
      | _ => exact hn
    | some r =>
      rw [TypeEntry.kind_of_record? hr] at hn
      rw [TypeEntry.expand_of_record? hr]
      have hrecord := recordOf?_of_lookup? ht hr
      obtain ⟨fields, sizes, hf, hs, htotal⟩ := hn
      obtain ⟨_, _, hrecord', rfl⟩ := (allFields_eq_ok h.tabled.bases).mp hf
      cases hrecord.symm.trans hrecord'
      obtain ⟨sizes', hs', hnonneg, hsum⟩ := hsums t (mem_of_lookup? ht).1 r hr depth sizes hs
      refine ⟨_, sizes', ?_, hs', ?_⟩
      · have hr' : (t.expand (s'.pieces config t.specName)).record? =
            some (r.expand (s'.pieces config t.specName)) := by
          rw [TypeEntry.record?_expand, hr]
          rfl
        exact (allFields_eq_ok (h.toInlined.tabled h.tabled).bases).mpr
          ⟨_, _, recordOf?_of_lookup? ht' hr', rfl⟩
      · have hfits := fitsWord_of_total? rfl htotal
        rw [total?_eq htotal, ← hsum] at hfits ⊢
        exact total?_of_nonneg (Int.le_refl _) hnonneg hfits

/-- What is answered before inlining is answered afterwards. -/
theorem answersKept (hle : nesting ≤ s.nesting) :
    AnswersKept s s' known nesting ∧ SumsKept config s s' known nesting := by
  induction nesting using Nat.strong_induction_on with
  | _ nesting ih =>
    have hanswers : AnswersKept s s' known nesting := by
      cases nesting with
      | zero => exact fun _ _ ha => ha.elim
      | succ nesting =>
        obtain ⟨hanswers, hsums⟩ := ih nesting (Nat.lt_succ_self _) (by omega)
        exact h.answersKept_succ hanswers hsums
    exact ⟨hanswers, h.sumsKept hle hanswers fun nesting' hlt => (ih nesting' hlt (by omega)).2⟩

theorem nesting_eq : s'.nesting = s.nesting := by
  have hlength : s'.types.length = s.types.length := by
    conv_lhs => rw [h.eq_expand]
    exact List.length_map _
  unfold nesting
  rw [hlength]

/-- A size that is calculated before inlining is calculated afterwards. -/
theorem wireSize_kept {type : String} {size : Nat}
    (hy : Yields (s.wireSize type) known size known) :
    Yields (s'.wireSize type) known size known := by
  have ha := ((yields_wireSize h.complete).mp hy).1
  have ha' := (h.answersKept (Nat.le_refl _)).1 _ _ ha
  rw [← h.nesting_eq] at ha'
  exact (yields_wireSize (h.toInlined.complete h.complete)).mpr ⟨ha', rfl⟩

end InlinesCounted

end Schema

/-- Inlining wrappers keeps every size that can be calculated, if no number of elements is
negative. -/
theorem wireSize_inlineWrappers {tables : List Table} {config config' : Config} {r r' : Registry}
    {report : ExtractionReport} {n : Nat}
    (hextract : Extraction.extract tables config' = .ok (r, report))
    (hcounts : r.toSchema.CountsNonnegative r.known)
    (hinline : Yields (Edit.inlineWrappers config) r n r') {type : String} {size : Nat}
    (hsize : r.wireSize type = .ok size) : r'.wireSize type = .ok size := by
  obtain ⟨hs, htabled⟩ := Extraction.tabled_of_extract hextract
  obtain ⟨hinlined, hknown⟩ := Edit.inlined_of_inlineWrappers htabled.names hinline
  have hkept : Schema.InlinesCounted config r.toSchema r'.toSchema r.known :=
    { hinlined with tabled := htabled, complete := hs.complete, counts := hcounts }
  obtain ⟨known, hy⟩ := Registry.calculate_eq_ok.mp hsize
  obtain rfl := ((Schema.yields_wireSize hs.complete).mp hy).2
  have hy' := hkept.wireSize_kept hy
  rw [← hknown] at hy'
  exact Registry.calculate_eq_ok.mpr ⟨_, hy'⟩

section Boxes

/-- A box around sized bytes, a structure of two boxes with a narrower one among them, and bytes as
many as this structure has. -/
def boxTables : List Table :=
  [{ caption := "Table 1 — Definition of TPM2B_DATA Structure", comment := "",
     rows := [["size", "UINT16", ""], ["buffer[size]\x7b:4\x7d", "BYTE", ""]], handleCount := 0 },
   { caption := "Table 2 — Definition of TPMS_BOX Structure", comment := "",
     rows := [["data", "TPM2B_DATA", ""]], handleCount := 0 },
   { caption := "Table 3 — Definition of TPMS_BOXES Structure", comment := "",
     rows := [["first", "TPMS_BOX", ""], ["second\x7b:2\x7d", "TPM2B_DATA", ""],
       ["third", "TPMS_BOX", ""]], handleCount := 0 },
   { caption := "Table 4 — Definition of TPMS_RAW Structure", comment := "",
     rows := [["size", "UINT16", ""], ["raw[size]\x7b:sizeof(TPMS_BOXES)\x7d", "BYTE", ""]],
     handleCount := 0 }]

/-- The tables are extracted, four fields are inlined, and no number of elements is negative. -/
theorem box_facts :
    (Extraction.extract boxTables {}).toOption.isSome = true ∧
      (Id.run ((Edit.inlineWrappers {}).run (extractedOf boxTables))).1.toOption = some 4 ∧
      ((extractedOf boxTables).types.all fun t => t.countTexts.all fun text =>
        (Id.run (((extractedOf boxTables).evaluate text).run
          (extractedOf boxTables).known)).1.toOption.all (0 ≤ ·)) = true ∧
      ((extractedOf boxTables).wireSize "TPMS_RAW").toOption = some 20 ∧
      ((inlinedOf boxTables).allFields "TPMS_BOXES").toOption.map (·.map (·.name)) =
        some ["firstDataSize", "first", "secondSize", "second", "thirdDataSize", "third"] := by
  decide +kernel

/-- Bytes as many as a structure has are as many where the boxes in it are inlined. -/
theorem wireSize_boxes : ∃ report n,
    Extraction.extract boxTables {} = .ok (extractedOf boxTables, report) ∧
      Yields (Edit.inlineWrappers {}) (extractedOf boxTables) n (inlinedOf boxTables) ∧
      (extractedOf boxTables).wireSize "TPMS_RAW" = .ok 20 ∧
      (inlinedOf boxTables).wireSize "TPMS_RAW" = .ok 20 ∧
      ((inlinedOf boxTables).allFields "TPMS_BOXES").toOption.map (·.map (·.name)) =
        some ["firstDataSize", "first", "secondSize", "second", "thirdDataSize", "third"] := by
  obtain ⟨hextracted, hinlined, hcounts, hsize, hnames⟩ := box_facts
  obtain ⟨report, hextract⟩ := extract_extractedOf hextracted
  have hinline : Yields (Edit.inlineWrappers {}) (extractedOf boxTables) 4 (inlinedOf boxTables) :=
    yields_of_toOption hinlined
  have hsize := ok_of_toOption hsize
  exact ⟨report, 4, hextract, hinline, hsize,
    wireSize_inlineWrappers hextract (Registry.countsNonnegative_of_all hcounts) hinline hsize,
    hnames⟩

end Boxes

end WireTables
