import WireTables.Proofs.Codec
import WireTables.Proofs.Normal.Fieldless
import WireTables.Proofs.Normal.Separation
import WireTables.Source.Statement

/-!
# Union members in sources

Generated sources read a union value in two steps: the factory of the union makes an object for the
selector value, with one case for each member that denotes a structure, and what has been made reads
itself. The codec reads the member that the selector value chooses. Both take the same bytes where
that member denotes a structure, and where it stands for absence and its structure has no fields;
but a factory makes nothing of a number, and of an absent member it makes a structure with all its
fields (`factory_reads_member`).
-/

namespace WireTables

namespace Source

/-- The members of a union that its factory makes objects of, in the order of the cases. -/
def madeMembers (s : Schema) (u : UnionType) : List UnionMember :=
  u.members.filter fun m => s.isRecord m.typeName

/-- The member that the factory makes an object of: that of the first case with the selector
value. -/
def made? (r : Registry) (u : UnionType) (n : Int) : Option UnionMember :=
  (madeMembers r.toSchema u).find? fun m =>
    (r.calculate (·.constantValue m.selector)).1.toOption == some n

/-- Reads what the factory has made, if it has made anything. -/
def readMade (reads : String → Wire.Reading Wire.Value) : Option UnionMember → Wire.Reading Unit
  | some m => do
    let _ ← reads m.typeName
  | none => return ()

/-- The factory has one case for each of these members, in every language. -/
theorem factoryCases_eq_ok {d : Dialect} {s : Schema} {u : UnionType}
    {cases : List (String × String)} : d.factoryCases s u = .ok cases ↔
      List.Forall₂ (fun m c => constantName s m.selector = .ok c.1 ∧
        d.typeName s m.typeName = .ok c.2) (madeMembers s u) cases := by
  unfold Dialect.factoryCases madeMembers
  rw [mapM_eq_ok]
  have hcase : ∀ (m : UnionMember) (c : String × String),
      ((do return (← constantName s m.selector, ← d.typeName s m.typeName)) = .ok c) ↔
        constantName s m.selector = .ok c.1 ∧ d.typeName s m.typeName = .ok c.2 := by
    rintro m ⟨constant, type⟩
    simp only [bind_eq_ok]
    constructor
    · rintro ⟨_, hconstant, _, htype, hpair⟩
      cases hpair
      exact ⟨hconstant, htype⟩
    · rintro ⟨hconstant, htype⟩
      exact ⟨_, hconstant, _, htype, rfl⟩
  simp only [hcase]

end Source

namespace Wire

variable {α β : Type} {known : Known}

/-- Two ways to read take the same bytes wherever they start: the one ends well where the other
does, and at the same place. -/
def SameBytes (known : Known) (reads : Reading α) (reads' : Reading β) : Prop :=
  ∀ ρ ρ', ρ.known = known → ((∃ a, Yields reads ρ a ρ') ↔ ∃ b, Yields reads' ρ b ρ')

/-- Reading ends well wherever it starts, and takes no bytes. -/
def TakesNothing (known : Known) (reads : Reading α) : Prop :=
  ∀ ρ, ρ.known = known → ∃ a, Yields reads ρ a ρ

theorem sameBytes_of_takesNothing {reads : Reading α} {reads' : Reading β}
    (h : TakesNothing known reads) : SameBytes known reads reads' ↔ TakesNothing known reads' := by
  constructor
  · exact fun hsame ρ hρ => (hsame ρ ρ hρ).mp (h ρ hρ)
  · intro h' ρ ρ' hρ
    obtain ⟨a, ha⟩ := h ρ hρ
    obtain ⟨b, hb⟩ := h' ρ hρ
    constructor
    · rintro ⟨a', ha'⟩
      obtain rfl := (ha.unique ha').2
      exact ⟨b, hb⟩
    · rintro ⟨b', hb'⟩
      obtain rfl := (hb.unique hb').2
      exact ⟨a, ha⟩

theorem exists_yields_readMade {reads : String → Reading Value} {m : UnionMember} {ρ ρ' : Reader} :
    (∃ a, Yields (Source.readMade reads (some m)) ρ a ρ') ↔
      ∃ v, Yields (reads m.typeName) ρ v ρ' := by
  unfold Source.readMade
  simp only [yields_bind, yields_pure]
  constructor
  · rintro ⟨_, v, _, hv, -, rfl⟩
    exact ⟨v, hv⟩
  · rintro ⟨v, hv⟩
    exact ⟨⟨⟩, v, _, hv, trivial, rfl⟩

section Chosen

variable {r : Registry} {s : Schema} {u : UnionType} {n : Int} {m : UnionMember} {i : Nat}

/-- The codec and the factory choose the same member where the factory has a case for it. -/
theorem made?_of_chooses (h : Chooses r.toSchema r.known n u.members.zipIdx m i)
    (hrecord : r.isRecord m.typeName = true) : Source.made? r u n = some m := by
  have value : ∀ {m : UnionMember} {n' : Int},
      Yields (r.toSchema.constantValue m.selector) r.known n' r.known →
        (r.calculate (·.constantValue m.selector)).1.toOption = some n' := fun hv => by
    rw [Registry.calculate_eq_ok.mpr ⟨_, hv⟩]
    rfl
  unfold Source.made? Source.madeMembers
  generalize u.members = members at h
  generalize 0 = start at h
  induction members generalizing start with
  | nil => cases h
  | cons first rest ih =>
    rw [List.zipIdx_cons] at h
    cases h with
    | here hv =>
      rw [List.filter_cons_of_pos (by simpa using hrecord)]
      exact List.find?_cons_of_pos (by simp [value hv])
    | later hv hne hrest =>
      rw [List.filter_cons]
      split
      · rw [List.find?_cons_of_neg (by simpa [value hv] using hne)]
        exact ih _ hrest
      · exact ih _ hrest

/-- What is read of a union is what is read of the member that is chosen. -/
theorem yields_readUnion_of_chooses {union : String} {reads : String → Reading Value}
    (hs : r.Settled) (hu : (r.lookup? union).bind TypeEntry.union? = some u)
    (h : Chooses r.toSchema r.known n u.members.zipIdx m i) {ρ ρ' : Reader} {v : Value}
    (hρ : ρ.known = r.known) :
    Yields (readUnion r.toSchema reads union n) ρ v ρ' ↔
      ReadsMember r.toSchema (fun type ρ v ρ' => ρ.known = r.known ∧ Yields (reads type) ρ v ρ')
        u m i ρ v ρ' := by
  rw [yields_readUnion hs.remembers (fun _ _ _ _ hρ => (and_iff_right hρ).symm) hρ]
  constructor
  · rintro ⟨u', m', i', hu', hm', hread⟩
    cases hu.symm.trans hu'
    obtain ⟨rfl, rfl⟩ := h.unique hm'
    exact hread
  · exact fun hread => ⟨u, m, i, hu, h, hread⟩

end Chosen

/-- A structure without fields takes no bytes. -/
theorem takesNothing_of_fieldless {r : Registry} (hs : r.Settled) (hnames : r.names.Nodup)
    {type : String} (h : r.Fieldless type) (levels : Nat) :
    TakesNothing r.known (decodeAt r.toSchema (levels + 1) type) := by
  obtain ⟨t, x, hrecord, hless⟩ := h.recordOf? hnames
  obtain ⟨htarget, hx⟩ := Schema.recordOf?_eq_some.mp hrecord
  have hfields : r.allFields type = .ok [] :=
    Schema.collectFields_succ.mpr ⟨t, x, htarget, hx, .inl ⟨hless.base, hless.fields.symm⟩⟩
  have hplan : Plan r.toSchema r.known type [] none := by
    constructor
    · unfold layout
      rw [hfields]
      rfl
    · unfold tailEnd recordType
      simp only [hrecord, pure_bind, hless.tail]
      rfl
  exact fun ρ hρ => ⟨_, ((decodes_succ hs.remembers).mpr ⟨hρ, [], none, [], hplan, .done, rfl⟩).2⟩

end Wire

open Wire Source

/-- What the codec reads of a union and what the object that the factory makes reads are the same
bytes if the selector value chooses a member that denotes a structure. They are not if it chooses
another type, which the factory makes nothing of. And if it chooses the absent member, of which the
codec reads nothing, they are the same just when what the factory makes takes nothing; as it does
if it is a structure that had no fields from the start. -/
theorem factory_reads_member {config : Config} {r₀ r : Registry} (hnames : r₀.names.Nodup)
    (hy : Yields (Edit.normalize config) r₀ () r) (hs : r.Settled) {t : TypeEntry} {u : UnionType}
    (htu : (t, u) ∈ r.unions) {n : Int} {m : UnionMember} {i : Nat}
    (hchosen : Chooses r.toSchema r.known n u.members.zipIdx m i) (levels : Nat) :
    (u.nullMember ≠ some i → r.isRecord m.typeName = true → made? r u n = some m ∧
      SameBytes r.known (readUnion r.toSchema (decodeAt r.toSchema (levels + 1)) t.specName n)
        (readMade (decodeAt r.toSchema (levels + 1)) (made? r u n))) ∧
    (u.nullMember ≠ some i → r.isRecord m.typeName = false → made? r u n = none →
      ¬ SameBytes r.known
        (readUnion r.toSchema (decodeAt r.toSchema (levels + 1)) t.specName n)
        (readMade (decodeAt r.toSchema (levels + 1)) (made? r u n))) ∧
    (u.nullMember = some i →
      (SameBytes r.known
        (readUnion r.toSchema (decodeAt r.toSchema (levels + 1)) t.specName n)
        (readMade (decodeAt r.toSchema (levels + 1)) (made? r u n)) ↔
          TakesNothing r.known (readMade (decodeAt r.toSchema (levels + 1)) (made? r u n))) ∧
      (r₀.Fieldless m.typeName →
        TakesNothing r.known (readMade (decodeAt r.toSchema (levels + 1)) (made? r u n)))) := by
  have hpasses := (Edit.passes_of_normalize hy).1
  have hunique : r.names.Nodup := (Edit.becomes_of_passes hpasses).names hnames
  obtain ⟨ht, -, hu⟩ := Schema.mem_unions.mp htu
  have hlookup : (r.lookup? t.specName).bind TypeEntry.union? = some u := by
    rw [Schema.lookup?_of_mem hunique ht]
    exact hu
  have hread : ∀ {ρ ρ' v}, ρ.known = r.known →
      (Yields (readUnion r.toSchema (decodeAt r.toSchema (levels + 1)) t.specName n) ρ v ρ' ↔ _) :=
    fun hρ => yields_readUnion_of_chooses hs hlookup hchosen hρ
  refine ⟨fun hpresent hrecord => ?_, fun hpresent hother hnone hsame => ?_,
    fun habsent => ⟨?_, fun hless => ?_⟩⟩
  · have hmade := made?_of_chooses hchosen hrecord
    refine ⟨hmade, fun ρ ρ' hρ => ?_⟩
    rw [hmade, exists_yields_readMade]
    constructor
    · rintro ⟨v, hv⟩
      cases (hread hρ).mp hv with
      | absent hi => exact (hpresent hi).elim
      | record _ _ h => exact ⟨_, h.2⟩
      | scalar _ hr => cases hrecord.symm.trans hr
    · rintro ⟨v, hv⟩
      exact ⟨_, (hread hρ).mpr (.record hpresent hrecord ⟨hρ, hv⟩)⟩
  · -- at the end of its input the codec fails, and nothing is read of nothing
    obtain ⟨v, hv⟩ := (hsame ⟨[], 0, r.known⟩ ⟨[], 0, r.known⟩ rfl).mpr (by
      rw [hnone]
      exact ⟨⟨⟩, rfl⟩)
    cases (hread rfl).mp hv with
    | absent hi => exact hpresent hi
    | record _ hr => cases hother.symm.trans hr
    | scalar _ _ _ h =>
      obtain ⟨hle, hvalue, -⟩ := yields_readScalar.mp h
      exact absurd hle (Nat.not_le.mpr (readSize_pos hvalue))
  · refine sameBytes_of_takesNothing fun ρ hρ => ⟨_, (hread hρ).mpr (.absent habsent)⟩
  · have hless' := Edit.fieldless_of_passes hnames hless hpasses
    have hrecord : r.isRecord m.typeName = true := by
      obtain ⟨t', x, hx, -⟩ := hless'.recordOf? hunique
      unfold Schema.isRecord
      rw [hx]
      rfl
    rw [made?_of_chooses hchosen hrecord]
    exact fun ρ hρ => exists_yields_readMade.mpr
      (takesNothing_of_fieldless hs hunique hless' levels ρ hρ)

section Tints

/-- Colors that are structures, numbers or absent, and tints whose absent member shares the
structure of the other one. -/
def tintTables : List Table :=
  [{ caption := "Table 1 — Definition of (UINT16) TPM_ALG_ID Constants", comment := "",
     rows := [["TPM_ALG_RED", "1", "A", "", ""], ["TPM_ALG_BLUE", "2", "A", "", ""],
       ["TPM_ALG_NULL", "0", "A", "", ""]], handleCount := 0 },
   { caption := "Table 2 — Definition of TPMS_COLOR Structure", comment := "",
     rows := [["shade", "UINT8", ""]], handleCount := 0 },
   { caption := "Table 3 — Definition of TPMU_COLOR Union", comment := "",
     rows := [["red", "TPMS_COLOR", "TPM_ALG_RED", ""], ["blue", "UINT8", "TPM_ALG_BLUE", ""],
       ["none", "", "TPM_ALG_NULL", ""]], handleCount := 0 },
   { caption := "Table 4 — Definition of TPMU_TINT Union", comment := "",
     rows := [["red", "TPMS_COLOR", "TPM_ALG_RED", ""],
       ["none", "TPMS_COLOR", "TPM_ALG_NULL", ""]], handleCount := 0 }]

/-- The registry that the tables of tints are extracted to. -/
def extractedTints : Registry :=
  match Extraction.extract tintTables {} with
  | .ok (r, _) => r
  | .error _ => default

/-- The registry of tints in normal form. -/
def tints : Registry :=
  (Id.run ((Edit.normalize {}).run extractedTints)).2

/-- The union of colors. -/
def colorUnion : UnionType :=
  { members := [{ name := "red", typeName := "TPMS_COLOR", selector := "TPM_ALG_RED" },
      { name := "blue", typeName := "UINT8", selector := "TPM_ALG_BLUE" },
      { name := "none", typeName := "TPMS_NULL_COLOR", selector := "TPM_ALG_NULL" }]
    nullMember := some 2 }

/-- The union of tints in normal form. -/
def tintUnion : UnionType :=
  { members := [{ name := "red", typeName := "TPMS_COLOR_RED", selector := "TPM_ALG_RED" },
      { name := "none", typeName := "TPMS_COLOR_NULL", selector := "TPM_ALG_NULL" }]
    nullMember := some 1 }

theorem tint_facts :
    (Extraction.extract tintTables {}).toOption.map (·.1) = some extractedTints ∧
      extractedTints.names.Nodup ∧
      (Id.run ((Edit.normalize {}).run extractedTints)).1.toOption = some () ∧
      tints.unions.map (fun p => (p.1.specName, p.2)) =
        [("TPMU_COLOR", colorUnion), ("TPMU_TINT", tintUnion)] ∧
      ["TPMS_COLOR", "UINT8"].map tints.isRecord = [true, false] ∧
      made? tints colorUnion 2 = none ∧
      (made? tints tintUnion 0).map (·.typeName) = some "TPMS_COLOR_NULL" ∧
      (extractedTints.types.any fun t => t.specName == "TPMS_NULL_COLOR" &&
        t.record?.any fun x => x.fields == [] && x.base == none && x.nullTail == none) = true ∧
      (Id.run ((decodeAt tints.toSchema 1 "TPMS_COLOR_NULL").run
        ⟨[], 0, tints.known⟩)).1.toOption.isNone = true ∧
      Id.run ((tints.toSchema.constantValue "TPM_ALG_RED").run tints.known) =
        (.ok 1, tints.known) ∧
      Id.run ((tints.toSchema.constantValue "TPM_ALG_BLUE").run tints.known) =
        (.ok 2, tints.known) ∧
      Id.run ((tints.toSchema.constantValue "TPM_ALG_NULL").run tints.known) =
        (.ok 0, tints.known) := by
  decide +kernel

theorem tints_settled : tints.Settled := by
  obtain ⟨hextract, -, hnormal, -⟩ := tint_facts
  obtain ⟨⟨r, report⟩, hextract, rfl⟩ := Option.map_eq_some_iff.mp hextract
  have hnormalized : tints.Normalized tintTables {} :=
    ⟨_, report, ok_of_toOption hextract, yields_of_toOption hnormal⟩
  exact hnormalized.normal.tailed.sound.settled

/-- The codec and the sources read the same bytes of colors that are red or absent. They do not of
blue ones, nor of absent tints, which the sources read a shade of. -/
theorem factory_reads_tints :
    (extractedTints.names.Nodup ∧ Yields (Edit.normalize {}) extractedTints () tints ∧
      tints.Settled) ∧
    (∃ t t', (t, colorUnion) ∈ tints.unions ∧ t.specName = "TPMU_COLOR" ∧
      (t', tintUnion) ∈ tints.unions ∧ t'.specName = "TPMU_TINT") ∧
    SameBytes tints.known (readUnion tints.toSchema (decodeAt tints.toSchema 1) "TPMU_COLOR" 1)
      (readMade (decodeAt tints.toSchema 1) (made? tints colorUnion 1)) ∧
    ¬ SameBytes tints.known (readUnion tints.toSchema (decodeAt tints.toSchema 1) "TPMU_COLOR" 2)
      (readMade (decodeAt tints.toSchema 1) (made? tints colorUnion 2)) ∧
    SameBytes tints.known (readUnion tints.toSchema (decodeAt tints.toSchema 1) "TPMU_COLOR" 0)
      (readMade (decodeAt tints.toSchema 1) (made? tints colorUnion 0)) ∧
    ¬ SameBytes tints.known (readUnion tints.toSchema (decodeAt tints.toSchema 1) "TPMU_TINT" 0)
      (readMade (decodeAt tints.toSchema 1) (made? tints tintUnion 0)) := by
  obtain ⟨-, hnames, hnormal, hunions, hrecords, hnone, hnull, hless, hfails, hred, hblue,
    habsent⟩ := tint_facts
  have hy : Yields (Edit.normalize {}) extractedTints () tints := yields_of_toOption hnormal
  have hmem : ∀ {name u}, (name, u) ∈ [("TPMU_COLOR", colorUnion), ("TPMU_TINT", tintUnion)] →
      ∃ t, (t, u) ∈ tints.unions ∧ t.specName = name := fun {name u} hp => by
    obtain ⟨⟨t, u'⟩, htu, heq⟩ := List.mem_map.mp (hunions ▸ hp)
    cases heq
    exact ⟨t, htu, rfl⟩
  obtain ⟨color, hcolor, hcolorName⟩ := hmem List.mem_cons_self
  obtain ⟨tint, htint, htintName⟩ := hmem (List.mem_cons_of_mem _ List.mem_cons_self)
  have hfieldless : extractedTints.Fieldless "TPMS_NULL_COLOR" := by
    obtain ⟨t, ht, h⟩ := List.any_eq_true.mp hless
    obtain ⟨hname, h⟩ := Bool.and_eq_true_iff.mp h
    obtain ⟨x, hx, h⟩ := (Option.any_eq_true _ _).mp h
    simp only [Bool.and_eq_true, beq_iff_eq] at h
    exact ⟨t, ht, beq_iff_eq.mp hname, x, hx, h.1.1, h.1.2, h.2⟩
  have hnonzero : (1 : Int) ≠ 0 ∧ (2 : Int) ≠ 0 ∧ (1 : Int) ≠ 2 := by decide
  refine ⟨⟨hnames, hy, tints_settled⟩, ⟨color, tint, hcolor, hcolorName, htint, htintName⟩,
    ?_, ?_, ?_, ?_⟩
  · have h := factory_reads_member hnames hy tints_settled hcolor (.here hred) 0
    exact hcolorName ▸ (h.1 (by decide) (List.cons.inj hrecords).1).2
  · have h := factory_reads_member hnames hy tints_settled hcolor
      (.later hred hnonzero.2.2 (.here hblue)) 0
    exact hcolorName ▸ h.2.1 (by decide) (List.cons.inj (List.cons.inj hrecords).2).1 hnone
  · have h := factory_reads_member hnames hy tints_settled hcolor
      (.later hred hnonzero.1 (.later hblue hnonzero.2.1 (.here habsent))) 0
    obtain ⟨hiff, htakes⟩ := h.2.2 rfl
    exact hcolorName ▸ hiff.mpr (htakes hfieldless)
  · have h := factory_reads_member hnames hy tints_settled htint
      (.later hred hnonzero.1 (.here habsent)) 0
    obtain ⟨m, hm, hname⟩ := Option.map_eq_some_iff.mp hnull
    intro hsame
    have htakes := (h.2.2 rfl).1.mp (htintName ▸ hsame)
    rw [hm] at htakes
    -- a shade is missing at the end of the input
    obtain ⟨v, hv⟩ := exists_yields_readMade.mp (htakes ⟨[], 0, tints.known⟩ rfl)
    rw [hname] at hv
    unfold Yields at hv
    rw [hv] at hfails
    cases hfails

end Tints

end WireTables
