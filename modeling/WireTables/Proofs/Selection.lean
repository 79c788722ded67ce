import WireTables.Proofs.Normal.Basic
import WireTables.Proofs.Normal.Objects
import WireTables.Proofs.WireSize

/-!
# What a selector is derived from

A selector whose value is not part of a structure is derived from a union-typed field, and it names
that field, its object. Whether it is derived and what it names come from different rows: it is
derived if any field of a union is chosen by it, and names the last field that was. If a later row or
a pass made something else of that field, the selector is still derived, but from nothing
(`exists_union_of_derived`). So the object is an array, or a count or selector itself, or has gone
away with the count that it was; otherwise it is a union chosen by the selector.
-/

namespace WireTables

namespace Wire

/-- The step puts an array on the wire, or the count or the selector of another field. -/
def Op.isReused : Op → Bool
  | .array .. | .count .. | .selector .. => true
  | _ => false

variable {s : Schema} {fields : List Field} {f : Field} {op : Op} {isData : Bool}

theorem Travels.of_unionBody {tag : String} (h : Travels s fields f op isData)
    (hm : f.marshal = .unionBody) (hp : f.partner = some tag) : op = .union f.typeName tag := by
  cases h <;> simp_all

/-- What a union-typed field was made is no single value and no union. -/
theorem Travels.isReused (h : Travels s fields f op isData) (hm : f.marshal.isReused = true) :
    op.isReused = true := by
  cases hmarshal : f.marshal <;> rw [hmarshal] at hm <;> cases hm <;> cases h <;>
    first | rfl | simp_all

variable {tables : List Table} {config : Config} {r : Registry} {type : String}
  {steps : List Step} {st : Step} {c : Scalar} {object : String}

/-- A derived selector chooses the member of some union. The field that it names as its object is
such a union, unless it is no field any more, or travels as an array, a count or a selector; in a
structure whose tail may be absent this takes different names of all fields. -/
theorem exists_union_of_derived (hr : r.Normalized tables config) (h : r.layout type = .ok steps)
    (hst : st ∈ steps) (hop : st.op = .selector c object true) :
    (∃ u ∈ steps, ∃ union, u.op = .union union st.field.name) ∧
      (config.nullTails = [] ∨ r.toSchema.DistinctNames type →
        (∀ u ∈ steps, u.field.name ≠ object) ∨ ∃ u ∈ steps, u.field.name = object ∧
          (u.op = .union u.field.typeName st.field.name ∨ u.op.isReused = true)) := by
  obtain ⟨known, hlayout⟩ := Registry.calculate_eq_ok.mp h
  obtain ⟨fields, hfields, hmap, htravels⟩ := steps_of_layout hlayout
  have htravel := htravels st hst
  rw [hop] at htravel
  obtain ⟨hm, hpartner, hderived, -⟩ := htravel.selector_inv
  obtain ⟨g, hg, hbody⟩ := List.any_eq_true.mp hderived.symm
  rw [Bool.and_eq_true, beq_iff_eq, beq_iff_eq] at hbody
  obtain ⟨u, hu, rfl⟩ := step_of_field hmap hg (by rw [hbody.1]; decide)
  have hunion := (htravels u hu).of_unionBody hbody.1 hbody.2
  refine ⟨⟨u, hu, u.field.typeName, hunion⟩, fun hclear => ?_⟩
  obtain ⟨t, ht, x, hx, hnormal, rfl, -, -⟩ := hr.normal.exists_of_allFields hfields
  have hkeeps : ObjectsKept x.fields := by
    rcases hr.keepsObjects.entries t ht x hx with hkeeps | ⟨hconfig, htail⟩
    · exact hkeeps.objects
    · -- with different names there is no union-typed field beside an absent tail
      rcases hclear with hnone | hnames
      · exact (hconfig hnone).elim
      · exact (hnormal.tailUnion htail u.field hg
          (List.nodup_iff_count_le_one.mp (hnames _ hfields) _) hbody.1).elim
  rcases hkeeps st.field (field_of_step hmap hst) hm with hnone | hof
  · exact .inl fun v hv hname => hnone v.field (field_of_step hmap hv) (hname.symm ▸ hpartner)
  · obtain ⟨v, hv, hname, hobject⟩ := hof object hpartner
    have hsize : v.marshal ≠ .bodySize := by
      intro hsize
      unfold Field.IsObject at hobject
      rw [hsize] at hobject
      rcases hobject with ⟨hobject, -⟩ | hobject <;> cases hobject
    obtain ⟨w, hw, rfl⟩ := step_of_field hmap hv hsize
    exact .inr ⟨w, hw, hname, hobject.imp (fun h => (htravels w hw).of_unionBody h.1 h.2)
      (htravels w hw).isReused⟩

section Letter

/-- Letters whose body is of their kind, and parcels with a seal of their kind besides. -/
def letterTables : List Table :=
  [{ caption := "Table 1 — Definition of (UINT16) TPM_KIND Constants",
     rows := [["TPM_KIND_WORD", "1", ""], ["TPM_KIND_LONG", "2", ""]] },
   { caption := "Table 2 — Definition of TPMU_BODY Union",
     rows := [["word", "UINT16", "TPM_KIND_WORD", ""], ["long", "UINT32", "TPM_KIND_LONG", ""]] },
   { caption := "Table 3 — Definition of TPMU_SEAL Union",
     rows := [["wax[2]", "BYTE", "TPM_KIND_WORD", ""], ["stamp[4]", "UINT8", "TPM_KIND_LONG", ""]] },
   { caption := "Table 4 — Definition of TPMS_LETTER Structure",
     rows := [["kind", "TPM_KIND", ""], ["[kind]body", "TPMU_BODY", ""]] },
   { caption := "Table 5 — Definition of TPMS_PARCEL Structure",
     rows := [["kind", "TPM_KIND", ""], ["[kind]body", "TPMU_BODY", ""],
       ["[kind]seal", "TPMU_SEAL", ""]] }]

/-- The registry of letters. -/
def letters : Registry :=
  (Registry.ofTables? letterTables {}).getD default

/-- The tables of letters have a normal form; the plans of letters and parcels in it. -/
theorem letter_facts :
    (Registry.ofTables? letterTables {}).isSome = true ∧
      (letters.layout "TPMS_LETTER").toOption.map (·.map fun st => (st.field.name, st.op)) =
        some [("kind", .selector ⟨2, false, false⟩ "body" true),
          ("body", .union "TPMU_BODY" "kind")] ∧
      (letters.layout "TPMS_PARCEL").toOption.map (·.map fun st => (st.field.name, st.op)) =
        some [("kind", .selector ⟨2, false, false⟩ "seal" true),
          ("body", .union "TPMU_BODY" "kind"),
          ("seal", .array .byte (.selected "TPMU_SEAL" "kind"))] ∧
      (letters.allFields "TPMS_LETTER").toOption.all (fun fields =>
        decide (fields.map (·.name)).Nodup) = true := by
  decide +kernel

/-- The kind of a letter is derived from its body, and that of a parcel from nothing: the seal that
it names is an array. -/
theorem exists_union_letters :
    letters.Normalized letterTables {} ∧ letters.toSchema.DistinctNames "TPMS_LETTER" ∧
      (∃ steps st c, letters.layout "TPMS_LETTER" = .ok steps ∧ st ∈ steps ∧
        st.op = .selector c "body" true ∧ ∃ u ∈ steps, u.field.name = "body" ∧
          ∃ union, u.op = .union union st.field.name) ∧
      ∃ steps st c, letters.layout "TPMS_PARCEL" = .ok steps ∧ st ∈ steps ∧
        st.op = .selector c "seal" true ∧ (∃ u ∈ steps, ∃ union, u.op = .union union st.field.name) ∧
          ∀ u ∈ steps, u.field.name = "seal" → u.op.isReused = true := by
  obtain ⟨hletters, hletter, hparcel, hall⟩ := letter_facts
  have hnormal : letters.Normalized letterTables {} := Registry.normalized_getD hletters
  have hnames : letters.toSchema.DistinctNames "TPMS_LETTER" := fun fields hfields => by
    rw [hfields] at hall
    exact of_decide_eq_true hall
  refine ⟨hnormal, hnames, ?_, ?_⟩
  · obtain ⟨steps, hsteps, hplan⟩ := Option.map_eq_some_iff.mp hletter
    have hlayout := ok_of_toOption hsteps
    obtain ⟨kind, body, rfl⟩ := List.length_eq_two.mp (by simpa using congrArg List.length hplan)
    simp only [List.map_cons, List.map_nil, List.cons.injEq, Prod.mk.injEq, and_true] at hplan
    obtain ⟨⟨hkind, hop⟩, hbody, hunion⟩ := hplan
    obtain ⟨-, hobject⟩ :=
      exists_union_of_derived hnormal hlayout List.mem_cons_self hop
    refine ⟨_, kind, _, hlayout, List.mem_cons_self, hop, ?_⟩
    rcases hobject (.inr hnames) with hnone | ⟨u, hu, hname, hof⟩
    · exact (hnone body (List.mem_cons_of_mem _ List.mem_cons_self) hbody).elim
    · refine ⟨u, hu, hname, _, hof.resolve_right fun hreused => ?_⟩
      rcases List.mem_pair.mp hu with rfl | rfl
      · exact absurd (hkind.symm.trans hname) (by decide)
      · rw [hunion] at hreused
        cases hreused
  · obtain ⟨steps, hsteps, hplan⟩ := Option.map_eq_some_iff.mp hparcel
    have hlayout := ok_of_toOption hsteps
    obtain ⟨kind, body, wax, rfl⟩ :=
      List.length_eq_three.mp (by simpa using congrArg List.length hplan)
    simp only [List.map_cons, List.map_nil, List.cons.injEq, Prod.mk.injEq, and_true] at hplan
    obtain ⟨⟨hkind, hop⟩, ⟨hbody, -⟩, -, hseal⟩ := hplan
    refine ⟨_, kind, _, hlayout, List.mem_cons_self, hop,
      (exists_union_of_derived hnormal hlayout List.mem_cons_self hop).1,
      fun u hu hname => ?_⟩
    simp only [List.mem_cons, List.not_mem_nil, or_false] at hu
    rcases hu with rfl | rfl | rfl
    · exact absurd (hkind.symm.trans hname) (by decide)
    · exact absurd (hbody.symm.trans hname) (by decide)
    · rw [hseal]
      rfl

end Letter

end Wire

end WireTables
