import WireTables.Proofs.Extraction
import WireTables.Proofs.Schema.Resolve
import WireTables.Proofs.Wire.Depth

/-!
# Reading field by field

Structures as tables define them have neither a base nor an absent tail, and no field is the length
of a structure. So each of their fields has one step (`Steps`), and all fields are read one after
the other (`ReadsFields`). `Decoded` is reading with as many levels as it takes; `decoded_iff` takes
it apart into the fields of a structure, each read with as many levels as it takes itself.
-/

namespace WireTables.Wire

/-- What arrays of a type are made of. -/
def element? (s : Schema) (type : String) : Option Element :=
  match objectName? s type with
  | some object => some (.object object)
  | none => (s.scalar? type).map fun c => if c.isByte then .byte else .scalar c

/-- The step of a field that is neither a structure after its length nor that length. -/
inductive Steps (s : Schema) (known : Known) (fields : List Field) (f : Field) : Op → Bool → Prop
  | scalar {c} (hm : f.marshal = .plain) (ho : objectName? s f.typeName = none)
    (hc : s.scalar? f.typeName = some c) : Steps s known fields f (.scalar c) true
  | object {type} (hm : f.marshal = .plain) (ho : objectName? s f.typeName = some type) :
    Steps s known fields f (.object type) true
  | constant {c text} (hm : f.marshal = .constant) (hc : s.scalar? f.typeName = some c)
    (ht : f.domain.onlyValue? = some text) : Steps s known fields f (.constant c text) false
  | count {c array} (hm : f.marshal = .count) (hc : s.scalar? f.typeName = some c)
    (hp : f.partner = some array) : Steps s known fields f (.count c array) false
  | selector {c object} (hm : f.marshal = .selector) (hc : s.scalar? f.typeName = some c)
    (hp : f.partner = some object) :
    Steps s known fields f (.selector c object (selectsObject fields f)) (!selectsObject fields f)
  | union {tag} (hm : f.marshal = .unionBody) (hp : f.partner = some tag) :
    Steps s known fields f (.union f.typeName tag) true
  | selected {tag} (hm : f.marshal = .selectedArray) (hp : f.partner = some tag) :
    Steps s known fields f (.array .byte (.selected f.typeName tag)) true
  | counted {element tag} (hm : f.marshal = .countedArray) (hp : f.partner = some tag)
    (he : element? s f.typeName = some element) :
    Steps s known fields f (.array element (.tag tag)) true
  | fixed {element text n} (hm : f.marshal = .fixedArray)
    (he : element? s f.typeName = some element) (ht : f.arraySize = some text)
    (hn : Yields (s.evaluate text) known n known) (hpos : 0 ≤ n) :
    Steps s known fields f (.array element (.fixed n.toNat)) true
  | rest {element} (hm : f.marshal = .restArray) (he : element? s f.typeName = some element) :
    Steps s known fields f (.array element .rest) true

theorem elementOf_eq_ok {s : Schema} {owner : String} {f : Field} {element : Element} :
    elementOf s owner f = .ok element ↔ element? s f.typeName = some element := by
  unfold elementOf element?
  cases objectName? s f.typeName with
  | some object => simp
  | none =>
    simp only [bind_eq_ok, scalarOf_eq_ok, Option.map_eq_some_iff]
    constructor
    · rintro ⟨c, hc, h⟩
      cases h
      exact ⟨c, hc, rfl⟩
    · rintro ⟨c, hc, rfl⟩
      exact ⟨c, hc, rfl⟩

section Settled

variable {s : Schema} {known known' : Known} (h : s.Remembers (· = known))

include h

theorem yields_fixedLength {owner : String} {f : Field} {count : Nat} :
    Yields (fixedLength s owner f) known count known' ↔ (∃ text n, f.arraySize = some text ∧
      Yields (s.evaluate text) known n known ∧ 0 ≤ n ∧ count = n.toNat) ∧ known' = known := by
  unfold fixedLength
  cases f.arraySize with
  | none => simp only [not_yields_throw, reduceCtorEq, false_and, exists_false]
  | some text =>
    simp only [yields_bind, Option.some.injEq]
    constructor
    · rintro ⟨n, k, hn, hcount⟩
      obtain ⟨hn, rfl⟩ := (Schema.evaluate_keeps h text).yields_iff.mp hn
      split at hcount
      · exact (not_yields_throw hcount).elim
      · next hpos =>
        obtain ⟨rfl, rfl⟩ := yields_pure.mp hcount
        exact ⟨⟨text, n, rfl, hn, Int.not_lt.mp hpos, rfl⟩, rfl⟩
    · rintro ⟨⟨_, n, rfl, hn, hpos, rfl⟩, rfl⟩
      refine ⟨n, known', hn, ?_⟩
      rw [if_neg (Int.not_lt.mpr hpos)]
      exact yields_pure.mpr ⟨rfl, rfl⟩

/-- The step of a field, if it has one. -/
theorem yields_stepOf {owner : String} {fields : List Field} {f : Field}
    (hf : f.marshal ≠ .bodySize ∧ f.marshal ≠ .sizedBody) {out : Option (Op × Bool)} :
    Yields (stepOf s owner fields f) known out known' ↔
      (∃ op isData, out = some (op, isData) ∧ Steps s known fields f op isData) ∧
        known' = known := by
  constructor
  · intro hy
    unfold stepOf at hy
    cases hm : f.marshal <;> simp only [hm] at hy
    case bodySize => exact (hf.1 hm).elim
    case sizedBody => exact (hf.2 hm).elim
    case plain =>
      cases ho : objectName? s f.typeName <;> simp only [ho] at hy
      · simp only [yields_bind, yields_pure, yields_ofExcept, scalarOf_eq_ok] at hy
        obtain ⟨c, _, ⟨hc, rfl⟩, rfl, rfl⟩ := hy
        exact ⟨⟨_, _, rfl, .scalar hm ho hc⟩, rfl⟩
      · obtain ⟨rfl, rfl⟩ := yields_pure.mp hy
        exact ⟨⟨_, _, rfl, .object hm ho⟩, rfl⟩
    case constant =>
      split at hy
      · next text ht =>
        simp only [yields_bind, yields_pure, yields_ofExcept, scalarOf_eq_ok] at hy
        obtain ⟨c, _, ⟨hc, rfl⟩, rfl, rfl⟩ := hy
        exact ⟨⟨_, _, rfl, .constant hm hc ht⟩, rfl⟩
      · exact (not_yields_throw hy).elim
    case count =>
      simp only [yields_bind, yields_pure, yields_ofExcept, scalarOf_eq_ok, partnerOf_eq_ok] at hy
      obtain ⟨c, _, ⟨hc, rfl⟩, array, _, ⟨hp, rfl⟩, rfl, rfl⟩ := hy
      exact ⟨⟨_, _, rfl, .count hm hc hp⟩, rfl⟩
    case selector =>
      simp only [yields_bind, yields_pure, yields_ofExcept, scalarOf_eq_ok, partnerOf_eq_ok] at hy
      obtain ⟨c, _, ⟨hc, rfl⟩, object, _, ⟨hp, rfl⟩, rfl, rfl⟩ := hy
      exact ⟨⟨_, _, rfl, .selector hm hc hp⟩, rfl⟩
    case unionBody =>
      simp only [yields_bind, yields_pure, yields_ofExcept, partnerOf_eq_ok] at hy
      obtain ⟨tag, _, ⟨hp, rfl⟩, rfl, rfl⟩ := hy
      exact ⟨⟨_, _, rfl, .union hm hp⟩, rfl⟩
    case selectedArray =>
      simp only [yields_bind, yields_pure, yields_ofExcept, partnerOf_eq_ok] at hy
      obtain ⟨tag, _, ⟨hp, rfl⟩, rfl, rfl⟩ := hy
      exact ⟨⟨_, _, rfl, .selected hm hp⟩, rfl⟩
    case fixedArray =>
      simp only [yields_bind, yields_pure, yields_ofExcept, elementOf_eq_ok] at hy
      obtain ⟨element, _, ⟨he, rfl⟩, count, _, hcount, rfl, rfl⟩ := hy
      obtain ⟨⟨text, n, ht, hn, hpos, rfl⟩, rfl⟩ := (yields_fixedLength h).mp hcount
      exact ⟨⟨_, _, rfl, .fixed hm he ht hn hpos⟩, rfl⟩
    case countedArray =>
      simp only [yields_bind, yields_pure, yields_ofExcept, partnerOf_eq_ok, elementOf_eq_ok] at hy
      obtain ⟨element, _, ⟨he, rfl⟩, tag, _, ⟨hp, rfl⟩, rfl, rfl⟩ := hy
      exact ⟨⟨_, _, rfl, .counted hm hp he⟩, rfl⟩
    case restArray =>
      simp only [yields_bind, yields_pure, yields_ofExcept, elementOf_eq_ok] at hy
      obtain ⟨element, _, ⟨he, rfl⟩, rfl, rfl⟩ := hy
      exact ⟨⟨_, _, rfl, .rest hm he⟩, rfl⟩
  · rintro ⟨⟨op, isData, rfl, hstep⟩, rfl⟩
    unfold stepOf
    cases hstep with
    | scalar hm ho hc =>
      simp only [hm, ho, yields_bind, yields_pure, yields_ofExcept, scalarOf_eq_ok]
      exact ⟨_, known', ⟨hc, rfl⟩, rfl, rfl⟩
    | object hm ho =>
      simp only [hm, ho, yields_pure, and_self]
    | constant hm hc ht =>
      simp only [hm, ht, yields_bind, yields_pure, yields_ofExcept, scalarOf_eq_ok]
      exact ⟨_, known', ⟨hc, rfl⟩, rfl, rfl⟩
    | count hm hc hp =>
      simp only [hm, yields_bind, yields_pure, yields_ofExcept, scalarOf_eq_ok, partnerOf_eq_ok]
      exact ⟨_, known', ⟨hc, rfl⟩, _, known', ⟨hp, rfl⟩, rfl, rfl⟩
    | selector hm hc hp =>
      simp only [hm, yields_bind, yields_pure, yields_ofExcept, scalarOf_eq_ok, partnerOf_eq_ok]
      exact ⟨_, known', ⟨hc, rfl⟩, _, known', ⟨hp, rfl⟩, rfl, rfl⟩
    | union hm hp =>
      simp only [hm, yields_bind, yields_pure, yields_ofExcept, partnerOf_eq_ok]
      exact ⟨_, known', ⟨hp, rfl⟩, rfl, rfl⟩
    | selected hm hp =>
      simp only [hm, yields_bind, yields_pure, yields_ofExcept, partnerOf_eq_ok]
      exact ⟨_, known', ⟨hp, rfl⟩, rfl, rfl⟩
    | counted hm hp he =>
      simp only [hm, yields_bind, yields_pure, yields_ofExcept, partnerOf_eq_ok, elementOf_eq_ok]
      exact ⟨_, known', ⟨he, rfl⟩, _, known', ⟨hp, rfl⟩, rfl, rfl⟩
    | fixed hm he ht hn hpos =>
      simp only [hm, yields_bind, yields_pure, yields_ofExcept, elementOf_eq_ok]
      exact ⟨_, known', ⟨he, rfl⟩, _, known',
        (yields_fixedLength h).mpr ⟨⟨_, _, ht, hn, hpos, rfl⟩, rfl⟩, rfl, rfl⟩
    | rest hm he =>
      simp only [hm, yields_bind, yields_pure, yields_ofExcept, elementOf_eq_ok]
      exact ⟨_, known', ⟨he, rfl⟩, rfl, rfl⟩

end Settled

/-- What is read for some of the fields `all` of a structure, one after the other. -/
inductive ReadsFields (s : Schema) (known : Known)
    (nested : String → Reader → Value → Reader → Prop) (all : List Field) :
    Locals → List Field → Reader → List (String × Value) → Locals → Reader → Prop
  | nil {locals r} : ReadsFields s known nested all locals [] r [] locals r
  | cons {locals locals' locals'' f fields op isData r r' r'' v others}
    (hstep : Steps s known all f op isData)
    (h : Reads s known nested locals f isData op r v locals' r')
    (hrest : ReadsFields s known nested all locals' fields r' others locals'' r'') :
    ReadsFields s known nested all locals (f :: fields) r (entry f.name v ++ others) locals'' r''

namespace ReadsFields

variable {s : Schema} {known : Known} {nested nested' : String → Reader → Value → Reader → Prop}
  {all fields fields' : List Field} {locals locals' : Locals} {r r' : Reader}
  {entries : List (String × Value)}

theorem cons_iff {f : Field} :
    ReadsFields s known nested all locals (f :: fields) r entries locals' r' ↔
      ∃ op isData v locals₁ r₁ others, Steps s known all f op isData ∧
        Reads s known nested locals f isData op r v locals₁ r₁ ∧
          ReadsFields s known nested all locals₁ fields r₁ others locals' r' ∧
            entries = entry f.name v ++ others := by
  constructor
  · rintro ⟨⟩
    exact ⟨_, _, _, _, _, _, ‹_›, ‹_›, ‹_›, rfl⟩
  · rintro ⟨_, _, _, _, _, _, hstep, h, hrest, rfl⟩
    exact .cons hstep h hrest

theorem append_iff :
    ReadsFields s known nested all locals (fields ++ fields') r entries locals' r' ↔
    ∃ es es' locals₁ r₁, ReadsFields s known nested all locals fields r es locals₁ r₁ ∧
      ReadsFields s known nested all locals₁ fields' r₁ es' locals' r' ∧ entries = es ++ es' := by
  induction fields generalizing locals r entries with
  | nil =>
    constructor
    · exact fun h => ⟨[], entries, locals, r, .nil, h, rfl⟩
    · rintro ⟨_, es', _, _, _ | _, h, rfl⟩
      exact h
  | cons f fields ih =>
    constructor
    · intro h
      cases h with
      | cons hstep h hrest =>
        obtain ⟨es, es', locals₁, r₁, h₁, h₂, rfl⟩ := ih.mp hrest
        exact ⟨_, es', locals₁, r₁, .cons hstep h h₁, h₂, (List.append_assoc _ _ _).symm⟩
    · rintro ⟨_, es', locals₁, r₁, h₁, h₂, rfl⟩
      cases h₁ with
      | cons hstep h h₁ =>
        rw [List.append_assoc]
        exact .cons hstep h (ih.mpr ⟨_, es', locals₁, r₁, h₁, h₂, rfl⟩)

variable (htakes : ∀ type r v r', nested type r v r' → ∃ taken, Takes taken r r')

include htakes

theorem mono (h : ReadsFields s known nested all locals fields r entries locals' r')
    (hnested : ∀ type r₁ v r₁', Within r r₁ → nested type r₁ v r₁' → nested' type r₁ v r₁') :
    ReadsFields s known nested' all locals fields r entries locals' r' := by
  induction h with
  | nil => exact .nil
  | cons hstep h _ ih =>
    obtain ⟨taken, ht⟩ := takes_of_reads htakes h
    exact .cons hstep (h.mono htakes hnested)
      (ih fun type r₁ v r₁' hw => hnested type r₁ v r₁' ((Within.of_takes ht).trans hw))

end ReadsFields

section Records

variable {s : Schema} {known : Known} (h : s.Remembers (· = known))
  {nested : String → Reader → Value → Reader → Prop}

include h

/-- Each field of a structure has one step, and the steps are read in order. -/
theorem readsAll_iff {owner : String} {all fields : List Field} (hfields : Unsized fields)
    {locals : Locals} {r r' : Reader} {entries : List (String × Value)} :
    (∃ steps, Yields (fields.filterMapM fun f => do
        return (← stepOf s owner all f).map fun (op, isData) => (⟨f, op, isData⟩ : Step))
          known steps known ∧ ReadsAll s known nested none locals steps r entries r') ↔
      ∃ locals', ReadsFields s known nested all locals fields r entries locals' r' := by
  induction fields generalizing locals r entries with
  | nil =>
    constructor
    · rintro ⟨steps, hsteps, hread⟩
      obtain ⟨rfl, -⟩ := yields_filterMapM_nil.mp hsteps
      cases hread
      exact ⟨locals, .nil⟩
    · rintro ⟨_, hread⟩
      cases hread
      exact ⟨[], yields_filterMapM_nil.mpr ⟨rfl, rfl⟩, .done⟩
  | cons f fields ih =>
    have hf := hfields f List.mem_cons_self
    have ih := @ih fun g hg => hfields g (List.mem_cons_of_mem _ hg)
    constructor
    · rintro ⟨steps, hsteps, hread⟩
      obtain ⟨y, k, rest, hy, hrest, rfl⟩ := yields_filterMapM_cons.mp hsteps
      obtain ⟨out, _, hout, hy⟩ := yields_bind.mp hy
      obtain ⟨rfl, rfl⟩ := yields_pure.mp hy
      obtain ⟨⟨op, isData, rfl, hstep⟩, rfl⟩ := (yields_stepOf h hf).mp hout
      cases hread with
      | last _ hend => cases hend
      | more hread _ hothers =>
        obtain ⟨locals', hothers⟩ := ih.mp ⟨rest, hrest, hothers⟩
        exact ⟨locals', .cons hstep hread hothers⟩
    · rintro ⟨locals', hread⟩
      cases hread with
      | @cons _ _ _ _ _ op isData _ _ _ v others hstep hread hothers =>
        obtain ⟨rest, hrest, hothers⟩ := ih.mpr ⟨locals', hothers⟩
        refine ⟨⟨f, op, isData⟩ :: rest, yields_filterMapM_cons.mpr ⟨some ⟨f, op, isData⟩, known,
          rest, yields_bind.mpr ⟨some (op, isData), known, ?_, yields_pure.mpr ⟨rfl, rfl⟩⟩, hrest,
          rfl⟩, .more hread rfl hothers⟩
        exact (yields_stepOf h hf).mpr ⟨⟨op, isData, rfl, hstep⟩, rfl⟩

omit h in
theorem tabled_of_recordOf? (htabled : s.Tabled) {type : String} {t : TypeEntry} {x : Record}
    (hx : s.recordOf? type = some (t, x)) : x.Tabled :=
  let ⟨ht, hr⟩ := Schema.mem_of_recordOf? hx
  htabled.record ht hr

variable (htabled : s.Tabled)

include htabled

/-- All fields of a structure are read. -/
theorem exists_plan_iff {type : String} {r r' : Reader} {entries : List (String × Value)} :
    (∃ steps tail, Plan s known type steps tail ∧
      ReadsAll s known nested tail [] steps r entries r') ↔
        ∃ t x locals, s.recordOf? type = some (t, x) ∧
          ReadsFields s known nested x.fields [] x.fields r entries locals r' := by
  have planned : ∀ {t x tail}, s.recordOf? type = some (t, x) →
      (Yields (tailEnd s type) known tail known ↔ tail = none) := by
    intro t x tail hx
    unfold tailEnd recordType
    simp only [hx, yields_bind, yields_pure]
    constructor
    · rintro ⟨_, _, ⟨rfl, rfl⟩, htail⟩
      rw [(tabled_of_recordOf? htabled hx).tail] at htail
      exact (yields_pure.mp htail).1
    · rintro rfl
      refine ⟨x, known, ⟨rfl, rfl⟩, ?_⟩
      rw [(tabled_of_recordOf? htabled hx).tail]
      exact yields_pure.mpr ⟨rfl, rfl⟩
  have layouts : ∀ {steps}, Yields (layout s type) known steps known ↔ ∃ t x,
      s.recordOf? type = some (t, x) ∧ Yields (x.fields.filterMapM fun f => do
        return (← stepOf s type x.fields f).map fun (op, isData) => (⟨f, op, isData⟩ : Step))
          known steps known := by
    intro steps
    unfold layout
    simp only [yields_bind, yields_ofExcept]
    constructor
    · rintro ⟨fields, _, ⟨hfields, rfl⟩, hsteps⟩
      obtain ⟨t, x, hx, rfl⟩ := (Schema.allFields_eq_ok htabled.bases).mp hfields
      exact ⟨t, x, hx, hsteps⟩
    · rintro ⟨t, x, hx, hsteps⟩
      exact ⟨x.fields, known, ⟨(Schema.allFields_eq_ok htabled.bases).mpr
        ⟨t, x, hx, rfl⟩, rfl⟩, hsteps⟩
  constructor
  · rintro ⟨steps, tail, hplan, hread⟩
    obtain ⟨t, x, hx, hsteps⟩ := layouts.mp hplan.layout
    obtain rfl := (planned hx).mp hplan.tail
    obtain ⟨locals, hread⟩ :=
      (readsAll_iff h (tabled_of_recordOf? htabled hx).unsized).mp ⟨steps, hsteps, hread⟩
    exact ⟨t, x, locals, hx, hread⟩
  · rintro ⟨t, x, locals, hx, hread⟩
    obtain ⟨steps, hsteps, hread⟩ :=
      (readsAll_iff h (tabled_of_recordOf? htabled hx).unsized).mpr ⟨locals, hread⟩
    exact ⟨steps, none, ⟨layouts.mpr ⟨t, x, hx, hsteps⟩, (planned hx).mpr rfl⟩, hread⟩

theorem decodes_fields {levels : Nat} {type : String} {r r' : Reader} {v : Value} :
    Decodes s known (levels + 1) type r v r' ↔ r.known = known ∧ ∃ t x entries locals,
      s.recordOf? type = some (t, x) ∧
        ReadsFields s known (Decodes s known levels) x.fields [] x.fields r entries locals r' ∧
          v = .struct (Value.putFields [] entries) := by
  rw [decodes_succ h]
  refine and_congr_right fun _ => ?_
  constructor
  · rintro ⟨steps, tail, entries, hplan, hread, hv⟩
    obtain ⟨t, x, locals, hx, hread⟩ :=
      (exists_plan_iff h htabled).mp ⟨steps, tail, hplan, hread⟩
    exact ⟨t, x, entries, locals, hx, hread, hv⟩
  · rintro ⟨t, x, entries, locals, hx, hread, hv⟩
    obtain ⟨steps, tail, hplan, hread⟩ := (exists_plan_iff h htabled).mpr ⟨t, x, locals, hx, hread⟩
    exact ⟨steps, tail, entries, hplan, hread, hv⟩

end Records

/-- With some number of levels a structure is read between two places. -/
def Decoded (s : Schema) (known : Known) (type : String) (r : Reader) (v : Value) (r' : Reader) :
    Prop :=
  ∃ levels, Decodes s known levels type r v r'

section Decoded

variable {s : Schema} {known : Known} (h : s.Remembers (· = known))

include h

theorem takes_of_decoded {type : String} {r r' : Reader} {v : Value}
    (hread : Decoded s known type r v r') : ∃ taken, Takes taken r r' :=
  let ⟨_, hread⟩ := hread
  takes_of_decodes h hread

theorem Decoded.unique {type : String} {r r₁ r₂ : Reader} {v₁ v₂ : Value}
    (h₁ : Decoded s known type r v₁ r₁) (h₂ : Decoded s known type r v₂ r₂) : v₁ = v₂ ∧ r₁ = r₂ :=
  let ⟨_, h₁⟩ := h₁
  let ⟨_, h₂⟩ := h₂
  decodes_unique h h₁ h₂

/-- A structure is read field by field. -/
theorem decoded_iff (htabled : s.Tabled) {type : String} {r r' : Reader} {v : Value} :
    Decoded s known type r v r' ↔ r.known = known ∧ ∃ t x entries locals,
      s.recordOf? type = some (t, x) ∧
        ReadsFields s known (Decoded s known) x.fields [] x.fields r entries locals r' ∧
          v = .struct (Value.putFields [] entries) := by
  constructor
  · rintro ⟨levels, hread⟩
    cases levels with
    | zero => exact (not_yields_throw hread.2).elim
    | succ levels =>
      obtain ⟨hr, t, x, entries, locals, hx, hread, hv⟩ := (decodes_fields h htabled).mp hread
      exact ⟨hr, t, x, entries, locals, hx, hread.mono (fun _ _ _ _ => takes_of_decodes h)
        fun _ _ _ _ _ hd => ⟨levels, hd⟩, hv⟩
  · rintro ⟨hr, t, x, entries, locals, hx, hread, hv⟩
    -- What is left inside the structure can all be read with the levels for what is left before it.
    refine ⟨levels s r.left.length + 1, (decodes_fields h htabled).mpr
      ⟨hr, t, x, entries, locals, hx, hread.mono (fun _ _ _ _ => takes_of_decoded h) ?_, hv⟩⟩
    rintro inner r₁ w r₁' hw ⟨n, hd⟩
    refine decodes_mono h ?_ (decodes_levels h hd)
    have hle : r₁.left.length ≤ r.left.length := by
      rcases hw with rfl | hlt
      · exact Nat.le_refl _
      · exact Nat.le_of_lt hlt
    unfold levels
    exact Nat.succ_le_succ (Nat.mul_le_mul_right _ (Nat.succ_le_succ hle))

end Decoded

end WireTables.Wire
