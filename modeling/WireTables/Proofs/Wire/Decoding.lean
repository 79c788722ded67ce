import WireTables.Proofs.Schema.Answers
import WireTables.Proofs.Wire.Encoding

/-!
# What is read

Decoding as a relation between two places of a reader and the value between them, in a registry in
which all constants have their values. As on the writing side, `Reads`, `ReadsElements` and
`ReadsUnion` have one case for each thing that can happen, `yields_decodeStep` says that nothing
else does, and all else about decoding is shown by cases on these relations.
-/

namespace WireTables.Wire

/-- Values read one after the other. -/
inductive ReadsRow (item : Reader → Value → Reader → Prop) : Reader → List Value → Reader → Prop
  | nil {r} : ReadsRow item r [] r
  | cons {r r' r'' v items} (h : item r v r') (hrest : ReadsRow item r' items r'') :
    ReadsRow item r (v :: items) r''

theorem ReadsRow.imp {item item' : Reader → Value → Reader → Prop}
    (himp : ∀ r v r', item r v r' → item' r v r') {r r' : Reader} {items : List Value}
    (h : ReadsRow item r items r') : ReadsRow item' r items r' := by
  induction h with
  | nil => exact .nil
  | cons h _ ih => exact .cons (himp _ _ _ h) ih

/-- One array element other than a byte of a byte array. -/
inductive ReadsItem (nested : String → Reader → Value → Reader → Prop) :
    Element → Reader → Value → Reader → Prop
  | scalar {c r v r'} (h : Yields (readScalar c) r v r') : ReadsItem nested (.scalar c) r v r'
  | object {type r v r'} (h : nested type r v r') : ReadsItem nested (.object type) r v r'

/-- An array element that uses some bytes. -/
def ReadsSome (nested : String → Reader → Value → Reader → Prop) (element : Element) (r : Reader)
    (v : Value) (r' : Reader) : Prop :=
  ReadsItem nested element r v r' ∧ r'.left.length ≠ r.left.length

/-- The elements of an array: so many, or all that are left. -/
inductive ReadsElements (nested : String → Reader → Value → Reader → Prop) :
    Element → Option Nat → Reader → Value → Reader → Prop
  | bytes {count r} (hle : count ≤ r.left.length) :
    ReadsElements nested .byte (some count) r (.bytes (r.left.take count)) (r.advance count)
  | allBytes {r} :
    ReadsElements nested .byte none r (.bytes r.left) (r.advance r.left.length)
  | items {element count items r r'} (hbyte : element ≠ .byte)
    (h : ReadsRow (ReadsItem nested element) r items r') (hlen : items.length = count) :
    ReadsElements nested element (some count) r (.list items) r'
  | allItems {element items r r'} (hbyte : element ≠ .byte)
    (h : ReadsRow (ReadsSome nested element) r items r') (hend : r'.left = []) :
    ReadsElements nested element none r (.list items) r'

/-- The first of some union members that a selector value chooses. -/
inductive Chooses (s : Schema) (known : Known) (n : Int) :
    List (UnionMember × Nat) → UnionMember → Nat → Prop
  | here {m i rest} (h : Yields (s.constantValue m.selector) known n known) :
    Chooses s known n ((m, i) :: rest) m i
  | later {m i rest n' m' i'} (h : Yields (s.constantValue m.selector) known n' known)
    (hne : n' ≠ n) (hrest : Chooses s known n rest m' i') :
    Chooses s known n ((m, i) :: rest) m' i'

section Chosen

variable {s : Schema} {known : Known} {n : Int} {m : UnionMember} {i : Nat}

/-- A selector value chooses at most one member. -/
theorem Chooses.unique {members : List (UnionMember × Nat)} {m' : UnionMember} {i' : Nat}
    (h : Chooses s known n members m i) (h' : Chooses s known n members m' i') :
    m' = m ∧ i' = i := by
  induction h with
  | here hv =>
    cases h' with
    | here => exact ⟨rfl, rfl⟩
    | later hv' hne => exact (hne (hv'.unique hv).1).elim
  | later hv hne _ ih =>
    cases h' with
    | here hv' => exact (hne (hv.unique hv').1).elim
    | later _ _ hrest => exact ih hrest

theorem mem_of_chooses {members : List (UnionMember × Nat)}
    (h : Chooses s known n members m i) :
    (m, i) ∈ members ∧ Yields (s.constantValue m.selector) known n known := by
  induction h with
  | here h => exact ⟨List.mem_cons_self, h⟩
  | later _ _ _ ih => exact ⟨List.mem_cons_of_mem _ ih.1, ih.2⟩

/-- The length of an array that a selector chooses is the size of the chosen member. -/
theorem exists_of_selectedLength (h : s.Remembers (· = known)) {union : String} {count : Nat}
    (hy : Yields (selectedLength s union n) known (some count) known) :
    ∃ u m i failure, (s.lookup? union).bind TypeEntry.union? = some u ∧
      Chooses s known n u.members.zipIdx m i ∧
        Yields (memberBytes s m failure) known count known := by
  have first : ∀ {members : List UnionMember} {start : Nat},
      Yields (firstSelected s union n members) known (some count) known →
        ∃ m i failure, Chooses s known n (members.zipIdx start) m i ∧
          Yields (memberBytes s m failure) known count known := by
    intro members
    induction members with
    | nil =>
      intro start hy
      cases (yields_pure.mp hy).1
    | cons m rest ih =>
      intro start hy
      unfold firstSelected at hy
      obtain ⟨value, _, hvalue, hy⟩ := yields_bind.mp hy
      obtain ⟨hvalue, rfl⟩ := (Schema.constantValue_keeps h _).yields_iff.mp hvalue
      split at hy
      · next hne =>
        obtain ⟨m', i, failure, hm', hbytes⟩ := @ih (start + 1) hy
        exact ⟨m', i, failure, .later hvalue (by simpa using hne) hm', hbytes⟩
      · next heq =>
        obtain ⟨bytes, _, hbytes, hy⟩ := yields_bind.mp hy
        obtain ⟨hbytes, rfl⟩ := (memberBytes_keeps h m _).yields_iff.mp hbytes
        cases (yields_pure.mp hy).1
        obtain rfl : value = n := by simpa using heq
        exact ⟨m, start, _, .here hvalue, hbytes⟩
  unfold selectedLength at hy
  obtain ⟨t, _, ht, hy⟩ := yields_bind.mp hy
  obtain ⟨hrequire, rfl⟩ := Schema.yields_evalOfExcept.mp ht
  split at hy
  · next u hu =>
    obtain ⟨m, i, failure, hm, hbytes⟩ := first hy
    refine ⟨u, m, i, failure, ?_, hm, hbytes⟩
    rw [Schema.require_eq_ok.mp hrequire]
    exact hu
  · exact (not_yields_throw hy).elim

end Chosen

/-- The value of a chosen union member. -/
inductive ReadsMember (s : Schema) (nested : String → Reader → Value → Reader → Prop)
    (u : UnionType) : UnionMember → Nat → Reader → Value → Reader → Prop
  | absent {m i r} (hi : u.nullMember = some i) : ReadsMember s nested u m i r .null r
  | record {m i r v r'} (hi : u.nullMember ≠ some i) (hr : s.isRecord m.typeName = true)
    (h : nested m.typeName r v r') : ReadsMember s nested u m i r (.union m.typeName v) r'
  | scalar {m i c r v r'} (hi : u.nullMember ≠ some i) (hr : s.isRecord m.typeName = false)
    (hc : s.scalar? m.typeName = some c) (h : Yields (readScalar c) r v r') :
    ReadsMember s nested u m i r (.union m.typeName v) r'

/-- A union value under a selector value. -/
structure ReadsUnion (s : Schema) (known : Known)
    (nested : String → Reader → Value → Reader → Prop) (union : String) (n : Int) (r : Reader)
    (v : Value) (r' : Reader) : Prop where
  intro ::
  exists_member : ∃ u m i, (s.lookup? union).bind TypeEntry.union? = some u ∧
    Chooses s known n u.members.zipIdx m i ∧ ReadsMember s nested u m i r v r'

/-- The number of elements that an array is read with. -/
inductive CountFor (s : Schema) (known : Known) (locals : Locals) (f : Field) :
    ArrayLength → Option Nat → Prop
  | tag {field n} (hn : (locals.lookup field).getD 0 = n) (hpos : 0 ≤ n)
    (hmax : WithinMaximum s known f n.toNat) : CountFor s known locals f (.tag field) (some n.toNat)
  | other {length required} (hl : ∀ field, length ≠ .tag field)
    (h : Required s known locals length required) : CountFor s known locals f length required

/-- What is read for a field that travels as `op`: an entry of the value if there is one, and the
numbers known afterwards. -/
inductive Reads (s : Schema) (known : Known) (nested : String → Reader → Value → Reader → Prop)
    (locals : Locals) (f : Field) (isData : Bool) :
    Op → Reader → Option Value → Locals → Reader → Prop
  | scalar {c v n r r'} (hr : Yields (readScalar c) r v r') (hn : v.word? = some n) :
    Reads s known nested locals f isData (.scalar c) r (some v) ((f.name, n) :: locals) r'
  | object {type v r r'} (h : nested type r v r') :
    Reads s known nested locals f isData (.object type) r (some v) locals r'
  | constant {c text v n r r'} (hr : Yields (readScalar c) r v r') (hn : v.word? = some n)
    (he : Yields (s.evaluate text) known n known) :
    Reads s known nested locals f isData (.constant c text) r none locals r'
  | count {c array v n r r'} (hr : Yields (readScalar c) r v r') (hn : v.word? = some n) :
    Reads s known nested locals f isData (.count c array) r none ((f.name, n) :: locals) r'
  | array {element length count v r r'} (hc : CountFor s known locals f length count)
    (h : ReadsElements nested element count r v r') :
    Reads s known nested locals f isData (.array element length) r (some v) locals r'
  | sized {c type w n count v r r₁ r₂} (hr : Yields (readScalar c) r w r₁)
    (hn : w.word? = some n) (hcount : (n % 0x10000000000000000).toNat = count)
    (hend : r₁.position + count < 0x10000000000000000) (hle : count ≤ r₁.left.length)
    (h : nested type ⟨r₁.left.take count, 0, known⟩ v r₂) (hused : r₂.position = count) :
    Reads s known nested locals f isData (.sized c type) r (some v) locals (r₁.advance count)
  | selector {c object derived v n r r'} (hr : Yields (readScalar c) r v r')
    (hn : v.word? = some n) :
    Reads s known nested locals f isData (.selector c object derived) r
      (if isData then some v else none) ((f.name, n) :: locals) r'
  | union {union tag n v r r'} (hn : locals.lookup tag = some n)
    (h : ReadsUnion s known nested union n r v r') :
    Reads s known nested locals f isData (.union union tag) r (some v) locals r'

/-- The entry of a field in a value. -/
def entry (name : String) (v : Option Value) : List (String × Value) :=
  (v.map (name, ·)).toList

/-- What is read for the remaining steps of a structure. -/
inductive ReadsAll (s : Schema) (known : Known) (nested : String → Reader → Value → Reader → Prop)
    (tail : Option (String × Int)) :
    Locals → List Step → Reader → List (String × Value) → Reader → Prop
  | done {locals r} : ReadsAll s known nested tail locals [] r [] r
  | last {locals locals' step rest r v r'}
    (h : Reads s known nested locals step.field step.isData step.op r v locals' r')
    (hend : endsAfter tail step.field.name locals' = true) :
    ReadsAll s known nested tail locals (step :: rest) r (entry step.field.name v) r'
  | more {locals locals' step rest r v r' others r''}
    (h : Reads s known nested locals step.field step.isData step.op r v locals' r')
    (hend : endsAfter tail step.field.name locals' = false)
    (hrest : ReadsAll s known nested tail locals' rest r' others r'') :
    ReadsAll s known nested tail locals (step :: rest) r (entry step.field.name v ++ others) r''

/-- What has been read of a structure after one more step. -/
def Partial.after (p : Partial) (name : String) (v : Option Value) (locals : Locals) : Partial :=
  ⟨match v with
    | some v => Value.putField name v p.fields
    | none => p.fields, locals⟩

/-- The fields with some more put in. -/
def Value.putFields (fields : List (String × Value)) (entries : List (String × Value)) :
    List (String × Value) :=
  entries.foldl (fun fields e => Value.putField e.1 e.2 fields) fields

/-! ## Reading takes bytes off -/

section Takes

variable {s : Schema} {known : Known} {nested : String → Reader → Value → Reader → Prop}
  (htakes : ∀ type r v r', nested type r v r' → ∃ taken, Takes taken r r')

theorem takes_of_readsRow {item : Reader → Value → Reader → Prop} {r r' : Reader}
    {items : List Value} (hitem : ∀ r v r', item r v r' → ∃ taken, Takes taken r r')
    (h : ReadsRow item r items r') : ∃ taken, Takes taken r r' := by
  induction h with
  | nil => exact ⟨[], Takes.refl _⟩
  | cons h _ ih =>
    obtain ⟨a, ha⟩ := hitem _ _ _ h
    obtain ⟨b, hb⟩ := ih
    exact ⟨a ++ b, ha.trans hb⟩

theorem exists_takes_of_readScalar {c : Scalar} {r r' : Reader} {v : Value}
    (h : Yields (readScalar c) r v r') : ∃ taken, Takes taken r r' :=
  let ⟨taken, ht, _⟩ := takes_of_readScalar h
  ⟨taken, ht⟩

include htakes

theorem takes_of_readsItem {element : Element} {r r' : Reader} {v : Value}
    (h : ReadsItem nested element r v r') : ∃ taken, Takes taken r r' := by
  cases h with
  | scalar h => exact exists_takes_of_readScalar h
  | object h => exact htakes _ _ _ _ h

theorem takes_of_readsElements {element : Element} {count : Option Nat} {r r' : Reader} {v : Value}
    (h : ReadsElements nested element count r v r') : ∃ taken, Takes taken r r' := by
  cases h with
  | bytes hle => exact ⟨_, Takes.advance hle⟩
  | allBytes => exact ⟨_, Takes.advance (Nat.le_refl _)⟩
  | items _ h => exact takes_of_readsRow (fun _ _ _ => takes_of_readsItem htakes) h
  | allItems _ h => exact takes_of_readsRow (fun _ _ _ h => takes_of_readsItem htakes h.1) h

theorem takes_of_readsUnion {union : String} {n : Int} {r r' : Reader} {v : Value}
    (h : ReadsUnion s known nested union n r v r') : ∃ taken, Takes taken r r' := by
  obtain ⟨u, m, i, -, -, h⟩ := h
  cases h with
  | absent => exact ⟨[], Takes.refl _⟩
  | record _ _ h => exact htakes _ _ _ _ h
  | scalar _ _ _ h => exact exists_takes_of_readScalar h

theorem takes_of_reads {locals locals' : Locals} {f : Field} {isData : Bool} {op : Op}
    {r r' : Reader} {v : Option Value}
    (h : Reads s known nested locals f isData op r v locals' r') : ∃ taken, Takes taken r r' := by
  cases h with
  | scalar hr | constant hr | count hr | selector hr => exact exists_takes_of_readScalar hr
  | object h => exact htakes _ _ _ _ h
  | array _ h => exact takes_of_readsElements htakes h
  | sized hr _ _ _ hle =>
    obtain ⟨a, ha, -⟩ := takes_of_readScalar hr
    exact ⟨_, ha.trans (Takes.advance hle)⟩
  | union _ h => exact takes_of_readsUnion htakes h

theorem takes_of_readsAll {tail : Option (String × Int)} {locals : Locals} {steps : List Step}
    {r r' : Reader} {entries : List (String × Value)}
    (h : ReadsAll s known nested tail locals steps r entries r') : ∃ taken, Takes taken r r' := by
  induction h with
  | done => exact ⟨[], Takes.refl _⟩
  | last h => exact takes_of_reads htakes h
  | more h _ _ ih =>
    obtain ⟨a, ha⟩ := takes_of_reads htakes h
    obtain ⟨b, hb⟩ := ih
    exact ⟨a ++ b, ha.trans hb⟩

end Takes

/-! ## Nothing else is read -/

/-- What a calculation over the schema finds is remembered already. -/
theorem yields_coding_steady {known : Known} {m : Coding α} {Q : α → Prop} {r r' : Reader} {a : α}
    (hm : Keeps (· = known) m Q) (hr : r.known = known) :
    Yields (Reading.coding m) r a r' ↔ Yields m known a known ∧ r' = r := by
  subst hr
  rw [yields_coding]
  constructor
  · rintro ⟨k, hk, rfl⟩
    obtain ⟨hk, rfl⟩ := hm.yields_iff.mp hk
    exact ⟨hk, rfl⟩
  · rintro ⟨hk, rfl⟩
    exact ⟨_, hk, rfl⟩

theorem yields_eval_steady {known : Known} {m : Eval α} {Q : α → Prop} {r r' : Reader} {a : α}
    (hm : Keeps (· = known) m Q) (hr : r.known = known) :
    Yields (Reading.eval m) r a r' ↔ Yields m known a known ∧ r' = r := by
  unfold Reading.eval
  rw [yields_coding_steady (codingEval_keeps hm) hr, yields_codingEval]

/-- A region is read on its own; what matters outside is how much of it was used. -/
theorem yields_inRegion {region : List UInt8} {m : Reading α} {r r' : Reader} {β : Type}
    {f : Nat × Except Fault α → Reading β} {b : β} :
    Yields (Reading.inRegion region m >>= f) r b r' ↔
      Yields (f ((Id.run (m.run ⟨region, 0, r.known⟩)).2.position,
        (Id.run (m.run ⟨region, 0, r.known⟩)).1))
        { r with known := (Id.run (m.run ⟨region, 0, r.known⟩)).2.known } b r' := by
  unfold Yields
  rw [run_bind]
  rfl

/-- A structure after its length, once the length is known. -/
def readRegion (nested : String → Reading Value) (type field object : String) (n : Int) :
    Reading Value := do
  let n := (n % 0x10000000000000000).toNat
  let r ← get
  if 0x10000000000000000 ≤ r.position + n then throw (.regionOverflow type field)
  if r.left.length < n then throw (.length (.announced type field n))
  let (used, result) ← Reading.inRegion (r.left.take n) (nested object)
  let value ← ExceptT.mk (pure result)
  if used != n then throw (.length (.partlyUsed type field used n))
  Reading.skip n
  return value

theorem readSized_eq {nested : String → Reading Value} {type field object : String}
    {size : Scalar} : readSized nested type field size object =
      readInteger type field size >>= fun p => readRegion nested type field object p.2 :=
  rfl

/-- A region is read where all of it is there, and by a structure that uses all of it. -/
theorem yields_readRegion {nested : String → Reading Value} {type field object : String} {n : Int}
    {r r' : Reader} {v : Value} : Yields (readRegion nested type field object n) r v r' ↔
      ∃ count r₁, count = (n % 0x10000000000000000).toNat ∧
        r.position + count < 0x10000000000000000 ∧ count ≤ r.left.length ∧
          Yields (nested object) ⟨r.left.take count, 0, r.known⟩ v r₁ ∧ r₁.position = count ∧
            r' = { r.advance count with known := r₁.known } := by
  unfold readRegion
  rw [yields_bind]
  generalize hcount : (n % 0x10000000000000000).toNat = count
  constructor
  · rintro ⟨_, _, hget, hy⟩
    obtain ⟨hplace, hsame⟩ := yields_get.mp hget
    rw [hplace, hsame] at hy
    by_cases hend : 0x10000000000000000 ≤ r.position + count
    · rw [if_pos hend] at hy
      simp only [yields_bind, not_yields_throw, false_and, exists_false] at hy
    by_cases hle : r.left.length < count
    · rw [if_neg hend, if_pos hle] at hy
      simp only [yields_bind, not_yields_throw, false_and, exists_false] at hy
    rw [if_neg hend, if_neg hle, yields_inRegion] at hy
    generalize hout : Id.run ((nested object).run ⟨_, 0, r.known⟩) = out at hy
    obtain ⟨result, r₁⟩ := out
    obtain ⟨v', _, hv', hrest⟩ := yields_bind.mp hy
    obtain ⟨rfl, rfl⟩ := yields_mk_pure.mp hv'
    by_cases hused : r₁.position = count
    · rw [if_neg (by simp [hused])] at hrest
      obtain ⟨⟨⟩, _, hskip, hrest⟩ := yields_bind.mp hrest
      obtain ⟨rfl, rfl⟩ := yields_pure.mp hrest
      have hfits : count ≤ ({ r with known := r₁.known } : Reader).left.length :=
        Nat.le_of_not_lt hle
      exact ⟨count, r₁, rfl, by omega, hfits, hout, hused, (yields_skip hfits).mp hskip⟩
    · rw [if_pos (by simp [hused])] at hrest
      simp only [yields_bind, not_yields_throw, false_and, exists_false] at hrest
  · rintro ⟨count, r₁, rfl, hend, hle, hinner, hused, rfl⟩
    refine ⟨r, r, yields_get.mpr ⟨rfl, rfl⟩, ?_⟩
    rw [if_neg (by omega), if_neg (by omega), yields_inRegion]
    unfold Yields at hinner
    rw [hinner]
    refine yields_bind.mpr ⟨v, _, yields_mk_pure.mpr ⟨rfl, rfl⟩, ?_⟩
    rw [if_neg (by simp [hused])]
    have hfits : count ≤ ({ r with known := r₁.known } : Reader).left.length := hle
    exact yields_bind.mpr ⟨⟨⟩, _, (yields_skip hfits).mpr rfl, yields_pure.mpr ⟨rfl, rfl⟩⟩

section Arrays

variable {known : Known} {element : Reading Value} {item : Reader → Value → Reader → Prop}
  (hitem : ∀ r v r', r.known = known → (Yields element r v r' ↔ item r v r'))
  (htakes : ∀ r v r', item r v r' → ∃ taken, Takes taken r r')

include hitem htakes

theorem yields_readCount {count : Nat} {r r' : Reader} {items : List Value} (hr : r.known = known) :
    Yields (readCount element count) r items r' ↔
      ReadsRow item r items r' ∧ items.length = count := by
  induction count generalizing r items with
  | zero =>
    unfold readCount
    rw [yields_pure, List.length_eq_zero_iff]
    constructor
    · rintro ⟨rfl, rfl⟩
      exact ⟨.nil, rfl⟩
    · rintro ⟨h, rfl⟩
      cases h
      exact ⟨rfl, rfl⟩
  | succ count ih =>
    unfold readCount
    simp only [yields_bind, yields_pure]
    constructor
    · rintro ⟨v, r₁, hv, others, _, hrest, rfl, rfl⟩
      have hv := (hitem _ _ _ hr).mp hv
      obtain ⟨taken, ht⟩ := htakes _ _ _ hv
      obtain ⟨hrow, hlen⟩ := (ih (ht.known.trans hr)).mp hrest
      exact ⟨.cons hv hrow, by rw [List.length_cons, hlen]⟩
    · rintro ⟨h, hlen⟩
      cases h with
      | nil => cases hlen
      | cons hv hrow =>
        obtain ⟨taken, ht⟩ := htakes _ _ _ hv
        exact ⟨_, _, (hitem _ _ _ hr).mpr hv, _, _,
          (ih (ht.known.trans hr)).mpr ⟨hrow, Nat.succ.inj hlen⟩, rfl, rfl⟩

/-- Where there is room for an element of one byte each, the rest of a region is read to its end. -/
theorem yields_readRest {index room : Nat} {r r' : Reader} {items : List Value}
    (hr : r.known = known) (hroom : r.left.length ≤ room) :
    Yields (readRest element index room) r items r' ↔
      ReadsRow (fun r v r' => item r v r' ∧ r'.left.length ≠ r.left.length) r items r' ∧
        r'.left = [] := by
  induction room generalizing r items index with
  | zero =>
    have hempty : r.left = [] := List.length_eq_zero_iff.mp (Nat.le_zero.mp hroom)
    unfold readRest
    rw [yields_pure]
    constructor
    · rintro ⟨rfl, rfl⟩
      exact ⟨.nil, hempty⟩
    · rintro ⟨h, -⟩
      cases h with
      | nil => exact ⟨rfl, rfl⟩
      | cons hv =>
        obtain ⟨taken, ht⟩ := htakes _ _ _ hv.1
        exact (hv.2 (by have := ht.length_le; omega)).elim
  | succ room ih =>
    unfold readRest
    rw [yields_bind]
    simp only [yields_left]
    constructor
    · rintro ⟨before, _, ⟨rfl, rfl⟩, h⟩
      split at h
      · next hempty =>
        obtain ⟨rfl, rfl⟩ := yields_pure.mp h
        exact ⟨.nil, List.isEmpty_iff.mp hempty⟩
      · obtain ⟨v, r₁, hv, h⟩ := yields_bind.mp h
        have hv := (hitem _ _ _ hr).mp hv
        obtain ⟨taken, ht⟩ := htakes _ _ _ hv
        obtain ⟨after, _, hafter, h⟩ := yields_bind.mp h
        obtain ⟨rfl, rfl⟩ := yields_left.mp hafter
        split at h
        · simp only [yields_bind, not_yields_throw, false_and, exists_false] at h
        · next hprogress =>
          simp only [beq_iff_eq] at hprogress
          simp only [yields_bind, yields_pure] at h
          obtain ⟨others, _, hrest, rfl, rfl⟩ := h
          have := ht.length_le
          obtain ⟨hrow, hend⟩ := (ih (ht.known.trans hr) (by omega)).mp hrest
          exact ⟨.cons ⟨hv, hprogress⟩ hrow, hend⟩
    · rintro ⟨h, hend⟩
      refine ⟨r.left, r, ⟨rfl, rfl⟩, ?_⟩
      cases h with
      | nil =>
        rw [if_pos (List.isEmpty_iff.mpr hend), yields_pure]
        exact ⟨rfl, rfl⟩
      | @cons _ r₁ _ v others hv hrow =>
        obtain ⟨taken, ht⟩ := htakes _ _ _ hv.1
        have hle := ht.length_le
        have hlt : r₁.left.length < r.left.length := Nat.lt_of_le_of_ne hle hv.2
        have hempty : ¬ r.left.isEmpty = true := by
          rw [List.isEmpty_iff]
          intro h
          rw [h] at hlt
          cases hlt
        rw [if_neg hempty]
        refine yields_bind.mpr ⟨v, r₁, (hitem _ _ _ hr).mpr hv.1, ?_⟩
        refine yields_bind.mpr ⟨r₁.left, r₁, yields_left.mpr ⟨rfl, rfl⟩, ?_⟩
        rw [if_neg (by simpa using hv.2)]
        simp only [yields_bind, yields_pure]
        exact ⟨others, r', (ih (ht.known.trans hr) (by omega)).mpr ⟨hrow, hend⟩, rfl, rfl⟩

theorem yields_readElements {count : Option Nat} {r r' : Reader} {v : Value}
    (hr : r.known = known) :
    Yields (readElements element count) r v r' ↔ ∃ items, v = .list items ∧
      match count with
      | some n => ReadsRow item r items r' ∧ items.length = n
      | none => ReadsRow (fun r v r' => item r v r' ∧ r'.left.length ≠ r.left.length) r items r' ∧
          r'.left = [] := by
  unfold readElements
  cases count with
  | some n =>
    simp only [yields_bind, yields_pure]
    constructor
    · rintro ⟨items, _, h, rfl, rfl⟩
      exact ⟨items, rfl, (yields_readCount hitem htakes hr).mp h⟩
    · rintro ⟨items, rfl, h⟩
      exact ⟨items, r', (yields_readCount hitem htakes hr).mpr h, rfl, rfl⟩
  | none =>
    simp only [yields_bind, yields_pure, yields_left]
    constructor
    · rintro ⟨_, _, ⟨rfl, rfl⟩, items, _, h, rfl, rfl⟩
      exact ⟨items, rfl, (yields_readRest hitem htakes hr (Nat.le_refl _)).mp h⟩
    · rintro ⟨items, rfl, h⟩
      exact ⟨_, r, ⟨rfl, rfl⟩, items, r',
        (yields_readRest hitem htakes hr (Nat.le_refl _)).mpr h, rfl, rfl⟩

end Arrays

section Nested

variable {s : Schema} {known : Known} {nested : String → Reading Value}
  {related : String → Reader → Value → Reader → Prop}
  (hnested : ∀ type r v r', r.known = known → (Yields (nested type) r v r' ↔ related type r v r'))
  (htakes : ∀ type r v r', related type r v r' → ∃ taken, Takes taken r r')

include hnested htakes

theorem yields_readArray {element : Element} {count : Option Nat} {r r' : Reader} {v : Value}
    (hr : r.known = known) :
    Yields (readArray nested element count) r v r' ↔
      ReadsElements related element count r v r' := by
  -- An array of items is read item by item, whatever its items are.
  have each : ∀ (element' : Element) (item : Reading Value), element' ≠ .byte →
      (∀ r v r', r.known = known → (Yields item r v r' ↔ ReadsItem related element' r v r')) →
      (Yields (readElements item count) r v r' ↔ ReadsElements related element' count r v r') := by
    intro element' item hbyte hitem
    rw [yields_readElements hitem (fun _ _ _ => takes_of_readsItem htakes) hr]
    constructor
    · rintro ⟨items, rfl, h⟩
      cases count with
      | some n => exact .items hbyte h.1 h.2
      | none => exact .allItems hbyte h.1 h.2
    · intro h
      cases h with
      | bytes => exact (hbyte rfl).elim
      | allBytes => exact (hbyte rfl).elim
      | items _ h hlen => exact ⟨_, rfl, h, hlen⟩
      | allItems _ h hend => exact ⟨_, rfl, h, hend⟩
  unfold readArray
  cases element with
  | byte =>
    simp only [yields_bind, yields_left]
    constructor
    · rintro ⟨_, _, ⟨rfl, rfl⟩, h⟩
      split at h
      · simp only [yields_bind, not_yields_throw, false_and, exists_false] at h
      · next hlt =>
        simp only [yields_bind, yields_bytes, yields_pure] at h
        obtain ⟨_, _, ⟨-, rfl, rfl⟩, rfl, rfl⟩ := h
        cases count with
        | some n => exact .bytes (Nat.le_of_not_lt hlt)
        | none =>
          rw [Option.getD_none, List.take_length]
          exact .allBytes
    · intro h
      refine ⟨_, r, ⟨rfl, rfl⟩, ?_⟩
      cases h with
      | bytes hle =>
        rw [Option.getD_some, if_neg (Nat.not_lt.mpr hle)]
        simp only [yields_bind, yields_bytes, yields_pure]
        exact ⟨_, _, ⟨hle, rfl, rfl⟩, rfl, rfl⟩
      | allBytes =>
        rw [Option.getD_none, if_neg (Nat.lt_irrefl _)]
        simp only [yields_bind, yields_bytes, yields_pure]
        exact ⟨_, _, ⟨Nat.le_refl _, rfl, rfl⟩, by rw [List.take_length], rfl⟩
      | items hbyte | allItems hbyte => exact (hbyte rfl).elim
  | scalar c =>
    refine each _ _ (by simp) fun r v r' _ => ⟨.scalar, fun h => ?_⟩
    cases h
    assumption
  | object type =>
    refine each _ _ (by simp) fun r v r' hr => (hnested _ _ _ _ hr).trans ⟨.object, fun h => ?_⟩
    cases h
    assumption

theorem yields_readSized {type field object : String} {c : Scalar} {f : Field} {isData : Bool}
    {locals : Locals} {r r' : Reader} {v : Value} (hr : r.known = known) :
    Yields (readSized nested type field c object) r v r' ↔
      Reads s known related locals f isData (.sized c object) r (some v) locals r' := by
  -- Nothing is found out about constants inside the region, so it is left as it was entered.
  have hkeep : ∀ {r₁ r₂ : Reader} {count : Nat}, r₁.known = known →
      related object ⟨r₁.left.take count, 0, known⟩ v r₂ →
        ({ r₁.advance count with known := r₂.known } : Reader) = r₁.advance count := by
    intro r₁ r₂ count hr₁ hinner
    obtain ⟨inner, ht⟩ := htakes _ _ _ _ hinner
    rw [ht.known, ← hr₁]
    rfl
  rw [readSized_eq, yields_bind]
  constructor
  · rintro ⟨⟨w, n⟩, r₁, hw, hv⟩
    obtain ⟨hw, hn⟩ := yields_readInteger.mp hw
    obtain ⟨taken, ht, -⟩ := takes_of_readScalar hw
    have hr₁ := ht.known.trans hr
    obtain ⟨count, r₂, hcount, hend, hle, hinner, hused, rfl⟩ := yields_readRegion.mp hv
    rw [hr₁] at hinner
    have hinner := (hnested object ⟨_, 0, known⟩ v r₂ rfl).mp hinner
    rw [hkeep hr₁ hinner]
    exact .sized hw hn hcount.symm hend hle hinner hused
  · intro hv
    cases hv with
    | @sized _ _ w n count _ _ r₁ r₂ hw hn hcount hend hle hinner hused =>
    obtain ⟨taken, ht, -⟩ := takes_of_readScalar hw
    have hr₁ := ht.known.trans hr
    refine ⟨(w, n), r₁, yields_readInteger.mpr ⟨hw, hn⟩, yields_readRegion.mpr ?_⟩
    refine ⟨count, r₂, hcount.symm, hend, hle, ?_, hused, (hkeep hr₁ hinner).symm⟩
    rw [hr₁]
    exact (hnested object ⟨_, 0, known⟩ v r₂ rfl).mpr hinner

end Nested

section Settled

variable {s : Schema} {known : Known} (h : s.Remembers (· = known))

include h

theorem yields_decodedLength {type : String} {f : Field} {locals : Locals} {length : ArrayLength}
    {count : Option Nat} {r r' : Reader} (hr : r.known = known) :
    Yields (decodedLength s type f locals length) r count r' ↔
      CountFor s known locals f length count ∧ r' = r := by
  have other : (∀ field, length ≠ .tag field) →
      (Yields (Reading.coding (requiredLength s type locals length)) r count r' ↔
        CountFor s known locals f length count ∧ r' = r) := by
    intro hl
    subst hr
    rw [yields_coding]
    constructor
    · rintro ⟨k, hk, rfl⟩
      obtain ⟨hreq, rfl⟩ := (yields_requiredLength h).mp hk
      exact ⟨.other hl hreq, rfl⟩
    · rintro ⟨hc, rfl⟩
      cases hc with
      | tag => exact (hl _ rfl).elim
      | other _ hreq => exact ⟨_, (yields_requiredLength h).mpr ⟨hreq, rfl⟩, rfl⟩
  unfold decodedLength
  cases length with
  | fixed | rest | selected => exact other nofun
  | tag field =>
    simp only
    constructor
    · intro hc
      split at hc
      · simp only [Reading.invalid, yields_bind, not_yields_throw, false_and, exists_false] at hc
      · next hpos =>
        simp only [yields_bind, yields_pure, yields_coding] at hc
        obtain ⟨⟨⟩, _, ⟨k, hk, rfl⟩, rfl, rfl⟩ := hc
        rw [hr] at hk
        obtain ⟨hmax, hk⟩ := (yields_checkMaximum h).mp hk
        subst hk hr
        exact ⟨.tag rfl (by omega) hmax, rfl⟩
    · rintro ⟨hc, rfl⟩
      cases hc with
      | other hl => exact (hl field rfl).elim
      | tag hn hpos hmax =>
        subst hr
        rw [hn, if_neg (by omega)]
        refine yields_bind.mpr ⟨⟨⟩, _, yields_coding.mpr ⟨_, (yields_checkMaximum h).mpr
          ⟨hmax, rfl⟩, rfl⟩, yields_pure.mpr ⟨rfl, rfl⟩⟩

variable {nested : String → Reading Value} {related : String → Reader → Value → Reader → Prop}
  (hnested : ∀ type r v r', r.known = known → (Yields (nested type) r v r' ↔ related type r v r'))
  (htakes : ∀ type r v r', related type r v r' → ∃ taken, Takes taken r r')

include hnested

theorem yields_readMember {u : UnionType} {union : String} {n : Int}
    {members : List (UnionMember × Nat)} {r r' : Reader} {v : Value} (hr : r.known = known) :
    Yields (readMember s nested u union n members) r v r' ↔
      ∃ m i, Chooses s known n members m i ∧ ReadsMember s related u m i r v r' := by
  induction members with
  | nil =>
    refine ⟨fun hv => (not_yields_throw hv).elim, ?_⟩
    rintro ⟨m, i, hm, -⟩
    cases hm
  | cons p members ih =>
    obtain ⟨m, i⟩ := p
    have value : ∀ n', Yields (Reading.eval (s.constantValue m.selector)) r n' r ↔
        Yields (s.constantValue m.selector) known n' known := fun n' =>
      (yields_eval_steady (Schema.constantValue_keeps h m.selector) hr).trans (and_iff_left rfl)
    unfold readMember
    rw [yields_bind]
    constructor
    · rintro ⟨n', r₁, hn', hv⟩
      obtain ⟨hvalue, rfl⟩ :=
        (yields_eval_steady (Schema.constantValue_keeps h m.selector) hr).mp hn'
      split at hv
      · next hne =>
        obtain ⟨m', i', hm', hread⟩ := ih.mp hv
        exact ⟨m', i', .later hvalue (by simpa using hne) hm', hread⟩
      · next heq =>
        have heq : n' = n := by simpa using heq
        refine ⟨m, i, .here (heq ▸ hvalue), ?_⟩
        split at hv
        · next hi =>
          obtain ⟨rfl, rfl⟩ := yields_pure.mp hv
          exact .absent (by simpa using hi)
        · next hi =>
          have hi : u.nullMember ≠ some i := by simpa using hi
          split at hv
          · next hrecord =>
            simp only [yields_bind, yields_pure] at hv
            obtain ⟨w, _, hw, rfl, rfl⟩ := hv
            exact .record hi hrecord ((hnested _ _ _ _ hr).mp hw)
          · next hrecord =>
            split at hv
            · next c hc =>
              simp only [yields_bind, yields_pure] at hv
              obtain ⟨w, _, hw, rfl, rfl⟩ := hv
              exact .scalar hi (by simpa using hrecord) hc hw
            · exact (not_yields_throw hv).elim
    · rintro ⟨m', i', hm', hread⟩
      cases hm' with
      | later hn' hne hm' =>
        refine ⟨_, r, (value _).mpr hn', ?_⟩
        rw [if_pos (by simpa using hne)]
        exact ih.mpr ⟨m', i', hm', hread⟩
      | here hn =>
        refine ⟨n, r, (value _).mpr hn, ?_⟩
        rw [if_neg (by simp)]
        cases hread with
        | absent hi =>
          rw [if_pos (by simpa using hi)]
          exact yields_pure.mpr ⟨rfl, rfl⟩
        | record hi hrecord hw =>
          rw [if_neg (by simpa using hi), if_pos hrecord]
          simp only [yields_bind, yields_pure]
          exact ⟨_, r', (hnested _ _ _ _ hr).mpr hw, rfl, rfl⟩
        | scalar hi hrecord hc hw =>
          rw [if_neg (by simpa using hi), if_neg (by rw [hrecord]; exact Bool.false_ne_true)]
          simp only [hc, yields_bind, yields_pure]
          exact ⟨_, r', hw, rfl, rfl⟩

theorem yields_readUnion {union : String} {n : Int} {r r' : Reader} {v : Value}
    (hr : r.known = known) :
    Yields (readUnion s nested union n) r v r' ↔ ReadsUnion s known related union n r v r' := by
  unfold readUnion
  simp only [yields_bind, yields_coding, yields_unionType]
  constructor
  · rintro ⟨u, _, ⟨_, ⟨hu, rfl⟩, rfl⟩, hv⟩
    obtain ⟨m, i, hm, hread⟩ := (yields_readMember h hnested hr).mp hv
    exact ⟨u, m, i, hu, hm, hread⟩
  · rintro ⟨u, m, i, hu, hm, hread⟩
    exact ⟨u, r, ⟨_, ⟨hu, rfl⟩, rfl⟩, (yields_readMember h hnested hr).mpr ⟨m, i, hm, hread⟩⟩

include htakes

/-- What a step reads, and nothing else happens. -/
theorem yields_decodeStep {type : String} {p p' : Partial} {step : Step} {r r' : Reader}
    (hr : r.known = known) :
    Yields (decodeStep s nested type p step) r p' r' ↔ ∃ v locals',
      Reads s known related p.locals step.field step.isData step.op r v locals' r' ∧
        p' = p.after step.field.name v locals' := by
  unfold decodeStep
  cases hop : step.op with
  | scalar c =>
    simp only [yields_bind, yields_pure]
    constructor
    · rintro ⟨⟨v, n⟩, _, hv, rfl, rfl⟩
      obtain ⟨hv, hn⟩ := yields_readInteger.mp hv
      exact ⟨_, _, .scalar hv hn, rfl⟩
    · rintro ⟨v, locals', hread, rfl⟩
      cases hread with
      | scalar hv hn => exact ⟨(_, _), r', yields_readInteger.mpr ⟨hv, hn⟩, rfl, rfl⟩
  | object object =>
    simp only [yields_bind, yields_pure]
    constructor
    · rintro ⟨v, _, hv, rfl, rfl⟩
      exact ⟨_, _, .object ((hnested _ _ _ _ hr).mp hv), rfl⟩
    · rintro ⟨v, locals', hread, rfl⟩
      cases hread with
      | object hv => exact ⟨_, r', (hnested _ _ _ _ hr).mpr hv, rfl, rfl⟩
  | constant c text =>
    simp only [yields_bind]
    constructor
    · rintro ⟨v, r₁, hv, expected, _, he, n, _, hn, hp⟩
      obtain ⟨taken, ht, -⟩ := takes_of_readScalar hv
      obtain ⟨hvalue, rfl⟩ :=
        (yields_eval_steady (Schema.evaluate_keeps h text) (ht.known.trans hr)).mp he
      obtain ⟨k, hk, rfl⟩ := yields_coding.mp hn
      obtain ⟨hword, rfl⟩ := yields_integer.mp hk
      split at hp
      · simp only [Reading.invalid, yields_bind, not_yields_throw, false_and, exists_false] at hp
      · next heq =>
        have heq : n = expected := by simpa using heq
        obtain ⟨rfl, rfl⟩ := yields_pure.mp hp
        exact ⟨none, _, .constant hv hword (heq ▸ hvalue), rfl⟩
    · rintro ⟨v, locals', hread, rfl⟩
      cases hread with
      | @constant _ _ v n _ _ hv hn he =>
        obtain ⟨taken, ht, -⟩ := takes_of_readScalar hv
        refine ⟨v, r', hv, n, r',
          (yields_eval_steady (Schema.evaluate_keeps h text) (ht.known.trans hr)).mpr ⟨he, rfl⟩,
          n, r', yields_coding.mpr ⟨_, yields_integer.mpr ⟨hn, rfl⟩, rfl⟩, ?_⟩
        rw [if_neg (by simp)]
        exact yields_pure.mpr ⟨rfl, rfl⟩
  | count c array =>
    simp only [yields_bind, yields_pure]
    constructor
    · rintro ⟨⟨v, n⟩, _, hv, rfl, rfl⟩
      obtain ⟨hv, hn⟩ := yields_readInteger.mp hv
      exact ⟨none, _, .count hv hn, rfl⟩
    · rintro ⟨v, locals', hread, rfl⟩
      cases hread with
      | count hv hn => exact ⟨(_, _), r', yields_readInteger.mpr ⟨hv, hn⟩, rfl, rfl⟩
  | array element length =>
    simp only [yields_bind, yields_pure]
    constructor
    · rintro ⟨count, _, hc, v, _, hv, rfl, rfl⟩
      obtain ⟨hcount, rfl⟩ := (yields_decodedLength h hr).mp hc
      exact ⟨_, _, .array hcount ((yields_readArray hnested htakes hr).mp hv), rfl⟩
    · rintro ⟨v, locals', hread, rfl⟩
      cases hread with
      | array hc hv =>
        exact ⟨_, r, (yields_decodedLength h hr).mpr ⟨hc, rfl⟩, _, r',
          (yields_readArray hnested htakes hr).mpr hv, rfl, rfl⟩
  | sized size object =>
    simp only [yields_bind, yields_pure]
    constructor
    · rintro ⟨v, _, hv, rfl, rfl⟩
      exact ⟨_, _, (yields_readSized hnested htakes hr).mp hv, rfl⟩
    · rintro ⟨v, locals', hread, rfl⟩
      have hread' := hread
      cases hread with
      | sized => exact ⟨_, _, (yields_readSized hnested htakes hr).mpr hread', rfl, rfl⟩
  | selector c object derived =>
    simp only [yields_bind, yields_pure]
    constructor
    · rintro ⟨⟨v, n⟩, _, hv, rfl, rfl⟩
      obtain ⟨hv, hn⟩ := yields_readInteger.mp hv
      refine ⟨_, _, .selector hv hn, ?_⟩
      cases step.isData <;> rfl
    · rintro ⟨v, locals', hread, rfl⟩
      cases hread with
      | selector hv hn =>
        refine ⟨(_, _), r', yields_readInteger.mpr ⟨hv, hn⟩, ?_, rfl⟩
        cases step.isData <;> rfl
  | union union tag =>
    simp only [yields_bind, yields_pure]
    constructor
    · rintro ⟨n, _, hn, v, _, hv, rfl, rfl⟩
      obtain ⟨k, hk, rfl⟩ := yields_coding.mp hn
      obtain ⟨hlocal, rfl⟩ := yields_localValue.mp hk
      exact ⟨_, _, .union hlocal ((yields_readUnion h hnested hr).mp hv), rfl⟩
    · rintro ⟨v, locals', hread, rfl⟩
      cases hread with
      | union hn hv =>
        exact ⟨_, r, yields_coding.mpr ⟨_, yields_localValue.mpr ⟨hn, rfl⟩, rfl⟩, _, r',
          (yields_readUnion h hnested hr).mpr hv, rfl, rfl⟩

theorem yields_decodeSteps {type : String} {tail : Option (String × Int)} {steps : List Step}
    {p : Partial} {fields : List (String × Value)} {r r' : Reader} (hr : r.known = known) :
    (∃ p', Yields (decodeSteps s nested type tail p steps) r p' r' ∧ p'.fields = fields) ↔
      ∃ entries, ReadsAll s known related tail p.locals steps r entries r' ∧
        fields = Value.putFields p.fields entries := by
  have put : ∀ (p : Partial) name v locals,
      (p.after name v locals).fields = Value.putFields p.fields (entry name v) := by
    intro p name v locals
    cases v <;> rfl
  induction steps generalizing p r with
  | nil =>
    constructor
    · rintro ⟨p', hp, rfl⟩
      obtain ⟨rfl, rfl⟩ := yields_pure.mp hp
      exact ⟨[], .done, rfl⟩
    · rintro ⟨entries, hread, rfl⟩
      cases hread
      exact ⟨p, yields_pure.mpr ⟨rfl, rfl⟩, rfl⟩
  | cons step steps ih =>
    unfold decodeSteps
    constructor
    · rintro ⟨p', hp, rfl⟩
      obtain ⟨p₁, r₁, hstep, hp⟩ := yields_bind.mp hp
      obtain ⟨v, locals', hread, rfl⟩ := (yields_decodeStep h hnested htakes hr).mp hstep
      obtain ⟨taken, ht⟩ := takes_of_reads htakes hread
      cases hend : endsAfter tail step.field.name locals' with
      | true =>
        rw [show (p.after step.field.name v locals').locals = locals' from rfl, hend,
          if_pos rfl] at hp
        obtain ⟨rfl, rfl⟩ := yields_pure.mp hp
        exact ⟨_, .last hread hend, put _ _ _ _⟩
      | false =>
        rw [show (p.after step.field.name v locals').locals = locals' from rfl, hend,
          if_neg Bool.false_ne_true] at hp
        obtain ⟨entries, hrest, hfields⟩ := (ih (ht.known.trans hr)).mp ⟨p', hp, rfl⟩
        refine ⟨_, .more hread hend hrest, ?_⟩
        rw [hfields, put, Value.putFields, Value.putFields, Value.putFields, List.foldl_append]
    · rintro ⟨entries, hread, rfl⟩
      cases hread with
      | @last _ locals' _ _ _ v _ hread hend =>
        refine ⟨p.after step.field.name v locals', ?_, put _ _ _ _⟩
        refine yields_bind.mpr ⟨_, _, (yields_decodeStep h hnested htakes hr).mpr
          ⟨v, locals', hread, rfl⟩, ?_⟩
        rw [show (p.after step.field.name v locals').locals = locals' from rfl, hend, if_pos rfl]
        exact yields_pure.mpr ⟨rfl, rfl⟩
      | @more _ locals' _ _ _ v r₁ others _ hread hend hrest =>
        obtain ⟨taken, ht⟩ := takes_of_reads htakes hread
        obtain ⟨p', hp', hfields⟩ := (ih (p := p.after step.field.name v locals')
          (ht.known.trans hr)).mpr ⟨others, hrest, by
            rw [put, Value.putFields, Value.putFields, Value.putFields, List.foldl_append]⟩
        refine ⟨p', ?_, hfields⟩
        · refine yields_bind.mpr ⟨_, _, (yields_decodeStep h hnested htakes hr).mpr
            ⟨v, locals', hread, rfl⟩, ?_⟩
          rw [show (p.after step.field.name v locals').locals = locals' from rfl, hend,
            if_neg Bool.false_ne_true]
          exact hp'

theorem yields_decodeRecord {type : String} {r r' : Reader} {v : Value} (hr : r.known = known) :
    Yields (decodeRecord s nested type) r v r' ↔ ∃ steps tail entries,
      Plan s known type steps tail ∧ ReadsAll s known related tail [] steps r entries r' ∧
        v = .struct (Value.putFields [] entries) := by
  unfold decodeRecord
  simp only [yields_bind, yields_pure]
  constructor
  · rintro ⟨steps, _, hlayout, tail, _, htail, p, _, hp, rfl, rfl⟩
    obtain ⟨hsteps, rfl⟩ := (yields_eval_steady (layout_keeps h type) hr).mp hlayout
    obtain ⟨hend, rfl⟩ := (yields_coding_steady (tailEnd_keeps h type) hr).mp htail
    obtain ⟨entries, hread, hfields⟩ :=
      (yields_decodeSteps h hnested htakes hr).mp ⟨p, hp, rfl⟩
    exact ⟨steps, tail, entries, ⟨hsteps, hend⟩, hread, by rw [hfields]⟩
  · rintro ⟨steps, tail, entries, hplan, hread, rfl⟩
    have hsteps : ∃ p', Yields (decodeSteps s nested type tail {} steps) r p' r' ∧
        p'.fields = Value.putFields [] entries :=
      (yields_decodeSteps h hnested htakes hr).mpr ⟨entries, hread, rfl⟩
    obtain ⟨p, hp, hfields⟩ := hsteps
    exact ⟨steps, r, (yields_eval_steady (layout_keeps h type) hr).mpr ⟨hplan.layout, rfl⟩,
      tail, r, (yields_coding_steady (tailEnd_keeps h type) hr).mpr ⟨hplan.tail, rfl⟩,
      p, r', hp, by rw [hfields], rfl⟩

end Settled

/-- With so many levels a structure is read between two places. -/
def Decodes (s : Schema) (known : Known) (levels : Nat) (type : String) (r : Reader) (v : Value)
    (r' : Reader) : Prop :=
  r.known = known ∧ Yields (decodeAt s levels type) r v r'

section Levels

variable {s : Schema} {known : Known} (h : s.Remembers (· = known))

include h

theorem takes_of_decodes {levels : Nat} {type : String} {r r' : Reader} {v : Value}
    (hread : Decodes s known levels type r v r') : ∃ taken, Takes taken r r' := by
  induction levels generalizing type r v r' with
  | zero => exact (not_yields_throw hread.2).elim
  | succ levels ih =>
    obtain ⟨hr, hread⟩ := hread
    unfold decodeAt at hread
    obtain ⟨steps, tail, entries, -, hread, -⟩ := (yields_decodeRecord h
      (fun type r v r' hr => (and_iff_right hr).symm) (fun _ _ _ _ => ih) hr).mp hread
    exact takes_of_readsAll (fun _ _ _ _ => ih) hread

/-- A structure is read by its plan. -/
theorem decodes_succ {levels : Nat} {type : String} {r r' : Reader} {v : Value} :
    Decodes s known (levels + 1) type r v r' ↔ r.known = known ∧ ∃ steps tail entries,
      Plan s known type steps tail ∧
        ReadsAll s known (Decodes s known levels) tail [] steps r entries r' ∧
          v = .struct (Value.putFields [] entries) := by
  refine and_congr_right fun hr => ?_
  unfold decodeAt
  exact yields_decodeRecord h (fun type r v r' hr => (and_iff_right hr).symm)
    (fun _ _ _ _ => takes_of_decodes h) hr

end Levels

end WireTables.Wire
