import WireTables.Proofs.Wire.Fitness
import WireTables.Proofs.Wire.Forward

/-!
# Announced regions

A structure after its length is read in a region of its own, and two checks stand before the region:
that its end can be counted at all, and that there are as many bytes (`Announcement.fault?`). Which
lengths decoding comes to, at any depth, and in which place it stands then, is said by `Announces`:
what stands before in the same structure has been read, and a structure further inside has been
begun (`Begins`). No other part of decoding fails as the two checks do, so decoding fails like that
just where it comes to a length that fails one of them (`failsWith_decode`). Reading only goes
forward (`Forward`), so no such place is beyond the end of the bytes (`within_of_announces`).
-/

namespace WireTables

section FailsWith

variable {ε σ α β : Type} {m : ExceptT ε (StateM σ) α} {s : σ} {e : ε}

/-- Started in `s`, the calculation fails with `e`. -/
def FailsWith (m : ExceptT ε (StateM σ) α) (s : σ) (e : ε) : Prop :=
  ∃ s', Fails m s e s'

theorem failsWith_bind {f : α → ExceptT ε (StateM σ) β} : FailsWith (m >>= f) s e ↔
    FailsWith m s e ∨ ∃ a s₁, Yields m s a s₁ ∧ FailsWith (f a) s₁ e := by
  simp only [FailsWith, fails_bind]
  constructor
  · rintro ⟨s', h | ⟨a, s₁, hm, hf⟩⟩
    · exact .inl ⟨s', h⟩
    · exact .inr ⟨a, s₁, hm, s', hf⟩
  · rintro (⟨s', h⟩ | ⟨a, s₁, hm, s', hf⟩)
    · exact ⟨s', .inl h⟩
    · exact ⟨s', .inr ⟨a, s₁, hm, hf⟩⟩

theorem failsWith_throw {e' : ε} :
    FailsWith (throw e' : ExceptT ε (StateM σ) α) s e ↔ e' = e := by
  constructor
  · rintro ⟨s', h⟩
    have h : (Except.error e', s) = (Except.error e, s') := h
    cases h
    rfl
  · rintro rfl
    exact ⟨s, rfl⟩

theorem failsWith_get_bind {f : σ → ExceptT ε (StateM σ) α} :
    FailsWith (get >>= f) s e ↔ FailsWith (f s) s e :=
  Iff.rfl

theorem failsWith_iff : FailsWith m s e ↔ (Id.run (m.run s)).1 = .error e :=
  ⟨fun ⟨_, h⟩ => congrArg Prod.fst h, fun h => ⟨_, Prod.ext h rfl⟩⟩

/-- What a calculation does not fail with. -/
theorem Avoids.not_failsWith {E : ε → Prop} (h : Avoids E (fun _ => True) m) (he : E e) :
    ¬ FailsWith m s e := fun hf => (h s trivial).2 e (failsWith_iff.mp hf) he

/-- The first part of a sequence does not fail like that. -/
theorem failsWith_bind_of_avoids {E : ε → Prop} {f : α → ExceptT ε (StateM σ) β}
    (h : Avoids E (fun _ => True) m) (he : E e) :
    FailsWith (m >>= f) s e ↔ ∃ a s₁, Yields m s a s₁ ∧ FailsWith (f a) s₁ e :=
  failsWith_bind.trans (or_iff_right (h.not_failsWith he))

/-- The last part of a sequence does not fail like that. -/
theorem failsWith_bind_avoids {E : ε → Prop} {f : α → ExceptT ε (StateM σ) β}
    (h : ∀ a, Avoids E (fun _ => True) (f a)) (he : E e) :
    FailsWith (m >>= f) s e ↔ FailsWith m s e :=
  failsWith_bind.trans (or_iff_left fun ⟨a, _, _, hf⟩ => (h a).not_failsWith he hf)

end FailsWith

namespace Wire

/-- The failures of the checks before a region. -/
def Fault.Regional : Fault → Prop
  | .regionOverflow .. => True
  | .length (.announced ..) => True
  | _ => False

/-- A length that was read before a structure: where it belongs, how it travels, the number, and the
place behind it. -/
structure Announcement where
  owner : String
  field : String
  scalar : Scalar
  word : Int
  place : Reader

namespace Announcement

variable (a : Announcement)

/-- The number of bytes: 64 bits of the number, without a sign. -/
def count : Nat :=
  (a.word % 0x10000000000000000).toNat

/-- The failure of the checks before the region. -/
def fault? : Option Fault :=
  if 0x10000000000000000 ≤ a.place.position + a.count then
    some (.regionOverflow a.owner a.field)
  else if a.place.left.length < a.count then some (.length (.announced a.owner a.field a.count))
  else none

/-- The region, as it is read. -/
def region : Reader :=
  { left := a.place.left.take a.count, known := a.place.known }

end Announcement

/-- Steps that read one number and nothing more. -/
def Op.IsNumber : Op → Prop
  | .scalar _ | .constant .. | .count .. | .selector .. => True
  | _ => False

/-! ## Where a length is read -/

/-- A place where another element of an array is read. -/
inductive BeforeItem (element : Reading Value) : Option Nat → Reader → Reader → Prop
  | counted {n r items r'} (h : ReadsRow (Yields element) r items r') (hlt : items.length < n) :
    BeforeItem element (some n) r r'
  | rest {r items r'}
    (h : ReadsRow (fun r v r' => Yields element r v r' ∧ r'.left.length ≠ r.left.length) r items r')
    (hleft : r'.left ≠ []) : BeforeItem element none r r'

/-- A place where the value of a union member is read: the first one with this selector value. -/
inductive BeforeMember (s : Schema) (selector : Int) :
    List (UnionMember × Nat) → Reader → UnionMember → Nat → Reader → Prop
  | here {m i rest r r'} (h : Yields (Reading.eval (s.constantValue m.selector)) r selector r') :
    BeforeMember s selector ((m, i) :: rest) r m i r'
  | later {m i rest n r r' m' i' r''}
    (h : Yields (Reading.eval (s.constantValue m.selector)) r n r') (hne : n ≠ selector)
    (hrest : BeforeMember s selector rest r' m' i' r'') :
    BeforeMember s selector ((m, i) :: rest) r m' i' r''

/-- What is read first for a structure after its length. -/
inductive ReadsLength (owner : String) (st : Step) (r : Reader) : Announcement → Prop
  | intro {c object w n r'} (hop : st.op = .sized c object) (hr : Yields (readScalar c) r w r')
    (hw : w.word? = some n) : ReadsLength owner st r ⟨owner, st.field.name, c, n, r'⟩

section Schema

variable (s : Schema) (nested : String → Reading Value) (owner : String)

/-- Reading a step begins a structure at some place. -/
inductive Begins (p : Partial) (st : Step) (r : Reader) : String → Reader → Prop
  | object {type} (hop : st.op = .object type) : Begins p st r type r
  | element {type length count r₁ r'} (hop : st.op = .array (.object type) length)
    (hc : Yields (decodedLength s owner st.field p.locals length) r count r₁)
    (h : BeforeItem (nested type) count r₁ r') : Begins p st r type r'
  | sized {c type a} (hop : st.op = .sized c type) (ha : ReadsLength owner st r a)
    (hfits : a.fault? = none) : Begins p st r type a.region
  | union {union tag n u m i r₁ r₂ r'} (hop : st.op = .union union tag)
    (hn : Yields (Reading.coding (localValue owner p.locals tag)) r n r₁)
    (hu : Yields (Reading.coding (unionType s union)) r₁ u r₂)
    (hm : BeforeMember s n u.members.zipIdx r₂ m i r') (hi : u.nullMember ≠ some i)
    (hr : s.isRecord m.typeName = true) : Begins p st r m.typeName r'

/-- A step of a structure that is read at some place, and what has been read before it. -/
inductive ReadsUpTo (tail : Option (String × Int)) :
    Partial → List Step → Reader → Step → Partial → Reader → Prop
  | here {p step rest r} : ReadsUpTo tail p (step :: rest) r step p r
  | later {p p' p'' step st rest r r' r''} (h : Yields (decodeStep s nested owner p step) r p' r')
    (hend : endsAfter tail step.field.name p'.locals = false)
    (hrest : ReadsUpTo tail p' rest r' st p'' r'') : ReadsUpTo tail p (step :: rest) r st p'' r''

/-- A step of the structure that is read at some place. -/
inductive ComesTo (r : Reader) (st : Step) (p : Partial) (r' : Reader) : Prop
  | intro {steps tail r₁ r₂} (hsteps : Yields (Reading.eval (layout s owner)) r steps r₁)
    (htail : Yields (Reading.coding (tailEnd s owner)) r₁ tail r₂)
    (h : ReadsUpTo s nested owner tail {} steps r₂ st p r')

end Schema

/-- Reading a structure comes to a length, in the structure itself or in one inside it. -/
inductive Announces (s : Schema) : Nat → String → Reader → Announcement → Prop
  | here {levels type r st p r₁ a} (hst : ComesTo s (decodeAt s levels) type r st p r₁)
    (ha : ReadsLength type st r₁ a) : Announces s (levels + 1) type r a
  | inside {levels type r st p r₁ inner r₂ a} (hst : ComesTo s (decodeAt s levels) type r st p r₁)
    (hbegin : Begins s (decodeAt s levels) type p st r₁ inner r₂)
    (ha : Announces s levels inner r₂ a) : Announces s (levels + 1) type r a

/-! ## Places -/

/-- From `r` decoding can come to `r'`, which may be in a region of its own: the end of it is no
further from its start. -/
def Reader.Within (r r' : Reader) : Prop :=
  r'.position + r'.left.length ≤ r.position + r.left.length

theorem Reader.Before.within {r r' : Reader} (h : r.Before r') : r.Within r' :=
  Nat.le_of_eq h.end_eq

theorem Reader.Within.trans {r r' r'' : Reader} (h : r.Within r') (h' : r'.Within r'') :
    r.Within r'' :=
  Nat.le_trans h' h

theorem Announcement.within_region (a : Announcement) : a.place.Within a.region := by
  unfold Reader.Within Announcement.region
  simp only [List.length_take]
  omega

theorem within_of_readsLength {owner : String} {st : Step} {r : Reader} {a : Announcement}
    (h : ReadsLength owner st r a) : r.Within a.place := by
  obtain ⟨-, hr, -⟩ := h
  exact (forward_readScalar _ _ _ _ hr).within

theorem before_of_beforeItem {element : Reading Value} (h : Forward element) {count : Option Nat}
    {r r' : Reader} (hbefore : BeforeItem element count r r') : r.Before r' := by
  cases hbefore with
  | counted hrow => exact before_of_readsRow h hrow
  | rest hrow => exact before_of_readsRow h (hrow.imp fun _ _ _ hv => hv.1)

theorem before_of_beforeMember {s : Schema} {selector : Int} {members : List (UnionMember × Nat)}
    {r r' : Reader} {m : UnionMember} {i : Nat} (h : BeforeMember s selector members r m i r') :
    r.Before r' := by
  induction h with
  | here hn => exact Forward.coding _ _ _ hn
  | later hn _ _ ih => exact (Forward.coding _ _ _ hn).trans ih

section Places

variable {s : Schema} {nested : String → Reading Value} (h : ∀ type, Forward (nested type))

include h

theorem within_of_begins {owner : String} {p : Partial} {st : Step} {r r' : Reader}
    {inner : String} (hbegin : Begins s nested owner p st r inner r') : r.Within r' := by
  cases hbegin with
  | object => exact (Reader.Before.refl r).within
  | element _ hc hbefore =>
    exact ((forward_decodedLength _ _ _ _ _ _ _ _ hc).trans
      (before_of_beforeItem (h _) hbefore)).within
  | sized _ ha => exact (within_of_readsLength ha).trans (Announcement.within_region _)
  | union _ hn hu hm =>
    exact (((Forward.coding _ _ _ hn).trans (Forward.coding _ _ _ hu)).trans
      (before_of_beforeMember hm)).within

theorem before_of_comesTo {owner : String} {r r' : Reader} {st : Step} {p : Partial}
    (hst : ComesTo s nested owner r st p r') : r.Before r' := by
  have upTo : ∀ {tail p steps r st p' r'}, ReadsUpTo s nested owner tail p steps r st p' r' →
      r.Before r' := by
    intro tail p steps r st p' r' hst
    induction hst with
    | here => exact .refl _
    | later hstep _ _ ih => exact (forward_decodeStep h _ _ _ _ _ _ hstep).trans ih
  obtain ⟨hsteps, htail, hst⟩ := hst
  exact ((Forward.coding _ _ _ hsteps).trans (Forward.coding _ _ _ htail)).trans (upTo hst)

omit h in
/-- No length stands behind more bytes than there are. -/
theorem within_of_announces {levels : Nat} {type : String} {r : Reader} {a : Announcement}
    (ha : Announces s levels type r a) : r.Within a.place := by
  induction ha with
  | here hst ha =>
    exact (before_of_comesTo (forward_decodeAt _) hst).within.trans (within_of_readsLength ha)
  | inside hst hbegin _ ih =>
    exact ((before_of_comesTo (forward_decodeAt _) hst).within.trans
      (within_of_begins (forward_decodeAt _) hbegin)).trans ih

end Places

/-! ## What does not fail like that -/

section Avoids

theorem coding_unregional {m : Coding α} (h : Avoids Fault.Regional (fun _ => True) m) :
    Avoids Fault.Regional (fun _ => True) (Reading.coding m) :=
  fun r _ => ⟨trivial, (h r.known trivial).2⟩

theorem codingEval_unregional (m : Eval α) :
    Avoids Fault.Regional (fun _ => True) (Coding.eval m) := by
  refine fun k _ => ⟨trivial, fun e he => ?_⟩
  have he : (Id.run (m.run k)).1.mapError Fault.schema = .error e := he
  generalize (Id.run (m.run k)).1 = result at he
  cases result with
  | ok a => cases he
  | error e' =>
    cases he
    exact id

theorem eval_unregional (m : Eval α) :
    Avoids Fault.Regional (fun _ => True) (Reading.eval m) :=
  coding_unregional (codingEval_unregional m)

theorem bytes_unregional (count : Nat) :
    Avoids Fault.Regional (fun _ => True) (Reading.bytes count) := by
  refine (Avoids.get.andThen fun _ => .pure).andThen fun available => ?_
  refine (Avoids.modify fun _ _ => trivial).andThen fun _ => ?_
  split
  · exact .throw_bind id
  · exact .pure

theorem readScalar_unregional (c : Scalar) :
    Avoids Fault.Regional (fun _ => True) (readScalar c) := by
  unfold readScalar
  split
  · exact (bytes_unregional 1).andThen fun _ => .pure
  · split
    · exact (bytes_unregional _).andThen fun _ => .pure
    · exact .throw id

theorem integer_unregional (type field : String) (v : Value) :
    Avoids Fault.Regional (fun _ => True) (integer type field v) := by
  unfold integer
  split
  · exact .pure
  · exact .throw id

theorem readInteger_unregional (type field : String) (c : Scalar) :
    Avoids Fault.Regional (fun _ => True) (readInteger type field c) :=
  (readScalar_unregional c).andThen fun _ =>
    (coding_unregional (integer_unregional type field _)).andThen fun _ => .pure

theorem localValue_unregional (type field : String) (locals : Locals) :
    Avoids Fault.Regional (fun _ => True) (localValue type locals field) := by
  unfold localValue
  split
  · exact .pure
  · exact .throw id

variable {s : Schema}

theorem checkMaximum_unregional (type : String) (f : Field) (count : Nat) :
    Avoids Fault.Regional (fun _ => True) (checkMaximum s type f count) := by
  unfold checkMaximum
  split
  · exact .pure
  · refine (codingEval_unregional _).andThen fun _ => ?_
    split
    · exact .throw id
    · exact .pure

theorem requiredLength_unregional (type : String) (locals : Locals) (length : ArrayLength) :
    Avoids Fault.Regional (fun _ => True) (requiredLength s type locals length) := by
  cases length with
  | fixed | tag | rest => exact .pure
  | selected union selector =>
    refine (localValue_unregional type selector locals).andThen fun n => ?_
    refine ((codingEval_unregional _).andThen fun found => ?_).andThen fun _ => .pure
    split
    · exact .pure
    · exact .throw id

theorem decodedLength_unregional (type : String) (f : Field) (locals : Locals)
    (length : ArrayLength) :
    Avoids Fault.Regional (fun _ => True) (decodedLength s type f locals length) := by
  unfold decodedLength
  split
  · dsimp only
    split
    · exact .throw_bind id
    · exact (coding_unregional (checkMaximum_unregional type f _)).andThen fun _ => .pure
  · exact coding_unregional (requiredLength_unregional type locals _)

theorem unionType_unregional (union : String) :
    Avoids Fault.Regional (fun _ => True) (unionType s union) := by
  unfold unionType
  split
  · exact .pure
  · exact .throw id

theorem tailEnd_unregional (type : String) :
    Avoids Fault.Regional (fun _ => True) (tailEnd s type) := by
  unfold tailEnd recordType
  split
  · refine Avoids.pure.andThen fun _ => ?_
    split
    · exact (codingEval_unregional _).andThen fun _ => .pure
    · exact .pure
  · exact .throw_bind id

theorem decodeStep_unregional {nested : String → Reading Value} (owner : String) (p : Partial)
    {st : Step} (hop : st.op.IsNumber) :
    Avoids Fault.Regional (fun _ => True) (decodeStep s nested owner p st) := by
  unfold decodeStep
  cases hst : st.op with
  | scalar c | count c | selector c => exact (readInteger_unregional _ _ c).andThen fun _ => .pure
  | constant c text =>
    refine (readScalar_unregional c).andThen fun _ => (eval_unregional _).andThen fun _ =>
      (coding_unregional (integer_unregional _ _ _)).andThen fun _ => ?_
    split
    · exact .throw_bind id
    · exact .pure
  | object | array | sized | union =>
    rw [hst] at hop
    exact hop.elim

end Avoids

/-! ## Decoding fails like that where a length does -/

variable {F : Fault} (hF : F.Regional)

include hF

omit hF in
theorem failsWith_left_bind {f : List UInt8 → Reading α} {r : Reader} {F : Fault} :
    FailsWith (Reading.left >>= f) r F ↔ FailsWith (f r.left) r F :=
  Iff.rfl

omit hF in
theorem failsWith_inRegion_bind {region : List UInt8} {m : Reading α} {β : Type}
    {f : Nat × Except Fault α → Reading β} {r : Reader} :
    FailsWith (Reading.inRegion region m >>= f) r F ↔
      FailsWith (f ((Id.run (m.run ⟨region, 0, r.known⟩)).2.position,
        (Id.run (m.run ⟨region, 0, r.known⟩)).1))
        { r with known := (Id.run (m.run ⟨region, 0, r.known⟩)).2.known } F :=
  Iff.rfl

theorem failsWith_readRegion {nested : String → Reading Value} {a : Announcement}
    {object : String} : FailsWith (readRegion nested a.owner a.field object a.word) a.place F ↔
      a.fault? = some F ∨ a.fault? = none ∧ FailsWith (nested object) a.region F := by
  unfold readRegion Announcement.fault?
  dsimp only
  rw [failsWith_get_bind, show (a.word % 0x10000000000000000).toNat = a.count from rfl]
  by_cases hend : 0x10000000000000000 ≤ a.place.position + a.count
  · rw [if_pos hend, if_pos hend, throw_bind, failsWith_throw]
    simp
  by_cases hshort : a.place.left.length < a.count
  · rw [if_neg hend, if_neg hend, if_pos hshort, if_pos hshort, throw_bind, failsWith_throw]
    simp
  rw [if_neg hend, if_neg hend, if_neg hshort, if_neg hshort, failsWith_inRegion_bind]
  simp only [reduceCtorEq, true_and, false_or]
  rw [show FailsWith (nested object) a.region F ↔ _ from failsWith_iff]
  show _ ↔ (Id.run ((nested object).run ⟨a.place.left.take a.count, 0, a.place.known⟩)).1 = _
  rcases Id.run ((nested object).run ⟨a.place.left.take a.count, 0, a.place.known⟩) with
    ⟨result, r₁⟩
  cases result with
  | error e =>
    rw [Except.error.injEq]
    exact failsWith_throw
  | ok v =>
    -- the structure has been read, and that it is too short is another failure
    refine iff_of_false (Avoids.not_failsWith (Avoids.pure.andThen fun v => ?_) hF) nofun
    split
    · exact .throw_bind id
    · exact (Avoids.modify fun _ _ => trivial).andThen fun _ => .pure

theorem failsWith_readSized {nested : String → Reading Value} {owner object : String} {st : Step}
    {c : Scalar} (hop : st.op = .sized c object) {r : Reader} :
    FailsWith (readSized nested owner st.field.name c object) r F ↔
      ∃ a, ReadsLength owner st r a ∧
        (a.fault? = some F ∨ a.fault? = none ∧ FailsWith (nested object) a.region F) := by
  rw [readSized_eq, failsWith_bind_of_avoids (readInteger_unregional _ _ c) hF]
  constructor
  · rintro ⟨⟨w, n⟩, r₁, hy, hfail⟩
    obtain ⟨hr, hw⟩ := yields_readInteger.mp hy
    exact ⟨⟨owner, st.field.name, c, n, r₁⟩, .intro hop hr hw,
      (failsWith_readRegion hF (a := ⟨owner, st.field.name, c, n, r₁⟩)).mp hfail⟩
  · rintro ⟨a, ⟨hop', hr, hw⟩, ha⟩
    obtain ⟨rfl, -⟩ := Op.sized.inj (hop.symm.trans hop')
    exact ⟨_, _, yields_readInteger.mpr ⟨hr, hw⟩, (failsWith_readRegion hF).mpr ha⟩

section Items

variable {element : Reading Value}

theorem failsWith_readCount {count : Nat} {r : Reader} :
    FailsWith (readCount element count) r F ↔ ∃ items r',
      ReadsRow (Yields element) r items r' ∧ items.length < count ∧ FailsWith element r' F := by
  induction count generalizing r with
  | zero =>
    refine iff_of_false (Avoids.pure.not_failsWith hF) ?_
    rintro ⟨_, _, -, hlt, -⟩
    exact Nat.not_lt_zero _ hlt
  | succ count ih =>
    unfold readCount
    rw [failsWith_bind]
    constructor
    · rintro (hfail | ⟨v, r₁, hv, hfail⟩)
      · exact ⟨[], r, .nil, Nat.succ_pos _, hfail⟩
      · obtain ⟨items, r', hrow, hlt, hfail⟩ :=
          ih.mp ((failsWith_bind_avoids (fun _ => .pure) hF).mp hfail)
        exact ⟨v :: items, r', .cons hv hrow, Nat.succ_lt_succ hlt, hfail⟩
    · rintro ⟨items, r', hrow, hlt, hfail⟩
      cases hrow with
      | nil => exact .inl hfail
      | cons hv hrow =>
        exact .inr ⟨_, _, hv, (failsWith_bind_avoids (fun _ => .pure) hF).mpr
          (ih.mpr ⟨_, r', hrow, Nat.lt_of_succ_lt_succ hlt, hfail⟩)⟩

theorem failsWith_readRest (h : Forward element) {index room : Nat} {r : Reader}
    (hroom : r.left.length ≤ room) :
    FailsWith (readRest element index room) r F ↔ ∃ items r',
      ReadsRow (fun r v r' => Yields element r v r' ∧ r'.left.length ≠ r.left.length) r items r' ∧
        r'.left ≠ [] ∧ FailsWith element r' F := by
  -- where nothing is left no element is read, because an element would take some bytes
  have nothing : ∀ {r r' : Reader} {items}, r.left = [] → ReadsRow (fun r v r' =>
      Yields element r v r' ∧ r'.left.length ≠ r.left.length) r items r' → r'.left = [] := by
    intro r r' items hempty hrow
    cases hrow with
    | nil => exact hempty
    | cons hv =>
      have hle := (h _ _ _ hv.1).length_le
      rw [hempty] at hle
      exact (hv.2 (hempty ▸ Nat.le_zero.mp hle)).elim
  induction room generalizing r index with
  | zero =>
    refine iff_of_false (Avoids.pure.not_failsWith hF) ?_
    rintro ⟨items, r', hrow, hleft, -⟩
    exact hleft (nothing (List.length_eq_zero_iff.mp (Nat.le_zero.mp hroom)) hrow)
  | succ room ih =>
    unfold readRest
    rw [failsWith_left_bind]
    by_cases hempty : r.left = []
    · rw [if_pos (List.isEmpty_iff.mpr hempty)]
      refine iff_of_false (Avoids.pure.not_failsWith hF) ?_
      rintro ⟨items, r', hrow, hleft, -⟩
      exact hleft (nothing hempty hrow)
    rw [if_neg (by rwa [List.isEmpty_iff]), failsWith_bind]
    constructor
    · rintro (hfail | ⟨v, r₁, hv, hfail⟩)
      · exact ⟨[], r, .nil, hempty, hfail⟩
      · have hle := (h _ _ _ hv).length_le
        rw [failsWith_left_bind] at hfail
        split at hfail
        · exact ((Avoids.throw_bind (P := fun _ => True) id).not_failsWith hF hfail).elim
        · next hprogress =>
          have hprogress : r₁.left.length ≠ r.left.length := by simpa using hprogress
          obtain ⟨items, r', hrow, hleft, hfail⟩ :=
            (ih (by omega)).mp ((failsWith_bind_avoids (fun _ => .pure) hF).mp hfail)
          exact ⟨v :: items, r', .cons ⟨hv, hprogress⟩ hrow, hleft, hfail⟩
    · rintro ⟨items, r', hrow, hleft, hfail⟩
      cases hrow with
      | nil => exact .inl hfail
      | cons hv hrow =>
        obtain ⟨hv, hprogress⟩ := hv
        have hle := (h _ _ _ hv).length_le
        refine .inr ⟨_, _, hv, ?_⟩
        rw [failsWith_left_bind, if_neg (by simpa using hprogress)]
        exact (failsWith_bind_avoids (fun _ => .pure) hF).mpr
          ((ih (by omega)).mpr ⟨_, r', hrow, hleft, hfail⟩)

theorem failsWith_readElements (h : Forward element) {count : Option Nat} {r : Reader} :
    FailsWith (readElements element count) r F ↔
      ∃ r', BeforeItem element count r r' ∧ FailsWith element r' F := by
  unfold readElements
  cases count with
  | some n =>
    dsimp only
    rw [failsWith_bind_avoids (fun _ => .pure) hF, failsWith_readCount hF]
    constructor
    · rintro ⟨items, r', hrow, hlt, hfail⟩
      exact ⟨r', .counted hrow hlt, hfail⟩
    · rintro ⟨r', hbefore, hfail⟩
      cases hbefore with
      | counted hrow hlt => exact ⟨_, r', hrow, hlt, hfail⟩
  | none =>
    dsimp only
    rw [failsWith_left_bind, failsWith_bind_avoids (fun _ => .pure) hF,
      failsWith_readRest hF h (Nat.le_refl _)]
    constructor
    · rintro ⟨items, r', hrow, hleft, hfail⟩
      exact ⟨r', .rest hrow hleft, hfail⟩
    · rintro ⟨r', hbefore, hfail⟩
      cases hbefore with
      | rest hrow hleft => exact ⟨_, r', hrow, hleft, hfail⟩

end Items

section Nested

variable {s : Schema} {nested : String → Reading Value}

theorem failsWith_readMember {u : UnionType} {union : String} {n : Int}
    {members : List (UnionMember × Nat)} {r : Reader} :
    FailsWith (readMember s nested u union n members) r F ↔
      ∃ m i r', BeforeMember s n members r m i r' ∧ u.nullMember ≠ some i ∧
        s.isRecord m.typeName = true ∧ FailsWith (nested m.typeName) r' F := by
  induction members generalizing r with
  | nil =>
    refine iff_of_false ((Avoids.throw id).not_failsWith hF) ?_
    rintro ⟨m, i, r', hm, -⟩
    cases hm
  | cons p members ih =>
    obtain ⟨m, i⟩ := p
    unfold readMember
    rw [failsWith_bind_of_avoids (eval_unregional _) hF]
    constructor
    · rintro ⟨n', r₁, hn', hfail⟩
      split at hfail
      · next hne =>
        obtain ⟨m', i', r', hm', hfound⟩ := ih.mp hfail
        exact ⟨m', i', r', .later hn' (by simpa using hne) hm', hfound⟩
      · next heq =>
        obtain rfl : n' = n := by simpa using heq
        split at hfail
        · exact (Avoids.pure.not_failsWith hF hfail).elim
        · next hi =>
          split at hfail
          · next hrecord =>
            exact ⟨m, i, r₁, .here hn', by simpa using hi, hrecord,
              (failsWith_bind_avoids (fun _ => .pure) hF).mp hfail⟩
          · refine (Avoids.not_failsWith ?_ hF hfail).elim
            split
            · exact (readScalar_unregional _).andThen fun _ => .pure
            · exact .throw id
    · rintro ⟨m', i', r', hm', hi, hrecord, hfail⟩
      cases hm' with
      | later hn' hne hm' =>
        refine ⟨_, _, hn', ?_⟩
        rw [if_pos (by simpa using hne)]
        exact ih.mpr ⟨m', i', r', hm', hi, hrecord, hfail⟩
      | here hn =>
        refine ⟨n, r', hn, ?_⟩
        rw [if_neg (by simp), if_neg (by simpa using hi), if_pos hrecord]
        exact (failsWith_bind_avoids (fun _ => .pure) hF).mpr hfail

theorem failsWith_decodeSteps {owner : String} {tail : Option (String × Int)} {steps : List Step}
    {p : Partial} {r : Reader} :
    FailsWith (decodeSteps s nested owner tail p steps) r F ↔ ∃ st p' r₁,
      ReadsUpTo s nested owner tail p steps r st p' r₁ ∧
        FailsWith (decodeStep s nested owner p' st) r₁ F := by
  induction steps generalizing p r with
  | nil =>
    refine iff_of_false (Avoids.pure.not_failsWith hF) ?_
    rintro ⟨st, p', r₁, hst, -⟩
    cases hst
  | cons step steps ih =>
    unfold decodeSteps
    rw [failsWith_bind]
    constructor
    · rintro (hfail | ⟨p₁, r₁, hstep, hfail⟩)
      · exact ⟨step, p, r, .here, hfail⟩
      · split at hfail
        · exact (Avoids.pure.not_failsWith hF hfail).elim
        · next hend =>
          obtain ⟨st, p', r₂, hst, hfail⟩ := ih.mp hfail
          exact ⟨st, p', r₂, .later hstep (Bool.eq_false_iff.mpr hend) hst, hfail⟩
    · rintro ⟨st, p', r₂, hst, hfail⟩
      cases hst with
      | here => exact .inl hfail
      | later hstep hend hst =>
        refine .inr ⟨_, _, hstep, ?_⟩
        rw [hend, if_neg Bool.false_ne_true]
        exact ih.mpr ⟨st, p', r₂, hst, hfail⟩

theorem failsWith_decodeRecord {type : String} {r : Reader} :
    FailsWith (decodeRecord s nested type) r F ↔ ∃ st p r₁,
      ComesTo s nested type r st p r₁ ∧ FailsWith (decodeStep s nested type p st) r₁ F := by
  unfold decodeRecord
  rw [failsWith_bind_of_avoids (eval_unregional _) hF]
  constructor
  · rintro ⟨steps, r₁, hsteps, hfail⟩
    obtain ⟨tail, r₂, htail, hfail⟩ :=
      (failsWith_bind_of_avoids (coding_unregional (tailEnd_unregional type)) hF).mp hfail
    obtain ⟨st, p, r', hst, hfail⟩ := (failsWith_decodeSteps hF).mp
      ((failsWith_bind_avoids (fun _ => .pure) hF).mp hfail)
    exact ⟨st, p, r', .intro hsteps htail hst, hfail⟩
  · rintro ⟨st, p, r', ⟨hsteps, htail, hst⟩, hfail⟩
    refine ⟨_, _, hsteps, ?_⟩
    exact (failsWith_bind_of_avoids (coding_unregional (tailEnd_unregional type)) hF).mpr
      ⟨_, _, htail, (failsWith_bind_avoids (fun _ => .pure) hF).mpr
        ((failsWith_decodeSteps hF).mpr ⟨st, p, r', hst, hfail⟩)⟩

variable (h : ∀ type, Forward (nested type))

include h

theorem failsWith_readArray {element : Element} {count : Option Nat} {r : Reader} :
    FailsWith (readArray nested element count) r F ↔ ∃ type r', element = .object type ∧
      BeforeItem (nested type) count r r' ∧ FailsWith (nested type) r' F := by
  cases element with
  | byte =>
    refine iff_of_false (Avoids.not_failsWith ?_ hF) (by rintro ⟨_, _, ⟨⟩, -⟩)
    unfold readArray
    refine (Avoids.get.andThen fun _ => .pure).andThen fun _ => ?_
    dsimp only
    split
    · exact .throw_bind id
    · exact (bytes_unregional _).andThen fun _ => .pure
  | scalar c =>
    refine iff_of_false (fun hfail => ?_) (by rintro ⟨_, _, ⟨⟩, -⟩)
    obtain ⟨r', -, hfail⟩ := (failsWith_readElements hF (forward_readScalar c)).mp hfail
    exact (readScalar_unregional c).not_failsWith hF hfail
  | object type =>
    refine (failsWith_readElements hF (h type)).trans ⟨?_, ?_⟩
    · rintro ⟨r', hbefore, hfail⟩
      exact ⟨type, r', rfl, hbefore, hfail⟩
    · rintro ⟨_, r', ⟨⟩, hbefore, hfail⟩
      exact ⟨r', hbefore, hfail⟩

/-- A step fails like that with its own length or inside a structure that it begins. -/
theorem failsWith_decodeStep {owner : String} {p : Partial} {st : Step} {r : Reader} :
    FailsWith (decodeStep s nested owner p st) r F ↔
      (∃ a, ReadsLength owner st r a ∧ a.fault? = some F) ∨
        ∃ inner r', Begins s nested owner p st r inner r' ∧ FailsWith (nested inner) r' F := by
  by_cases hnumber : st.op.IsNumber
  · -- a step like that reads no length and begins nothing
    refine iff_of_false ((decodeStep_unregional owner p hnumber).not_failsWith hF) ?_
    rintro (⟨a, ha, -⟩ | ⟨inner, r', hbegin, -⟩)
    · cases ha with
      | intro hop => rwa [hop] at hnumber
    · cases hbegin with
      | object hop | element hop | sized hop | union hop => rwa [hop] at hnumber
  unfold decodeStep
  cases hop : st.op with
  | scalar | constant | count | selector => exact (hnumber (hop ▸ trivial)).elim
  | object object =>
    dsimp only
    rw [failsWith_bind_avoids (fun _ => .pure) hF]
    constructor
    · exact fun hfail => .inr ⟨object, r, .object hop, hfail⟩
    · rintro (⟨a, ha, -⟩ | ⟨inner, r', hbegin, hfail⟩)
      · cases ha with
        | intro hop' => cases hop.symm.trans hop'
      · cases hbegin with
        | object hop' => cases hop.symm.trans hop'; exact hfail
        | element hop' | sized hop' | union hop' => cases hop.symm.trans hop'
  | array element length =>
    dsimp only
    rw [failsWith_bind_of_avoids (decodedLength_unregional _ _ _ _) hF]
    constructor
    · rintro ⟨count, r₁, hc, hfail⟩
      obtain ⟨type, r', rfl, hbefore, hfail⟩ := (failsWith_readArray hF h).mp
        ((failsWith_bind_avoids (fun _ => .pure) hF).mp hfail)
      exact .inr ⟨type, r', .element hop hc hbefore, hfail⟩
    · rintro (⟨a, ha, -⟩ | ⟨inner, r', hbegin, hfail⟩)
      · cases ha with
        | intro hop' => cases hop.symm.trans hop'
      · cases hbegin with
        | element hop' hc hbefore =>
          cases hop.symm.trans hop'
          exact ⟨_, _, hc, (failsWith_bind_avoids (fun _ => .pure) hF).mpr
            ((failsWith_readArray hF h).mpr ⟨inner, r', rfl, hbefore, hfail⟩)⟩
        | object hop' | sized hop' | union hop' => cases hop.symm.trans hop'
  | sized c object =>
    dsimp only
    rw [failsWith_bind_avoids (fun _ => .pure) hF, failsWith_readSized hF hop]
    constructor
    · rintro ⟨a, ha, hfault | ⟨hfits, hfail⟩⟩
      · exact .inl ⟨a, ha, hfault⟩
      · exact .inr ⟨object, a.region, .sized hop ha hfits, hfail⟩
    · rintro (⟨a, ha, hfault⟩ | ⟨inner, r', hbegin, hfail⟩)
      · exact ⟨a, ha, .inl hfault⟩
      · cases hbegin with
        | sized hop' ha hfits =>
          cases hop.symm.trans hop'
          exact ⟨_, ha, .inr ⟨hfits, hfail⟩⟩
        | object hop' | element hop' | union hop' => cases hop.symm.trans hop'
  | union union tag =>
    dsimp only
    rw [failsWith_bind_of_avoids (coding_unregional (localValue_unregional _ _ _)) hF]
    constructor
    · rintro ⟨n, r₁, hn, hfail⟩
      obtain ⟨u, r₂, hu, hfail⟩ :=
        (failsWith_bind_of_avoids (coding_unregional (unionType_unregional _)) hF).mp
          ((failsWith_bind_avoids (fun _ => .pure) hF).mp hfail)
      obtain ⟨m, i, r', hm, hi, hrecord, hfail⟩ := (failsWith_readMember hF).mp hfail
      exact .inr ⟨m.typeName, r', .union hop hn hu hm hi hrecord, hfail⟩
    · rintro (⟨a, ha, -⟩ | ⟨inner, r', hbegin, hfail⟩)
      · cases ha with
        | intro hop' => cases hop.symm.trans hop'
      · cases hbegin with
        | union hop' hn hu hm hi hrecord =>
          cases hop.symm.trans hop'
          refine ⟨_, _, hn, (failsWith_bind_avoids (fun _ => .pure) hF).mpr ?_⟩
          exact (failsWith_bind_of_avoids (coding_unregional (unionType_unregional _)) hF).mpr
            ⟨_, _, hu, (failsWith_readMember hF).mpr ⟨_, _, _, hm, hi, hrecord, hfail⟩⟩
        | object hop' | element hop' | sized hop' => cases hop.symm.trans hop'

end Nested

/-- Decoding a structure fails like that where it comes to a length that does. -/
theorem failsWith_decodeAt {s : Schema} {levels : Nat} {type : String} {r : Reader} :
    FailsWith (decodeAt s levels type) r F ↔
      ∃ a, Announces s levels type r a ∧ a.fault? = some F := by
  induction levels generalizing type r with
  | zero =>
    refine iff_of_false ((Avoids.throw id).not_failsWith hF) ?_
    rintro ⟨a, ha, -⟩
    cases ha
  | succ levels ih =>
    unfold decodeAt
    rw [failsWith_decodeRecord hF]
    simp only [failsWith_decodeStep hF (forward_decodeAt levels), ih]
    constructor
    · rintro ⟨st, p, r₁, hst, ⟨a, ha, hfault⟩ | ⟨inner, r₂, hbegin, a, ha, hfault⟩⟩
      · exact ⟨a, .here hst ha, hfault⟩
      · exact ⟨a, .inside hst hbegin ha, hfault⟩
    · rintro ⟨a, ha, hfault⟩
      cases ha with
      | here hst ha => exact ⟨_, _, _, hst, .inl ⟨a, ha, hfault⟩⟩
      | inside hst hbegin ha => exact ⟨_, _, _, hst, .inr ⟨_, _, hbegin, a, ha, hfault⟩⟩

/-- Decoding bytes fails like that where it comes to a length that does. -/
theorem failsWith_decode {s : Schema} {type : String} {bytes : List UInt8} {known : Known} :
    FailsWith (decode s type bytes) known F ↔ ∃ a,
      Announces s (levels s bytes.length) type ⟨bytes, 0, known⟩ a ∧ a.fault? = some F := by
  rw [← failsWith_decodeAt hF, failsWith_iff, failsWith_iff]
  have heq : (Id.run ((decode s type bytes).run known)).1 =
      match Id.run ((decodeAt s (levels s bytes.length) type).run ⟨bytes, 0, known⟩) with
      | (result, r) => result.bind fun v => if r.position == bytes.length then .ok v
          else .error (.length (.trailing type (bytes.length - r.position))) := rfl
  rw [heq]
  rcases Id.run ((decodeAt s (levels s bytes.length) type).run ⟨bytes, 0, known⟩) with ⟨result, r⟩
  cases result with
  | error e => rfl
  | ok v =>
    -- the whole structure has been read, and bytes that are left over are another failure
    refine iff_of_false (fun hfail => ?_) nofun
    have hfail : (if r.position == bytes.length then Except.ok v
      else .error (.length (.trailing type (bytes.length - r.position)))) = .error F := hfail
    split at hfail
    · cases hfail
    · cases hfail
      exact hF

end Wire

end WireTables
