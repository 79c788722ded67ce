import WireTables.Proofs.Wire.Tail

/-!
# Reading back what was written

What was written for a value is read as a value of the same shape, if the reader takes the same
turns as the writer: the numbers that decide about what follows are read back as they were written,
and every union value is the one that its selector chooses. The induction goes along the writing
and carries what both sides know about counts and selectors.
-/

namespace WireTables.Wire

/-- Two values of a field that have the same shape, down to their scalars and structures. Lists of
bytes are read as byte strings. -/
inductive Matches (s : Schema) (leaf : Scalar → Value → Value → Prop)
    (inner : String → Value → Value → Prop) : Op → Value → Value → Prop
  | scalar {c v w} (h : leaf c v w) : Matches s leaf inner (.scalar c) v w
  | selector {c object derived v w} (h : leaf c v w) :
    Matches s leaf inner (.selector c object derived) v w
  | object {type v w} (h : inner type v w) : Matches s leaf inner (.object type) v w
  | sized {c type v w} (h : inner type v w) : Matches s leaf inner (.sized c type) v w
  | bytes {length data} : Matches s leaf inner (.array .byte length) (.bytes data) (.bytes data)
  | byteItems {length items data} (h : items.length = data.length) :
    Matches s leaf inner (.array .byte length) (.list items) (.bytes data)
  | scalars {c length items items'} (h : List.Forall₂ (leaf c) items items') :
    Matches s leaf inner (.array (.scalar c) length) (.list items) (.list items')
  | objects {type length items items'} (hlen : items.length = items'.length)
    (h : ∀ x y, (x, y) ∈ items.zip items' → inner type x y) :
    Matches s leaf inner (.array (.object type) length) (.list items) (.list items')
  | absent {union tag} : Matches s leaf inner (.union union tag) .null .null
  | record {union tag type v w} (hr : s.isRecord type = true) (h : inner type v w) :
    Matches s leaf inner (.union union tag) (.union type v) (.union type w)
  | member {union tag type c v w} (hr : s.isRecord type = false) (hc : s.scalar? type = some c)
    (h : leaf c v w) : Matches s leaf inner (.union union tag) (.union type v) (.union type w)

/-- The second value is what the first one is read back as from the bytes of its number. -/
def ReadsBack (c : Scalar) (v w : Value) : Prop :=
  ∃ n bytes, v.word? = some n ∧ NumberBytes c n bytes ∧ scalarValue? c bytes = some w

/-- The number that is written for a selector: the one that the value gives, or else the one that
the value of the union-typed field determines. -/
def SelectorIs (s : Schema) (known : Known) (steps : List Step) (fields : List (String × Value))
    (st : Step) (n : Int) : Prop :=
  (∃ v, fields.lookup st.field.name = some v ∧ v.word? = some n) ∨
    (fields.lookup st.field.name = none ∧ ∃ c object v, st.op = .selector c object true ∧
      fields.lookup object = some v ∧ Derives s known steps object v n)

/-- A union value that stands for a member. -/
def Stands (u : UnionType) (m : UnionMember) (i : Nat) (v : Value) : Prop :=
  if u.nullMember = some i then v = .null else ∃ x, v = .union m.typeName x

/-- A union value stands for a member whose selector has this value. -/
def ChosenBy (s : Schema) (known : Known) (union : String) (v : Value) (n : Int) : Prop :=
  ∃ u m i, (s.lookup? union).bind TypeEntry.union? = some u ∧ u.members[i]? = some m ∧
    Yields (s.constantValue m.selector) known n known ∧ Stands u m i v

/-- The selectors of a union have values, and these are pairwise different. -/
def DistinctSelectors (s : Schema) (known : Known) (u : UnionType) : Prop :=
  ∃ values : List Int, values.Nodup ∧
    List.Forall₂ (fun m n => Yields (s.constantValue m.selector) known n known) u.members values

/-- The values of union-typed fields are those that their selectors choose, and the numbers that
decide about what follows are read as they are written. -/
structure Decided (s : Schema) (known : Known) (steps : List Step) (tail : Option (String × Int))
    (fields : List (String × Value)) : Prop where
  chosen : ∀ st ∈ written tail fields steps, ∀ union tag, st.op = .union union tag →
    ∀ v, fields.lookup st.field.name = some v → ∀ st' ∈ steps, st'.field.name = tag →
      ∀ n, SelectorIs s known steps fields st' n → ChosenBy s known union v n
  ending : ∀ selector null, tail = some (selector, null) → ∀ st ∈ written tail fields steps,
    st.field.name = selector → ∀ c, st.op = .scalar c → c.isBool = true →
      ∃ b, fields.lookup selector = some (.bool b)
  lengths : ∀ name v count, fields.lookup name = some v → v.length? = some count →
    count < 0x8000000000000000

/-- A plan in which the numbers that are not part of the value are no truth values, and what takes
the rest of a region comes last in it. -/
structure Regular (s : Schema) (known : Known) (steps : List Step) : Prop where
  constant : ∀ st ∈ steps, ∀ c text, st.op = .constant c text → c.isBool = false
  count : ∀ st ∈ steps, ∀ c array, st.op = .count c array → c.isBool = false
  size : ∀ st ∈ steps, ∀ c type, st.op = .sized c type → c.isBool = false
  selector : ∀ st ∈ steps, ∀ c object derived, st.op = .selector c object derived →
    c.isBool = false
  distinct : ∀ st ∈ steps, ∀ union tag u, st.op = .union union tag →
    (s.lookup? union).bind TypeEntry.union? = some u → DistinctSelectors s known u
  rest : ∀ pre st post, steps = pre ++ st :: post → ∀ element, st.op = .array element .rest →
    post = [] ∧ ∀ type, element ≠ .object type

section Numbers

theorem Takes.split {a b : List UInt8} {r r'' : Reader} (h : Takes (a ++ b) r r'') :
    ∃ r', Takes a r r' ∧ Takes b r' r'' := by
  refine ⟨⟨b ++ r''.left, r.position + a.length, r.known⟩, ⟨?_, rfl, rfl⟩, ⟨rfl, ?_, h.known⟩⟩
  · rw [h.left, List.append_assoc]
  · rw [h.position, List.length_append, Nat.add_assoc]

theorem Takes.end_eq {taken : List UInt8} {r r' : Reader} (h : Takes taken r r') :
    r'.position + r'.left.length = r.position + r.left.length := by
  rw [h.position, h.left, List.length_append, Nat.add_assoc]

/-- A number that was written is read as a number or truth value. -/
theorem readScalar_of_numberBytes {c : Scalar} {n : Int} {bytes : List UInt8} {r r' : Reader}
    (hc : Standard c) (hn : fitsWord n = true) (hb : NumberBytes c n bytes)
    (ht : Takes bytes r r') : ∃ w m, Yields (readScalar c) r w r' ∧
      scalarValue? c bytes = some w ∧ w.word? = some m ∧ (c.isBool = false → m = n) := by
  obtain ⟨hlen, w, m, hw, hm, hsame⟩ := scalarValue?_of_numberBytes hc hn hb
  exact ⟨w, m, readScalar_of_takes ht hlen hw, hw, hm, hsame⟩

/-- A truth value is read back as the same number. -/
theorem word_of_bool {c : Scalar} {b : Bool} {n : Int} {bytes : List UInt8} {w : Value} {m : Int}
    (hc : Standard c) (hbool : c.isBool = true) (hn : (Value.bool b).word? = some n)
    (hb : NumberBytes c n bytes) (hw : scalarValue? c bytes = some w) (hm : w.word? = some m) :
    m = n := by
  have hholds : HoldsScalar c (.bool b) := by
    unfold HoldsScalar
    rw [if_pos hbool]
    exact ⟨b, rfl⟩
  have := scalarValue?_of_holds hc hholds hn hb
  rw [hw, Option.some.injEq] at this
  subst this
  exact Option.some.inj (hm.symm.trans hn)

end Numbers

/-- Where a reader stands: nothing remains to be found out about constants, and the region ends
before the greatest signed 64-bit word. -/
structure Stable (known : Known) (r : Reader) : Prop where
  known : r.known = known
  bound : r.position + r.left.length < 0x8000000000000000

theorem Stable.of_takes {known : Known} {taken : List UInt8} {r r' : Reader} (h : Stable known r)
    (ht : Takes taken r r') : Stable known r' :=
  ⟨ht.known.trans h.known, by rw [ht.end_eq]; exact h.bound⟩

section Arrays

variable {s : Schema} {known : Known} {reads : String → Reader → Value → Reader → Prop}
  {writes : String → Value → List UInt8 → Prop} {inner : String → Value → Value → Prop}

theorem readsRow_of_parts {part : Value → List UInt8 → Prop}
    {item : Reader → Value → Reader → Prop} {facing : Value → Value → Prop} {items : List Value}
    {parts : List (List UInt8)} {r r' : Reader} (h : List.Forall₂ part items parts)
    (ht : Takes parts.flatten r r') (hr : Stable known r)
    (hitem : ∀ x ∈ items, ∀ bytes r₁ r₁', part x bytes → Takes bytes r₁ r₁' → Stable known r₁ →
      ∃ y, item r₁ y r₁' ∧ facing x y) :
    ∃ items', ReadsRow item r items' r' ∧ List.Forall₂ facing items items' := by
  induction h generalizing r with
  | nil =>
    refine ⟨[], ?_, .nil⟩
    rw [show r' = r by rw [ht.eq_mk, ← List.nil_append r'.left, ← List.flatten_nil, ← ht.left]; rfl]
    exact .nil
  | cons hpart _ ih =>
    rw [List.flatten_cons] at ht
    obtain ⟨r₁, ht₁, ht₂⟩ := ht.split
    obtain ⟨y, hy, hfacing⟩ := hitem _ List.mem_cons_self _ _ _ hpart ht₁ hr
    obtain ⟨items', hrow, hall⟩ := ih ht₂ (hr.of_takes ht₁)
      fun x hx => hitem x (List.mem_cons_of_mem _ hx)
    exact ⟨y :: items', .cons hy hrow, .cons hfacing hall⟩

/-- A list of bytes is written in as many bytes. -/
theorem length_of_byteItems {items : List Value} {parts : List (List UInt8)}
    (h : List.Forall₂ (ItemBytes writes .byte) items parts) :
    parts.flatten.length = items.length := by
  induction h with
  | nil => rfl
  | cons h _ ih =>
    cases h with
    | byte _ hb =>
      rw [List.flatten_cons, List.length_append, ih, hb.length_eq, List.length_cons, Nat.add_comm]
      rfl

theorem readsElements_of_elementBytes {element : Element} {length : ArrayLength}
    {count : Option Nat} {n : Nat} {v : Value} {bytes : List UInt8} {r r' : Reader}
    (hb : ElementBytes writes element v bytes) (hn : v.length? = some n) (ht : Takes bytes r r')
    (hr : Stable known r)
    (hcount : count = some n ∨ count = none ∧ r'.left = [] ∧ ∀ type, element ≠ .object type)
    (hstd : ∀ c, (Op.array element length).Uses s c → Standard c)
    (hnested : ∀ type, (Op.array element length).Holds s type → ∀ x,
      Inside s (.array element length) v type x → ∀ body r₁ r₁', writes type x body →
        Takes body r₁ r₁' → Stable known r₁ → ∃ y, reads type r₁ y r₁' ∧ inner type x y) :
    ∃ w, ReadsElements reads element count r w r' ∧
      Matches s ReadsBack inner (.array element length) v w := by
  have raw : ∀ data : List UInt8, data.length = n → Takes data r r' → element = .byte →
      ReadsElements reads element count r (.bytes data) r' := by
    rintro data hlen ht rfl
    have htake : r.left.take data.length = data := by rw [ht.left, List.take_left]
    have hadvance : r.advance data.length = r' := by
      rw [ht.eq_mk]
      unfold Reader.advance
      rw [ht.left, List.drop_left]
    have hle : data.length ≤ r.left.length := by rw [ht.left, List.length_append]; omega
    rcases hcount with rfl | ⟨rfl, hend, -⟩
    · have : ReadsElements reads .byte (some data.length) r _ _ := .bytes hle
      rw [htake, hadvance, hlen] at this
      exact this
    · have hall : r.left = data := by rw [ht.left, hend, List.append_nil]
      have : ReadsElements reads .byte none r _ _ := .allBytes
      rw [hall, hadvance] at this
      exact this
  cases hb with
  | bytes =>
    cases hn
    exact ⟨_, raw _ rfl ht rfl, .bytes⟩
  | @items _ items parts hparts =>
    cases hn
    cases element with
    | byte =>
      have hlen := length_of_byteItems hparts
      exact ⟨_, raw _ hlen ht rfl, .byteItems hlen.symm⟩
    | scalar c =>
      have hc := hstd c .element
      have number : ∀ x ∈ items, ∀ bytes r₁ r₁', ItemBytes writes (.scalar c) x bytes →
          Takes bytes r₁ r₁' → Stable known r₁ →
            ∃ y, ReadsSome reads (.scalar c) r₁ y r₁' ∧ ReadsBack c x y := by
        intro x _ bytes r₁ r₁' hitem ht _
        cases hitem with
        | @scalar _ _ m _ hm hb =>
          obtain ⟨y, _, hy, hback, -⟩ := readScalar_of_numberBytes hc (fitsWord_word? hm) hb ht
          refine ⟨y, ⟨.scalar hy, ?_⟩, m, bytes, hm, hb, hback⟩
          have hpos := readSize_pos hback
          rw [hc.readSize_eq, ← hb.length_eq] at hpos
          rw [ht.left, List.length_append]
          omega
      obtain ⟨items', hrow, hall⟩ := readsRow_of_parts hparts ht hr number
      refine ⟨.list items', ?_, .scalars hall⟩
      rcases hcount with rfl | ⟨rfl, hend, -⟩
      · exact .items nofun (ReadsRow.imp (fun _ _ _ h => h.1) hrow) hall.length_eq.symm
      · exact .allItems nofun hrow hend
    | object type =>
      have structure_ : ∀ x ∈ items, ∀ bytes r₁ r₁', ItemBytes writes (.object type) x bytes →
          Takes bytes r₁ r₁' → Stable known r₁ →
            ∃ y, ReadsItem reads (.object type) r₁ y r₁' ∧ inner type x y := by
        intro x hx bytes r₁ r₁' hitem ht hr
        cases hitem with
        | object hbody =>
          obtain ⟨y, hy, hsame⟩ := hnested type .element x (.element hx) _ _ _ hbody ht hr
          exact ⟨y, .object hy, hsame⟩
      obtain ⟨items', hrow, hall⟩ := readsRow_of_parts hparts ht hr structure_
      obtain ⟨hlen, hzip⟩ := List.forall₂_iff_zip.mp hall
      refine ⟨.list items', ?_, .objects hlen fun _ _ => hzip⟩
      rcases hcount with rfl | ⟨rfl, -, hno⟩
      · exact .items nofun hrow hall.length_eq.symm
      · exact (hno type rfl).elim

end Arrays

section Step

variable {s : Schema} {known : Known} {reads : String → Reader → Value → Reader → Prop}
  {writes : String → Value → List UInt8 → Prop} {inner : String → Value → Value → Prop}

/-- Where selectors are different, a member is chosen by its own. -/
theorem chooses_of_distinct {u : UnionType} (hdistinct : DistinctSelectors s known u) {i : Nat}
    {m : UnionMember} {n : Int} (hm : u.members[i]? = some m)
    (hn : Yields (s.constantValue m.selector) known n known) :
    Chooses s known n u.members.zipIdx m i := by
  have go : ∀ {members : List UnionMember} {values : List Int} (start i : Nat),
      List.Forall₂ (fun m n => Yields (s.constantValue m.selector) known n known) members values →
        values.Nodup → members[i]? = some m →
          Chooses s known n (members.zipIdx start) m (start + i) ∧ n ∈ values := by
    intro members values start i hall hnodup hm
    induction hall generalizing start i with
    | nil => cases hm
    | @cons first value rest values hfirst _ ih =>
      rw [List.nodup_cons] at hnodup
      rw [List.zipIdx_cons]
      cases i with
      | zero =>
        rw [List.getElem?_cons_zero, Option.some.injEq] at hm
        subst hm
        obtain ⟨rfl, -⟩ := hn.unique hfirst
        exact ⟨.here hn, List.mem_cons_self⟩
      | succ i =>
        rw [List.getElem?_cons_succ] at hm
        obtain ⟨hchosen, hmem⟩ := ih (start + 1) i hnodup.2 hm
        refine ⟨.later hfirst ?_ ?_, List.mem_cons_of_mem _ hmem⟩
        · rintro rfl
          exact hnodup.1 hmem
        · rwa [Nat.add_assoc, Nat.add_comm 1 i] at hchosen
  obtain ⟨values, hnodup, hall⟩ := hdistinct
  have := (go 0 i hall hnodup hm).1
  rwa [Nat.zero_add] at this

/-- What both sides know of the numbers written so far: the counts of arrays and the selectors. -/
structure Noted (s : Schema) (known : Known) (steps : List Step) (fields : List (String × Value))
    (st : Step) (enc dec : Locals) : Prop where
  count : ∀ c array, st.op = .count c array →
    dec.lookup st.field.name = some (arrayCount fields array : Int)
  selector : ∀ c object derived, st.op = .selector c object derived →
    ∃ n, SelectorIs s known steps fields st n ∧ enc.lookup st.field.name = some n ∧
      dec.lookup st.field.name = some n

/-- The bytes of a union value are read as the member that its selector chooses. -/
theorem readsUnion_of_writes {union tag : String} {u : UnionType} {m : UnionMember} {i : Nat}
    {n : Int} {v : Value} {bytes : List UInt8} {r r' : Reader} {steps : List Step}
    {fields : List (String × Value)} {f : Field} {enc enc' : Locals}
    (hu : (s.lookup? union).bind TypeEntry.union? = some u) (hm : u.members[i]? = some m)
    (hn : Yields (s.constantValue m.selector) known n known) (hstands : Stands u m i v)
    (hdistinct : DistinctSelectors s known u) (hv : fields.lookup f.name = some v)
    (hw : Writes s known writes steps fields enc f (.union union tag) bytes enc')
    (ht : Takes bytes r r') (hr : Stable known r)
    (hstd : ∀ c, (Op.union union tag).Uses s c → Standard c)
    (hnested : ∀ type, (Op.union union tag).Holds s type → ∀ x,
      Inside s (.union union tag) v type x → ∀ body r₁ r₁', writes type x body →
        Takes body r₁ r₁' → Stable known r₁ → ∃ y, reads type r₁ y r₁' ∧ inner type x y) :
    ∃ w, ReadsUnion s known reads union n r w r' ∧
      Matches s ReadsBack inner (.union union tag) v w := by
  have hchosen := chooses_of_distinct hdistinct hm hn
  have hmem : (m, i) ∈ u.members.zipIdx := List.mem_zipIdx_iff_getElem?.mpr hm
  unfold Stands at hstands
  split at hstands
  · next hi =>
    subst hstands
    cases hw with
    | absent =>
      have hsame : r' = r := by
        rw [ht.eq_mk, ← List.nil_append r'.left, ← ht.left]
        rfl
      rw [hsame]
      exact ⟨.null, ⟨u, m, i, hu, hchosen, .absent hi⟩, .absent⟩
    | held hv' => cases hv.symm.trans hv'
  · next hi =>
    obtain ⟨x, rfl⟩ := hstands
    cases hw with
    | absent hv' => cases hv.symm.trans hv'
    | held hv' hb =>
      cases hv.symm.trans hv'
      cases hb with
      | record hrecord hbody =>
        obtain ⟨y, hy, hsame⟩ := hnested _ (.member hu hmem hi hrecord) x (.member hrecord) _ _ _
          hbody ht hr
        exact ⟨_, ⟨u, m, i, hu, hchosen, .record hi hrecord hy⟩, .record hrecord hsame⟩
      | @scalar c _ k _ hrecord hc hk hb =>
        obtain ⟨y, _, hy, hback, -⟩ := readScalar_of_numberBytes
          (hstd c (.member hu hmem hi hrecord hc)) (fitsWord_word? hk) hb ht
        exact ⟨_, ⟨u, m, i, hu, hchosen, .scalar hi hrecord hc hy⟩,
          .member hrecord hc ⟨k, _, hk, hb, hback⟩⟩

theorem endsAfter_congr {tail : Option (String × Int)} {name : String} {enc dec : Locals}
    (h : ∀ null, tail = some (name, null) → enc.lookup name = dec.lookup name) :
    endsAfter tail name dec = endsAfter tail name enc := by
  unfold endsAfter
  split
  · next selector null =>
    by_cases hname : selector = name
    · subst hname
      rw [h null rfl]
    · simp only [beq_false_of_ne hname, Bool.false_and]
  · rfl

/-- What becomes of a written step on the side of the reader. -/
structure ReadStep (s : Schema) (known : Known) (reads : String → Reader → Value → Reader → Prop)
    (inner : String → Value → Value → Prop) (steps : List Step) (tail : Option (String × Int))
    (fields : List (String × Value)) (st : Step) (op : Op) (enc' dec : Locals) (r r' : Reader)
    (v : Option Value) (dec' : Locals) : Prop where
  reads : Reads s known reads dec st.field st.isData op r v dec' r'
  noted : Noted s known steps fields st enc' dec'
  ends : endsAfter tail st.field.name dec' = endsAfter tail st.field.name enc'
  isData : st.isData = v.isSome
  isMatch : ∀ y, v = some y → ∃ x, fields.lookup st.field.name = some x ∧
    Matches s ReadsBack inner op x y

variable {steps : List Step} {tail : Option (String × Int)} {fields : List (String × Value)}

/-- Nothing has to be known of a step that is neither a count nor a selector. -/
theorem noted_of_op {st : Step} {enc dec : Locals} (hcount : ∀ c array, st.op ≠ .count c array)
    (hselector : ∀ c object derived, st.op ≠ .selector c object derived) :
    Noted s known steps fields st enc dec :=
  ⟨fun c array hop => absurd hop (hcount c array),
    fun c object derived hop => absurd hop (hselector c object derived)⟩

/-- A structure ends only after a number or a structure. -/
theorem endsAfter_of_op (hsound : SoundPlan s steps tail) {st : Step} (hst : st ∈ steps)
    (hscalar : ∀ c, st.op ≠ .scalar c) (hobject : ∀ type, st.op ≠ .object type)
    (enc dec : Locals) : endsAfter tail st.field.name dec = endsAfter tail st.field.name enc := by
  refine endsAfter_congr fun null htail => ?_
  rcases hsound.tailSelector _ _ htail st hst rfl with ⟨c, hop⟩ | ⟨type, hop⟩
  · exact (hscalar c hop).elim
  · exact (hobject type hop).elim

/-- A length that the wire can hold is a word. -/
theorem fitsWord_natCast {n : Nat} (h : n < 0x8000000000000000) : fitsWord (n : Int) = true := by
  simp only [fitsWord, Bool.and_eq_true, decide_eq_true_eq]
  omega

theorem arrayCount_lt (hdecided : Decided s known steps tail fields) (array : String) :
    arrayCount fields array < 0x8000000000000000 := by
  unfold arrayCount
  cases hv : fields.lookup array with
  | none => decide
  | some v =>
    rw [Option.bind_some]
    cases hlen : v.length? with
    | none => decide
    | some count => exact hdecided.lengths array v count hv hlen

section Cases

variable (hsound : SoundPlan s steps tail) {st : Step} {enc dec : Locals} {bytes : List UInt8}
  {r r' : Reader}

include hsound

theorem readStep_scalar (hdecided : Decided s known steps tail fields)
    (hwritten : st ∈ written tail fields steps) {c : Scalar} (hop : st.op = .scalar c) {v : Value}
    {n : Int} (hv : fields.lookup st.field.name = some v) (hn : v.word? = some n)
    (hb : NumberBytes c n bytes) (ht : Takes bytes r r') :
    ∃ w dec', ReadStep s known reads inner steps tail fields st (.scalar c)
      ((st.field.name, n) :: enc) dec r r' w dec' := by
  have hst := mem_of_mem_written hwritten
  have hstd : Standard c := hsound.standard st hst c (hop ▸ .scalar)
  obtain ⟨w, m, hread, hback, hm, hsame⟩ := readScalar_of_numberBytes hstd (fitsWord_word? hn) hb ht
  have hends : endsAfter tail st.field.name ((st.field.name, m) :: dec) =
      endsAfter tail st.field.name ((st.field.name, n) :: enc) := by
    refine endsAfter_congr fun null htail => ?_
    rw [List.lookup_cons_self, List.lookup_cons_self, Option.some.injEq]
    -- A truth value is read back as the number that it was written as.
    cases hbool : c.isBool with
    | false => exact (hsame hbool).symm
    | true =>
      obtain ⟨b, hb'⟩ := hdecided.ending _ _ htail st hwritten rfl c hop hbool
      cases hv.symm.trans hb'
      exact (word_of_bool hstd hbool hn hb hback hm).symm
  refine ⟨some w, _, .scalar hread hm, noted_of_op (by simp [hop]) (by simp [hop]), hends,
    (hsound.linked.isData st hst).trans (by rw [hop]; rfl), ?_⟩
  rintro _ ⟨⟩
  exact ⟨v, hv, .scalar ⟨n, bytes, hn, hb, hback⟩⟩

theorem readStep_constant (h : s.Remembers (· = known)) (hregular : Regular s known steps)
    (hst : st ∈ steps) {c : Scalar} {text : String} (hop : st.op = .constant c text) {n : Int}
    (hn : Yields (s.evaluate text) known n known) (hb : NumberBytes c n bytes)
    (ht : Takes bytes r r') : ∃ w dec', ReadStep s known reads inner steps tail fields st
      (.constant c text) enc dec r r' w dec' := by
  have hstd : Standard c := hsound.standard st hst c (hop ▸ .constant)
  have hfits := ((Schema.evaluate_keeps h text).of_yields rfl hn).2
  obtain ⟨w, m, hread, -, hm, hsame⟩ := readScalar_of_numberBytes hstd hfits hb ht
  obtain rfl := hsame (hregular.constant st hst c text hop)
  exact ⟨none, dec, .constant hread hm hn, noted_of_op (by simp [hop]) (by simp [hop]),
    endsAfter_of_op hsound hst (by simp [hop]) (by simp [hop]) _ _,
    (hsound.linked.isData st hst).trans (by rw [hop]; rfl), by simp⟩

theorem readStep_count (hregular : Regular s known steps)
    (hdecided : Decided s known steps tail fields) (hst : st ∈ steps) {c : Scalar} {array : String}
    (hop : st.op = .count c array) (hb : NumberBytes c (arrayCount fields array) bytes)
    (ht : Takes bytes r r') : ∃ w dec', ReadStep s known reads inner steps tail fields st
      (.count c array) ((st.field.name, (arrayCount fields array : Int)) :: enc) dec r r' w
      dec' := by
  have hstd : Standard c := hsound.standard st hst c (hop ▸ .count)
  have hfits := fitsWord_natCast (arrayCount_lt hdecided array)
  obtain ⟨w, m, hread, -, hm, hsame⟩ := readScalar_of_numberBytes hstd hfits hb ht
  obtain rfl := hsame (hregular.count st hst c array hop)
  refine ⟨none, _, .count hread hm, ⟨fun c' array' h => ?_, by simp [hop]⟩,
    endsAfter_of_op hsound hst (by simp [hop]) (by simp [hop]) _ _,
    (hsound.linked.isData st hst).trans (by rw [hop]; rfl), by simp⟩
  cases hop.symm.trans h
  exact List.lookup_cons_self

theorem readStep_selector (hregular : Regular s known steps) (hst : st ∈ steps) {c : Scalar}
    {object : String} {derived : Bool} (hop : st.op = .selector c object derived) {n : Int}
    (hn : SelectorIs s known steps fields st n) (hfits : fitsWord n = true)
    (hv : st.isData = true → ∃ v, fields.lookup st.field.name = some v ∧ v.word? = some n)
    (hb : NumberBytes c n bytes) (ht : Takes bytes r r') :
    ∃ w dec', ReadStep s known reads inner steps tail fields st (.selector c object derived)
      ((st.field.name, n) :: enc) dec r r' w dec' := by
  have hstd : Standard c := hsound.standard st hst c (hop ▸ .selector)
  obtain ⟨w, m, hread, hback, hm, hsame⟩ := readScalar_of_numberBytes hstd hfits hb ht
  obtain rfl := hsame (hregular.selector st hst c object derived hop)
  refine ⟨_, _, .selector hread hm, ⟨by simp [hop], fun _ _ _ _ => ?_⟩,
    endsAfter_of_op hsound hst (by simp [hop]) (by simp [hop]) _ _, ?_, ?_⟩
  · exact ⟨m, hn, List.lookup_cons_self, List.lookup_cons_self⟩
  · cases st.isData <;> rfl
  · intro y hy
    split at hy
    · next hdata =>
      cases hy
      obtain ⟨v, hv, hword⟩ := hv hdata
      exact ⟨v, hv, .selector ⟨m, bytes, hword, hb, hback⟩⟩
    · cases hy

theorem readStep_object (hst : st ∈ steps) {type : String} (hop : st.op = .object type) {v : Value}
    (hv : fields.lookup st.field.name = some v) (henc : enc.lookup st.field.name = none)
    (hdec : dec.lookup st.field.name = none)
    (hnested : ∃ y, reads type r y r' ∧ inner type v y) :
    ∃ w dec', ReadStep s known reads inner steps tail fields st (.object type) enc dec r r' w
      dec' := by
  obtain ⟨y, hy, hsame⟩ := hnested
  refine ⟨some y, dec, .object hy, noted_of_op (by simp [hop]) (by simp [hop]),
    endsAfter_congr fun _ _ => henc.trans hdec.symm,
    (hsound.linked.isData st hst).trans (by rw [hop]; rfl), ?_⟩
  rintro _ ⟨⟩
  exact ⟨v, hv, .object hsame⟩

theorem readStep_sized (hregular : Regular s known steps) (hst : st ∈ steps) {c : Scalar}
    {type : String} (hop : st.op = .sized c type) {v : Value}
    (hv : fields.lookup st.field.name = some v) {size body : List UInt8}
    (hb : NumberBytes c body.length size) (ht : Takes (size ++ body) r r') (hr : Stable known r)
    (hnested : ∀ r₁ r₁', Takes body r₁ r₁' → Stable known r₁ → r₁'.left = [] →
      ∃ y, reads type r₁ y r₁' ∧ inner type v y) :
    ∃ w dec', ReadStep s known reads inner steps tail fields st (.sized c type) enc dec r r' w
      dec' := by
  have hstd : Standard c := hsound.standard st hst c (hop ▸ .size)
  obtain ⟨r₁, ht₁, ht₂⟩ := ht.split
  have hbound := (hr.of_takes ht₁).bound
  have hleft : r₁.left = body ++ r'.left := ht₂.left
  have hlen : r₁.left.length = body.length + r'.left.length := by
    rw [hleft, List.length_append]
  have hfits : fitsWord (body.length : Int) = true := fitsWord_natCast (by omega)
  obtain ⟨w, m, hread, -, hm, hsame⟩ := readScalar_of_numberBytes hstd hfits hb ht₁
  obtain rfl := hsame (hregular.size st hst c type hop)
  have htake : r₁.left.take body.length = body := by rw [hleft, List.take_left]
  -- The structure has a region of its own, which is just as long as it is.
  obtain ⟨y, hy, hmatch⟩ := hnested ⟨body, 0, known⟩ ⟨[], body.length, known⟩
    ⟨(List.append_nil body).symm, (Nat.zero_add _).symm, rfl⟩
    ⟨rfl, by show 0 + body.length < _; omega⟩ rfl
  have hadvance : r₁.advance body.length = r' := by
    rw [ht₂.eq_mk]
    unfold Reader.advance
    rw [hleft, List.drop_left]
  have hreads : Reads s known reads dec st.field st.isData (.sized c type) r (some y) dec
      (r₁.advance body.length) :=
    .sized hread hm (by omega) (by omega) (by omega) (by rw [htake]; exact hy) rfl
  rw [hadvance] at hreads
  refine ⟨some y, dec, hreads, noted_of_op (by simp [hop]) (by simp [hop]),
    endsAfter_of_op hsound hst (by simp [hop]) (by simp [hop]) _ _,
    (hsound.linked.isData st hst).trans (by rw [hop]; rfl), ?_⟩
  rintro _ ⟨⟩
  exact ⟨v, hv, .sized hmatch⟩

/-- The number of elements that were written is what the reader looks for, unless the array takes
the rest of its region. -/
theorem countFor_of_required (hregular : Regular s known steps) {pre post : List Step}
    (hsplit : steps = pre ++ st :: post) {element : Element} {length : ArrayLength}
    (hop : st.op = .array element length) {v : Value} {count : Nat} {required : Option Nat}
    (hv : fields.lookup st.field.name = some v) (hcount : v.length? = some count)
    (hreq : Required s known enc length required) (heq : ∀ n, required = some n → n = count)
    (hmax : WithinMaximum s known st.field count)
    (hnoted : ∀ st' ∈ pre, Noted s known steps fields st' enc dec)
    (hrest : ∀ element, st.op = .array element .rest → r'.left = []) :
    ∃ wanted, CountFor s known dec st.field length wanted ∧
      (wanted = some count ∨ wanted = none ∧ r'.left = [] ∧ ∀ type, element ≠ .object type) := by
  cases hreq with
  | @tag tag =>
    obtain ⟨st', hst', hname, c, hop'⟩ := hsound.linked.counted pre st post hsplit _ _ hop
    have hlookup := (hnoted st' hst').count _ _ hop'
    have harray : arrayCount fields st.field.name = count := by
      unfold arrayCount
      rw [hv, Option.bind_some, hcount, Option.getD_some]
    rw [hname, harray] at hlookup
    have hget : (dec.lookup tag).getD 0 = (count : Int) := by rw [hlookup, Option.getD_some]
    have hmax' : WithinMaximum s known st.field (count : Int).toNat := by
      rwa [Int.toNat_natCast]
    have hfor : CountFor s known dec st.field (.tag tag) (some (count : Int).toNat) :=
      .tag hget (Int.natCast_nonneg count) hmax'
    rw [Int.toNat_natCast] at hfor
    exact ⟨some count, hfor, .inl rfl⟩
  | fixed =>
    obtain rfl := heq _ rfl
    exact ⟨_, .other (by simp) .fixed, .inl rfl⟩
  | rest =>
    exact ⟨none, .other (by simp) .rest, .inr ⟨rfl, hrest element hop,
      (hregular.rest pre st post hsplit element hop).2⟩⟩
  | @selected union tag n size hn hsize =>
    obtain rfl := heq _ rfl
    obtain ⟨st', hst', hname, c, object, derived, hop'⟩ :=
      hsound.linked.selected pre st post hsplit _ _ _ hop
    obtain ⟨k, -, henc', hdec'⟩ := (hnoted st' hst').selector _ _ _ hop'
    rw [hname] at henc' hdec'
    obtain rfl := Option.some.inj (hn.symm.trans henc')
    exact ⟨_, .other (by simp) (.selected hdec' hsize), .inl rfl⟩

theorem readStep_array (hst : st ∈ steps) {element : Element} {length : ArrayLength}
    (hop : st.op = .array element length) {v : Value} {count : Nat} {wanted : Option Nat}
    (hv : fields.lookup st.field.name = some v) (hcount : v.length? = some count)
    (hwanted : CountFor s known dec st.field length wanted)
    (hkind : wanted = some count ∨ wanted = none ∧ r'.left = [] ∧ ∀ type, element ≠ .object type)
    (hb : ElementBytes writes element v bytes) (ht : Takes bytes r r') (hr : Stable known r)
    (hnested : ∀ type, (Op.array element length).Holds s type → ∀ x,
      Inside s (.array element length) v type x → ∀ body r₁ r₁', writes type x body →
        Takes body r₁ r₁' → Stable known r₁ → ∃ y, reads type r₁ y r₁' ∧ inner type x y) :
    ∃ w dec', ReadStep s known reads inner steps tail fields st (.array element length) enc dec
      r r' w dec' := by
  obtain ⟨w, hread, hmatch⟩ := readsElements_of_elementBytes hb hcount ht hr hkind
    (fun c hc => hsound.standard st hst c (hop ▸ hc)) hnested
  refine ⟨some w, dec, .array hwanted hread, noted_of_op (by simp [hop]) (by simp [hop]),
    endsAfter_of_op hsound hst (by simp [hop]) (by simp [hop]) _ _,
    (hsound.linked.isData st hst).trans (by rw [hop]; rfl), ?_⟩
  rintro _ ⟨⟩
  exact ⟨v, hv, hmatch⟩

/-- A union value is read back the same way whether it is there or not. -/
theorem readStep_union (hregular : Regular s known steps)
    (hdecided : Decided s known steps tail fields) {pre post : List Step}
    (hsplit : steps = pre ++ st :: post) (hwritten : st ∈ written tail fields steps)
    {union tag : String} (hop : st.op = .union union tag) {v : Value}
    (hv : fields.lookup st.field.name = some v)
    (hw : Writes s known writes steps fields enc st.field (.union union tag) bytes enc)
    (ht : Takes bytes r r') (hr : Stable known r)
    (hnoted : ∀ st' ∈ pre, Noted s known steps fields st' enc dec)
    (hnested : ∀ type, (Op.union union tag).Holds s type → ∀ x,
      Inside s (.union union tag) v type x → ∀ body r₁ r₁', writes type x body →
        Takes body r₁ r₁' → Stable known r₁ → ∃ y, reads type r₁ y r₁' ∧ inner type x y) :
    ∃ w dec', ReadStep s known reads inner steps tail fields st (.union union tag) enc dec r r' w
      dec' := by
  have hst := mem_of_mem_written hwritten
  obtain ⟨st', hst', hname, c, object, hop'⟩ :=
    hsound.linked.union pre st post hsplit union tag hop
  have hmem : st' ∈ steps := by
    rw [hsplit]
    exact List.mem_append_left _ hst'
  obtain ⟨n, hn, -, hlocal⟩ := (hnoted st' hst').selector c object true hop'
  rw [hname] at hlocal
  obtain ⟨u, m, i, hu, hm, hvalue, hstands⟩ :=
    hdecided.chosen st hwritten union tag hop v hv st' hmem hname n hn
  obtain ⟨w, hread, hmatch⟩ := readsUnion_of_writes hu hm hvalue hstands
    (hregular.distinct st hst union tag u hop hu) hv hw ht hr
    (fun c hc => hsound.standard st hst c (hop ▸ hc)) hnested
  refine ⟨some w, dec, .union hlocal hread, noted_of_op (by simp [hop]) (by simp [hop]),
    endsAfter_of_op hsound hst (by simp [hop]) (by simp [hop]) _ _,
    (hsound.linked.isData st hst).trans (by rw [hop]; rfl), ?_⟩
  rintro _ ⟨⟩
  exact ⟨v, hv, hmatch⟩

end Cases

/-- A step that was written is read back. -/
theorem readStep_of_writes (h : s.Remembers (· = known)) (hsound : SoundPlan s steps tail)
    (hregular : Regular s known steps) (hdecided : Decided s known steps tail fields)
    {pre post : List Step} {st : Step} (hsplit : steps = pre ++ st :: post)
    (hwritten : st ∈ written tail fields steps) {enc enc' dec : Locals}
    {bytes : List UInt8} {r r' : Reader}
    (hw : Writes s known writes steps fields enc st.field st.op bytes enc') (ht : Takes bytes r r')
    (hr : Stable known r) (henc : enc.lookup st.field.name = none)
    (hdec : dec.lookup st.field.name = none)
    (hnoted : ∀ st' ∈ pre, Noted s known steps fields st' enc dec)
    (hrest : ∀ element, st.op = .array element .rest → r'.left = [])
    (hnested : ∀ type, st.op.Holds s type → ∀ w, fields.lookup st.field.name = some w → ∀ x,
      Inside s st.op w type x → ∀ body r₁ r₁', writes type x body → Takes body r₁ r₁' →
        Stable known r₁ → (r₁'.left = [] ∨ ∀ c, st.op ≠ .sized c type) →
          ∃ y, reads type r₁ y r₁' ∧ inner type x y) :
    ∃ v dec', ReadStep s known reads inner steps tail fields st st.op enc' dec r r' v dec' := by
  have hst : st ∈ steps := mem_of_mem_written hwritten
  generalize hop : st.op = op at hw hnested
  cases hw with
  | scalar hv hn hb => exact readStep_scalar hsound hdecided hwritten hop hv hn hb ht
  | @object type v _ hv hb =>
    exact readStep_object hsound hst hop hv henc hdec
      (hnested type .object v hv v .object _ _ _ hb ht hr (.inr (by simp)))
  | constant hn hb => exact readStep_constant hsound h hregular hst hop hn hb ht
  | count hb => exact readStep_count hsound hregular hdecided hst hop hb ht
  | @array element length v count required _ hv hcount hreq heq hmax hb =>
    obtain ⟨wanted, hwanted, hkind⟩ := countFor_of_required hsound hregular hsplit hop hv hcount
      hreq heq hmax hnoted hrest
    exact readStep_array hsound hst hop hv hcount hwanted hkind hb ht hr
      fun type htype x hx body r₁ r₁' hbody ht₁ hr₁ =>
        hnested type htype v hv x hx body r₁ r₁' hbody ht₁ hr₁ (.inr (by simp))
  | @sized c type v body size hv hbody hb =>
    exact readStep_sized hsound hregular hst hop hv hb ht hr fun r₁ r₁' ht₁ hr₁ hleft =>
      hnested type .sized v hv v .sized body r₁ r₁' hbody ht₁ hr₁ (.inl hleft)
  | @given c object derived v n _ hv hn hb =>
    exact readStep_selector hsound hregular hst hop (.inl ⟨v, hv, hn⟩) (fitsWord_word? hn)
      (fun _ => ⟨v, hv, hn⟩) hb ht
  | @derived c object v n _ hnone hv hn hb =>
    have hfits : fitsWord n = true := by
      obtain ⟨-, -, selecting, -, -, -, hvalue⟩ := hn
      exact ((Schema.constantValue_keeps h selecting.selector).of_yields rfl hvalue).2
    have hnotData : st.isData = false :=
      (hsound.linked.isData st hst).trans (by rw [hop]; rfl)
    exact readStep_selector hsound hregular hst hop (.inr ⟨hnone, c, object, v, hop, hv, hn⟩) hfits
      (by simp [hnotData]) hb ht
  | @absent union tag hv =>
    exact readStep_union hsound hregular hdecided hsplit hwritten hop hv (.absent hv) ht hr hnoted
      fun type htype x hx body r₁ r₁' hbody ht₁ hr₁ =>
        hnested type htype _ hv x hx body r₁ r₁' hbody ht₁ hr₁ (.inr (by simp))
  | @held union tag type v _ hv hb =>
    exact readStep_union hsound hregular hdecided hsplit hwritten hop hv (.held hv hb) ht hr hnoted
      fun type htype x hx body r₁ r₁' hbody ht₁ hr₁ =>
        hnested type htype _ hv x hx body r₁ r₁' hbody ht₁ hr₁ (.inr (by simp))

/-- What is known of a step remains known. -/
theorem Noted.keep {st : Step} {enc enc' dec dec' : Locals}
    (h : Noted s known steps fields st enc dec)
    (henc : enc'.lookup st.field.name = enc.lookup st.field.name)
    (hdec : dec'.lookup st.field.name = dec.lookup st.field.name) :
    Noted s known steps fields st enc' dec' := by
  refine ⟨fun c array hop => hdec.trans (h.count c array hop), fun c object derived hop => ?_⟩
  obtain ⟨n, hn, he, hd⟩ := h.selector c object derived hop
  exact ⟨n, hn, henc.trans he, hdec.trans hd⟩

/-- The entries that are read for some steps. -/
def EntriesMatch (s : Schema) (inner : String → Value → Value → Prop)
    (fields : List (String × Value)) (steps : List Step) (entries : List (String × Value)) : Prop :=
  List.Forall₂ (fun st e => e.1 = st.field.name ∧ ∃ x, fields.lookup st.field.name = some x ∧
    Matches s ReadsBack inner st.op x e.2) (steps.filter (·.isData)) entries

theorem EntriesMatch.cons {inner : String → Value → Value → Prop} {st : Step} {rest : List Step}
    {v : Option Value} {entries : List (String × Value)} (hdata : st.isData = v.isSome)
    (hv : ∀ y, v = some y → ∃ x, fields.lookup st.field.name = some x ∧
      Matches s ReadsBack inner st.op x y) (h : EntriesMatch s inner fields rest entries) :
    EntriesMatch s inner fields (st :: rest) (entry st.field.name v ++ entries) := by
  unfold EntriesMatch
  cases v with
  | none =>
    rw [List.filter_cons_of_neg (by rw [hdata]; exact Bool.false_ne_true)]
    exact h
  | some y =>
    rw [List.filter_cons_of_pos (by rw [hdata]; rfl)]
    exact .cons ⟨rfl, hv y rfl⟩ h

theorem names_of_entriesMatch {inner : String → Value → Value → Prop} {steps : List Step}
    {entries : List (String × Value)} (h : EntriesMatch s inner fields steps entries) :
    entries.map (·.1) = (steps.filter (·.isData)).map (·.field.name) := by
  unfold EntriesMatch at h
  generalize steps.filter (·.isData) = data at h
  induction h with
  | nil => rfl
  | cons he _ ih => rw [List.map_cons, List.map_cons, ih, he.1]

/-- What was read for a name was read for a step with this name. -/
theorem step_of_entriesMatch {inner : String → Value → Value → Prop} {steps : List Step}
    {entries : List (String × Value)} (h : EntriesMatch s inner fields steps entries)
    {name : String} {w : Value} (hw : entries.lookup name = some w) :
    ∃ st ∈ steps, st.field.name = name ∧ ∃ x, fields.lookup name = some x ∧
      Matches s ReadsBack inner st.op x w := by
  have hmem := mem_of_lookup_eq_some hw
  clear hw
  have sub : ∀ st ∈ steps.filter (·.isData), st ∈ steps := fun st hst => (List.mem_filter.mp hst).1
  unfold EntriesMatch at h
  generalize steps.filter (·.isData) = data at h sub
  induction h with
  | nil => cases hmem
  | @cons st e data entries he _ ih =>
    rcases List.mem_cons.mp hmem with rfl | hmem
    · obtain ⟨rfl, hx⟩ := he
      exact ⟨st, sub st List.mem_cons_self, rfl, hx⟩
    · exact ih hmem fun st hst => sub st (List.mem_cons_of_mem _ hst)

/-- A step that is part of the value has an entry on both sides. -/
theorem lookups_of_entriesMatch {inner : String → Value → Value → Prop} {steps : List Step}
    {entries : List (String × Value)} (h : EntriesMatch s inner fields steps entries) {st : Step}
    (hst : st ∈ steps) (hdata : st.isData = true) :
    (∃ x, fields.lookup st.field.name = some x) ∧ ∃ y, entries.lookup st.field.name = some y := by
  have hmem : st ∈ steps.filter (·.isData) := List.mem_filter.mpr ⟨hst, hdata⟩
  unfold EntriesMatch at h
  generalize steps.filter (·.isData) = data at h hmem
  induction h with
  | nil => cases hmem
  | @cons st' e data entries he _ ih =>
    obtain ⟨other, y⟩ := e
    obtain ⟨rfl, x, hx, -⟩ := he
    by_cases hname : st.field.name = st'.field.name
    · rw [hname]
      exact ⟨⟨x, hx⟩, y, List.lookup_cons_self⟩
    · rw [lookup_cons_ne hname]
      refine ih ((List.mem_cons.mp hmem).resolve_left ?_)
      rintro rfl
      exact hname rfl

/-- All the steps that were written are read back. -/
theorem readsAll_of_writesAll (h : s.Remembers (· = known)) (hsound : SoundPlan s steps tail)
    (hregular : Regular s known steps) (hdecided : Decided s known steps tail fields)
    (hstruct : ∀ type v bytes, writes type v bytes → ∃ fields, v = .struct fields)
    {pre rest : List Step} (hsplit : steps = pre ++ rest) {enc dec : Locals}
    {bytes : List UInt8} {r r' : Reader}
    (hw : WritesAll s known writes steps tail fields enc rest bytes) (ht : Takes bytes r r')
    (hr : Stable known r) (henc : ∀ st ∈ rest, enc.lookup st.field.name = none)
    (hdec : ∀ st ∈ rest, dec.lookup st.field.name = none)
    (hnoted : ∀ st ∈ pre, Noted s known steps fields st enc dec)
    (hwritten : ∀ st ∈ written tail fields rest, st ∈ written tail fields steps)
    (hopen : r'.left = [] ∨ ∀ st ∈ steps, ∀ element, st.op ≠ .array element .rest)
    (hnested : ∀ st ∈ written tail fields steps, ∀ type, st.op.Holds s type →
      ∀ w, fields.lookup st.field.name = some w → ∀ x, Inside s st.op w type x →
        ∀ body r₁ r₁', writes type x body → Takes body r₁ r₁' → Stable known r₁ →
          (r₁'.left = [] ∨ ∀ c, st.op ≠ .sized c type) →
            ∃ y, reads type r₁ y r₁' ∧ inner type x y) :
    ∃ entries, ReadsAll s known reads tail dec rest r entries r' ∧
      EntriesMatch s inner fields (written tail fields rest) entries := by
  induction hw generalizing pre dec r with
  | done =>
    rw [show r' = r by rw [ht.eq_mk, ← List.nil_append r'.left, ← ht.left]; rfl]
    exact ⟨[], .done, .nil⟩
  | @last enc enc' st rest bytes hw hend =>
    have hst : st ∈ steps := by
      rw [hsplit]
      exact List.mem_append_right _ List.mem_cons_self
    have hcut : cutsAfter tail fields st = true := by
      rw [cutsAfter_eq_endsAfter_of_writes hsound hstruct hst hw (henc st List.mem_cons_self), hend]
    have hlast : written tail fields (st :: rest) = [st] := by
      rw [written, if_pos hcut]
    have hmem : st ∈ written tail fields steps := by
      refine hwritten st ?_
      rw [hlast]
      exact List.mem_singleton_self st
    obtain ⟨v, dec', hstep⟩ := readStep_of_writes h hsound hregular hdecided hsplit hmem hw ht hr
      (henc st List.mem_cons_self) (hdec st List.mem_cons_self) hnoted
      (fun element hop => hopen.resolve_right fun hno => hno st hst element hop)
      (hnested st hmem)
    refine ⟨entry st.field.name v, .last hstep.reads (hstep.ends.trans hend), ?_⟩
    rw [hlast, ← List.append_nil (entry _ _)]
    exact .cons hstep.isData hstep.isMatch .nil
  | @more enc enc' st rest bytes others hw hend hrest ih =>
    have hst : st ∈ steps := by
      rw [hsplit]
      exact List.mem_append_right _ List.mem_cons_self
    have hcut : ¬ cutsAfter tail fields st = true := by
      rw [cutsAfter_eq_endsAfter_of_writes hsound hstruct hst hw (henc st List.mem_cons_self), hend]
      exact Bool.false_ne_true
    have hmore : written tail fields (st :: rest) = st :: written tail fields rest := by
      rw [written, if_neg hcut]
    have hmem : st ∈ written tail fields steps := by
      refine hwritten st ?_
      rw [hmore]
      exact List.mem_cons_self
    have hnames : ∀ st', st' ∈ pre ∨ st' ∈ rest → st'.field.name ≠ st.field.name := by
      intro st' hmem' heq
      have hnodup := hsound.linked.names
      rw [hsplit, List.map_append, List.map_cons, List.nodup_append] at hnodup
      rcases hmem' with hpre | hrest'
      · exact hnodup.2.2 _ (List.mem_map_of_mem (f := fun st : Step => st.field.name) hpre) _
          List.mem_cons_self heq
      · refine (List.nodup_cons.mp hnodup.2.1).1 ?_
        rw [← heq]
        exact List.mem_map_of_mem (f := fun st : Step => st.field.name) hrest'
    obtain ⟨r₁, ht₁, ht₂⟩ := ht.split
    obtain ⟨v, dec', hstep⟩ := readStep_of_writes h hsound hregular hdecided hsplit hmem hw ht₁ hr
      (henc st List.mem_cons_self) (hdec st List.mem_cons_self) hnoted
      (fun element hop => by
        obtain ⟨rfl, -⟩ := hregular.rest pre st rest hsplit element hop
        cases hrest
        have hleft := ht₂.left
        rw [List.nil_append] at hleft
        rw [hleft]
        exact hopen.resolve_right fun hno => hno st hst element hop)
      (hnested st hmem)
    have keeps : ∀ st', st' ∈ pre ∨ st' ∈ rest →
        enc'.lookup st'.field.name = enc.lookup st'.field.name ∧
          dec'.lookup st'.field.name = dec.lookup st'.field.name := fun st' hst' =>
      have hne := hnames st' hst'
      ⟨lookup_of_writes hw hne, lookup_of_reads hstep.reads hne⟩
    have hsplit' : steps = pre ++ [st] ++ rest := by
      rw [hsplit, List.append_assoc, List.singleton_append]
    obtain ⟨entries, hread, hall⟩ := ih hsplit' ht₂ (hr.of_takes ht₁)
      (fun st' hst' => (keeps st' (.inr hst')).1.trans (henc st' (List.mem_cons_of_mem _ hst')))
      (fun st' hst' => (keeps st' (.inr hst')).2.trans (hdec st' (List.mem_cons_of_mem _ hst')))
      (fun st' hst' => by
        rcases List.mem_append.mp hst' with hpre | hself
        · exact (hnoted st' hpre).keep (keeps st' (.inl hpre)).1 (keeps st' (.inl hpre)).2
        · rw [List.mem_singleton.mp hself]
          exact hstep.noted)
      (fun st' hst' => hwritten st' (by rw [hmore]; exact List.mem_cons_of_mem _ hst'))
    refine ⟨entry st.field.name v ++ entries, .more hstep.reads (hstep.ends.trans hend) hread, ?_⟩
    rw [hmore]
    exact .cons hstep.isData hstep.isMatch hall

end Step

end WireTables.Wire
