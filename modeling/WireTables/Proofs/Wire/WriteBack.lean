import Mathlib.Data.List.Nodup
import WireTables.Proofs.Wire.Tail

/-!
# Writing back what was read

A value that was read is written in as many bytes as it was read from, if it is written at all; and
in the same bytes where no truth values are involved and the absence of a tail is decided first.
`Accepted` is what the encoder asks for beyond what the decoder has seen to. The induction is over
the steps as they were read. What was dropped from the value is found again by looking ahead: a
count in the length of its array, a selector in the type of its union value.
-/

namespace WireTables.Wire

namespace Value

/-- The numbers of a value that are not inside a structure. -/
def numbers : Value → List Number
  | .number n => [n]
  | .list items => items.filterMap fun
      | .number n => some n
      | _ => none
  | .union _ (.number n) => [n]
  | _ => []

end Value

/-- What the encoder asks for when it writes a value that was read. Numbers pass through a signed
64-bit word, so those of 64 bits without a sign lose their upper half; lengths are compared with
the domain of the field; and the selector of a union is made from the value that it selects. -/
structure Accepted (s : Schema) (known : Known) (steps : List Step) (tail : Option (String × Int))
    (fields : List (String × Value)) : Prop where
  numbers : ∀ st ∈ written tail fields steps, ∀ v, fields.lookup st.field.name = some v →
    ∀ n ∈ v.numbers, n.value < 0x8000000000000000
  constants : ∀ st ∈ written tail fields steps, ∀ c text, st.op = .constant c text →
    c.signed = false → ∀ n, Yields (s.evaluate text) known n known → 0 ≤ n
  lengths : ∀ st ∈ written tail fields steps, ∀ element length, st.op = .array element length →
    ∀ v count, fields.lookup st.field.name = some v → v.length? = some count →
      WithinMaximum s known st.field count
  selectors : ∀ st ∈ written tail fields steps, ∀ c object, st.op = .selector c object true →
    ∃ v n, fields.lookup object = some v ∧ Derives s known steps object v n ∧
      (c.signed = false → 0 ≤ n)

/-- From one place to the other so many bytes were read, and under a condition just these. -/
def Replaces (exact : Prop) (r r' : Reader) (bytes : List UInt8) : Prop :=
  ∃ taken, Takes taken r r' ∧ bytes.length = taken.length ∧ (exact → bytes = taken)

namespace Replaces

variable {exact : Prop}

theorem refl (r : Reader) : Replaces exact r r [] :=
  ⟨[], Takes.refl r, rfl, fun _ => rfl⟩

theorem trans {r₁ r₂ r₃ : Reader} {a b : List UInt8} (h₁ : Replaces exact r₁ r₂ a)
    (h₂ : Replaces exact r₂ r₃ b) : Replaces exact r₁ r₃ (a ++ b) := by
  obtain ⟨ta, hta, hla, hea⟩ := h₁
  obtain ⟨tb, htb, hlb, heb⟩ := h₂
  refine ⟨ta ++ tb, hta.trans htb, ?_, fun h => ?_⟩
  · rw [List.length_append, List.length_append, hla, hlb]
  · rw [hea h, heb h]

end Replaces

/-- The word of an unsigned number below half of the range is not negative. -/
theorem word_nonneg {v : Value} {n : Int} {c : Scalar} {bytes : List UInt8}
    (hv : scalarValue? c bytes = some v) (hn : v.word? = some n)
    (hsmall : ∀ m ∈ v.numbers, m.value < 0x8000000000000000) : c.signed = false → 0 ≤ n := by
  intro hsigned
  unfold scalarValue? at hv
  split at hv
  · cases hv
    cases hn
    split <;> decide
  · obtain ⟨kind, hk, rfl⟩ := Option.map_eq_some_iff.mp hv
    obtain ⟨-, hks⟩ := NumberKind.size_of_ofSize? hk
    have hlt := hsmall _ (List.mem_singleton.mpr rfl)
    have hholds := (Number.ofInt kind (ofBigEndian bytes)).holds
    have hkind : (Number.ofInt kind (ofBigEndian bytes)).kind = kind := rfl
    cases hn
    rw [hkind] at hholds
    unfold NumberKind.holds at hholds
    rw [hks, hsigned, if_neg Bool.false_ne_true] at hholds
    unfold Number.word
    rw [Int.bmod_def]
    omega

/-- A number that was read can be written again in as many bytes, unless it is unsigned and its
word negative. -/
theorem exists_numberBytes {c : Scalar} {v : Value} {n : Int} {bytes : List UInt8}
    (hc : Standard c) (hlen : bytes.length = readSize c) (hv : scalarValue? c bytes = some v)
    (hn : v.word? = some n) (hsign : c.signed = false → 0 ≤ n) :
    ∃ out, NumberBytes c n out ∧ out.length = bytes.length ∧ (c.isBool = false → out = bytes) := by
  have hfits : fitsScalar c n = true := by
    have hv' := hv
    unfold scalarValue? at hv'
    split at hv'
    · next hb =>
      obtain ⟨hsize, hsigned⟩ := hc.2 hb
      cases hv'
      have hk : NumberKind.ofSize? c.size c.signed = some .u8 := by rw [hsize, hsigned]; rfl
      rw [fitsScalar_iff hk]
      generalize (bytes != [0]) = b at hn
      cases b <;> (cases hn; decide)
    · obtain ⟨kind, hk, rfl⟩ := Option.map_eq_some_iff.mp hv'
      obtain ⟨-, hsigned⟩ := NumberKind.size_of_ofSize? hk
      have hholds := (Number.ofInt kind (ofBigEndian bytes)).holds
      have hkind : (Number.ofInt kind (ofBigEndian bytes)).kind = kind := rfl
      cases hn
      rw [hkind] at hholds
      rw [← hsigned] at hsign
      rw [fitsScalar_iff hk]
      unfold Number.word at hsign ⊢
      generalize (Number.ofInt kind (ofBigEndian bytes)).value = m at hholds hsign ⊢
      cases kind <;>
        simp only [NumberKind.holds, NumberKind.signed, NumberKind.count, ↓reduceIte, reduceCtorEq,
          Bool.false_eq_true, false_or, true_or, and_true, Int.bmod_def, forall_const]
          at hholds hsign ⊢ <;>
        omega
  have hout : NumberBytes c n (bigEndian c.size (n % Nat.pow 256 c.size).toNat) :=
    ⟨hfits, hc.1, rfl⟩
  refine ⟨_, hout, ?_, numberBytes_of_scalarValue? hlen hv hn hout⟩
  rw [hout.length_eq, hlen, hc.readSize_eq]

theorem numberBytes_zero {c : Scalar} (hc : Standard c) : NumberBytes c 0 (bigEndian c.size 0) := by
  refine ⟨?_, hc.1, by rw [Int.zero_emod]; rfl⟩
  have hsize : c.size = 1 ∨ c.size = 2 ∨ c.size = 4 ∨ c.size = 8 := by simpa using hc.1
  unfold fitsScalar Scalar.bits
  rcases hsize with h | h | h | h <;> rw [h] <;> cases c.signed <;> decide

/-- Both sides know the same numbers, except that a count may differ when its array was cut off. -/
def Agree (steps : List Step) (enc dec : Locals) : Prop :=
  ∀ name, (∀ st ∈ steps, st.field.name = name → ∀ c array, st.op ≠ .count c array) →
    enc.lookup name = dec.lookup name

namespace Agree

variable {steps : List Step} {enc dec : Locals}

theorem note (h : Agree steps enc dec) (name : String) (n : Int) :
    Agree steps ((name, n) :: enc) ((name, n) :: dec) := by
  intro other hother
  by_cases hname : other = name
  · rw [hname, List.lookup_cons_self, List.lookup_cons_self]
  · rw [lookup_cons_ne hname, lookup_cons_ne hname]
    exact h other hother

theorem count (h : Agree steps enc dec) {st : Step} {c : Scalar} {array : String} (hst : st ∈ steps)
    (hop : st.op = .count c array) (m n : Int) :
    Agree steps ((st.field.name, m) :: enc) ((st.field.name, n) :: dec) := by
  intro other hother
  have hname : other ≠ st.field.name := fun heq => hother st hst heq.symm c array hop
  rw [lookup_cons_ne hname, lookup_cons_ne hname]
  exact h other hother

/-- The number of a field that is no count is the same on both sides. -/
theorem lookup_eq (h : Agree steps enc dec) (hnames : (steps.map (·.field.name)).Nodup) {st : Step}
    (hst : st ∈ steps) (hop : ∀ c array, st.op ≠ .count c array) :
    enc.lookup st.field.name = dec.lookup st.field.name :=
  h _ fun st' hst' hname c array => by
    rw [List.inj_on_of_nodup_map hnames hst' hst hname]
    exact hop c array

end Agree

section Back

variable {s : Schema} {known : Known} {exact : Prop}
  {reads : String → Reader → Value → Reader → Prop}
  {writes : String → Value → List UInt8 → Prop}

theorem numberBytes_of_readScalar {c : Scalar} {r r' : Reader} {v : Value} {n : Int}
    (hc : Standard c) (hbool : exact → c.isBool = false) (h : Yields (readScalar c) r v r')
    (hn : v.word? = some n) (hsign : c.signed = false → 0 ≤ n) :
    ∃ bytes, NumberBytes c n bytes ∧ Replaces exact r r' bytes := by
  obtain ⟨taken, ht, hlen, hv⟩ := takes_of_readScalar h
  obtain ⟨out, hout, hlen', hsame⟩ := exists_numberBytes hc hlen hv hn hsign
  exact ⟨out, hout, taken, ht, hlen', fun he => hsame (hbool he)⟩

/-- A number of small value can be written again. -/
theorem numberBytes_of_small {c : Scalar} {r r' : Reader} {v : Value} {n : Int}
    (hc : Standard c) (hbool : exact → c.isBool = false) (h : Yields (readScalar c) r v r')
    (hn : v.word? = some n) (hsmall : ∀ m ∈ v.numbers, m.value < 0x8000000000000000) :
    ∃ bytes, NumberBytes c n bytes ∧ Replaces exact r r' bytes :=
  let ⟨_, _, _, hv⟩ := takes_of_readScalar h
  numberBytes_of_readScalar hc hbool h hn (word_nonneg hv hn hsmall)

/-- An elementary value that was read is a number or a truth value. -/
theorem word_of_readScalar {c : Scalar} {r r' : Reader} {v : Value}
    (h : Yields (readScalar c) r v r') : ∃ n, v.word? = some n := by
  obtain ⟨_, _, _, hv⟩ := takes_of_readScalar h
  unfold scalarValue? at hv
  split at hv
  · cases hv
    exact ⟨_, rfl⟩
  · obtain ⟨kind, -, rfl⟩ := Option.map_eq_some_iff.mp hv
    exact ⟨_, rfl⟩

theorem parts_of_readsRow {item : Reader → Value → Reader → Prop}
    {part : Value → List UInt8 → Prop} {r r' : Reader} {items : List Value}
    (htakes : ∀ r v r', item r v r' → ∃ taken, Takes taken r r')
    (h : ReadsRow item r items r')
    (hitem : ∀ x ∈ items, ∀ r₁ r₁', r₁.left.length ≤ r.left.length → item r₁ x r₁' →
      ∃ bytes, part x bytes ∧ Replaces exact r₁ r₁' bytes) :
    ∃ parts, List.Forall₂ part items parts ∧ Replaces exact r r' parts.flatten := by
  induction h with
  | nil => exact ⟨[], .nil, Replaces.refl _⟩
  | cons h _ ih =>
    obtain ⟨taken, ht⟩ := htakes _ _ _ h
    obtain ⟨bytes, hbytes, hback⟩ := hitem _ List.mem_cons_self _ _ (Nat.le_refl _) h
    obtain ⟨parts, hparts, hrest⟩ := ih fun x hx r₁ r₁' hle =>
      hitem x (List.mem_cons_of_mem _ hx) r₁ r₁' (Nat.le_trans hle ht.length_le)
    exact ⟨bytes :: parts, .cons hbytes hparts, hback.trans hrest⟩

theorem length_of_readsElements {element : Element} {count : Option Nat} {r r' : Reader} {v : Value}
    (h : ReadsElements reads element count r v r') :
    ∃ n, v.length? = some n ∧ ∀ m, count = some m → m = n := by
  cases h with
  | bytes hle =>
    refine ⟨_, rfl, ?_⟩
    rintro _ ⟨⟩
    exact (List.length_take_of_le hle).symm
  | allBytes => exact ⟨_, rfl, nofun⟩
  | items _ _ hlen =>
    refine ⟨_, rfl, ?_⟩
    rintro _ ⟨⟩
    exact hlen.symm
  | allItems => exact ⟨_, rfl, nofun⟩

variable (htakes : ∀ type r v r', reads type r v r' → ∃ taken, Takes taken r r')

include htakes

theorem elementBytes_of_readsElements {element : Element} {length : ArrayLength}
    {count : Option Nat} {r r' : Reader} {v : Value}
    (h : ReadsElements reads element count r v r')
    (hstd : ∀ c, (Op.array element length).Uses s c → Standard c)
    (hbool : exact → ∀ c, (Op.array element length).Uses s c → c.isBool = false)
    (hsmall : ∀ n ∈ v.numbers, n.value < 0x8000000000000000)
    (hnested : ∀ type, (Op.array element length).Holds s type → ∀ x,
      Inside s (.array element length) v type x → ∀ r₁ r₁', r₁.left.length ≤ r.left.length →
        reads type r₁ x r₁' → ∃ bytes, writes type x bytes ∧ Replaces exact r₁ r₁' bytes) :
    ∃ bytes, ElementBytes writes element v bytes ∧ Replaces exact r r' bytes := by
  have each : ∀ items, v = .list items → ∀ x ∈ items, ∀ r₁ r₁', r₁.left.length ≤ r.left.length →
      ReadsItem reads element r₁ x r₁' →
        ∃ bytes, ItemBytes writes element x bytes ∧ Replaces exact r₁ r₁' bytes := by
    rintro items rfl x hx r₁ r₁' hle hitem
    cases hitem with
    | scalar hitem =>
      obtain ⟨n, hn⟩ := word_of_readScalar hitem
      obtain ⟨bytes, hbytes, hback⟩ := numberBytes_of_small (hstd _ .element)
        (fun he => hbool he _ .element) hitem hn fun m hm => hsmall m (by
          cases x with
          | number k =>
            rw [List.mem_singleton.mp hm]
            exact List.mem_filterMap.mpr ⟨_, hx, rfl⟩
          | bool b => cases hm
          | _ => cases hn)
      exact ⟨bytes, .scalar hn hbytes, hback⟩
    | object hitem =>
      obtain ⟨bytes, hbytes, hback⟩ := hnested _ .element x (.element hx) _ _ hle hitem
      exact ⟨bytes, .object hbytes, hback⟩
  cases h with
  | bytes hle =>
    have ht := Takes.advance hle
    exact ⟨_, .bytes, _, ht, rfl, fun _ => rfl⟩
  | allBytes =>
    have ht := Takes.advance (Nat.le_refl r.left.length)
    rw [List.take_length] at ht
    exact ⟨_, .bytes, _, ht, rfl, fun _ => rfl⟩
  | items _ h =>
    obtain ⟨parts, hparts, hback⟩ := parts_of_readsRow
      (fun _ _ _ => takes_of_readsItem htakes) h (each _ rfl)
    exact ⟨_, .items hparts, hback⟩
  | allItems _ h =>
    obtain ⟨parts, hparts, hback⟩ := parts_of_readsRow
      (fun _ _ _ h => takes_of_readsItem htakes h.1) h
      fun x hx r₁ r₁' hle hitem => each _ rfl x hx r₁ r₁' hle hitem.1
    exact ⟨_, .items hparts, hback⟩

end Back

section Step

variable {s : Schema} {known : Known} {exact : Prop}
  {reads : String → Reader → Value → Reader → Prop}
  {writes : String → Value → List UInt8 → Prop}

/-- The length that is required of an array is the number of elements that were read, where the
wire told how many to read. -/
theorem required_of_countFor {steps : List Step} {tail : Option (String × Int)}
    (hsound : SoundPlan s steps tail) {st : Step} (hst : st ∈ steps) {element : Element}
    {length : ArrayLength} (hop : st.op = .array element length) {locals enc : Locals}
    (hagree : Agree steps enc locals) {wanted : Option Nat}
    (hc : CountFor s known locals st.field length wanted) {n : Nat}
    (hn : ∀ m, wanted = some m → m = n) :
    ∃ required, Required s known enc length required ∧ ∀ m, required = some m → m = n := by
  cases hc with
  | tag => exact ⟨none, .tag, by simp⟩
  | other _ hreq =>
    refine ⟨_, ?_, hn⟩
    cases hreq with
    | tag => exact .tag
    | fixed => exact .fixed
    | rest => exact .rest
    | selected hsel hsize =>
      obtain ⟨pre, post, hsplit⟩ := List.append_of_mem hst
      obtain ⟨st', hst', hname, c, object, derived, hop'⟩ :=
        hsound.linked.selected pre st post hsplit _ _ _ hop
      have hmem : st' ∈ steps := hsplit ▸ List.mem_append_left _ hst'
      refine .selected ?_ hsize
      rw [← hname, hagree.lookup_eq hsound.linked.names hmem (by simp [hop']), hname, hsel]

/-- A reading that uses up its region has taken all of it. -/
theorem takes_region {region taken : List UInt8} {r : Reader} (h : Takes taken ⟨region, 0, known⟩ r)
    (hused : r.position = region.length) : taken = region := by
  have hleft : region = taken ++ r.left := h.left
  have hlength : taken.length = region.length := by
    rw [← hused, h.position, Nat.zero_add]
  have hnil : r.left = [] := by
    have := congrArg List.length hleft
    rw [List.length_append] at this
    exact List.length_eq_zero_iff.mp (by omega)
  rw [hleft, hnil, List.append_nil]

/-- What a step has read it can write, given what is found by looking ahead: the count of an array
and the number that a union value determines. -/
theorem writes_of_reads {steps : List Step} {tail : Option (String × Int)}
    {fields : List (String × Value)} (hsound : SoundPlan s steps tail)
    (hacc : Accepted s known steps tail fields)
    (htakes : ∀ type r v r', reads type r v r' → ∃ taken, Takes taken r r') {st : Step}
    (hst : st ∈ steps) (hwritten : st ∈ written tail fields steps) {locals locals' enc : Locals}
    {r r' : Reader} {v : Option Value}
    (h : Reads s known reads locals st.field st.isData st.op r v locals' r')
    (hv : fields.lookup st.field.name = v) (hagree : Agree steps enc locals)
    (hcount : ∀ c array, st.op = .count c array → ∀ n, locals'.lookup st.field.name = some n →
      (arrayCount fields array : Int) = n ∨ arrayCount fields array = 0 ∧ ¬ exact)
    (hderived : ∀ c object, st.op = .selector c object true → ∃ w n,
      fields.lookup object = some w ∧ Derives s known steps object w n ∧
        locals'.lookup st.field.name = some n ∧ (c.signed = false → 0 ≤ n))
    (hbool : exact → ∀ c, st.op.Uses s c → c.isBool = false)
    (hlength : r.left.length < 0x8000000000000000)
    (hnested : ∀ type, st.op.Holds s type → ∀ w, v = some w → ∀ x, Inside s st.op w type x →
      ∀ r₁ r₁', r₁.left.length ≤ r.left.length → reads type r₁ x r₁' →
        ∃ bytes, writes type x bytes ∧ Replaces exact r₁ r₁' bytes) :
    ∃ bytes enc', Writes s known writes steps fields enc st.field st.op bytes enc' ∧
      Replaces exact r r' bytes ∧ Agree steps enc' locals' := by
  have hstd := hsound.standard st hst
  have hsmall : ∀ w, v = some w → ∀ n ∈ w.numbers, n.value < 0x8000000000000000 :=
    fun w hw => hacc.numbers st hwritten w (hv.trans hw)
  have hdata := hsound.linked.isData st hst
  generalize hop : st.op = op at h hbool hnested hstd hdata
  cases h with
  | scalar hr hn =>
    obtain ⟨bytes, hbytes, hback⟩ := numberBytes_of_small (hstd _ .scalar)
      (fun he => hbool he _ .scalar) hr hn (hsmall _ rfl)
    exact ⟨bytes, _, .scalar hv hn hbytes, hback, hagree.note _ _⟩
  | object h =>
    obtain ⟨bytes, hbytes, hback⟩ := hnested _ .object _ rfl _ .object _ _ (Nat.le_refl _) h
    exact ⟨bytes, _, .object hv hbytes, hback, hagree⟩
  | constant hr hn he =>
    obtain ⟨bytes, hbytes, hback⟩ := numberBytes_of_readScalar (hstd _ .constant)
      (fun he => hbool he _ .constant) hr hn
      fun hs => hacc.constants st hwritten _ _ hop hs _ he
    exact ⟨bytes, _, .constant he hbytes, hback, hagree⟩
  | @count c array w n _ _ hr hn =>
    rcases hcount c array hop n List.lookup_cons_self with hsame | ⟨hzero, hnot⟩
    · obtain ⟨bytes, hbytes, hback⟩ := numberBytes_of_readScalar (hstd _ .count)
        (fun he => hbool he _ .count) hr hn fun _ => by omega
      rw [← hsame] at hbytes ⊢
      exact ⟨bytes, _, .count hbytes, hback, hagree.note _ _⟩
    · obtain ⟨taken, ht, hlen, -⟩ := takes_of_readScalar hr
      have hbytes := numberBytes_zero (hstd _ .count)
      refine ⟨_, _, .count (by rw [hzero]; exact hbytes), ⟨taken, ht, ?_, fun he => (hnot he).elim⟩,
        hagree.count hst hop _ _⟩
      rw [hbytes.length_eq, hlen, (hstd _ .count).readSize_eq]
  | @array element length count w _ _ hc h =>
    obtain ⟨n, hn, hsame⟩ := length_of_readsElements h
    obtain ⟨bytes, hbytes, hback⟩ := elementBytes_of_readsElements htakes h hstd hbool
      (hsmall _ rfl) fun type htype x hx r₁ r₁' hle => hnested type htype _ rfl x hx r₁ r₁' hle
    have hmax := hacc.lengths st hwritten element length hop w n hv hn
    obtain ⟨required, hreq, heq⟩ := required_of_countFor hsound hst hop hagree hc hsame
    exact ⟨bytes, _, .array hv hn hreq heq hmax hbytes, hback, hagree⟩
  | @sized c type w n count x _ r₁ r₂ hr hn hcount hend hle h hused =>
    obtain ⟨taken, ht, hlen, -⟩ := takes_of_readScalar hr
    have hbound := ht.length_le
    obtain ⟨body, hbody, inner, hinner, hinnerLen, hinnerSame⟩ :=
      hnested _ .sized _ rfl _ .sized ⟨r₁.left.take count, 0, known⟩ r₂
        (Nat.le_trans (List.length_take_le' _ _) hbound) h
    have hall : inner = r₁.left.take count :=
      takes_region hinner (hused.trans (List.length_take_of_le hle).symm)
    have hposition : inner.length = count := by rw [hall, List.length_take_of_le hle]
    have hword := fitsWord_word? hn
    simp only [fitsWord, Bool.and_eq_true, decide_eq_true_eq] at hword
    have hsize : (body.length : Int) = n := by
      rw [hinnerLen, hposition]
      omega
    obtain ⟨bytes, hbytes, hback⟩ := numberBytes_of_readScalar (hstd _ .size)
      (fun he => hbool he _ .size) hr hn fun _ => by omega
    rw [← hsize] at hbytes
    refine ⟨_, _, .sized hv hbody hbytes, hback.trans ⟨r₁.left.take count, Takes.advance hle, ?_,
      fun he => ?_⟩, hagree⟩
    · rw [hinnerLen, hall]
    · rw [hinnerSame he, hall]
  | @selector c object derived w n _ _ hr hn =>
    cases derived with
    | false =>
      have hdata : st.isData = true := hdata
      rw [hdata] at hv hsmall
      obtain ⟨bytes, hbytes, hback⟩ := numberBytes_of_small (hstd _ .selector)
        (fun he => hbool he _ .selector) hr hn (hsmall w rfl)
      exact ⟨bytes, _, .given hv hn hbytes, hback, hagree.note _ _⟩
    | true =>
      have hdata : st.isData = false := hdata
      rw [hdata] at hv
      obtain ⟨x, m, hx, hm, hlocal, hsign⟩ := hderived c object hop
      rw [List.lookup_cons_self, Option.some.injEq] at hlocal
      subst hlocal
      obtain ⟨bytes, hbytes, hback⟩ := numberBytes_of_readScalar (hstd _ .selector)
        (fun he => hbool he _ .selector) hr hn hsign
      exact ⟨bytes, _, .derived hv hx hm hbytes, hback, hagree.note _ _⟩
  | @union union tag n _ _ _ hn h =>
    obtain ⟨u, m, i, hu, hm, h⟩ := h
    obtain ⟨hmem, -⟩ := mem_of_chooses hm
    cases h with
    | absent => exact ⟨[], _, .absent hv, Replaces.refl _, hagree⟩
    | record hi hr h =>
      obtain ⟨bytes, hbytes, hback⟩ := hnested _ (.member hu hmem hi hr) _ rfl _ (.member hr) _ _
        (Nat.le_refl _) h
      exact ⟨bytes, _, .held hv (.record hr hbytes), hback, hagree⟩
    | @scalar c _ x _ hi hr hc h =>
      have huses : (Op.union union tag).Uses s c := .member hu hmem hi hr hc
      obtain ⟨n, hn⟩ := word_of_readScalar h
      obtain ⟨bytes, hbytes, hback⟩ := numberBytes_of_small (hstd _ huses)
        (fun he => hbool he _ huses) h hn fun k hk => hsmall _ rfl k (by
          cases x with
          | number _ => exact hk
          | bool b => cases hk
          | _ => cases hn)
      exact ⟨bytes, _, .held hv (.scalar hr hc hn hbytes), hback, hagree⟩

/-- Where both sides agree a structure ends for both or for neither. -/
theorem endsAfter_eq {steps : List Step} {tail : Option (String × Int)}
    (hsound : SoundPlan s steps tail) {st : Step} (hst : st ∈ steps) {enc dec : Locals}
    (h : Agree steps enc dec) :
    endsAfter tail st.field.name enc = endsAfter tail st.field.name dec := by
  unfold endsAfter
  split
  · next selector null =>
    by_cases hname : selector = st.field.name
    · subst hname
      have hop : ∀ c array, st.op ≠ .count c array := by
        rcases hsound.tailSelector _ _ rfl st hst rfl with ⟨c, hop⟩ | ⟨type, hop⟩ <;>
          (rw [hop]; nofun)
      rw [h.lookup_eq hsound.linked.names hst hop]
    · simp only [beq_false_of_ne hname, Bool.false_and]
  · rfl

end Step

section Steps

variable {s : Schema} {known : Known} {exact : Prop}
  {reads : String → Reader → Value → Reader → Prop}
  {writes : String → Value → List UInt8 → Prop} {steps : List Step}
  {tail : Option (String × Int)} {fields : List (String × Value)}
  (hsound : SoundPlan s steps tail)
  (htakes : ∀ type r v r', reads type r v r' → ∃ taken, Takes taken r r')

/-- Members of one type are chosen by one selector, so the first of them will do. -/
theorem selector_of_named (hsound : SoundPlan s steps tail) {st : Step} (hst : st ∈ steps)
    {union tag : String} (hop : st.op = .union union tag) {u : UnionType}
    (hu : (s.lookup? union).bind TypeEntry.union? = some u) {m m' : UnionMember}
    (hm' : m' ∈ u.members) {x : Value}
    (hm : memberHolding? u (.union m'.typeName x) = some m) : m.selector = m'.selector := by
  have hin : m ∈ u.members := List.mem_of_find?_eq_some hm
  have htype : m.typeName = m'.typeName := by simpa using List.find?_some hm
  exact hsound.members st hst _ _ _ hop hu _ hin _ hm' htype

/-- A step whose tag is a given one comes after it. -/
theorem mem_post {pre post : List Step} {st st' : Step} (hnames : (steps.map (·.field.name)).Nodup)
    (hsplit : steps = pre ++ st :: post) (hst' : st' ∈ steps) (hne : st' ≠ st)
    (hbefore : ∀ a b, steps = a ++ st' :: b → ∃ tag ∈ a, tag.field.name = st.field.name) :
    st' ∈ post := by
  have hst : st ∈ steps := by rw [hsplit]; simp
  rw [hsplit] at hst'
  rcases List.mem_append.mp hst' with hpre | hpost
  · obtain ⟨a, b, rfl⟩ := List.append_of_mem hpre
    obtain ⟨tag, htag, hname⟩ := hbefore a (b ++ st :: post) (by rw [hsplit]; simp)
    have hmem : tag ∈ steps := by rw [hsplit]; simp [htag]
    have heq := List.inj_on_of_nodup_map hnames hmem hst hname
    rw [hsplit, List.map_append, List.map_cons, List.nodup_append] at hnames
    refine (hnames.2.2 tag.field.name ?_ st.field.name List.mem_cons_self hname).elim
    exact List.mem_map_of_mem (f := fun st : Step => st.field.name) (by simp [htag])
  · rcases List.mem_cons.mp hpost with rfl | hpost
    · exact (hne rfl).elim
    · exact hpost

include hsound htakes

/-- The count that was read is the number of elements that follow, unless these were cut off. -/
theorem arrayCount_eq {pre post : List Step} {st : Step} (hsplit : steps = pre ++ st :: post)
    {c : Scalar} {array : String} (hop : st.op = .count c array) {locals : Locals}
    {r r' : Reader} {others : List (String × Value)}
    (h : ReadsAll s known reads tail locals post r others r')
    (hothers : ∀ st' ∈ post, fields.lookup st'.field.name = others.lookup st'.field.name)
    (hfirst : exact → ∀ selector null, tail = some (selector, null) →
      steps.head?.map (·.field.name) = some selector) {n : Int}
    (hn : locals.lookup st.field.name = some n) :
    (arrayCount fields array : Int) = n ∨ arrayCount fields array = 0 ∧ ¬ exact := by
  have hnames := hsound.linked.names
  have hst : st ∈ steps := by rw [hsplit]; simp
  obtain ⟨st', hst', rfl, element, hop'⟩ := hsound.linked.count st hst c array hop
  have hpost : st' ∈ post := by
    refine mem_post hnames hsplit hst' ?_ fun a b hab => ?_
    · rintro rfl
      rw [hop] at hop'
      cases hop'
    · obtain ⟨tag, htag, hname, -⟩ := hsound.linked.counted a st' b hab _ _ hop'
      exact ⟨tag, htag, hname⟩
  have hpostNames : (st :: post).map (·.field.name) |>.Nodup := by
    rw [hsplit, List.map_append] at hnames
    exact (List.nodup_append.mp hnames).2.1
  rw [List.map_cons, List.nodup_cons] at hpostNames
  unfold arrayCount
  rw [hothers st' hpost]
  rcases readsAll_at htakes h hpostNames.2 hpost with
    ⟨locals₁, locals₂, v, r₁, r₂, hread, hv, hlocals, -⟩ | ⟨hnone, last, hlast, ls, hend⟩
  · rw [hop'] at hread
    cases hread with
    | array hc hread =>
      cases hc with
      | other hl => exact (hl _ rfl).elim
      | tag hm hpos =>
        rw [hlocals _ hpostNames.1, hn, Option.getD_some] at hm
        obtain ⟨m, hlen, hcount⟩ := length_of_readsElements hread
        have hcount := hcount _ rfl
        rw [hv, Option.bind_some, hlen, Option.getD_some]
        exact .inl (by omega)
  · refine .inr ⟨by rw [hnone]; rfl, fun he => ?_⟩
    have hmem : last ∈ steps := by rw [hsplit]; simp [hlast]
    obtain ⟨null, htail, -⟩ := endsAfter_inv hsound hmem hend
    have hhead := hfirst he _ _ htail
    -- The first step is the last one that is read, so there is no count before it.
    obtain ⟨first, hfirst', hname⟩ := Option.map_eq_some_iff.mp hhead
    have heq : first = last :=
      List.inj_on_of_nodup_map hnames (List.mem_of_mem_head? hfirst') hmem hname
    subst heq
    cases pre with
    | nil =>
      rw [hsplit, List.nil_append, List.head?_cons, Option.some.injEq] at hfirst'
      subst hfirst'
      exact hpostNames.1 (List.mem_map_of_mem (f := fun st : Step => st.field.name) hlast)
    | cons x pre =>
      rw [hsplit, List.cons_append, List.head?_cons, Option.some.injEq] at hfirst'
      subst hfirst'
      rw [hsplit, List.cons_append, List.map_cons, List.nodup_cons] at hnames
      exact hnames.1 (List.mem_map_of_mem (f := fun st : Step => st.field.name) (by simp [hlast]))

/-- The selector that a union value determines is the one that it was read with. -/
theorem derives_eq {pre post : List Step} {st : Step} (hsplit : steps = pre ++ st :: post)
    {c : Scalar} {object : String} (hop : st.op = .selector c object true) {locals : Locals}
    {r r' : Reader} {others : List (String × Value)}
    (h : ReadsAll s known reads tail locals post r others r')
    (hothers : ∀ st' ∈ post, fields.lookup st'.field.name = others.lookup st'.field.name)
    (hkinds : ∀ st' ∈ steps, ∀ u v m, fields.lookup st'.field.name = some v →
      memberHolding? u v = some m → ∃ union tag, st'.op = .union union tag)
    {n m : Int} (hn : locals.lookup st.field.name = some n) {v : Value}
    (hv : fields.lookup object = some v) (hm : Derives s known steps object v m) : m = n := by
  have hnames := hsound.linked.names
  have hst : st ∈ steps := by rw [hsplit]; simp
  obtain ⟨st', u, member, hfind, hu, hmember, hvalue⟩ := hm
  have hst' : st' ∈ steps := List.mem_of_find?_eq_some hfind
  have hname : st'.field.name = object := by simpa using List.find?_some hfind
  subst hname
  obtain ⟨union, tag, hop'⟩ := hkinds st' hst' u v member hv hmember
  have htag : tag = st.field.name :=
    hsound.linked.object st hst c _ true hop st' hst' rfl union tag hop'
  subst htag
  have hpost : st' ∈ post := by
    refine mem_post hnames hsplit hst' ?_ fun a b hab => ?_
    · rintro rfl
      rw [hop] at hop'
      cases hop'
    · obtain ⟨tag, htag, hname, -⟩ := hsound.linked.union a st' b hab _ _ hop'
      exact ⟨tag, htag, hname⟩
  have hpostNames : (st :: post).map (·.field.name) |>.Nodup := by
    rw [hsplit, List.map_append] at hnames
    exact (List.nodup_append.mp hnames).2.1
  rw [List.map_cons, List.nodup_cons] at hpostNames
  rw [hothers st' hpost] at hv
  rcases readsAll_at htakes h hpostNames.2 hpost with
    ⟨locals₁, locals₂, w, r₁, r₂, hread, hw, hlocals, -⟩ | ⟨hnone, -⟩
  · rw [hop'] at hread
    cases hread with
    | union hsel hread =>
      rw [hlocals _ hpostNames.1, hn, Option.some.injEq] at hsel
      subst hsel
      rw [hv, Option.some.injEq] at hw
      subst hw
      obtain ⟨u', member', i, hu', hchosen, hread⟩ := hread
      rw [hsound.linked.unionType st' hst' _ _ hop', hu', Option.some.injEq] at hu
      subst hu
      obtain ⟨hmem, hvalue'⟩ := mem_of_chooses hchosen
      have hget := List.mem_zipIdx_iff_getElem?.mp hmem
      cases hread with
      | absent hi =>
        have hsame : u'.members[i]? = some member := by
          simpa [memberHolding?, hi] using hmember
        rw [hget, Option.some.injEq] at hsame
        subst hsame
        exact (hvalue.unique hvalue').1
      | record | scalar =>
        rw [selector_of_named hsound hst' hop' hu' (List.mem_of_getElem? hget) hmember] at hvalue
        exact (hvalue.unique hvalue').1
  · rw [hnone] at hv
    cases hv

/-- The remaining steps of a structure that was read are written; the induction goes along the
reading, and both sides agree on the numbers known so far. -/
theorem writesAll_of_readsAll (hacc : Accepted s known steps tail fields)
    (hstruct : ∀ type r v r', reads type r v r' → ∃ fields, v = .struct fields)
    (hkinds : ∀ st' ∈ steps, ∀ u v m, fields.lookup st'.field.name = some v →
      memberHolding? u v = some m → ∃ union tag, st'.op = .union union tag)
    (hbool : exact → ∀ st ∈ steps, ∀ c, st.op.Uses s c → c.isBool = false)
    (hfirst : exact → ∀ selector null, tail = some (selector, null) →
      steps.head?.map (·.field.name) = some selector)
    (hnested : ∀ st ∈ written tail fields steps, ∀ type, st.op.Holds s type →
      ∀ w, fields.lookup st.field.name = some w → ∀ x, Inside s st.op w type x →
        ∀ r₁ r₁', r₁.left.length < 0x8000000000000000 → reads type r₁ x r₁' →
          ∃ bytes, writes type x bytes ∧ Replaces exact r₁ r₁' bytes)
    {pre rest : List Step} (hsplit : steps = pre ++ rest) {locals enc : Locals} {r r' : Reader}
    {entries : List (String × Value)}
    (h : ReadsAll s known reads tail locals rest r entries r')
    (hentries : ∀ st ∈ rest, fields.lookup st.field.name = entries.lookup st.field.name)
    (hfresh : ∀ st ∈ rest, locals.lookup st.field.name = none) (hagree : Agree steps enc locals)
    (hlength : r.left.length < 0x8000000000000000)
    (hwritten : ∀ st ∈ written tail fields rest, st ∈ written tail fields steps) :
    ∃ bytes, WritesAll s known writes steps tail fields enc rest bytes ∧
      Replaces exact r r' bytes := by
  have hnames := hsound.linked.names
  induction h generalizing pre enc with
  | done => exact ⟨[], .done, Replaces.refl _⟩
  | @last locals locals' st rest r v r' hread hend =>
    have hst : st ∈ steps := by rw [hsplit]; simp
    have hstWritten : st ∈ written tail fields steps := by
      refine hwritten st ?_
      unfold written
      split <;> exact List.mem_cons_self
    have hv : fields.lookup st.field.name = v := by
      rw [hentries st List.mem_cons_self, lookup_entry_self]
    obtain ⟨null, -, hop⟩ := endsAfter_inv hsound hst hend
    obtain ⟨bytes, enc', hw, hback, hagree'⟩ := writes_of_reads hsound hacc htakes hst hstWritten
      hread hv hagree
      (fun c array hop' => by rcases hop with ⟨_, hop⟩ | ⟨_, hop⟩ <;> cases hop.symm.trans hop')
      (fun c object hop' => by rcases hop with ⟨_, hop⟩ | ⟨_, hop⟩ <;> cases hop.symm.trans hop')
      (fun he => hbool he st hst) hlength fun type htype w hw x hx r₁ r₁' hle =>
        hnested st hstWritten type htype w (hv.trans hw) x hx r₁ r₁'
          (Nat.lt_of_le_of_lt hle hlength)
    exact ⟨bytes, .last hw (by rw [endsAfter_eq hsound hst hagree', hend]), hback⟩
  | @more locals locals' st rest r v r₁ others r' hread hend hrest ih =>
    have hst : st ∈ steps := by rw [hsplit]; simp
    have hstWritten : st ∈ written tail fields steps := by
      refine hwritten st ?_
      unfold written
      split <;> exact List.mem_cons_self
    have hpostNames : ((st :: rest).map (·.field.name)).Nodup := by
      rw [hsplit, List.map_append] at hnames
      exact (List.nodup_append.mp hnames).2.1
    rw [List.map_cons, List.nodup_cons] at hpostNames
    have hne : ∀ st' ∈ rest, st'.field.name ≠ st.field.name := fun st' hst' heq =>
      hpostNames.1 (heq ▸ List.mem_map_of_mem (f := fun st : Step => st.field.name) hst')
    have hv : fields.lookup st.field.name = v := by
      rw [hentries st List.mem_cons_self]
      exact lookup_entry_append_self fun hmem =>
        hpostNames.1 ((names_of_readsAll hrest).subset hmem)
    have hothers : ∀ st' ∈ rest, fields.lookup st'.field.name = others.lookup st'.field.name :=
      fun st' hst' => by
        rw [hentries st' (List.mem_cons_of_mem _ hst'), lookup_entry_append_ne (hne st' hst')]
    obtain ⟨taken, ht⟩ := takes_of_reads htakes hread
    obtain ⟨bytes, enc', hw, hback, hagree'⟩ := writes_of_reads hsound hacc htakes hst hstWritten
      hread hv hagree
      (fun c array hop n hn => arrayCount_eq hsound htakes hsplit hop hrest hothers hfirst hn)
      (fun c object hop => by
        obtain ⟨w, m, hw, hm, hsign⟩ := hacc.selectors st hstWritten c object hop
        have hlocal : ∃ n, locals'.lookup st.field.name = some n := by
          rw [hop] at hread
          cases hread with
          | selector => exact ⟨_, List.lookup_cons_self⟩
        obtain ⟨n, hn⟩ := hlocal
        obtain rfl := derives_eq hsound htakes hsplit hop hrest hothers hkinds hn hw hm
        exact ⟨w, m, hw, hm, hn, hsign⟩)
      (fun he => hbool he st hst) hlength fun type htype w hw x hx r₁ r₁' hle =>
        hnested st hstWritten type htype w (hv.trans hw) x hx r₁ r₁'
          (Nat.lt_of_le_of_lt hle hlength)
    have hcut : cutsAfter tail fields st = false := by
      rw [cutsAfter_eq_endsAfter hsound hstruct hst hread hv (hfresh st List.mem_cons_self), hend]
    obtain ⟨tailBytes, hwrest, hbackrest⟩ := ih (by rw [hsplit, List.append_cons]) hothers
      (fun st' hst' => by
        rw [lookup_of_reads hread (hne st' hst'), hfresh st' (List.mem_cons_of_mem _ hst')])
      hagree' (Nat.lt_of_le_of_lt ht.length_le hlength)
      fun st' hst' => hwritten st' (by
        unfold written
        rw [hcut, if_neg Bool.false_ne_true]
        exact List.mem_cons_of_mem _ hst')
    exact ⟨_, .more hw (by rw [endsAfter_eq hsound hst hagree', hend]) hwrest,
      hback.trans hbackrest⟩

end Steps

/-- Only a step for a union reads a value that stands for a union member. -/
theorem union_of_reads {s : Schema} {known : Known}
    {reads : String → Reader → Value → Reader → Prop}
    (hstruct : ∀ type r v r', reads type r v r' → ∃ fields, v = .struct fields)
    {locals locals' : Locals} {f : Field} {isData : Bool} {op : Op} {r r' : Reader} {v : Value}
    {u : UnionType} {m : UnionMember}
    (h : Reads s known reads locals f isData op r (some v) locals' r')
    (hm : memberHolding? u v = some m) : ∃ union tag, op = .union union tag := by
  have number : ∀ {c : Scalar} {r r' : Reader} {w : Value}, Yields (readScalar c) r w r' →
      memberHolding? u w = none := by
    intro c r r' w hw
    obtain ⟨n, hn⟩ := word_of_readScalar hw
    cases w <;> first | rfl | cases hn
  generalize hv : some v = out at h
  cases h with
  | scalar hr =>
    cases hv
    cases (number hr).symm.trans hm
  | object h | sized _ _ _ _ _ h =>
    cases hv
    obtain ⟨fields, rfl⟩ := hstruct _ _ _ _ h
    cases hm
  | constant | count => cases hv
  | array _ h =>
    cases hv
    obtain ⟨n, hn, -⟩ := length_of_readsElements h
    cases v <;> first | cases hm | cases hn
  | selector hr =>
    split at hv
    · cases hv
      cases (number hr).symm.trans hm
    · cases hv
  | union => exact ⟨_, _, rfl⟩

theorem height_lt_of_lookup {fields : List (String × Value)} {name : String} {v : Value}
    (h : fields.lookup name = some v) : v.height < (Value.struct fields).height := by
  have hle : v.height ≤ Value.fieldsHeight fields := by
    have hmem := mem_of_lookup_eq_some h
    clear h
    induction fields with
    | nil => cases hmem
    | cons p fields ih =>
      obtain ⟨other, old⟩ := p
      rw [Value.fieldsHeight]
      rcases List.mem_cons.mp hmem with heq | hmem
      · cases heq
        exact Nat.le_max_left _ _
      · exact Nat.le_trans (ih hmem) (Nat.le_max_right _ _)
  rw [Value.height]
  omega

theorem height_le_of_inside {s : Schema} {op : Op} {w x : Value} {type : String}
    (h : Inside s op w type x) : x.height ≤ w.height := by
  cases h with
  | object | sized => exact Nat.le_refl _
  | element hx =>
    have hle : ∀ items : List Value, x ∈ items → x.height ≤ Value.itemsHeight items := by
      intro items
      induction items with
      | nil => intro hx; cases hx
      | cons y items ih =>
        intro hx
        rw [Value.itemsHeight]
        rcases List.mem_cons.mp hx with rfl | hx
        · exact Nat.le_max_left _ _
        · exact Nat.le_trans (ih hx) (Nat.le_max_right _ _)
    rw [Value.height]
    exact Nat.le_succ_of_le (hle _ hx)
  | member =>
    rw [Value.height]
    exact Nat.le_succ _

section Levels

variable {s : Schema} {known : Known} (h : s.Remembers (· = known))

include h

/-- What was read, and holds only what the encoder accepts, is written in as many bytes; and under
the condition `exact` in the same ones. -/
theorem encodes_of_decodes {exact : Prop} {levels levels' : Nat} {type : String} {r r' : Reader}
    {v : Value} (hread : Decodes s known levels type r v r')
    (hlength : r.left.length < 0x8000000000000000)
    (hsound : ∀ inner steps tail, Reaches s known type inner → Plan s known inner steps tail →
      SoundPlan s steps tail)
    (hexact : exact → ∀ inner steps tail, Reaches s known type inner →
      Plan s known inner steps tail →
        (∀ st ∈ steps, ∀ c, st.op.Uses s c → c.isBool = false) ∧
          ∀ selector null, tail = some (selector, null) →
            steps.head?.map (·.field.name) = some selector)
    (hacc : ∀ inner fields steps tail, Part s known type v inner (.struct fields) →
      Plan s known inner steps tail → Accepted s known steps tail fields)
    (hheight : v.height < levels') :
    ∃ bytes, Encodes s known levels' type v bytes ∧ Replaces exact r r' bytes := by
  induction levels generalizing levels' type r v r' with
  | zero => exact (not_yields_throw hread.2).elim
  | succ levels ih =>
    obtain ⟨hr, steps, tail, entries, hplan, hall, rfl⟩ := (decodes_succ h).mp hread
    have hsteps := hsound type steps tail .refl hplan
    have hnames := hsteps.linked.names
    have hfields := putFields_of_readsAll hall hnames
    rw [hfields] at hacc hheight ⊢
    have hstruct :
        ∀ type r v r', Decodes s known levels type r v r' → ∃ fields, v = .struct fields :=
      fun _ _ _ _ => struct_of_decodes h
    obtain ⟨levels', rfl⟩ : ∃ n, levels' = n + 1 := ⟨levels' - 1, by omega⟩
    obtain ⟨bytes, hw, hback⟩ : ∃ bytes,
        WritesAll s known (Encodes s known levels') steps tail entries [] steps bytes ∧
          Replaces exact r r' bytes := writesAll_of_readsAll hsteps
      (fun _ _ _ _ => takes_of_decodes h)
      (hacc type entries steps tail .refl hplan)
      hstruct
      (fun st hst u v m hv hm => by
        rcases readsAll_at (fun _ _ _ _ => takes_of_decodes h) hall hnames hst with
          ⟨_, _, w, _, _, hread, hw, -⟩ | ⟨hnone, -⟩
        · obtain rfl := hw.symm.trans hv
          exact union_of_reads hstruct hread hm
        · cases hnone.symm.trans hv)
      (fun he st hst => ((hexact he) type steps tail .refl hplan).1 st hst)
      (fun he => ((hexact he) type steps tail .refl hplan).2)
      (fun st hst inner hinner w hw x hx r₁ r₁' hlength₁ hd => by
        have hreach : Reaches s known type inner :=
          .step hplan (mem_of_mem_written hst) hinner .refl
        refine ih hd hlength₁ (fun U steps tail hU => hsound U steps tail (hreach.trans hU))
          (fun he U steps tail hU => hexact he U steps tail (hreach.trans hU))
          (fun U fields steps tail hU => hacc U fields steps tail (.step hplan hst hw hx hU)) ?_
        have := height_lt_of_lookup hw
        have := height_le_of_inside hx
        omega)
      (List.nil_append steps).symm hall (fun _ _ => rfl) (fun _ _ => rfl) (fun _ _ => rfl) hlength
      fun _ hst => hst
    exact ⟨bytes, (encodes_succ h).mpr ⟨entries, steps, tail, rfl, hplan, hw⟩, hback⟩

end Levels

end WireTables.Wire
