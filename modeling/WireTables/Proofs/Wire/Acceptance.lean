import WireTables.Proofs.Wire.WriteBack

/-!
# What the encoder accepts

The encoder accepts a value that was read exactly when everything in it is `Accepted`
(`encodes_iff_accepted`). One direction is `encodes_of_decodes`; the other is read off the writing
of each step, where the reading of the step tells the kind of its numbers.
-/

namespace WireTables.Wire

/-- A number that fits where it was read from, by way of its word, is in the lower half. -/
theorem small_of_numberBytes {c : Scalar} {num : Number} {bytes : List UInt8}
    (hk : NumberKind.ofSize? c.size c.signed = some num.kind)
    (hb : NumberBytes c num.word bytes) : num.value < 0x8000000000000000 := by
  have hfits := (fitsScalar_iff hk num.word).mp hb.fits
  obtain ⟨kind, value, holds⟩ := num
  cases kind <;>
    simp only [Number.word, NumberKind.holds, NumberKind.signed, NumberKind.count, ↓reduceIte,
      reduceCtorEq, Bool.false_eq_true, false_or, true_or, and_true, Int.bmod_def]
      at hfits holds ⊢ <;>
    omega

/-- The numbers of an elementary value that was read and can be written are in the lower half. -/
theorem small_of_readScalar {c : Scalar} {r r' : Reader} {v : Value} {n : Int} {bytes : List UInt8}
    (hr : Yields (readScalar c) r v r') (hn : v.word? = some n) (hb : NumberBytes c n bytes) :
    ∀ m ∈ v.numbers, m.value < 0x8000000000000000 := by
  obtain ⟨taken, -, -, hv⟩ := takes_of_readScalar hr
  unfold scalarValue? at hv
  split at hv
  · cases hv
    intro m hm
    cases hm
  · obtain ⟨kind, hk, rfl⟩ := Option.map_eq_some_iff.mp hv
    intro m hm
    rw [List.mem_singleton.mp hm]
    cases hn
    exact small_of_numberBytes hk hb

section Local

variable {s : Schema} {known : Known} {reads : String → Reader → Value → Reader → Prop}
  {writes : String → Value → List UInt8 → Prop} {steps : List Step}
  {fields : List (String × Value)}

theorem items_of_readsRow {item : Reader → Value → Reader → Prop} {r r' : Reader}
    {items : List Value} (h : ReadsRow item r items r') :
    ∀ x ∈ items, ∃ r₁ r₁', item r₁ x r₁' := by
  induction h with
  | nil => intro x hx; cases hx
  | cons h _ ih =>
    intro x hx
    rcases List.mem_cons.mp hx with rfl | hx
    · exact ⟨_, _, h⟩
    · exact ih x hx

theorem items_of_forall₂ {part : Value → List UInt8 → Prop} {items : List Value}
    {parts : List (List UInt8)} (h : List.Forall₂ part items parts) :
    ∀ x ∈ items, ∃ bytes, part x bytes := by
  induction h with
  | nil => intro x hx; cases hx
  | cons h _ ih =>
    intro x hx
    rcases List.mem_cons.mp hx with rfl | hx
    · exact ⟨_, h⟩
    · exact ih x hx

theorem item_of_readsElements {element : Element} {count : Option Nat} {r r' : Reader}
    {items : List Value} (h : ReadsElements reads element count r (.list items) r') :
    ∀ x ∈ items, ∃ r₁ r₁', ReadsItem reads element r₁ x r₁' := by
  cases h with
  | items _ h => exact items_of_readsRow h
  | allItems _ h =>
    intro x hx
    obtain ⟨r₁, r₁', hitem, -⟩ := items_of_readsRow h x hx
    exact ⟨r₁, r₁', hitem⟩

/-- The numbers of an array that was read and is written are in the lower half. -/
theorem small_of_elements
    (hstruct : ∀ type r v r', reads type r v r' → ∃ fields, v = .struct fields) {element : Element}
    {count : Option Nat} {r r' : Reader} {v : Value} {bytes : List UInt8}
    (h : ReadsElements reads element count r v r') (hb : ElementBytes writes element v bytes) :
    ∀ n ∈ v.numbers, n.value < 0x8000000000000000 := by
  cases hb with
  | bytes =>
    intro n hn
    cases hn
  | items hparts =>
    intro n hn
    obtain ⟨x, hx, hxn⟩ := List.mem_filterMap.mp hn
    obtain ⟨r₁, r₁', hitem⟩ := item_of_readsElements h x hx
    obtain ⟨bytes, hb⟩ := items_of_forall₂ hparts x hx
    cases x with
    | number m =>
      cases hxn
      cases hitem with
      | scalar hitem =>
        cases hb with
        | scalar hm hb => exact small_of_readScalar hitem hm hb n List.mem_cons_self
      | object hitem =>
        obtain ⟨_, hx⟩ := hstruct _ _ _ _ hitem
        cases hx
    | _ => cases hxn

/-- The number of a union value that was read and is written is in the lower half. -/
theorem small_of_member
    (hstruct : ∀ type r v r', reads type r v r' → ∃ fields, v = .struct fields) {u : UnionType}
    {m : UnionMember} {i : Nat} {union tag : String} {f : Field} {enc enc' : Locals}
    {r r' : Reader} {v : Value} {bytes : List UInt8} (h : ReadsMember s reads u m i r v r')
    (hv : fields.lookup f.name = some v)
    (hw : Writes s known writes steps fields enc f (.union union tag) bytes enc') :
    ∀ n ∈ v.numbers, n.value < 0x8000000000000000 := by
  cases h with
  | absent =>
    intro n hn
    cases hn
  | record _ hrecord h =>
    obtain ⟨_, rfl⟩ := hstruct _ _ _ _ h
    intro n hn
    cases hn
  | @scalar c _ x _ _ hrecord hc h =>
    cases hw with
    | absent hv' => cases hv.symm.trans hv'
    | held hv' hb =>
      cases hv.symm.trans hv'
      intro k hk
      cases hb with
      | record hr => cases hrecord.symm.trans hr
      | scalar _ hc' hn' hb =>
        cases hc.symm.trans hc'
        cases x with
        | number _ => exact small_of_readScalar h hn' hb k hk
        | _ => cases hk

/-- The numbers that a step has read and writes are in the lower half. -/
theorem small_of_writes (hstruct : ∀ type r v r', reads type r v r' → ∃ fields, v = .struct fields)
    {locals locals' enc enc' : Locals} {f : Field} {isData : Bool} {op : Op} {r r' : Reader}
    {v : Value} {bytes : List UInt8}
    (hread : Reads s known reads locals f isData op r (some v) locals' r')
    (hv : fields.lookup f.name = some v)
    (hw : Writes s known writes steps fields enc f op bytes enc') :
    ∀ n ∈ v.numbers, n.value < 0x8000000000000000 := by
  generalize hout : some v = out at hread
  cases hread with
  | scalar hr hn =>
    cases hout
    cases hw with
    | scalar hv' hn' hb =>
      cases hv.symm.trans hv'
      exact small_of_readScalar hr hn' hb
  | object h | sized _ _ _ _ _ h =>
    cases hout
    obtain ⟨fields, rfl⟩ := hstruct _ _ _ _ h
    intro n hn
    cases hn
  | constant | count => cases hout
  | array hc h =>
    cases hout
    cases hw with
    | array hv' _ _ _ _ hb =>
      cases hv.symm.trans hv'
      exact small_of_elements hstruct h hb
  | @selector c object derived w m _ _ hr hn =>
    split at hout
    · cases hout
      cases hw with
      | given hv' hn' hb =>
        cases hv.symm.trans hv'
        exact small_of_readScalar hr hn' hb
      | derived hnone => cases hv.symm.trans hnone
    · cases hout
  | union hn h =>
    cases hout
    obtain ⟨u, m, i, -, -, h⟩ := h
    exact small_of_member hstruct h hv hw

/-- A structure inside the value of a field was read with it. -/
theorem reads_of_inside {locals locals' : Locals} {f : Field} {isData : Bool} {op : Op}
    {r r' : Reader} {w x : Value} {inner : String}
    (hread : Reads s known reads locals f isData op r (some w) locals' r')
    (hx : Inside s op w inner x) : ∃ r₁ r₁', reads inner r₁ x r₁' := by
  generalize hout : some w = out at hread
  cases hx with
  | object =>
    cases hread with
    | object h => cases hout; exact ⟨_, _, h⟩
  | sized =>
    cases hread with
    | sized _ _ _ _ _ h => cases hout; exact ⟨_, _, h⟩
  | element hx =>
    cases hread with
    | array _ h =>
      cases hout
      obtain ⟨r₁, r₁', hitem⟩ := item_of_readsElements h _ hx
      cases hitem with
      | object hitem => exact ⟨r₁, r₁', hitem⟩
  | member hr =>
    cases hread with
    | union _ h =>
      cases hout
      obtain ⟨u, m, i, -, -, h⟩ := h
      cases h with
      | record _ _ h => exact ⟨_, _, h⟩
      | scalar _ hr' => cases hr.symm.trans hr'

/-- A structure inside the value of a field is one that the step holds. -/
theorem holds_of_inside {locals locals' : Locals} {f : Field} {isData : Bool} {op : Op}
    {r r' : Reader} {w x : Value} {inner : String}
    (hread : Reads s known reads locals f isData op r (some w) locals' r')
    (hx : Inside s op w inner x) : op.Holds s inner := by
  generalize hout : some w = out at hread
  cases hx with
  | object => exact .object
  | sized => exact .sized
  | element => exact .element
  | member hr =>
    cases hread with
    | union _ h =>
      cases hout
      obtain ⟨u, m, i, hu, hm, h⟩ := h
      cases h with
      | record hi _ _ => exact .member hu (mem_of_chooses hm).1 hi hr
      | scalar _ hr' => cases hr.symm.trans hr'

/-- A structure inside the value of a field is written with it. -/
theorem writes_of_inside {enc enc' : Locals} {f : Field} {op : Op} {bytes : List UInt8}
    {w x : Value} {inner : String} (hv : fields.lookup f.name = some w)
    (hw : Writes s known writes steps fields enc f op bytes enc')
    (hx : Inside s op w inner x) : ∃ bytes, writes inner x bytes := by
  cases hx with
  | object =>
    cases hw with
    | object hv' h => cases hv.symm.trans hv'; exact ⟨_, h⟩
  | sized =>
    cases hw with
    | sized hv' h => cases hv.symm.trans hv'; exact ⟨_, h⟩
  | element hx =>
    cases hw with
    | array hv' _ _ _ _ hb =>
      cases hv.symm.trans hv'
      cases hb with
      | items hparts =>
        obtain ⟨bytes, hb⟩ := items_of_forall₂ hparts _ hx
        cases hb with
        | object h => exact ⟨bytes, h⟩
  | member hr =>
    cases hw with
    | absent hv' => cases hv.symm.trans hv'
    | held hv' hb =>
      cases hv.symm.trans hv'
      cases hb with
      | record _ h => exact ⟨_, h⟩
      | scalar hr' => cases hr.symm.trans hr'

/-- What was read and can be written meets what the encoder asks for. -/
theorem accepted_of_writes {tail : Option (String × Int)} (hsound : SoundPlan s steps tail)
    (hstruct : ∀ type r v r', reads type r v r' → ∃ fields, v = .struct fields)
    (hreads : ∀ st ∈ written tail fields steps, ∃ locals₁ locals₂ v r₁ r₂,
      Reads s known reads locals₁ st.field st.isData st.op r₁ v locals₂ r₂ ∧
        fields.lookup st.field.name = v)
    (hwrites : ∀ st ∈ written tail fields steps, ∃ enc₁ enc₂ bytes,
      Writes s known writes steps fields enc₁ st.field st.op bytes enc₂) :
    Accepted s known steps tail fields where
  numbers := by
    intro st hst v hv
    obtain ⟨_, _, w, _, _, hread, hw⟩ := hreads st hst
    obtain ⟨_, _, _, hwrite⟩ := hwrites st hst
    obtain rfl := hw.symm.trans hv
    exact small_of_writes hstruct hread hv hwrite
  constants := by
    intro st hst c text hop hsigned n hn
    obtain ⟨_, _, _, hwrite⟩ := hwrites st hst
    rw [hop] at hwrite
    cases hwrite with
    | constant hn' hb =>
      obtain ⟨rfl, -⟩ := hn.unique hn'
      exact nonneg_of_numberBytes hb hsigned
  lengths := by
    intro st hst element length hop v count hv hcount
    obtain ⟨_, _, _, hwrite⟩ := hwrites st hst
    rw [hop] at hwrite
    cases hwrite with
    | array hv' hcount' _ _ hmax =>
      cases hv.symm.trans hv'
      cases hcount.symm.trans hcount'
      exact hmax
  selectors := by
    intro st hst c object hop
    obtain ⟨_, _, w, _, _, hread, hw⟩ := hreads st hst
    obtain ⟨_, _, _, hwrite⟩ := hwrites st hst
    have hdata := hsound.linked.isData st (mem_of_mem_written hst)
    rw [hop] at hread hwrite hdata
    have hdata : st.isData = false := hdata
    cases hwrite with
    | given hv' =>
      cases hread with
      | selector =>
        rw [hdata, if_neg Bool.false_ne_true] at hw
        cases hw.symm.trans hv'
    | derived _ hv hn hb => exact ⟨_, _, hv, hn, nonneg_of_numberBytes hb⟩
where
  nonneg_of_numberBytes {c : Scalar} {n : Int} {bytes : List UInt8} (hb : NumberBytes c n bytes)
      (hsigned : c.signed = false) : 0 ≤ n := by
    have hfits := hb.fits
    unfold fitsScalar at hfits
    rw [hsigned, if_neg Bool.false_ne_true, Bool.and_eq_true, decide_eq_true_eq] at hfits
    exact hfits.1

end Local

section Levels

variable {s : Schema} {known : Known} (h : s.Remembers (· = known))

include h

/-- Everything inside a value that was read and can be written meets what the encoder asks for. -/
theorem accepted_of_encodes {type inner : String} {v x : Value}
    (hpart : Part s known type v inner x) {levels levels' : Nat} {r r' : Reader}
    {bytes : List UInt8} (hread : Decodes s known levels type r v r')
    (hwrite : Encodes s known levels' type v bytes)
    (hsound : ∀ inner steps tail, Reaches s known type inner → Plan s known inner steps tail →
      SoundPlan s steps tail) {fields : List (String × Value)} (hx : x = .struct fields)
    {steps : List Step} {tail : Option (String × Int)} (hplan : Plan s known inner steps tail) :
    Accepted s known steps tail fields := by
  induction hpart generalizing levels levels' r r' bytes with
  | refl =>
    subst hx
    have hsteps := hsound _ _ _ .refl hplan
    obtain ⟨levels₁, hreads⟩ := reads_written h hread hplan hsteps
    obtain ⟨levels₂, hwrites⟩ := writes_written h hwrite hplan hsteps
    exact accepted_of_writes hsteps (fun _ _ _ _ => struct_of_decodes h) hreads hwrites
  | @step type outer steps' tail' st w next y last z hplan' hst hw hy _ ih =>
    have hsteps := hsound _ _ _ .refl hplan'
    obtain ⟨levels₁, hreads⟩ := reads_written h hread hplan' hsteps
    obtain ⟨levels₂, hwrites⟩ := writes_written h hwrite hplan' hsteps
    obtain ⟨_, _, v, _, _, hread', hv⟩ := hreads st hst
    obtain ⟨_, _, _, hwrite'⟩ := hwrites st hst
    obtain rfl := hv.symm.trans hw
    obtain ⟨_, _, hinner⟩ := reads_of_inside hread' hy
    obtain ⟨_, hinner'⟩ := writes_of_inside hw hwrite' hy
    refine ih hinner hinner' (fun U steps tail hU => hsound U steps tail ?_) hx hplan
    exact .step hplan' (mem_of_mem_written hst) (holds_of_inside hread' hy) hU

/-- What was read is written again exactly when the encoder accepts everything in it. -/
theorem encodes_iff_accepted {levels levels' : Nat} {type : String} {r r' : Reader} {v : Value}
    (hread : Decodes s known levels type r v r') (hlength : r.left.length < 0x8000000000000000)
    (hsound : ∀ inner steps tail, Reaches s known type inner → Plan s known inner steps tail →
      SoundPlan s steps tail) (hheight : v.height < levels') :
    (∃ bytes, Encodes s known levels' type v bytes) ↔
      ∀ inner fields steps tail, Part s known type v inner (.struct fields) →
        Plan s known inner steps tail → Accepted s known steps tail fields := by
  constructor
  · rintro ⟨bytes, hwrite⟩ inner fields steps tail hpart hplan
    exact accepted_of_encodes h hpart hread hwrite hsound rfl hplan
  · intro hacc
    have hnever : False → ∀ inner steps tail, Reaches s known type inner →
        Plan s known inner steps tail → (∀ st ∈ steps, ∀ c, st.op.Uses s c → c.isBool = false) ∧
          ∀ selector null, tail = some (selector, null) →
            steps.head?.map (·.field.name) = some selector := fun hf => hf.elim
    obtain ⟨bytes, hw, -⟩ :=
      encodes_of_decodes h hread hlength hsound hnever hacc hheight
    exact ⟨bytes, hw⟩

end Levels

end WireTables.Wire
