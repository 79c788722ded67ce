import WireTables.Proofs.Wire.Decoding

/-!
# Reading goes forward

A reading that ends well stands in the same region as before and not further to the front
(`Forward`), whatever it has found out about constants meanwhile. Readings one after the other go
forward if each does, so everything that decoding is put together from does (`forward_decodeAt`).
-/

namespace WireTables.Wire

/-- From `r` decoding can come to `r'` in the same region. -/
structure Reader.Before (r r' : Reader) : Prop where
  length_le : r'.left.length ≤ r.left.length
  end_eq : r'.position + r'.left.length = r.position + r.left.length

namespace Reader.Before

theorem refl (r : Reader) : r.Before r :=
  ⟨Nat.le_refl _, rfl⟩

theorem trans {r r' r'' : Reader} (h : r.Before r') (h' : r'.Before r'') : r.Before r'' :=
  ⟨Nat.le_trans h'.length_le h.length_le, h'.end_eq.trans h.end_eq⟩

theorem advance {r : Reader} {count : Nat} (h : count ≤ r.left.length) :
    r.Before (r.advance count) := by
  refine ⟨?_, ?_⟩ <;>
    · unfold Reader.advance
      simp only [List.length_drop]
      omega

end Reader.Before

/-- A reading that ends well does not go back. -/
def Forward (m : Reading α) : Prop :=
  ∀ r a r', Yields m r a r' → r.Before r'

namespace Forward

variable {m : Reading α}

theorem pure {a : α} : Forward (Pure.pure a : Reading α) := by
  intro r b r' hy
  obtain ⟨-, rfl⟩ := yields_pure.mp hy
  exact .refl r'

theorem throw {e : Fault} : Forward (MonadExcept.throw e : Reading α) :=
  fun _ _ _ hy => (not_yields_throw hy).elim

theorem throw_bind {e : Fault} {f : β → Reading α} :
    Forward ((MonadExcept.throw e : Reading β) >>= f) :=
  .throw

theorem bind {f : α → Reading β} (hm : Forward m) (hf : ∀ a, Forward (f a)) :
    Forward (m >>= f) := by
  intro r b r' hy
  obtain ⟨a, r₁, hfirst, hsecond⟩ := yields_bind.mp hy
  exact (hm r a r₁ hfirst).trans (hf a r₁ b r' hsecond)

/-- What is found out about constants takes no bytes. -/
theorem coding {m : Coding α} : Forward (Reading.coding m) := by
  intro r a r' hy
  obtain ⟨known, -, rfl⟩ := yields_coding.mp hy
  exact ⟨Nat.le_refl _, rfl⟩

theorem left : Forward Reading.left := by
  intro r bytes r' hy
  obtain ⟨-, rfl⟩ := yields_left.mp hy
  exact .refl r'

end Forward

section Forward

theorem forward_bytes (count : Nat) : Forward (Reading.bytes count) := by
  intro r bytes r' hy
  obtain ⟨hle, -, rfl⟩ := yields_bytes.mp hy
  exact .advance hle

theorem forward_readScalar (c : Scalar) : Forward (readScalar c) := by
  intro r v r' hy
  obtain ⟨hle, -, rfl⟩ := yields_readScalar.mp hy
  exact .advance hle

theorem forward_readInteger (type field : String) (c : Scalar) :
    Forward (readInteger type field c) :=
  (forward_readScalar c).bind fun _ => Forward.coding.bind fun _ => .pure

theorem forward_decodedLength (s : Schema) (type : String) (f : Field) (locals : Locals)
    (length : ArrayLength) : Forward (decodedLength s type f locals length) := by
  unfold decodedLength
  split
  · dsimp only
    split
    · exact .throw_bind
    · exact Forward.coding.bind fun _ => .pure
  · exact .coding

theorem before_of_readsRow {element : Reading Value} (h : Forward element) {r r' : Reader}
    {items : List Value} (hrow : ReadsRow (Yields element) r items r') : r.Before r' := by
  induction hrow with
  | nil => exact .refl _
  | cons hv _ ih => exact (h _ _ _ hv).trans ih

theorem forward_readCount {element : Reading Value} (h : Forward element) (count : Nat) :
    Forward (readCount element count) := by
  induction count with
  | zero => exact .pure
  | succ count ih => exact h.bind fun _ => ih.bind fun _ => .pure

theorem forward_readRest {element : Reading Value} (h : Forward element) (index room : Nat) :
    Forward (readRest element index room) := by
  induction room generalizing index with
  | zero => exact .pure
  | succ room ih =>
    refine Forward.left.bind fun before => ?_
    split
    · exact .pure
    · refine h.bind fun v => Forward.left.bind fun after => ?_
      split
      · exact .throw_bind
      · exact (ih _).bind fun _ => .pure

theorem forward_readElements {element : Reading Value} (h : Forward element)
    (count : Option Nat) : Forward (readElements element count) := by
  cases count with
  | some n => exact (forward_readCount h n).bind fun _ => .pure
  | none => exact Forward.left.bind fun _ => (forward_readRest h 0 _).bind fun _ => .pure

theorem forward_readRegion (nested : String → Reading Value) (type field object : String)
    (n : Int) : Forward (readRegion nested type field object n) := by
  intro r v r' hy
  obtain ⟨count, r₁, -, -, hle, -, -, rfl⟩ := yields_readRegion.mp hy
  exact ⟨(Reader.Before.advance hle).length_le, (Reader.Before.advance hle).end_eq⟩

variable {s : Schema} {nested : String → Reading Value} (h : ∀ type, Forward (nested type))

include h

theorem forward_readArray (element : Element) (count : Option Nat) :
    Forward (readArray nested element count) := by
  cases element with
  | byte =>
    refine Forward.left.bind fun left => ?_
    dsimp only
    split
    · exact .throw_bind
    · exact (forward_bytes _).bind fun _ => .pure
  | scalar c => exact forward_readElements (forward_readScalar c) count
  | object type => exact forward_readElements (h type) count

theorem forward_readMember (u : UnionType) (union : String) (selector : Int)
    (members : List (UnionMember × Nat)) :
    Forward (readMember s nested u union selector members) := by
  induction members with
  | nil => exact .throw
  | cons p members ih =>
    refine Forward.coding.bind fun n => ?_
    split
    · exact ih
    · split
      · exact .pure
      · split
        · exact (h _).bind fun _ => .pure
        · split
          · exact (forward_readScalar _).bind fun _ => .pure
          · exact .throw

theorem forward_decodeStep (type : String) (p : Partial) (step : Step) :
    Forward (decodeStep s nested type p step) := by
  unfold decodeStep
  dsimp only
  split
  · exact (forward_readInteger _ _ _).bind fun _ => .pure
  · exact (h _).bind fun _ => .pure
  · refine (forward_readScalar _).bind fun _ => Forward.coding.bind fun _ =>
      Forward.coding.bind fun _ => ?_
    split
    · exact .throw_bind
    · exact .pure
  · exact (forward_readInteger _ _ _).bind fun _ => .pure
  · exact (forward_decodedLength _ _ _ _ _).bind fun _ =>
      (forward_readArray h _ _).bind fun _ => .pure
  · rw [readSized_eq]
    exact ((forward_readInteger _ _ _).bind fun _ => forward_readRegion _ _ _ _ _).bind
      fun _ => .pure
  · exact (forward_readInteger _ _ _).bind fun _ => .pure
  · exact Forward.coding.bind fun _ =>
      (Forward.coding.bind fun u => forward_readMember h u _ _ _).bind fun _ => .pure

theorem forward_decodeSteps (type : String) (tail : Option (String × Int)) (p : Partial)
    (steps : List Step) : Forward (decodeSteps s nested type tail p steps) := by
  induction steps generalizing p with
  | nil => exact .pure
  | cons step rest ih =>
    refine (forward_decodeStep h type p step).bind fun p => ?_
    split
    · exact .pure
    · exact ih p

omit h in
theorem forward_decodeAt (levels : Nat) (type : String) : Forward (decodeAt s levels type) := by
  induction levels generalizing type with
  | zero => exact .throw
  | succ levels ih =>
    exact Forward.coding.bind fun steps => Forward.coding.bind fun tail =>
      (forward_decodeSteps ih type tail {} steps).bind fun _ => .pure

end Forward

end WireTables.Wire
