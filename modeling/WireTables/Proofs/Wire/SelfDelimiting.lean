import WireTables.Proofs.Wire.Depth
import WireTables.Proofs.Wire.Plan
import WireTables.Proofs.Wire.Structure

/-!
# Readings that tell where they end

A reading is self-delimiting when it does not look beyond what it takes (`SelfDelimiting`): with
other bytes after them it takes the same bytes, with the same outcome, and with fewer of them it
fails. Readings one after the other are self-delimiting if each is (`SelfDelimiting.bind`), so
arrays with a count, unions, and structures are. A structure after its length is, whatever reads
the structure, because the region of the structure ends where the length says
(`selfDelimiting_readRegion`).

What is left of a region is the one thing that is not: an array without a length takes as many bytes
as there are. So there must be none in the structures that share a region (`SharesRegion`).
-/

namespace WireTables.Wire

/-- From `r` to `r'` the reading takes exactly these bytes, whatever comes after them, and less than
all of them are not enough. -/
structure TakesExactly (m : Reading α) (taken : List UInt8) (r : Reader) (a : α) (r' : Reader) :
    Prop where
  left : r.left = taken ++ r'.left
  position : r'.position = r.position + taken.length
  whole : ∀ rest, Yields m { r with left := taken ++ rest } a { r' with left := rest }
  cut : ∀ front, front <+: taken → front ≠ taken → ∀ b r'',
    ¬ Yields m { r with left := front } b r''

/-- A reading that ends well depends on the bytes that it takes, on all of them and on no others. -/
def SelfDelimiting (m : Reading α) : Prop :=
  ∀ r a r', Yields m r a r' → ∃ taken, TakesExactly m taken r a r'

namespace SelfDelimiting

variable {m : Reading α}

/-- Nothing is cut off where nothing is taken. -/
theorem of_nothing (h : ∀ r a r', Yields m r a r' → r'.left = r.left ∧ r'.position = r.position ∧
    ∀ left, Yields m { r with left } a { r' with left }) : SelfDelimiting m := by
  intro r a r' hy
  obtain ⟨hleft, hposition, hany⟩ := h r a r' hy
  exact ⟨[], hleft.symm, hposition, hany, fun front hfront hne => (hne (List.prefix_nil.mp hfront)).elim⟩

theorem pure {a : α} : SelfDelimiting (Pure.pure a : Reading α) := by
  refine .of_nothing fun r b r' hy => ?_
  obtain ⟨rfl, rfl⟩ := yields_pure.mp hy
  exact ⟨rfl, rfl, fun _ => yields_pure.mpr ⟨rfl, rfl⟩⟩

theorem throw {e : Fault} : SelfDelimiting (MonadExcept.throw e : Reading α) :=
  fun _ _ _ hy => (not_yields_throw hy).elim

/-- What is found out about constants does not depend on the bytes. -/
theorem coding {m : Coding α} : SelfDelimiting (Reading.coding m) := by
  refine .of_nothing fun r a r' hy => ?_
  obtain ⟨known, hm, rfl⟩ := yields_coding.mp hy
  exact ⟨rfl, rfl, fun _ => yields_coding.mpr ⟨known, hm, rfl⟩⟩

/-- One reading after the other; the second only has to be self-delimiting after what the first can
give. -/
theorem bind {f : α → Reading β} (hm : SelfDelimiting m)
    (hf : ∀ a, (∃ r r', Yields m r a r') → SelfDelimiting (f a)) : SelfDelimiting (m >>= f) := by
  intro r b r'' hy
  obtain ⟨a, r', hfirst, hsecond⟩ := yields_bind.mp hy
  obtain ⟨t₁, h₁⟩ := hm r a r' hfirst
  obtain ⟨t₂, h₂⟩ := hf a ⟨r, r', hfirst⟩ r' b r'' hsecond
  refine ⟨t₁ ++ t₂, ?_, ?_, fun rest => ?_, fun front hfront hne b' s hy' => ?_⟩
  · rw [h₁.left, h₂.left, List.append_assoc]
  · rw [h₂.position, h₁.position, List.length_append, Nat.add_assoc]
  · rw [List.append_assoc]
    exact yields_bind.mpr ⟨a, _, h₁.whole (t₂ ++ rest), h₂.whole rest⟩
  · obtain ⟨a', s', hfirst', hsecond'⟩ := yields_bind.mp hy'
    by_cases hshort : front <+: t₁ ∧ front ≠ t₁
    · exact h₁.cut front hshort.1 hshort.2 a' s' hfirst'
    -- The first reading has all of its bytes, so the second one lacks some.
    have hlong : t₁ <+: front := by
      rcases List.prefix_or_prefix_of_prefix hfront (List.prefix_append t₁ t₂) with h | h
      · exact (not_not.mp fun hne => hshort ⟨h, hne⟩) ▸ List.prefix_rfl
      · exact h
    obtain ⟨back, rfl⟩ := hlong
    obtain ⟨rfl, rfl⟩ := (h₁.whole back).unique hfirst'
    refine h₂.cut back ((List.prefix_append_right_inj t₁).mp hfront) ?_ b' s hsecond'
    rintro rfl
    exact hne rfl

theorem ite {c : Prop} [Decidable c] {n : Reading α} (hm : c → SelfDelimiting m)
    (hn : ¬ c → SelfDelimiting n) : SelfDelimiting (if c then m else n) := by
  split
  · next hc => exact hm hc
  · next hc => exact hn hc

/-- A reading that must not happen ends what comes after it. -/
theorem throw_bind {e : Fault} {f : β → Reading α} :
    SelfDelimiting ((MonadExcept.throw e : Reading β) >>= f) :=
  .bind .throw fun _ ⟨_, _, hy⟩ => (not_yields_throw hy).elim

end SelfDelimiting

section Readings

theorem selfDelimiting_bytes {count : Nat} : SelfDelimiting (Reading.bytes count) := by
  intro r bytes r' hy
  obtain ⟨hle, rfl, rfl⟩ := yields_bytes.mp hy
  have hlen : (r.left.take count).length = count := List.length_take_of_le hle
  refine ⟨r.left.take count, (List.take_append_drop count r.left).symm, ?_, fun rest => ?_,
    fun front hfront hne b r'' hy' => hne ?_⟩
  · rw [hlen]
    rfl
  · refine yields_bytes.mpr ⟨by rw [List.length_append, hlen]; omega, ?_, ?_⟩
    · exact (List.take_left' hlen).symm
    · simp only [Reader.advance, List.drop_left' hlen]
  · have hle' := (yields_bytes.mp hy').1
    exact hfront.eq_of_length_le (by rw [hlen]; exact hle')

theorem selfDelimiting_readScalar {c : Scalar} : SelfDelimiting (readScalar c) := by
  unfold readScalar
  refine .ite (fun _ => .bind selfDelimiting_bytes fun _ _ => .pure) fun _ => ?_
  split
  · exact .bind selfDelimiting_bytes fun _ _ => .pure
  · exact .throw

theorem selfDelimiting_readInteger {type field : String} {c : Scalar} :
    SelfDelimiting (readInteger type field c) :=
  .bind selfDelimiting_readScalar fun _ _ => .bind .coding fun _ _ => .pure

theorem selfDelimiting_readCount {element : Reading Value} (h : SelfDelimiting element)
    {count : Nat} : SelfDelimiting (readCount element count) := by
  induction count with
  | zero => exact .pure
  | succ count ih => exact .bind h fun _ _ => .bind ih fun _ _ => .pure

variable {nested : String → Reading Value}

/-- An array that tells how many elements it has. -/
theorem selfDelimiting_readArray {element : Element} {count : Nat}
    (h : ∀ type, element = .object type → SelfDelimiting (nested type)) :
    SelfDelimiting (readArray nested element (some count)) := by
  cases element with
  | scalar c => exact .bind (selfDelimiting_readCount selfDelimiting_readScalar) fun _ _ => .pure
  | object type => exact .bind (selfDelimiting_readCount (h type rfl)) fun _ _ => .pure
  | byte =>
    -- How much is left is only asked for to see whether it is enough.
    have hbytes : ∀ r v r', Yields (readArray nested .byte (some count)) r v r' ↔
        Yields (Reading.bytes count >>= fun bytes => pure (.bytes bytes)) r v r' := by
      intro r v r'
      unfold readArray
      simp only [yields_bind, yields_left]
      constructor
      · rintro ⟨_, _, ⟨rfl, rfl⟩, hy⟩
        split at hy
        · simp only [yields_bind, not_yields_throw, false_and, exists_false] at hy
        · exact yields_bind.mp hy
      · rintro ⟨bytes, r₁, hbytes, hy⟩
        refine ⟨_, _, ⟨rfl, rfl⟩, ?_⟩
        rw [if_neg (by have := (yields_bytes.mp hbytes).1; simpa using this)]
        exact yields_bind.mpr ⟨bytes, r₁, hbytes, hy⟩
    have hread : SelfDelimiting (Reading.bytes count >>= fun bytes =>
        (pure (.bytes bytes) : Reading Value)) :=
      .bind selfDelimiting_bytes fun _ _ => .pure
    intro r v r' hy
    obtain ⟨taken, ht⟩ := hread r v r' ((hbytes r v r').mp hy)
    exact ⟨taken, ht.left, ht.position, fun rest => (hbytes _ _ _).mpr (ht.whole rest),
      fun front hfront hne b r'' hy' => ht.cut front hfront hne b r'' ((hbytes _ _ _).mp hy')⟩

/-- A region ends where its length says, whatever it is read by. -/
theorem selfDelimiting_readRegion {type field object : String} {n : Int} :
    SelfDelimiting (readRegion nested type field object n) := by
  intro r v r' hy
  obtain ⟨count, r₁, hcount, hend, hle, hinner, hused, rfl⟩ := yields_readRegion.mp hy
  have hlen : (r.left.take count).length = count := List.length_take_of_le hle
  refine ⟨r.left.take count, (List.take_append_drop count r.left).symm, ?_, fun rest => ?_,
    fun front hfront hne b r'' hy' => hne ?_⟩
  · rw [hlen]
    rfl
  · refine yields_readRegion.mpr ⟨count, r₁, hcount, hend, ?_, ?_, hused, ?_⟩
    · rw [List.length_append, hlen]
      omega
    · rwa [List.take_left' hlen]
    · simp only [Reader.advance, List.drop_left' hlen]
  · obtain ⟨_, _, rfl, -, hle', -⟩ := yields_readRegion.mp hy'
    rw [← hcount] at hle'
    exact hfront.eq_of_length_le (by rw [hlen]; exact hle')

theorem selfDelimiting_readSized {type field object : String} {size : Scalar} :
    SelfDelimiting (readSized nested type field size object) := by
  rw [readSized_eq]
  exact .bind selfDelimiting_readInteger fun _ _ => selfDelimiting_readRegion

variable {s : Schema}

theorem selfDelimiting_readMember {u : UnionType} {union : String} {selector : Int}
    {members : List (UnionMember × Nat)}
    (h : ∀ p ∈ members, u.nullMember ≠ some p.2 → s.isRecord p.1.typeName = true →
      SelfDelimiting (nested p.1.typeName)) :
    SelfDelimiting (readMember s nested u union selector members) := by
  induction members with
  | nil => exact .throw
  | cons p members ih =>
    obtain ⟨m, i⟩ := p
    refine .bind .coding fun _ _ =>
      .ite (fun _ => ih fun p hp => h p (List.mem_cons_of_mem _ hp)) fun _ => ?_
    refine .ite (fun _ => .pure) fun hnull => .ite (fun hrecord => ?_) fun _ => ?_
    · exact .bind (h _ List.mem_cons_self (by simpa using hnull) hrecord) fun _ _ => .pure
    · split
      · exact .bind selfDelimiting_readScalar fun _ _ => .pure
      · exact .throw

/-- Every array length but the rest of a region is known before the array is read. -/
theorem exists_of_decodedLength {type : String} {f : Field} {locals : Locals}
    {length : ArrayLength} {count : Option Nat} {r r' : Reader} (hrest : length ≠ .rest)
    (hy : Yields (decodedLength s type f locals length) r count r') : ∃ n, count = some n := by
  unfold decodedLength at hy
  cases length with
  | rest => exact (hrest rfl).elim
  | tag tag =>
    simp only at hy
    split at hy
    · simp only [Reading.invalid, yields_bind, not_yields_throw, false_and, exists_false] at hy
    · obtain ⟨_, _, -, hy⟩ := yields_bind.mp hy
      exact ⟨_, (yields_pure.mp hy).1⟩
  | fixed n =>
    obtain ⟨_, hy, -⟩ := yields_coding.mp hy
    exact ⟨n, (yields_pure.mp hy).1⟩
  | selected union selector =>
    obtain ⟨_, hy, -⟩ := yields_coding.mp hy
    unfold requiredLength at hy
    obtain ⟨_, _, -, hy⟩ := yields_bind.mp hy
    obtain ⟨_, _, -, hy⟩ := yields_bind.mp hy
    exact ⟨_, (yields_pure.mp hy).1⟩

theorem selfDelimiting_decodedLength {type : String} {f : Field} {locals : Locals}
    {length : ArrayLength} : SelfDelimiting (decodedLength s type f locals length) := by
  unfold decodedLength
  cases length with
  | fixed | rest | selected => exact .coding
  | tag tag => exact .ite (fun _ => .throw_bind) fun _ => .bind .coding fun _ _ => .pure

/-- A step without an array of the rest of its region. -/
theorem selfDelimiting_decodeStep {type : String} {p : Partial} {step : Step}
    (hrest : ∀ element, step.op ≠ .array element .rest)
    (h : ∀ inner, step.op.Holds s inner → (∀ c object, step.op ≠ .sized c object) →
      SelfDelimiting (nested inner)) : SelfDelimiting (decodeStep s nested type p step) := by
  unfold decodeStep
  cases hop : step.op with
  | scalar c => exact .bind selfDelimiting_readInteger fun _ _ => .pure
  | object object =>
    rw [hop] at h
    exact .bind (h object .object nofun) fun _ _ => .pure
  | constant c text =>
    refine .bind selfDelimiting_readScalar fun _ _ => .bind .coding fun _ _ => .bind .coding
      fun _ _ => .ite (fun _ => .throw_bind) fun _ => .pure
  | count c array => exact .bind selfDelimiting_readInteger fun _ _ => .pure
  | array element length =>
    refine .bind selfDelimiting_decodedLength fun count hy => .bind ?_ fun _ _ => .pure
    obtain ⟨_, _, hy⟩ := hy
    obtain ⟨n, rfl⟩ := exists_of_decodedLength (fun hl => hrest element (hl ▸ hop)) hy
    refine selfDelimiting_readArray fun object ho => ?_
    subst ho
    rw [hop] at h
    exact h object .element nofun
  | sized c object => exact .bind selfDelimiting_readSized fun _ _ => .pure
  | selector c object derived => exact .bind selfDelimiting_readInteger fun _ _ => .pure
  | union union selector =>
    refine .bind .coding fun _ _ => .bind (.bind .coding fun u hu => ?_) fun _ _ => .pure
    refine selfDelimiting_readMember fun p hp hnull hrecord => ?_
    obtain ⟨_, _, hu⟩ := hu
    obtain ⟨_, hu, -⟩ := yields_coding.mp hu
    rw [hop] at h
    exact h _ (.member (yields_unionType.mp hu).1 hp hnull hrecord) nofun

theorem selfDelimiting_decodeSteps {type : String} {tail : Option (String × Int)} {p : Partial}
    {steps : List Step}
    (h : ∀ p, ∀ step ∈ steps, SelfDelimiting (decodeStep s nested type p step)) :
    SelfDelimiting (decodeSteps s nested type tail p steps) := by
  induction steps generalizing p with
  | nil => exact .pure
  | cons step rest ih =>
    refine .bind (h p step List.mem_cons_self) fun _ _ => .ite (fun _ => .pure) fun _ => ?_
    exact ih fun p st hst => h p st (List.mem_cons_of_mem _ hst)

end Readings

/-- The second structure is the first one or is held inside it, without a length in front of it or
of a structure around it. -/
inductive SharesRegion (s : Schema) : String → String → Prop
  | refl {type} : SharesRegion s type type
  | step {type fields f op isData inner last} (hfields : s.allFields type = .ok fields)
    (hf : f ∈ fields) (hop : Travels s fields f op isData) (hinner : op.Holds s inner)
    (hsized : ∀ c object, op ≠ .sized c object) (h : SharesRegion s inner last) :
    SharesRegion s type last

/-- No structure in the region of another one has an array that takes the rest of it. -/
def RegionWithoutRest (s : Schema) (type : String) : Prop :=
  ∀ inner, SharesRegion s type inner → ∀ fields, s.allFields inner = .ok fields →
    ∀ f ∈ fields, f.marshal ≠ .restArray

/-- A structure without an array of the rest of its region tells where it ends. -/
theorem selfDelimiting_decodeAt {s : Schema} {levels : Nat} {type : String}
    (h : RegionWithoutRest s type) : SelfDelimiting (decodeAt s levels type) := by
  induction levels generalizing type with
  | zero => exact .throw
  | succ levels ih =>
    refine .bind .coding fun steps hsteps => .bind .coding fun tail _ =>
      .bind (selfDelimiting_decodeSteps fun p step hstep => ?_) fun _ _ => .pure
    obtain ⟨_, _, hsteps⟩ := hsteps
    obtain ⟨_, hlayout, -⟩ := yields_coding.mp hsteps
    obtain ⟨fields, hfields, hmap, htravels⟩ := steps_of_layout (yields_codingEval.mp hlayout)
    have hmem : step.field ∈ fields := field_of_step hmap hstep
    have hop := htravels step hstep
    refine selfDelimiting_decodeStep (fun element hrest => ?_) fun inner hinner hsized => ?_
    · rw [hrest] at hop
      exact h type .refl fields hfields _ hmem hop.rest_inv
    · exact ih fun last hlast => h last (.step hfields hmem hop hinner hsized hlast)

end WireTables.Wire
