import Mathlib.Data.List.Perm.Subperm
import WireTables.Proofs.Wire.Decoding

/-!
# Depth of nesting

How many levels of nesting are allowed only decides whether a structure is read, never what is
read: with more levels the same bytes give the same value (`extends_decodeAt`). Nothing is assumed
about the constants of the schema there, so what has been found out about them is carried along.

What can be read with some number of levels can be read with the number that decoding allows
(`decodes_levels`). Between two bytes no structure is begun inside itself, because it would go on
beginning for ever; so there are at most as many levels as types before the next byte is taken.
-/

namespace WireTables.Wire

/-- Wherever the first reading ends well, so does the second one, in the same way. -/
def Extends (m m' : Reading α) : Prop :=
  ∀ r a r', Yields m r a r' → Yields m' r a r'

namespace Extends

variable {m m' : Reading α}

theorem refl : Extends m m :=
  fun _ _ _ h => h

theorem of_throw {e : Fault} : Extends (throw e) m' :=
  fun _ _ _ h => (not_yields_throw h).elim

theorem trans {m'' : Reading α} (h : Extends m m') (h' : Extends m' m'') : Extends m m'' :=
  fun r a r' hy => h' r a r' (h r a r' hy)

theorem bind {f f' : α → Reading β} (hm : Extends m m') (hf : ∀ a, Extends (f a) (f' a)) :
    Extends (m >>= f) (m' >>= f') := by
  intro r b r'' hy
  obtain ⟨a, r', hfirst, hrest⟩ := yields_bind.mp hy
  exact yields_bind.mpr ⟨a, r', hm r a r' hfirst, hf a r' b r'' hrest⟩

theorem ite {c : Prop} [Decidable c] {n n' : Reading α} (hm : Extends m m') (hn : Extends n n') :
    Extends (if c then m else n) (if c then m' else n') := by
  split
  · exact hm
  · exact hn

end Extends

section Nested

variable {nested nested' : String → Reading Value}
  (h : ∀ type, Extends (nested type) (nested' type))

theorem extends_readCount {element element' : Reading Value} (h : Extends element element')
    {count : Nat} : Extends (readCount element count) (readCount element' count) := by
  induction count with
  | zero => exact .refl
  | succ count ih => exact .bind h fun _ => .bind ih fun _ => .refl

theorem extends_readRest {element element' : Reading Value} (h : Extends element element')
    {index room : Nat} : Extends (readRest element index room) (readRest element' index room) := by
  induction room generalizing index with
  | zero => exact .refl
  | succ room ih =>
    refine .bind .refl fun before => .ite .refl (.bind h fun v => .bind .refl fun left => ?_)
    exact .ite .refl (.bind ih fun _ => .refl)

theorem extends_readElements {element element' : Reading Value} (h : Extends element element')
    {count : Option Nat} :
    Extends (readElements element count) (readElements element' count) := by
  cases count with
  | none => exact .bind .refl fun _ => .bind (extends_readRest h) fun _ => .refl
  | some n => exact .bind (extends_readCount h) fun _ => .refl

include h

theorem extends_readArray {element : Element} {count : Option Nat} :
    Extends (readArray nested element count) (readArray nested' element count) := by
  cases element with
  | byte | scalar => exact .refl
  | object type => exact extends_readElements (h type)

variable {s : Schema}

theorem extends_readMember {u : UnionType} {union : String} {selector : Int}
    {members : List (UnionMember × Nat)} :
    Extends (readMember s nested u union selector members)
      (readMember s nested' u union selector members) := by
  induction members with
  | nil => exact .refl
  | cons p members ih =>
    obtain ⟨m, i⟩ := p
    refine .bind .refl fun value => .ite ih (.ite .refl (.ite ?_ .refl))
    exact .bind (h _) fun _ => .refl

theorem extends_readUnion {union : String} {selector : Int} :
    Extends (readUnion s nested union selector) (readUnion s nested' union selector) :=
  .bind .refl fun _ => extends_readMember h

theorem extends_readSized {type field object : String} {size : Scalar} :
    Extends (readSized nested type field size object)
      (readSized nested' type field size object) := by
  rw [readSized_eq, readSized_eq]
  refine .bind .refl fun p r v r' hy => ?_
  obtain ⟨count, r₁, hcount, hend, hle, hinner, hused, hr'⟩ := yields_readRegion.mp hy
  exact yields_readRegion.mpr
    ⟨count, r₁, hcount, hend, hle, h object _ _ _ hinner, hused, hr'⟩

theorem extends_decodeStep {type : String} {p : Partial} {step : Step} :
    Extends (decodeStep s nested type p step) (decodeStep s nested' type p step) := by
  unfold decodeStep
  cases step.op with
  | scalar | constant | count | selector => exact .refl
  | object type => exact .bind (h type) fun _ => .refl
  | array => exact .bind .refl fun _ => .bind (extends_readArray h) fun _ => .refl
  | sized => exact .bind (extends_readSized h) fun _ => .refl
  | union => exact .bind .refl fun _ => .bind (extends_readUnion h) fun _ => .refl

theorem extends_decodeSteps {type : String} {tail : Option (String × Int)} {p : Partial}
    {steps : List Step} :
    Extends (decodeSteps s nested type tail p steps) (decodeSteps s nested' type tail p steps) := by
  induction steps generalizing p with
  | nil => exact .refl
  | cons step rest ih => exact .bind (extends_decodeStep h) fun _ => .ite .refl ih

theorem extends_decodeRecord {type : String} :
    Extends (decodeRecord s nested type) (decodeRecord s nested' type) :=
  .bind .refl fun _ => .bind .refl fun _ => .bind (extends_decodeSteps h) fun _ => .refl

end Nested

/-- What is read with some levels is read with more of them. -/
theorem extends_decodeAt {s : Schema} {levels levels' : Nat} (h : levels ≤ levels')
    (type : String) : Extends (decodeAt s levels type) (decodeAt s levels' type) := by
  induction levels generalizing levels' type with
  | zero => exact .of_throw
  | succ levels ih =>
    obtain ⟨levels', rfl⟩ := Nat.exists_eq_add_of_lt h
    exact extends_decodeRecord fun inner => ih (by omega) inner

/-- The second reader is the first one or has less to read. -/
def Within (r r₁ : Reader) : Prop :=
  r₁ = r ∨ r₁.left.length < r.left.length

namespace Within

theorem of_takes {taken : List UInt8} {r r₁ : Reader} (h : Takes taken r r₁) : Within r r₁ := by
  have hleft := congrArg List.length h.left
  rw [List.length_append] at hleft
  cases taken with
  | nil =>
    refine .inl ?_
    rw [h.eq_mk, ← List.nil_append r₁.left, ← h.left]
    rfl
  | cons b taken =>
    rw [List.length_cons] at hleft
    exact .inr (by omega)

theorem trans {r₁ r₂ r₃ : Reader} (h₁ : Within r₁ r₂) (h₂ : Within r₂ r₃) : Within r₁ r₃ := by
  rcases h₂ with rfl | h₂
  · exact h₁
  · rcases h₁ with rfl | h₁
    · exact .inr h₂
    · exact .inr (Nat.lt_trans h₂ h₁)

end Within

section Mono

theorem ReadsRow.mono {item item' : Reader → Value → Reader → Prop} {r r' : Reader}
    {items : List Value} (htakes : ∀ r v r', item r v r' → ∃ taken, Takes taken r r')
    (h : ReadsRow item r items r')
    (hitem : ∀ r₁ v r₁', Within r r₁ → item r₁ v r₁' → item' r₁ v r₁') :
    ReadsRow item' r items r' := by
  induction h with
  | nil => exact .nil
  | cons h _ ih =>
    obtain ⟨taken, ht⟩ := htakes _ _ _ h
    exact .cons (hitem _ _ _ (.inl rfl) h)
      (ih fun r₁ v r₁' hw => hitem r₁ v r₁' ((Within.of_takes ht).trans hw))

variable {s : Schema} {known : Known} {nested nested' : String → Reader → Value → Reader → Prop}

theorem ReadsItem.mono {element : Element} {r r₁ r' : Reader} {v : Value} (hw : Within r r₁)
    (h : ReadsItem nested element r₁ v r')
    (hnested : ∀ type r₁ v r₁', Within r r₁ → nested type r₁ v r₁' → nested' type r₁ v r₁') :
    ReadsItem nested' element r₁ v r' := by
  cases h with
  | scalar h => exact .scalar h
  | object h => exact .object (hnested _ _ _ _ hw h)

variable (htakes : ∀ type r v r', nested type r v r' → ∃ taken, Takes taken r r')

include htakes

theorem ReadsElements.mono {element : Element} {count : Option Nat} {r r' : Reader} {v : Value}
    (h : ReadsElements nested element count r v r')
    (hnested : ∀ type r₁ v r₁', Within r r₁ → nested type r₁ v r₁' → nested' type r₁ v r₁') :
    ReadsElements nested' element count r v r' := by
  cases h with
  | bytes hle => exact .bytes hle
  | allBytes => exact .allBytes
  | items hbyte h hlen =>
    exact .items hbyte (ReadsRow.mono (fun _ _ _ => takes_of_readsItem htakes) h
      fun _ _ _ hw hitem => hitem.mono hw hnested) hlen
  | allItems hbyte h hend =>
    exact .allItems hbyte (ReadsRow.mono (fun _ _ _ h => takes_of_readsItem htakes h.1) h
      fun _ _ _ hw hitem => ⟨hitem.1.mono hw hnested, hitem.2⟩) hend

theorem Reads.mono {locals locals' : Locals} {f : Field} {isData : Bool} {op : Op} {r r' : Reader}
    {v : Option Value} (h : Reads s known nested locals f isData op r v locals' r')
    (hnested : ∀ type r₁ v r₁', Within r r₁ → nested type r₁ v r₁' → nested' type r₁ v r₁') :
    Reads s known nested' locals f isData op r v locals' r' := by
  cases h with
  | scalar hr hn => exact .scalar hr hn
  | object h => exact .object (hnested _ _ _ _ (.inl rfl) h)
  | constant hr hn he => exact .constant hr hn he
  | count hr hn => exact .count hr hn
  | array hc h => exact .array hc (h.mono htakes hnested)
  | sized hr hn hcount hend hle h hused =>
    obtain ⟨taken, ht, hlen, hv⟩ := takes_of_readScalar hr
    have hpos := readSize_pos hv
    have hleft := congrArg List.length ht.left
    rw [List.length_append] at hleft
    refine .sized hr hn hcount hend hle (hnested _ _ _ _ (.inr ?_) h) hused
    rw [List.length_take]
    omega
  | selector hr hn => exact .selector hr hn
  | union hn h =>
    obtain ⟨u, m, i, hu, hm, h⟩ := h
    refine .union hn ⟨u, m, i, hu, hm, ?_⟩
    cases h with
    | absent hi => exact .absent hi
    | record hi hr h => exact .record hi hr (hnested _ _ _ _ (.inl rfl) h)
    | scalar hi hr hc h => exact .scalar hi hr hc h

theorem ReadsAll.mono {tail : Option (String × Int)} {locals : Locals} {steps : List Step}
    {r r' : Reader} {entries : List (String × Value)}
    (h : ReadsAll s known nested tail locals steps r entries r')
    (hnested : ∀ type r₁ v r₁', Within r r₁ → nested type r₁ v r₁' → nested' type r₁ v r₁') :
    ReadsAll s known nested' tail locals steps r entries r' := by
  induction h with
  | done => exact .done
  | last h hend => exact .last (h.mono htakes hnested) hend
  | more h hend _ ih =>
    obtain ⟨taken, ht⟩ := takes_of_reads htakes h
    exact .more (h.mono htakes hnested) hend
      (ih fun type r₁ v r₁' hw => hnested type r₁ v r₁' ((Within.of_takes ht).trans hw))

end Mono

section Levels

variable {s : Schema} {known : Known} (h : s.Remembers (· = known))

/-- The structure of a plan is a type of the schema. -/
theorem Plan.mem_names {type : String} {steps : List Step} {tail : Option (String × Int)}
    (h : Plan s known type steps tail) : type ∈ s.names := by
  obtain ⟨fields, hfields, -⟩ := steps_of_layout h.layout
  unfold Schema.allFields Schema.collectFields at hfields
  obtain ⟨t, ht, -⟩ := bind_eq_ok.mp hfields
  unfold Schema.require at ht
  split at ht
  · next t' ht' =>
    have hname : t'.specName = type := by simpa using List.find?_some ht'
    exact hname ▸ List.mem_map_of_mem (List.mem_of_find?_eq_some ht')
  · cases ht

include h

theorem decodes_mono {levels levels' : Nat} (hle : levels ≤ levels') {type : String}
    {r r' : Reader} {v : Value} (hread : Decodes s known levels type r v r') :
    Decodes s known levels' type r v r' := by
  induction levels generalizing levels' type r v r' with
  | zero => exact (not_yields_throw hread.2).elim
  | succ levels ih =>
    obtain ⟨levels', rfl⟩ : ∃ n, levels' = n + 1 := ⟨levels' - 1, by omega⟩
    obtain ⟨hr, steps, tail, entries, hplan, hall, rfl⟩ := (decodes_succ h).mp hread
    exact (decodes_succ h).mpr ⟨hr, steps, tail, entries, hplan,
      hall.mono (fun _ _ _ _ => takes_of_decodes h) fun _ _ _ _ _ => ih (by omega), rfl⟩

/-- What is read does not depend on the number of levels. -/
theorem decodes_unique {levels levels' : Nat} {type : String} {r r₁ r₂ : Reader} {v₁ v₂ : Value}
    (h₁ : Decodes s known levels type r v₁ r₁) (h₂ : Decodes s known levels' type r v₂ r₂) :
    v₁ = v₂ ∧ r₁ = r₂ :=
  (decodes_mono h (Nat.le_max_left levels levels') h₁).2.unique
    (decodes_mono h (Nat.le_max_right levels levels') h₂).2

/-- Levels that suffice for `count` bytes when so many types have been begun before the first. -/
def enough (s : Schema) (count begun : Nat) : Nat :=
  count * (s.types.length + 1) + (s.types.length - begun) + 1

/-- None of the structures begun before can be read from here in as many levels, so the one that
can is not among them. -/
theorem decodes_enough {levels : Nat} {type : String} {r r' : Reader} {v : Value}
    (begun : List String) (hread : Decodes s known levels type r v r') (hnodup : begun.Nodup)
    (hnames : ∀ t ∈ begun, t ∈ s.names)
    (hbegun : ∀ t ∈ begun, ∀ n ≤ levels, ∀ v r', ¬ Decodes s known n t r v r') :
    Decodes s known (enough s r.left.length begun.length) type r v r' := by
  induction levels generalizing type r v r' begun with
  | zero => exact (not_yields_throw hread.2).elim
  | succ levels ih =>
    by_cases hless : ∃ v r', Decodes s known levels type r v r'
    · obtain ⟨v₁, r₁, hless⟩ := hless
      obtain ⟨rfl, rfl⟩ := decodes_unique h hless hread
      exact ih begun hless hnodup hnames fun t ht n hn => hbegun t ht n (by omega)
    · obtain ⟨hr, steps, tail, entries, hplan, hall, rfl⟩ := (decodes_succ h).mp hread
      have hfresh : type ∉ begun := fun hmem => hbegun type hmem _ (Nat.le_refl _) _ _ hread
      have hnodup' : (type :: begun).Nodup := List.nodup_cons.mpr ⟨hfresh, hnodup⟩
      have hnames' : ∀ t ∈ type :: begun, t ∈ s.names := by
        rintro t ht
        rcases List.mem_cons.mp ht with rfl | ht
        · exact hplan.mem_names
        · exact hnames t ht
      have hroom : begun.length + 1 ≤ s.types.length := by
        have := (List.subperm_of_subset hnodup' hnames').length_le
        simpa [Schema.names] using this
      have hbegun' : ∀ t ∈ type :: begun, ∀ n ≤ levels, ∀ v r', ¬ Decodes s known n t r v r' := by
        rintro t ht n hn v₁ r₁ hd
        rcases List.mem_cons.mp ht with rfl | ht
        · exact hless ⟨v₁, r₁, decodes_mono h hn hd⟩
        · exact hbegun t ht n (by omega) v₁ r₁ hd
      have hsucc : enough s r.left.length begun.length =
          enough s r.left.length (begun.length + 1) + 1 := by
        unfold enough
        omega
      rw [hsucc]
      refine (decodes_succ h).mpr ⟨hr, steps, tail, entries, hplan,
        hall.mono (fun _ _ _ _ => takes_of_decodes h) fun t r₁ v₁ r₁' hw hd => ?_, rfl⟩
      rcases hw with rfl | hw
      · exact ih (type :: begun) hd hnodup' hnames' hbegun'
      · have hle : enough s r₁.left.length 0 ≤ enough s r.left.length (begun.length + 1) := by
          have := Nat.mul_le_mul_right (s.types.length + 1) (Nat.succ_le_of_lt hw)
          unfold enough
          rw [Nat.succ_mul] at this
          omega
        exact decodes_mono h hle (ih [] hd List.nodup_nil
          (fun _ ht => (List.not_mem_nil ht).elim) fun _ ht => (List.not_mem_nil ht).elim)

/-- What can be read at all can be read with the levels that decoding allows. -/
theorem decodes_levels {n : Nat} {type : String} {r r' : Reader} {v : Value}
    (hread : Decodes s known n type r v r') :
    Decodes s known (levels s r.left.length) type r v r' := by
  have hle : enough s r.left.length 0 ≤ levels s r.left.length := by
    unfold enough levels
    rw [Nat.succ_mul]
    omega
  exact decodes_mono h hle (decodes_enough h [] hread List.nodup_nil
    (fun _ ht => (List.not_mem_nil ht).elim) fun _ ht => (List.not_mem_nil ht).elim)

end Levels

end WireTables.Wire
