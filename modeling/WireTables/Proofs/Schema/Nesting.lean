import Mathlib.Data.Finset.Card
import Mathlib.Logic.Relation
import WireTables.Proofs.Schema.Denotation

/-!
# Questions inside questions

What a question asks further is written in the schema: names and sizes in the expression of a
constant, the parts of a type, and names and sizes in the texts that give the lengths of its arrays
(`Raises`). How deep such questions are inside each other is counted, but a size that an expression
asks for starts to count anew. So only a size that is asked for inside itself can go on without end,
and where there is none, questions have a rank that goes down from each to what it raises
(`rank_lt`) and is lower than the room that `ask` has (`rank_lt_nesting`). Whether that is so can be
found out by following the questions as far as this room goes (`terminating_iff`).

What is remembered is not asked again, so a value that is found while a question is answered can only
make the way shorter.

Some questions lead to one that refers to itself, whatever they are nested in and whatever is
remembered (`Circular`). What is denoted is found from answers that are denoted themselves, all the
way down, so nothing that denotes an answer is circular (`Denotes.not_circular`). Where all that is
remembered is denoted, no value is therefore given to anything circular, neither by an evaluation
nor when references are checked.
-/

namespace WireTables

open Relation (TransGen ReflTransGen)

/-- How much deeper the question may go until an expression asks for a size: constants down to their
limit, and from a type down to the limit of types and then to that of constants. -/
def Query.room : Query → Nat
  | .constant _ depth => maxDepth + 1 - depth
  | .size _ depth => 2 * maxDepth + 1 - depth

/-- The question that a token stands for at some depth. -/
def Token.query? (depth : Nat) : Token → Option Query
  | .name constant => some (.constant constant (depth + 1))
  | .sizeOf type => some (.size type 0)
  | _ => none

namespace Schema

/-- What is asked when the text is evaluated at some depth. -/
def mentioned (text : String) (depth : Nat) : List Query :=
  match Expression.tokens text with
  | .ok ts => ts.filterMap (Token.query? depth)
  | .error _ => []

/-- The types that a type of a kind is made of. -/
def parts (s : Schema) (type : String) : TypeKind → List String
  | .value _ => []
  | .aliasOf a => [a.base]
  | .enum e => [e.underlying]
  | .bitfield b => [b.underlying]
  | .record _ =>
    match s.allFields type with
    | .ok fields => fields.map (·.typeName)
    | .error _ => []
  | .union u => u.present.map (·.typeName)

/-- The texts that say how many elements parts of a type have. -/
def lengths (s : Schema) (type : String) : TypeKind → List String
  | .record _ =>
    match s.allFields type with
    | .ok fields => fields.filterMap fun f => (countText? f).join
    | .error _ => []
  | .union u => u.present.filterMap (·.arraySize)
  | _ => []

/-- What is asked when a question is answered with these values remembered. -/
inductive Raises (s : Schema) (known : Known) : Query → Query → Prop
  | expr {name depth number c q} (hr : s.resolveConstant? name = some number)
    (hk : known.lookup number = none) (hc : s.constants[number]? = some c)
    (hd : depth ≤ maxDepth) (hq : q ∈ mentioned c.expr depth) :
    Raises s known (.constant name depth) q
  | part {type depth t inner} (hd : depth ≤ maxDepth) (ht : s.lookup? type = some t)
    (hp : inner ∈ s.parts type t.kind) : Raises s known (.size type depth) (.size inner (depth + 1))
  | length {type depth t text q} (hd : depth ≤ maxDepth) (ht : s.lookup? type = some t)
    (hl : text ∈ s.lengths type t.kind) (hq : q ∈ mentioned text 0) :
    Raises s known (.size type depth) q

/-- No size is asked for inside itself. -/
def Terminating (s : Schema) (known : Known) : Prop :=
  ∀ type, ¬ TransGen (s.Raises known) (.size type 0) (.size type 0)

section Lists

variable {s : Schema} {q : Query} {text : String} {depth : Nat}

theorem mem_mentioned : q ∈ mentioned text depth ↔
    ∃ ts t, Expression.tokens text = .ok ts ∧ t ∈ ts ∧ t.query? depth = some q := by
  unfold mentioned
  cases ht : Expression.tokens text with
  | error fault => simp
  | ok ts => simp

/-- What an expression asks for is a constant one level deeper, or a size outside of all others. -/
theorem eq_of_mem_mentioned (h : q ∈ mentioned text depth) :
    (∃ name, q = .constant name (depth + 1)) ∨ ∃ type, q = .size type 0 := by
  obtain ⟨_, t, -, -, hq⟩ := mem_mentioned.mp h
  cases t with
  | name name => exact .inl ⟨name, (Option.some.inj hq).symm⟩
  | sizeOf type => exact .inr ⟨type, (Option.some.inj hq).symm⟩
  | _ => cases hq

variable {type : String} {fields : List Field} {f : Field} {r : Record}

theorem mem_parts_of_field (hfields : s.allFields type = .ok fields) (hf : f ∈ fields) :
    f.typeName ∈ s.parts type (.record r) := by
  unfold parts
  rw [hfields]
  exact List.mem_map_of_mem hf

theorem mem_lengths_of_field (hfields : s.allFields type = .ok fields) (hf : f ∈ fields)
    (htext : countText? f = some (some text)) : text ∈ s.lengths type (.record r) := by
  unfold lengths
  rw [hfields]
  exact List.mem_filterMap.mpr ⟨f, hf, by rw [htext]; rfl⟩

end Lists

/-! ## Ranks -/

section Rank

variable {s : Schema} {known : Known} {q q' : Query}

open Classical in
/-- The types whose sizes expressions may come to ask for from the question on. -/
noncomputable def ahead (s : Schema) (known : Known) (q : Query) : Finset String :=
  s.names.toFinset.filter fun type => TransGen (s.Raises known) q (.size type 0)

theorem mem_ahead {type : String} :
    type ∈ s.ahead known q ↔ type ∈ s.names ∧ TransGen (s.Raises known) q (.size type 0) := by
  simp [ahead]

open Classical in
/-- A question that raises others counts the sizes ahead of it first, and then how much deeper it may
go before the next of them; one that raises none counts nothing. -/
noncomputable def rank (s : Schema) (known : Known) (q : Query) : Nat :=
  if ∃ q', s.Raises known q q' then (s.ahead known q).card * (2 * maxDepth + 1) + q.room else 0

theorem rank_of_raises (h : s.Raises known q q') :
    s.rank known q = (s.ahead known q).card * (2 * maxDepth + 1) + q.room :=
  if_pos ⟨q', h⟩

theorem rank_le (s : Schema) (known : Known) (q : Query) :
    s.rank known q ≤ (s.ahead known q).card * (2 * maxDepth + 1) + q.room := by
  unfold rank
  split
  · exact Nat.le_refl _
  · exact Nat.zero_le _

theorem Raises.room_pos (h : s.Raises known q q') : 0 < q.room := by
  cases h <;> simp only [Query.room] <;> omega

/-- The type of a size that raises questions exists. -/
theorem Raises.mem_names {type : String} {depth : Nat} (h : s.Raises known (.size type depth) q') :
    type ∈ s.names := by
  have named : ∀ {t : TypeEntry}, s.lookup? type = some t → type ∈ s.names := by
    intro t ht
    have hname : t.specName = type := by simpa using List.find?_some ht
    rw [← hname]
    exact List.mem_map_of_mem (List.mem_of_find?_eq_some ht)
  cases h with
  | part hd ht hp => exact named ht
  | length hd ht hl hq => exact named ht

theorem ahead_subset (h : s.Raises known q q') : s.ahead known q' ⊆ s.ahead known q := by
  intro type hm
  rw [mem_ahead] at hm ⊢
  exact ⟨hm.1, .head h hm.2⟩

/-- The size that an expression asks for is no longer ahead afterwards. -/
theorem ahead_ssubset {type : String} (hs : ¬ TransGen (s.Raises known) (.size type 0) (.size type 0))
    (ht : type ∈ s.names) (h : s.Raises known q (.size type 0)) :
    s.ahead known (.size type 0) ⊂ s.ahead known q := by
  refine ⟨ahead_subset h, fun hsub => ?_⟩
  have hmem := hsub (mem_ahead.mpr ⟨ht, .single h⟩)
  exact hs (mem_ahead.mp hmem).2

theorem card_ahead_le (s : Schema) (known : Known) (q : Query) :
    (s.ahead known q).card ≤ s.types.length :=
  calc (s.ahead known q).card ≤ s.names.toFinset.card :=
        Finset.card_le_card fun _ hm => List.mem_toFinset.mpr (mem_ahead.mp hm).1
    _ ≤ s.names.length := List.toFinset_card_le _
    _ = s.types.length := List.length_map _

/-- There is room for every rank. -/
theorem rank_lt_nesting (s : Schema) (known : Known) (q : Query) : s.rank known q < s.nesting := by
  have hahead := Nat.mul_le_mul_right (2 * maxDepth + 1) (card_ahead_le s known q)
  have hroom : q.room ≤ 2 * maxDepth + 1 := by
    cases q <;> simp only [Query.room] <;> omega
  have hrank := rank_le s known q
  unfold nesting
  rw [Nat.add_mul]
  omega

/-- What stays at the same sizes goes deeper. -/
theorem rank_lt_of_room (h : s.Raises known q q') (hroom : q'.room < q.room) :
    s.rank known q' < s.rank known q := by
  have hahead := Nat.mul_le_mul_right (2 * maxDepth + 1) (Finset.card_le_card (ahead_subset h))
  have hrank := rank_le s known q'
  rw [rank_of_raises h]
  omega

/-- The next size has all depths before it again, but one size less ahead of it. -/
theorem rank_size_lt {type : String} (hs : ¬ TransGen (s.Raises known) (.size type 0) (.size type 0))
    (h : s.Raises known q (.size type 0)) : s.rank known (.size type 0) < s.rank known q := by
  have hpos := h.room_pos
  rw [rank_of_raises h]
  by_cases hidle : ∃ q', s.Raises known (.size type 0) q'
  · obtain ⟨q', h'⟩ := hidle
    have hahead := Nat.mul_le_mul_right (2 * maxDepth + 1)
      (Nat.succ_le_of_lt (Finset.card_lt_card (ahead_ssubset hs h'.mem_names h)))
    rw [Nat.succ_mul] at hahead
    have hrank := rank_le s known (.size type 0)
    have hroom : (Query.size type 0).room = 2 * maxDepth + 1 := rfl
    omega
  · rw [rank, if_neg hidle]
    omega

/-- Ranks go down from a question to what it raises, unless that is a size asked for inside itself. -/
theorem rank_lt (hs : ∀ type, q' = .size type 0 →
      ¬ TransGen (s.Raises known) (.size type 0) (.size type 0)) (h : s.Raises known q q') :
    s.rank known q' < s.rank known q := by
  have hraises := h
  cases h with
  | expr hr hk hc hd hq =>
    obtain ⟨name, rfl⟩ | ⟨type, rfl⟩ := eq_of_mem_mentioned hq
    · exact rank_lt_of_room hraises (by simp only [Query.room]; omega)
    · exact rank_size_lt (hs type rfl) hraises
  | part hd ht hp => exact rank_lt_of_room hraises (by simp only [Query.room]; omega)
  | length hd ht hl hq =>
    obtain ⟨name, rfl⟩ | ⟨type, rfl⟩ := eq_of_mem_mentioned hq
    · exact rank_lt_of_room hraises (by simp only [Query.room]; omega)
    · exact rank_size_lt (hs type rfl) hraises

end Rank

/-! ## Deciding -/

section Decide

variable {s : Schema} {known : Known} {q q' : Query}

/-- What is raised, as a list. -/
def raised (s : Schema) (known : Known) : Query → List Query
  | .constant name depth =>
    match s.resolveConstant? name with
    | some number =>
      match known.lookup number, s.constants[number]? with
      | none, some c => if depth ≤ maxDepth then mentioned c.expr depth else []
      | _, _ => []
    | none => []
  | .size type depth =>
    match s.lookup? type with
    | some t =>
      if depth ≤ maxDepth then
        (s.parts type t.kind).map (.size · (depth + 1)) ++
          (s.lengths type t.kind).flatMap (mentioned · 0)
      else []
    | none => []

theorem mem_raised : q' ∈ s.raised known q ↔ s.Raises known q q' := by
  constructor
  · intro h
    cases q with
    | constant name depth =>
      simp only [raised] at h
      split at h
      · next number hr =>
        split at h
        · next c hk hc =>
          split at h
          · next hd => exact .expr hr hk hc hd h
          · cases h
        · cases h
      · cases h
    | size type depth =>
      simp only [raised] at h
      split at h
      · next t ht =>
        split at h
        · next hd =>
          rcases List.mem_append.mp h with h | h
          · obtain ⟨inner, hp, rfl⟩ := List.mem_map.mp h
            exact .part hd ht hp
          · obtain ⟨text, hl, hq⟩ := List.mem_flatMap.mp h
            exact .length hd ht hl hq
        · cases h
      · cases h
  · intro h
    cases h with
    | expr hr hk hc hd hq => simpa only [raised, hr, hk, hc, if_pos hd]
    | part hd ht hp =>
      simp only [raised, ht, if_pos hd]
      exact List.mem_append_left _ (List.mem_map_of_mem hp)
    | length hd ht hl hq =>
      simp only [raised, ht, if_pos hd]
      exact List.mem_append_right _ (List.mem_flatMap.mpr ⟨_, hl, hq⟩)

/-- Questions are at most so many times inside each other from the question on. -/
def endsWithin (s : Schema) (known : Known) : Nat → Query → Bool
  | 0, _ => false
  | room + 1, q => (s.raised known q).all (s.endsWithin known room)

theorem endsWithin_of_rank_lt (hs : s.Terminating known) : ∀ {room : Nat} {q : Query},
    s.rank known q < room → s.endsWithin known room q = true
  | 0, _, h => absurd h (Nat.not_lt_zero _)
  | room + 1, q, h => by
    refine List.all_eq_true.mpr fun q' hq => endsWithin_of_rank_lt hs ?_
    exact Nat.lt_of_lt_of_le (rank_lt (fun type _ => hs type) (mem_raised.mp hq)) (Nat.le_of_lt_succ h)

/-- A question inside another one has less room left. -/
theorem exists_endsWithin (h : TransGen (s.Raises known) q q') : ∀ {room : Nat},
    s.endsWithin known room q = true → ∃ left < room, s.endsWithin known left q' = true := by
  have step : ∀ {q q' room}, s.Raises known q q' → s.endsWithin known room q = true →
      ∃ left < room, s.endsWithin known left q' = true := by
    intro q q' room hq h
    cases room with
    | zero => cases h
    | succ room => exact ⟨room, Nat.lt_succ_self _, List.all_eq_true.mp h q' (mem_raised.mpr hq)⟩
  induction h with
  | single hq => exact step hq
  | tail _ hq ih =>
    intro room h
    obtain ⟨left, hlt, h⟩ := ih h
    obtain ⟨left', hlt', h⟩ := step hq h
    exact ⟨left', Nat.lt_trans hlt' hlt, h⟩

theorem not_transGen_of_endsWithin {room : Nat} (h : s.endsWithin known room q = true) :
    ¬ TransGen (s.Raises known) q q := by
  intro hcycle
  induction room using Nat.strongRecOn with
  | ind room ih =>
    obtain ⟨left, hlt, h⟩ := exists_endsWithin hcycle h
    exact ih left hlt h

/-- Whether a size is asked for inside itself can be found out. -/
theorem terminating_iff : s.Terminating known ↔
    ∀ type ∈ s.names, s.endsWithin known s.nesting (.size type 0) = true := by
  refine ⟨fun h _ _ => endsWithin_of_rank_lt h (rank_lt_nesting s known _), fun h type hcycle => ?_⟩
  obtain ⟨_, hfirst, -⟩ := TransGen.head'_iff.mp hcycle
  exact not_transGen_of_endsWithin (h type hfirst.mem_names) hcycle

instance : Decidable (s.Terminating known) :=
  decidable_of_iff _ terminating_iff.symm

end Decide

end Schema

/-- The question on its own, inside no other. -/
def Query.outermost : Query → Query
  | .constant name _ => .constant name 0
  | .size type _ => .size type 0

@[simp] theorem Query.outermost_outermost (q : Query) : q.outermost.outermost = q.outermost := by
  cases q <;> rfl

namespace Schema

variable {s : Schema}

/-- A question refers to what has to be answered for it, whatever they are nested in. -/
def Refers (s : Schema) (q q' : Query) : Prop :=
  ∃ inner, s.Raises [] q.outermost inner ∧ q' = inner.outermost

/-- What a question refers to, in any number of steps, refers to itself. -/
def Circular (s : Schema) (q : Query) : Prop :=
  ∃ q', ReflTransGen s.Refers q q' ∧ TransGen s.Refers q' q'

variable {q q' : Query} {n : Int} {sub : Query → Int → Prop}

theorem Evaluates.exists_answer {text : String} {depth : Nat} (h : Evaluates sub text depth n)
    (hq : q ∈ mentioned text depth) : ∃ m, sub q m := by
  obtain ⟨-, ts, ht, -, items, hitems, -⟩ := h
  obtain ⟨_, t, ht', hm, hq⟩ := mem_mentioned.mp hq
  cases ht.symm.trans ht'
  obtain ⟨i, -, hi⟩ := exists_of_forall₂ hitems.flip hm
  cases hi with
  | name h | sizeOf h =>
    cases hq
    exact ⟨_, h⟩
  | _ => cases hq

/-- The size of a type is found from those of its parts. -/
theorem KindExact.exists_part {type inner : String} {kind : TypeKind}
    (h : KindExact s sub type n kind) (hp : inner ∈ s.parts type kind) :
    ∃ m, sub (.size inner 0) m := by
  cases kind with
  | value v => cases hp
  | aliasOf a | enum e | bitfield b =>
    obtain rfl := List.mem_singleton.mp hp
    exact ⟨n, h⟩
  | record r =>
    obtain ⟨fields, sizes, hfields, hsizes, -⟩ := h
    simp only [parts, hfields] at hp
    obtain ⟨f, hf, rfl⟩ := List.mem_map.mp hp
    obtain ⟨_, -, e, _, he, -⟩ := exists_of_forall₂ hsizes.flip hf
    exact ⟨e, he⟩
  | union u =>
    obtain ⟨sizes, hsizes, -⟩ := h
    obtain ⟨m, hm, rfl⟩ := List.mem_map.mp hp
    obtain ⟨_, -, _, e, -, he, -⟩ := exists_of_forall₂ hsizes.flip hm
    exact ⟨e, he⟩

/-- The size of a type is found from the lengths of its arrays. -/
theorem KindExact.exists_length {type text : String} {kind : TypeKind}
    (h : KindExact s sub type n kind) (hl : text ∈ s.lengths type kind) :
    ∃ m, Evaluates sub text 0 m := by
  cases kind with
  | value | aliasOf | enum | bitfield => cases hl
  | record r =>
    obtain ⟨fields, sizes, hfields, hsizes, -⟩ := h
    simp only [lengths, hfields] at hl
    obtain ⟨f, hf, htext⟩ := List.mem_filterMap.mp hl
    obtain ⟨_, -, _, c, -, hc, -⟩ := exists_of_forall₂ hsizes.flip hf
    unfold CountOf at hc
    simp only [Option.join_eq_some_iff.mp htext, Option.some.injEq, exists_eq_left'] at hc
    exact ⟨c, hc⟩
  | union u =>
    obtain ⟨sizes, hsizes, -⟩ := h
    obtain ⟨m, hm, htext⟩ := List.mem_filterMap.mp hl
    obtain ⟨_, -, c, _, hc, -⟩ := exists_of_forall₂ hsizes.flip hm
    unfold MemberCountOf at hc
    simp only [htext] at hc
    exact ⟨c, hc⟩

/-- An answer is found from answers to all that the question refers to. -/
theorem Denoted.exists_answer (h : Denoted s sub q n) (hq : s.Refers q q') :
    ∃ inner m, sub inner m ∧ inner.outermost = q' := by
  obtain ⟨inner, hraises, rfl⟩ := hq
  cases h with
  | constant hr hc he =>
    cases hraises with
    | expr hr' _ hc' _ hm =>
      cases hr.symm.trans hr'
      cases hc.symm.trans hc'
      obtain ⟨m, hm⟩ := he.exists_answer hm
      exact ⟨inner, m, hm, rfl⟩
  | size ht hk =>
    cases hraises with
    | part _ ht' hp =>
      cases ht.symm.trans ht'
      obtain ⟨m, hm⟩ := hk.exists_part hp
      exact ⟨_, m, hm, rfl⟩
    | length _ ht' hl hm =>
      cases ht.symm.trans ht'
      obtain ⟨_, he⟩ := hk.exists_length hl
      obtain ⟨m, hm⟩ := he.exists_answer hm
      exact ⟨inner, m, hm, rfl⟩

/-- From a question that denotes an answer, references lead on finitely often. -/
theorem Denotes.acc (h : s.Denotes q n) : Acc (fun a b => s.Refers b a) q.outermost := by
  refine h.induct (motive := fun q _ => Acc (fun a b => s.Refers b a) q.outermost)
    fun q n hd => .intro _ fun q' hq => ?_
  have hq : s.Refers q q' := by
    unfold Refers at hq ⊢
    rwa [Query.outermost_outermost] at hq
  obtain ⟨inner, _, ⟨-, hacc⟩, rfl⟩ := hd.exists_answer hq
  exact hacc

theorem not_circular_of_acc (h : Acc (fun a b => s.Refers b a) q) : ¬ s.Circular q := by
  induction h with
  | intro q _ ih =>
    rintro ⟨p, hreach, hcycle⟩
    cases hreach.cases_head with
    | inl hsame =>
      subst hsame
      obtain ⟨b, hb, hback⟩ := TransGen.head'_iff.mp hcycle
      exact ih b hb ⟨q, hback, hcycle⟩
    | inr hstep =>
      obtain ⟨b, hb, hreach⟩ := hstep
      exact ih b hb ⟨p, hreach, hcycle⟩

/-- Nothing that denotes an answer is circular. -/
theorem Denotes.not_circular (h : s.Denotes q n) : ¬ s.Circular q.outermost :=
  not_circular_of_acc h.acc

variable {known known' : Known}

theorem not_circular_of_ask (hm : s.Meant known) (h : Yields (s.ask q) known n known') :
    ¬ s.Circular q.outermost :=
  ((ask_denotes q).of_yields hm h).2.not_circular

theorem not_circular_of_evaluate (hm : s.Meant known) {text : String}
    (h : Yields (s.evaluate text) known n known') (hq : q ∈ mentioned text 0) :
    ¬ s.Circular q.outermost := by
  obtain ⟨m, hm⟩ := ((evaluateWith_gives ask_denotes text 0).of_yields hm h).2.exists_answer hq
  exact hm.not_circular

theorem not_circular_of_checkReferences (hm : s.Meant known)
    (h : Yields s.checkReferences known () known') :
    ∀ c ∈ s.constants.toList, ¬ s.Circular (.constant c.specName 0) := by
  obtain ⟨⟨⟩, k, hentries, hconstants⟩ := yields_bind.mp h
  have hk : s.Meant k := ((Keeps.forM fun t _ => checkEntry_keeps (fun text =>
    (evaluateWith_gives ask_denotes text 0).trivial) t).of_yields hm hentries).1
  rw [forM_constants] at hconstants
  refine forM_each (I := s.Meant) (P := fun (c : Constant) _ => ¬ s.Circular (.constant c.specName 0))
    hconstants hk
    (fun c _ k k' hk h => ?_) fun _ _ _ _ _ hx _ => hx
  obtain ⟨v, k₁, hv, h⟩ := yields_bind.mp h
  obtain ⟨-, rfl⟩ := yields_pure.mp h
  exact ⟨((ask_denotes _).of_yields hk hv).1, not_circular_of_ask hk hv⟩

end Schema

end WireTables
