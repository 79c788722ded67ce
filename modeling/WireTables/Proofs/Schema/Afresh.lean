import WireTables.Proofs.Schema.Denotation

/-!
# Answers found afresh

A question can be answered without a memory: every constant is evaluated each time it is asked for,
and constants and types may be inside each other as deep as they like (`Schema.afresh`). Only a
number bounds how many questions are inside each other; a larger one never changes an answer
(`AfreshIn.mono`), so a question has one answer afresh at most (`Afresh.unique`).

Values that were there in the beginning may be held on to, the `base`. With nothing in it all values
are those of the expressions. Whatever was found and remembered since is what is found afresh, and
so is every answer (`answer_afresh`), however deep it was asked for and whatever failed on the way.
-/

namespace WireTables

namespace Schema

open Expression (Item)

/-- The answer to a question with at most `room` questions inside each other, found without a memory
except for the values in `base`. Nothing counts how deep constants and types are nested. -/
def afresh (s : Schema) (base : Known) : Nat → Query → Eval Int
  | 0, q => throw (.endless q.subject)
  | room + 1, .constant name _ =>
    match s.resolveConstant? name with
    | none => throw (.unresolvedConstant name)
    | some number =>
      match base.lookup number, s.constants[number]? with
      | some value, _ => return value
      | none, none => throw (.unresolvedConstant name)
      | none, some c => evaluateWith (s.afresh base room) c.expr 0
  | room + 1, .size type _ => s.sizeStep (s.afresh base room) type 0

/-- The answer to a question afresh, where `sub` gives the answers to others. -/
inductive Anew (s : Schema) (base : Known) (sub : Query → Int → Prop) : Query → Int → Prop
  | held {name depth number n} (hr : s.resolveConstant? name = some number)
    (hk : base.lookup number = some n) : Anew s base sub (.constant name depth) n
  | expr {name depth number c n} (hr : s.resolveConstant? name = some number)
    (hk : base.lookup number = none) (hc : s.constants[number]? = some c)
    (he : Evaluates sub c.expr 0 n) : Anew s base sub (.constant name depth) n
  | size {type depth t n} (ht : s.lookup? type = some t) (h : KindSize s sub type 0 n t.kind) :
    Anew s base sub (.size type depth) n

/-- The answers afresh with at most so many questions inside each other. -/
def AfreshIn (s : Schema) (base : Known) : Nat → Query → Int → Prop
  | 0 => fun _ _ => False
  | room + 1 => Anew s base (AfreshIn s base room)

/-- The answer afresh. -/
def Afresh (s : Schema) (base : Known) (q : Query) (n : Int) : Prop :=
  ∃ room, AfreshIn s base room q n

variable {s : Schema} {base : Known}

/-- What is found afresh, and that nothing is remembered of it. -/
theorem yields_afresh : ∀ {room : Nat} {q : Query} {n : Int} {known known' : Known},
    Yields (s.afresh base room q) known n known' ↔ AfreshIn s base room q n ∧ known' = known
  | 0, _, _, _, _ => ⟨fun h => (not_yields_throw h).elim, fun h => h.1.elim⟩
  | room + 1, .constant name depth, n, known, known' => by
    unfold afresh
    cases hr : s.resolveConstant? name with
    | none =>
      refine ⟨fun h => (not_yields_throw h).elim, ?_⟩
      rintro ⟨h, -⟩
      cases h with
      | held hr' | expr hr' => cases hr.symm.trans hr'
    | some number =>
      simp only
      cases hk : base.lookup number with
      | some value =>
        refine yields_pure.trans (and_congr_left fun _ => ⟨?_, fun h => ?_⟩)
        · rintro rfl
          exact .held hr hk
        · cases h with
          | held hr' hk' =>
            cases hr.symm.trans hr'
            exact Option.some.inj (hk'.symm.trans hk)
          | expr hr' hk' =>
            cases hr.symm.trans hr'
            cases hk.symm.trans hk'
      | none =>
        cases hc : s.constants[number]? with
        | none =>
          refine ⟨fun h => (not_yields_throw h).elim, ?_⟩
          rintro ⟨h, -⟩
          cases h with
          | held hr' hk' =>
            cases hr.symm.trans hr'
            cases hk.symm.trans hk'
          | expr hr' _ hc' =>
            cases hr.symm.trans hr'
            cases hc.symm.trans hc'
        | some c =>
          refine (evaluates_iff fun _ _ _ => yields_afresh).trans
            (and_congr_left fun _ => ⟨fun h => .expr hr hk hc h, fun h => ?_⟩)
          cases h with
          | held hr' hk' =>
            cases hr.symm.trans hr'
            cases hk.symm.trans hk'
          | expr hr' _ hc' he =>
            cases hr.symm.trans hr'
            cases hc.symm.trans hc'
            exact he
  | room + 1, .size type depth, n, known, known' => by
    unfold afresh
    refine (yields_sizeStep fun _ _ _ => yields_afresh).trans
      (and_congr_left fun _ => ⟨fun h => ?_, fun h => ?_⟩)
    · cases h with
      | size _ ht hn => exact .size ht hn
    · cases h with
      | size ht hn => exact .size (Nat.zero_le _) ht hn

section Room

variable {q q' : Query} {n n' : Int} {room room' : Nat}

theorem Anew.mono {sub sub' : Query → Int → Prop} (h : ∀ q n, sub q n → sub' q n)
    (ha : Anew s base sub q n) : Anew s base sub' q n := by
  cases ha with
  | held hr hk => exact .held hr hk
  | expr hr hk hc he => exact .expr hr hk hc (he.mono h)
  | size ht hn => exact .size ht (hn.mono h)

theorem AfreshIn.succ : ∀ {room : Nat} {q : Query} {n : Int}, AfreshIn s base room q n →
    AfreshIn s base (room + 1) q n
  | 0, _, _, h => h.elim
  | _ + 1, _, _, h => Anew.mono (fun _ _ => AfreshIn.succ) h

/-- More room gives the same answers. -/
theorem AfreshIn.mono (hle : room ≤ room') (h : AfreshIn s base room q n) :
    AfreshIn s base room' q n := by
  induction hle with
  | refl => exact h
  | step _ ih => exact ih.succ

/-- What a question is nested in does not matter. -/
theorem AfreshIn.same (hq : q.Same q') (h : AfreshIn s base room q n) :
    AfreshIn s base room q' n := by
  cases room with
  | zero => exact h.elim
  | succ room =>
    cases q' with
    | constant =>
      cases h with
      | held hr hk =>
        cases hq
        exact .held hr hk
      | expr hr hk hc he =>
        cases hq
        exact .expr hr hk hc he
      | size => cases hq
    | size =>
      cases h with
      | held | expr => cases hq
      | size ht hn =>
        cases hq
        exact .size ht hn

/-- A question has one answer afresh. -/
theorem Afresh.unique (h : s.Afresh base q n) (h' : s.Afresh base q n') : n = n' := by
  obtain ⟨room, h⟩ := h
  obtain ⟨room', h'⟩ := h'
  have hboth := yields_afresh.mpr ⟨h.mono (Nat.le_max_left room room'), (rfl : base = base)⟩
  have hboth' := yields_afresh.mpr ⟨h'.mono (Nat.le_max_right room room'), (rfl : base = base)⟩
  exact (hboth.unique hboth').1

end Room

/-! ## Room for several answers -/

section Gather

variable {text : String} {depth : Nat} {n : Int}

/-- What each element of a list needs room for fits in one room. -/
theorem exists_room {α β : Type} (R : Nat → α → β → Prop)
    (hmono : ∀ {room room' x y}, room ≤ room' → R room x y → R room' x y) {xs : List α}
    {ys : List β} (h : List.Forall₂ (fun x y => ∃ room, R room x y) xs ys) :
    ∃ room, List.Forall₂ (R room) xs ys := by
  induction h with
  | nil => exact ⟨0, .nil⟩
  | cons hx _ ih =>
    obtain ⟨room, hx⟩ := hx
    obtain ⟨room', hrest⟩ := ih
    exact ⟨max room room', .cons (hmono (Nat.le_max_left ..) hx)
      (hrest.imp fun _ _ => hmono (Nat.le_max_right ..))⟩

/-- A text found from answers afresh has its value in some room, whatever it is evaluated for. -/
theorem Evaluates.exists_room (h : Evaluates (s.Afresh base) text depth n) :
    ∃ room, Evaluates (AfreshIn s base room) text 0 n := by
  obtain ⟨-, ts, ht, hne, items, hi, hc⟩ := h
  have hmono : ∀ {room room' t i}, room ≤ room' → TokenItem (AfreshIn s base room) 0 t i →
      TokenItem (AfreshIn s base room') 0 t i := fun hle hti => by
    cases hti with
    | number => exact .number
    | name hn => exact .name (hn.mono hle)
    | sizeOf hn => exact .sizeOf (hn.mono hle)
    | operator => exact .operator
    | openParen => exact .openParen
    | closeParen => exact .closeParen
  have heach : List.Forall₂ (fun t i => ∃ room, TokenItem (AfreshIn s base room) 0 t i) ts items :=
    hi.imp fun t i hti => by
      cases hti with
      | number => exact ⟨0, .number⟩
      | @name name n hn =>
        obtain ⟨room, hn⟩ := hn
        exact ⟨room, .name
          (hn.same (show Query.Same (.constant name (depth + 1)) (.constant name 1) from rfl))⟩
      | sizeOf hn =>
        obtain ⟨room, hn⟩ := hn
        exact ⟨room, .sizeOf hn⟩
      | operator => exact ⟨0, .operator⟩
      | openParen => exact ⟨0, .openParen⟩
      | closeParen => exact ⟨0, .closeParen⟩
  obtain ⟨room, hi⟩ :=
    Schema.exists_room (fun room => TokenItem (AfreshIn s base room) 0) hmono heach
  exact ⟨room, Nat.zero_le _, ts, ht, hne, items, hi, hc⟩

theorem Evaluates.afresh (h : Evaluates (s.Afresh base) text depth n) :
    Evaluates (s.Afresh base) text 0 n := by
  obtain ⟨room, h⟩ := h.exists_room
  exact h.mono fun _ _ hq => ⟨room, hq⟩

theorem Afresh.size_same {type : String} {depth' : Nat} (h : s.Afresh base (.size type depth) n) :
    ∃ room, AfreshIn s base room (.size type depth') n := by
  obtain ⟨room, h⟩ := h
  exact ⟨room, h.same (show Query.Same (.size type depth) (.size type depth') from rfl)⟩

theorem CountOf.exists_room {f : Field} (h : CountOf (s.Afresh base) f n) :
    ∃ room, CountOf (AfreshIn s base room) f n := by
  unfold CountOf at h ⊢
  split at h
  · obtain ⟨text, ht, he⟩ := h
    obtain ⟨room, he⟩ := he.exists_room
    exact ⟨room, text, ht, he⟩
  · exact ⟨0, h⟩

theorem FieldSizeOf.exists_room {f : Field} (h : FieldSizeOf (s.Afresh base) depth f n) :
    ∃ room, FieldSizeOf (AfreshIn s base room) 0 f n := by
  obtain ⟨e, c, he, hc, hn⟩ := h
  obtain ⟨room, he⟩ := he.size_same
  obtain ⟨room', hc⟩ := hc.exists_room
  exact ⟨max room room', e, c, he.mono (Nat.le_max_left ..),
    hc.mono fun _ _ => AfreshIn.mono (Nat.le_max_right ..), hn⟩

theorem MemberSizeOf.exists_room {m : UnionMember} (h : MemberSizeOf (s.Afresh base) depth m n) :
    ∃ room, MemberSizeOf (AfreshIn s base room) 0 m n := by
  obtain ⟨c, e, hc, he, hn⟩ := h
  obtain ⟨room, he⟩ := he.size_same
  have hcount : ∃ room, MemberCountOf (AfreshIn s base room) m c := by
    unfold MemberCountOf at hc ⊢
    split at hc
    · exact hc.exists_room
    · exact ⟨0, hc⟩
  obtain ⟨room', hc⟩ := hcount
  exact ⟨max room room', c, e, hc.mono fun _ _ => AfreshIn.mono (Nat.le_max_right ..),
    he.mono (Nat.le_max_left ..), hn⟩

theorem KindSize.exists_room {type : String} {kind : TypeKind}
    (h : KindSize s (s.Afresh base) type depth n kind) :
    ∃ room, KindSize s (AfreshIn s base room) type 0 n kind := by
  have hmono : ∀ {room room' : Nat}, room ≤ room' → ∀ q n, AfreshIn s base room q n →
      AfreshIn s base room' q n := fun hle _ _ => AfreshIn.mono hle
  cases kind with
  | value c => exact ⟨0, h⟩
  | aliasOf a | enum e | bitfield b => exact Afresh.size_same h
  | record r =>
    obtain ⟨fields, sizes, hf, hs, hn⟩ := h
    obtain ⟨room, hs⟩ := Schema.exists_room (fun room => FieldSizeOf (AfreshIn s base room) 0)
      (fun hle hf => hf.mono (hmono hle)) (hs.imp fun _ _ hf => hf.exists_room)
    exact ⟨room, fields, sizes, hf, hs, hn⟩
  | union u =>
    obtain ⟨sizes, hs, hn⟩ := h
    obtain ⟨room, hs⟩ := Schema.exists_room (fun room => MemberSizeOf (AfreshIn s base room) 0)
      (fun hle hm => hm.mono (hmono hle)) (hs.imp fun _ _ hm => hm.exists_room)
    exact ⟨room, sizes, hs, hn⟩

/-- The value of a text does not depend on what it is evaluated for. -/
theorem Evaluates.unique_afresh {depth' : Nat} {n' : Int}
    (h : Evaluates (s.Afresh base) text depth n) (h' : Evaluates (s.Afresh base) text depth' n') :
    n = n' := by
  obtain ⟨room, h⟩ := h.exists_room
  obtain ⟨room', h'⟩ := h'.exists_room
  have hboth := (evaluates_iff fun _ _ _ => yields_afresh).mpr
    ⟨h.mono fun _ _ => AfreshIn.mono (Nat.le_max_left room room'), (rfl : base = base)⟩
  have hboth' := (evaluates_iff fun _ _ _ => yields_afresh).mpr
    ⟨h'.mono fun _ _ => AfreshIn.mono (Nat.le_max_right room room'), (rfl : base = base)⟩
  exact (hboth.unique hboth').1

/-- What is found from answers afresh is an answer afresh. -/
theorem Afresh.of_anew {q : Query} (h : Anew s base (s.Afresh base) q n) : s.Afresh base q n := by
  cases h with
  | held hr hk => exact ⟨1, .held hr hk⟩
  | expr hr hk hc he =>
    obtain ⟨room, he⟩ := he.exists_room
    exact ⟨room + 1, .expr hr hk hc he⟩
  | size ht hn =>
    obtain ⟨room, hn⟩ := hn.exists_room
    exact ⟨room + 1, .size ht hn⟩

end Gather

/-! ## What is remembered is what is found afresh -/

/-- The values of `base` are remembered, and beyond these only what is found afresh. -/
structure Memory (s : Schema) (base known : Known) : Prop where
  kept : ∀ number value, base.lookup number = some value → known.lookup number = some value
  found : ∀ number value, known.lookup number = some value → base.lookup number = none →
    ∃ c, s.constants[number]? = some c ∧ Evaluates (s.Afresh base) c.expr 0 value

theorem Memory.refl : s.Memory base base :=
  ⟨fun _ _ => id, fun _ _ hk hnone => by cases hk.symm.trans hnone⟩

/-- One more value that was found may be remembered. -/
theorem Memory.cons {known : Known} {number : Nat} {c : Constant} {value : Int}
    (h : s.Memory base known) (hk : known.lookup number = none)
    (hc : s.constants[number]? = some c) (he : Evaluates (s.Afresh base) c.expr 0 value) :
    s.Memory base ((number, value) :: known) := by
  refine ⟨fun number' value' hbase => ?_, fun number' value' hlookup hnone => ?_⟩
  · rw [List.lookup_cons]
    split
    · next hsame =>
      obtain rfl : number' = number := by simpa using hsame
      cases (h.kept _ _ hbase).symm.trans hk
    · exact h.kept _ _ hbase
  · rw [List.lookup_cons] at hlookup
    split at hlookup
    · next hsame =>
      obtain rfl : number' = number := by simpa using hsame
      cases hlookup
      exact ⟨c, hc, he⟩
    · exact h.found _ _ hlookup hnone

theorem constantStep_afresh {ask : Query → Eval Int}
    (hask : ∀ q, Keeps (s.Memory base) (ask q) (s.Afresh base q)) (name : String) (depth : Nat) :
    Keeps (s.Memory base) (s.constantStep ask name depth)
      (s.Afresh base (.constant name depth)) := by
  unfold constantStep
  split
  · exact Keeps.throw
  next number hn =>
  have hknown : Keeps (s.Memory base) (Eval.known? number) fun v =>
      (∀ value, v = some value → s.Afresh base (.constant name depth) value) ∧
        (v = none → base.lookup number = none) := by
    refine Keeps.get.bind fun known hk => Keeps.pure ?_
    cases hbase : base.lookup number with
    | some held =>
      rw [hk.kept _ _ hbase]
      refine ⟨?_, nofun⟩
      rintro value ⟨⟩
      exact .of_anew (.held hn hbase)
    | none =>
      refine ⟨fun value h => ?_, fun _ => rfl⟩
      obtain ⟨c, hc, he⟩ := hk.found _ _ h hbase
      exact .of_anew (.expr hn hbase hc he)
  refine hknown.bind fun v hv => ?_
  split
  · exact Keeps.pure (hv.1 _ rfl)
  · exact Keeps.throw
  · next c hc =>
    refine (evaluateWith_gives hask c.expr depth).bind fun value he => ?_
    refine Keeps.bind (Q := fun _ => True) (Keeps.modify fun known hk => ?_) fun _ _ =>
      Keeps.pure (.of_anew (.expr hn (hv.2 rfl) hc he.afresh))
    split
    · exact hk
    · next hnone => exact hk.cons (Option.not_isSome_iff_eq_none.mp hnone) hc he.afresh

/-- Answers are found afresh, and so is what is remembered on the way. -/
theorem answer_afresh : ∀ (nesting : Nat) (q : Query),
    Keeps (s.Memory base) (s.answer nesting q) (s.Afresh base q)
  | 0, _ => Keeps.throw
  | nesting + 1, .constant name depth => constantStep_afresh (answer_afresh nesting) name depth
  | nesting + 1, .size type depth =>
    (sizeStep_gives (answer_afresh nesting) [] type depth).weaken fun _ h => by
      cases h with
      | size _ ht hn =>
        obtain ⟨room, hn⟩ := hn.exists_room
        exact ⟨room + 1, .size ht hn⟩

end Schema

end WireTables
