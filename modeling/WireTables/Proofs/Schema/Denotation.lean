import WireTables.Proofs.Schema.ExactSize
import WireTables.Proofs.Schema.References

/-!
# Values without a memory

The value of a constant is that of its expression, and the size of a type comes from its parts, both
found anew each time they are asked for. `Denotes` is the least relation of this kind; a question
denotes one answer at most (`Denotes.unique`). Whatever is answered is denoted as long as all that
is remembered is (`ask_denotes`), and then what is found and remembered on the way is denoted as
well. So the values that are remembered when the references of a schema have been checked are
denoted (`meant_of_checkReferences`).
-/

namespace WireTables

namespace Schema

open Expression (Item Machine run)

/-- The answer to a question where `sub` gives the answers to others and nothing is remembered. -/
inductive Denoted (s : Schema) (sub : Query → Int → Prop) : Query → Int → Prop
  | constant {name depth number c n} (hr : s.resolveConstant? name = some number)
    (hc : s.constants[number]? = some c) (he : Evaluates sub c.expr 0 n) :
    Denoted s sub (.constant name depth) n
  | size {type depth t n} (ht : s.lookup? type = some t) (h : KindExact s sub type n t.kind) :
    Denoted s sub (.size type depth) n

/-- The answers that are found from such answers to other questions, after finitely many of them:
the least relation that holds of what is found from it. -/
def Denotes (s : Schema) (q : Query) (n : Int) : Prop :=
  ∀ sub : Query → Int → Prop, (∀ q n, Denoted s sub q n → sub q n) → sub q n

section Mono

variable {sub sub' : Query → Int → Prop} (h : ∀ q n, sub q n → sub' q n)

include h

theorem FieldExact.mono {f : Field} {n : Int} (hf : FieldExact sub f n) : FieldExact sub' f n := by
  obtain ⟨e, c, he, hc, hn⟩ := hf
  exact ⟨e, c, h _ _ he, hc.mono h, hn⟩

theorem MemberExact.mono {m : UnionMember} {n : Int} (hm : MemberExact sub m n) :
    MemberExact sub' m n := by
  obtain ⟨c, e, hc, he, hn⟩ := hm
  exact ⟨c, e, hc.mono h, h _ _ he, hn⟩

theorem KindExact.mono {s : Schema} {type : String} {n : Int} {kind : TypeKind}
    (hk : KindExact s sub type n kind) : KindExact s sub' type n kind := by
  cases kind with
  | value c => exact hk
  | aliasOf a | enum e | bitfield b => exact h _ _ hk
  | record r =>
    obtain ⟨fields, sizes, hf, hs, hn⟩ := hk
    exact ⟨fields, sizes, hf, hs.imp fun _ _ hf => hf.mono h, hn⟩
  | union u =>
    obtain ⟨sizes, hs, hn⟩ := hk
    exact ⟨sizes, hs.imp fun _ _ hm => hm.mono h, hn⟩

theorem Denoted.mono {s : Schema} {q : Query} {n : Int} (hd : Denoted s sub q n) :
    Denoted s sub' q n := by
  cases hd with
  | constant hr hc he => exact .constant hr hc (he.mono h)
  | size ht hk => exact .size ht (hk.mono h)

end Mono

section Denotes

variable {s : Schema} {q q' : Query} {n n' : Int}

theorem Denotes.of_denoted (h : Denoted s s.Denotes q n) : s.Denotes q n :=
  fun sub hsub => hsub _ _ (h.mono fun _ _ hd => hd sub hsub)

theorem Denotes.denoted (h : s.Denotes q n) : Denoted s s.Denotes q n :=
  h (Denoted s s.Denotes) fun _ _ hd => hd.mono fun _ _ => Denotes.of_denoted

/-- What is true of an answer if it is true of the answers that it is found from. -/
theorem Denotes.induct {motive : Query → Int → Prop}
    (hstep : ∀ q n, Denoted s (fun q n => s.Denotes q n ∧ motive q n) q n → motive q n)
    (h : s.Denotes q n) : motive q n := by
  refine (h (fun q n => s.Denotes q n ∧ motive q n) fun q n hd => ⟨?_, hstep q n hd⟩).2
  exact .of_denoted (hd.mono fun _ _ => And.left)

/-- What a question is nested in does not matter. -/
theorem Denotes.same (hq : q.Same q') (h : s.Denotes q n) : s.Denotes q' n := by
  refine .of_denoted ?_
  cases h.denoted with
  | constant hr hc he =>
    cases q' with
    | constant =>
      cases hq
      exact .constant hr hc he
    | size => cases hq
  | size ht hk =>
    cases q' with
    | constant => cases hq
    | size =>
      cases hq
      exact .size ht hk

theorem Denotes.constant_same {name : String} {depth depth' : Nat}
    (h : s.Denotes (.constant name depth) n) : s.Denotes (.constant name depth') n :=
  h.same (show Query.Same (.constant name depth) (.constant name depth') from rfl)

theorem Denotes.size_same {type : String} {depth depth' : Nat}
    (h : s.Denotes (.size type depth) n) : s.Denotes (.size type depth') n :=
  h.same (show Query.Same (.size type depth) (.size type depth') from rfl)

/-- A question denotes one answer. -/
theorem Denotes.unique (hq : q.Same q') (h : s.Denotes q n) (h' : s.Denotes q' n') : n = n' := by
  refine h.induct (motive := fun q n => ∀ q' n', q.Same q' → s.Denotes q' n' → n = n')
    (fun q n hd q' n' hq h' => ?_) q' n' hq h'
  have inner : ∀ q q' n n', Query.Same q q' → (s.Denotes q n ∧ ∀ q' n', q.Same q' →
      s.Denotes q' n' → n = n') → s.Denotes q' n' → n = n' := fun _ _ _ _ hq h h' => h.2 _ _ hq h'
  cases hd with
  | constant hr hc he =>
    cases h'.denoted with
    | constant hr' hc' he' =>
      cases hq
      cases hr.symm.trans hr'
      cases hc.symm.trans hc'
      exact he.agree inner he'
    | size => cases hq
  | size ht hk =>
    cases h'.denoted with
    | constant => cases hq
    | size ht' hk' =>
      cases hq
      cases ht.symm.trans ht'
      refine hk.agree inner (.inl rfl) (fun fields fields' sizes sizes' hf hf' hs hs' => ?_) hk'
      cases hf.symm.trans hf'
      rw [forall₂_unique (fun f _ _ _ hf hf' => hf.agree inner rfl rfl hf') hs hs']

end Denotes

/-! ## What is answered is denoted -/

section Answers

variable {s : Schema} {ask : Query → Eval Int} {P : Known → Prop} {sub : Query → Int → Prop}
  (hask : ∀ q, Keeps P (ask q) (sub q))

include hask

theorem item_gives (depth : Nat) (t : Token) :
    Keeps P (item ask depth t) (TokenItem sub depth t) := by
  cases t with
  | number value text => exact Keeps.pure .number
  | name name => exact (hask _).bind fun n hn => Keeps.pure (.name hn)
  | sizeOf type => exact (hask _).bind fun n hn => Keeps.pure (.sizeOf hn)
  | operator op => exact Keeps.pure .operator
  | openParen => exact Keeps.pure .openParen
  | closeParen => exact Keeps.pure .closeParen

omit hask in
theorem faulty_gives {α : Type} {text : String} {r : Except ExpressionFault α} :
    Keeps P (faulty text r) fun a => r = .ok a := by
  refine Keeps.ofExcept fun a h => ?_
  cases r with
  | error e => cases h
  | ok b =>
    cases h
    rfl

theorem evaluateWith_gives (text : String) (depth : Nat) :
    Keeps P (evaluateWith ask text depth) (Evaluates sub text depth) := by
  unfold evaluateWith
  split
  · exact Keeps.throw
  next hd =>
  refine faulty_gives.bind fun ts hts => ?_
  split
  · exact Keeps.throw
  next hne =>
  -- the machine has run over the items of the tokens worked through
  refine (Keeps.foldlM_prefix (R := fun before m => ∃ items,
    List.Forall₂ (TokenItem sub depth) before items ∧ run items {} = .ok m)
    ⟨[], .nil, rfl⟩ fun before t m => ?_).bind fun m hm => ?_
  · rintro ⟨items, hitems, hrun⟩
    refine (item_gives hask depth t).bind fun i hi => faulty_gives.weaken fun m' hm' => ?_
    refine ⟨items ++ [i], List.rel_append hitems (.cons hi .nil), ?_⟩
    rw [Expression.run_append, hrun]
    show run [i] m = .ok m'
    rw [Expression.run_cons, hm']
    rfl
  · obtain ⟨items, hitems, hrun⟩ := hm
    refine faulty_gives.weaken fun n hn => ⟨Nat.not_lt.mp hd, ts, hts, by simpa using hne, items,
      hitems, ?_⟩
    unfold Expression.calculate
    rw [hrun]
    exact hn

theorem fieldCount_gives (owner : String) (f : Field) :
    Keeps P (fieldCount ask owner f) (CountOf sub f) := by
  have counted : ∀ {text : String}, Keeps P (evaluateWith ask text 0) fun n =>
      ∃ t, some text = some t ∧ Evaluates sub t 0 n := fun {text} =>
    (evaluateWith_gives hask text 0).weaken fun n hn => ⟨text, rfl, hn⟩
  unfold fieldCount CountOf countText?
  cases f.marshal with
  | fixedArray =>
    cases f.arraySize with
    | none => exact Keeps.throw
    | some text => exact counted
  | countedArray | restArray =>
    dsimp only
    cases f.domain.maximum? with
    | none => exact Keeps.throw
    | some text => exact counted
  | plain | constant | count | bodySize | sizedBody | selector | unionBody | selectedArray =>
    exact Keeps.pure rfl

omit hask in
theorem product_gives (a b : Int) (failure : Error) :
    Keeps P (product a b failure) fun n => checkedWord (a * b) = some n := by
  unfold product
  split
  · next h => exact Keeps.pure h
  · exact Keeps.throw

theorem fieldSizeWith_gives (owner : String) (depth : Nat) (f : Field) :
    Keeps P (fieldSizeWith ask owner depth f) (FieldSizeOf sub depth f) :=
  (hask _).bind fun e he => (fieldCount_gives hask owner f).bind fun c hc =>
    (product_gives e c _).weaken fun _ hn => ⟨e, c, he, hc, hn⟩

theorem memberSizeWith_gives (owner : String) (depth : Nat) (m : UnionMember) :
    Keeps P (memberSizeWith ask owner depth m) (MemberSizeOf sub depth m) := by
  have element : ∀ {c : Int}, MemberCountOf sub m c →
      Keeps P (ask (.size m.typeName (depth + 1)) >>= fun e =>
        product e c (.inconsistent owner (.fieldSizeOverflow m.name))) (MemberSizeOf sub depth m) :=
    fun {c} hc => (hask _).bind fun e he =>
      (product_gives e c _).weaken fun _ hn => ⟨c, e, hc, he, hn⟩
  unfold memberSizeWith
  cases htext : m.arraySize with
  | some text =>
    exact (evaluateWith_gives hask text 0).bind fun c hc =>
      element (by unfold MemberCountOf; rw [htext]; exact hc)
  | none => exact element (by unfold MemberCountOf; rw [htext])

theorem sizeStep_gives (known : Known) (type : String) (depth : Nat) :
    Keeps P (s.sizeStep ask type depth) (Answered s known sub (.size type depth)) := by
  unfold sizeStep
  split
  · exact Keeps.throw
  next hd =>
  refine (Keeps.ofExcept (Q := fun t => s.lookup? type = some t)
    fun t ht => require_eq_ok.mp ht).bind fun t ht => ?_
  suffices Keeps P _ fun n => KindSize s sub type depth n t.kind from
    this.weaken fun n hn => .size (Nat.not_lt.mp hd) ht hn
  cases t.kind with
  | value c => exact Keeps.pure rfl
  | aliasOf a | enum e | bitfield b => exact hask _
  | record r =>
    refine (Keeps.ofExcept (Q := fun fields => s.allFields type = .ok fields)
      fun _ h => h).bind fun fields hfields => ?_
    refine (Keeps.foldlM_prefix (R := fun before total => ∃ sizes,
      List.Forall₂ (FieldSizeOf sub depth) before sizes ∧ total? 0 sizes = some total)
      ⟨[], .nil, rfl⟩ fun before f total => ?_).weaken fun n ⟨sizes, hs, hn⟩ =>
        ⟨fields, sizes, hfields, hs, hn⟩
    rintro ⟨sizes, hs, htotal⟩
    refine (fieldSizeWith_gives hask type depth f).bind fun size hsize => ?_
    split
    · next total' h =>
      have hadd : total? 0 (sizes ++ [size]) = some total' := by
        rw [total?, List.foldlM_append]
        exact Option.bind_eq_some_iff.mpr ⟨total, htotal, by rw [List.foldlM_cons, h]; rfl⟩
      exact Keeps.pure ⟨sizes ++ [size], List.rel_append hs (.cons hsize .nil), hadd⟩
    · exact Keeps.throw
  | union u =>
    refine Keeps.foldlM_prefix (R := fun before largest => ∃ sizes,
      List.Forall₂ (MemberSizeOf sub depth) before sizes ∧ largest = sizes.foldl max 0)
      ⟨[], .nil, rfl⟩ fun before m largest => ?_
    rintro ⟨sizes, hs, rfl⟩
    refine (memberSizeWith_gives hask type depth m).bind fun size hsize => Keeps.pure ?_
    refine ⟨sizes ++ [size], List.rel_append hs (.cons hsize .nil), ?_⟩
    rw [List.foldl_append]
    rfl

end Answers

section Meant

variable {s : Schema}

/-- What is remembered of constants are the values of their expressions. -/
def Meant (s : Schema) (known : Known) : Prop :=
  ∀ number value, known.lookup number = some value →
    ∃ c, s.constants[number]? = some c ∧ Evaluates s.Denotes c.expr 0 value

theorem meant_nil : s.Meant [] := nofun

/-- One more value of an expression may be remembered. -/
theorem Meant.cons {known : Known} {number : Nat} {c : Constant} {value : Int}
    (hk : s.Meant known) (hc : s.constants[number]? = some c)
    (he : Evaluates s.Denotes c.expr 0 value) : s.Meant ((number, value) :: known) := by
  intro number' value' hlookup
  rw [List.lookup_cons] at hlookup
  split at hlookup
  · next hsame =>
    obtain rfl : number' = number := by simpa using hsame
    cases hlookup
    exact ⟨c, hc, he⟩
  · exact hk number' value' hlookup

/-- What an expression is evaluated for does not matter. -/
theorem Evaluates.outermost {text : String} {depth : Nat} {n : Int}
    (h : Evaluates s.Denotes text depth n) : Evaluates s.Denotes text 0 n := by
  obtain ⟨-, ts, ht, hne, items, hi, hc⟩ := h
  refine ⟨Nat.zero_le _, ts, ht, hne, items, hi.imp fun t i hti => ?_, hc⟩
  cases hti with
  | number => exact .number
  | name hn => exact .name hn.constant_same
  | sizeOf hn => exact .sizeOf hn
  | operator => exact .operator
  | openParen => exact .openParen
  | closeParen => exact .closeParen

theorem constantStep_denotes {ask : Query → Eval Int}
    (hask : ∀ q, Keeps s.Meant (ask q) (s.Denotes q)) (name : String) (depth : Nat) :
    Keeps s.Meant (s.constantStep ask name depth) (s.Denotes (.constant name depth)) := by
  unfold constantStep
  split
  · exact Keeps.throw
  next number hn =>
  have hknown : Keeps s.Meant (Eval.known? number) fun v => ∀ value, v = some value →
      ∃ c, s.constants[number]? = some c ∧ Evaluates s.Denotes c.expr 0 value :=
    Keeps.get.bind fun known hk => Keeps.pure fun value h => hk number value h
  refine hknown.bind fun v hv => ?_
  split
  · obtain ⟨c, hc, he⟩ := hv _ rfl
    exact Keeps.pure (.of_denoted (.constant hn hc he))
  · exact Keeps.throw
  · next c hc =>
    refine (evaluateWith_gives hask c.expr depth).bind fun value he => ?_
    refine Keeps.bind (Q := fun _ => True) (Keeps.modify fun known hk => ?_) fun _ _ =>
      Keeps.pure (.of_denoted (.constant hn hc he.outermost))
    split
    · exact hk
    · exact hk.cons hc he.outermost

/-- An answer to a question about a size is found from answers to others. -/
theorem Denotes.of_answered {known : Known} {type : String} {depth : Nat} {n : Int}
    (h : Answered s known s.Denotes (.size type depth) n) : s.Denotes (.size type depth) n := by
  cases h with
  | size _ ht hn => exact .of_denoted (.size ht (hn.exact (fun _ _ => id) fun _ _ _ h => h.size_same))

theorem answer_denotes : ∀ (nesting : Nat) (q : Query),
    Keeps s.Meant (s.answer nesting q) (s.Denotes q)
  | 0, _ => Keeps.throw
  | nesting + 1, .constant name depth => constantStep_denotes (answer_denotes nesting) name depth
  | nesting + 1, .size type depth =>
    (sizeStep_gives (answer_denotes nesting) [] type depth).weaken fun _ => Denotes.of_answered

/-- Where all that is remembered is meant, answers are denoted, and what is remembered on the way
is meant. -/
theorem ask_denotes (q : Query) : Keeps s.Meant (s.ask q) (s.Denotes q) :=
  answer_denotes s.nesting q

/-- The values that are found when references are checked are meant. -/
theorem meant_of_checkReferences {known : Known} (h : Yields s.checkReferences [] () known) :
    s.Meant known :=
  ((checkReferences_keeps (fun text => (evaluateWith_gives ask_denotes text 0).trivial)
    fun name => (ask_denotes (.constant name 0)).trivial).of_yields meant_nil h).1

end Meant

end Schema

end WireTables
