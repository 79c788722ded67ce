import WireTables.Proofs.Calculation
import WireTables.Schema.Evaluate

/-!
# What evaluation leaves behind

Every answer is a signed 64-bit word, and all that an evaluation changes is that it remembers
values of constants. `answer_keeps` says both at once, for any property of the remembered values
that one more value keeps; all other statements are cases of it. Once every constant has a value
(`Complete`), an evaluation changes nothing any more (`remembers_complete`), so its answer depends
on the schema and the remembered values alone.
-/

namespace WireTables

/-- All remembered values are signed 64-bit words. -/
def Known.Words (known : Known) : Prop :=
  ∀ number value, known.lookup number = some value → fitsWord value = true

theorem Known.words_nil : Known.Words [] := nofun

namespace Schema

/-- Every constant that a name stands for has a remembered value. -/
def Complete (s : Schema) (known : Known) : Prop :=
  ∀ name number, s.resolveConstant? name = some number → (known.lookup number).isSome = true

end Schema

theorem checkedWord_eq_some {n m : Int} (h : checkedWord n = some m) :
    m = n ∧ fitsWord m = true := by
  unfold checkedWord at h
  split at h
  · next hn =>
    cases h
    exact ⟨rfl, hn⟩
  · cases h

theorem fitsWord_bmod (n : Int) : fitsWord (Int.bmod n 0x10000000000000000) = true := by
  simp only [fitsWord, Int.bmod_def, Bool.and_eq_true, decide_eq_true_eq]
  split <;> omega

namespace Expression

theorem fitsWord_of_value? {op : Operator} {a b n : Int} (h : op.value? a b = some n) :
    fitsWord n = true := by
  cases op <;> simp only [Operator.value?] at h
  case add | sub | mul => exact (checkedWord_eq_some h).2
  all_goals
    split at h
    · first
        | exact (checkedWord_eq_some h).2
        | cases h
    · first
        | exact (checkedWord_eq_some h).2
        | cases h

/-- The numbers of a machine are signed 64-bit words. -/
def AllWords (numbers : List Int) : Prop :=
  ∀ n ∈ numbers, fitsWord n = true

theorem allWords_applyTop {op : Operator} {numbers left : List Int}
    (h : applyTop op numbers = .ok left) (hw : AllWords numbers) : AllWords left := by
  unfold applyTop at h
  split at h
  · next rhs lhs rest =>
    split at h
    · next value hv =>
      cases h
      intro n hn
      rcases List.mem_cons.mp hn with rfl | hn
      · exact fitsWord_of_value? hv
      · exact hw n (List.mem_cons_of_mem _ (List.mem_cons_of_mem _ hn))
    · cases h
  · cases h

theorem allWords_close {m : Machine} : ∀ {pending : List Pending} {numbers : List Int},
    close pending numbers = .ok m → AllWords numbers → AllWords m.numbers
  | [], _, h, _ => by cases h
  | .openParen :: _, _, h, hw => by cases h; exact hw
  | .operator op :: pending, numbers, h, hw => by
    obtain ⟨left, hl, h⟩ := bind_eq_ok.mp h
    exact allWords_close h (allWords_applyTop hl hw)

theorem allWords_push {op : Operator} {m : Machine} :
    ∀ {pending : List Pending} {numbers : List Int},
      push op pending numbers = .ok m → AllWords numbers → AllWords m.numbers
  | [], _, h, hw => by cases h; exact hw
  | .openParen :: _, _, h, hw => by cases h; exact hw
  | .operator top :: pending, numbers, h, hw => by
    unfold push at h
    split at h
    · cases h
      exact hw
    · obtain ⟨left, hl, h⟩ := bind_eq_ok.mp h
      exact allWords_push h (allWords_applyTop hl hw)

theorem fitsWord_of_finish {n : Int} : ∀ {pending : List Pending} {numbers : List Int},
    finish pending numbers = .ok n → AllWords numbers → fitsWord n = true
  | [], [value], h, hw => by cases h; exact hw _ List.mem_cons_self
  | [], [], h, _ => by cases h
  | [], _ :: _ :: _, h, _ => by cases h
  | .openParen :: _, _, h, _ => by cases h
  | .operator op :: pending, numbers, h, hw => by
    obtain ⟨left, hl, h⟩ := bind_eq_ok.mp h
    exact fitsWord_of_finish h (allWords_applyTop hl hw)

theorem allWords_step {m m' : Machine} {item : Item} (h : m.step item = .ok m')
    (hw : AllWords m.numbers) (hi : ∀ n, item = .number n → fitsWord n = true) :
    AllWords m'.numbers := by
  cases item with
  | number value =>
    cases h
    intro n hn
    rcases List.mem_cons.mp hn with rfl | hn
    · exact hi n rfl
    · exact hw n hn
  | operator op => exact allWords_push h hw
  | openParen => cases h; exact hw
  | closeParen => exact allWords_close h hw

theorem fitsWord_of_toToken {l : Lexeme} {value : Int} {text : String}
    (h : l.toToken = .ok (.number value text)) : fitsWord value = true := by
  have bound : ∀ n : Nat, n ≤ maxWord → fitsWord n = true := by
    intro n hn
    simp only [maxWord] at hn
    simp only [fitsWord, Bool.and_eq_true, decide_eq_true_eq]
    omega
  cases l with
  | hex text | decimal text =>
    simp only [Lexeme.toToken] at h
    split at h
    · next hn =>
      cases h
      exact bound _ hn
    · cases h
  | _ => cases h

/-- The numbers among the tokens of a text are signed 64-bit words. -/
theorem fitsWord_of_tokens {text : String} {ts : List Token} (h : tokens text = .ok ts)
    {value : Int} {spelling : String} (hm : Token.number value spelling ∈ ts) :
    fitsWord value = true := by
  unfold tokens at h
  split at h
  · cases h
  · next ls _ =>
    obtain ⟨l, _, hl⟩ := exists_of_mem_mapM h hm
    exact fitsWord_of_toToken hl

end Expression

namespace Schema

section Answers

variable {s : Schema} {ask : Query → Eval Int} {P : Known → Prop}

/-- The value of an expression is a word when all answers are. -/
theorem evaluateWith_keeps (hask : ∀ q, Keeps P (ask q) (fitsWord · = true)) (text : String)
    (depth : Nat) : Keeps P (evaluateWith ask text depth) (fitsWord · = true) := by
  unfold evaluateWith
  split
  · exact Keeps.throw
  refine (Keeps.ofExcept (Q := fun ts : List Token => Expression.tokens text = .ok ts)
    fun ts h => ?_).bind fun ts hts => ?_
  · cases hr : Expression.tokens text with
    | error e => rw [hr] at h; cases h
    | ok ts' => rw [hr] at h; cases h; rfl
  split
  · exact Keeps.throw
  refine (Keeps.foldlM (R := fun m : Expression.Machine => Expression.AllWords m.numbers)
    (fun _ h => by cases h) fun m hm token ht => ?_).bind fun m hm => ?_
  · refine (item_keeps token ?_).bind fun item hi => Keeps.ofExcept fun m' h => ?_
    · rintro value spelling rfl
      exact Expression.fitsWord_of_tokens hts ht
    · cases hr : m.step item with
      | error e => rw [hr] at h; cases h
      | ok m'' => rw [hr] at h; cases h; exact Expression.allWords_step hr hm hi
  · refine Keeps.ofExcept fun n h => ?_
    cases hr : m.result with
    | error e => rw [hr] at h; cases h
    | ok n' => rw [hr] at h; cases h; exact Expression.fitsWord_of_finish hr hm
where
  item_keeps (token : Token)
      (ht : ∀ value spelling, token = .number value spelling → fitsWord value = true) :
      Keeps P (item ask depth token) fun i => ∀ n, i = .number n → fitsWord n = true := by
    cases token with
    | number value spelling => exact Keeps.pure fun n h => by cases h; exact ht _ _ rfl
    | name name => exact (hask _).bind fun n hn => Keeps.pure fun m h => by cases h; exact hn
    | sizeOf type => exact (hask _).bind fun n hn => Keeps.pure fun m h => by cases h; exact hn
    | operator op => exact Keeps.pure fun _ h => nomatch h
    | openParen => exact Keeps.pure fun _ h => nomatch h
    | closeParen => exact Keeps.pure fun _ h => nomatch h

theorem product_keeps (a b : Int) (failure : Error) :
    Keeps P (product a b failure) (fitsWord · = true) := by
  unfold product
  split
  · next h => exact Keeps.pure (checkedWord_eq_some h).2
  · exact Keeps.throw

theorem fieldCount_keeps (hask : ∀ q, Keeps P (ask q) (fitsWord · = true)) (owner : String)
    (f : Field) : Keeps P (fieldCount ask owner f) (fitsWord · = true) := by
  unfold fieldCount
  split
  · split
    · exact evaluateWith_keeps hask _ _
    · exact Keeps.throw
  · split
    · exact evaluateWith_keeps hask _ _
    · exact Keeps.throw
  · split
    · exact evaluateWith_keeps hask _ _
    · exact Keeps.throw
  · exact Keeps.pure (by decide)

theorem fieldSizeWith_keeps (hask : ∀ q, Keeps P (ask q) (fitsWord · = true)) (owner : String)
    (depth : Nat) (f : Field) : Keeps P (fieldSizeWith ask owner depth f) (fitsWord · = true) :=
  (hask _).bind fun _ _ => (fieldCount_keeps hask owner f).bind fun _ _ => product_keeps _ _ _

theorem memberSizeWith_keeps (hask : ∀ q, Keeps P (ask q) (fitsWord · = true)) (owner : String)
    (depth : Nat) (m : UnionMember) :
    Keeps P (memberSizeWith ask owner depth m) (fitsWord · = true) := by
  unfold memberSizeWith
  split
  · exact (evaluateWith_keeps hask _ _).bind fun _ _ => (hask _).bind fun _ _ =>
      product_keeps _ _ _
  · exact (hask _).bind fun _ _ => product_keeps _ _ _

theorem sizeStep_keeps (hask : ∀ q, Keeps P (ask q) (fitsWord · = true)) (name : String)
    (depth : Nat) : Keeps P (s.sizeStep ask name depth) (fitsWord · = true) := by
  unfold sizeStep
  split
  · exact Keeps.throw
  refine (Keeps.ofExcept (Q := fun _ => True) fun _ _ => trivial).bind fun t _ => ?_
  split
  · exact Keeps.pure (fitsWord_bmod _)
  · exact hask _
  · exact hask _
  · exact hask _
  · refine (Keeps.ofExcept (Q := fun _ => True) fun _ _ => trivial).bind fun fields _ => ?_
    refine Keeps.foldlM (by decide) fun total _ f _ => ?_
    refine (fieldSizeWith_keeps hask name depth f).bind fun size _ => ?_
    split
    · next h => exact Keeps.pure (checkedWord_eq_some h).2
    · exact Keeps.throw
  · refine Keeps.foldlM (by decide) fun largest hl m _ => ?_
    refine (memberSizeWith_keeps hask name depth m).bind fun size hs => Keeps.pure ?_
    rcases Int.le_total largest size with h | h
    · rwa [Int.max_eq_right h]
    · rwa [Int.max_eq_left h]

theorem constantStep_keeps (hask : ∀ q, Keeps P (ask q) (fitsWord · = true))
    (hwords : ∀ known, P known → Known.Words known)
    (hremember : ∀ known name number value, P known → s.resolveConstant? name = some number →
      known.lookup number = none → fitsWord value = true → P ((number, value) :: known))
    (name : String) (depth : Nat) :
    Keeps P (s.constantStep ask name depth) (fitsWord · = true) := by
  unfold constantStep
  split
  · exact Keeps.throw
  next number hn =>
  have hknown : Keeps P (Eval.known? number)
      fun v => ∀ value, v = some value → fitsWord value = true :=
    Keeps.get.bind fun known hk => Keeps.pure fun value h => hwords known hk number value h
  refine hknown.bind fun v hv => ?_
  split
  · exact Keeps.pure (hv _ rfl)
  · exact Keeps.throw
  · refine (evaluateWith_keeps hask _ _).bind fun value hvalue => ?_
    refine Keeps.bind (Q := fun _ => True) (Keeps.modify fun known hk => ?_) fun _ _ =>
      Keeps.pure hvalue
    split
    · exact hk
    · next h =>
      exact hremember known name number value hk hn (Option.not_isSome_iff_eq_none.mp h) hvalue

/-- Answers are words, and an answer keeps whatever one more remembered value keeps. -/
theorem answer_keeps (hwords : ∀ known, P known → Known.Words known)
    (hremember : ∀ known name number value, P known → s.resolveConstant? name = some number →
      known.lookup number = none → fitsWord value = true → P ((number, value) :: known)) :
    ∀ (nesting : Nat) (q : Query), Keeps P (s.answer nesting q) (fitsWord · = true)
  | 0, _ => Keeps.throw
  | nesting + 1, .constant name depth =>
    constantStep_keeps (answer_keeps hwords hremember nesting) hwords hremember name depth
  | nesting + 1, .size type depth =>
    sizeStep_keeps (answer_keeps hwords hremember nesting) type depth

end Answers

/-- There is room for questions inside a question. -/
theorem exists_ask (s : Schema) : ∃ nesting, ∀ q, s.ask q = s.answerStep (s.answer nesting) q :=
  ⟨_, fun _ => rfl⟩

section Queries

variable {s : Schema} {P : Known → Prop}

/-- Whatever asks for values only through `ask` keeps what `ask` keeps. -/
def Remembers (s : Schema) (P : Known → Prop) : Prop :=
  (∀ known, P known → Known.Words known) ∧
    ∀ known name number value, P known → s.resolveConstant? name = some number →
      known.lookup number = none → fitsWord value = true → P ((number, value) :: known)

theorem ask_keeps (h : s.Remembers P) (q : Query) : Keeps P (s.ask q) (fitsWord · = true) :=
  answer_keeps h.1 h.2 s.nesting q

theorem evaluate_keeps (h : s.Remembers P) (text : String) :
    Keeps P (s.evaluate text) (fitsWord · = true) :=
  evaluateWith_keeps (ask_keeps h) text 0

theorem constantValue_keeps (h : s.Remembers P) (name : String) :
    Keeps P (s.constantValue name) (fitsWord · = true) :=
  ask_keeps h _

theorem wireSize_keeps (h : s.Remembers P) (name : String) :
    Keeps P (s.wireSize name) fun _ => True := by
  unfold wireSize
  refine (ask_keeps h _).bind fun size _ => ?_
  split
  · exact Keeps.throw
  · exact Keeps.pure trivial

/-- One more remembered word leaves all remembered values words. -/
theorem remembers_words (s : Schema) : s.Remembers Known.Words := by
  refine ⟨fun _ h => h, fun known _ number value hk _ _ hv other n h => ?_⟩
  rw [List.lookup_cons] at h
  split at h
  · cases h
    exact hv
  · exact hk other n h

/-- Where every constant has a value nothing more is remembered. -/
theorem remembers_complete {known : Known} (hw : known.Words) (hc : s.Complete known) :
    s.Remembers (· = known) := by
  refine ⟨fun k hk => hk ▸ hw, fun k name number value hk hn hnone _ => ?_⟩
  subst hk
  have h := hc name number hn
  rw [hnone] at h
  cases h

/-- A constant that has a value keeps it. -/
theorem remembers_known (s : Schema) (number : Nat) :
    s.Remembers fun k => k.Words ∧ (k.lookup number).isSome = true := by
  refine ⟨fun _ h => h.1, fun known name other value hk hn hnone hv => ⟨?_, ?_⟩⟩
  · exact (remembers_words s).2 known name other value hk.1 hn hnone hv
  · rw [List.lookup_cons]
    split
    · rfl
    · exact hk.2

end Queries

end Schema

end WireTables
