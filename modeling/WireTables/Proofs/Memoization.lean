import WireTables.Proofs.Codec
import WireTables.Proofs.Schema.Recall

/-!
# Remembering values changes no answer

The values of expressions and constants and the sizes of types may be asked for one after the other,
and what is found on the way is remembered, also where a calculation fails. Nothing of that can be
seen in the answers (`memory_transparent`): what is remembered of a constant is the value of its
expression without a memory and however deep its constants are nested; a question that is answered
has one answer, whatever was asked before; and what is answered at first is answered later on as
well. A question that fails at first may be answered later, because what is remembered is not
nested.
-/

namespace WireTables

/-- What is asked of a registry. -/
inductive Call where
  | evaluate (text : String)
  | constantValue (name : String)
  | wireSize (type : String)

/-- The calculation that answers a call. -/
def Call.run (s : Schema) : Call → Eval Int
  | .evaluate text => s.evaluate text
  | .constantValue name => s.constantValue name
  | .wireSize type => do return (← s.wireSize type)

/-- The value of a text where nothing is remembered and nothing counts how deep constants and types
are nested; at most so many questions are inside each other. -/
def Schema.valueAfresh (s : Schema) (room : Nat) (text : String) : Except Error Int :=
  (Id.run ((evaluateWith (s.afresh [] room) text 0).run [])).1

namespace Registry

/-- The answer to a call, and what is remembered then. -/
def ask (r : Registry) (call : Call) : Except Error Int × Registry :=
  r.calculate call.run

/-- The registry after some calls, whether they were answered or failed. -/
def afterCalls (r : Registry) (calls : List Call) : Registry :=
  calls.foldl (fun r call => (r.ask call).2) r

end Registry

namespace Call

variable {s : Schema} {base : Known}

/-- What answers a call: the value of a text or the answer to a question, afresh. -/
def Answers (s : Schema) (base : Known) : Call → Int → Prop
  | .evaluate text => Schema.Evaluates (s.Afresh base) text 0
  | .constantValue name => s.Afresh base (.constant name 0)
  | .wireSize type => s.Afresh base (.size type 0)

theorem run_alongside (call : Call) :
    Keeps (s.Alongside base base) (call.run s) (call.Answers s base) := by
  cases call with
  | evaluate text => exact s.evaluate_alongside base text
  | constantValue name => exact s.constantValue_alongside base name
  | wireSize type => exact (s.wireSize_alongside base type).bind fun n hn => Keeps.pure hn

theorem run_mirrors (call : Call) : s.Mirrors base (call.run s) := by
  cases call with
  | evaluate text => exact s.evaluate_mirrors base text
  | constantValue name => exact s.constantValue_mirrors base name
  | wireSize type => exact (s.wireSize_mirrors base type).bind fun n => .pure

theorem Answers.unique {call : Call} {m n : Int} (h : call.Answers s base m)
    (h' : call.Answers s base n) : m = n := by
  cases call with
  | evaluate text => exact Schema.Evaluates.unique_afresh h h'
  | constantValue name => exact Schema.Afresh.unique h h'
  | wireSize type => exact Schema.Afresh.unique h h'

end Call

namespace Registry

variable {r : Registry}

/-- Calls leave the schema as it is, and what is remembered came about by calculations. -/
theorem alongside_afterCalls (calls : List Call) :
    (r.afterCalls calls).toSchema = r.toSchema ∧
      r.Alongside r.known r.known (r.afterCalls calls).known := by
  suffices ∀ r' : Registry, r'.toSchema = r.toSchema → r.Alongside r.known r.known r'.known →
      (r'.afterCalls calls).toSchema = r.toSchema ∧
        r.Alongside r.known r.known (r'.afterCalls calls).known from this r rfl .refl
  induction calls with
  | nil => exact fun r' hs h => ⟨hs, h⟩
  | cons call calls ih =>
    intro r' hs h
    refine ih (r'.ask call).2 hs ?_
    have hkeeps : r.Alongside r.known r.known ((call.run r.toSchema).run r'.known).2 :=
      (call.run_alongside r'.known h).1
    rw [← hs] at hkeeps ⊢
    exact hkeeps

/-- What is answered after some calls is the answer. -/
theorem answers_of_ask {calls : List Call} {call : Call} {n : Int}
    (h : ((r.afterCalls calls).ask call).1 = .ok n) : call.Answers r.toSchema r.known n := by
  obtain ⟨hs, halong⟩ := r.alongside_afterCalls calls
  obtain ⟨known, hy⟩ := calculate_eq_ok.mp h
  rw [hs] at hy
  exact (call.run_alongside.of_yields halong hy).2

/-- What is answered at first is answered after other calls as well. -/
theorem ask_after {call : Call} {n : Int} (h : (r.ask call).1 = .ok n) (calls : List Call) :
    ((r.afterCalls calls).ask call).1 = .ok n := by
  obtain ⟨hs, halong⟩ := r.alongside_afterCalls calls
  obtain ⟨known, hy⟩ := calculate_eq_ok.mp h
  obtain ⟨wide, hy', -⟩ := call.run_mirrors.later hy halong
  rw [← hs] at hy'
  exact calculate_eq_ok.mpr ⟨wide, hy'⟩

/-- The value of a text afresh, in all rooms but the smallest ones. -/
theorem valueAfresh_of_evaluates {s : Schema} {text : String} {n : Int}
    (h : Schema.Evaluates (s.Afresh []) text 0 n) :
    ∃ room, ∀ larger ≥ room, s.valueAfresh larger text = .ok n := by
  obtain ⟨room, h⟩ := h.exists_room
  refine ⟨room, fun larger hle => ?_⟩
  have hy : Yields (Schema.evaluateWith (s.afresh [] larger) text 0) [] n [] :=
    (Schema.evaluates_iff fun _ _ _ => Schema.yields_afresh).mpr
      ⟨h.mono fun _ _ => Schema.AfreshIn.mono hle, rfl⟩
  exact congrArg Prod.fst hy

/-- In a registry in which nothing is remembered at first, whatever calls come and whether they are
answered or fail: what is remembered of a constant is the value of its expression without a memory
and without limit; two answers to one call are the same; and what is answered at first is answered
after the calls, too. -/
theorem memory_transparent (hnone : r.known = []) (calls : List Call) :
    (∀ number value, (r.afterCalls calls).known.lookup number = some value →
      ∃ c, r.constants[number]? = some c ∧
        ∃ room, ∀ larger ≥ room, r.valueAfresh larger c.expr = .ok value) ∧
    (∀ others call m n, ((r.afterCalls calls).ask call).1 = .ok m →
      ((r.afterCalls others).ask call).1 = .ok n → m = n) ∧
    ∀ call n, (r.ask call).1 = .ok n → ((r.afterCalls calls).ask call).1 = .ok n := by
  refine ⟨fun number value hlookup => ?_, fun others call m n hm hn => ?_,
    fun call n h => ask_after h calls⟩
  · obtain ⟨-, halong⟩ := r.alongside_afterCalls calls
    obtain ⟨c, hc, he⟩ := halong.memory.found number value hlookup (by rw [hnone]; rfl)
    rw [hnone] at he
    exact ⟨c, hc, valueAfresh_of_evaluates he⟩
  · exact (answers_of_ask hm).unique (answers_of_ask hn)

end Registry

section Sums

/-- Constants that are found from others, and one that names a constant which is not there. -/
def sums : Registry :=
  { Schema.initial with
    constants := #[{ specName := "TPM_TWO", name := "TPM_TWO", expr := "1 + 1" },
      { specName := "TPM_SIX", name := "TPM_SIX", expr := "TPM_TWO * 3" },
      { specName := "TPM_BAD", name := "TPM_BAD", expr := "TPM_SIX + TPM_MISSING" }] }

/-- A call that fails, and what it leaves behind. -/
theorem sums_facts :
    sums.known = [] ∧ (sums.ask (.constantValue "TPM_BAD")).1.toOption = none ∧
      (sums.afterCalls [.constantValue "TPM_BAD"]).known = [(1, 6), (0, 2)] ∧
      (sums.ask (.evaluate "TPM_SIX + TPM_TWO")).1.toOption = some 8 := by
  decide +kernel

/-- The values that the failed call leaves behind are those of their expressions, and later calls
are answered as they would have been before. -/
theorem transparent_sums :
    sums.known = [] ∧ (∀ n, (sums.ask (.constantValue "TPM_BAD")).1 ≠ .ok n) ∧
      (∃ c, sums.constants[1]? = some c ∧
        ∃ room, ∀ larger ≥ room, sums.valueAfresh larger c.expr = .ok 6) ∧
      ((sums.afterCalls [.constantValue "TPM_BAD"]).ask (.evaluate "TPM_SIX + TPM_TWO")).1 =
        .ok 8 := by
  obtain ⟨hnone, hfails, hknown, hanswer⟩ := sums_facts
  obtain ⟨hmeant, -, hlater⟩ := Registry.memory_transparent hnone [.constantValue "TPM_BAD"]
  refine ⟨hnone, fun n h => ?_, hmeant 1 6 ?_, hlater _ _ (ok_of_toOption hanswer)⟩
  · rw [h] at hfails
    cases hfails
  · rw [hknown]
    rfl

end Sums

end WireTables
