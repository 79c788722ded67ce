import WireTables.Proofs.Schema.Evaluation
import WireTables.Proofs.Wire.Plan
import WireTables.Schema.Link

/-!
# All constants have values

Checking the references of a schema asks for the value of every constant, and what was found is
remembered. So a schema whose references hold is settled (`settled_of_checkReferences`), and it
stays so as long as its constants do (`Settled.of_constants`).
-/

namespace WireTables

/-- A loop over a list ends well when its rounds do, one after the other. -/
theorem yields_forM_cons {f : α → ExceptT ε (StateM σ) PUnit} {x : α} {xs : List α} {s s' : σ}
    {u : PUnit} : Yields ((x :: xs).forM f) s u s' ↔
      ∃ s₁, Yields (f x) s ⟨⟩ s₁ ∧ Yields (xs.forM f) s₁ u s' := by
  show Yields (f x >>= fun _ => xs.forM f) s u s' ↔ _
  rw [yields_bind]
  constructor
  · rintro ⟨⟨⟩, s₁, hx, hxs⟩
    exact ⟨s₁, hx, hxs⟩
  · rintro ⟨s₁, hx, hxs⟩
    exact ⟨⟨⟩, s₁, hx, hxs⟩

/-- What every round of a loop makes true of its element is true of all in the end, if no round
takes it away. -/
theorem forM_each {f : α → ExceptT ε (StateM σ) PUnit} {I : σ → Prop} {P : α → σ → Prop}
    {xs : List α} {s s' : σ} {u : PUnit} (h : Yields (xs.forM f) s u s') (hs : I s)
    (hf : ∀ x ∈ xs, ∀ s s', I s → Yields (f x) s ⟨⟩ s' → I s' ∧ P x s')
    (hkeeps : ∀ x y, ∀ s s', I s → P x s → Yields (f y) s ⟨⟩ s' → P x s') :
    ∀ x ∈ xs, P x s' := by
  have keep : ∀ {xs : List α} {s s' : σ} {u : PUnit} (x : α), Yields (xs.forM f) s u s' →
      (∀ y ∈ xs, ∀ s s', I s → Yields (f y) s ⟨⟩ s' → I s' ∧ P y s') → I s → P x s → P x s' := by
    intro xs
    induction xs with
    | nil =>
      intro s s' u x h _ _ hx
      obtain ⟨-, rfl⟩ := yields_pure.mp h
      exact hx
    | cons y xs ih =>
      intro s s' u x h hf hs hx
      obtain ⟨s₁, hy, h⟩ := yields_forM_cons.mp h
      exact ih x h (fun z hz => hf z (List.mem_cons_of_mem _ hz))
        (hf y List.mem_cons_self s s₁ hs hy).1 (hkeeps x y s s₁ hs hx hy)
  induction xs generalizing s with
  | nil => exact fun _ hx => (List.not_mem_nil hx).elim
  | cons y xs ih =>
    obtain ⟨s₁, hy, h⟩ := yields_forM_cons.mp h
    obtain ⟨hs₁, hP⟩ := hf y List.mem_cons_self s s₁ hs hy
    have hrest : ∀ z ∈ xs, ∀ s s', I s → Yields (f z) s ⟨⟩ s' → I s' ∧ P z s' :=
      fun z hz => hf z (List.mem_cons_of_mem _ hz)
    intro x hx
    rcases List.mem_cons.mp hx with hxy | hx
    · rw [hxy]
      exact keep y h hrest hs₁ hP
    · exact ih h hs₁ hrest x hx

namespace Schema

variable {s : Schema}

/-- The value of a constant is remembered when it has been asked for. -/
theorem known_of_constantValue {name : String} {number : Nat} {k k' : Known} {v : Int}
    (h : Yields (s.constantValue name) k v k') (hn : s.resolveConstant? name = some number) :
    (k'.lookup number).isSome = true := by
  obtain ⟨n, hask⟩ := s.exists_ask
  have hstep : Yields (s.constantStep (s.answer n) name 0) k v k' := by
    rw [constantValue, hask] at h
    exact h
  unfold constantStep at hstep
  simp only [hn] at hstep
  obtain ⟨found, k₁, hfound, hstep⟩ := yields_bind.mp hstep
  obtain ⟨k₂, _, hget, hfound⟩ := yields_bind.mp hfound
  obtain ⟨rfl, rfl⟩ := yields_get.mp hget
  obtain ⟨rfl, rfl⟩ := yields_pure.mp hfound
  cases hlookup : k₁.lookup number with
  | some value =>
    simp only [hlookup] at hstep
    obtain ⟨-, rfl⟩ := yields_pure.mp hstep
    rw [hlookup]
    rfl
  | none =>
    cases hc : s.constants[number]? with
    | none =>
      simp only [hlookup, hc] at hstep
      exact (not_yields_throw hstep).elim
    | some c =>
      simp only [hlookup, hc] at hstep
      obtain ⟨value, k₂, -, hstep⟩ := yields_bind.mp hstep
      obtain ⟨_, k₃, hremember, hstep⟩ := yields_bind.mp hstep
      obtain ⟨-, rfl⟩ := yields_pure.mp hstep
      rw [yields_modify.mp hremember]
      split
      · next hsome => exact hsome
      · rw [List.lookup_cons_self]
        rfl

/-- Checking what types refer to keeps what evaluating expressions keeps. -/
theorem checkEntry_keeps {P : Known → Prop} {Q : Int → Prop}
    (heval : ∀ text, Keeps P (s.evaluate text) Q) (t : TypeEntry) :
    Keeps P (s.checkEntry t) fun _ => True := by
  have type_ : ∀ name referrer, Keeps P (s.checkType name referrer) fun _ => True :=
    fun name referrer => (Keeps.ofExcept fun _ _ => trivial).bind fun _ _ => Keeps.pure trivial
  have expression : ∀ text, Keeps P (s.checkExpression text) fun _ => True := by
    intro text
    cases text with
    | none => exact Keeps.pure trivial
    | some text => exact (heval text).bind fun _ _ => Keeps.pure trivial
  have member : ∀ m, Keeps P (s.checkMember t.specName m) fun _ => True := by
    intro m
    refine (type_ _ _).bind fun _ _ => ?_
    split
    · exact Keeps.bind (Q := fun _ => True) Keeps.throw fun _ _ => expression _
    · exact expression _
  have field : ∀ r f, Keeps P (s.checkField t.specName r f) fun _ => True := by
    intro r f
    refine (type_ _ _).bind fun _ _ => (expression _).bind fun _ _ => ?_
    split
    · split
      · exact Keeps.throw
      · exact Keeps.pure trivial
    · exact Keeps.pure trivial
  unfold checkEntry
  split
  · exact Keeps.pure trivial
  · exact type_ _ _
  · exact type_ _ _
  · refine (type_ _ _).bind fun _ _ => Keeps.forM fun m _ => ?_
    split
    · exact type_ _ _
    · exact Keeps.pure trivial
  · next r _ =>
    have fields : Keeps P (r.fields.forM (s.checkField t.specName r)) fun _ => True :=
      Keeps.forM fun f _ => field r f
    dsimp only
    split
    · exact (type_ _ _).bind fun _ _ => fields
    · exact fields
  · exact Keeps.forM fun m _ => member m

/-- What a name stands for is a constant that its own name stands for as well. -/
theorem exists_constant {name : String} {number : Nat} (h : s.resolveConstant? name = some number) :
    ∃ c ∈ s.constants.toList, s.resolveConstant? c.specName = some number := by
  have named : ∀ {name}, s.constantNumber? name = some number →
      ∃ c ∈ s.constants.toList, s.resolveConstant? c.specName = some number := by
    intro name h
    obtain ⟨hlt, hname, -⟩ := Array.findIdx?_eq_some_iff_getElem.mp h
    have hname : s.constants[number].specName = name := by simpa using hname
    refine ⟨s.constants[number], Array.getElem_mem_toList hlt, ?_⟩
    unfold resolveConstant?
    rw [hname, h]
    rfl
  unfold resolveConstant? at h
  cases hfirst : s.constantNumber? name with
  | some n =>
    rw [hfirst] at h
    cases h
    exact named hfirst
  | none =>
    rw [hfirst] at h
    exact named h

theorem forM_constants (f : Constant → Eval PUnit) :
    s.constants.forM f = s.constants.toList.forM f := by
  rw [← List.forM_toArray, Array.toArray_toList]
  rfl

/-- Checking all references keeps what evaluating expressions and constants keeps. -/
theorem checkReferences_keeps {P : Known → Prop} {Q Q' : Int → Prop}
    (heval : ∀ text, Keeps P (s.evaluate text) Q)
    (hconstant : ∀ name, Keeps P (s.constantValue name) Q') :
    Keeps P s.checkReferences fun _ => True := by
  refine (Keeps.forM fun t _ => checkEntry_keeps heval t).bind fun _ _ => ?_
  rw [forM_constants]
  exact Keeps.forM fun c _ => (hconstant _).bind fun _ _ => Keeps.pure trivial

/-- A schema whose references hold has a value for every constant. -/
theorem settled_of_checkReferences {known₀ known : Known} (hw : known₀.Words)
    (h : Yields s.checkReferences known₀ () known) : known.Words ∧ s.Complete known := by
  obtain ⟨⟨⟩, k, hentries, hconstants⟩ := yields_bind.mp h
  have hk : k.Words :=
    ((Keeps.forM fun t _ => checkEntry_keeps (evaluate_keeps s.remembers_words) t).of_yields
      hw hentries).1
  rw [forM_constants] at hconstants
  have words : ∀ c : Constant, Keeps Known.Words (do let _ ← s.constantValue c.specName : Eval Unit)
      fun _ => True := fun c => (constantValue_keeps s.remembers_words _).bind fun _ _ =>
    Keeps.pure trivial
  have hall := forM_each (I := Known.Words) (P := fun c k => ∀ number,
    s.resolveConstant? c.specName = some number → (k.lookup number).isSome = true) hconstants hk
    (fun c _ k k' hk h => ⟨((words c).of_yields hk h).1, fun number hn => ?_⟩)
    fun x c k k' hk hx h number hn => ?_
  · refine ⟨((Keeps.forM fun c _ => words c).of_yields hk hconstants).1, fun name number hn => ?_⟩
    obtain ⟨c, hc, hnumber⟩ := exists_constant hn
    exact hall c hc number hnumber
  · obtain ⟨v, k₁, hv, h⟩ := yields_bind.mp h
    obtain ⟨-, rfl⟩ := yields_pure.mp h
    exact known_of_constantValue hv hn
  · obtain ⟨v, k₁, hv, h⟩ := yields_bind.mp h
    obtain ⟨-, rfl⟩ := yields_pure.mp h
    exact ((constantValue_keeps (s.remembers_known number) _).of_yields ⟨hk, hx number hn⟩ hv).1.2

end Schema

/-- What a calculation finds is all that it changes. -/
theorem Registry.yields_of_calculate {m : Schema → Eval α} {r r' : Registry} {a : α}
    (h : r.calculate m = (.ok a, r')) :
    ∃ known, Yields (m r.toSchema) r.known a known ∧ r' = { r with known } := by
  obtain ⟨hresult, rfl⟩ := Prod.mk.inj h
  exact ⟨_, Prod.ext hresult rfl, rfl⟩

/-- A registry whose references have been checked is settled. -/
theorem Registry.settled_of_checkReferences {r r' : Registry} (hw : r.known.Words)
    (h : r.calculate (·.checkReferences) = (.ok (), r')) : r'.Settled := by
  obtain ⟨known, hy, rfl⟩ := yields_of_calculate h
  obtain ⟨hwords, hcomplete⟩ := Schema.settled_of_checkReferences hw hy
  exact ⟨hwords, hcomplete⟩

/-- Whoever has the same constants and values is settled as well. -/
theorem Registry.Settled.of_constants {r r' : Registry} (h : r.Settled)
    (hknown : r'.known = r.known)
    (hconstants : r'.constants = r.constants) (hstart : r'.algPrefix = r.algPrefix) :
    r'.Settled := by
  refine ⟨hknown ▸ h.words, fun name number hn => ?_⟩
  rw [hknown]
  refine h.complete name number ?_
  rw [← hn]
  unfold Schema.resolveConstant? Schema.constantNumber?
  rw [hconstants, hstart]

end WireTables
