import WireTables.Proofs.Adaptation
import WireTables.Proofs.Target.Reading

/-!
# Writing values in a target language

Each token of an expression is written as a text of its own (`Writes`): constants that have been written
before by name, other constants and sizes as numbers, and everything else as it is. The texts of an
expression one after the other are read as one token each (`tokens?_of_written`): operands and
operators take turns in it, and an operand is followed by a blank, by a parenthesis or by nothing, so
that no word goes on into the next.
-/

namespace WireTables

open Expression (StandsFor takesTurns)

/-- The name of a constant in a language after that of the type that it belongs to. -/
def Schema.qualifiedName? (s : Schema) (lang : Language) (c : Constant) : Option String :=
  (s.lookup? c.owner).map fun t => t.name ++ lang.scopeSeparator ++ c.name

/-- The text is the name in a language of the constant that a name stands for. -/
def Schema.Named (s : Schema) (lang : Language) (name text : String) : Prop :=
  ∃ number c, s.resolveConstant? name = some number ∧ s.constants[number]? = some c ∧
    s.qualifiedName? lang c = some text

namespace Target

/-- What is said in a comment of a value that is written out. -/
def note (lang : Language) (name : String) : String :=
  if lang == .py then "" else " /*" ++ name ++ "*/"

/-- What a token is written as, and the token that is read for it. -/
inductive Writes (s : Schema) (known : Known) (lang : Language) : Token → String → Token → Prop
  | number {n text} : Writes s known lang (.number n text) text (.number n text)
  | reference {name text} (h : s.Named lang name text) :
    Writes s known lang (.name name) text (.name text)
  | value {name n} (h : Yields (s.constantValue name) known n known) :
    Writes s known lang (.name name) (literal n ++ note lang name) (.number n (literal n))
  | size {type n} (h : Yields (s.wireSize type) known n known) :
    Writes s known lang (.sizeOf type) (toString n) (.number n (toString n))
  | operator {op} : Writes s known lang (.operator op) (operatorText lang op) (.operator op)
  | openParen : Writes s known lang .openParen "(" .openParen
  | closeParen : Writes s known lang .closeParen ")" .closeParen

/-- What tokens are written as one after the other, and the tokens that are read for them. -/
inductive Written (s : Schema) (known : Known) (lang : Language) :
    List Token → String → List Token → Prop
  | nil : Written s known lang [] "" []
  | cons {t piece u ts text us} (h : Writes s known lang t piece u)
    (rest : Written s known lang ts text us) : Written s known lang (t :: ts) (piece ++ text) (u :: us)

/-- The text of a constant in a language says what its expression says. -/
def Rendered (s : Schema) (known : Known) (lang : Language) (expr text : String) : Prop :=
  ∃ ts us, Expression.tokens expr = .ok ts ∧ Written s known lang ts text us

section Render

variable {s : Schema} {known known' : Known} {lang : Language} {processed : List Nat}
  {r r' : Rendering}

theorem writes_of_renderConstant (hs : s.Remembers (· = known)) {name : String}
    (h : Yields (renderConstant s lang processed r name) known r' known') :
    known' = known ∧ ∃ piece u, r'.text = r.text ++ piece ∧
      Writes s known lang (.name name) piece u := by
  unfold renderConstant at h
  split at h
  · exact (not_yields_throw h).elim
  next number hr =>
  dsimp only at h
  split at h
  · next owner member howner hprocessed =>
    obtain ⟨rfl, rfl⟩ := yields_pure.mp h
    obtain ⟨c, hc, howner⟩ := Option.bind_eq_some_iff.mp howner
    obtain ⟨t, ht, heq⟩ := Option.map_eq_some_iff.mp howner
    cases heq
    refine ⟨rfl, _, _, rfl, .reference ⟨number, c, hr, hc, ?_⟩⟩
    rw [Schema.qualifiedName?, ht, Option.map_some]
  · obtain ⟨n, k, hn, h⟩ := yields_bind.mp h
    obtain ⟨rfl, rfl⟩ := yields_pure.mp h
    obtain ⟨rfl, -⟩ := (Schema.constantValue_keeps hs name).of_yields rfl hn
    exact ⟨rfl, _, _, String.append_assoc, .value hn⟩

theorem writes_of_renderToken (hs : s.Remembers (· = known)) {t : Token}
    (h : Yields (renderToken s lang processed r t) known r' known') :
    known' = known ∧ ∃ piece u, r'.text = r.text ++ piece ∧ Writes s known lang t piece u := by
  cases t with
  | name name => exact writes_of_renderConstant hs h
  | sizeOf type =>
    obtain ⟨n, k, hn, h⟩ := yields_bind.mp h
    obtain ⟨rfl, rfl⟩ := yields_pure.mp h
    obtain ⟨rfl, -⟩ := (Schema.wireSize_keeps hs type).of_yields rfl hn
    exact ⟨rfl, _, _, rfl, .size hn⟩
  | number n text =>
    obtain ⟨rfl, rfl⟩ := yields_pure.mp h
    exact ⟨rfl, _, _, rfl, .number⟩
  | operator op =>
    obtain ⟨rfl, rfl⟩ := yields_pure.mp h
    exact ⟨rfl, _, _, rfl, .operator⟩
  | openParen =>
    obtain ⟨rfl, rfl⟩ := yields_pure.mp h
    exact ⟨rfl, _, _, rfl, .openParen⟩
  | closeParen =>
    obtain ⟨rfl, rfl⟩ := yields_pure.mp h
    exact ⟨rfl, _, _, rfl, .closeParen⟩

theorem written_of_foldlM (hs : s.Remembers (· = known)) {ts : List Token}
    (h : Yields (ts.foldlM (renderToken s lang processed) r) known r' known') :
    known' = known ∧ ∃ text us, r'.text = r.text ++ text ∧ Written s known lang ts text us := by
  induction ts generalizing r with
  | nil =>
    obtain ⟨rfl, rfl⟩ := yields_pure.mp h
    exact ⟨rfl, "", [], String.append_empty.symm, .nil⟩
  | cons t ts ih =>
    rw [List.foldlM_cons] at h
    obtain ⟨r₁, k, hstep, hrest⟩ := yields_bind.mp h
    obtain ⟨rfl, piece, u, hpiece, hwrites⟩ := writes_of_renderToken hs hstep
    obtain ⟨rfl, text, us, htext, hwritten⟩ := ih hrest
    refine ⟨rfl, piece ++ text, u :: us, ?_, .cons hwrites hwritten⟩
    rw [htext, hpiece, String.append_assoc]

/-- An expression is written token by token. -/
theorem rendered_of_render (hs : s.Remembers (· = known)) {expr : String}
    (h : Yields (render s lang processed expr) known r known') :
    known' = known ∧ Rendered s known lang expr r.text := by
  obtain ⟨ts, k, hts, hfold⟩ := yields_bind.mp h
  obtain ⟨hread, rfl⟩ := Schema.yields_faulty.mp hts
  obtain ⟨rfl, text, us, htext, hwritten⟩ := written_of_foldlM hs hfold
  have htext : r.text = text := by simpa using htext
  exact ⟨rfl, ts, us, hread, htext ▸ hwritten⟩

end Render

section Read

variable {s : Schema} {known : Known} {lang : Language} {A : Arithmetic} {t u : Token}
  {ts us : List Token} {piece text : String}

/-- What is written for a token of an expression is read as its token where that may stand. -/
theorem Writes.says (hA : Speaks lang A) (h : Writes s known lang t piece u) (ht : t.Spelled)
    (hp : ∀ n text, t = .number n text → padded lang text.toList = false)
    (hnamed : ∀ name text, s.Named lang name text → IsReference text) {due : Bool}
    {ks : List Expression.Kind} (hdue : takesTurns due (t.kind :: ks) = true) :
    Says lang due piece.toList u ∧ takesTurns u.wants ks = true := by
  have turn : ∀ {b b' : Bool}, (b && b') = true → b = true ∧ b' = true := by simp
  cases h with
  | number =>
    obtain ⟨rfl, hks⟩ := turn hdue
    exact ⟨says_number ht (hp _ _ rfl), hks⟩
  | reference h =>
    obtain ⟨rfl, hks⟩ := turn hdue
    exact ⟨says_reference (hnamed _ _ h), hks⟩
  | @value name n h =>
    obtain ⟨rfl, hks⟩ := turn hdue
    refine ⟨?_, hks⟩
    cases hA with
    | node =>
      have hname : ∀ c ∈ name.toList, c ≠ '*' := by
        rintro c hc rfl
        exact absurd (ht _ hc) (by decide)
      have hpiece : (literal n ++ note .node name).toList =
          (literal n).toList ++ (' ' :: '/' :: '*' :: (name.toList ++ ['*', '/'])) := by
        simp [note]
      rw [hpiece]
      exact (says_literal n).note hname
    | py =>
      have hpiece : (literal n ++ note .py name).toList = (literal n).toList := by simp [note]
      rw [hpiece]
      exact says_literal n
  | size h =>
    obtain ⟨rfl, hks⟩ := turn hdue
    exact ⟨says_number (Expression.spelled_toString _) (padded_toString _), hks⟩
  | operator =>
    obtain ⟨hd, hks⟩ := turn hdue
    obtain rfl : due = false := by simpa using hd
    exact ⟨says_operator hA _, hks⟩
  | openParen =>
    obtain ⟨rfl, hks⟩ := turn hdue
    exact ⟨says_openParen, hks⟩
  | closeParen =>
    obtain ⟨hd, hks⟩ := turn hdue
    obtain rfl : due = false := by simpa using hd
    exact ⟨says_closeParen, hks⟩

/-- After an operand no word goes on. -/
theorem free_of_written (h : Written s known lang ts text us)
    (hturn : takesTurns false (ts.map Token.kind) = true) : Free text.toList := by
  cases h with
  | nil =>
    intro c rest heq
    cases heq
  | cons h _ =>
    cases h with
    | @operator op =>
      obtain ⟨after, hafter⟩ : ∃ after, (operatorText lang op).toList = ' ' :: after := by
        unfold operatorText
        split
        · exact ⟨_, rfl⟩
        · exact ⟨_, by rw [String.append_assoc, String.toList_append]; rfl⟩
      intro c rest heq
      rw [String.toList_append, hafter] at heq
      cases heq
      rfl
    | closeParen =>
      intro c rest heq
      rw [String.toList_append] at heq
      cases heq
      rfl
    | _ => cases hturn

/-- The texts of an expression one after the other are read token by token. -/
theorem lexemes?_of_written (hA : Speaks lang A) (h : Written s known lang ts text us)
    (hspelled : ∀ t ∈ ts, t.Spelled)
    (hp : ∀ n text, .number n text ∈ ts → padded lang text.toList = false)
    (hnamed : ∀ name text, s.Named lang name text → IsReference text) {due : Bool}
    (hturn : takesTurns due (ts.map Token.kind) = true) :
    (lexemes? lang text.toList).map (signed due) = some us := by
  induction h generalizing due with
  | nil =>
    rw [lexemes?]
    rfl
  | @cons t piece u ts text us h rest ih =>
    rw [List.map_cons] at hturn
    obtain ⟨hpiece, hks⟩ := h.says hA (hspelled t List.mem_cons_self)
      (fun n text heq => hp n text (heq ▸ List.mem_cons_self)) hnamed hturn
    have free : u.kind = .operand → Free text.toList := by
      intro hkind
      refine free_of_written rest ?_
      have : u.wants = false := by cases u <;> first | rfl | cases hkind
      rwa [this] at hks
    rw [String.toList_append, hpiece _ free, ih (fun t ht => hspelled t (List.mem_cons_of_mem _ ht))
      (fun n text hmem => hp n text (List.mem_cons_of_mem _ hmem)) hks, Option.map_some]

variable {constant size : String → Int} {reference : String → Option Int}

/-- What is read stands for what has been written, where names and numbers stand for the values of
constants and sizes. -/
theorem standsFor_of_written (h : Written s known lang ts text us)
    (hconstant : ∀ name n, Yields (s.constantValue name) known n known → constant name = n)
    (hsize : ∀ type n, Yields (s.wireSize type) known n known → size type = n)
    (hreference : ∀ name text, .name name ∈ ts → s.Named lang name text →
      reference text = some (constant name)) :
    List.Forall₂ (StandsFor constant size reference) ts us := by
  induction h with
  | nil => exact .nil
  | @cons t piece u ts text us h rest ih =>
    refine .cons ?_ (ih fun name text hmem => hreference name text (List.mem_cons_of_mem _ hmem))
    cases h with
    | number => exact .number
    | reference h => exact .reference (hreference _ _ List.mem_cons_self h)
    | value h => exact hconstant _ _ h ▸ .value
    | size h => exact hsize _ _ h ▸ .size
    | operator => exact .operator
    | openParen => exact .openParen
    | closeParen => exact .closeParen

/-- A well-formed expression whose operators all give the same in the language is read as its value
there. -/
theorem reads_of_rendered (hA : Speaks lang A) {expr : String} {e : Expression.Tree} {n : Int}
    (h : Rendered s known lang expr text) (ht : Expression.tokens expr = .ok ts)
    (he : Expression.Derives .shift ts e)
    (hp : ∀ n text, .number n text ∈ ts → padded lang text.toList = false)
    (hnamed : ∀ name text, s.Named lang name text → IsReference text)
    (hconstant : ∀ name n, Yields (s.constantValue name) known n known → constant name = n)
    (hsize : ∀ type n, Yields (s.wireSize type) known n known → size type = n)
    (hreference : ∀ name text, .name name ∈ ts → s.Named lang name text →
      reference text = some (constant name))
    (hport : e.Portable lang constant size) (hn : e.value constant size = .ok n) :
    Reads lang A reference text (A.ofInt n) := by
  obtain ⟨_, us, ht', hwritten⟩ := h
  cases ht.symm.trans ht'
  have hturn : takesTurns true (ts.map Token.kind) = true := by
    have := he.takesTurns_append []
    rwa [List.append_nil] at this
  obtain ⟨e', he', hstands⟩ :=
    he.follows us (standsFor_of_written hwritten hconstant hsize hreference)
  exact ⟨us, e', lexemes?_of_written hA hwritten (Expression.spelled_of_tokens ht) hp hnamed hturn,
    he', Expression.Tree.calculated_of_stands hA hstands hport hn⟩

end Read

end Target

end WireTables
