import WireTables.Proofs.Codec
import WireTables.Proofs.Normal.Steps
import WireTables.Proofs.Schema.Denotation

/-!
# Values of constants in normal form

The values of constants are found once, when the tables have been read, and are remembered from then
on; no pass of normal form changes them. So they are those of the expressions before normal form,
and those of the expressions in normal form as long as the types whose sizes these ask for keep
their sizes (`constantValue_of_normalized`). A pass that changes such a size leaves the remembered
value behind.
-/

namespace WireTables

open Relation (ReflTransGen)

namespace Schema

/-- The size of the type goes into the value of the constant: its expression asks for the size, or
names a constant that the size goes into. -/
inductive Asks (s : Schema) (type : String) : String → Prop
  | sizeOf {name number c ts} (hr : s.resolveConstant? name = some number)
    (hc : s.constants[number]? = some c) (ht : Expression.tokens c.expr = .ok ts)
    (hm : .sizeOf type ∈ ts) : Asks s type name
  | constant {name other number c ts} (hr : s.resolveConstant? name = some number)
    (hc : s.constants[number]? = some c) (ht : Expression.tokens c.expr = .ok ts)
    (hm : .name other ∈ ts) (h : Asks s type other) : Asks s type name

/-- Schemas with the same constants give a constant the same value if they agree on the sizes that
go into it. -/
theorem Denotes.agree_constant {s s' : Schema}
    (hresolve : ∀ name, s'.resolveConstant? name = s.resolveConstant? name)
    (hconstants : s'.constants = s.constants) {name : String} {depth depth' : Nat} {n n' : Int}
    (hsizes : ∀ type, s.Asks type name → ∀ a b, s.Denotes (.size type 0) a →
      s'.Denotes (.size type 0) b → a = b)
    (h : s.Denotes (.constant name depth) n) (h' : s'.Denotes (.constant name depth') n') :
    n = n' := by
  refine h.induct (motive := fun q n => ∀ name depth depth' n', q = .constant name depth →
    (∀ type, s.Asks type name → ∀ a b, s.Denotes (.size type 0) a →
      s'.Denotes (.size type 0) b → a = b) → s'.Denotes (.constant name depth') n' → n = n')
    (fun q n hd name depth depth' n' hq hsizes h' => ?_) name depth depth' n' rfl hsizes h'
  subst hq
  cases hd with
  | constant hr hc he =>
    cases h'.denoted with
    | constant hr' hc' he' =>
      rw [hresolve] at hr'
      cases hr.symm.trans hr'
      rw [hconstants] at hc'
      cases hc.symm.trans hc'
      obtain ⟨-, ts, ht, -, items, hi, hn⟩ := he
      obtain ⟨-, ts', ht', -, items', hi', hn'⟩ := he'
      cases ht.symm.trans ht'
      have same : items = items' := by
        refine forall₂_unique (fun t htoken i i' hti hti' => ?_) hi hi'
        cases hti with
        | @name other m hm =>
          cases hti' with
          | @name _ m' hm' =>
            rw [hm.2 _ _ _ _ rfl (fun type hasks => hsizes type (.constant hr hc ht htoken hasks))
              hm']
        | @sizeOf type m hm =>
          cases hti' with
          | @sizeOf _ m' hm' =>
            rw [hsizes type (.sizeOf hr hc ht htoken) m m' hm.1 hm']
        | _ =>
          cases hti'
          rfl
      subst same
      exact Except.ok.inj (hn.symm.trans hn')

end Schema

/-- The same constants, with the same values remembered. -/
structure Registry.SameConstants (r r' : Registry) : Prop where
  known : r'.known = r.known
  constants : r'.constants = r.constants
  start : r'.algPrefix = r.algPrefix

namespace Registry.SameConstants

variable {r r' r'' : Registry}

theorem refl (r : Registry) : r.SameConstants r :=
  ⟨rfl, rfl, rfl⟩

theorem trans (h : r.SameConstants r') (h' : r'.SameConstants r'') : r.SameConstants r'' :=
  ⟨h'.known.trans h.known, h'.constants.trans h.constants, h'.start.trans h.start⟩

theorem settled (h : r.SameConstants r') (hs : r.Settled) : r'.Settled :=
  hs.of_constants h.known h.constants h.start

theorem resolveConstant? (h : r.SameConstants r') (name : String) :
    r'.resolveConstant? name = r.resolveConstant? name := by
  unfold Schema.resolveConstant? Schema.constantNumber?
  rw [h.constants, h.start]

end Registry.SameConstants

namespace Edit

variable {config : Config} {r r' : Registry}

/-- Sizes are asked for when every constant has its value. -/
theorem sameConstants_of_reshapes (hs : r.Settled) (h : Reshapes config r r') :
    r.SameConstants r' := by
  cases h with
  | pairs => exact ⟨rfl, rfl, rfl⟩
  | rewrite h =>
    cases h with
    | remember asked =>
      exact ⟨((Schema.sessionPrefixes_keeps hs.remembers).of_yields rfl asked).1, rfl, rfl⟩
    | _ => exact ⟨rfl, rfl, rfl⟩

theorem sameConstants_of_separates {union : String} (h : Separates union r r') :
    r.SameConstants r' := by
  cases h with
  | derive target moved =>
    obtain ⟨hconstants, hstart⟩ := Schema.same_of_ensureAfter moved
    exact ⟨rfl, hconstants, hstart⟩
  | add added =>
    obtain ⟨hconstants, hstart⟩ := Schema.same_of_addType added
    exact ⟨rfl, hconstants, hstart⟩
  | rename => exact ⟨rfl, rfl, rfl⟩

theorem sameConstants_separateUnion {union : String} {n : Nat}
    (hy : Yields (separateUnion config union) r n r') : r.SameConstants r' :=
  invariant_of_steps (I := r.SameConstants) (separates_separateUnion hy) (.refl r)
    fun _ _ h hstep => h.trans (sameConstants_of_separates hstep)

/-- Bringing a registry to normal form changes no constant and no value. -/
theorem sameConstants_of_passes (hs : r.Settled) (h : Passes config r r') :
    r.SameConstants r' :=
  invariant_of_passes (I := r.SameConstants) h (.refl r)
    (fun _ _ h hstep => h.trans (sameConstants_of_reshapes (h.settled hs) hstep))
    (fun _ _ _ _ h hy => h.trans (sameConstants_separateUnion hy))
    fun _ h => h.trans ⟨rfl, rfl, rfl⟩

end Edit

namespace Registry

/-- The value of a constant. -/
def constantValue (r : Registry) (name : String) : Except Error Int :=
  (r.calculate (·.constantValue name)).1

/-- The remembered value is the answer. -/
theorem constantValue_of_known {r : Registry} {name : String} {number : Nat} {n : Int}
    (hs : r.Settled) (hr : r.resolveConstant? name = some number)
    (hk : r.known.lookup number = some n) : r.constantValue name = .ok n := by
  refine calculate_eq_ok.mpr ⟨r.known, (Schema.yields_answer hs.complete).mpr ⟨?_, rfl⟩⟩
  exact .constant hr hk

end Registry

open Schema

/-- A constant in normal form has the value of its expression before normal form; and that of its
expression in normal form if the types whose sizes go into it have the same sizes before and after.
Either expression is evaluated without remembered values. -/
theorem constantValue_of_normalized {tables : List Table} {config : Config} {r₀ r : Registry}
    {report : ExtractionReport} (hextract : Extraction.extract tables config = .ok (r₀, report))
    (hy : Yields (Edit.normalize config) r₀ () r) {name : String} {n : Int} {k : Known} :
    (Yields (r₀.toSchema.constantValue name) [] n k → r.constantValue name = .ok n) ∧
    (Yields (r.toSchema.constantValue name) [] n k →
      (∀ type, r₀.Asks type name → ∀ a b, r₀.Denotes (.size type 0) a →
        r.Denotes (.size type 0) b → a = b) → r.constantValue name = .ok n) := by
  obtain ⟨hchecked, -⟩ := Extraction.checked_of_extract hextract
  have hs₀ : r₀.Settled := (Extraction.tabled_of_extract hextract).1
  have hsame := Edit.sameConstants_of_passes hs₀ (Edit.passes_of_normalize hy).1
  have hs : r.Settled := hsame.settled hs₀
  -- the remembered value is the one before normal form
  have hvalue : ∀ {number}, r₀.resolveConstant? name = some number →
      ∃ v, r₀.Denotes (.constant name 0) v ∧ r.constantValue name = .ok v := fun {number} hr => by
    obtain ⟨v, hv⟩ := Option.isSome_iff_exists.mp (hs₀.complete name number hr)
    obtain ⟨c, hc, he⟩ := meant_of_checkReferences hchecked number v hv
    refine ⟨v, .of_denoted (.constant hr hc he), Registry.constantValue_of_known hs
      ((hsame.resolveConstant? name).trans hr) ?_⟩
    rw [hsame.known]
    exact hv
  constructor
  · intro hfresh
    have hn := ((ask_denotes (.constant name 0)).of_yields meant_nil hfresh).2
    cases hn.denoted with
    | constant hr =>
      obtain ⟨v, hv, hremembered⟩ := hvalue hr
      have hq : Query.Same (.constant name 0) (.constant name 0) := rfl
      rw [hremembered, hv.unique hq hn]
  · intro hfresh hsizes
    have hn := ((ask_denotes (.constant name 0)).of_yields meant_nil hfresh).2
    cases hn.denoted with
    | constant hr =>
      obtain ⟨v, hv, hremembered⟩ := hvalue ((hsame.resolveConstant? name).symm.trans hr)
      rw [hremembered, hv.agree_constant hsame.resolveConstant? hsame.constants hsizes hn]

section Limits

/-- Limits that are sizes of structures, one of which loses the tag of its array in normal form. -/
def limitTables : List Table :=
  [{ caption := "Table 1 — Definition of TPMS_ID_OBJECT Structure", comment := "",
     rows := [["size", "UINT16", ""], ["encIdentity[size]{:64}", "BYTE", ""]], handleCount := 0 },
   { caption := "Table 2 — Definition of TPMS_WORD Structure", comment := "",
     rows := [["word", "UINT16", ""]], handleCount := 0 },
   { caption := "Table 3 — Definition of (UINT16) TPM_LIMIT Constants", comment := "",
     rows := [["TPM_LIMIT_ID", "sizeof(TPMS_ID_OBJECT)", ""],
       ["TPM_LIMIT_WORDS", "sizeof(TPMS_WORD) * 4", ""],
       ["TPM_LIMIT_ALL", "TPM_LIMIT_WORDS + 1", ""]], handleCount := 0 }]

/-- The registry that the tables of limits are extracted to. -/
def extractedLimits : Registry :=
  match Extraction.extract limitTables {} with
  | .ok (r, _) => r
  | .error _ => default

/-- The registry of limits in normal form. -/
def limits : Registry :=
  (Id.run ((Edit.normalize {}).run extractedLimits)).2

/-- The tokens of the expression of a constant. -/
def constantTokens? (s : Schema) (name : String) : Option (List Token) := do
  let c ← s.constants[← s.resolveConstant? name]?
  (Expression.tokens c.expr).toOption

/-- The value of a calculation that remembers nothing before. -/
def fresh? {α : Type} (m : Eval α) : Option α :=
  (Id.run (m.run [])).1.toOption

theorem limit_facts :
    (Extraction.extract limitTables {}).toOption.map (·.1) = some extractedLimits ∧
      (Id.run ((Edit.normalize {}).run extractedLimits)).1.toOption = some () ∧
      constantTokens? extractedLimits.toSchema "TPM_LIMIT_ALL" =
        some [.name "TPM_LIMIT_WORDS", .operator .add, .number 1 "1"] ∧
      constantTokens? extractedLimits.toSchema "TPM_LIMIT_WORDS" =
        some [.sizeOf "TPMS_WORD", .operator .mul, .number 4 "4"] ∧
      fresh? (extractedLimits.ask (.size "TPMS_WORD" 0)) = some 2 ∧
      fresh? (limits.ask (.size "TPMS_WORD" 0)) = some 2 ∧
      fresh? (limits.toSchema.constantValue "TPM_LIMIT_ALL") = some 9 ∧
      fresh? (extractedLimits.toSchema.constantValue "TPM_LIMIT_ID") = some 66 ∧
      fresh? (limits.toSchema.constantValue "TPM_LIMIT_ID") = some 64 := by
  decide +kernel

/-- A size goes into a constant through a token of its expression. -/
theorem token_of_asks {s : Schema} {type name : String} {ts : List Token}
    (ht : constantTokens? s name = some ts) (h : s.Asks type name) :
    .sizeOf type ∈ ts ∨ ∃ other, .name other ∈ ts ∧ s.Asks type other := by
  have same : ∀ {number c ts'}, s.resolveConstant? name = some number →
      s.constants[number]? = some c → Expression.tokens c.expr = .ok ts' → ts' = ts := by
    intro number c ts' hr hc ht'
    unfold constantTokens? at ht
    rw [hr, Option.bind_eq_bind, Option.bind_some, Option.bind_eq_bind, hc, Option.bind_some,
      ht'] at ht
    exact Option.some.inj ht
  cases h with
  | sizeOf hr hc ht' hm => exact .inl (same hr hc ht' ▸ hm)
  | constant hr hc ht' hm h => exact .inr ⟨_, same hr hc ht' ▸ hm, h⟩

/-- The limit of all words keeps its value, since words keep their size; the limit of objects keeps
the value that it had, although its expression has another value by now. -/
theorem constantValue_limits :
    (∃ report, Extraction.extract limitTables {} = .ok (extractedLimits, report)) ∧
    Yields (Edit.normalize {}) extractedLimits () limits ∧
    (∃ k, Yields (limits.toSchema.constantValue "TPM_LIMIT_ALL") [] 9 k) ∧
    (∀ type, extractedLimits.Asks type "TPM_LIMIT_ALL" → ∀ a b,
      extractedLimits.Denotes (.size type 0) a → limits.Denotes (.size type 0) b → a = b) ∧
    limits.constantValue "TPM_LIMIT_ALL" = .ok 9 ∧
    (∃ k, Yields (extractedLimits.toSchema.constantValue "TPM_LIMIT_ID") [] 66 k) ∧
    limits.constantValue "TPM_LIMIT_ID" = .ok 66 ∧
    ∃ k, Yields (limits.toSchema.constantValue "TPM_LIMIT_ID") [] 64 k := by
  obtain ⟨hextract, hnormal, hall, hwords, hsize₀, hsize, hfresh, hid₀, hid⟩ := limit_facts
  obtain ⟨⟨_, report⟩, hextract, rfl⟩ := Option.map_eq_some_iff.mp hextract
  have hextract := ok_of_toOption hextract
  have hy : Yields (Edit.normalize {}) extractedLimits () limits := yields_of_toOption hnormal
  have hasked : ∀ type, extractedLimits.Asks type "TPM_LIMIT_ALL" → type = "TPMS_WORD" := by
    intro type h
    rcases token_of_asks hall h with hm | ⟨other, hm, h⟩
    · simp at hm
    · obtain rfl : other = "TPM_LIMIT_WORDS" := by simpa using hm
      rcases token_of_asks hwords h with hm | ⟨other, hm, -⟩
      · simpa using hm
      · simp at hm
  have hsizes : ∀ type, extractedLimits.Asks type "TPM_LIMIT_ALL" → ∀ a b,
      extractedLimits.Denotes (.size type 0) a → limits.Denotes (.size type 0) b → a = b := by
    intro type h a b ha hb
    obtain rfl := hasked type h
    have hq : Query.Same (.size "TPMS_WORD" 0) (.size "TPMS_WORD" 0) := rfl
    rw [ha.unique hq ((ask_denotes _).of_yields meant_nil (yields_of_toOption hsize₀)).2,
      hb.unique hq ((ask_denotes _).of_yields meant_nil (yields_of_toOption hsize)).2]
  exact ⟨⟨report, hextract⟩, hy, ⟨_, yields_of_toOption hfresh⟩, hsizes,
    (constantValue_of_normalized hextract hy).2 (yields_of_toOption hfresh) hsizes,
    ⟨_, yields_of_toOption hid₀⟩,
    (constantValue_of_normalized hextract hy).1 (yields_of_toOption hid₀),
    ⟨_, yields_of_toOption hid⟩⟩

end Limits

end WireTables
