import WireTables.Proofs.Constants
import WireTables.Proofs.Target.Writing

/-!
# Values in a target language

Adapting a registry writes the value of every constant (`translated_of_adapt`). Names are given before
that and stay as they are, so what has been written for an expression stands for it in the adapted
registry as well. Read in the language, it gives the value of the constant if every operator of the
expression gives the same in both (`reads_adapted`).

The language decides over the operators only. Some expressions are no sequences of operands and
operators, some numbers start with zeros that the language does not take, and some names are those
of two constants; nothing is said of these.
-/

namespace WireTables

open Target (Arithmetic IsReference Reads Rendered Speaks Writes Written padded)

/-! ## Names stay as they are -/

/-- The second registry differs from the first one in the texts of values and in the types of fields
and members only. -/
structure Registry.SameNames (r r' : Registry) : Prop extends r.Rewritten r' where
  types : ∀ name, (r'.lookup? name).map (·.name) = (r.lookup? name).map (·.name)
  constants : r'.constants.map (fun c => (c.owner, c.name)) =
    r.constants.map fun c => (c.owner, c.name)

namespace Registry.SameNames

variable {r r' r'' : Registry} {lang : Language}

theorem refl (r : Registry) : r.SameNames r :=
  ⟨.refl r, fun _ => rfl, rfl⟩

theorem trans (h : r.SameNames r') (h' : r'.SameNames r'') : r.SameNames r'' :=
  ⟨h.toRewritten.trans h'.toRewritten, fun name => (h'.types name).trans (h.types name),
    h'.constants.trans h.constants⟩

theorem qualifiedName?_eq (h : r.SameNames r') {c c' : Constant} (howner : c'.owner = c.owner)
    (hname : c'.name = c.name) : r'.qualifiedName? lang c' = r.qualifiedName? lang c := by
  have split : ∀ (s : Schema) (c : Constant), s.qualifiedName? lang c =
      ((s.lookup? c.owner).map (·.name)).map (· ++ lang.scopeSeparator ++ c.name) := by
    intro s c
    rw [Option.map_map]
    rfl
  rw [split, split, howner, hname, h.types]

theorem named (h : r.SameNames r') {name text : String} (hn : r.Named lang name text) :
    r'.Named lang name text := by
  obtain ⟨number, c, hr, hc, hq⟩ := hn
  have hat := congrArg (·[number]?) h.constants
  simp only [Array.getElem?_map, hc, Option.map_some, Option.map_eq_some_iff, Prod.mk.injEq] at hat
  obtain ⟨c', hc', howner, hname⟩ := hat
  exact ⟨number, c', (h.resolveConstant?_eq name).trans hr, hc',
    (h.qualifiedName?_eq howner hname).trans hq⟩

theorem writes (h : r.SameNames r') {t u : Token} {piece : String}
    (hw : Writes r.toSchema r.known lang t piece u) :
    Writes r'.toSchema r'.known lang t piece u := by
  cases hw with
  | number => exact .number
  | reference hn => exact .reference (h.named hn)
  | @value name n hn =>
    rw [← h.apply_eq (m := (Schema.constantValue · name)) fun s => s.constantValue_neutral name,
      ← h.known] at hn
    exact .value hn
  | @size type n hn =>
    rw [← h.apply_eq (m := (Schema.wireSize · type)) fun s => s.wireSize_neutral type,
      ← h.known] at hn
    exact .size hn
  | operator => exact .operator
  | openParen => exact .openParen
  | closeParen => exact .closeParen

theorem rendered (h : r.SameNames r') {expr text : String}
    (hr : Rendered r.toSchema r.known lang expr text) :
    Rendered r'.toSchema r'.known lang expr text := by
  obtain ⟨ts, us, ht, hw⟩ := hr
  refine ⟨ts, us, ht, ?_⟩
  clear ht
  induction hw with
  | nil => exact .nil
  | cons hpiece _ ih => exact .cons (h.writes hpiece) ih

end Registry.SameNames

/-! ## All values are written -/

/-- The constant of the number, if there is one, has a text, and that is the text of its expression. -/
def Registry.Translated (r : Registry) (lang : Language) (number : Nat) : Prop :=
  ∀ c, r.constants[number]? = some c →
    ∃ text, c.targetExpr = some text ∧ Rendered r.toSchema r.known lang c.expr text

theorem Registry.Translated.sameNames {r r' : Registry} {lang : Language} {number : Nat}
    (ht : r.Translated lang number) (h : r.SameNames r')
    (hc : r'.constants[number]? = r.constants[number]?) : r'.Translated lang number := by
  intro c hc'
  obtain ⟨text, htext, hrendered⟩ := ht c (hc.symm.trans hc')
  exact ⟨text, htext, h.rendered hrendered⟩

namespace Edit

variable {r r' : Registry} {lang : Language} {u : Unit} {processed processed' : List Nat}

/-- One value is written; names and the values that have been written before stay as they are. -/
theorem translated_of_renderValue (hs : r.Settled) {number : Nat}
    (h : Yields (renderValue lang processed number) r processed' r') :
    r.SameNames r' ∧ r'.Translated lang number ∧
      ∀ other, r.Translated lang other → r'.Translated lang other := by
  have hrewritten := rewritten_of_renderValue hs h
  obtain ⟨hc, rfl⟩ | ⟨c, text, hc, hrender, rfl⟩ := renderValue_cases hs h
  · refine ⟨.refl r', fun c hc' => ?_, fun _ h => h⟩
    cases hc.symm.trans hc'
  · obtain ⟨-, hrendered⟩ := Target.rendered_of_render hs.remembers hrender
    have hsame : r.SameNames
        { r with constants := r.constants.modify number (Target.withValue text) } := by
      refine ⟨hrewritten, fun _ => rfl, Array.ext (by simp) fun i h₁ h₂ => ?_⟩
      simp only [Array.getElem_map, Array.getElem_modify]
      split <;> rfl
    have written : Registry.Translated
        { r with constants := r.constants.modify number (Target.withValue text) } lang number := by
      intro c' hc'
      rw [Array.getElem?_modify, if_pos rfl, hc] at hc'
      cases hc'
      exact ⟨text.text, rfl, hsame.rendered hrendered⟩
    refine ⟨hsame, written, fun other hother => ?_⟩
    by_cases heq : number = other
    · exact heq ▸ written
    · refine hother.sameNames hsame ?_
      rw [Array.getElem?_modify, if_neg heq]

/-- All values of a list are written, one after the other. -/
theorem translated_of_foldlM (hs : r.Settled) {numbers : List Nat}
    (h : Yields (numbers.foldlM (renderValue lang) processed) r processed' r') :
    r.SameNames r' ∧ ∀ number, number ∈ numbers ∨ r.Translated lang number →
      r'.Translated lang number := by
  induction numbers generalizing r processed with
  | nil =>
    obtain ⟨-, rfl⟩ := yields_pure.mp h
    exact ⟨.refl r', fun number hn => hn.resolve_left List.not_mem_nil⟩
  | cons first numbers ih =>
    rw [List.foldlM_cons] at h
    obtain ⟨_, r₁, hfirst, hrest⟩ := yields_bind.mp h
    obtain ⟨hsame, htranslated, hother⟩ := translated_of_renderValue hs hfirst
    obtain ⟨hsame', hall⟩ := ih (hsame.settled hs) hrest
    refine ⟨hsame.trans hsame', fun number hn => hall number ?_⟩
    rcases hn with hn | hn
    · rcases List.mem_cons.mp hn with rfl | hn
      · exact .inr htranslated
      · exact .inl hn
    · exact .inr (hother number hn)

/-- Every constant stands in the order in which values are written. -/
theorem mem_constantOrder {s : Schema} {number : Nat} {c : Constant}
    (hc : s.constants[number]? = some c) : number ∈ Target.constantOrder s := by
  obtain ⟨hlt, -⟩ := Array.getElem?_eq_some_iff.mp hc
  unfold Target.constantOrder
  by_cases h : number ∈ s.types.flatMap Target.listedConstants
  · exact List.mem_append_left _ h
  · refine List.mem_append_right _ (List.mem_filter.mpr ⟨List.mem_range.mpr hlt, ?_⟩)
    simpa using h

theorem translated_of_renderValues (hs : r.Settled) (h : Yields (renderValues lang) r u r')
    (number : Nat) : r'.Translated lang number := by
  simp only [renderValues, yields_bind, yields_schema, yields_pure] at h
  obtain ⟨_, r, ⟨rfl, rfl⟩, _, r', h, -, rfl⟩ := h
  obtain ⟨hsame, hall⟩ := translated_of_foldlM hs h
  intro c hc
  have hat := congrArg (·[number]?) hsame.constants
  simp only [Array.getElem?_map, hc, Option.map_some] at hat
  obtain ⟨c₀, hc₀, -⟩ := Option.map_eq_some_iff.mp hat.symm
  exact hall number (.inl (mem_constantOrder hc₀)) c hc

/-- Filling in the types of fields and members changes no name and no constant. -/
theorem sameNames_of_fillTargetTypes (hnames : r.names.Nodup)
    (h : Yields (fillTargetTypes lang) r u r') :
    r.SameNames r' ∧ r'.constants = r.constants := by
  have hrewritten := rewritten_of_fillTargetTypes hnames h
  simp only [fillTargetTypes, yields_bind, yields_schema] at h
  obtain ⟨_, r, ⟨rfl, rfl⟩, h⟩ := h
  obtain ⟨htypes, hconstants⟩ := h.forM (I := fun r₁ : Registry =>
      (∀ name, (r₁.lookup? name).map (·.name) = (r.lookup? name).map (·.name)) ∧
        r₁.constants = r.constants) ⟨fun _ => rfl, rfl⟩ fun t _ r₁ r₂ hI h => by
    simp only [yields_bind, yields_schema, yields_ofExcept, yields_update] at h
    obtain ⟨_, r₁, ⟨rfl, rfl⟩, kind, r₁, ⟨-, rfl⟩, rfl⟩ := h
    refine ⟨fun name => ?_, hI.2⟩
    have hlookup : (r₁.modifyType t.specName ({ · with kind })).lookup? name =
        (r₁.lookup? name).map fun x => if name = t.specName then { x with kind } else x :=
      Schema.lookup?_modifyType fun _ => rfl
    show ((r₁.modifyType t.specName ({ · with kind })).lookup? name).map (·.name) = _
    rw [hlookup, Option.map_map, ← hI.1 name]
    refine congrArg (Option.map · _) (funext fun x => ?_)
    show (if name = t.specName then { x with kind } else x).name = x.name
    split <;> rfl
  exact ⟨⟨hrewritten, htypes, hconstants ▸ rfl⟩, hconstants⟩

/-- Adapting a registry whose constants have values writes the value of every constant. -/
theorem translated_of_adapt (hs : r.Settled) (hnames : r.names.Nodup)
    (h : Yields (Edit.adapt lang) r u r') (number : Nat) : r'.Translated lang number := by
  unfold Edit.adapt at h
  simp only [yields_bind, yields_schema] at h
  obtain ⟨_, r, ⟨rfl, rfl⟩, h⟩ := h
  cases hadapted : r.toSchema.adaptedFor with
  | some previous =>
    rw [hadapted] at h
    exact (not_yields_throw h).elim
  | none =>
    simp only [hadapted, yields_bind] at h
    obtain ⟨_, r₁, htypes, _, r₂, hconstants, _, r₃, hvalues, _, r₄, hfill, hmark⟩ := h
    have h₁ := rewritten_of_renameTypes htypes
    have h₂ := h₁.trans (rewritten_of_renameConstants hconstants)
    have h₃ := h₂.trans (rewritten_of_renderValues (h₂.settled hs) hvalues)
    obtain ⟨hsame, heq⟩ := sameNames_of_fillTargetTypes (h₃.names_eq ▸ hnames) hfill
    have hmarked : r₄.SameNames r' := by
      obtain rfl := yields_update.mp hmark
      exact ⟨⟨rfl, rfl⟩, fun _ => rfl, rfl⟩
    have hlast : r'.constants = r₄.constants := by
      obtain rfl := yields_update.mp hmark
      rfl
    refine (translated_of_renderValues (h₂.settled hs) hvalues number).sameNames
      (hsame.trans hmarked) ?_
    rw [hlast, heq]

end Edit

/-! ## Values -/

namespace Registry

/-- The value of a constant, where it has one. -/
def valueOf (r : Registry) (name : String) : Int :=
  (r.constantValue name).toOption.getD 0

/-- The size of a type, where it has one. -/
def bytesOf (r : Registry) (type : String) : Int :=
  ((r.wireSize type).toOption.getD 0 : Nat)

section Values

variable {r r' : Registry} {name type text : String} {number : Nat} {c : Constant} {n : Int}

theorem valueOf_eq (h : r.constantValue name = .ok n) : r.valueOf name = n := by
  rw [valueOf, h]
  rfl

theorem bytesOf_eq {size : Nat} (h : r.wireSize type = .ok size) : r.bytesOf type = size := by
  rw [bytesOf, h]
  rfl

theorem Rewritten.valueOf_eq (h : r.Rewritten r') : r'.valueOf = r.valueOf := by
  funext name
  have same : r'.constantValue name = r.constantValue name :=
    h.calculate_eq fun s => s.constantValue_neutral name
  rw [valueOf, valueOf, same]

theorem Rewritten.bytesOf_eq (h : r.Rewritten r') : r'.bytesOf = r.bytesOf := by
  funext type
  have same : r'.wireSize type = r.wireSize type :=
    h.calculate_eq fun s => s.wireSize_neutral type
  rw [bytesOf, bytesOf, same]

/-- The remembered value of a constant is the value, and it is denoted. -/
theorem exists_value (hs : r.Settled) (hm : r.Meant r.known)
    (hr : r.resolveConstant? name = some number) : ∃ n, r.known.lookup number = some n ∧
      r.constantValue name = .ok n ∧ r.Denotes (.constant name 0) n := by
  obtain ⟨n, hn⟩ := Option.isSome_iff_exists.mp (hs.complete name number hr)
  obtain ⟨c, hc, he⟩ := hm number n hn
  exact ⟨n, hn, constantValue_of_known hs hr hn, .of_denoted (.constant hr hc he)⟩

/-- What is denoted as the value of a constant is its value. -/
theorem valueOf_of_denotes (hs : r.Settled) (hm : r.Meant r.known) {depth : Nat}
    (h : r.Denotes (.constant name depth) n) : r.valueOf name = n := by
  cases h.denoted with
  | constant hr =>
    obtain ⟨m, -, hvalue, hdenotes⟩ := exists_value hs hm hr
    have hq : Query.Same (.constant name 0) (.constant name depth) := rfl
    exact (r.valueOf_eq hvalue).trans (hdenotes.unique hq h)

/-- What is denoted as the size of a type is its size, if it has one. -/
theorem bytesOf_of_denotes (hm : r.Meant r.known) {size : Nat} (h : r.wireSize type = .ok size)
    (hn : r.Denotes (.size type 0) n) : r.bytesOf type = n := by
  obtain ⟨known, hy⟩ := calculate_eq_ok.mp h
  obtain ⟨m, _, hask, hy⟩ := yields_bind.mp hy
  have hdenotes := ((Schema.ask_denotes (.size type 0)).of_yields hm hask).2
  have hq : Query.Same (.size type 0) (.size type 0) := rfl
  obtain rfl := hdenotes.unique hq hn
  split at hy
  · exact (not_yields_throw hy).elim
  · next hpos =>
    obtain ⟨rfl, -⟩ := yields_pure.mp hy
    rw [r.bytesOf_eq h, Int.toNat_of_nonneg (Int.not_lt.mp hpos)]

/-- The value of an expression is that of its tree. -/
theorem value_of_evaluates (hs : r.Settled) (hm : r.Meant r.known)
    (h : Schema.Evaluates r.Denotes text 0 n) {ts : List Token} {e : Expression.Tree}
    (ht : Expression.tokens text = .ok ts) (he : Expression.Derives .shift ts e)
    (hsizes : ∀ type, .sizeOf type ∈ ts → ∃ size, r.wireSize type = .ok size) :
    e.value r.valueOf r.bytesOf = .ok n := by
  obtain ⟨-, ts', ht', -, items, hitems, hn⟩ := h
  cases ht.symm.trans ht'
  have stand : List.Forall₂ (fun t i => i = Expression.itemOf r.valueOf r.bytesOf t) ts
      (ts.map (Expression.itemOf r.valueOf r.bytesOf)) := by
    rw [List.forall₂_map_right_iff]
    exact List.forall₂_same.mpr fun _ _ => rfl
  have same : items = ts.map (Expression.itemOf r.valueOf r.bytesOf) := by
    refine forall₂_unique ?_ hitems stand
    rintro t hmem i _ hi rfl
    cases hi with
    | name hn => rw [Expression.itemOf, valueOf_of_denotes hs hm hn]
    | @sizeOf type _ hn =>
      obtain ⟨size, hsize⟩ := hsizes type hmem
      rw [Expression.itemOf, bytesOf_of_denotes hm hsize hn]
    | number | operator | openParen | closeParen => rfl
  rw [← Expression.calculate_of_derives he, ← same]
  exact hn

end Values

/-! ## Reading adapted constants -/

/-- The value of the only constant that has a name in the language. -/
def reference? (r : Registry) (lang : Language) (text : String) : Option Int :=
  match r.constants.toList.filter (r.qualifiedName? lang · == some text) with
  | [c] => (r.constantValue c.specName).toOption
  | _ => none

/-- Names of constants in the language are names there, each one that of one constant. -/
structure NamesApart (r : Registry) (lang : Language) : Prop where
  unique : (r.constants.toList.filterMap (r.qualifiedName? lang)).Nodup
  legible : ∀ text ∈ r.constants.toList.filterMap (r.qualifiedName? lang), IsReference text

instance (r : Registry) (lang : Language) : Decidable (r.NamesApart lang) :=
  decidable_of_iff ((r.constants.toList.filterMap (r.qualifiedName? lang)).Nodup ∧
      ∀ text ∈ r.constants.toList.filterMap (r.qualifiedName? lang), IsReference text)
    ⟨fun ⟨unique, legible⟩ => ⟨unique, legible⟩, fun h => ⟨h.unique, h.legible⟩⟩

/-- The expression is well formed, every number in it is one in the language, and every operator
gives the same there. -/
def Portable (r : Registry) (lang : Language) (expr : String) : Prop :=
  ∃ ts e, Expression.tokens expr = .ok ts ∧ Expression.Derives .shift ts e ∧
    (∀ n text, .number n text ∈ ts → padded lang text.toList = false) ∧
    e.Portable lang r.valueOf r.bytesOf

section Read

variable {r r₁ r' : Registry} {lang : Language} {A : Arithmetic} {name text : String} {c : Constant}
  {number : Nat}

/-- A constant is found under its own name, if no two constants have the same one. -/
theorem resolveConstant?_specName (hspec : (r.constants.toList.map (·.specName)).Nodup)
    (hc : r.constants[number]? = some c) : r.resolveConstant? c.specName = some number := by
  obtain ⟨hlt, rfl⟩ := Array.getElem?_eq_some_iff.mp hc
  have hfirst : r.constantNumber? r.constants[number].specName = some number := by
    refine Array.findIdx?_eq_some_iff_getElem.mpr ⟨hlt, by simp, fun i hi => ?_⟩
    have hne := List.pairwise_iff_getElem.mp hspec i number (by simp; omega) (by simpa using hlt) hi
    simpa using hne
  unfold Schema.resolveConstant?
  rw [hfirst]
  rfl

/-- The one element with a value. -/
theorem filter_eq_singleton {α β : Type} [DecidableEq β] {f : α → Option β} {xs : List α} {x : α}
    {y : β} (hunique : (xs.filterMap f).Nodup) (hx : x ∈ xs) (hy : f x = some y) :
    xs.filter (f · == some y) = [x] := by
  induction xs with
  | nil => cases hx
  | cons first xs ih =>
    by_cases hfirst : f first = some y
    · rw [List.filterMap_cons_some hfirst, List.nodup_cons, List.mem_filterMap] at hunique
      have other : ∀ z ∈ xs, f z ≠ some y := fun z hz h => hunique.1 ⟨z, hz, h⟩
      obtain rfl : x = first := by
        rcases List.mem_cons.mp hx with h | h
        · exact h
        · exact absurd hy (other x h)
      rw [List.filter_cons_of_pos (by simp [hfirst]), List.filter_eq_nil_iff.mpr]
      intro z hz
      simpa using other z hz
    · have hx : x ∈ xs := by
        rcases List.mem_cons.mp hx with rfl | h
        · exact absurd hy hfirst
        · exact h
      rw [List.filter_cons_of_neg (by simp [hfirst])]
      refine ih ?_ hx
      exact hunique.sublist ((List.sublist_cons_self first xs).filterMap f)

/-- The name of a constant in the language stands for the value of the constant. -/
theorem reference?_of_named (hs : r.Settled)
    (hspec : (r.constants.toList.map (·.specName)).Nodup) (hapart : r.NamesApart lang)
    (h : r.Named lang name text) : r.reference? lang text = some (r.valueOf name) := by
  obtain ⟨number, c, hr, hc, hq⟩ := h
  obtain ⟨n, hn⟩ := Option.isSome_iff_exists.mp (hs.complete name number hr)
  have hmem : c ∈ r.constants.toList := List.mem_of_getElem? (by rwa [Array.getElem?_toList])
  have hvalue := constantValue_of_known hs (resolveConstant?_specName hspec hc) hn
  rw [reference?, filter_eq_singleton hapart.unique hmem hq,
    valueOf_eq (constantValue_of_known hs hr hn)]
  simp only [hvalue, Except.toOption]

/-- Sizes in an expression that has been written are sizes of types. -/
theorem exists_wireSize_of_written {ts us : List Token}
    (h : Written r.toSchema r.known lang ts text us) {type : String} (hmem : .sizeOf type ∈ ts) :
    ∃ size, r.wireSize type = .ok size := by
  induction h with
  | nil => cases hmem
  | cons hpiece _ ih =>
    rcases List.mem_cons.mp hmem with rfl | hmem
    · cases hpiece with
      | size hsize => exact ⟨_, calculate_eq_ok.mpr ⟨_, hsize⟩⟩
    · exact ih hmem

/-- An expression that has been written is read as the value that it had before. -/
theorem reads_of_rendered (hA : Speaks lang A) (hs : r.Settled) (hm : r.Meant r.known)
    (h : r.Rewritten r') (hspec : (r'.constants.toList.map (·.specName)).Nodup)
    (hapart : r'.NamesApart lang) {expr : String} {n : Int}
    (hr : Rendered r'.toSchema r'.known lang expr text) (hn : Schema.Evaluates r.Denotes expr 0 n)
    (hport : r'.Portable lang expr) : Reads lang A (r'.reference? lang) text (A.ofInt n) := by
  obtain ⟨ts, e, ht, he, hp, hport⟩ := hport
  have hvalue : e.value r'.valueOf r'.bytesOf = .ok n := by
    rw [h.valueOf_eq, h.bytesOf_eq]
    refine value_of_evaluates hs hm hn ht he fun type hmem => ?_
    obtain ⟨ts', us, ht', hw⟩ := hr
    cases ht.symm.trans ht'
    obtain ⟨size, hsize⟩ := exists_wireSize_of_written hw hmem
    exact ⟨size, (h.calculate_eq fun s => s.wireSize_neutral type).symm.trans hsize⟩
  have legible : ∀ name text, r'.Named lang name text → IsReference text := by
    intro name text ⟨number, c, _, hc, hq⟩
    refine hapart.legible text (List.mem_filterMap.mpr ⟨c, ?_, hq⟩)
    exact List.mem_of_getElem? (by rwa [Array.getElem?_toList])
  exact Target.reads_of_rendered hA hr ht he hp legible
    (fun name n hn => valueOf_eq (calculate_eq_ok.mpr ⟨_, hn⟩))
    (fun type n hn => bytesOf_eq (calculate_eq_ok.mpr ⟨_, hn⟩))
    (fun name text _ hnamed => reference?_of_named (h.settled hs) hspec hapart hnamed) hport hvalue

end Read

/-- The values that are found when references are checked are meant, where those were that had been
found before. -/
theorem meant_of_calculate {r r' : Registry} (hm : r.Meant r.known)
    (h : r.calculate (·.checkReferences) = (.ok (), r')) : r'.Meant r'.known := by
  obtain ⟨known, hy, rfl⟩ := yields_of_calculate h
  exact ((Schema.checkReferences_keeps
    (fun text => (Schema.evaluateWith_gives Schema.ask_denotes text 0).trivial)
    fun name => (Schema.ask_denotes (.constant name 0)).trivial).of_yields hm hy).1

/-- Constants that differ in what is written for a language only. -/
theorem Rewritten.exists_constant {r r' : Registry} (h : r.Rewritten r') {number : Nat}
    {c : Constant} (hc : r'.constants[number]? = some c) :
    ∃ c₀, r.constants[number]? = some c₀ ∧ c₀.expr = c.expr ∧ c₀.specName = c.specName := by
  have hat := congrArg (fun s : Schema => s.constants[number]?) h.neutral
  simp only [Schema.neutral, Array.getElem?_map, hc, Option.map_some] at hat
  obtain ⟨c₀, hc₀, heq⟩ := Option.map_eq_some_iff.mp hat.symm
  have hexpr := congrArg Constant.expr heq
  have hname := congrArg Constant.specName heq
  exact ⟨c₀, hc₀, hexpr, hname⟩

theorem Rewritten.specNames_eq {r r' : Registry} (h : r.Rewritten r') :
    r'.constants.toList.map (·.specName) = r.constants.toList.map (·.specName) :=
  h.apply_eq (m := fun s => s.constants.toList.map (·.specName)) fun s => by
    simp only [Schema.neutral, Array.toList_map, List.map_map]
    rfl

end Registry

/-- Each constant of an adapted registry whose references had been checked has a text, and a value as
before. Where the expression of the constant is portable the text says this value in the language,
and nothing else. -/
theorem reads_adapted {r r₁ r' : Registry} {lang : Language} {A : Arithmetic} (hA : Speaks lang A)
    (hwords : r.known.Words) (hm : r.Meant r.known)
    (hspec : (r.constants.toList.map (·.specName)).Nodup) (hnames : r.names.Nodup)
    (hchecked : r.calculate (·.checkReferences) = (.ok (), r₁)) (hadapt : r₁.adapt lang = .ok r')
    (hapart : r'.NamesApart lang) : ∀ c ∈ r'.constants.toList, ∃ text n,
      c.targetExpr = some text ∧ r'.constantValue c.specName = .ok n ∧
      (r'.Portable lang c.expr →
        ∀ v, Reads lang A (r'.reference? lang) text v ↔ v = A.ofInt n) := by
  have hs : r₁.Settled := r.settled_of_checkReferences hwords hchecked
  have hm₁ := r.meant_of_calculate hm hchecked
  obtain ⟨known, -, rfl⟩ := Registry.yields_of_calculate hchecked
  have hy : Yields (Edit.adapt lang) _ () r' := Registry.yields_of_adapt hadapt
  have hrewritten := Edit.rewritten_of_adapt hs hnames hy
  intro c hc
  obtain ⟨number, hc⟩ := List.mem_iff_getElem?.mp hc
  rw [Array.getElem?_toList] at hc
  obtain ⟨text, htext, hrendered⟩ := Edit.translated_of_adapt hs hnames hy number c hc
  obtain ⟨c₀, hc₀, hexpr, hname⟩ := hrewritten.exists_constant hc
  obtain ⟨n, hknown, hvalue, -⟩ :=
    Registry.exists_value hs hm₁ (Registry.resolveConstant?_specName hspec hc₀)
  obtain ⟨_, hc₁, hn⟩ := hm₁ number n hknown
  cases hc₀.symm.trans hc₁
  refine ⟨text, n, htext, ?_, fun hport v => ?_⟩
  · rw [← hname, ← hvalue]
    exact hrewritten.calculate_eq fun s => s.constantValue_neutral c₀.specName
  · have hreads := Registry.reads_of_rendered hA hs hm₁ hrewritten
      (hrewritten.specNames_eq ▸ hspec) hapart hrendered (hexpr ▸ hn) hport
    constructor
    · intro hv
      exact hv.unique hreads
    · rintro rfl
      exact hreads

/-- A word of two bits with names, and constants of which one follows from its size and another one from
that and from a bit. -/
def shares : Registry :=
  { Schema.initial with
    types := Schema.elementary ++
      [.new "TPMA_SHARE" (.bitfield { underlying := "UINT32", constants := [0, 1] })]
    constants := #[.new "TPMA_SHARE_LOW" "1 << 3" "TPMA_SHARE" "",
      .new "TPMA_SHARE_HIGH" "TPMA_SHARE_LOW << 1" "TPMA_SHARE" "",
      .new "SHARE_BITS" "sizeof(TPMA_SHARE) * 8" "" "",
      .new "HALF" "(SHARE_BITS - TPMA_SHARE_LOW) / 2" "" ""] }

open Target in
/-- The text has a number with a comment, a name with a point and a division without a rest. -/
theorem reads_shares : (shares.known.Words ∧ shares.Meant shares.known ∧
      (shares.constants.toList.map (·.specName)).Nodup ∧ shares.names.Nodup) ∧
    ∃ r₁ r', shares.calculate (·.checkReferences) = (.ok (), r₁) ∧ r₁.adapt .node = .ok r' ∧
      r'.NamesApart .node ∧ r'.Portable .node "(SHARE_BITS - TPMA_SHARE_LOW) / 2" ∧
      ∃ c ∈ r'.constants.toList, c.specName = "HALF" ∧
        c.targetExpr = some "(32 /*SHARE_BITS*/ - TPMA_SHARE.LOW) / 2" ∧
        r'.constantValue "HALF" = .ok 12 ∧
        ∀ v, Reads .node .node (r'.reference? .node) "(32 /*SHARE_BITS*/ - TPMA_SHARE.LOW) / 2" v ↔
          v = Arithmetic.node.ofInt 12 := by
  have hwords : shares.known.Words := Known.words_nil
  have hmeant : shares.Meant shares.known := Schema.meant_nil
  have hspec : (shares.constants.toList.map (·.specName)).Nodup := by decide +kernel
  have hnames : shares.names.Nodup := by decide +kernel
  have hchecked : (shares.calculate (·.checkReferences)).1.toOption = some () := by decide +kernel
  have hadapted : ((shares.calculate (·.checkReferences)).2.adapt .node).toOption.map (fun r =>
      (decide (r.NamesApart .node),
        r.constants[3]?.map fun c => [some c.specName, some c.expr, c.targetExpr],
        (r.constantValue "HALF").toOption, r.valueOf "SHARE_BITS", r.valueOf "TPMA_SHARE_LOW")) =
      some (true, some [some "HALF", some "(SHARE_BITS - TPMA_SHARE_LOW) / 2",
        some "(32 /*SHARE_BITS*/ - TPMA_SHARE.LOW) / 2"], some 12, 32, 8) := by
    decide +kernel
  obtain ⟨r', hadapt, heq⟩ := Option.map_eq_some_iff.mp hadapted
  simp only [Prod.mk.injEq, decide_eq_true_eq, Option.map_eq_some_iff, List.cons.injEq,
    Option.some.injEq] at heq
  obtain ⟨hapart, ⟨c, hc, hname, hexpr, htext, -⟩, hvalue, hbits, hlow⟩ := heq
  have hmem : c ∈ r'.constants.toList := List.mem_of_getElem? (by rwa [Array.getElem?_toList])
  have hport : r'.Portable .node "(SHARE_BITS - TPMA_SHARE_LOW) / 2" := by
    refine ⟨[.openParen, .name "SHARE_BITS", .operator .sub, .name "TPMA_SHARE_LOW", .closeParen,
        .operator .div, .number 2 "2"],
      .binary .div (.binary .sub (.constant "SHARE_BITS") (.constant "TPMA_SHARE_LOW")) (.number 2),
      by decide +kernel, ?_, by simp [padded], ?_⟩
    · have difference : Expression.Derives .shift
          [.name "SHARE_BITS", .operator .sub, .name "TPMA_SHARE_LOW"] _ :=
        .ofAdd (.minus (.ofMul (.ofAtom (.constant _))) (.ofAtom (.constant _)))
      exact .ofAdd (.ofMul (.divided (.ofAtom difference.parens) (.number 2 "2")))
    · simp only [Expression.Tree.Portable, Expression.Tree.value, hbits, hlow]
      have divides : (2 : Int) ∣ 24 := by decide
      exact ⟨⟨trivial, trivial, trivial⟩, trivial, divides⟩
  obtain ⟨_, n, htext', hvalue', hreads⟩ := reads_adapted .node hwords hmeant hspec hnames
    (Prod.ext (ok_of_toOption hchecked) rfl) (ok_of_toOption hadapt) hapart c hmem
  cases htext.symm.trans htext'
  rw [hname, ok_of_toOption hvalue] at hvalue'
  cases hvalue'
  rw [hexpr] at hreads
  exact ⟨⟨hwords, hmeant, hspec, hnames⟩, _, r', Prod.ext (ok_of_toOption hchecked) rfl,
    ok_of_toOption hadapt, hapart, hport, c, hmem, hname, htext, ok_of_toOption hvalue,
    hreads hport⟩

end WireTables
