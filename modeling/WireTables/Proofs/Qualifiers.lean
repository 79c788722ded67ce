import WireTables.Proofs.BackReferences
import WireTables.Proofs.Text.Search
import WireTables.Source.Python

/-!
# Members named alone

Inside the class of a type its members are named alone, so the name of the type is taken off the
values there. This is done on the text: wherever the name stands with a dot behind it, it goes. The
text of a value is made of pieces (`pieces_of_adapt`), of which the references are a type, a dot and a
member each. What should go is the type in front of the type's own members (`insideText`).

That is what goes wherever the name with its dot stands only where such a reference starts
(`QualifiesOwn`), whatever the names are. Where names hold no dots this can be said of the references
(`valueText_iff`): the name of the type must not be the end of what stands in front of the dot of
another type's member. It is when one type is called like the end of another one, and then a part of
that other name is lost.
-/

namespace WireTables

open Target (listedConstants literal note operatorText)

/-! ## Pieces of a text -/

/-- A piece of the text of a value: a constant behind the type that it belongs to, or anything
else. -/
inductive Piece where
  | verbatim (text : String)
  /-- A constant that belongs to `owner`, a type that is called `type` in the language. -/
  | reference (owner type member : String)
  deriving DecidableEq, Repr

namespace Piece

/-- What a piece is in a text. -/
def text : Piece → String
  | verbatim text => text
  | reference _ type member => type ++ "." ++ member

/-- What a piece is inside the class of the type `own`. -/
def insideText (own : String) : Piece → String
  | verbatim text => text
  | reference owner type member => if owner = own then member else type ++ "." ++ member

/-- Dots stand between types and members only. -/
def Undotted : Piece → Prop
  | verbatim text => '.' ∉ text.toList
  | reference _ type member => '.' ∉ type.toList ∧ '.' ∉ member.toList

instance : DecidablePred Undotted
  | verbatim _ => inferInstanceAs (Decidable (_ ∉ _))
  | reference _ _ _ => inferInstanceAs (Decidable (_ ∧ _))

end Piece

/-- The text of some pieces. -/
def textOf (ps : List Piece) : String :=
  String.join (ps.map Piece.text)

/-- The text of some pieces inside the class of the type `own`. -/
def insideText (own : String) (ps : List Piece) : String :=
  String.join (ps.map (Piece.insideText own))

/-- The name of a type with a dot behind it stands only where a reference to one of its own constants
starts. -/
def QualifiesOwn (t : TypeEntry) (ps : List Piece) : Prop :=
  ∀ before after : List Char, (textOf ps).toList = before ++ (t.name ++ ".").toList ++ after →
    ∃ pre type member post, ps = pre ++ .reference t.specName type member :: post ∧
      (textOf pre).toList = before

/-- After `front`, the name of a type is not the end of what stands in front of the dot of another
type's member. -/
def EndsNoOther (t : TypeEntry) (front : List Char) (ps : List Piece) : Prop :=
  ∀ pre owner type member post, ps = pre ++ .reference owner type member :: post →
    owner ≠ t.specName → ¬ t.name.toList <:+ front ++ (textOf pre ++ type).toList

section Pieces

variable {t : TypeEntry} {p : Piece} {ps : List Piece}

theorem toList_textOf_cons : (textOf (p :: ps)).toList = p.text.toList ++ (textOf ps).toList := by
  simp [textOf]

theorem toList_insideText_cons {own : String} : (insideText own (p :: ps)).toList =
    (p.insideText own).toList ++ (insideText own ps).toList := by
  simp [insideText]

end Pieces

/-! ## Taking the name of a type off a text -/

namespace QualifiesOwn

variable {t : TypeEntry} {p : Piece} {ps : List Piece}

/-- Inside a piece the name stands at the start of an own reference only. -/
theorem start (h : QualifiesOwn t (p :: ps)) {k : Nat} (hk : k < p.text.toList.length)
    (hp : (t.name ++ ".").toList <+: (p.text.toList ++ (textOf ps).toList).drop k) :
    k = 0 ∧ ∃ type member, p = .reference t.specName type member := by
  obtain ⟨after, hafter⟩ := hp
  obtain ⟨pre, type, member, post, hps, hpre⟩ :=
    h ((p.text.toList ++ (textOf ps).toList).take k) after (by
      rw [toList_textOf_cons, List.append_assoc, hafter, List.take_append_drop])
  have hlength : (textOf pre).toList.length = k := by
    rw [hpre, List.length_take, List.length_append]
    omega
  cases pre with
  | nil => exact ⟨hlength.symm, type, member, (List.cons.inj hps).1⟩
  | cons q pre =>
    rw [toList_textOf_cons, (List.cons.inj hps).1.symm, List.length_append] at hlength
    omega

theorem tail (h : QualifiesOwn t (p :: ps)) : QualifiesOwn t ps := by
  intro before after hsplit
  obtain ⟨pre, type, member, post, hps, hpre⟩ := h (p.text.toList ++ before) after (by
    rw [toList_textOf_cons, hsplit]
    simp only [List.append_assoc])
  cases pre with
  | nil =>
    -- a reference is not without characters
    obtain ⟨rfl, -⟩ := List.cons.inj hps
    have hlength := congrArg List.length hpre
    simp [textOf, Piece.text] at hlength
  | cons q pre =>
    obtain ⟨rfl, hrest⟩ := List.cons.inj hps
    rw [toList_textOf_cons] at hpre
    exact ⟨pre, type, member, post, hrest, List.append_cancel_left hpre⟩

/-- Where the name stands at own references only, it is taken off those and nothing else. -/
theorem removeAll_eq (h : QualifiesOwn t ps)
    (hown : ∀ type member, .reference t.specName type member ∈ ps → type = t.name) :
    Text.removeAll (t.name ++ ".") (textOf ps) = insideText t.specName ps := by
  suffices hchars : Text.replaceChars (t.name ++ ".").toList [] 0 (textOf ps).toList =
      (insideText t.specName ps).toList by
    rw [Text.removeAll, hchars, String.ofList_toList]
  induction ps with
  | nil => rfl
  | cons p ps ih =>
    have hrest := ih h.tail fun type member hmem => hown type member (List.mem_cons_of_mem _ hmem)
    rw [toList_textOf_cons, toList_insideText_cons]
    by_cases hp : ∃ type member, p = .reference t.specName type member
    · obtain ⟨type, member, rfl⟩ := hp
      obtain rfl := hown type member List.mem_cons_self
      have hmember : ∀ k < member.toList.length, ¬ (t.name ++ ".").toList <+:
          (member.toList ++ (textOf ps).toList).drop k := by
        intro k hk hfound
        have htext : (Piece.reference t.specName t.name member).text.toList =
            (t.name ++ ".").toList ++ member.toList := String.toList_append
        have hstart := h.start (k := (t.name ++ ".").toList.length + k) (by
          rw [htext, List.length_append]
          omega) (by
          rwa [htext, List.append_assoc, List.drop_length_add_append])
        simp at hstart
      have hhere : (Piece.reference t.specName t.name member).insideText t.specName = member :=
        if_pos rfl
      rw [hhere, Piece.text, String.toList_append (s := t.name ++ "."), List.append_assoc,
        Text.replaceChars_here (by simp), Text.replaceChars_clear hmember, hrest]
    · have hsame : p.insideText t.specName = p.text := by
        cases p with
        | verbatim text => rfl
        | reference owner type member =>
          exact if_neg fun howner : owner = _ => hp ⟨type, member, by rw [howner]⟩
      rw [Text.replaceChars_clear fun k hk hfound => hp (h.start hk hfound).2, hrest, hsame]

end QualifiesOwn

section Undotted

variable {t : TypeEntry} {front : List Char} {ps : List Piece} {text owner type member : String}

theorem append_reference {rest : List Char} :
    front ++ ((Piece.reference owner type member).text.toList ++ rest) =
      front ++ type.toList ++ '.' :: (member.toList ++ rest) := by
  simp [Piece.text]

theorem endsNoOther_verbatim : EndsNoOther t front (.verbatim text :: ps) ↔
    EndsNoOther t (front ++ text.toList) ps := by
  have htext : ∀ (pre : List Piece) (type : String),
      front ++ (textOf (.verbatim text :: pre) ++ type).toList =
        front ++ text.toList ++ (textOf pre ++ type).toList := by
    intro pre type
    rw [String.toList_append, toList_textOf_cons, String.toList_append]
    simp only [Piece.text, List.append_assoc]
  constructor
  · rintro h pre owner type member post rfl howner
    have := h (.verbatim text :: pre) owner type member post rfl howner
    rwa [htext] at this
  · intro h pre owner type member post hps howner
    cases pre with
    | nil => cases hps
    | cons p pre =>
      obtain ⟨rfl, rfl⟩ := List.cons.inj hps
      rw [htext]
      exact h pre owner type member post rfl howner

/-- What stands in front of a dot does not matter behind it. -/
theorem endsNoOther_reference (hname : '.' ∉ t.name.toList) :
    EndsNoOther t front (.reference owner type member :: ps) ↔
      (owner ≠ t.specName → ¬ t.name.toList <:+ front ++ type.toList) ∧
        EndsNoOther t member.toList ps := by
  have htext : ∀ (pre : List Piece) (other : String),
      front ++ (textOf (.reference owner type member :: pre) ++ other).toList =
        (front ++ type.toList) ++ '.' :: (member.toList ++ (textOf pre ++ other).toList) := by
    intro pre other
    rw [String.toList_append, toList_textOf_cons, String.toList_append, List.append_assoc,
      append_reference]
  constructor
  · intro h
    refine ⟨fun howner => ?_, ?_⟩
    · simpa [textOf] using h [] owner type member ps rfl howner
    · rintro pre owner' type' member' post rfl howner
      have := h (.reference owner type member :: pre) owner' type' member' post rfl howner
      rwa [htext, Text.suffix_append_marked hname] at this
  · rintro ⟨hhere, hrest⟩ pre owner' type' member' post hps howner
    cases pre with
    | nil =>
      obtain ⟨heq, -⟩ := List.cons.inj hps
      cases heq
      simpa [textOf] using hhere howner
    | cons p pre =>
      obtain ⟨rfl, rfl⟩ := List.cons.inj hps
      rw [htext, Text.suffix_append_marked hname]
      exact hrest pre owner' type' member' post rfl howner

variable (hname : '.' ∉ t.name.toList)

include hname

/-- Behind own names dots go, and behind others they stay unless these end with the name. -/
theorem replaceChars_textOf (hfront : '.' ∉ front) (hps : ∀ p ∈ ps, p.Undotted)
    (hown : ∀ type member, .reference t.specName type member ∈ ps → type = t.name)
    (h : EndsNoOther t front ps) :
    Text.replaceChars (t.name.toList ++ ['.']) [] 0 (front ++ (textOf ps).toList) =
      front ++ (insideText t.specName ps).toList := by
  induction ps generalizing front with
  | nil =>
    rw [show (textOf []).toList = [] from rfl, show (insideText t.specName []).toList = [] from rfl,
      List.append_nil, Text.replaceChars_unmarked hfront]
  | cons p ps ih =>
    have hp := hps p List.mem_cons_self
    have hps' := fun q hq => hps q (List.mem_cons_of_mem p hq)
    have hown' := fun type member hmem => hown type member (List.mem_cons_of_mem p hmem)
    rw [toList_textOf_cons, toList_insideText_cons]
    cases p with
    | verbatim text =>
      have hfront' : '.' ∉ front ++ text.toList := List.not_mem_append hfront hp
      have := ih hfront' hps' hown' (endsNoOther_verbatim.mp h)
      simpa only [Piece.text, Piece.insideText, List.append_assoc] using this
    | reference owner type member =>
      obtain ⟨hhere, hrest⟩ := (endsNoOther_reference hname).mp h
      have hrest := ih hp.2 hps' hown' hrest
      rw [append_reference]
      by_cases howner : owner = t.specName
      · subst howner
        obtain rfl := hown type member List.mem_cons_self
        rw [Text.replaceChars_marked hname hfront, hrest]
        simp [Piece.insideText]
      · have hseg : '.' ∉ front ++ type.toList := List.not_mem_append hfront hp.1
        rw [Text.replaceChars_kept hname hseg (hhere howner), hrest]
        simp [Piece.insideText, howner]

/-- No more dots stay than stand behind names of other types, and if that many stay, none of these
names ends with the name. -/
theorem count_replaceChars (hfront : '.' ∉ front) (hps : ∀ p ∈ ps, p.Undotted)
    (hown : ∀ type member, .reference t.specName type member ∈ ps → type = t.name) :
    (Text.replaceChars (t.name.toList ++ ['.']) [] 0 (front ++ (textOf ps).toList)).count '.' ≤
        (insideText t.specName ps).toList.count '.' ∧
      ((Text.replaceChars (t.name.toList ++ ['.']) [] 0 (front ++ (textOf ps).toList)).count '.' =
        (insideText t.specName ps).toList.count '.' → EndsNoOther t front ps) := by
  induction ps generalizing front with
  | nil =>
    have htext : front ++ (textOf []).toList = front := List.append_nil front
    rw [htext, Text.replaceChars_unmarked hfront, List.count_eq_zero.mpr hfront]
    refine ⟨Nat.zero_le _, fun _ pre owner type member post hnil => ?_⟩
    cases pre <;> cases hnil
  | cons p ps ih =>
    have hp := hps p List.mem_cons_self
    have hps' := fun q hq => hps q (List.mem_cons_of_mem p hq)
    have hown' := fun type member hmem => hown type member (List.mem_cons_of_mem p hmem)
    have hcount : (insideText t.specName (p :: ps)).toList.count '.' =
        (p.insideText t.specName).toList.count '.' +
          (insideText t.specName ps).toList.count '.' := by
      rw [toList_insideText_cons, List.count_append]
    rw [toList_textOf_cons, hcount]
    cases p with
    | verbatim text =>
      have hfront' : '.' ∉ front ++ text.toList := List.not_mem_append hfront hp
      have hnone : (Piece.insideText t.specName (.verbatim text)).toList.count '.' = 0 :=
        List.count_eq_zero.mpr hp
      rw [hnone, Nat.zero_add, endsNoOther_verbatim, ← List.append_assoc]
      exact ih hfront' hps' hown'
    | reference owner type member =>
      obtain ⟨hle, hends⟩ := ih hp.2 hps' hown'
      have hseg : '.' ∉ front ++ type.toList := List.not_mem_append hfront hp.1
      have hdots : (Piece.insideText t.specName (.reference owner type member)).toList.count '.' =
          if owner = t.specName then 0 else 1 := by
        simp only [Piece.insideText]
        split <;> simp [List.count_eq_zero.mpr hp.1, List.count_eq_zero.mpr hp.2]
      rw [append_reference, hdots, endsNoOther_reference hname]
      by_cases hend : t.name.toList <:+ front ++ type.toList
      · -- the name goes here, and as a name of its own type it should
        obtain ⟨before, hbefore⟩ := hend
        have hfree : '.' ∉ before := fun hmem => hseg (hbefore ▸ List.mem_append_left _ hmem)
        rw [← hbefore, Text.replaceChars_marked hname hfree, List.count_append,
          List.count_eq_zero.mpr hfree, Nat.zero_add]
        split
        · next howner => exact ⟨by omega, fun heq => ⟨fun h => (h howner).elim, hends (by omega)⟩⟩
        · exact ⟨by omega, fun heq => by omega⟩
      · have howner : owner ≠ t.specName := by
          rintro rfl
          obtain rfl := hown type member List.mem_cons_self
          exact hend (List.suffix_append front _)
        rw [Text.replaceChars_kept hname hseg hend, List.count_append, List.count_cons_self,
          List.count_eq_zero.mpr hseg, if_neg howner]
        exact ⟨by omega, fun heq => ⟨fun _ => hend, hends (by omega)⟩⟩

/-- Where dots stand behind types only, the name of a type is taken off its own members and nothing
else just when it is the end of no other name. -/
theorem removeAll_eq_iff (hps : ∀ p ∈ ps, p.Undotted)
    (hown : ∀ type member, .reference t.specName type member ∈ ps → type = t.name) :
    Text.removeAll (t.name ++ ".") (textOf ps) = insideText t.specName ps ↔
      EndsNoOther t [] ps := by
  have hchars : Text.removeAll (t.name ++ ".") (textOf ps) = insideText t.specName ps ↔
      Text.replaceChars (t.name.toList ++ ['.']) [] 0 ([] ++ (textOf ps).toList) =
        [] ++ (insideText t.specName ps).toList := by
    rw [Text.removeAll, String.toList_append, ← String.toList_inj, String.toList_ofList]
    rfl
  rw [hchars]
  exact ⟨fun h => (count_replaceChars hname List.not_mem_nil hps hown).2 (congrArg _ h),
    replaceChars_textOf hname List.not_mem_nil hps hown⟩

end Undotted

/-! ## The pieces of values -/

/-- What is put into the text of a value for a token: for a constant that has a type, either the
constant behind its type or its value. -/
inductive Puts (r : Registry) : Token → Piece → Prop
  | number {n text} : Puts r (.number n text) (.verbatim text)
  | reference {name d c t} (hd : r.resolveConstant? name = some d) (hc : r.constants[d]? = some c)
    (ht : r.lookup? c.owner = some t) : Puts r (.name name) (.reference c.owner t.name c.name)
  | value {name n} (hn : r.constantValue name = .ok n) : Puts r (.name name) (.verbatim (literal n))
  | size {type n} (hn : r.wireSize type = .ok n) : Puts r (.sizeOf type) (.verbatim (toString n))
  | operator {op} : Puts r (.operator op) (.verbatim (operatorText .py op))
  | openParen : Puts r .openParen (.verbatim "(")
  | closeParen : Puts r .closeParen (.verbatim ")")

/-- The text of the value of a constant is made of these pieces, one for each token. -/
def MadeOf (r : Registry) (c : Constant) (ps : List Piece) : Prop :=
  ∃ ts, Expression.tokens c.expr = .ok ts ∧ List.Forall₂ (Puts r) ts ps ∧
    c.targetExpr = some (textOf ps)

/-- Every piece is put for some token. -/
theorem exists_puts_of_mem {r : Registry} {ts : List Token} {ps : List Piece} {p : Piece}
    (h : List.Forall₂ (Puts r) ts ps) (hp : p ∈ ps) : ∃ t ∈ ts, Puts r t p := by
  induction h with
  | nil => cases hp
  | cons hput _ ih =>
    rcases List.mem_cons.mp hp with rfl | hmem
    · exact ⟨_, List.mem_cons_self, hput⟩
    · obtain ⟨t, ht, hput⟩ := ih hmem
      exact ⟨t, List.mem_cons_of_mem _ ht, hput⟩

namespace Target

variable {r r' : Registry} {processed : List Nat} {out out' : Rendering} {known known' : Known}

theorem puts_of_renderToken (h : Registry.Onward { r with known := known' } r') {t : Token}
    (hy : Yields (renderToken r.toSchema .py processed out t) known out' known') :
    ∃ p, out'.text = out.text ++ p.text ∧ Puts r' t p := by
  cases t with
  | name name =>
    obtain ⟨d, c, hd, -, hc, ⟨t, ht, -, rfl⟩ | ⟨n, hn, rfl, -⟩⟩ := exists_of_renderConstant h hy
    · exact ⟨_, rfl, .reference hd hc ht⟩
    · -- values stand without a remark in this language
      exact ⟨.verbatim (literal n), String.append_empty, .value hn⟩
  | sizeOf type =>
    obtain ⟨n, k, hn, hy⟩ := yields_bind.mp hy
    obtain ⟨rfl, rfl⟩ := yields_pure.mp hy
    exact ⟨_, rfl, .size (h.wireSize_eq_ok hn)⟩
  | number n text =>
    obtain ⟨rfl, -⟩ := yields_pure.mp hy
    exact ⟨_, rfl, .number⟩
  | operator op =>
    obtain ⟨rfl, -⟩ := yields_pure.mp hy
    exact ⟨_, rfl, .operator⟩
  | openParen =>
    obtain ⟨rfl, -⟩ := yields_pure.mp hy
    exact ⟨_, rfl, .openParen⟩
  | closeParen =>
    obtain ⟨rfl, -⟩ := yields_pure.mp hy
    exact ⟨_, rfl, .closeParen⟩

/-- One piece is put for each token. -/
theorem puts_of_foldlM (h : Registry.Onward { r with known := known' } r') {ts : List Token}
    (hy : Yields (ts.foldlM (renderToken r.toSchema .py processed) out) known out' known') :
    ∃ ps, out'.text = out.text ++ textOf ps ∧ List.Forall₂ (Puts r') ts ps := by
  induction ts generalizing known out with
  | nil =>
    obtain ⟨rfl, -⟩ := yields_pure.mp hy
    exact ⟨[], String.append_empty.symm, .nil⟩
  | cons t ts ih =>
    rw [List.foldlM_cons] at hy
    obtain ⟨out₁, known₁, hstep, hrest⟩ := yields_bind.mp hy
    obtain ⟨p, hp, hputs⟩ := puts_of_renderToken (h.before (later_of_foldlM hrest)) hstep
    obtain ⟨ps, hps, hall⟩ := ih hrest
    refine ⟨p :: ps, ?_, .cons hputs hall⟩
    rw [hps, hp, String.append_assoc]
    exact congrArg _ (by simp [textOf])

end Target

namespace Edit

/-- Adapting a registry for Python writes the value of every constant piece by piece. -/
theorem pieces_of_adapt {r r' : Registry} (hnames : r.names.Nodup) (h : r.adapt .py = .ok r')
    {i : Nat} {c : Constant} (hc : r'.constants[i]? = some c) : ∃ ps, MadeOf r' c ps := by
  obtain ⟨r₁, r₂, -, -, hvalues, hlater, hsame⟩ := exists_of_adapt hnames h
  rw [hsame] at hc
  simp only [renderValues, yields_bind, yields_schema, yields_pure] at hvalues
  obtain ⟨_, r₁, ⟨rfl, rfl⟩, _, r₂, hfold, -, rfl⟩ := hvalues
  have honward := (onward_of_foldlM hfold).1
  obtain ⟨hlt, -⟩ := Array.getElem?_eq_some_iff.mp hc
  have hmem := mem_constantOrder (Array.getElem?_eq_getElem (honward.size_eq ▸ hlt))
  obtain ⟨before, after, horder, hlast⟩ := Schema.exists_last_of_mem hmem
  rw [horder] at hfold
  obtain ⟨r₀, processed, text, known, -, hrender, hwritten, htarget, -⟩ :=
    exists_render_of_foldlM hfold hlast hc
  obtain ⟨ts, k, hts, htext⟩ := yields_bind.mp hrender
  obtain ⟨htokens, rfl⟩ := Schema.yields_faulty.mp hts
  obtain ⟨ps, hps, hall⟩ := Target.puts_of_foldlM (hwritten.trans hlater) htext
  exact ⟨ps, ts, htokens, hall, htarget.trans (congrArg some (by simpa using hps))⟩

end Edit

/-! ## Names without dots -/

/-- No name in the language has a dot in it. -/
def Schema.Undotted (s : Schema) : Prop :=
  (∀ t ∈ s.types, '.' ∉ t.name.toList) ∧ ∀ c ∈ s.constants, '.' ∉ c.name.toList

instance (s : Schema) : Decidable s.Undotted :=
  inferInstanceAs (Decidable (_ ∧ _))

section Numbers

theorem undotted_of_spelled {n : Int} {text : String} (h : (Token.number n text).Spelled) :
    '.' ∉ text.toList :=
  fun hmem => absurd (Expression.isIdentifierChar_of_spelled h _ hmem) (by decide)

theorem undotted_of_literal (n : Int) : '.' ∉ (literal n).toList := by
  unfold literal
  split
  · exact undotted_of_spelled (Expression.spelled_hexUpper n.toNat)
  · cases n with
    | ofNat m => exact undotted_of_spelled (Expression.spelled_toString m)
    | negSucc m =>
      have htext : toString (Int.negSucc m) = "-" ++ toString (m + 1) := rfl
      rw [htext, String.toList_append, List.mem_append, not_or]
      exact ⟨by decide, undotted_of_spelled (Expression.spelled_toString (m + 1))⟩

end Numbers

/-- Dots do not come in with numbers and operators. -/
theorem undotted_of_puts {r : Registry} (hr : r.Undotted) {t : Token} {p : Piece} (ht : t.Spelled)
    (h : Puts r t p) : p.Undotted := by
  cases h with
  | number => exact undotted_of_spelled ht
  | @reference name d c t hd hc hlookup =>
    exact ⟨hr.1 t (Schema.mem_of_lookup? hlookup).1, hr.2 c (Array.mem_of_getElem? hc)⟩
  | value => exact undotted_of_literal _
  | size => exact undotted_of_spelled (Expression.spelled_toString _)
  | @operator op => cases op <;> decide
  | openParen | closeParen => decide

/-- In the class of a type the name of the type is taken off the references to its own constants, and
nothing else is changed, if it stands with a dot behind it only where one of these starts. Where names
have no dots in them, this is so if and only if the name is not the end of what stands in front of the
dot of another type's constant. -/
theorem valueText_iff {r r' : Registry} (hnames : r.names.Nodup) (h : r.adapt .py = .ok r') :
    ∀ t ∈ r'.types, ∀ i ∈ listedConstants t, ∀ c, r'.constants[i]? = some c →
      (∃ ps, MadeOf r' c ps) ∧ ∀ ps, MadeOf r' c ps →
        (QualifiesOwn t ps → Source.Python.valueText t.name c = insideText t.specName ps) ∧
        (r'.Undotted → (Source.Python.valueText t.name c = insideText t.specName ps ↔
          EndsNoOther t [] ps)) := by
  intro t ht i hi c hc
  refine ⟨Edit.pieces_of_adapt hnames h hc, fun ps ⟨ts, hts, hputs, htarget⟩ => ?_⟩
  have hnames' : r'.names.Nodup := by
    rwa [← Schema.names_neutral, Edit.neutral_of_adapt hnames h, Schema.names_neutral]
  have hown : ∀ type member, .reference t.specName type member ∈ ps → type = t.name := by
    intro type member hmem
    obtain ⟨token, -, hput⟩ := exists_puts_of_mem hputs hmem
    generalize hp : Piece.reference t.specName type member = p at hput
    cases hput with
    | @reference name d c u hd hc hu =>
      obtain ⟨howner, rfl, -⟩ := Piece.reference.inj hp
      rw [← howner, Schema.lookup?_of_mem hnames' ht] at hu
      cases hu
      rfl
    | number | value | size | operator | openParen | closeParen => cases hp
  have hvalue : Source.Python.valueText t.name c = Text.removeAll (t.name ++ ".") (textOf ps) := by
    rw [Source.Python.valueText, htarget, Option.getD_some]
  rw [hvalue]
  refine ⟨fun hq => hq.removeAll_eq hown, fun hundotted => ?_⟩
  refine removeAll_eq_iff (hundotted.1 t ht) (fun p hmem => ?_) hown
  obtain ⟨token, htoken, hput⟩ := exists_puts_of_mem hputs hmem
  exact undotted_of_puts hundotted (Expression.spelled_of_tokens hts token htoken) hput

/-- Two enumerations of which one is called like the end of the other one. -/
def colorRegistry : Registry :=
  { Schema.initial with
    types := Schema.elementary ++
      [.new "TPM_COLOR" (.enum { underlying := "UINT8", members := [0] }),
        .new "COLOR" (.enum { underlying := "UINT8", members := [1, 2] })]
    constants := #[.new "TPM_COLOR_RED" "1" "TPM_COLOR" "",
      .new "COLOR_LIGHT" "2" "COLOR" "",
      .new "COLOR_DARK" "COLOR_LIGHT + TPM_COLOR_RED" "COLOR" ""] }

theorem colorRegistry_facts : colorRegistry.names.Nodup ∧
    (colorRegistry.adapt .py).toOption.map (decide ·.Undotted) = some true ∧
    (colorRegistry.adapt .py).toOption.map (fun r =>
      ((r.lookup? "COLOR").map (fun t => (t.name, listedConstants t)),
        (r.lookup? "TPM_COLOR").map (·.name))) =
      some (some ("COLOR", [1, 2]), some "TPM_COLOR") ∧
    (colorRegistry.adapt .py).toOption.map (fun r =>
      (r.resolveConstant? "COLOR_LIGHT", r.resolveConstant? "TPM_COLOR_RED")) =
      some (some 1, some 0) ∧
    (colorRegistry.adapt .py).toOption.map (fun r => r.constants.map fun c =>
      ((c.owner, c.name), (c.expr, c.targetExpr))) =
      some #[(("TPM_COLOR", "RED"), ("1", some "1")), (("COLOR", "LIGHT"), ("2", some "2")),
        (("COLOR", "DARK"),
          ("COLOR_LIGHT + TPM_COLOR_RED", some "COLOR.LIGHT + TPM_COLOR.RED"))] := by
  decide +kernel

/-- In the class `COLOR` the reference to a constant of `TPM_COLOR` loses the end of its type. -/
theorem colors_lose_end :
    colorRegistry.names.Nodup ∧ ∃ r' t c ps, colorRegistry.adapt .py = .ok r' ∧
      r'.Undotted ∧ t ∈ r'.types ∧ 2 ∈ listedConstants t ∧ r'.constants[2]? = some c ∧
      MadeOf r' c ps ∧ insideText t.specName ps = "LIGHT + TPM_COLOR.RED" ∧
      Source.Python.valueText t.name c = "LIGHT + TPM_RED" ∧ ¬ EndsNoOther t [] ps := by
  obtain ⟨hnames, hundotted, htypes, hresolved, hconstants⟩ := colorRegistry_facts
  obtain ⟨r', hadapt, hnone⟩ := Option.map_eq_some_iff.mp hundotted
  simp only [hadapt, Option.map_some, Option.some.injEq, Prod.mk.injEq] at htypes hresolved
  rw [hadapt, Option.map_some, Option.some.injEq] at hconstants
  obtain ⟨hcolor, hother⟩ := htypes
  obtain ⟨t, ht, hlists⟩ := Option.map_eq_some_iff.mp hcolor
  obtain ⟨u, hu, huname⟩ := Option.map_eq_some_iff.mp hother
  obtain ⟨hname, hlist⟩ := Prod.mk.inj hlists
  obtain ⟨hmem, hspec⟩ := Schema.mem_of_lookup? ht
  have constant : ∀ (i : Nat) (owner name expr : String) (target : Option String),
      (r'.constants.map fun c => ((c.owner, c.name), (c.expr, c.targetExpr)))[i]? =
        some ((owner, name), (expr, target)) →
      ∃ c, r'.constants[i]? = some c ∧ c.owner = owner ∧ c.name = name ∧ c.expr = expr ∧
        c.targetExpr = target := by
    intro i owner name expr target hat
    rw [Array.getElem?_map] at hat
    obtain ⟨c, hc, heq⟩ := Option.map_eq_some_iff.mp hat
    simp only [Prod.mk.injEq] at heq
    exact ⟨c, hc, heq.1.1, heq.1.2, heq.2.1, heq.2.2⟩
  obtain ⟨red, hred, hredOwner, hredName, -⟩ := constant 0 _ _ _ _ (by rw [hconstants]; rfl)
  obtain ⟨light, hlight, hlightOwner, hlightName, -⟩ :=
    constant 1 _ _ _ _ (by rw [hconstants]; rfl)
  obtain ⟨c, hc, -, -, hexpr, htarget⟩ := constant 2 _ _ _ _ (by rw [hconstants]; rfl)
  have hlightPut := Puts.reference hresolved.1 hlight (hlightOwner ▸ ht)
  have hredPut := Puts.reference hresolved.2 hred (hredOwner ▸ hu)
  rw [hlightOwner, hlightName, hname] at hlightPut
  rw [hredOwner, hredName, huname] at hredPut
  have hmade : MadeOf r' c [.reference "COLOR" "COLOR" "LIGHT", .verbatim " + ",
      .reference "TPM_COLOR" "TPM_COLOR" "RED"] :=
    ⟨[.name "COLOR_LIGHT", .operator .add, .name "TPM_COLOR_RED"], by rw [hexpr]; decide +kernel,
      .cons hlightPut (.cons .operator (.cons hredPut .nil)), htarget⟩
  have hinside : insideText t.specName [.reference "COLOR" "COLOR" "LIGHT", .verbatim " + ",
      .reference "TPM_COLOR" "TPM_COLOR" "RED"] = "LIGHT + TPM_COLOR.RED" := by
    rw [hspec]
    decide +kernel
  have hvalue : Source.Python.valueText t.name c = "LIGHT + TPM_RED" := by
    rw [Source.Python.valueText, htarget, hname, Option.getD_some]
    decide +kernel
  have hlisted : 2 ∈ listedConstants t := hlist ▸ List.mem_cons_of_mem _ List.mem_cons_self
  obtain ⟨-, hall⟩ := valueText_iff hnames (ok_of_toOption hadapt) t hmem 2 hlisted c hc
  refine ⟨hnames, r', t, c, _, ok_of_toOption hadapt, by simpa using hnone, hmem, hlisted, hc, hmade,
    hinside, hvalue, fun hends => ?_⟩
  have heq := ((hall _ hmade).2 (by simpa using hnone)).mpr hends
  rw [hvalue, hinside] at heq
  exact absurd heq (by decide)

end WireTables
