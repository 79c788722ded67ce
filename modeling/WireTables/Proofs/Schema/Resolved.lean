import WireTables.Proofs.Schema.Failures

/-!
# What checked references resolve

Checking the references of a schema looks at the types one after the other, while the values of
constants are still being found. What it finds stays found (`answer_settles`), so in the end all types
that are referred to are registered, and all array sizes have values (`resolves_of_checkReferences`).

The texts in the domains of fields are not looked at. Where they have values as well, sizes fail
neither on a constant that does not exist nor on a malformed expression (`answer_resolved`).
-/

namespace WireTables

/-- The names of the types that a type refers to. -/
def TypeEntry.references (t : TypeEntry) : List String :=
  match t.kind with
  | .value _ => []
  | .aliasOf a => [a.base]
  | .enum e => [e.underlying]
  | .bitfield b => b.underlying :: b.members.filterMap (·.enumType)
  | .record r => r.base.toList ++ r.fields.map (·.typeName)
  | .union u => u.members.map (·.typeName)

/-- The array sizes of the fields or members of a type. -/
def TypeEntry.arraySizes (t : TypeEntry) : List String :=
  match t.kind with
  | .record r => r.fields.filterMap (·.arraySize)
  | .union u => u.members.filterMap (·.arraySize)
  | _ => []

/-- The names of the constants that select the members of a union. -/
def TypeEntry.selectors (t : TypeEntry) : List String :=
  match t.kind with
  | .union u => u.members.map (·.selector)
  | _ => []

/-- The text in the domain of a field whose value is asked for when the field is written or read: the
value of a constant field, and the largest number of elements of an array. -/
def Field.domainText? (f : Field) : Option String :=
  match f.marshal with
  | .constant => f.domain.onlyValue?
  | .fixedArray | .countedArray | .restArray | .selectedArray => f.domain.maximum?
  | _ => none

/-- The texts of this kind in a type. -/
def TypeEntry.domainTexts (t : TypeEntry) : List String :=
  match t.kind with
  | .record r => r.fields.filterMap Field.domainText?
  | _ => []

/-- The failure says that a constant does not exist or that an expression is malformed. -/
def Error.Unresolved : Error → Prop
  | .unresolvedConstant _ | .expression _ _ => True
  | _ => False

theorem Error.Structural.resolved {e : Error} (h : e.Structural) : ¬ e.Unresolved := by
  cases e <;> first | exact id | exact h.elim

theorem Query.same_self (q : Query) : q.Same q := by
  cases q <;> rfl

namespace Schema

variable {s : Schema} {known : Known}

/-- The text has a value. -/
def HasValue (s : Schema) (known : Known) (text : String) : Prop :=
  ∃ n, Yields (s.evaluate text) known n known

/-- What the type refers to is registered, and its array sizes have values. -/
structure Resolves (s : Schema) (known : Known) (t : TypeEntry) : Prop where
  references : ∀ name ∈ t.references, name ∈ s.names
  arraySizes : ∀ text ∈ t.arraySizes, s.HasValue known text
  selectors : ∀ name ∈ t.selectors, (s.resolveConstant? name).isSome = true

/-! ## What is found stays found -/

section Settling

variable (hc : s.Complete known) (hm : s.Meant known)

include hc hm

/-- What is answered while values are still being found is the answer when all of them are known. -/
theorem answer_settles : ∀ (nesting : Nat) (q : Query),
    Keeps s.Meant (s.answer nesting q) (AnswerIn s known nesting q)
  | 0, _ => Keeps.throw
  | nesting + 1, .constant name depth =>
    (constantStep_denotes (answer_denotes nesting) name depth).weaken fun n hn => by
      cases hn.denoted with
      | @constant _ _ number c _ hr hc' he =>
        obtain ⟨value, hvalue⟩ := Option.isSome_iff_exists.mp (hc name number hr)
        obtain ⟨c', hc'', he'⟩ := hm number value hvalue
        cases hc'.symm.trans hc''
        have hsame : n = value := he.agree (fun _ _ _ _ hq h h' => h.unique hq h') he'
        exact .constant hr (hsame ▸ hvalue)
  | nesting + 1, .size type depth => sizeStep_gives (answer_settles nesting) known type depth

theorem evaluate_settles (text : String) :
    Keeps s.Meant (s.evaluate text) fun _ => s.HasValue known text :=
  (evaluateWith_gives (answer_settles hc hm s.nesting) text 0).weaken fun n hn =>
    ⟨n, (yields_evaluate hc).mpr ⟨hn, rfl⟩⟩

omit hc hm in
theorem checkType_finds {P : Known → Prop} (name referrer : String) :
    Keeps P (s.checkType name referrer) fun _ => name ∈ s.names := by
  refine (Keeps.ofExcept (Q := fun _ => name ∈ s.names) fun t ht => ?_).bind fun _ h => Keeps.pure h
  obtain ⟨hmem, rfl⟩ := mem_of_lookup? (require_eq_ok.mp ht)
  exact List.mem_map_of_mem hmem

theorem checkExpression_finds (text? : Option String) :
    Keeps s.Meant (s.checkExpression text?) fun _ =>
      ∀ text, text? = some text → s.HasValue known text := by
  cases text? with
  | none => exact Keeps.pure nofun
  | some text =>
    refine (evaluate_settles hc hm text).bind fun _ h => Keeps.pure ?_
    rintro _ ⟨⟩
    exact h

theorem checkField_finds (owner : String) (r : Record) (f : Field) :
    Keeps s.Meant (s.checkField owner r f) fun _ =>
      f.typeName ∈ s.names ∧ ∀ text, f.arraySize = some text → s.HasValue known text := by
  refine (checkType_finds _ _).bind fun _ htype =>
    (checkExpression_finds hc hm f.arraySize).bind fun _ hsize => ?_
  split
  · split
    · exact Keeps.throw
    · exact Keeps.pure ⟨htype, hsize⟩
  · exact Keeps.pure ⟨htype, hsize⟩

theorem checkMember_finds (owner : String) (m : UnionMember) :
    Keeps s.Meant (s.checkMember owner m) fun _ =>
      m.typeName ∈ s.names ∧ (s.resolveConstant? m.selector).isSome = true ∧
        ∀ text, m.arraySize = some text → s.HasValue known text := by
  refine (checkType_finds _ _).bind fun _ htype => ?_
  cases hn : s.resolveConstant? m.selector with
  | none => exact Keeps.throw
  | some number =>
    exact (checkExpression_finds hc hm m.arraySize).weaken fun _ hsize => ⟨htype, rfl, hsize⟩

/-- A type that has been checked resolves. -/
theorem checkEntry_finds (t : TypeEntry) :
    Keeps s.Meant (s.checkEntry t) fun _ => s.Resolves known t := by
  obtain ⟨id, specName, name, comment, implemented, kind⟩ := t
  have nothing : ∀ {p : String → Prop}, ∀ x ∈ ([] : List String), p x :=
    fun x h => (List.not_mem_nil h).elim
  cases kind with
  | value v => exact Keeps.pure ⟨nothing, nothing, nothing⟩
  | aliasOf a =>
    exact (checkType_finds _ _).weaken fun _ h => ⟨List.forall_mem_singleton.mpr h, nothing, nothing⟩
  | enum e =>
    exact (checkType_finds _ _).weaken fun _ h => ⟨List.forall_mem_singleton.mpr h, nothing, nothing⟩
  | bitfield b =>
    refine (checkType_finds _ _).bind fun _ hunder => ?_
    refine (Keeps.forM_all (R := fun m => ∀ e, m.enumType = some e → e ∈ s.names)
      fun m _ => ?_).weaken fun _ h =>
        ⟨List.forall_mem_cons.mpr ⟨hunder, fun e he => ?_⟩, nothing, nothing⟩
    · cases m.enumType with
      | none => exact Keeps.pure nofun
      | some e =>
        refine (checkType_finds _ _).weaken fun _ h => ?_
        rintro _ ⟨⟩
        exact h
    · obtain ⟨m, hm, he⟩ := List.mem_filterMap.mp he
      exact h m hm e he
  | record r =>
    have fields : (∀ base, r.base = some base → base ∈ s.names) →
        Keeps s.Meant (r.fields.forM (s.checkField specName r)) fun _ =>
          s.Resolves known ⟨id, specName, name, comment, implemented, .record r⟩ := by
      intro hbase
      refine (Keeps.forM_all fun f _ => checkField_finds hc hm specName r f).weaken fun _ h =>
        ⟨fun name hname => ?_, fun text htext => ?_, nothing⟩
      · rcases List.mem_append.mp hname with hname | hname
        · exact hbase name (Option.mem_toList.mp hname)
        · obtain ⟨f, hf, rfl⟩ := List.mem_map.mp hname
          exact (h f hf).1
      · obtain ⟨f, hf, htext⟩ := List.mem_filterMap.mp htext
        exact (h f hf).2 text htext
    show Keeps s.Meant (s.checkEntry ⟨id, specName, name, comment, implemented, .record r⟩) _
    unfold checkEntry
    dsimp only
    split
    · next base hbase =>
      refine (checkType_finds _ _).bind fun _ h => fields ?_
      rintro _ hbase'
      cases hbase.symm.trans hbase'
      exact h
    · next hbase => exact fields fun _ h => nomatch hbase.symm.trans h
  | union u =>
    refine (Keeps.forM_all fun m _ => checkMember_finds hc hm specName m).weaken fun _ h =>
      ⟨fun name hname => ?_, fun text htext => ?_, fun name hname => ?_⟩
    · obtain ⟨m, hm, rfl⟩ := List.mem_map.mp hname
      exact (h m hm).1
    · obtain ⟨m, hm, htext⟩ := List.mem_filterMap.mp htext
      exact (h m hm).2.2 text htext
    · obtain ⟨m, hm, rfl⟩ := List.mem_map.mp hname
      exact (h m hm).2.1

omit hc hm in
/-- In a schema whose references have been checked all types resolve. -/
theorem resolves_of_checkReferences (h : Yields s.checkReferences [] () known) :
    ∀ t ∈ s.types, s.Resolves known t := by
  have hc := (settled_of_checkReferences Known.words_nil h).2
  have hm := meant_of_checkReferences h
  obtain ⟨⟨⟩, k, hentries, -⟩ := yields_bind.mp h
  exact ((Keeps.forM_all fun t _ => checkEntry_finds hc hm t).of_yields meant_nil hentries).2

end Settling

/-! ## What does not fail -/

section Expressions

open Expression (Item Machine run)

variable {ask : Query → Eval Int} {sub : Query → Int → Prop} {E : Error → Prop} {P : Known → Prop}
  {depth : Nat} {text : String}

theorem faulty_givesUnless {α : Type} {r : Except ExpressionFault α} {a : α} (h : r = .ok a) :
    GivesUnless E P (faulty text r) a := by
  subst h
  exact .pure

variable (hask : ∀ q n, sub q n → GivesUnless E P (ask q) n)

include hask

theorem item_givesUnless {t : Token} {i : Item} (h : TokenItem sub depth t i) :
    GivesUnless E P (item ask depth t) i := by
  cases h with
  | name h | sizeOf h => exact (hask _ _ h).bind .pure
  | number | operator | openParen | closeParen => exact .pure

/-- The machine takes the items of the tokens one after the other. -/
theorem run_givesUnless {ts : List Token} {items : List Item}
    (h : List.Forall₂ (TokenItem sub depth) ts items) {m m' : Machine} (hrun : run items m = .ok m') :
    GivesUnless E P (ts.foldlM (fun m t => do faulty text (m.step (← item ask depth t))) m) m' := by
  induction h generalizing m with
  | nil =>
    cases hrun
    exact .pure
  | cons hi _ ih =>
    rw [Expression.run_cons] at hrun
    obtain ⟨m₁, hstep, hrun⟩ := bind_eq_ok.mp hrun
    rw [List.foldlM_cons]
    exact ((item_givesUnless hask hi).bind (faulty_givesUnless hstep)).bind (ih hrun)

/-- An expression that has a value fails in no other way than the questions that it asks. -/
theorem evaluateWith_givesUnless {n : Int} (h : Evaluates sub text depth n) :
    GivesUnless E P (evaluateWith ask text depth) n := by
  obtain ⟨hd, ts, hts, hne, items, hitems, hn⟩ := h
  obtain ⟨m, hrun, hn⟩ := bind_eq_ok.mp hn
  unfold evaluateWith
  rw [if_neg (Nat.not_lt.mpr hd)]
  refine (faulty_givesUnless hts).bind ?_
  rw [if_neg (by simpa using hne)]
  exact (run_givesUnless hask hitems hrun).bind (faulty_givesUnless hn)

end Expressions

/-- A schema in which all that is asked for when values are written and read is there. -/
structure Resolved (s : Schema) (known : Known) : Prop where
  words : known.Words
  complete : s.Complete known
  meant : s.Meant known
  types : ∀ t ∈ s.types, s.Resolves known t
  domains : ∀ t ∈ s.types, ∀ text ∈ t.domainTexts, s.HasValue known text
  tails : ∀ t ∈ s.types, ∀ r tail, t.record? = some r → r.nullTail = some tail →
    (s.resolveConstant? tail.nullValue).isSome = true

/-- A question about a constant is about one that exists. -/
def Answerable (s : Schema) : Query → Prop
  | .constant name _ => (s.resolveConstant? name).isSome = true
  | .size _ _ => True

theorem Denotes.answerable {q : Query} {n : Int} (h : s.Denotes q n) : s.Answerable q := by
  cases h.denoted with
  | constant hr => exact Option.isSome_iff_exists.mpr ⟨_, hr⟩
  | size => trivial

section Resolved

variable (h : s.Resolved known)

include h

/-- The texts in a field whose values are asked for have values. -/
theorem Resolved.field {t : TypeEntry} (ht : t ∈ s.types) {r : Record} (hr : t.record? = some r)
    {f : Field} (hf : f ∈ r.fields) :
    (∀ text, f.arraySize = some text → s.HasValue known text) ∧
      ∀ text, f.domainText? = some text → s.HasValue known text := by
  have hkind := TypeEntry.kind_of_record? hr
  refine ⟨fun text hsize => (h.types t ht).arraySizes text ?_, fun text hdomain =>
    h.domains t ht text ?_⟩
  · unfold TypeEntry.arraySizes
    rw [hkind]
    exact List.mem_filterMap.mpr ⟨f, hf, hsize⟩
  · unfold TypeEntry.domainTexts
    rw [hkind]
    exact List.mem_filterMap.mpr ⟨f, hf, hdomain⟩

theorem Resolved.field_of_allFields {type : String} {fields : List Field}
    (hfields : s.allFields type = .ok fields) {f : Field} (hf : f ∈ fields) :
    (∀ text, f.arraySize = some text → s.HasValue known text) ∧
      ∀ text, f.domainText? = some text → s.HasValue known text := by
  obtain ⟨t, ht, r, hr, hf⟩ := exists_of_mem_collectFields hfields hf
  exact h.field ht hr hf

/-- The lengths of the arrays in a type have values. -/
theorem Resolved.hasValue_of_lengths {type text : String} {t : TypeEntry}
    (ht : s.lookup? type = some t) (hl : text ∈ s.lengths type t.kind) : s.HasValue known text := by
  have hmem := (mem_of_lookup? ht).1
  unfold lengths at hl
  split at hl
  · split at hl
    · next fields hfields =>
      obtain ⟨f, hf, htext⟩ := List.mem_filterMap.mp hl
      obtain ⟨size, domain⟩ := h.field_of_allFields hfields hf
      unfold countText? at htext
      unfold Field.domainText? at domain
      split at htext
      · exact size text htext
      · next hm => exact domain text (by rw [hm]; exact htext)
      · next hm => exact domain text (by rw [hm]; exact htext)
      · cases htext
    · exact (List.not_mem_nil hl).elim
  · next u hu =>
    obtain ⟨m, hm, htext⟩ := List.mem_filterMap.mp hl
    obtain ⟨x, hx, rfl⟩ := List.mem_map.mp hm
    refine (h.types t hmem).arraySizes text ?_
    unfold TypeEntry.arraySizes
    rw [hu]
    exact List.mem_filterMap.mpr
      ⟨x.1, List.fst_mem_of_mem_zipIdx (List.mem_filter.mp hx).1, htext⟩
  · exact (List.not_mem_nil hl).elim

theorem Resolved.evaluates {text : String} (hv : s.HasValue known text) :
    ∃ n, Evaluates s.Denotes text 0 n := by
  obtain ⟨n, hn⟩ := hv
  exact ⟨n, ((evaluateWith_gives ask_denotes text 0).of_yields h.meant hn).2⟩

theorem Resolved.answer_keeps (nesting : Nat) (q : Query) :
    Keeps (· = known) (s.answer nesting q) (s.Denotes q) := by
  have hremembers := remembers_complete h.words h.complete
  have hstate := Schema.answer_keeps hremembers.1 hremembers.2 nesting q
  rintro k rfl
  exact ⟨(hstate k rfl).1, (answer_denotes nesting q k h.meant).2⟩

/-- No question fails on a constant that does not exist or on a malformed expression, unless it is
about such a constant. -/
theorem answer_resolved : ∀ (nesting : Nat) (q : Query), s.Answerable q →
    Avoids Error.Unresolved (· = known) (s.answer nesting q)
  | 0, _, _ => .throw id
  | nesting + 1, .constant name depth, hq => by
    obtain ⟨number, hn⟩ := Option.isSome_iff_exists.mp hq
    obtain ⟨value, hvalue⟩ := Option.isSome_iff_exists.mp (h.complete name number hn)
    show Avoids _ _ (s.constantStep (s.answer nesting) name depth)
    unfold constantStep
    rw [hn]
    have hknown : Avoids Error.Unresolved (· = known) (Eval.known? number) :=
      Avoids.get.andThen fun _ => .pure
    refine hknown.bind fun k found k' hk hfound => ?_
    obtain ⟨_, _, hget, hfound⟩ := yields_bind.mp hfound
    obtain ⟨rfl, rfl⟩ := yields_get.mp hget
    obtain ⟨rfl, rfl⟩ := yields_pure.mp hfound
    rw [hk, hvalue]
    exact .pure
  | nesting + 1, .size type depth, _ => by
    refine sizeStep_avoids (fun _ => Error.Structural.resolved)
      (fun _ inner _ _ _ => answer_resolved nesting _ trivial) fun t text _ ht hl => ?_
    obtain ⟨n, hn⟩ := h.evaluates (h.hasValue_of_lengths ht hl)
    refine (evaluateWith_givesUnless (fun q n hq => ⟨answer_resolved nesting q hq.answerable, ?_⟩) hn).1
    exact (h.answer_keeps nesting q).weaken fun _ hm => hm.unique q.same_self hq

theorem constantValue_resolved {name : String} (hn : (s.resolveConstant? name).isSome = true) :
    Avoids Error.Unresolved (· = known) (s.constantValue name) :=
  answer_resolved h s.nesting (.constant name 0) hn

theorem evaluate_resolved {text : String} (hv : s.HasValue known text) :
    Avoids Error.Unresolved (· = known) (s.evaluate text) := by
  rintro k rfl
  obtain ⟨n, hn⟩ := hv
  rw [hn]
  exact ⟨rfl, nofun⟩

theorem wireSize_resolved (type : String) :
    Avoids Error.Unresolved (· = known) (s.wireSize type) := by
  refine (answer_resolved h s.nesting (.size type 0) trivial).andThen fun _ => ?_
  split
  · exact .throw id
  · exact .pure

end Resolved

end Schema

end WireTables
