import WireTables.Proofs.Schema.Failures
import WireTables.Proofs.Schema.Nesting

/-!
# Evaluation ends

Whether evaluating expressions, constants and sizes and checking references end is a question of the
sizes that are asked for inside themselves. Where there are none, everything ends: with a value, or
with an error that says what is wrong, and with an error wherever a cycle of references is met
(`ends_of_terminating`). The limits on how deep constants and types nest see to all other cycles; a
size that an expression asks for starts to count anew, and one that is asked for inside itself goes on
without end, however much room there is (`outOfRoom_of_own_length`).

What carries the proof is that errors are passed on as they are: to run out of room anywhere is to run
out of room as a whole, so it is enough that no question inside another one does.
-/

namespace WireTables

open Relation (TransGen ReflTransGen)

/-- The calculation ran out of room for questions inside each other. -/
def Error.Endless : Error → Prop
  | .endless _ => True
  | _ => False

/-- All that the first remembers is remembered by the second. -/
def Known.RetainedBy (known k : Known) : Prop :=
  ∀ number, k.lookup number = none → known.lookup number = none

/-- The outcome is a value, or an error that says what is wrong. -/
def Finished {α : Type} (r : Except Error α) : Prop :=
  ∀ e, r = .error e → ¬ e.Endless

/-- The outcome is an error that says what is wrong. -/
def Rejected {α : Type} (r : Except Error α) : Prop :=
  ∃ e, r = .error e ∧ ¬ e.Endless

theorem Finished.rejected {α : Type} {r : Except Error α} (h : Finished r)
    (hr : ∀ a, r ≠ .ok a) : Rejected r := by
  cases r with
  | error e => exact ⟨e, rfl, h e rfl⟩
  | ok a => exact absurd rfl (hr a)

theorem Error.Structural.finished {e : Error} (h : e.Structural) : ¬ e.Endless := by
  cases e <;> first | exact id | exact h.elim

namespace Schema

variable {s : Schema}

section Steps

variable {ask : Query → Eval Int} {P : Known → Prop} {depth : Nat}

theorem faulty_avoids {α : Type} {text : String} {r : Except ExpressionFault α} :
    Avoids Error.Endless P (faulty text r) := by
  refine Avoids.ofExcept fun e he => ?_
  cases r with
  | error fault =>
    cases he
    exact id
  | ok a => cases he

/-- An expression ends where what it mentions does. -/
theorem evaluateWith_avoids {text : String}
    (hask : ∀ q ∈ mentioned text depth, Avoids Error.Endless P (ask q)) :
    Avoids Error.Endless P (evaluateWith ask text depth) := by
  unfold evaluateWith
  split
  · exact .throw id
  refine faulty_avoids.bind fun _ ts _ _ hts => ?_
  obtain ⟨hts, -⟩ := yields_faulty.mp hts
  split
  · exact .throw id
  refine (Avoids.foldlM fun m t ht => ?_).andThen fun _ => faulty_avoids
  refine Avoids.bind ?_ fun _ _ _ _ _ => faulty_avoids
  cases t with
  | name | sizeOf =>
    exact (hask _ (mem_mentioned.mpr ⟨ts, _, hts, ht, rfl⟩)).andThen fun _ => .pure
  | number | operator | openParen | closeParen => exact .pure

variable {known : Known}

/-- One more value that is remembered takes none away. -/
theorem remember_avoids {number : Nat} {value : Int} :
    Avoids Error.Endless known.RetainedBy (Eval.remember number value) := by
  refine Avoids.modify fun k hk => ?_
  split
  · exact hk
  · intro other hnone
    refine hk other ?_
    rw [List.lookup_cons] at hnone
    split at hnone
    · cases hnone
    · exact hnone

/-- The value of a constant ends where what its expression mentions does. -/
theorem constantStep_avoids {name : String}
    (hask : ∀ q, s.Raises known (.constant name depth) q →
      Avoids Error.Endless known.RetainedBy (ask q)) :
    Avoids Error.Endless known.RetainedBy (s.constantStep ask name depth) := by
  unfold constantStep
  split
  · exact .throw id
  next number hr =>
  have hknown : Avoids Error.Endless known.RetainedBy (Eval.known? number) :=
    Avoids.get.andThen fun _ => .pure
  refine hknown.bind fun k found k' hk hfound => ?_
  split
  · exact .pure
  · exact .throw id
  · next c hc =>
    by_cases hd : maxDepth < depth
    · -- too deep: nothing is asked any more
      unfold evaluateWith
      rw [if_pos hd]
      exact .throw id
    obtain ⟨_, _, hget, hfound⟩ := yields_bind.mp hfound
    obtain ⟨rfl, rfl⟩ := yields_get.mp hget
    obtain ⟨hnone, rfl⟩ := yields_pure.mp hfound
    have hask' : ∀ q ∈ mentioned c.expr depth, Avoids Error.Endless known.RetainedBy (ask q) :=
      fun q hq => hask q (.expr hr (hk number hnone.symm) hc (Nat.not_lt.mp hd) hq)
    exact (evaluateWith_avoids hask').andThen fun _ => remember_avoids.bind
      fun _ _ _ _ _ => .pure

end Steps

section Queries

variable {known : Known}

/-- A question ends with more room than its rank. -/
theorem answer_avoids (hs : s.Terminating known) : ∀ {nesting : Nat} {q : Query},
    s.rank known q < nesting → Avoids Error.Endless known.RetainedBy (s.answer nesting q)
  | 0, _, h => absurd h (Nat.not_lt_zero _)
  | nesting + 1, q, h => by
    have inner : ∀ q', s.Raises known q q' →
        Avoids Error.Endless known.RetainedBy (s.answer nesting q') := fun q' hq =>
      answer_avoids hs (Nat.lt_of_lt_of_le (rank_lt (fun type _ => hs type) hq) (Nat.le_of_lt_succ h))
    cases q with
    | constant name depth => exact constantStep_avoids inner
    | size type depth =>
      exact sizeStep_avoids (fun _ => Error.Structural.finished)
        (fun _ _ hd ht hp => inner _ (.part hd ht hp))
        fun _ _ hd ht hl => evaluateWith_avoids fun _ hq => inner _ (.length hd ht hl hq)

variable (hs : s.Terminating known)

include hs

theorem ask_avoids (q : Query) : Avoids Error.Endless known.RetainedBy (s.ask q) :=
  answer_avoids hs (rank_lt_nesting s known q)

theorem evaluate_avoids (text : String) : Avoids Error.Endless known.RetainedBy (s.evaluate text) :=
  evaluateWith_avoids fun q _ => ask_avoids hs q

theorem wireSize_avoids (type : String) :
    Avoids Error.Endless known.RetainedBy (s.wireSize type) := by
  refine (ask_avoids hs _).andThen fun _ => ?_
  split
  · exact .throw id
  · exact .pure

theorem checkEntry_avoids (t : TypeEntry) :
    Avoids Error.Endless known.RetainedBy (s.checkEntry t) := by
  have type_ : ∀ name referrer, Avoids Error.Endless known.RetainedBy (s.checkType name referrer) :=
    fun name referrer => (Avoids.ofExcept fun _ he => (structural_require he).finished).andThen
      fun _ => .pure
  have expression : ∀ text, Avoids Error.Endless known.RetainedBy (s.checkExpression text) := by
    intro text
    cases text with
    | none => exact .pure
    | some text => exact (evaluate_avoids hs text).andThen fun _ => .pure
  have field : ∀ r f, Avoids Error.Endless known.RetainedBy (s.checkField t.specName r f) := by
    intro r f
    refine (type_ _ _).andThen fun _ => (expression _).andThen fun _ => ?_
    split
    · split
      · exact .throw id
      · exact .pure
    · exact .pure
  have member : ∀ m, Avoids Error.Endless known.RetainedBy (s.checkMember t.specName m) := by
    intro m
    refine (type_ _ _).andThen fun _ => ?_
    split
    · exact Avoids.bind (.throw id) fun _ _ _ _ _ => expression _
    · exact expression _
  unfold checkEntry
  split
  · exact .pure
  · exact type_ _ _
  · exact type_ _ _
  · refine (type_ _ _).andThen fun _ => Avoids.forM fun m _ => ?_
    split
    · exact type_ _ _
    · exact .pure
  · next r _ =>
    have fields : Avoids Error.Endless known.RetainedBy (r.fields.forM (s.checkField t.specName r)) :=
      Avoids.forM fun f _ => field r f
    dsimp only
    split
    · exact (type_ _ _).andThen fun _ => fields
    · exact fields
  · exact Avoids.forM fun m _ => member m

theorem checkReferences_avoids : Avoids Error.Endless known.RetainedBy s.checkReferences := by
  refine (Avoids.forM fun t _ => checkEntry_avoids hs t).andThen fun _ => ?_
  rw [forM_constants]
  exact Avoids.forM fun c _ => (ask_avoids hs _).andThen fun _ => .pure

end Queries

end Schema

section Outcomes

variable {r : Registry} {α : Type}

theorem finished_of_avoids {m : Schema → Eval α}
    (h : Avoids Error.Endless r.known.RetainedBy (m r.toSchema)) : Finished (r.calculate m).1 :=
  (h r.known fun _ h => h).2

theorem rejected_of_avoids {m : Schema → Eval α}
    (h : Avoids Error.Endless r.known.RetainedBy (m r.toSchema))
    (hno : ∀ a known, ¬ Yields (m r.toSchema) r.known a known) : Rejected (r.calculate m).1 :=
  (finished_of_avoids h).rejected fun a ha => hno a _ (Prod.ext ha rfl)

/-- In a registry in which no size is asked for inside itself everything that is evaluated ends: with
a value, or with an error that says what is wrong. If all that is remembered is the value of its
expression, whatever leads to a cycle of references ends with an error. -/
theorem ends_of_terminating (hs : r.Terminating r.known) :
    ((∀ text, Finished (r.calculate (·.evaluate text)).1) ∧
      (∀ name, Finished (r.calculate (·.constantValue name)).1) ∧
      (∀ type, Finished (r.calculate (·.wireSize type)).1) ∧
      Finished (r.calculate (·.checkReferences)).1) ∧
    (r.Meant r.known →
      (∀ text, ∀ q ∈ Schema.mentioned text 0, r.Circular q.outermost →
        Rejected (r.calculate (·.evaluate text)).1) ∧
      (∀ name, r.Circular (.constant name 0) → Rejected (r.calculate (·.constantValue name)).1) ∧
      (∀ type, r.Circular (.size type 0) → Rejected (r.calculate (·.wireSize type)).1) ∧
      ((∃ c ∈ r.constants.toList, r.Circular (.constant c.specName 0)) →
        Rejected (r.calculate (·.checkReferences)).1)) := by
  have evaluate := fun text => Schema.evaluate_avoids hs text
  have constantValue := fun name => Schema.ask_avoids hs (.constant name 0)
  have wireSize := fun type => Schema.wireSize_avoids hs type
  refine ⟨⟨fun text => finished_of_avoids (evaluate text),
    fun name => finished_of_avoids (m := (·.constantValue name)) (constantValue name),
    fun type => finished_of_avoids (wireSize type),
    finished_of_avoids (Schema.checkReferences_avoids hs)⟩, fun hm => ⟨?_, ?_, ?_, ?_⟩⟩
  · intro text q hq hcircular
    exact rejected_of_avoids (evaluate text) fun _ _ hy =>
      Schema.not_circular_of_evaluate hm hy hq hcircular
  · intro name hcircular
    exact rejected_of_avoids (m := (·.constantValue name)) (constantValue name) fun _ _ hy =>
      Schema.not_circular_of_ask hm hy hcircular
  · intro type hcircular
    refine rejected_of_avoids (wireSize type) fun _ _ hy => ?_
    obtain ⟨_, _, hsize, -⟩ := yields_bind.mp hy
    exact Schema.not_circular_of_ask hm hsize hcircular
  · rintro ⟨c, hc, hcircular⟩
    exact rejected_of_avoids (Schema.checkReferences_avoids hs) fun _ _ hy =>
      Schema.not_circular_of_checkReferences hm hy c hc hcircular

end Outcomes

/-- Packets that are filled up to the size of their header, and two constants that refer to each
other. -/
def packets : Registry :=
  { types := Schema.elementary ++
      [.new "TPMS_HEADER" (.record { fields := [{ name := "kind", typeName := "UINT16" }] }),
        .new "TPMS_PACKET" (.record
          { fields := [{ name := "header", typeName := "TPMS_HEADER" },
              { name := "filler", typeName := "BYTE", marshal := .fixedArray,
                arraySize := some "sizeof(TPMS_HEADER)" }] })]
    constants := #[.new "PACKET_SIZE" "sizeof(TPMS_PACKET)" "" "", .new "FIRST" "SECOND" "" "",
      .new "SECOND" "FIRST + 1" "" ""] }

theorem ends_packets : (packets.Terminating packets.known ∧ packets.Meant packets.known ∧
      packets.Circular (.constant "FIRST" 0)) ∧
    Finished (packets.calculate (·.constantValue "PACKET_SIZE")).1 ∧
    (packets.calculate (·.constantValue "PACKET_SIZE")).1.toOption = some 4 ∧
    Rejected (packets.calculate (·.constantValue "FIRST")).1 ∧
    Rejected (packets.calculate (·.checkReferences)).1 := by
  have hs : packets.Terminating packets.known := by decide +kernel
  have hm : packets.Meant packets.known := Schema.meant_nil
  have first : packets.Refers (.constant "FIRST" 0) (.constant "SECOND" 0) :=
    ⟨.constant "SECOND" 1, Schema.mem_raised.mp (by decide +kernel), rfl⟩
  have second : packets.Refers (.constant "SECOND" 0) (.constant "FIRST" 0) :=
    ⟨.constant "FIRST" 1, Schema.mem_raised.mp (by decide +kernel), rfl⟩
  have hcircular : packets.Circular (.constant "FIRST" 0) :=
    ⟨.constant "FIRST" 0, .refl, .tail (.single first) second⟩
  obtain ⟨⟨-, hvalue, -, -⟩, hcycles⟩ := ends_of_terminating hs
  obtain ⟨-, hconstant, -, hchecked⟩ := hcycles hm
  have hmem : Constant.new "FIRST" "SECOND" "" "" ∈ packets.constants.toList := by decide
  exact ⟨⟨hs, hm, hcircular⟩, hvalue _, by decide +kernel, hconstant _ hcircular,
    hchecked ⟨_, hmem, hcircular⟩⟩

/-! ## Without end -/

/-- Answering ran out of room. -/
def OutOfRoom {α : Type} (m : Eval α) (known : Known) : Prop :=
  ∃ subject, (Id.run (m.run known)).1 = .error (.endless subject)

namespace OutOfRoom

variable {α β : Type} {m : Eval α} {f : α → Eval β} {known known' : Known}

theorem bind (h : OutOfRoom m known) : OutOfRoom (m >>= f) known := by
  obtain ⟨subject, h⟩ := h
  refine ⟨subject, ?_⟩
  rw [run_bind]
  rcases hout : Id.run (m.run known) with ⟨r, known'⟩
  rw [hout] at h
  subst h
  rfl

theorem of_yields {a : α} (hm : Yields m known a known') (hf : OutOfRoom (f a) known') :
    OutOfRoom (m >>= f) known := by
  obtain ⟨subject, h⟩ := hf
  refine ⟨subject, ?_⟩
  rw [run_bind, hm]
  exact h

end OutOfRoom

namespace Schema

/-- The size of an elementary value is found at once, if there is any room. -/
theorem yields_elementary {s : Schema} {type : String} {t : TypeEntry} {v : Scalar} {depth : Nat}
    (hd : depth ≤ maxDepth) (ht : s.lookup? type = some t) (hv : t.kind = .value v) (nesting : Nat)
    (known : Known) :
    Yields (s.answer (nesting + 1) (.size type depth)) known (sizeWord v.size) known := by
  show Yields (s.sizeStep (s.answer nesting) type depth) known (sizeWord v.size) known
  unfold sizeStep
  rw [if_neg (Nat.not_lt.mpr hd), require_eq_ok.mpr ht]
  refine yields_bind.mpr ⟨t, known, yields_evalOfExcept.mpr ⟨rfl, rfl⟩, ?_⟩
  rw [hv]
  exact yields_pure.mpr ⟨rfl, rfl⟩

/-- A structure that starts with as many elementary values as it is long itself has no size, however
much room there is to find it. -/
theorem outOfRoom_of_own_length {s : Schema} {type text : String} {t t' : TypeEntry} {r : Record}
    {v : Scalar} {f : Field} {fields : List Field} {ts : List Token}
    (ht : s.lookup? type = some t) (hr : t.kind = .record r)
    (hfields : s.allFields type = .ok (f :: fields)) (hf : f.marshal = .fixedArray)
    (hsize : f.arraySize = some text) (htext : Expression.tokens text = .ok (.sizeOf type :: ts))
    (ht' : s.lookup? f.typeName = some t') (hv : t'.kind = .value v) (nesting : Nat)
    (known : Known) : OutOfRoom (s.answer nesting (.size type 0)) known := by
  induction nesting with
  | zero => exact ⟨_, rfl⟩
  | succ nesting ih =>
    have length : OutOfRoom (fieldCount (s.answer nesting) type f) known := by
      simp only [fieldCount, hf, hsize, evaluateWith]
      rw [if_neg (by decide)]
      refine .of_yields (yields_faulty.mpr ⟨htext, rfl⟩) ?_
      rw [if_neg (by simp), List.foldlM_cons]
      exact .bind (.bind (.bind (.bind ih)))
    have field : OutOfRoom (fieldSizeWith (s.answer nesting) type 0 f) known := by
      cases nesting with
      | zero => exact .bind ⟨_, rfl⟩
      | succ nesting => exact .of_yields (yields_elementary (by decide) ht' hv nesting known) length.bind
    show OutOfRoom (s.sizeStep (s.answer nesting) type 0) known
    unfold sizeStep
    rw [if_neg (by decide), require_eq_ok.mpr ht]
    refine .of_yields (yields_evalOfExcept.mpr ⟨rfl, rfl⟩) ?_
    rw [hr]
    refine .of_yields (yields_evalOfExcept.mpr ⟨hfields, rfl⟩) ?_
    rw [List.foldlM_cons]
    exact .bind (.bind field)

/-- As many bytes as the structure is long. -/
def loopField : Field :=
  { name := "a", typeName := "BYTE", marshal := .fixedArray, arraySize := some "sizeof(TPMS_LOOP)" }

/-- A schema with a structure of as many bytes as it is long itself. -/
def looped : Schema :=
  { initial with types := elementary ++ [.new "TPMS_LOOP" (.record { fields := [loopField] })] }

/-- The structure has no size, with any room. -/
theorem outOfRoom_loop (nesting : Nat) : OutOfRoom (looped.answer nesting (.size "TPMS_LOOP" 0)) [] := by
  have hfields : (looped.allFields "TPMS_LOOP").toOption = some [loopField] := by decide +kernel
  have htext : (Expression.tokens "sizeof(TPMS_LOOP)").toOption = some [.sizeOf "TPMS_LOOP"] := by
    decide +kernel
  have hloop : looped.lookup? "TPMS_LOOP" =
      some (.new "TPMS_LOOP" (.record { fields := [loopField] })) := by decide +kernel
  have hbyte : looped.lookup? "BYTE" = some (.new "BYTE" (.value ⟨1, false, false⟩)) := by
    decide +kernel
  exact outOfRoom_of_own_length hloop rfl (ok_of_toOption hfields) rfl rfl (ok_of_toOption htext)
    hbyte rfl nesting []

end Schema

end WireTables
