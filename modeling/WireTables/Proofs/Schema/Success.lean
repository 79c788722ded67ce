import WireTables.Proofs.Schema.Nesting

/-!
# Questions that succeed

A question succeeds where all that it raises does and the answers fit together: one lemma for each
step of an evaluation, which says that the step gives the value that the relations of `Answered` say.
From them it follows by induction on ranks that every constant has its value (`gives_answer`) where
values are given that each follow from the others (`Valued`), none is circular, and nothing is asked
deeper than the limit.

What is remembered only has to be meant, so it does not matter what has been evaluated before.
-/

namespace WireTables

open Relation (TransGen ReflTransGen)

/-- How deep the question is inside others of its kind. -/
def Query.depth : Query → Nat
  | .constant _ depth => depth
  | .size _ depth => depth

namespace Schema

variable {s : Schema}

/-! ## One question after the other -/

section Steps

variable {ask : Query → Eval Int} {P : Known → Prop} {sub : Query → Int → Prop} {depth : Nat}
  {n : Int}

/-- An expression succeeds where all that it mentions does. -/
theorem evaluateWith_succeeds {text : String}
    (hask : ∀ q ∈ mentioned text depth, ∀ n, sub q n → Gives P (ask q) n)
    (he : Evaluates sub text depth n) : Gives P (evaluateWith ask text depth) n := by
  obtain ⟨hd, ts, ht, hne, items, hitems, hn⟩ := he
  have looked : Gives P (ts.mapM (item ask depth)) items := by
    refine Gives.mapM ((forall₂_mem hitems).imp fun t i ⟨hm, hi⟩ => ?_)
    cases hi with
    | name h | sizeOf h => exact (hask _ (mem_mentioned.mpr ⟨ts, _, ht, hm, rfl⟩) _ h).bind .pure
    | number | operator | openParen | closeParen => exact .pure
  intro known hk
  obtain ⟨known', hk', hy⟩ := looked known hk
  exact ⟨known', hk', yields_evaluateWith.mpr ⟨hd, ts, ht, hne, items, hy, hn⟩⟩

theorem product_succeeds {a b : Int} {failure : Error} (h : checkedWord (a * b) = some n) :
    Gives P (product a b failure) n := by
  unfold product
  rw [h]
  exact .pure

theorem fieldCount_succeeds {owner : String} {f : Field}
    (hask : ∀ text, countText? f = some (some text) → ∀ q ∈ mentioned text 0, ∀ n, sub q n →
      Gives P (ask q) n) (h : CountOf sub f n) : Gives P (fieldCount ask owner f) n := by
  unfold CountOf at h
  unfold countText? at hask h
  unfold fieldCount
  cases hm : f.marshal with
  | fixedArray | countedArray | restArray =>
    simp only [hm] at hask h ⊢
    obtain ⟨text, htext, he⟩ := h
    rw [htext] at hask ⊢
    exact evaluateWith_succeeds (hask text rfl) he
  | _ =>
    simp only [hm] at h ⊢
    exact h ▸ .pure

theorem fieldSizeWith_succeeds {owner : String} {f : Field}
    (hpart : ∀ n, sub (.size f.typeName (depth + 1)) n →
      Gives P (ask (.size f.typeName (depth + 1))) n)
    (hlength : ∀ text, countText? f = some (some text) → ∀ q ∈ mentioned text 0, ∀ n, sub q n →
      Gives P (ask q) n) (h : FieldSizeOf sub depth f n) :
    Gives P (fieldSizeWith ask owner depth f) n := by
  obtain ⟨e, c, he, hc, hn⟩ := h
  exact (hpart e he).bind ((fieldCount_succeeds hlength hc).bind (product_succeeds hn))

theorem memberSizeWith_succeeds {owner : String} {m : UnionMember}
    (hpart : ∀ n, sub (.size m.typeName (depth + 1)) n →
      Gives P (ask (.size m.typeName (depth + 1))) n)
    (hlength : ∀ text, m.arraySize = some text → ∀ q ∈ mentioned text 0, ∀ n, sub q n →
      Gives P (ask q) n) (h : MemberSizeOf sub depth m n) :
    Gives P (memberSizeWith ask owner depth m) n := by
  obtain ⟨c, e, hc, he, hn⟩ := h
  unfold memberSizeWith
  unfold MemberCountOf at hc
  cases htext : m.arraySize with
  | some text =>
    rw [htext] at hc
    exact (evaluateWith_succeeds (hlength text htext) hc).bind
      ((hpart e he).bind (product_succeeds hn))
  | none =>
    rw [htext] at hc
    exact (show c = 1 from hc) ▸ (hpart e he).bind (product_succeeds hn)

/-- Sizes that add up within the words are added up. -/
theorem total_succeeds {owner : String} {fields : List Field} {sizes : List Int}
    (h : List.Forall₂ (fun f size => Gives P (fieldSizeWith ask owner depth f) size) fields sizes)
    {start : Int} (hn : total? start sizes = some n) :
    Gives P (fields.foldlM (fun total f => do
      match checkedWord (total + (← fieldSizeWith ask owner depth f)) with
      | some n => return n
      | none => throw (.inconsistent owner .sizeOverflow)) start) n := by
  induction h generalizing start with
  | nil =>
    cases hn
    exact .pure
  | cons hf _ ih =>
    rw [total?, List.foldlM_cons] at hn
    obtain ⟨next, hnext, hn⟩ := Option.bind_eq_some_iff.mp hn
    rw [List.foldlM_cons]
    refine Gives.bind (hf.bind ?_) (ih hn)
    rw [hnext]
    exact .pure

theorem largest_succeeds {owner : String} {members : List UnionMember} {sizes : List Int}
    (h : List.Forall₂ (fun m size => Gives P (memberSizeWith ask owner depth m) size) members sizes)
    {start : Int} : Gives P (members.foldlM (fun largest m => do
      return max largest (← memberSizeWith ask owner depth m)) start) (sizes.foldl max start) := by
  induction h generalizing start with
  | nil => exact .pure
  | cons hm _ ih =>
    rw [List.foldlM_cons]
    refine Gives.bind (hm.bind .pure) ?_
    exact ih

/-- The size of a type succeeds where the sizes of its parts and what the lengths of its arrays mention
do. -/
theorem sizeStep_succeeds {known : Known} {type : String} {t : TypeEntry}
    (hd : depth ≤ maxDepth) (ht : s.lookup? type = some t)
    (hask : ∀ q, s.Raises known (.size type depth) q → ∀ n, sub q n → Gives P (ask q) n)
    (h : KindSize s sub type depth n t.kind) : Gives P (s.sizeStep ask type depth) n := by
  have hpart : ∀ inner ∈ s.parts type t.kind, ∀ n, sub (.size inner (depth + 1)) n →
      Gives P (ask (.size inner (depth + 1))) n := fun _ hp => hask _ (.part hd ht hp)
  have hlength : ∀ text ∈ s.lengths type t.kind, ∀ q ∈ mentioned text 0, ∀ n, sub q n →
      Gives P (ask q) n := fun _ hl _ hq => hask _ (.length hd ht hl hq)
  unfold sizeStep
  rw [if_neg (Nat.not_lt.mpr hd), require_eq_ok.mpr ht]
  refine (Gives.ofExcept rfl).bind ?_
  cases hkind : t.kind with
  | value v =>
    rw [hkind] at h
    exact (show n = sizeWord v.size from h) ▸ .pure
  | aliasOf | enum | bitfield =>
    rw [hkind] at h
    exact hpart _ (hkind ▸ List.mem_singleton_self _) n h
  | record r =>
    rw [hkind] at h
    obtain ⟨fields, sizes, hfields, hsizes, hn⟩ := h
    refine (Gives.ofExcept hfields).bind (total_succeeds ((forall₂_mem hsizes).imp ?_) hn)
    rintro f size ⟨hf, hsize⟩
    exact fieldSizeWith_succeeds (hpart _ (hkind ▸ mem_parts_of_field hfields hf))
      (fun text htext => hlength text (hkind ▸ mem_lengths_of_field hfields hf htext)) hsize
  | union u =>
    rw [hkind] at h
    obtain ⟨sizes, hsizes, rfl⟩ := h
    refine largest_succeeds ((forall₂_mem hsizes).imp ?_)
    rintro m size ⟨hm, hsize⟩
    exact memberSizeWith_succeeds (hpart _ (hkind ▸ List.mem_map_of_mem hm)) (fun text htext =>
      hlength text (hkind ▸ List.mem_filterMap.mpr ⟨m, hm, htext⟩)) hsize

end Steps

/-- The value of a constant succeeds where all that its expression mentions does. -/
theorem constantStep_succeeds {ask : Query → Eval Int} {sub : Query → Int → Prop} {name : String}
    {depth number : Nat} {c : Constant} {n : Int} (hr : s.resolveConstant? name = some number)
    (hc : s.constants[number]? = some c) (hmeant : ∀ q, Keeps s.Meant (ask q) (s.Denotes q))
    (hask : ∀ q ∈ mentioned c.expr depth, ∀ n, sub q n → Gives s.Meant (ask q) n)
    (he : Evaluates sub c.expr depth n) : Gives s.Meant (s.constantStep ask name depth) n := by
  have hvalue : Evaluates s.Denotes c.expr 0 n := by
    obtain ⟨_, -, hy⟩ := evaluateWith_succeeds hask he [] meant_nil
    exact ((evaluateWith_gives hmeant c.expr depth).of_yields meant_nil hy).2.outermost
  intro known hk
  unfold constantStep
  rw [hr]
  have hknown : Yields (Eval.known? number) known (known.lookup number) known :=
    yields_bind.mpr ⟨known, known, yields_get.mpr ⟨rfl, rfl⟩, yields_pure.mpr ⟨rfl, rfl⟩⟩
  cases hlookup : known.lookup number with
  | some value =>
    rw [hlookup] at hknown
    obtain ⟨c', hc', hmeans⟩ := hk number value hlookup
    cases hc.symm.trans hc'
    have hsame : n = value := hvalue.agree (fun _ _ _ _ hq h h' => h.unique hq h') hmeans
    exact ⟨known, hk, yields_bind.mpr ⟨_, known, hknown, yields_pure.mpr ⟨hsame, rfl⟩⟩⟩
  | none =>
    rw [hlookup] at hknown
    obtain ⟨k, hk', hy⟩ := evaluateWith_succeeds hask he known hk
    refine ⟨if (k.lookup number).isSome then k else (number, n) :: k, ?_, ?_⟩
    · split
      · exact hk'
      · exact hk'.cons hc hvalue
    · refine yields_bind.mpr ⟨_, known, hknown, ?_⟩
      rw [hc]
      refine yields_bind.mpr ⟨n, k, hy, yields_bind.mpr ⟨⟨⟩, _, yields_modify.mpr rfl, ?_⟩⟩
      exact yields_pure.mpr ⟨rfl, rfl⟩

/-! ## All questions -/

/-- The answers are the given values, whatever the questions are nested in. -/
def Values (value : Query → Int) (q : Query) (n : Int) : Prop :=
  n = value q.outermost

/-- The value of a question follows in one step from the values of what it refers to. -/
inductive Calculates (s : Schema) (value : Query → Int) : Query → Prop
  | constant {name depth number c} (hr : s.resolveConstant? name = some number)
    (hc : s.constants[number]? = some c)
    (he : Evaluates (Values value) c.expr 0 (value (.constant name 0))) :
    Calculates s value (.constant name depth)
  | size {type depth t} (ht : s.lookup? type = some t)
    (h : KindSize s (Values value) type 0 (value (.size type 0)) t.kind) :
    Calculates s value (.size type depth)

/-- Constants with different names whose expressions have values: what a constant refers to exists
and has its value from what it refers to itself, and nothing refers to itself. -/
structure Valued (s : Schema) (value : Query → Int) : Prop where
  names : (s.constants.toList.map (·.specName)).Nodup
  acyclic : ∀ c ∈ s.constants.toList, ¬ s.Circular (.constant c.specName 0)
  calculates : ∀ c ∈ s.constants.toList, ∀ q, ReflTransGen s.Refers (.constant c.specName 0) q →
    s.Calculates value q

/-- The question is asked for the value of some constant. -/
def Asked (s : Schema) (q : Query) : Prop :=
  ∃ c ∈ s.constants.toList, ReflTransGen (s.Raises []) (.constant c.specName 0) q

/-- Nothing is asked deeper than the limit for the value of a constant. -/
def WithinLimit (s : Schema) : Prop :=
  ∀ q, s.Asked q → q.depth ≤ maxDepth

section Values

variable {value : Query → Int} {q q' : Query} {n : Int}

theorem outermost_of_mem_mentioned {text : String} {depth : Nat} (h : q ∈ mentioned text depth)
    (depth' : Nat) : ∃ q' ∈ mentioned text depth', q'.outermost = q.outermost := by
  obtain ⟨ts, t, ht, hm, hq⟩ := mem_mentioned.mp h
  cases t with
  | name name =>
    cases hq
    exact ⟨_, mem_mentioned.mpr ⟨ts, _, ht, hm, rfl⟩, rfl⟩
  | sizeOf type =>
    cases hq
    exact ⟨_, mem_mentioned.mpr ⟨ts, _, ht, hm, rfl⟩, rfl⟩
  | _ => cases hq

/-- What is raised is referred to. -/
theorem Raises.refers {known : Known} (h : s.Raises known q q') :
    s.Refers q.outermost q'.outermost := by
  cases h with
  | expr hr hk hc hd hq =>
    obtain ⟨inner, hinner, hsame⟩ := outermost_of_mem_mentioned hq 0
    exact ⟨inner, .expr hr rfl hc (Nat.zero_le _) hinner, hsame.symm⟩
  | part hd ht hp => exact ⟨_, .part (Nat.zero_le _) ht hp, rfl⟩
  | length hd ht hl hq => exact ⟨_, .length (Nat.zero_le _) ht hl hq, rfl⟩

theorem Evaluates.at_depth {text : String} {depth : Nat} (hd : depth ≤ maxDepth)
    (h : Evaluates (Values value) text 0 n) : Evaluates (Values value) text depth n := by
  obtain ⟨-, ts, ht, hne, items, hitems, hn⟩ := h
  refine ⟨hd, ts, ht, hne, items, hitems.imp fun t i hi => ?_, hn⟩
  cases hi with
  | number => exact .number
  | name h => exact .name h
  | sizeOf h => exact .sizeOf h
  | operator => exact .operator
  | openParen => exact .openParen
  | closeParen => exact .closeParen

theorem KindSize.at_depth {type : String} {depth : Nat} {kind : TypeKind}
    (h : KindSize s (Values value) type 0 n kind) : KindSize s (Values value) type depth n kind := by
  cases kind <;> exact h

variable (hv : s.Valued value)

include hv

theorem Valued.calculates_of_asked (hq : s.Asked q) : s.Calculates value q.outermost := by
  obtain ⟨c, hc, hreach⟩ := hq
  exact hv.calculates c hc _ (hreach.lift Query.outermost fun _ _ h => h.refers)

/-- No size that is asked for is asked for inside itself. -/
theorem Valued.not_inside (hq : s.Asked q) : ¬ TransGen (s.Raises []) q q := by
  obtain ⟨c, hc, hreach⟩ := hq
  intro hcycle
  exact hv.acyclic c hc ⟨q.outermost, hreach.lift Query.outermost fun _ _ h => h.refers,
    hcycle.lift Query.outermost fun _ _ h => h.refers⟩

/-- Everything asked for a constant gives its value, with more room than its rank. -/
theorem gives_answer (hl : s.WithinLimit) : ∀ {nesting : Nat} {q : Query}, s.Asked q →
    s.rank [] q < nesting → Gives s.Meant (s.answer nesting q) (value q.outermost)
  | 0, _, _, h => absurd h (Nat.not_lt_zero _)
  | nesting + 1, q, hq, h => by
    have hd := hl q hq
    have inner : ∀ q', s.Raises [] q q' → ∀ n, Values value q' n →
        Gives s.Meant (s.answer nesting q') n := by
      rintro q' hraises _ rfl
      obtain ⟨c, hc, hreach⟩ := hq
      have hq' : s.Asked q' := ⟨c, hc, hreach.tail hraises⟩
      have hlt : s.rank [] q' < s.rank [] q :=
        rank_lt (fun type htype => htype ▸ hv.not_inside hq') hraises
      exact gives_answer hl hq' (Nat.lt_of_lt_of_le hlt (Nat.le_of_lt_succ h))
    have hcalculates := hv.calculates_of_asked hq
    cases q with
    | constant name depth =>
      cases hcalculates with
      | constant hr hc he =>
        exact constantStep_succeeds hr hc (answer_denotes nesting)
          (fun q' hq' => inner q' (.expr hr rfl hc hd hq')) (he.at_depth hd)
    | size type depth =>
      cases hcalculates with
      | size ht hk => exact sizeStep_succeeds hd ht inner hk.at_depth

/-- Every constant has its value, whatever has been evaluated before. -/
theorem gives_constantValue (hl : s.WithinLimit) {c : Constant} (hc : c ∈ s.constants.toList) :
    Gives s.Meant (s.constantValue c.specName) (value (.constant c.specName 0)) :=
  gives_answer hv hl ⟨c, hc, .refl⟩ (rank_lt_nesting s [] _)

end Values

/-! ## Deciding -/

section Decide

variable {value : Query → Int} {q q' : Query} {qs : List Query}

/-- The given values, told without further questions. -/
def told (value : Query → Int) (q : Query) : Eval Int :=
  pure (value q.outermost)

theorem yields_told {known known' : Known} {n : Int} :
    Yields (told value q) known n known' ↔ Values value q n ∧ known' = known :=
  yields_pure

/-- Whether the value of a question follows in one step from those of what it refers to. -/
def follows (s : Schema) (value : Query → Int) (q : Query) : Bool :=
  (Id.run ((s.answerStep (told value) q.outermost).run [])).1.toOption = some (value q.outermost)

theorem calculates_of_follows (h : s.follows value q = true) : s.Calculates value q := by
  have hy := yields_of_toOption (of_decide_eq_true h)
  cases q with
  | constant name depth =>
    change Yields (s.constantStep (told value) name 0) [] (value (.constant name 0)) _ at hy
    unfold constantStep at hy
    cases hr : s.resolveConstant? name with
    | none =>
      rw [hr] at hy
      exact (not_yields_throw hy).elim
    | some number =>
      rw [hr] at hy
      obtain ⟨_, _, hknown, hy⟩ := yields_bind.mp hy
      obtain ⟨_, _, hget, hknown⟩ := yields_bind.mp hknown
      obtain ⟨rfl, rfl⟩ := yields_get.mp hget
      obtain ⟨rfl, rfl⟩ := yields_pure.mp hknown
      cases hc : s.constants[number]? with
      | none =>
        rw [hc] at hy
        exact (not_yields_throw hy).elim
      | some c =>
        rw [hc] at hy
        obtain ⟨n, k, hn, hy⟩ := yields_bind.mp hy
        obtain ⟨_, _, -, hy⟩ := yields_bind.mp hy
        obtain ⟨rfl, -⟩ := yields_pure.mp hy
        exact .constant hr hc ((evaluates_iff fun _ _ _ => yields_told).mp hn).1
  | size type depth =>
    change Yields (s.sizeStep (told value) type 0) [] (value (.size type 0)) _ at hy
    obtain ⟨h, -⟩ := (yields_sizeStep fun _ _ _ => yields_told).mp hy
    cases h with
    | size _ ht hk => exact .size ht hk

/-- The questions of the list refer only to what comes later in it. -/
def Grounded (s : Schema) : List Query → Prop
  | [] => True
  | q :: qs => (∀ q' ∈ s.raised [] q.outermost, q'.outermost ∈ qs) ∧ Grounded s qs

instance (s : Schema) : (qs : List Query) → Decidable (s.Grounded qs)
  | [] => inferInstanceAs (Decidable True)
  | _ :: qs =>
    have := instDecidableGrounded s qs
    inferInstanceAs (Decidable (_ ∧ _))

theorem Grounded.mem (h : s.Grounded qs) (hq : q ∈ qs) (hr : s.Refers q q') : q' ∈ qs := by
  induction qs with
  | nil => cases hq
  | cons first rest ih =>
    apply List.mem_cons_of_mem
    obtain ⟨inner, hraises, rfl⟩ := hr
    cases List.mem_cons.mp hq with
    | inl hsame => exact h.1 inner (hsame ▸ mem_raised.mpr hraises)
    | inr hrest => exact ih h.2 hrest

theorem Grounded.acc (h : s.Grounded qs) (hq : q ∈ qs) : Acc (fun a b => s.Refers b a) q := by
  induction qs generalizing q with
  | nil => cases hq
  | cons first rest ih =>
    cases List.mem_cons.mp hq with
    | inl hsame =>
      subst hsame
      refine .intro _ fun q' hr => ?_
      obtain ⟨inner, hraises, rfl⟩ := hr
      exact ih h.2 (h.1 inner (mem_raised.mpr hraises))
    | inr hrest => exact ih h.2 hrest

/-- Values that follow from each other along a list of all questions there are to answer. -/
theorem valued_of_grounded (qs : List Query) (hnames : (s.constants.toList.map (·.specName)).Nodup)
    (hg : s.Grounded qs) (hc : ∀ c ∈ s.constants.toList, .constant c.specName 0 ∈ qs)
    (hf : ∀ q ∈ qs, s.follows value q = true) : s.Valued value where
  names := hnames
  acyclic c hmem := not_circular_of_acc (hg.acc (hc c hmem))
  calculates c hmem q hreach := by
    refine calculates_of_follows (hf q ?_)
    induction hreach with
    | refl => exact hc c hmem
    | tail _ hr ih => exact hg.mem ih hr

/-- Nothing is asked too deep where a list of questions has all that they raise. -/
theorem withinLimit_of_closed (qs : List Query)
    (hq : ∀ q ∈ qs, q.depth ≤ maxDepth ∧ ∀ q' ∈ s.raised [] q, q' ∈ qs)
    (hc : ∀ c ∈ s.constants.toList, .constant c.specName 0 ∈ qs) : s.WithinLimit := by
  intro q hasked
  obtain ⟨c, hmem, hreach⟩ := hasked
  suffices q ∈ qs from (hq q this).1
  induction hreach with
  | refl => exact hc c hmem
  | tail _ hr ih => exact (hq _ ih).2 _ (mem_raised.mpr hr)

end Decide

end Schema

end WireTables
