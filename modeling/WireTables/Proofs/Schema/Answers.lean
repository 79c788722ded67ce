import WireTables.Proofs.Expression.Evaluation
import WireTables.Proofs.Schema.Resolve

/-!
# Answers

The answers of a schema in which every constant has a value, as relations: the value of an
expression (`Evaluates`), the number of elements and the size of a field, the size of a union
member, and one answer from others (`Answered`). `AnswerIn` says what is answered within a number
of questions inside each other; `yields_answer` says that this is what `answer` does. More room
gives the same answer (`AnswerIn.mono`).
-/

namespace WireTables

/-- Elements of a list that are worked through without a change of the state. -/
theorem yields_mapM {ε σ α β : Type} {f : α → ExceptT ε (StateM σ) β} {R : α → β → Prop} {k : σ}
    (h : ∀ x y k', Yields (f x) k y k' ↔ R x y ∧ k' = k) :
    ∀ {xs : List α} {ys : List β} {k' : σ},
      Yields (xs.mapM f) k ys k' ↔ List.Forall₂ R xs ys ∧ k' = k
  | [], ys, k' => by
    rw [List.mapM_nil, yields_pure, List.forall₂_nil_left_iff]
  | x :: xs, ys, k' => by
    simp only [List.mapM_cons, yields_bind, yields_pure, h, List.forall₂_cons_left_iff]
    constructor
    · rintro ⟨y, _, ⟨hy, rfl⟩, zs, _, hrest, rfl, rfl⟩
      obtain ⟨hzs, rfl⟩ := (yields_mapM h).mp hrest
      exact ⟨⟨y, zs, hy, hzs, rfl⟩, rfl⟩
    · rintro ⟨⟨y, zs, hy, hzs, rfl⟩, rfl⟩
      exact ⟨y, k', ⟨hy, rfl⟩, zs, k', (yields_mapM h).mpr ⟨hzs, rfl⟩, rfl, rfl⟩

theorem forall₂_unique {α β : Type} {R R' : α → β → Prop} {xs : List α} {ys zs : List β}
    (hu : ∀ x ∈ xs, ∀ y z, R x y → R' x z → y = z) (h : List.Forall₂ R xs ys)
    (h' : List.Forall₂ R' xs zs) : ys = zs := by
  induction h generalizing zs with
  | nil =>
    cases h'
    rfl
  | cons hx _ ih =>
    cases h' with
    | cons hx' hrest =>
      rw [hu _ List.mem_cons_self _ _ hx hx',
        ih (fun x hx => hu x (List.mem_cons_of_mem _ hx)) hrest]

/-- The largest number of a list and a first one is neither below the first one nor below any of the
list. -/
theorem le_foldl_max (xs : List Int) (start : Int) :
    start ≤ xs.foldl max start ∧ ∀ x ∈ xs, x ≤ xs.foldl max start := by
  induction xs generalizing start with
  | nil => exact ⟨Int.le_refl _, fun _ hx => (List.not_mem_nil hx).elim⟩
  | cons x xs ih =>
    obtain ⟨hstart, hmem⟩ := ih (max start x)
    rw [List.foldl_cons]
    refine ⟨by omega, fun y hy => ?_⟩
    rcases List.mem_cons.mp hy with rfl | hy
    · omega
    · exact hmem y hy

namespace Schema

open Expression (Item calculate)

/-- The token stands for the item where `sub` gives the answers. -/
inductive TokenItem (sub : Query → Int → Prop) (depth : Nat) : Token → Item → Prop
  | number {value text} : TokenItem sub depth (.number value text) (.number value)
  | name {name n} (h : sub (.constant name (depth + 1)) n) :
    TokenItem sub depth (.name name) (.number n)
  | sizeOf {type n} (h : sub (.size type 0) n) : TokenItem sub depth (.sizeOf type) (.number n)
  | operator {op} : TokenItem sub depth (.operator op) (.operator op)
  | openParen : TokenItem sub depth .openParen .openParen
  | closeParen : TokenItem sub depth .closeParen .closeParen

/-- The text has the value `n`. -/
def Evaluates (sub : Query → Int → Prop) (text : String) (depth : Nat) (n : Int) : Prop :=
  depth ≤ maxDepth ∧ ∃ ts, Expression.tokens text = .ok ts ∧ ts ≠ [] ∧
    ∃ items, List.Forall₂ (TokenItem sub depth) ts items ∧ calculate items = .ok n

/-- The text that says how many elements a field has at most, if it is an array of its own length:
the size of one of constant length, and the largest value that the domain of any other allows. -/
def countText? (f : Field) : Option (Option String) :=
  match f.marshal with
  | .fixedArray => some f.arraySize
  | .countedArray | .restArray => some f.domain.maximum?
  | _ => none

/-- The largest number of elements of a field. -/
def CountOf (sub : Query → Int → Prop) (f : Field) (n : Int) : Prop :=
  match countText? f with
  | some text? => ∃ text, text? = some text ∧ Evaluates sub text 0 n
  | none => n = 1

/-- The largest size of a field. -/
def FieldSizeOf (sub : Query → Int → Prop) (depth : Nat) (f : Field) (n : Int) : Prop :=
  ∃ e c, sub (.size f.typeName (depth + 1)) e ∧ CountOf sub f c ∧ checkedWord (e * c) = some n

/-- The number of elements of a union member. -/
def MemberCountOf (sub : Query → Int → Prop) (m : UnionMember) (n : Int) : Prop :=
  match m.arraySize with
  | some text => Evaluates sub text 0 n
  | none => n = 1

/-- The largest size of a union member. -/
def MemberSizeOf (sub : Query → Int → Prop) (depth : Nat) (m : UnionMember) (n : Int) : Prop :=
  ∃ c e, MemberCountOf sub m c ∧ sub (.size m.typeName (depth + 1)) e ∧
    checkedWord (e * c) = some n

/-- The sum of sizes, as long as it fits a signed 64-bit word. -/
def total? (start : Int) (sizes : List Int) : Option Int :=
  sizes.foldlM (fun total size => checkedWord (total + size)) start

/-- The largest size of a type of a kind: further names, enumerations and bitfields have the size of
what is under them, structures that of all their fields, and unions that of their largest member. -/
def KindSize (s : Schema) (sub : Query → Int → Prop) (type : String) (depth : Nat) (n : Int) :
    TypeKind → Prop
  | .value c => n = sizeWord c.size
  | .aliasOf a => sub (.size a.base (depth + 1)) n
  | .enum e => sub (.size e.underlying (depth + 1)) n
  | .bitfield b => sub (.size b.underlying (depth + 1)) n
  | .record _ => ∃ fields sizes, s.allFields type = .ok fields ∧
      List.Forall₂ (FieldSizeOf sub depth) fields sizes ∧ total? 0 sizes = some n
  | .union u => ∃ sizes, List.Forall₂ (MemberSizeOf sub depth) u.present sizes ∧
      n = sizes.foldl max 0

/-- The answer to a question where `sub` gives the answers to others. -/
inductive Answered (s : Schema) (known : Known) (sub : Query → Int → Prop) : Query → Int → Prop
  | constant {name depth number n} (hr : s.resolveConstant? name = some number)
    (hk : known.lookup number = some n) : Answered s known sub (.constant name depth) n
  | size {type depth t n} (hd : depth ≤ maxDepth) (ht : s.lookup? type = some t)
    (h : KindSize s sub type depth n t.kind) : Answered s known sub (.size type depth) n

/-- What is answered with at most `nesting` questions inside each other. -/
def AnswerIn (s : Schema) (known : Known) : Nat → Query → Int → Prop
  | 0 => fun _ _ => False
  | nesting + 1 => Answered s known (AnswerIn s known nesting)

section Steps

variable {s : Schema} {known known' : Known} {ask : Query → Eval Int} {sub : Query → Int → Prop}
  (hask : ∀ q n known', Yields (ask q) known n known' ↔ sub q n ∧ known' = known)

theorem yields_evalOfExcept {α : Type} {r : Except Error α} {a : α} :
    Yields (Eval.ofExcept r) known a known' ↔ r = .ok a ∧ known' = known :=
  yields_mk_pure

theorem yields_product {a b n : Int} {failure : Error} :
    Yields (product a b failure) known n known' ↔
      checkedWord (a * b) = some n ∧ known' = known := by
  unfold product
  cases checkedWord (a * b) with
  | none => simp only [not_yields_throw, reduceCtorEq, false_and]
  | some m => simp only [yields_pure, Option.some.injEq, eq_comm]

include hask

theorem yields_item {depth : Nat} {t : Token} {i : Item} :
    Yields (item ask depth t) known i known' ↔ TokenItem sub depth t i ∧ known' = known := by
  cases t with
  | number value text =>
    refine yields_pure.trans (and_congr_left fun _ => ⟨?_, fun h => ?_⟩)
    · rintro rfl
      exact .number
    · cases h
      rfl
  | name name =>
    unfold item
    simp only [yields_bind, yields_pure, hask]
    constructor
    · rintro ⟨n, _, ⟨hn, rfl⟩, rfl, rfl⟩
      exact ⟨.name hn, rfl⟩
    · rintro ⟨⟨⟩, rfl⟩
      exact ⟨_, known', ⟨‹_›, rfl⟩, rfl, rfl⟩
  | sizeOf type =>
    unfold item
    simp only [yields_bind, yields_pure, hask]
    constructor
    · rintro ⟨n, _, ⟨hn, rfl⟩, rfl, rfl⟩
      exact ⟨.sizeOf hn, rfl⟩
    · rintro ⟨⟨⟩, rfl⟩
      exact ⟨_, known', ⟨‹_›, rfl⟩, rfl, rfl⟩
  | operator op =>
    refine yields_pure.trans (and_congr_left fun _ => ⟨?_, fun h => ?_⟩)
    · rintro rfl
      exact .operator
    · cases h
      rfl
  | openParen =>
    refine yields_pure.trans (and_congr_left fun _ => ⟨?_, fun h => ?_⟩)
    · rintro rfl
      exact .openParen
    · cases h
      rfl
  | closeParen =>
    refine yields_pure.trans (and_congr_left fun _ => ⟨?_, fun h => ?_⟩)
    · rintro rfl
      exact .closeParen
    · cases h
      rfl

theorem evaluates_iff {text : String} {depth : Nat} {n : Int} :
    Yields (evaluateWith ask text depth) known n known' ↔
      Evaluates sub text depth n ∧ known' = known := by
  have items : ∀ {ts : List Token} {is : List Item},
      Yields (ts.mapM (item ask depth)) known is known' ↔
        List.Forall₂ (TokenItem sub depth) ts is ∧ known' = known :=
    yields_mapM fun _ _ _ => yields_item hask
  rw [yields_evaluateWith]
  unfold Evaluates
  constructor
  · rintro ⟨hd, ts, ht, hne, is, his, hc⟩
    obtain ⟨hi, rfl⟩ := items.mp his
    exact ⟨⟨hd, ts, ht, hne, is, hi, hc⟩, rfl⟩
  · rintro ⟨⟨hd, ts, ht, hne, is, hi, hc⟩, hk⟩
    exact ⟨hd, ts, ht, hne, is, items.mpr ⟨hi, hk⟩, hc⟩

theorem yields_fieldCount {owner : String} {f : Field} {n : Int} :
    Yields (fieldCount ask owner f) known n known' ↔ CountOf sub f n ∧ known' = known := by
  have text : ∀ {text? : Option String} {failure : Error},
      Yields (match text? with
        | some text => evaluateWith ask text 0
        | none => throw failure) known n known' ↔
      (∃ text, text? = some text ∧ Evaluates sub text 0 n) ∧ known' = known := by
    intro text? failure
    cases text? with
    | none => simp only [not_yields_throw, reduceCtorEq, false_and, exists_false]
    | some text => simp only [Option.some.injEq, exists_eq_left', evaluates_iff hask]
  unfold fieldCount CountOf countText?
  cases f.marshal with
  | fixedArray | countedArray | restArray => exact text
  | plain | constant | count | bodySize | sizedBody | selector | unionBody | selectedArray =>
    exact yields_pure

theorem yields_fieldSizeWith {owner : String} {depth : Nat} {f : Field} {n : Int} :
    Yields (fieldSizeWith ask owner depth f) known n known' ↔
      FieldSizeOf sub depth f n ∧ known' = known := by
  unfold fieldSizeWith FieldSizeOf
  simp only [yields_bind, hask, yields_product]
  constructor
  · rintro ⟨e, _, ⟨he, rfl⟩, c, _, hcount, hn, rfl⟩
    obtain ⟨hc, rfl⟩ := (yields_fieldCount hask).mp hcount
    exact ⟨⟨e, c, he, hc, hn⟩, rfl⟩
  · rintro ⟨⟨e, c, he, hc, hn⟩, rfl⟩
    exact ⟨e, known', ⟨he, rfl⟩, c, known', (yields_fieldCount hask).mpr ⟨hc, rfl⟩, hn, rfl⟩

theorem yields_memberSizeWith {owner : String} {depth : Nat} {m : UnionMember} {n : Int} :
    Yields (memberSizeWith ask owner depth m) known n known' ↔
      MemberSizeOf sub depth m n ∧ known' = known := by
  unfold memberSizeWith MemberSizeOf MemberCountOf
  cases m.arraySize with
  | none =>
    simp only [yields_bind, yields_pure, yields_product]
    constructor
    · rintro ⟨_, _, ⟨rfl, rfl⟩, e, _, helement, hn, rfl⟩
      obtain ⟨he, rfl⟩ := (hask _ _ _).mp helement
      exact ⟨⟨1, e, rfl, he, hn⟩, rfl⟩
    · rintro ⟨⟨_, e, rfl, he, hn⟩, rfl⟩
      exact ⟨1, known', ⟨rfl, rfl⟩, e, known', (hask _ _ _).mpr ⟨he, rfl⟩, hn, rfl⟩
  | some size =>
    simp only [yields_bind, evaluates_iff hask, yields_product]
    constructor
    · rintro ⟨c, _, ⟨hc, rfl⟩, e, _, helement, hn, rfl⟩
      obtain ⟨he, rfl⟩ := (hask _ _ _).mp helement
      exact ⟨⟨c, e, hc, he, hn⟩, rfl⟩
    · rintro ⟨⟨c, e, hc, he, hn⟩, rfl⟩
      exact ⟨c, known', ⟨hc, rfl⟩, e, known', (hask _ _ _).mpr ⟨he, rfl⟩, hn, rfl⟩

/-- The sizes of fields are added up from the front. -/
theorem yields_fieldSizes {name : String} {depth : Nat} {fields : List Field} {start n : Int} :
    Yields (fields.foldlM (fun total f => do
        match checkedWord (total + (← fieldSizeWith ask name depth f)) with
        | some n => return n
        | none => throw (.inconsistent name .sizeOverflow)) start) known n known' ↔
      (∃ sizes, List.Forall₂ (FieldSizeOf sub depth) fields sizes ∧
        total? start sizes = some n) ∧ known' = known := by
  induction fields generalizing start with
  | nil =>
    rw [List.foldlM_nil, yields_pure]
    simp only [List.forall₂_nil_left_iff, exists_eq_left]
    exact and_congr_left fun _ => ⟨fun h => h ▸ rfl, fun h => (Option.some.inj h).symm⟩
  | cons f fields ih =>
    simp only [List.foldlM_cons, yields_bind, yields_fieldSizeWith hask,
      List.forall₂_cons_left_iff]
    constructor
    · rintro ⟨next, _, ⟨size, _, ⟨hsize, rfl⟩, hadded⟩, hrest⟩
      split at hadded
      · next hadd =>
        obtain ⟨rfl, rfl⟩ := yields_pure.mp hadded
        obtain ⟨⟨sizes, hsizes, htotal⟩, rfl⟩ := ih.mp hrest
        refine ⟨⟨size :: sizes, ⟨size, sizes, hsize, hsizes, rfl⟩, ?_⟩, rfl⟩
        rw [total?, List.foldlM_cons, hadd]
        exact htotal
      · exact (not_yields_throw hadded).elim
    · rintro ⟨⟨_, ⟨size, sizes, hsize, hsizes, rfl⟩, htotal⟩, rfl⟩
      rw [total?, List.foldlM_cons] at htotal
      obtain ⟨next, hadd, htotal⟩ := Option.bind_eq_some_iff.mp htotal
      refine ⟨next, known', ⟨size, known', ⟨hsize, rfl⟩, ?_⟩, ih.mpr ⟨⟨sizes, hsizes, htotal⟩, rfl⟩⟩
      rw [hadd]
      exact yields_pure.mpr ⟨rfl, rfl⟩

/-- The largest of the sizes of members is found from the front. -/
theorem yields_memberSizes {name : String} {depth : Nat} {members : List UnionMember}
    {start n : Int} :
    Yields (members.foldlM (fun largest m => do
        return max largest (← memberSizeWith ask name depth m)) start) known n known' ↔
      (∃ sizes, List.Forall₂ (MemberSizeOf sub depth) members sizes ∧
        n = sizes.foldl max start) ∧ known' = known := by
  induction members generalizing start with
  | nil =>
    rw [List.foldlM_nil, yields_pure]
    simp only [List.forall₂_nil_left_iff, exists_eq_left, List.foldl_nil]
  | cons m members ih =>
    simp only [List.foldlM_cons, yields_bind, yields_memberSizeWith hask, yields_pure,
      List.forall₂_cons_left_iff]
    constructor
    · rintro ⟨_, _, ⟨size, _, ⟨hsize, rfl⟩, rfl, rfl⟩, hrest⟩
      obtain ⟨⟨sizes, hsizes, rfl⟩, rfl⟩ := ih.mp hrest
      exact ⟨⟨size :: sizes, ⟨size, sizes, hsize, hsizes, rfl⟩, rfl⟩, rfl⟩
    · rintro ⟨⟨_, ⟨size, sizes, hsize, hsizes, rfl⟩, rfl⟩, rfl⟩
      exact ⟨_, known', ⟨size, known', ⟨hsize, rfl⟩, rfl, rfl⟩,
        ih.mpr ⟨⟨sizes, hsizes, rfl⟩, rfl⟩⟩

theorem yields_sizeStep {type : String} {depth : Nat} {n : Int} :
    Yields (s.sizeStep ask type depth) known n known' ↔
      Answered s known sub (.size type depth) n ∧ known' = known := by
  unfold sizeStep
  by_cases hd : maxDepth < depth
  · rw [if_pos hd]
    refine ⟨fun h => (not_yields_throw h).elim, ?_⟩
    rintro ⟨h, -⟩
    cases h with
    | size hd' => exact (Nat.not_lt.mpr hd' hd).elim
  rw [if_neg hd]
  simp only [yields_bind, yields_evalOfExcept, require_eq_ok]
  have each : ∀ (t : TypeEntry) {n : Int} {k k' : Known}, k = known → (Yields (match t.kind with
      | .value v => return sizeWord v.size
      | .aliasOf a => ask (.size a.base (depth + 1))
      | .enum e => ask (.size e.underlying (depth + 1))
      | .bitfield b => ask (.size b.underlying (depth + 1))
      | .record _ => do
        (← Eval.ofExcept (s.allFields type)).foldlM
          (fun total f => do
            match checkedWord (total + (← fieldSizeWith ask type depth f)) with
            | some n => return n
            | none => throw (.inconsistent type .sizeOverflow))
          0
      | .union u =>
        u.present.foldlM
          (fun largest m => do return max largest (← memberSizeWith ask type depth m)) 0) k n k' ↔
        KindSize s sub type depth n t.kind ∧ k' = known) := by
    rintro t n k k' rfl
    cases t.kind with
    | value c => exact yields_pure
    | aliasOf a | enum e | bitfield b => exact hask _ _ _
    | record r =>
      simp only [yields_bind, yields_evalOfExcept, KindSize]
      constructor
      · rintro ⟨fields, _, ⟨hf, rfl⟩, h⟩
        obtain ⟨⟨sizes, hs, hn⟩, rfl⟩ := (yields_fieldSizes hask).mp h
        exact ⟨⟨fields, sizes, hf, hs, hn⟩, rfl⟩
      · rintro ⟨⟨fields, sizes, hf, hs, hn⟩, rfl⟩
        exact ⟨fields, k', ⟨hf, rfl⟩, (yields_fieldSizes hask).mpr ⟨⟨sizes, hs, hn⟩, rfl⟩⟩
    | union u => exact yields_memberSizes hask
  constructor
  · rintro ⟨t, k, ⟨ht, hk⟩, h⟩
    obtain ⟨hn, rfl⟩ := (each t hk).mp h
    exact ⟨.size (Nat.not_lt.mp hd) ht hn, rfl⟩
  · rintro ⟨h, rfl⟩
    cases h with
    | @size _ _ t _ _ ht hn => exact ⟨t, known', ⟨ht, rfl⟩, (each t rfl).mpr ⟨hn, rfl⟩⟩

omit hask in
/-- Where every constant has a value, that value is the answer. -/
theorem yields_constantStep (hc : s.Complete known) {name : String} {depth : Nat} {n : Int} :
    Yields (s.constantStep ask name depth) known n known' ↔
      Answered s known sub (.constant name depth) n ∧ known' = known := by
  unfold constantStep
  cases hr : s.resolveConstant? name with
  | none =>
    refine ⟨fun h => (not_yields_throw h).elim, ?_⟩
    rintro ⟨h, -⟩
    cases h with
    | constant hr' => cases hr.symm.trans hr'
  | some number =>
    obtain ⟨value, hvalue⟩ := Option.isSome_iff_exists.mp (hc name number hr)
    have hknown : ∀ {v k}, Yields (Eval.known? number) known v k ↔ v = some value ∧ k = known := by
      intro v k
      unfold Eval.known?
      simp only [yields_bind, yields_get, yields_pure]
      constructor
      · rintro ⟨_, _, ⟨rfl, rfl⟩, rfl, rfl⟩
        exact ⟨hvalue, rfl⟩
      · rintro ⟨rfl, rfl⟩
        exact ⟨k, k, ⟨rfl, rfl⟩, hvalue.symm, rfl⟩
    simp only [yields_bind, hknown]
    constructor
    · rintro ⟨_, _, ⟨rfl, rfl⟩, h⟩
      obtain ⟨rfl, rfl⟩ := yields_pure.mp h
      exact ⟨.constant hr hvalue, rfl⟩
    · rintro ⟨h, rfl⟩
      cases h with
      | constant hr' hk =>
        cases hr.symm.trans hr'
        cases hvalue.symm.trans hk
        exact ⟨some _, known', ⟨rfl, rfl⟩, yields_pure.mpr ⟨rfl, rfl⟩⟩

end Steps

section Answers

variable {s : Schema} {known known' : Known}

/-- With all constants known, `answer` gives what is answered, and remembers nothing more. -/
theorem yields_answer (hc : s.Complete known) : ∀ {nesting : Nat} {q : Query} {n : Int}
    {known' : Known}, Yields (s.answer nesting q) known n known' ↔
      AnswerIn s known nesting q n ∧ known' = known
  | 0, _, _, _ => ⟨fun h => (not_yields_throw h).elim, fun h => h.1.elim⟩
  | nesting + 1, .constant _ _, _, _ => yields_constantStep hc
  | nesting + 1, .size type depth, n, known' => by
    have inner : ∀ q n known', Yields (s.answer nesting q) known n known' ↔
        AnswerIn s known nesting q n ∧ known' = known := fun _ _ _ => yields_answer hc
    exact yields_sizeStep inner

/-- The value of a text. -/
theorem yields_evaluate (hc : s.Complete known) {text : String} {n : Int} :
    Yields (s.evaluate text) known n known' ↔
      Evaluates (AnswerIn s known s.nesting) text 0 n ∧ known' = known :=
  evaluates_iff fun _ _ _ => yields_answer hc

section Monotone

variable {sub sub' : Query → Int → Prop} (h : ∀ q n, sub q n → sub' q n)

include h

theorem Evaluates.mono {text : String} {depth : Nat} {n : Int} (he : Evaluates sub text depth n) :
    Evaluates sub' text depth n := by
  obtain ⟨hd, ts, ht, hne, items, hi, hc⟩ := he
  refine ⟨hd, ts, ht, hne, items, hi.imp fun t i hti => ?_, hc⟩
  cases hti with
  | number => exact .number
  | name hn => exact .name (h _ _ hn)
  | sizeOf hn => exact .sizeOf (h _ _ hn)
  | operator => exact .operator
  | openParen => exact .openParen
  | closeParen => exact .closeParen

theorem CountOf.mono {f : Field} {n : Int} (hc : CountOf sub f n) : CountOf sub' f n := by
  unfold CountOf at hc ⊢
  split at hc
  · obtain ⟨text, ht, he⟩ := hc
    exact ⟨text, ht, he.mono h⟩
  · exact hc

theorem FieldSizeOf.mono {depth : Nat} {f : Field} {n : Int} (hf : FieldSizeOf sub depth f n) :
    FieldSizeOf sub' depth f n := by
  obtain ⟨e, c, he, hc, hn⟩ := hf
  exact ⟨e, c, h _ _ he, hc.mono h, hn⟩

theorem MemberCountOf.mono {m : UnionMember} {n : Int} (hc : MemberCountOf sub m n) :
    MemberCountOf sub' m n := by
  unfold MemberCountOf at hc ⊢
  split at hc
  · exact hc.mono h
  · exact hc

theorem MemberSizeOf.mono {depth : Nat} {m : UnionMember} {n : Int}
    (hm : MemberSizeOf sub depth m n) : MemberSizeOf sub' depth m n := by
  obtain ⟨c, e, hc, he, hn⟩ := hm
  exact ⟨c, e, hc.mono h, h _ _ he, hn⟩

theorem KindSize.mono {type : String} {depth : Nat} {n : Int} {kind : TypeKind}
    (hk : KindSize s sub type depth n kind) : KindSize s sub' type depth n kind := by
  cases kind with
  | value c => exact hk
  | aliasOf a | enum e | bitfield b => exact h _ _ hk
  | record r =>
    obtain ⟨fields, sizes, hf, hs, hn⟩ := hk
    exact ⟨fields, sizes, hf, hs.imp fun _ _ hf => hf.mono h, hn⟩
  | union u =>
    obtain ⟨sizes, hs, hn⟩ := hk
    exact ⟨sizes, hs.imp fun _ _ hm => hm.mono h, hn⟩

theorem Answered.mono {q : Query} {n : Int} (ha : Answered s known sub q n) :
    Answered s known sub' q n := by
  cases ha with
  | constant hr hk => exact .constant hr hk
  | size hd ht hn => exact .size hd ht (hn.mono h)

end Monotone

theorem AnswerIn.succ {nesting : Nat} : ∀ {q : Query} {n : Int}, AnswerIn s known nesting q n →
    AnswerIn s known (nesting + 1) q n := by
  induction nesting with
  | zero => exact fun h => h.elim
  | succ nesting ih => exact fun h => Answered.mono (fun _ _ => ih) h

/-- More room gives the same answers. -/
theorem AnswerIn.mono {nesting nesting' : Nat} (hle : nesting ≤ nesting') {q : Query} {n : Int}
    (h : AnswerIn s known nesting q n) : AnswerIn s known nesting' q n := by
  induction hle with
  | refl => exact h
  | step _ ih => exact ih.succ

/-- An answer is found from others with the same room. -/
theorem AnswerIn.answered {nesting : Nat} {q : Query} {n : Int} (h : AnswerIn s known nesting q n) :
    Answered s known (AnswerIn s known nesting) q n := by
  cases nesting with
  | zero => exact h.elim
  | succ nesting => exact Answered.mono (fun _ _ => AnswerIn.succ) h

end Answers

end Schema

end WireTables
