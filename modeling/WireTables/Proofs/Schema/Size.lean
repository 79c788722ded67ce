import Mathlib.Algebra.Order.BigOperators.Group.List
import WireTables.Proofs.Schema.ExactSize

/-!
# Sizes

A type has one size, `HasSize`, whatever it is asked for. It is taken apart along the type: a
further name has the size of what it names, an elementary value that of its encoding, a structure
the sum of the sizes of its fields, and a union the largest size of its members.
-/

namespace WireTables

namespace Schema

/-- The type has this size. -/
def HasSize (s : Schema) (known : Known) (type : String) (n : Int) : Prop :=
  ∃ depth, AnswerIn s known s.nesting (.size type depth) n

/-- The elements of a field are at most this many. -/
def HasCount (s : Schema) (known : Known) (f : Field) (n : Int) : Prop :=
  CountOf (AnswerIn s known s.nesting) f n

/-- A field has at most this size: that of its elements, times their number. -/
def HasFieldSize (s : Schema) (known : Known) (f : Field) (n : Int) : Prop :=
  ∃ e c, HasSize s known f.typeName e ∧ HasCount s known f c ∧ n = e * c

/-- A union member is an array of this many elements, or a single one. -/
def HasMemberCount (s : Schema) (known : Known) (m : UnionMember) (n : Int) : Prop :=
  MemberCountOf (AnswerIn s known s.nesting) m n

section HasSize

variable {s : Schema} {known known' : Known} {type : String} {n n' : Int}

theorem HasSize.unique (h : HasSize s known type n) (h' : HasSize s known type n') : n = n' := by
  obtain ⟨depth, h⟩ := h
  obtain ⟨depth', h'⟩ := h'
  have same : Query.Same (.size type depth) (.size type depth') := rfl
  exact h.unique same h'

theorem HasFieldSize.unique {f : Field} (h : HasFieldSize s known f n)
    (h' : HasFieldSize s known f n') : n = n' := by
  obtain ⟨e, c, he, hc, rfl⟩ := h
  obtain ⟨e', c', he', hc', rfl⟩ := h'
  rw [he.unique he', hc.agree (fun _ _ _ _ hq h h' => h.unique hq h') rfl hc']

theorem HasMemberCount.unique {m : UnionMember} (h : HasMemberCount s known m n)
    (h' : HasMemberCount s known m n') : n = n' :=
  h.agree (fun _ _ _ _ hq h h' => h.unique hq h') h'

theorem yields_ask (hc : s.Complete known) {q : Query} :
    Yields (s.ask q) known n known' ↔ AnswerIn s known s.nesting q n ∧ known' = known :=
  yields_answer hc

theorem HasCount.eq_one {f : Field} (h : HasCount s known f n) (hf : countText? f = none) :
    n = 1 := by
  unfold HasCount CountOf at h
  rwa [hf] at h

/-- The largest number of elements is the value of a text, whenever the field has one. -/
theorem HasCount.eq_of_yields (hc : s.Complete known) {f : Field} (h : HasCount s known f n)
    {text? : Option String} (hf : countText? f = some text?) :
    ∃ text, text? = some text ∧ ∀ m, Yields (s.evaluate text) known m known → n = m := by
  unfold HasCount CountOf at h
  rw [hf] at h
  obtain ⟨text, htext, he⟩ := h
  exact ⟨text, htext, fun m hm => he.unique ((yields_evaluate hc).mp hm).1⟩

/-- The size of a type is the answer to the question for it, which has to be a natural number. -/
theorem yields_wireSize (hc : s.Complete known) {size : Nat} :
    Yields (s.wireSize type) known size known' ↔
      AnswerIn s known s.nesting (.size type 0) size ∧ known' = known := by
  unfold wireSize
  simp only [yields_bind, yields_ask hc]
  constructor
  · rintro ⟨m, _, ⟨hm, rfl⟩, h⟩
    split at h
    · exact (not_yields_throw h).elim
    · next hpos =>
      obtain ⟨rfl, rfl⟩ := yields_pure.mp h
      rw [Int.toNat_of_nonneg (Int.not_lt.mp hpos)]
      exact ⟨hm, rfl⟩
  · rintro ⟨hm, rfl⟩
    refine ⟨size, known', ⟨hm, rfl⟩, ?_⟩
    rw [if_neg (Int.not_lt.mpr (Int.natCast_nonneg size))]
    exact yields_pure.mpr ⟨rfl, rfl⟩

/-- What is calculated as the size of a type is its size. -/
theorem hasSize_of_wireSize (hc : s.Complete known) {size : Nat}
    (h : Yields (s.wireSize type) known size known') : HasSize s known type size :=
  ⟨0, ((yields_wireSize hc).mp h).1⟩

/-- A size that is calculated is a word. -/
theorem sizeWord_of_wireSize (h : s.Remembers (· = known)) {size : Nat}
    (hy : Yields (s.wireSize type) known size known') : sizeWord size = size := by
  unfold wireSize at hy
  obtain ⟨m, _, hm, hy⟩ := yields_bind.mp hy
  have hword := ((ask_keeps h _).of_yields rfl hm).2
  split at hy
  · exact (not_yields_throw hy).elim
  · next hpos =>
    obtain ⟨rfl, -⟩ := yields_pure.mp hy
    simp only [fitsWord, Bool.and_eq_true, decide_eq_true_eq] at hword
    unfold sizeWord
    rw [Int.bmod_eq_of_le (by omega) (by omega)]

theorem HasSize.kindSize (h : HasSize s known type n) : ∃ t depth, s.lookup? type = some t ∧
    KindSize s (AnswerIn s known s.nesting) type depth n t.kind := by
  obtain ⟨depth, h⟩ := h
  cases h.answered with
  | @size _ _ t _ _ ht hn => exact ⟨t, depth, ht, hn⟩

/-- A further name, an enumeration or a bitfield has the size of what is under it. -/
theorem HasSize.under (h : HasSize s known type n) {t : TypeEntry} (ht : s.lookup? type = some t)
    {base : String} (hb : (∃ a, t.kind = .aliasOf a ∧ a.base = base) ∨
      (∃ e, t.kind = .enum e ∧ e.underlying = base) ∨
        ∃ b, t.kind = .bitfield b ∧ b.underlying = base) : HasSize s known base n := by
  obtain ⟨t', depth, ht', hn⟩ := h.kindSize
  cases ht.symm.trans ht'
  rcases hb with ⟨a, hk, rfl⟩ | ⟨e, hk, rfl⟩ | ⟨b, hk, rfl⟩ <;> rw [hk] at hn <;> exact ⟨_, hn⟩

/-- A type that is an elementary value in the end has the size of its encoding. -/
theorem HasSize.scalar (h : HasSize s known type n) {c : Scalar} (hc : s.scalar? type = some c) :
    n = sizeWord c.size := by
  have follow : ∀ {hops : Nat} {type : String} {t t' : TypeEntry}, HasSize s known type n →
      s.lookup? type = some t → s.followScalar? hops t = some (t', c) → n = sizeWord c.size := by
    intro hops
    induction hops with
    | zero => exact fun _ _ h => nomatch h
    | succ hops ih =>
      intro type t t' h ht hf
      have under : ∀ {base : String}, HasSize s known base n →
          (s.lookup? base >>= s.followScalar? hops) = some (t', c) → n = sizeWord c.size := by
        intro base hbase hf
        obtain ⟨next, hnext, hf⟩ := Option.bind_eq_some_iff.mp hf
        exact ih hbase hnext hf
      unfold followScalar? at hf
      split at hf
      · next v hk =>
        cases hf
        obtain ⟨t', depth, ht', hn⟩ := h.kindSize
        cases ht.symm.trans ht'
        rw [hk] at hn
        exact hn
      · next a hk => exact under (h.under ht (.inl ⟨a, hk, rfl⟩)) hf
      · next e hk => exact under (h.under ht (.inr (.inl ⟨e, hk, rfl⟩))) hf
      · next b hk => exact under (h.under ht (.inr (.inr ⟨b, hk, rfl⟩))) hf
      · cases hf
      · cases hf
  obtain ⟨⟨t', c'⟩, hscalar, rfl⟩ := Option.map_eq_some_iff.mp hc
  obtain ⟨t, ht, hf⟩ := Option.bind_eq_some_iff.mp hscalar
  exact follow h ht hf

/-- Whatever constants are known, the size of a type that is an elementary value in the end is that
of its encoding. -/
theorem answer_of_scalar {hops nesting depth : Nat} {t t' : TypeEntry} {c : Scalar} {k k' : Known}
    (ht : s.lookup? type = some t) (hf : s.followScalar? hops t = some (t', c))
    (h : Yields (s.answer nesting (.size type depth)) k n k') : n = sizeWord c.size := by
  induction hops generalizing nesting depth type t k with
  | zero => cases hf
  | succ hops ih =>
    cases nesting with
    | zero => exact (not_yields_throw h).elim
    | succ nesting =>
      have under : ∀ {base : String} {depth : Nat} {k : Known},
          (s.lookup? base >>= s.followScalar? hops) = some (t', c) →
            Yields (s.answer nesting (.size base depth)) k n k' → n = sizeWord c.size := by
        intro base depth k hf h
        obtain ⟨next, hnext, hf⟩ := Option.bind_eq_some_iff.mp hf
        exact ih hnext hf h
      unfold answer answerStep sizeStep at h
      dsimp only at h
      split at h
      · obtain ⟨_, _, hthrow, -⟩ := yields_bind.mp h
        exact (not_yields_throw hthrow).elim
      · obtain ⟨entry, k₁, hrequire, h⟩ := yields_bind.mp h
        obtain ⟨hrequire, -⟩ := yields_mk_pure.mp hrequire
        cases ht.symm.trans (require_eq_ok.mp hrequire)
        unfold followScalar? at hf
        split at hf
        · next v hk =>
          cases hf
          simp only [hk] at h
          exact (yields_pure.mp h).1
        · next a hk =>
          simp only [hk] at h
          exact under hf h
        · next e hk =>
          simp only [hk] at h
          exact under hf h
        · next b hk =>
          simp only [hk] at h
          exact under hf h
        · cases hf
        · cases hf

/-- A further name has the size of what it stands for in the end. -/
theorem HasSize.target (h : HasSize s known type n) {t : TypeEntry} (ht : s.target type = .ok t) :
    HasSize s known t.specName n := by
  have follow : ∀ {hops : Nat} {t t' : TypeEntry} {name : String}, HasSize s known t.specName n →
      s.lookup? t.specName = some t → s.followAliases name hops t = .ok t' →
        HasSize s known t'.specName n := by
    intro hops
    induction hops with
    | zero => exact fun _ _ h => nomatch h
    | succ hops ih =>
      intro t t' name h ht hf
      unfold followAliases at hf
      split at hf
      · next a hk =>
        obtain ⟨next, hnext, hf⟩ := bind_eq_ok.mp hf
        have hnext := require_eq_ok.mp hnext
        have hname := (mem_of_lookup? hnext).2
        exact ih (hname ▸ h.under ht (.inl ⟨a, hk, rfl⟩)) (hname ▸ hnext) hf
      · cases hf
        exact h
  obtain ⟨first, hfirst, hf⟩ := bind_eq_ok.mp ht
  have hfirst := require_eq_ok.mp hfirst
  have hname := (mem_of_lookup? hfirst).2
  exact follow (hname ▸ h) (hname ▸ hfirst) hf

/-- The fields of a structure have sizes, and the structure has their sum. -/
theorem HasSize.fields (h : HasSize s known type n) {fields : List Field}
    (hf : s.allFields type = .ok fields) :
    ∃ sizes, List.Forall₂ (HasFieldSize s known) fields sizes ∧ n = sizes.sum := by
  obtain ⟨t, _, ht, -⟩ := collectFields_succ.mp hf
  obtain ⟨hf, r, hr⟩ := allFields_of_target ht hf
  obtain ⟨t', depth, ht', hn⟩ := (h.target ht).kindSize
  cases (lookup?_of_target ht).1.symm.trans ht'
  unfold TypeEntry.record? at hr
  split at hr
  · next hk =>
    rw [hk] at hn
    obtain ⟨fields', sizes, hf', hs, htotal⟩ := hn
    cases hf.symm.trans hf'
    refine ⟨sizes, hs.imp ?_, by rw [total?_eq htotal, Int.zero_add]⟩
    rintro f size ⟨e, c, he, hc, hsize⟩
    exact ⟨e, c, ⟨_, he⟩, hc, checkedWord_eq hsize⟩
  · cases hr

/-- The members of a union have sizes, and the union has the largest. -/
theorem HasSize.union (h : HasSize s known type n) {u : UnionType}
    (hu : (s.lookup? type).bind TypeEntry.union? = some u) : ∃ sizes,
      List.Forall₂ (fun m size => ∃ e c, HasSize s known m.typeName e ∧
        HasMemberCount s known m c ∧ size = e * c) u.present sizes ∧ n = sizes.foldl max 0 := by
  obtain ⟨t, depth, ht, hn⟩ := h.kindSize
  rw [ht, Option.bind_some] at hu
  unfold TypeEntry.union? at hu
  split at hu
  · next hk =>
    cases hu
    rw [hk] at hn
    obtain ⟨sizes, hs, rfl⟩ := hn
    refine ⟨sizes, hs.imp ?_, rfl⟩
    rintro m size ⟨c, e, hc, he, hsize⟩
    exact ⟨e, c, ⟨_, he⟩, hc, checkedWord_eq hsize⟩
  · cases hu

end HasSize

end Schema

/-- The texts that say how many elements the fields and members of a type have. -/
def TypeEntry.countTexts (t : TypeEntry) : List String :=
  match t.kind with
  | .record r => r.fields.flatMap fun f => f.arraySize.toList ++ f.domain.maximum?.toList
  | .union u => u.members.flatMap fun m => m.arraySize.toList
  | _ => []

namespace Schema

/-- No array size and no largest value of a domain is negative. -/
def CountsNonnegative (s : Schema) (known : Known) : Prop :=
  ∀ t ∈ s.types, ∀ text ∈ t.countTexts, ∀ n, Yields (s.evaluate text) known n known → 0 ≤ n

section Nonnegative

variable {s : Schema} {known : Known} (hc : s.Complete known) (hcounts : s.CountsNonnegative known)
  (hstandard : ∀ t ∈ s.types, ∀ c, t.kind = .value c → Wire.Standard c)

theorem sizeWord_eq {n : Nat} (h : [1, 2, 4, 8].contains n = true) : sizeWord n = n := by
  have hsize : n ≤ 8 := by
    have h := List.contains_iff_mem.mp h
    simp only [List.mem_cons, List.not_mem_nil, or_false] at h
    omega
  unfold sizeWord
  rw [Int.bmod_eq_of_le (by omega) (by omega)]

/-- The size that is calculated for an elementary value is that of its encoding. -/
theorem wireSize_of_scalar {s : Schema} {type : String} {c : Scalar} {size : Nat} {k k' : Known}
    (hc : s.scalar? type = some c) (hstandard : [1, 2, 4, 8].contains c.size = true)
    (h : Yields (s.wireSize type) k size k') : size = c.size := by
  obtain ⟨⟨t', c'⟩, hscalar, rfl⟩ := Option.map_eq_some_iff.mp hc
  obtain ⟨t, ht, hf⟩ := Option.bind_eq_some_iff.mp hscalar
  unfold wireSize at h
  obtain ⟨m, k₁, hm, h⟩ := yields_bind.mp h
  have hm := answer_of_scalar ht hf hm
  rw [sizeWord_eq hstandard] at hm
  subst hm
  split at h
  · exact (not_yields_throw h).elim
  · exact (yields_pure.mp h).1

theorem mem_countTexts {t : TypeEntry} {r : Record} (hr : t.record? = some r) {f : Field}
    (hf : f ∈ r.fields) {text? : Option String} {text : String}
    (hcount : countText? f = some text?) (htext : text? = some text) : text ∈ t.countTexts := by
  obtain ⟨id, specName, name, comment, implemented, kind⟩ := t
  cases kind with
  | record r' =>
    cases hr
    refine List.mem_flatMap.mpr ⟨f, hf, List.mem_append.mpr ?_⟩
    unfold countText? at hcount
    split at hcount
    · cases hcount
      exact .inl (Option.mem_toList.mpr htext)
    · cases hcount
      exact .inr (Option.mem_toList.mpr htext)
    · cases hcount
      exact .inr (Option.mem_toList.mpr htext)
    · cases hcount
  | _ => cases hr

include hc hcounts

/-- Fields of types have no negative number of elements. -/
theorem CountOf.nonneg {nesting : Nat} (hle : nesting ≤ s.nesting) {t : TypeEntry}
    (ht : t ∈ s.types) {r : Record} (hr : t.record? = some r) {f : Field} (hf : f ∈ r.fields) {n : Int}
    (h : CountOf (AnswerIn s known nesting) f n) : 0 ≤ n := by
  unfold CountOf at h
  split at h
  · next text? hcount =>
    obtain ⟨text, htext, he⟩ := h
    refine hcounts t ht text (mem_countTexts hr hf hcount htext) n ?_
    exact (yields_evaluate hc).mpr ⟨he.mono fun _ _ => AnswerIn.mono hle, rfl⟩
  · omega

include hstandard

/-- Types have no negative sizes. -/
theorem AnswerIn.nonneg {nesting : Nat} (hle : nesting ≤ s.nesting) {type : String} {depth : Nat}
    {n : Int} (h : AnswerIn s known nesting (.size type depth) n) : 0 ≤ n := by
  induction nesting generalizing type depth n with
  | zero => exact h.elim
  | succ nesting ih =>
    have ih := @ih (by omega)
    cases h with
    | @size _ _ t _ _ ht hn =>
      have hmem := (mem_of_lookup? ht).1
      have hvalue := hstandard t hmem
      generalize t.kind = kind at hn hvalue
      cases kind with
      | value c =>
        have hn : n = sizeWord c.size := hn
        rw [hn, sizeWord_eq (hvalue c rfl).1]
        exact Int.natCast_nonneg _
      | aliasOf a | enum e | bitfield b => exact ih hn
      | record r =>
        obtain ⟨fields, sizes, hf, hs, htotal⟩ := hn
        have hsizes : ∀ size ∈ sizes, 0 ≤ size := by
          intro size hsize
          obtain ⟨f, hfield, e, c, he, hcount, hproduct⟩ := exists_of_forall₂ hs hsize
          obtain ⟨x, hx, r, hr, hfr⟩ := exists_of_mem_collectFields hf hfield
          rw [checkedWord_eq hproduct]
          exact Int.mul_nonneg (ih he) (hcount.nonneg hc hcounts (by omega) hx hr hfr)
        rw [total?_eq htotal, Int.zero_add]
        exact List.sum_nonneg hsizes
      | union u =>
        obtain ⟨sizes, -, rfl⟩ := hn
        exact (le_foldl_max sizes 0).1

theorem HasSize.nonneg {type : String} {n : Int} (h : HasSize s known type n) : 0 ≤ n := by
  obtain ⟨depth, h⟩ := h
  exact h.nonneg hc hcounts hstandard (Nat.le_refl _)

theorem HasFieldSize.nonneg {type : String} {fields : List Field}
    (hfields : s.allFields type = .ok fields) {f : Field} (hf : f ∈ fields) {n : Int}
    (h : HasFieldSize s known f n) : 0 ≤ n := by
  obtain ⟨e, c, he, hcount, rfl⟩ := h
  obtain ⟨t, ht, r, hr, hfr⟩ := exists_of_mem_collectFields hfields hf
  exact Int.mul_nonneg (he.nonneg hc hcounts hstandard)
    (CountOf.nonneg hc hcounts (Nat.le_refl _) ht hr hfr hcount)

end Nonnegative

end Schema

end WireTables
