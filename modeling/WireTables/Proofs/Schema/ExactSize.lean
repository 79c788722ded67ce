import Mathlib.Algebra.BigOperators.Group.List.Basic
import WireTables.Proofs.Schema.Answers

/-!
# Exact sizes

Sizes and values of texts as integers that may grow without bound, found from questions that may
nest without limit. Every answer is exact (`AnswerIn.exact`), but not every exact size is an answer:
sums that leave the 64-bit words on the way have none. Exact sizes are what different questions
agree on, also those of different schemas (`Exact.agree`): so a question has one answer
(`AnswerIn.unique`).
-/

namespace WireTables

/-- The same question, whatever it is nested in. -/
def Query.Same : Query → Query → Prop
  | .constant name _, .constant name' _ => name = name'
  | .size type _, .size type' _ => type = type'
  | _, _ => False

namespace Schema

/-- The exact size of a field: that of its elements, times their number. -/
def FieldExact (sub : Query → Int → Prop) (f : Field) (n : Int) : Prop :=
  ∃ e c, sub (.size f.typeName 0) e ∧ CountOf sub f c ∧ n = e * c

/-- The exact size of a union member. -/
def MemberExact (sub : Query → Int → Prop) (m : UnionMember) (n : Int) : Prop :=
  ∃ c e, MemberCountOf sub m c ∧ sub (.size m.typeName 0) e ∧ n = e * c

/-- The exact size of a type of a kind. -/
def KindExact (s : Schema) (sub : Query → Int → Prop) (type : String) (n : Int) : TypeKind → Prop
  | .value c => n = sizeWord c.size
  | .aliasOf a => sub (.size a.base 0) n
  | .enum e => sub (.size e.underlying 0) n
  | .bitfield b => sub (.size b.underlying 0) n
  | .record _ => ∃ fields sizes, s.allFields type = .ok fields ∧
      List.Forall₂ (FieldExact sub) fields sizes ∧ n = sizes.sum
  | .union u => ∃ sizes, List.Forall₂ (MemberExact sub) u.present sizes ∧ n = sizes.foldl max 0

/-- The exact answer to a question where `sub` gives the exact answers to others. -/
inductive Exact (s : Schema) (known : Known) (sub : Query → Int → Prop) : Query → Int → Prop
  | constant {name depth number n} (hr : s.resolveConstant? name = some number)
    (hk : known.lookup number = some n) : Exact s known sub (.constant name depth) n
  | size {type depth t n} (ht : s.lookup? type = some t) (h : KindExact s sub type n t.kind) :
    Exact s known sub (.size type depth) n

/-- The exact answers with at most `nesting` questions inside each other. -/
def ExactIn (s : Schema) (known : Known) : Nat → Query → Int → Prop
  | 0 => fun _ _ => False
  | nesting + 1 => Exact s known (ExactIn s known nesting)

theorem checkedWord_eq {n m : Int} (h : checkedWord n = some m) : m = n :=
  (checkedWord_eq_some h).1

theorem total?_eq {sizes : List Int} : ∀ {start n : Int}, total? start sizes = some n →
    n = start + sizes.sum := by
  induction sizes with
  | nil =>
    rintro start n ⟨⟩
    rw [List.sum_nil, Int.add_zero]
  | cons size sizes ih =>
    intro start n h
    rw [total?, List.foldlM_cons] at h
    obtain ⟨next, hadd, h⟩ := Option.bind_eq_some_iff.mp h
    rw [ih h, checkedWord_eq hadd, List.sum_cons]
    omega

section Answers

variable {s : Schema} {known : Known}

/-- What a question is nested in does not matter. -/
theorem ExactIn.same {nesting : Nat} {q q' : Query} {n : Int} (hq : q.Same q')
    (h : ExactIn s known nesting q n) : ExactIn s known nesting q' n := by
  cases nesting with
  | zero => exact h.elim
  | succ nesting =>
    cases h with
    | constant hr hk =>
      cases q' with
      | constant =>
        cases hq
        exact .constant hr hk
      | size => cases hq
    | size ht hn =>
      cases q' with
      | constant => cases hq
      | size =>
        cases hq
        exact .size ht hn

/-- The size of a type is exact where the answers that it is found from are. -/
theorem KindSize.exact {sub sub' : Query → Int → Prop} (h : ∀ q n, sub q n → sub' q n)
    (hsize : ∀ type depth n, sub (.size type depth) n → sub' (.size type 0) n) {type : String}
    {depth : Nat} {n : Int} {kind : TypeKind} (hk : KindSize s sub type depth n kind) :
    KindExact s sub' type n kind := by
  cases kind with
  | value c => exact hk
  | aliasOf a | enum e | bitfield b => exact hsize _ _ _ hk
  | record r =>
    obtain ⟨fields, sizes, hf, hs, htotal⟩ := hk
    refine ⟨fields, sizes, hf, hs.imp ?_, by rw [total?_eq htotal, Int.zero_add]⟩
    rintro f n ⟨e, c, he, hc, hn⟩
    exact ⟨e, c, hsize _ _ _ he, hc.mono h, checkedWord_eq hn⟩
  | union u =>
    obtain ⟨sizes, hs, hn⟩ := hk
    refine ⟨sizes, hs.imp ?_, hn⟩
    rintro m n ⟨c, e, hc, he, hn⟩
    exact ⟨c, e, hc.mono h, hsize _ _ _ he, checkedWord_eq hn⟩

/-- Answers are exact. -/
theorem AnswerIn.exact {nesting : Nat} {q : Query} {n : Int} (h : AnswerIn s known nesting q n) :
    ExactIn s known nesting q n := by
  induction nesting generalizing q n with
  | zero => exact h.elim
  | succ nesting ih =>
    have size : ∀ type depth n, AnswerIn s known nesting (.size type depth) n →
        ExactIn s known nesting (.size type 0) n := fun type depth n h =>
      ExactIn.same (q := .size type depth) rfl (ih h)
    cases h with
    | constant hr hk => exact .constant hr hk
    | size hd ht hn => exact .size ht (hn.exact (fun _ _ => ih) size)

end Answers

section Agree

variable {s s' : Schema} {known : Known} {sub sub' : Query → Int → Prop}
  (h : ∀ q q' n n', Query.Same q q' → sub q n → sub' q' n' → n = n')

include h

theorem Evaluates.agree {text : String} {depth depth' : Nat} {n n' : Int}
    (he : Evaluates sub text depth n) (he' : Evaluates sub' text depth' n') : n = n' := by
  obtain ⟨-, ts, ht, -, items, hi, hc⟩ := he
  obtain ⟨-, ts', ht', -, items', hi', hc'⟩ := he'
  cases ht.symm.trans ht'
  have same : items = items' := by
    refine forall₂_unique (fun t _ i i' hti hti' => ?_) hi hi'
    cases hti with
    | @name name n hn => cases hti' with
      | @name _ n' hn' =>
        rw [h (.constant name _) (.constant name _) n n' rfl hn hn']
    | @sizeOf type n hn => cases hti' with
      | @sizeOf _ n' hn' => rw [h (.size type _) (.size type _) n n' rfl hn hn']
    | _ => cases hti'; rfl
  subst same
  exact Except.ok.inj (hc.symm.trans hc')

theorem sizes_agree {type type' : String} {depth depth' : Nat} {n n' : Int} (ht : type' = type)
    (hn : sub (.size type depth) n) (hn' : sub' (.size type' depth') n') : n = n' :=
  h (.size type depth) (.size type' depth') n n' ht.symm hn hn'

theorem CountOf.agree {f f' : Field} {n n' : Int} (hf : countText? f' = countText? f)
    (hc : CountOf sub f n) (hc' : CountOf sub' f' n') : n = n' := by
  unfold CountOf at hc hc'
  rw [hf] at hc'
  split at hc
  · obtain ⟨text, rfl, he⟩ := hc
    next htext =>
      rw [htext] at hc'
      obtain ⟨_, ⟨⟩, he'⟩ := hc'
      exact he.agree h he'
  · next hnone =>
    rw [hnone] at hc'
    exact hc.trans hc'.symm

theorem FieldExact.agree {f f' : Field} {n n' : Int} (htype : f'.typeName = f.typeName)
    (hcount : countText? f' = countText? f) (hf : FieldExact sub f n)
    (hf' : FieldExact sub' f' n') : n = n' := by
  obtain ⟨e, c, he, hc, rfl⟩ := hf
  obtain ⟨e', c', he', hc', rfl⟩ := hf'
  rw [sizes_agree h htype he he', hc.agree h hcount hc']

theorem MemberCountOf.agree {m : UnionMember} {n n' : Int} (hc : MemberCountOf sub m n)
    (hc' : MemberCountOf sub' m n') : n = n' := by
  unfold MemberCountOf at hc hc'
  split at hc
  · next htext =>
    rw [htext] at hc'
    exact hc.agree h hc'
  · next hnone =>
    rw [hnone] at hc'
    exact hc.trans hc'.symm

theorem MemberExact.agree {m : UnionMember} {n n' : Int} (hm : MemberExact sub m n)
    (hm' : MemberExact sub' m n') : n = n' := by
  obtain ⟨c, e, hc, he, rfl⟩ := hm
  obtain ⟨c', e', hc', he', rfl⟩ := hm'
  rw [sizes_agree h rfl he he', hc.agree h hc']

/-- Types of the same kind have the same exact size, structures where the sizes of their fields add
up to the same. -/
theorem KindExact.agree {type : String} {kind kind' : TypeKind} {n n' : Int}
    (hkind : kind' = kind ∨ ∃ r r', kind = .record r ∧ kind' = .record r')
    (hrecord : ∀ fields fields' sizes sizes', s.allFields type = .ok fields →
      s'.allFields type = .ok fields' → List.Forall₂ (FieldExact sub) fields sizes →
        List.Forall₂ (FieldExact sub') fields' sizes' → sizes.sum = sizes'.sum)
    (hn : KindExact s sub type n kind) (hn' : KindExact s' sub' type n' kind') : n = n' := by
  have records : ∀ {r r'}, KindExact s sub type n (.record r) →
      KindExact s' sub' type n' (.record r') → n = n' := by
    rintro r r' ⟨fields, sizes, hf, hs, rfl⟩ ⟨fields', sizes', hf', hs', rfl⟩
    exact hrecord _ _ _ _ hf hf' hs hs'
  rcases hkind with rfl | ⟨r, r', rfl, rfl⟩
  · cases kind' with
    | value c => exact hn.trans hn'.symm
    | aliasOf a | enum e | bitfield b => exact sizes_agree h rfl hn hn'
    | record r => exact records hn hn'
    | union u =>
      obtain ⟨sizes, hs, rfl⟩ := hn
      obtain ⟨sizes', hs', rfl⟩ := hn'
      rw [forall₂_unique (fun m _ _ _ hm hm' => hm.agree h hm') hs hs']
  · exact records hn hn'

/-- Schemas with the same constants and the same types but for the fields of their structures give
the same exact answers where the sizes of fields add up to the same. -/
theorem Exact.agree (hresolve : ∀ name, s'.resolveConstant? name = s.resolveConstant? name)
    (hkind : ∀ type t t', s.lookup? type = some t → s'.lookup? type = some t' →
      t'.kind = t.kind ∨ ∃ r r', t.kind = .record r ∧ t'.kind = .record r')
    (hrecord : ∀ type fields fields' sizes sizes', s.allFields type = .ok fields →
      s'.allFields type = .ok fields' → List.Forall₂ (FieldExact sub) fields sizes →
        List.Forall₂ (FieldExact sub') fields' sizes' → sizes.sum = sizes'.sum)
    {q q' : Query} {n n' : Int} (hq : Query.Same q q') (he : Exact s known sub q n)
    (he' : Exact s' known sub' q' n') : n = n' := by
  cases he with
  | constant hr hk =>
    cases he' with
    | constant hr' hk' =>
      cases hq
      rw [hresolve] at hr'
      cases hr.symm.trans hr'
      exact Option.some.inj (hk.symm.trans hk')
    | size => cases hq
  | size ht hn =>
    cases he' with
    | constant => cases hq
    | size ht' hn' =>
      cases hq
      exact hn.agree h (hkind _ _ _ ht ht') (hrecord _) hn'

end Agree

section Unique

variable {s : Schema} {known : Known}

/-- A question has one exact answer. -/
theorem ExactIn.unique {nesting nesting' : Nat} {q q' : Query} {n n' : Int}
    (hq : Query.Same q q') (h : ExactIn s known nesting q n)
    (h' : ExactIn s known nesting' q' n') : n = n' := by
  induction nesting generalizing nesting' q q' n n' with
  | zero => exact h.elim
  | succ nesting ih =>
    cases nesting' with
    | zero => exact h'.elim
    | succ nesting' =>
      have inner : ∀ q q' n n', Query.Same q q' → ExactIn s known nesting q n →
          ExactIn s known nesting' q' n' → n = n' := fun _ _ _ _ hq h h' => ih hq h h'
      refine Exact.agree inner (fun _ => rfl) (fun type t t' ht ht' => ?_) ?_ hq h h'
      · cases ht.symm.trans ht'
        exact .inl rfl
      · intro type fields fields' sizes sizes' hf hf' hs hs'
        cases hf.symm.trans hf'
        rw [forall₂_unique (fun f _ _ _ hf hf' => hf.agree inner rfl rfl hf') hs hs']

/-- A question has one answer. -/
theorem AnswerIn.unique {nesting nesting' : Nat} {q q' : Query} {n n' : Int}
    (hq : Query.Same q q') (h : AnswerIn s known nesting q n)
    (h' : AnswerIn s known nesting' q' n') : n = n' :=
  ExactIn.unique hq h.exact h'.exact

/-- The value of a text does not depend on what it is evaluated for. -/
theorem Evaluates.unique {nesting nesting' depth depth' : Nat} {text : String} {n n' : Int}
    (h : Evaluates (AnswerIn s known nesting) text depth n)
    (h' : Evaluates (AnswerIn s known nesting') text depth' n') : n = n' :=
  h.agree (fun _ _ _ _ hq h h' => h.unique hq h') h'

end Unique

end Schema

end WireTables
