import Mathlib.Data.List.Forall2
import WireTables.Schema.Registry

/-!
# Calculations that may fail

Evaluation, encoding, decoding and the editing of registries are calculations of one kind: they
carry a state along and may fail. `Yields` says that one ends well and with what; its laws take a
sequence of calculations apart, forwards and backwards. `Keeps` says what a calculation leaves true
of its state, whether it fails or not, and what is true of its result; `Avoids` says which errors it
does not fail with, `Gives` that it does not fail at all, `Throws` that it fails and with what, and
`GivesUnless` that it does not fail with some errors and what it gives otherwise.
-/

namespace WireTables

variable {ε σ α β : Type}

/-- A sequence of steps without a state ends well when its parts do. -/
theorem bind_eq_ok {r : Except ε α} {f : α → Except ε β} {b : β} :
    (r >>= f) = .ok b ↔ ∃ a, r = .ok a ∧ f a = .ok b := by
  cases r with
  | error e => exact ⟨fun h => (nomatch h), fun ⟨_, h, _⟩ => (nomatch h)⟩
  | ok a => exact ⟨fun h => ⟨a, rfl, h⟩, fun ⟨_, h, hf⟩ => by cases h; exact hf⟩

/-- All elements of a list are taken through a step that may fail. -/
theorem mapM_eq_ok {f : α → Except ε β} : ∀ {xs : List α} {ys : List β},
    xs.mapM f = .ok ys ↔ List.Forall₂ (fun x y => f x = .ok y) xs ys
  | [], ys => by
    rw [List.mapM_nil, List.forall₂_nil_left_iff]
    exact ⟨fun h => (by cases h; rfl), fun h => (by rw [h]; rfl)⟩
  | x :: xs, ys => by
    simp only [List.mapM_cons, bind_eq_ok, mapM_eq_ok, List.forall₂_cons_left_iff]
    constructor
    · rintro ⟨y, hy, zs, hzs, h⟩
      cases h
      exact ⟨y, zs, hy, hzs, rfl⟩
    · rintro ⟨y, zs, hy, hzs, rfl⟩
      exact ⟨y, hy, zs, hzs, rfl⟩

/-- What is related to elements of a list in order is related to one of them. -/
theorem exists_of_forall₂ {R : α → β → Prop} {xs : List α} {ys : List β}
    (h : List.Forall₂ R xs ys) {y : β} (hy : y ∈ ys) : ∃ x ∈ xs, R x y := by
  induction h with
  | nil => cases hy
  | cons hx _ ih =>
    rcases List.mem_cons.mp hy with rfl | hy
    · exact ⟨_, List.mem_cons_self, hx⟩
    · obtain ⟨x, hmem, hx⟩ := ih hy
      exact ⟨x, List.mem_cons_of_mem _ hmem, hx⟩

/-- What corresponds to two lists one after the other comes in two parts. -/
theorem exists_of_forall₂_append {R : α → β → Prop} {xs ys : List α} {zs : List β}
    (h : List.Forall₂ R (xs ++ ys) zs) :
    ∃ l r, zs = l ++ r ∧ List.Forall₂ R xs l ∧ List.Forall₂ R ys r := by
  induction xs generalizing zs with
  | nil => exact ⟨[], zs, rfl, .nil, h⟩
  | cons x xs ih =>
    rw [List.cons_append, List.forall₂_cons_left_iff] at h
    obtain ⟨z, rest, hz, hrest, rfl⟩ := h
    obtain ⟨l, r, rfl, hl, hr⟩ := ih hrest
    exact ⟨z :: l, r, rfl, .cons hz hl, hr⟩

/-- Lists are related by way of a third one, if elements are. -/
theorem forall₂_trans {R : α → α → Prop} (htrans : ∀ x y z, R x y → R y z → R x z)
    {xs ys zs : List α} (h : List.Forall₂ R xs ys) (h' : List.Forall₂ R ys zs) :
    List.Forall₂ R xs zs := by
  induction h generalizing zs with
  | nil => exact h'
  | cons hx _ ih =>
    cases h' with
    | cons hx' hrest => exact .cons (htrans _ _ _ hx hx') (ih hrest)

/-- The related elements of lists, with what is known of the first ones. -/
theorem forall₂_mem {R : α → β → Prop} {xs : List α} {ys : List β}
    (h : List.Forall₂ R xs ys) : List.Forall₂ (fun x y => x ∈ xs ∧ R x y) xs ys :=
  (List.forall₂_and_left xs ys).mpr ⟨fun _ h => h, h⟩

/-- What comes out of such a list comes from one of its elements. -/
theorem exists_of_mem_mapM {f : α → Except ε β} {xs : List α} {ys : List β} {y : β}
    (h : xs.mapM f = .ok ys) (hy : y ∈ ys) : ∃ x ∈ xs, f x = .ok y :=
  exists_of_forall₂ (mapM_eq_ok.mp h) hy

/-- Started in `s`, the calculation ends well, gives `a` and leaves `s'`. -/
def Yields (m : ExceptT ε (StateM σ) α) (s : σ) (a : α) (s' : σ) : Prop :=
  Id.run (m.run s) = (.ok a, s')

namespace Yields

/-- A calculation has one outcome. -/
theorem unique {m : ExceptT ε (StateM σ) α} {s s₁ s₂ : σ} {a b : α}
    (h₁ : Yields m s a s₁) (h₂ : Yields m s b s₂) : a = b ∧ s₁ = s₂ := by
  have h := h₁.symm.trans h₂
  simp only [Prod.mk.injEq, Except.ok.injEq] at h
  exact h

end Yields

theorem ok_of_toOption {r : Except ε α} {a : α} (h : r.toOption = some a) : r = .ok a := by
  cases r with
  | error e => cases h
  | ok b =>
    cases h
    rfl

/-- A calculation whose outcome has been worked out. -/
theorem yields_of_toOption {m : ExceptT ε (StateM σ) α} {s : σ} {a : α}
    (h : (Id.run (m.run s)).1.toOption = some a) : Yields m s a (Id.run (m.run s)).2 :=
  Prod.ext (ok_of_toOption h) rfl

theorem run_bind (m : ExceptT ε (StateM σ) α) (f : α → ExceptT ε (StateM σ) β) (s : σ) :
    Id.run ((m >>= f).run s) = match Id.run (m.run s) with
      | (.ok a, s') => Id.run ((f a).run s')
      | (.error e, s') => (.error e, s') := by
  show Id.run (StateT.bind m (ExceptT.bindCont f) s) = _
  unfold StateT.bind
  show (match Id.run (m.run s) with | (r, s') => Id.run (ExceptT.bindCont f r s')) = _
  rcases Id.run (m.run s) with ⟨r, s'⟩
  cases r <;> rfl

theorem run_map (m : ExceptT ε (StateM σ) α) (f : α → β) (s : σ) :
    Id.run ((f <$> m).run s) = ((Id.run (m.run s)).1.map f, (Id.run (m.run s)).2) := by
  rw [map_eq_pure_bind, run_bind]
  rcases Id.run (m.run s) with ⟨r, s'⟩
  cases r <;> rfl

/-- Nothing comes after a failure. -/
theorem throw_bind {e : ε} {f : α → ExceptT ε (StateM σ) β} : (throw e >>= f) = throw e :=
  rfl

@[simp] theorem yields_pure {a b : α} {s s' : σ} :
    Yields (pure a : ExceptT ε (StateM σ) α) s b s' ↔ b = a ∧ s' = s := by
  constructor
  · intro h
    have h : (Except.ok a, s) = (Except.ok b, s') := h
    simp only [Prod.mk.injEq, Except.ok.injEq] at h
    exact ⟨h.1.symm, h.2.symm⟩
  · rintro ⟨rfl, rfl⟩
    rfl

@[simp] theorem not_yields_throw {e : ε} {a : α} {s s' : σ} :
    ¬ Yields (throw e : ExceptT ε (StateM σ) α) s a s' := by
  intro h
  have h : (Except.error e, s) = (Except.ok a, s') := h
  simp only [Prod.mk.injEq, reduceCtorEq, false_and] at h

/-- A sequence ends well when its parts do, one after the other. -/
@[simp] theorem yields_bind {m : ExceptT ε (StateM σ) α} {f : α → ExceptT ε (StateM σ) β}
    {s s'' : σ} {b : β} :
    Yields (m >>= f) s b s'' ↔ ∃ a s', Yields m s a s' ∧ Yields (f a) s' b s'' := by
  unfold Yields
  rw [run_bind]
  constructor
  · intro h
    split at h
    · next a s' hm => exact ⟨a, s', hm, h⟩
    · simp only [Prod.mk.injEq, reduceCtorEq, false_and] at h
  · rintro ⟨a, s', hm, hf⟩
    rw [hm]
    exact hf

@[simp] theorem yields_map {m : ExceptT ε (StateM σ) α} {f : α → β} {s s' : σ} {b : β} :
    Yields (f <$> m) s b s' ↔ ∃ a, Yields m s a s' ∧ b = f a := by
  rw [map_eq_pure_bind, yields_bind]
  simp only [yields_pure]
  constructor
  · rintro ⟨a, s₁, hm, hb, rfl⟩
    exact ⟨a, hm, hb⟩
  · rintro ⟨a, hm, hb⟩
    exact ⟨a, s', hm, hb, rfl⟩

@[simp] theorem yields_get {s s' t : σ} :
    Yields (get : ExceptT ε (StateM σ) σ) s t s' ↔ t = s ∧ s' = s := by
  constructor
  · intro h
    have h : (Except.ok s, s) = (Except.ok t, s') := h
    simp only [Prod.mk.injEq, Except.ok.injEq] at h
    exact ⟨h.1.symm, h.2.symm⟩
  · rintro ⟨rfl, rfl⟩
    rfl

@[simp] theorem yields_modify {f : σ → σ} {s s' : σ} {u : PUnit} :
    Yields (modify f : ExceptT ε (StateM σ) PUnit) s u s' ↔ s' = f s := by
  constructor
  · intro h
    have h : (Except.ok PUnit.unit, f s) = (Except.ok u, s') := h
    simp only [Prod.mk.injEq] at h
    exact h.2.symm
  · rintro rfl
    rfl

/-- A result that was there before is given without a look at the state. -/
@[simp] theorem yields_mk_pure {r : Except ε α} {s s' : σ} {a : α} :
    Yields (ExceptT.mk (pure r) : ExceptT ε (StateM σ) α) s a s' ↔ r = .ok a ∧ s' = s := by
  constructor
  · intro h
    have h : (r, s) = (Except.ok a, s') := h
    simp only [Prod.mk.injEq] at h
    exact ⟨h.1, h.2.symm⟩
  · rintro ⟨rfl, rfl⟩
    rfl

theorem yields_filterMapM_nil {f : α → ExceptT ε (StateM σ) (Option β)} {s s' : σ} {ys : List β} :
    Yields (([] : List α).filterMapM f) s ys s' ↔ ys = [] ∧ s' = s :=
  yields_pure

/-- A filtered list is worked through from the front. -/
theorem yields_filterMapM_cons {f : α → ExceptT ε (StateM σ) (Option β)} {x : α} {xs : List α}
    {s s' : σ} {ys : List β} :
    Yields ((x :: xs).filterMapM f) s ys s' ↔
      ∃ y s₁ zs, Yields (f x) s y s₁ ∧ Yields (xs.filterMapM f) s₁ zs s' ∧ ys = y.toList ++ zs := by
  rw [List.filterMapM_cons, yields_bind]
  constructor
  · rintro ⟨y, s₁, hy, h⟩
    cases y with
    | none => exact ⟨none, s₁, ys, hy, h, rfl⟩
    | some b =>
      obtain ⟨zs, s₂, hzs, h⟩ := yields_bind.mp h
      obtain ⟨rfl, rfl⟩ := yields_pure.mp h
      exact ⟨some b, s₁, zs, hy, hzs, rfl⟩
  · rintro ⟨y, s₁, zs, hy, hzs, rfl⟩
    refine ⟨y, s₁, hy, ?_⟩
    cases y with
    | none => exact hzs
    | some b => exact yields_bind.mpr ⟨zs, s', hzs, yields_pure.mpr ⟨rfl, rfl⟩⟩

/-- Whatever its outcome, the calculation keeps `P` of the state, and `Q` is true of the result if
there is one. -/
def Keeps (P : σ → Prop) (m : ExceptT ε (StateM σ) α) (Q : α → Prop) : Prop :=
  ∀ s, P s → P (Id.run (m.run s)).2 ∧ ∀ a, (Id.run (m.run s)).1 = .ok a → Q a

namespace Keeps

variable {P : σ → Prop} {Q : α → Prop} {R : β → Prop}

theorem of_yields {m : ExceptT ε (StateM σ) α} {s s' : σ} {a : α}
    (h : Keeps P m Q) (hs : P s) (hm : Yields m s a s') : P s' ∧ Q a := by
  have h := h s hs
  rw [hm] at h
  exact ⟨h.1, h.2 a rfl⟩

/-- A calculation that keeps its state ends well in one and the same state. -/
theorem yields_iff {k k' : σ} {m : ExceptT ε (StateM σ) α} {a : α} (h : Keeps (· = k) m Q) :
    Yields m k a k' ↔ Yields m k a k ∧ k' = k := by
  constructor
  · intro hm
    obtain ⟨rfl, -⟩ := h.of_yields rfl hm
    exact ⟨hm, rfl⟩
  · rintro ⟨hm, rfl⟩
    exact hm

theorem weaken {Q' : α → Prop} {m : ExceptT ε (StateM σ) α} (h : Keeps P m Q)
    (hQ : ∀ a, Q a → Q' a) : Keeps P m Q' :=
  fun s hs => ⟨(h s hs).1, fun a ha => hQ a ((h s hs).2 a ha)⟩

theorem trivial {m : ExceptT ε (StateM σ) α} (h : Keeps P m Q) : Keeps P m fun _ => True :=
  h.weaken fun _ _ => True.intro

theorem pure {a : α} (h : Q a) : Keeps P (Pure.pure a : ExceptT ε (StateM σ) α) Q := by
  refine fun s hs => ⟨hs, fun b hb => ?_⟩
  have hb : Except.ok a = (Except.ok b : Except ε α) := hb
  cases hb
  exact h

theorem throw {e : ε} : Keeps P (MonadExcept.throw e : ExceptT ε (StateM σ) α) Q := by
  refine fun s hs => ⟨hs, fun b hb => ?_⟩
  have hb : Except.error e = (Except.ok b : Except ε α) := hb
  cases hb

theorem ofExcept {r : Except ε α} (h : ∀ a, r = .ok a → Q a) :
    Keeps P (ExceptT.mk (Pure.pure r) : ExceptT ε (StateM σ) α) Q :=
  fun _ hs => ⟨hs, h⟩

theorem bind {m : ExceptT ε (StateM σ) α} {f : α → ExceptT ε (StateM σ) β}
    (hm : Keeps P m Q) (hf : ∀ a, Q a → Keeps P (f a) R) : Keeps P (m >>= f) R := by
  intro s hs
  have hm := hm s hs
  rw [run_bind]
  generalize Id.run (m.run s) = out at hm
  rcases out with ⟨r, s'⟩
  cases r with
  | ok a => exact hf a (hm.2 a rfl) s' hm.1
  | error e => exact ⟨hm.1, fun b hb => by cases hb⟩

theorem get : Keeps P (MonadState.get : ExceptT ε (StateM σ) σ) P := by
  refine fun s hs => ⟨hs, fun t ht => ?_⟩
  have ht : Except.ok s = (Except.ok t : Except ε σ) := ht
  cases ht
  exact hs

theorem modify {f : σ → σ} (h : ∀ s, P s → P (f s)) :
    Keeps P (modify f : ExceptT ε (StateM σ) PUnit) fun _ => True :=
  fun s hs => ⟨h s hs, fun _ _ => True.intro⟩

/-- A loop keeps what each of its rounds keeps. -/
theorem foldlM {f : β → α → ExceptT ε (StateM σ) β} :
    ∀ {xs : List α} {b : β}, R b → (∀ b, R b → ∀ x ∈ xs, Keeps P (f b x) R) →
      Keeps P (xs.foldlM f b) R
  | [], _, hb, _ => Keeps.pure hb
  | x :: _, b, hb, hf => by
    rw [List.foldlM_cons]
    exact (hf b hb x List.mem_cons_self).bind fun c hc =>
      foldlM hc fun d hd y hy => hf d hd y (List.mem_cons_of_mem x hy)

/-- A loop whose rounds make something true of what has been worked through so far. -/
theorem foldlM_prefix {f : β → α → ExceptT ε (StateM σ) β} {R : List α → β → Prop} {xs : List α}
    {b : β} (hb : R [] b)
    (hf : ∀ before x b, R before b → Keeps P (f b x) (R (before ++ [x]))) :
    Keeps P (xs.foldlM f b) (R xs) := by
  suffices ∀ before b, R before b → Keeps P (xs.foldlM f b) (R (before ++ xs)) from this [] b hb
  induction xs with
  | nil =>
    intro before b hb
    rw [List.append_nil]
    exact Keeps.pure hb
  | cons x xs ih =>
    intro before b hb
    rw [List.foldlM_cons, List.append_cons]
    exact (hf before x b hb).bind fun c hc => ih (before ++ [x]) c hc

theorem forM {f : α → ExceptT ε (StateM σ) PUnit} :
    ∀ {xs : List α}, (∀ x ∈ xs, Keeps P (f x) fun _ => True) → Keeps P (xs.forM f) fun _ => True
  | [], _ => Keeps.pure True.intro
  | x :: _, hf => (hf x List.mem_cons_self).bind fun _ _ =>
    forM fun y hy => hf y (List.mem_cons_of_mem x hy)

/-- What every round of a loop finds is true of all elements in the end. -/
theorem forM_all {f : α → ExceptT ε (StateM σ) PUnit} {R : α → Prop} :
    ∀ {xs : List α}, (∀ x ∈ xs, Keeps P (f x) fun _ => R x) →
      Keeps P (xs.forM f) fun _ => ∀ x ∈ xs, R x
  | [], _ => Keeps.pure fun _ h => (List.not_mem_nil h).elim
  | x :: _, hf => (hf x List.mem_cons_self).bind fun _ hx =>
    (forM_all fun y hy => hf y (List.mem_cons_of_mem x hy)).weaken fun _ h =>
      List.forall_mem_cons.mpr ⟨hx, h⟩

theorem filterMapM {f : α → ExceptT ε (StateM σ) (Option β)} :
    ∀ {xs : List α}, (∀ x ∈ xs, Keeps P (f x) fun y => ∀ b, y = some b → R b) →
      Keeps P (xs.filterMapM f) fun ys => ∀ y ∈ ys, R y
  | [], _ => Keeps.pure fun _ h => nomatch h
  | x :: xs, hf => by
    rw [List.filterMapM_cons]
    have rest : Keeps P (xs.filterMapM f) fun ys => ∀ y ∈ ys, R y :=
      filterMapM fun y hy => hf y (List.mem_cons_of_mem x hy)
    refine (hf x List.mem_cons_self).bind fun y hy => ?_
    cases y with
    | none => exact rest
    | some b =>
      refine rest.bind fun zs hzs => Keeps.pure fun z hz => ?_
      rcases List.mem_cons.mp hz with rfl | hz
      · exact hy _ rfl
      · exact hzs z hz

end Keeps

/-- Whatever its outcome, the calculation keeps `P` of the state, and it does not fail with an error
of `E`. -/
def Avoids (E : ε → Prop) (P : σ → Prop) (m : ExceptT ε (StateM σ) α) : Prop :=
  ∀ s, P s → P (Id.run (m.run s)).2 ∧ ∀ e, (Id.run (m.run s)).1 = .error e → ¬ E e

namespace Avoids

variable {E : ε → Prop} {P : σ → Prop}

theorem pure {a : α} : Avoids E P (Pure.pure a : ExceptT ε (StateM σ) α) := by
  refine fun s hs => ⟨hs, fun e he => ?_⟩
  have he : Except.ok a = (Except.error e : Except ε α) := he
  cases he

theorem throw {e : ε} (h : ¬ E e) :
    Avoids E P (MonadExcept.throw e : ExceptT ε (StateM σ) α) := by
  refine fun s hs => ⟨hs, fun e' he => ?_⟩
  have he : Except.error e = (Except.error e' : Except ε α) := he
  cases he
  exact h

theorem ofExcept {r : Except ε α} (h : ∀ e, r = .error e → ¬ E e) :
    Avoids E P (ExceptT.mk (Pure.pure r) : ExceptT ε (StateM σ) α) :=
  fun _ hs => ⟨hs, h⟩

/-- What comes second has only to be looked at where the first ends well. -/
theorem bind {m : ExceptT ε (StateM σ) α} {f : α → ExceptT ε (StateM σ) β} (hm : Avoids E P m)
    (hf : ∀ s a s', P s → Yields m s a s' → Avoids E P (f a)) : Avoids E P (m >>= f) := by
  intro s hs
  obtain ⟨hs', he⟩ := hm s hs
  rw [run_bind]
  cases hout : Id.run (m.run s) with
  | mk r s' =>
    rw [hout] at hs' he
    cases r with
    | ok a => exact hf s a s' hs hout s' hs'
    | error e => exact ⟨hs', fun e' h => by cases h; exact he e rfl⟩

/-- What comes second is looked at whatever the first gives. -/
theorem andThen {m : ExceptT ε (StateM σ) α} {f : α → ExceptT ε (StateM σ) β} (hm : Avoids E P m)
    (hf : ∀ a, Avoids E P (f a)) : Avoids E P (m >>= f) :=
  hm.bind fun _ a _ _ _ => hf a

/-- What would come after a failure does not matter. -/
theorem throw_bind {e : ε} {f : α → ExceptT ε (StateM σ) β} (h : ¬ E e) :
    Avoids E P (MonadExcept.throw e >>= f) :=
  throw h

theorem get : Avoids E P (MonadState.get : ExceptT ε (StateM σ) σ) := by
  refine fun s hs => ⟨hs, fun e he => ?_⟩
  have he : Except.ok s = (Except.error e : Except ε σ) := he
  cases he

theorem modify {f : σ → σ} (h : ∀ s, P s → P (f s)) :
    Avoids E P (modify f : ExceptT ε (StateM σ) PUnit) := by
  refine fun s hs => ⟨h s hs, fun e he => ?_⟩
  have he : Except.ok PUnit.unit = (Except.error e : Except ε PUnit) := he
  cases he

theorem foldlM {f : β → α → ExceptT ε (StateM σ) β} :
    ∀ {xs : List α} {b : β}, (∀ b, ∀ x ∈ xs, Avoids E P (f b x)) → Avoids E P (xs.foldlM f b)
  | [], _, _ => pure
  | x :: _, b, hf => by
    rw [List.foldlM_cons]
    exact (hf b x List.mem_cons_self).bind fun _ _ _ _ _ =>
      foldlM fun c y hy => hf c y (List.mem_cons_of_mem x hy)

theorem forM {f : α → ExceptT ε (StateM σ) PUnit} :
    ∀ {xs : List α}, (∀ x ∈ xs, Avoids E P (f x)) → Avoids E P (xs.forM f)
  | [], _ => pure
  | x :: _, hf => (hf x List.mem_cons_self).bind fun _ _ _ _ _ =>
    forM fun y hy => hf y (List.mem_cons_of_mem x hy)

theorem filterMapM {f : α → ExceptT ε (StateM σ) (Option β)} :
    ∀ {xs : List α}, (∀ x ∈ xs, Avoids E P (f x)) → Avoids E P (xs.filterMapM f)
  | [], _ => pure
  | x :: xs, hf => by
    rw [List.filterMapM_cons]
    have rest : Avoids E P (xs.filterMapM f) :=
      filterMapM fun y hy => hf y (List.mem_cons_of_mem x hy)
    refine (hf x List.mem_cons_self).andThen fun y => ?_
    cases y with
    | none => exact rest
    | some b => exact rest.andThen fun _ => pure

end Avoids

/-- The calculation gives `a`, unless it fails with an error that is not of `E`. -/
def GivesUnless (E : ε → Prop) (P : σ → Prop) (m : ExceptT ε (StateM σ) α) (a : α) : Prop :=
  Avoids E P m ∧ Keeps P m (· = a)

namespace GivesUnless

variable {E : ε → Prop} {P : σ → Prop}

theorem pure {a : α} : GivesUnless E P (Pure.pure a : ExceptT ε (StateM σ) α) a :=
  ⟨.pure, Keeps.pure rfl⟩

theorem bind {m : ExceptT ε (StateM σ) α} {f : α → ExceptT ε (StateM σ) β} {a : α} {b : β}
    (hm : GivesUnless E P m a) (hf : GivesUnless E P (f a) b) : GivesUnless E P (m >>= f) b := by
  refine ⟨hm.1.bind fun s c _ hs hc => ?_, hm.2.bind fun c hc => hc ▸ hf.2⟩
  rw [(hm.2.of_yields hs hc).2]
  exact hf.1

end GivesUnless

/-- Started in any state of `P` the calculation ends well and gives `a`, in such a state again. -/
def Gives (P : σ → Prop) (m : ExceptT ε (StateM σ) α) (a : α) : Prop :=
  ∀ s, P s → ∃ s', P s' ∧ Yields m s a s'

namespace Gives

variable {P : σ → Prop}

theorem pure {a : α} : Gives P (Pure.pure a : ExceptT ε (StateM σ) α) a :=
  fun s hs => ⟨s, hs, yields_pure.mpr ⟨rfl, rfl⟩⟩

theorem ofExcept {r : Except ε α} {a : α} (h : r = .ok a) :
    Gives P (ExceptT.mk (Pure.pure r) : ExceptT ε (StateM σ) α) a :=
  fun s hs => ⟨s, hs, yields_mk_pure.mpr ⟨h, rfl⟩⟩

theorem bind {m : ExceptT ε (StateM σ) α} {f : α → ExceptT ε (StateM σ) β} {a : α} {b : β}
    (hm : Gives P m a) (hf : Gives P (f a) b) : Gives P (m >>= f) b := by
  intro s hs
  obtain ⟨s₁, hs₁, hfirst⟩ := hm s hs
  obtain ⟨s₂, hs₂, hsecond⟩ := hf s₁ hs₁
  exact ⟨s₂, hs₂, yields_bind.mpr ⟨a, s₁, hfirst, hsecond⟩⟩

/-- Elements that are worked through one after the other, each with its own result. -/
theorem mapM {f : α → ExceptT ε (StateM σ) β} {xs : List α} {ys : List β}
    (h : List.Forall₂ (fun x y => Gives P (f x) y) xs ys) : Gives P (xs.mapM f) ys := by
  induction h with
  | nil => exact pure
  | cons hx _ ih =>
    rw [List.mapM_cons]
    exact hx.bind (ih.bind pure)

theorem forM {f : α → ExceptT ε (StateM σ) PUnit} {xs : List α}
    (h : ∀ x ∈ xs, Gives P (f x) ⟨⟩) : Gives P (xs.forM f) ⟨⟩ := by
  induction xs with
  | nil => exact pure
  | cons x xs ih =>
    exact (h x List.mem_cons_self).bind (ih fun y hy => h y (List.mem_cons_of_mem x hy))

end Gives

/-- Started in any state of `P` the calculation fails with `e`. -/
def Throws (P : σ → Prop) (m : ExceptT ε (StateM σ) α) (e : ε) : Prop :=
  ∀ s, P s → (Id.run (m.run s)).1 = .error e

namespace Throws

variable {P : σ → Prop} {m : ExceptT ε (StateM σ) α} {f : α → ExceptT ε (StateM σ) β} {e : ε}

/-- What would come after a failure is not looked at. -/
theorem bind (hm : Throws P m e) : Throws P (m >>= f) e := by
  intro s hs
  rw [run_bind]
  rcases hout : Id.run (m.run s) with ⟨r, s'⟩
  have hr : r = .error e := by simpa [hout] using hm s hs
  subst hr
  rfl

/-- What comes second fails after a first part that ends well. -/
theorem after {a : α} (hm : Gives P m a) (hf : Throws P (f a) e) : Throws P (m >>= f) e := by
  intro s hs
  obtain ⟨s', hs', hy⟩ := hm s hs
  rw [run_bind, show Id.run (m.run s) = (.ok a, s') from hy]
  exact hf s' hs'

/-- Elements that are worked through one after the other fail with the first that does. -/
theorem forM {f : α → ExceptT ε (StateM σ) PUnit} {E : α → ε → Prop} {xs : List α}
    (h : ∀ x ∈ xs, Gives P (f x) ⟨⟩ ∨ ∃ e, E x e ∧ Throws P (f x) e)
    (hx : ∃ x ∈ xs, ∃ e, E x e ∧ Throws P (f x) e) :
    ∃ x ∈ xs, ∃ e, E x e ∧ Throws P (xs.forM f) e := by
  induction xs with
  | nil =>
    obtain ⟨x, hx, -⟩ := hx
    cases hx
  | cons x xs ih =>
    by_cases hfirst : ∃ e, E x e ∧ Throws P (f x) e
    · obtain ⟨e, he, hthrows⟩ := hfirst
      exact ⟨x, List.mem_cons_self, e, he, hthrows.bind⟩
    · have hgives := (h x List.mem_cons_self).resolve_right hfirst
      obtain ⟨y, hy, hthrows⟩ := hx
      have hrest : ∃ y ∈ xs, ∃ e, E y e ∧ Throws P (f y) e := by
        rcases List.mem_cons.mp hy with rfl | hy
        · exact (hfirst hthrows).elim
        · exact ⟨y, hy, hthrows⟩
      obtain ⟨z, hz, e, he, hthrows⟩ := ih (fun y hy => h y (List.mem_cons_of_mem x hy)) hrest
      exact ⟨z, List.mem_cons_of_mem x hz, e, he, after hgives hthrows⟩

end Throws

end WireTables
