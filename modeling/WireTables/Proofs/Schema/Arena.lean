import Mathlib.Data.List.Nodup
import WireTables.Proofs.Schema.Places
import WireTables.Schema.Arena

/-!
# Arenas

The parts of an arena fit together when the order holds the number of each type once and each index
gives just the numbers of what lies in its array (`Arena.Coherent`). A single step can break this.
Each call takes all its steps or none (`addType_cases`, `ensureAfter_cases`, `addConstant_cases`),
and what it leaves fits together again; what lay in an array stays there under its number and its
name (`Arena.Continues`). A type that was added or moved stands where it should, and all others are
in the order in which they were (`Arena.Added`, `Arena.Moved`).
-/

namespace WireTables

theorem TypeEntry.id_mapRecord (f : Record → Record) (t : TypeEntry) :
    (t.mapRecord f).id = t.id := by
  unfold mapRecord
  split <;> rfl

theorem TypeEntry.id_mapUnion (f : UnionType → UnionType) (t : TypeEntry) :
    (t.mapUnion f).id = t.id := by
  unfold mapUnion
  split <;> rfl

/-- What an index gives after a number was put in. -/
@[simp] theorem NameIndex.number?_insert (x : NameIndex) (name other : String) (number : Nat) :
    (x.insert name number).number? other =
      if other = name then some number else x.number? other := by
  unfold insert number?
  rw [List.lookup_cons]
  by_cases h : other = name
  · simp [h]
  · simp [h, beq_eq_false_iff_ne.mpr h]

namespace Arena

/-- The order holds the number of each type once, types have the numbers under which they lie, and
names lead to the numbers of what has them and to nothing else. -/
structure Coherent (a : Arena) : Prop where
  order : a.order.Perm (List.range a.types.size)
  numbers : ∀ (number : Nat) (t : TypeEntry), a.types[number]? = some t → t.id = number
  typeNames : ∀ name number,
    a.typeNames.number? name = some number ↔ a.types[number]?.map (·.specName) = some name
  constantNames : ∀ name number,
    a.constantNames.number? name = some number ↔ a.constants[number]?.map (·.specName) = some name

/-- What lay in the arrays of the first arena lies in those of the second one, under the same number
and the same name. -/
structure Continues (a a' : Arena) : Prop where
  types : ∀ (number : Nat) (t : TypeEntry), a.types[number]? = some t →
    ∃ t', a'.types[number]? = some t' ∧ t'.specName = t.specName
  constants : ∀ (number : Nat) (c : Constant), a.constants[number]? = some c →
    ∃ c', a'.constants[number]? = some c' ∧ c'.specName = c.specName

/-- The type has been added under the next number, right after the anchor or at the end without one.
Nothing else has changed. -/
structure Added (a : Arena) (t : TypeEntry) (anchor : Option String) (a' : Arena) : Prop where
  entry : a'.types = a.types.push { t with id := a.types.size }
  name : ∀ name, a'.typeNames.number? name =
    if name = t.specName then some a.types.size else a.typeNames.number? name
  place : match anchor with
    | none => a'.order = a.order ++ [a.types.size]
    | some anchor => ∃ before number after, a.typeNames.number? anchor = some number ∧
        a.order = before ++ number :: after ∧
          a'.order = before ++ number :: a.types.size :: after
  others : { a' with types := a.types, typeNames := a.typeNames, order := a.order } = a

/-- The type comes after the anchor: one that came before it has been moved right after it, and the
order is as it was otherwise. Nothing but the order has changed. -/
structure Moved (a : Arena) (name anchor : String) (a' : Arena) : Prop where
  place : ∃ number anchorNumber, a.typeNames.number? name = some number ∧
    a.typeNames.number? anchor = some anchorNumber ∧
      ((∃ before between after,
          a.order = before ++ number :: (between ++ anchorNumber :: after) ∧
            a'.order = before ++ between ++ anchorNumber :: number :: after) ∨
        a'.order = a.order ∧ (name ≠ anchor → ∃ before between after,
          a.order = before ++ anchorNumber :: (between ++ number :: after)))
  others : { a' with order := a.order } = a

section Coherent

variable {a a' a'' : Arena} {name : String} {number : Nat} {t : TypeEntry}

theorem Continues.refl (a : Arena) : a.Continues a :=
  ⟨fun _ t h => ⟨t, h, rfl⟩, fun _ c h => ⟨c, h, rfl⟩⟩

theorem Continues.trans (h : a.Continues a') (h' : a'.Continues a'') : a.Continues a'' where
  types number t ht := by
    obtain ⟨t', ht', hname⟩ := h.types number t ht
    obtain ⟨t'', ht'', hname'⟩ := h'.types number t' ht'
    exact ⟨t'', ht'', hname'.trans hname⟩
  constants number c hc := by
    obtain ⟨c', hc', hname⟩ := h.constants number c hc
    obtain ⟨c'', hc'', hname'⟩ := h'.constants number c' hc'
    exact ⟨c'', hc'', hname'.trans hname⟩

/-- What is put out lies in the array. -/
theorem Coherent.exists_of_mem_order (h : a.Coherent) (hn : number ∈ a.order) :
    ∃ t, a.types[number]? = some t :=
  ⟨_, Array.getElem?_eq_getElem (List.mem_range.mp (h.order.mem_iff.mp hn))⟩

theorem Coherent.mem_order (h : a.Coherent) (ht : a.types[number]? = some t) : number ∈ a.order :=
  h.order.mem_iff.mpr (List.mem_range.mpr (Array.getElem?_eq_some_iff.mp ht).1)

/-- A type is found under its name. -/
theorem Coherent.number?_specName (h : a.Coherent) (ht : a.types[number]? = some t) :
    a.typeNames.number? t.specName = some number :=
  (h.typeNames _ _).mpr (by rw [ht]; rfl)

/-- What is found under a name has it. -/
theorem Coherent.exists_of_number? (h : a.Coherent) (hn : a.typeNames.number? name = some number) :
    ∃ t, a.types[number]? = some t ∧ t.specName = name :=
  Option.map_eq_some_iff.mp ((h.typeNames _ _).mp hn)

/-- No two types that are put out have one name. -/
theorem Coherent.nodup_names (h : a.Coherent) : a.shown.names.Nodup := by
  show ((a.order.filterMap (a.types[·]?)).map (·.specName)).Nodup
  rw [List.map_filterMap]
  refine List.Nodup.filterMap (fun i j name hi hj => ?_) (h.order.nodup_iff.mpr List.nodup_range)
  have hi := (h.typeNames name i).mpr hi
  rw [(h.typeNames name j).mpr hj] at hi
  exact (Option.some.inj hi).symm

/-- As many types are put out as there are numbers in the order. -/
theorem Coherent.length_listed (h : a.Coherent) {numbers : List Nat} (hsub : numbers ⊆ a.order) :
    (numbers.filterMap (a.types[·]?)).length = numbers.length := by
  refine List.filterMap_length_eq_length.mpr fun n hn => ?_
  obtain ⟨t, ht⟩ := h.exists_of_mem_order (hsub hn)
  rw [ht]
  rfl

/-- What stands at a place of the order is put out there. -/
theorem Coherent.listed_of_split (h : a.Coherent) {before after : List Nat}
    (hsplit : a.order = before ++ number :: after) (ht : a.types[number]? = some t) :
    a.shown.types =
        before.filterMap (a.types[·]?) ++ t :: after.filterMap (a.types[·]?) ∧
      (before.filterMap (a.types[·]?)).length = before.length := by
  refine ⟨?_, h.length_listed (hsplit ▸ List.subset_append_left _ _)⟩
  show a.order.filterMap (a.types[·]?) = _
  rw [hsplit, List.filterMap_append, List.filterMap_cons_some ht]

/-- Types are found by their names as in the registry that the arena is read as. -/
theorem Coherent.lookup?_shown (h : a.Coherent) (name : String) :
    a.shown.lookup? name = a.lookup? name := by
  unfold lookup?
  cases hn : a.typeNames.number? name with
  | none =>
    refine List.find?_eq_none.mpr fun t ht => ?_
    obtain ⟨number, -, ht⟩ := List.mem_filterMap.mp ht
    rintro hname
    rw [← beq_iff_eq.mp hname, h.number?_specName ht] at hn
    cases hn
  | some number =>
    obtain ⟨t, ht, rfl⟩ := h.exists_of_number? hn
    rw [Option.bind_some, ht]
    exact Schema.lookup?_of_mem h.nodup_names (List.mem_filterMap.mpr ⟨number, h.mem_order ht, ht⟩)

theorem Coherent.contains_shown (h : a.Coherent) (name : String) :
    a.shown.contains name = (a.typeNames.number? name).isSome := by
  unfold Schema.contains
  rw [h.lookup?_shown, lookup?]
  cases hn : a.typeNames.number? name with
  | none => rfl
  | some number =>
    obtain ⟨t, ht, -⟩ := h.exists_of_number? hn
    rw [Option.bind_some, ht]
    rfl

/-- A number stands once in the order. -/
theorem idxOf?_of_split {before after : List Nat} (hnot : number ∉ before) :
    (before ++ number :: after).idxOf? number = some before.length := by
  refine List.idxOf?_eq_some_iff.mpr ⟨by simp, by simp, fun j hj heq => hnot ?_⟩
  rw [List.getElem_append_left hj] at heq
  exact heq ▸ List.getElem_mem hj

/-- The type under a name has its place in the order, and is put out there. -/
theorem Coherent.exists_split (h : a.Coherent) (hn : a.typeNames.number? name = some number) :
    ∃ before after t, a.order = before ++ number :: after ∧ a.types[number]? = some t ∧
      t.specName = name ∧ a.order.idxOf? number = some before.length ∧
        a.shown.position? name = some before.length := by
  obtain ⟨t, ht, rfl⟩ := h.exists_of_number? hn
  obtain ⟨before, after, hsplit⟩ := List.append_of_mem (h.mem_order ht)
  have hnodup : (before ++ number :: after).Nodup := hsplit ▸ h.order.nodup_iff.mpr List.nodup_range
  have hnot : number ∉ before := fun hmem =>
    (List.nodup_append.mp hnodup).2.2 _ hmem _ List.mem_cons_self rfl
  obtain ⟨hlisted, hlength⟩ := h.listed_of_split hsplit ht
  refine ⟨before, after, t, hsplit, ht, rfl, hsplit ▸ idxOf?_of_split hnot, ?_⟩
  rw [Schema.position?_of_split h.nodup_names hlisted, hlength]

/-- Types have the places that they have in the registry that the arena is read as. -/
theorem Coherent.position?_shown (h : a.Coherent) (name : String) :
    a.shown.position? name = a.position? name := by
  unfold position?
  cases hn : a.typeNames.number? name with
  | none =>
    refine List.findIdx?_eq_none_iff.mpr fun t ht => ?_
    have hnone : a.shown.lookup? name = none := by rw [h.lookup?_shown, lookup?, hn]; rfl
    simpa using List.find?_eq_none.mp hnone t ht
  | some number =>
    obtain ⟨before, after, t, -, -, -, hat, hposition⟩ := h.exists_split hn
    rw [hposition, Option.bind_some, hat]

/-- Constants have the numbers that they have in the registry that the arena is read as. -/
theorem Coherent.constantNumber?_shown (h : a.Coherent) (name : String) :
    a.shown.constantNumber? name = a.constantNames.number? name := by
  show a.constants.findIdx? (·.specName == name) = _
  cases hn : a.constantNames.number? name with
  | none =>
    refine Array.findIdx?_eq_none_iff.mpr fun c hc => beq_eq_false_iff_ne.mpr ?_
    rintro rfl
    obtain ⟨number, hlt, rfl⟩ := Array.mem_iff_getElem.mp hc
    have := (h.constantNames a.constants[number].specName number).mpr
      (by rw [Array.getElem?_eq_getElem hlt]; rfl)
    rw [this] at hn
    cases hn
  | some number =>
    obtain ⟨c, hc, hname⟩ := Option.map_eq_some_iff.mp ((h.constantNames _ _).mp hn)
    obtain ⟨hlt, rfl⟩ := Array.getElem?_eq_some_iff.mp hc
    refine Array.findIdx?_eq_some_iff_getElem.mpr ⟨hlt, by simpa using hname, fun j hj hsame => ?_⟩
    have hj' := (h.constantNames name j).mpr (by
      rw [Array.getElem?_eq_getElem (Nat.lt_trans hj hlt)]
      exact congrArg some (beq_iff_eq.mp hsame))
    rw [hj'] at hn
    exact absurd (Option.some.inj hn) (Nat.ne_of_lt hj)

end Coherent

end Arena

section Running

variable {ε σ α : Type}

theorem run_pure (x : α) (s : σ) :
    Id.run ((pure x : ExceptT ε (StateM σ) α).run s) = (.ok x, s) :=
  rfl

theorem run_throw (e : ε) (s : σ) :
    Id.run ((throw e : ExceptT ε (StateM σ) α).run s) = (.error e, s) :=
  rfl

theorem run_get (s : σ) : Id.run ((get : ExceptT ε (StateM σ) σ).run s) = (.ok s, s) :=
  rfl

theorem run_modify (f : σ → σ) (s : σ) :
    Id.run ((modify f : ExceptT ε (StateM σ) PUnit).run s) = (.ok ⟨⟩, f s) :=
  rfl

end Running

namespace Arena

/-- The arena with one more type: the steps by which it is added. -/
def withType (a : Arena) (t : TypeEntry) (place : Nat) : Arena :=
  a.nameType t.specName a.types.size |>.storeType { t with id := a.types.size }
    |>.placeType place a.types.size

/-- The arena with a type moved from one place to another. -/
def withMoved (a : Arena) (at_ place number : Nat) : Arena :=
  (a.withdrawType at_).placeType place number

/-- The arena with one more constant. -/
def withConstant (a : Arena) (c : Constant) : Arena :=
  (a.nameConstant c.specName a.constants.size).storeConstant c

section Cases

variable (a : Arena)

/-- Adding a type fails before anything has changed, or takes all its steps. -/
theorem addType_cases (t : TypeEntry) (anchor : Option String) :
    let made := Id.run ((ArenaEdit.addType t anchor).run a)
    (∃ number, a.typeNames.number? t.specName = some number ∧
        made = (.error (.duplicateType t.specName), a)) ∨
      a.typeNames.number? t.specName = none ∧
        ((∃ other, anchor = some other ∧ a.typeNames.number? other = none ∧
            made = (.error (.unknownType other ("insertion of " ++ t.specName)), a)) ∨
          (anchor = none ∧ made = (.ok (), a.withType t a.order.length)) ∨
          ∃ other number, anchor = some other ∧ a.typeNames.number? other = some number ∧
            made = (.ok (), a.withType t
              (((a.order.idxOf? number).map (· + 1)).getD a.order.length))) := by
  intro made
  have hmade : made = Id.run ((ArenaEdit.addType t anchor).run a) := rfl
  cases hname : a.typeNames.number? t.specName with
  | some number =>
    simp only [ArenaEdit.addType, run_bind, run_get, run_throw, hname, Option.isSome_some,
      if_true] at hmade
    exact .inl ⟨number, rfl, hmade⟩
  | none =>
    simp only [ArenaEdit.addType, ArenaEdit.placeFor, run_bind, run_get, hname, Option.isSome_none,
      Bool.false_eq_true, if_false, run_modify] at hmade
    refine .inr ⟨rfl, ?_⟩
    cases anchor with
    | none =>
      simp only [run_pure] at hmade
      exact .inr (.inl ⟨rfl, hmade⟩)
    | some other =>
      cases hother : a.typeNames.number? other with
      | none =>
        simp only [hother, run_throw] at hmade
        exact .inl ⟨other, rfl, hother, hmade⟩
      | some number =>
        simp only [hother, run_pure] at hmade
        exact .inr (.inr ⟨other, number, rfl, hother, hmade⟩)

/-- Moving a type fails before anything has changed, or leaves all as it is, or takes both its
steps. -/
theorem ensureAfter_cases (name anchor : String) :
    let made := Id.run ((ArenaEdit.ensureAfter name anchor).run a)
    ((a.position? name = none ∨ a.position? anchor = none) ∧
        made = (.error (.unknownType (name ++ " or " ++ anchor) "reordering"), a)) ∨
      ∃ at_ anchorAt, a.position? name = some at_ ∧ a.position? anchor = some anchorAt ∧
        ((¬ at_ < anchorAt ∧ made = (.ok (), a)) ∨
          at_ < anchorAt ∧ made = (.ok (), match a.order[at_]? with
            | some number => a.withMoved at_ anchorAt number
            | none => a)) := by
  intro made
  have hmade : made = Id.run ((ArenaEdit.ensureAfter name anchor).run a) := rfl
  simp only [ArenaEdit.ensureAfter, run_bind, run_get] at hmade
  cases hat : a.position? name with
  | none =>
    simp only [hat, run_throw] at hmade
    exact .inl ⟨.inl rfl, hmade⟩
  | some at_ =>
    cases hanchor : a.position? anchor with
    | none =>
      simp only [hat, hanchor, run_throw] at hmade
      exact .inl ⟨.inr rfl, hmade⟩
    | some anchorAt =>
      simp only [hat, hanchor] at hmade
      refine .inr ⟨at_, anchorAt, rfl, rfl, ?_⟩
      by_cases hlt : at_ < anchorAt
      · rw [if_pos hlt] at hmade
        refine .inr ⟨hlt, hmade.trans ?_⟩
        cases a.order[at_]? <;> rfl
      · rw [if_neg hlt] at hmade
        exact .inl ⟨hlt, hmade⟩

/-- Adding a constant fails before anything has changed, or takes both its steps. -/
theorem addConstant_cases (c : Constant) :
    let made := Id.run ((ArenaEdit.addConstant c).run a)
    (∃ number, a.constantNames.number? c.specName = some number ∧
        made = (.error (.duplicateConstant c.specName), a)) ∨
      a.constantNames.number? c.specName = none ∧ made = (.ok (), a.withConstant c) := by
  intro made
  have hmade : made = Id.run ((ArenaEdit.addConstant c).run a) := rfl
  cases hname : a.constantNames.number? c.specName with
  | some number =>
    simp only [ArenaEdit.addConstant, run_bind, run_get, run_throw, hname, Option.isSome_some,
      if_true] at hmade
    exact .inl ⟨number, rfl, hmade⟩
  | none =>
    simp only [ArenaEdit.addConstant, run_bind, run_get, hname, Option.isSome_none,
      Bool.false_eq_true, if_false, run_modify] at hmade
    exact .inr ⟨rfl, hmade⟩

end Cases

section Steps

variable {a : Arena} {t : TypeEntry} {c : Constant} {number : Nat}

theorem insertIdx_length (xs ys : List Nat) (n : Nat) :
    (xs ++ ys).insertIdx xs.length n = xs ++ n :: ys := by
  induction xs with
  | nil => rfl
  | cons x xs ih => exact congrArg (x :: ·) ih

/-- An index with the next number under a new name fits an array with one more element. -/
theorem number?_push {α : Type} {key : α → String} {xs : Array α} {index : NameIndex} (x : α)
    (h : ∀ name number, index.number? name = some number ↔ xs[number]?.map key = some name)
    (hfresh : index.number? (key x) = none) (name : String) (number : Nat) :
    (index.insert (key x) xs.size).number? name = some number ↔
      (xs.push x)[number]?.map key = some name := by
  rw [NameIndex.number?_insert, Array.getElem?_push]
  have hout : ∀ name, index.number? name ≠ some xs.size := fun name hname => by
    have := (h name xs.size).mp hname
    rw [Array.getElem?_eq_none (Nat.le_refl _)] at this
    cases this
  by_cases hname : name = key x <;> by_cases hnumber : number = xs.size
  · simp [hname, hnumber]
  · rw [if_pos hname, if_neg hnumber, hname, ← h, hfresh]
    simpa using Ne.symm hnumber
  · rw [if_neg hname, if_pos hnumber, hnumber]
    simpa [hout] using Ne.symm hname
  · rw [if_neg hname, if_neg hnumber, h]

/-- A type that is added gets the next number and a name that no other type has. -/
theorem Coherent.withType (h : a.Coherent) (hfresh : a.typeNames.number? t.specName = none)
    {place : Nat} (hplace : place ≤ a.order.length) : (a.withType t place).Coherent where
  order := by
    show (a.order.insertIdx place a.types.size).Perm (List.range (a.types.push _).size)
    rw [Array.size_push, List.range_succ]
    exact (List.perm_insertIdx _ _ hplace).trans
      ((h.order.cons _).trans (List.perm_append_singleton _ _).symm)
  numbers number u hu := by
    have hu : (a.types.push { t with id := a.types.size })[number]? = some u := hu
    rw [Array.getElem?_push] at hu
    split at hu
    · next heq =>
      cases hu
      exact heq.symm
    · exact h.numbers number u hu
  typeNames := number?_push ({ t with id := a.types.size } : TypeEntry) h.typeNames hfresh
  constantNames := h.constantNames

theorem continues_withType (a : Arena) (t : TypeEntry) (place : Nat) :
    a.Continues (a.withType t place) where
  types number u hu := by
    refine ⟨u, ?_, rfl⟩
    show (a.types.push _)[number]? = some u
    rw [Array.getElem?_push, if_neg, hu]
    exact Nat.ne_of_lt (Array.getElem?_eq_some_iff.mp hu).1
  constants _ c hc := ⟨c, hc, rfl⟩

/-- The type is put out between what was put out before and after its place. -/
theorem Coherent.shown_withType (h : a.Coherent) {before after : List Nat}
    (hsplit : a.order = before ++ after) :
    (a.withType t before.length).shown = { a.shown with
      types := before.filterMap (a.types[·]?) ++
        { t with id := a.types.size } :: after.filterMap (a.types[·]?) } := by
  have hold : ∀ numbers : List Nat, numbers ⊆ a.order →
      numbers.filterMap ((a.types.push { t with id := a.types.size })[·]?) =
        numbers.filterMap (a.types[·]?) := fun numbers hsub => by
    refine List.filterMap_congr fun n hn => ?_
    rw [Array.getElem?_push, if_neg]
    exact Nat.ne_of_lt (List.mem_range.mp (h.order.mem_iff.mp (hsub hn)))
  have hlisted : (a.withType t before.length).listed = before.filterMap (a.types[·]?) ++
      { t with id := a.types.size } :: after.filterMap (a.types[·]?) := by
    show (a.order.insertIdx before.length a.types.size).filterMap
      ((a.types.push { t with id := a.types.size })[·]?) = _
    rw [hsplit, insertIdx_length, List.filterMap_append,
      List.filterMap_cons_some (Array.getElem?_push_size ..),
      hold before (hsplit ▸ List.subset_append_left _ _),
      hold after (hsplit ▸ List.subset_append_right _ _)]
  exact congrArg (fun types => { a.shown with types := types }) hlisted

/-- A type that is moved keeps its number and its name. -/
theorem Coherent.of_order (h : a.Coherent) {order : List Nat} (hperm : order.Perm a.order) :
    Coherent { a with order := order } :=
  ⟨hperm.trans h.order, h.numbers, h.typeNames, h.constantNames⟩

/-- A constant that is added gets the next number and a name that no other constant has. -/
theorem Coherent.withConstant (h : a.Coherent)
    (hfresh : a.constantNames.number? c.specName = none) : (a.withConstant c).Coherent :=
  ⟨h.order, h.numbers, h.typeNames, number?_push c h.constantNames hfresh⟩

theorem continues_withConstant (a : Arena) (c : Constant) : a.Continues (a.withConstant c) where
  types _ t ht := ⟨t, ht, rfl⟩
  constants number d hd := by
    refine ⟨d, ?_, rfl⟩
    show (a.constants.push _)[number]? = some d
    rw [Array.getElem?_push, if_neg, hd]
    exact Nat.ne_of_lt (Array.getElem?_eq_some_iff.mp hd).1

end Steps

section Outcomes

variable {a a' : Arena} {t : TypeEntry} {c : Constant} {name : String} {anchor : Option String}
  {e : Error}

/-- What is at a place of the order has the name that leads there. -/
theorem Coherent.exists_split_of_position? (h : a.Coherent) {name : String} {at_ : Nat}
    (hat : a.position? name = some at_) :
    ∃ number before after t, a.typeNames.number? name = some number ∧
      a.order = before ++ number :: after ∧ before.length = at_ ∧
        a.types[number]? = some t ∧ t.specName = name := by
  obtain ⟨number, hn, hidx⟩ := Option.bind_eq_some_iff.mp hat
  obtain ⟨before, after, t, hsplit, ht, hname, hlength, -⟩ := h.exists_split hn
  exact ⟨number, before, after, t, hn, hsplit, Option.some.inj (hlength.symm.trans hidx), ht, hname⟩

/-- A type that comes before its anchor is taken out and put in again right after the anchor. -/
theorem Coherent.withMoved (h : a.Coherent) {name anchor : String} {at_ anchorAt : Nat}
    (hat : a.position? name = some at_) (hanchor : a.position? anchor = some anchorAt)
    (hlt : at_ < anchorAt) :
    ∃ number anchorNumber before between after, a.typeNames.number? name = some number ∧
      a.typeNames.number? anchor = some anchorNumber ∧ before.length = at_ ∧
        a.order = before ++ number :: (between ++ anchorNumber :: after) ∧
          a.withMoved at_ anchorAt number =
            { a with order := before ++ between ++ anchorNumber :: number :: after } := by
  obtain ⟨number, before, rest, -, hn, hsplit, rfl, -, -⟩ := h.exists_split_of_position? hat
  obtain ⟨anchorNumber, _, after, -, hk, hsplit', rfl, -, -⟩ := h.exists_split_of_position? hanchor
  obtain ⟨between, rfl, rfl⟩ := exists_between (hsplit.symm.trans hsplit') hlt
  refine ⟨number, anchorNumber, before, between, after, hn, hk, rfl, hsplit, ?_⟩
  have hplace : (before ++ number :: between).length =
      (before ++ between ++ [anchorNumber]).length := by
    simp only [List.length_append, List.length_cons, List.length_nil]
    omega
  have hrest : before ++ (between ++ anchorNumber :: after) =
      (before ++ between ++ [anchorNumber]) ++ after := by
    simp only [List.append_assoc, List.cons_append, List.nil_append]
  have horder : ((a.order.eraseIdx before.length).insertIdx
      (before ++ number :: between).length number) =
        before ++ between ++ anchorNumber :: number :: after := by
    rw [hsplit, List.eraseIdx_append_of_length_le (Nat.le_refl _), Nat.sub_self,
      List.eraseIdx_cons_zero, hplace, hrest, insertIdx_length]
    simp only [List.append_assoc, List.cons_append, List.nil_append]
  exact congrArg (fun order => { a with order := order }) horder

theorem eq_of_addType_error
    (h : (Id.run ((ArenaEdit.addType t anchor).run a)).1 = .error e) :
    (Id.run ((ArenaEdit.addType t anchor).run a)).2 = a := by
  rcases addType_cases a t anchor with ⟨_, -, hmade⟩ | ⟨-, ⟨_, -, -, hmade⟩ | ⟨-, hmade⟩ |
    ⟨_, _, -, -, hmade⟩⟩
  · rw [hmade]
  · rw [hmade]
  · rw [hmade] at h
    cases h
  · rw [hmade] at h
    cases h

theorem eq_of_ensureAfter_error {anchor : String}
    (h : (Id.run ((ArenaEdit.ensureAfter name anchor).run a)).1 = .error e) :
    (Id.run ((ArenaEdit.ensureAfter name anchor).run a)).2 = a := by
  rcases ensureAfter_cases a name anchor with ⟨-, hmade⟩ | ⟨_, _, -, -, ⟨-, hmade⟩ | ⟨-, hmade⟩⟩
  · rw [hmade]
  · rw [hmade]
  · rw [hmade] at h
    cases h

theorem eq_of_addConstant_error (h : (Id.run ((ArenaEdit.addConstant c).run a)).1 = .error e) :
    (Id.run ((ArenaEdit.addConstant c).run a)).2 = a := by
  rcases addConstant_cases a c with ⟨_, -, hmade⟩ | ⟨-, hmade⟩
  · rw [hmade]
  · rw [hmade] at h
    cases h

/-- A type that is added stands right after its anchor, or at the end. -/
theorem Coherent.added (h : a.Coherent)
    (hmade : Id.run ((ArenaEdit.addType t anchor).run a) = (.ok (), a')) : a.Added t anchor a' := by
  rcases addType_cases a t anchor with ⟨_, -, hcase⟩ | ⟨-, ⟨_, -, -, hcase⟩ | ⟨rfl, hcase⟩ |
    ⟨other, number, rfl, hn, hcase⟩⟩
  · cases hmade.symm.trans hcase
  · cases hmade.symm.trans hcase
  · cases hmade.symm.trans hcase
    exact ⟨rfl, fun _ => NameIndex.number?_insert .., List.insertIdx_length_self, rfl⟩
  · cases hmade.symm.trans hcase
    refine ⟨rfl, fun _ => NameIndex.number?_insert .., ?_, rfl⟩
    obtain ⟨before, after, _, hsplit, -, -, hat, -⟩ := h.exists_split hn
    refine ⟨before, number, after, hn, hsplit, ?_⟩
    have hplace : ((a.order.idxOf? number).map (· + 1)).getD a.order.length =
        (before ++ [number]).length := by
      rw [hat, List.length_append]
      rfl
    have hsplit' : a.order = (before ++ [number]) ++ after := by
      rw [hsplit, List.append_assoc]
      rfl
    show a.order.insertIdx _ _ = _
    rw [hplace, hsplit', insertIdx_length, List.append_assoc]
    rfl

/-- A type that is moved stands right after its anchor. -/
theorem Coherent.moved (h : a.Coherent) {anchor : String}
    (hmade : Id.run ((ArenaEdit.ensureAfter name anchor).run a) = (.ok (), a')) :
    a.Moved name anchor a' := by
  rcases ensureAfter_cases a name anchor with ⟨-, hcase⟩ | ⟨at_, anchorAt, hat, hanchor,
    ⟨hle, hcase⟩ | ⟨hlt, hcase⟩⟩
  · cases hmade.symm.trans hcase
  · cases hmade.symm.trans hcase
    obtain ⟨number, _, after, t, hn, hsplit, rfl, ht, rfl⟩ := h.exists_split_of_position? hat
    obtain ⟨anchorNumber, before, _, u, hk, hsplit', rfl, hu, rfl⟩ :=
      h.exists_split_of_position? hanchor
    refine ⟨⟨number, anchorNumber, hn, hk, .inr ⟨rfl, fun hne => ?_⟩⟩, rfl⟩
    rcases Nat.eq_or_lt_of_le (Nat.le_of_not_lt hle) with heq | hlt
    · obtain ⟨-, hcons⟩ := List.append_inj (hsplit'.symm.trans hsplit) heq
      obtain rfl := (List.cons_eq_cons.mp hcons).1
      exact absurd (congrArg (·.specName) (Option.some.inj (ht.symm.trans hu))) hne
    · obtain ⟨between, rfl, rfl⟩ := exists_between (hsplit'.symm.trans hsplit) hlt
      exact ⟨before, between, after, hsplit'⟩
  · obtain ⟨number, anchorNumber, before, between, after, hn, hk, rfl, hsplit, hmoved⟩ :=
      h.withMoved hat hanchor hlt
    have hat : a.order[before.length]? = some number := by
      rw [hsplit, List.getElem?_append_right (Nat.le_refl _), Nat.sub_self]
      rfl
    rw [hat] at hcase
    dsimp only at hcase
    rw [hmoved] at hcase
    cases hmade.symm.trans hcase
    exact ⟨⟨number, anchorNumber, hn, hk, .inl ⟨before, between, after, hsplit, rfl⟩⟩, rfl⟩

end Outcomes

section Initial

/-- Elementary types come to the parts of an arena as other types do. -/
theorem Coherent.foldl_seed {a : Arena} {ts : List TypeEntry} (h : a.Coherent)
    (hnames : (ts.map (·.specName)).Nodup)
    (hfresh : ∀ t ∈ ts, a.typeNames.number? t.specName = none) : (ts.foldl seed a).Coherent := by
  induction ts generalizing a with
  | nil => exact h
  | cons t ts ih =>
    rw [List.map_cons, List.nodup_cons] at hnames
    have hseed : (a.withType t a.order.length).Coherent :=
      h.withType (hfresh t List.mem_cons_self) (Nat.le_refl _)
    refine ih hseed hnames.2 fun u hu => ?_
    have hne : u.specName ≠ t.specName := fun heq =>
      hnames.1 (heq ▸ List.mem_map_of_mem (f := (·.specName)) hu)
    exact (NameIndex.number?_insert ..).trans
      ((if_neg hne).trans (hfresh u (List.mem_cons_of_mem _ hu)))

theorem coherent_initial : initial.Coherent :=
  Coherent.foldl_seed ⟨.nil, fun _ _ h => (nomatch h), fun _ _ => by simp [NameIndex.number?],
    fun _ _ => by simp [NameIndex.number?]⟩ (by decide) fun _ _ => rfl

theorem shown_initial : initial.shown = Registry.initial :=
  rfl

end Initial

end Arena

end WireTables
