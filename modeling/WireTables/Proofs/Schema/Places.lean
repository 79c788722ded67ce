import WireTables.Proofs.Editing

/-!
# Places of types

A type that is added stands right after its anchor or at the end, and one that is moved stands after
its anchor; all others stay in the order in which they were (`added_of_addType`,
`moved_of_ensureAfter`). Types with different names come one before the other as their names do
(`comesBefore_iff`), so that the order of two of them is not touched by what happens to a third one
(`comesBefore_of_others`).
-/

namespace WireTables

/-- What is put out earlier stands before what is put out later, with something between them. -/
theorem exists_between {α : Type} {xs ys xs' ys' : List α} {x y : α}
    (h : xs ++ x :: ys = xs' ++ y :: ys') (hlt : xs.length < xs'.length) :
    ∃ between, xs' = xs ++ x :: between ∧ ys = between ++ y :: ys' := by
  rcases List.append_eq_append_iff.mp h with ⟨between, hbetween, hcons⟩ | ⟨between, hbetween, -⟩
  · cases between with
    | nil =>
      rw [List.append_nil] at hbetween
      rw [hbetween] at hlt
      exact absurd hlt (Nat.lt_irrefl _)
    | cons first between =>
      obtain ⟨rfl, rfl⟩ := List.cons_eq_cons.mp hcons
      exact ⟨between, hbetween, rfl⟩
  · have hlength := congrArg List.length hbetween
    rw [List.length_append] at hlength
    omega

namespace Schema

/-- The first type is put out before the second one. -/
def ComesBefore (s : Schema) (first second : String) : Prop :=
  ∃ i j, s.position? first = some i ∧ s.position? second = some j ∧ i < j

/-- The type has been added right after the anchor, or at the end without one, with the next number;
all others stand in the order in which they stood. -/
structure Added (s : Schema) (t : TypeEntry) (anchor : Option String) (s' : Schema) : Prop where
  entry : s'.lookup? t.specName = some { t with id := s.types.length }
  place : match anchor with
    | none => s'.position? t.specName = some s.types.length
    | some anchor => ∃ i, s'.position? anchor = some i ∧ s'.position? t.specName = some (i + 1)
  others : s'.types.filter (·.specName != t.specName) = s.types

/-- The type comes after the anchor, right after it if it came before, and then only it has been
moved; all others stand in the order in which they stood. -/
structure Moved (s : Schema) (name anchor : String) (s' : Schema) : Prop where
  after : name ≠ anchor → s'.ComesBefore anchor name
  moved : s.ComesBefore name anchor →
    ∃ i, s'.position? anchor = some i ∧ s'.position? name = some (i + 1)
  unmoved : ¬ s.ComesBefore name anchor → s' = s
  others : s'.types.filter (·.specName != name) = s.types.filter (·.specName != name)

section Places

variable {s s' : Schema} {xs ys : List TypeEntry} {t u : TypeEntry}

/-- A type stands after those that come before it. -/
theorem position?_of_split (h : s.names.Nodup) (hs : s.types = xs ++ t :: ys) :
    s.position? t.specName = some xs.length := by
  unfold position?
  rw [names, hs, List.map_append, List.map_cons] at h
  have hbefore : ∀ x ∈ xs, (x.specName == t.specName) = false := by
    intro x hx
    refine beq_eq_false_iff_ne.mpr fun heq => ?_
    exact (List.nodup_append.mp h).2.2 _ (List.mem_map_of_mem hx) _ List.mem_cons_self heq
  rw [hs, List.findIdx?_append, List.findIdx?_eq_none_iff.mpr hbefore, List.findIdx?_cons]
  simp

/-- A type stands somewhere. -/
theorem exists_split_of_position? {name : String} {i : Nat} (h : s.position? name = some i) :
    ∃ xs t ys, s.types = xs ++ t :: ys ∧ t.specName = name ∧ xs.length = i ∧
      s.lookup? name = some t := by
  obtain ⟨hlt, hname, hbefore⟩ := List.findIdx?_eq_some_iff_getElem.mp h
  refine ⟨s.types.take i, s.types[i], s.types.drop (i + 1), ?_, by simpa using hname,
    List.length_take_of_le (Nat.le_of_lt hlt), ?_⟩
  · rw [List.getElem_cons_drop, List.take_append_drop]
  · refine List.find?_eq_some_iff_append.mpr ⟨hname, s.types.take i, s.types.drop (i + 1), ?_, ?_⟩
    · rw [List.getElem_cons_drop, List.take_append_drop]
    · intro x hx
      obtain ⟨j, hj, rfl⟩ := List.mem_take_iff_getElem.mp hx
      simpa using hbefore j (by omega)

/-- The first type with the name of the anchor is the one after which another one is put. -/
theorem insertAfter_split (hbefore : ∀ x ∈ xs, x.specName ≠ u.specName) :
    insertAfter u.specName t (xs ++ u :: ys) = xs ++ u :: t :: ys := by
  induction xs with
  | nil => simp [insertAfter]
  | cons x xs ih =>
    rw [List.cons_append, insertAfter, if_neg (by simpa using hbefore x List.mem_cons_self),
      ih fun y hy => hbefore y (List.mem_cons_of_mem _ hy)]
    rfl

/-- In a list of types with different names the others are all but one. -/
theorem filter_others (h : ((xs ++ t :: ys).map (·.specName)).Nodup) :
    (xs ++ t :: ys).filter (·.specName != t.specName) = xs ++ ys := by
  rw [List.map_append, List.map_cons, List.nodup_append] at h
  obtain ⟨-, hys, hne⟩ := h
  have hxs : xs.filter (·.specName != t.specName) = xs := List.filter_eq_self.mpr fun x hx => by
    simpa using hne _ (List.mem_map_of_mem hx) _ List.mem_cons_self
  have hys : ys.filter (·.specName != t.specName) = ys := List.filter_eq_self.mpr fun y hy => by
    have hnot := (List.nodup_cons.mp hys).1
    refine bne_iff_ne.mpr fun heq => hnot ?_
    exact List.mem_map.mpr ⟨y, hy, heq⟩
  rw [List.filter_append, List.filter_cons_of_neg (by simp), hxs, hys]

/-- Names before a type are different from its name. -/
theorem ne_of_split (h : ((xs ++ u :: ys).map (·.specName)).Nodup) :
    ∀ x ∈ xs, x.specName ≠ u.specName := by
  rw [List.map_append, List.map_cons, List.nodup_append] at h
  exact fun x hx => h.2.2 _ (List.mem_map_of_mem hx) _ List.mem_cons_self

/-- A type is taken out in front of its anchor and put in right after it. -/
theorem insertAfter_eraseIdx {zs : List TypeEntry}
    (h : ((xs ++ t :: (ys ++ u :: zs)).map (·.specName)).Nodup) :
    insertAfter u.specName t ((xs ++ t :: (ys ++ u :: zs)).eraseIdx xs.length) =
      xs ++ ys ++ u :: t :: zs := by
  have hbefore : ∀ x ∈ xs ++ ys, x.specName ≠ u.specName := by
    intro x hx
    have h : ((xs ++ t :: ys ++ u :: zs).map (·.specName)).Nodup := by
      simpa only [List.append_assoc, List.cons_append] using h
    refine ne_of_split h x ?_
    rcases List.mem_append.mp hx with hx | hx
    · exact List.mem_append_left _ hx
    · exact List.mem_append_right _ (List.mem_cons_of_mem _ hx)
  rw [List.eraseIdx_append_of_length_le (Nat.le_refl _), Nat.sub_self, List.eraseIdx_cons_zero,
    ← List.append_assoc, insertAfter_split hbefore]

/-- A type is added right after its anchor, or at the end. -/
theorem added_of_addType {anchor : Option String} (hs : s.names.Nodup)
    (h : s.addType t anchor = .ok s') : s.Added t anchor s' := by
  have hlookup : s'.lookup? t.specName = _ := lookup?_addType hs h
  rw [if_pos rfl] at hlookup
  obtain ⟨hfresh, hperm⟩ := perm_of_addType h
  have hs' : s'.names.Nodup := (hperm.map _).nodup_iff.mpr (List.nodup_cons.mpr ⟨hfresh, hs⟩)
  -- wherever the type stands, what is before and after it makes up all the types that there were
  suffices ∃ xs ys, s'.types = xs ++ { t with id := s.types.length } :: ys ∧ s.types = xs ++ ys ∧
      match anchor with
      | none => ys = []
      | some anchor => ∃ zs u, xs = zs ++ [u] ∧ u.specName = anchor by
    obtain ⟨xs, ys, hs₁, hs₂, hplace⟩ := this
    have hat := position?_of_split hs' hs₁
    refine ⟨hlookup, ?_, ?_⟩
    · cases anchor with
      | none =>
        subst hplace
        rw [List.append_nil] at hs₂
        rw [hs₂]
        exact hat
      | some anchor =>
        obtain ⟨zs, u, rfl, rfl⟩ := hplace
        refine ⟨zs.length, position?_of_split hs' (hs₁.trans (List.append_assoc ..)), ?_⟩
        rw [List.length_append] at hat
        exact hat
    · rw [names, hs₁] at hs'
      rw [hs₁, filter_others hs', hs₂]
  unfold addType at h
  split at h
  · cases h
  · cases anchor with
    | none =>
      cases h
      exact ⟨s.types, [], rfl, (List.append_nil _).symm, rfl⟩
    | some anchor =>
      dsimp only at h
      split at h
      · next hc =>
        cases h
        obtain ⟨u, hu, rfl⟩ := List.mem_map.mp (contains_iff.mp hc)
        obtain ⟨xs, ys, hsplit⟩ := List.append_of_mem hu
        have hbefore := ne_of_split (hsplit ▸ hs : ((xs ++ u :: ys).map (·.specName)).Nodup)
        refine ⟨xs ++ [u], ys, ?_, by rw [hsplit, List.append_assoc]; rfl, xs, u, rfl, rfl⟩
        show insertAfter u.specName _ s.types = _
        rw [hsplit, insertAfter_split hbefore, List.append_assoc]
        rfl
      · cases h

/-- A type that stands earlier stands before another one in the list of all types. -/
theorem exists_split_of_lt {name anchor : String} {i j : Nat} (hi : s.position? name = some i)
    (hj : s.position? anchor = some j) (hlt : i < j) :
    ∃ xs t ys u zs, s.types = xs ++ t :: (ys ++ u :: zs) ∧ xs.length = i ∧
      s.lookup? name = some t ∧ t.specName = name ∧ u.specName = anchor := by
  obtain ⟨xs, t, rest, hsplit, hname, hlen, hlookup⟩ := exists_split_of_position? hi
  obtain ⟨before, u, zs, hsplit', hanchor, hlen', -⟩ := exists_split_of_position? hj
  obtain ⟨ys, rfl, rfl⟩ := exists_between (hsplit.symm.trans hsplit') (by omega)
  exact ⟨xs, t, ys, u, zs, hsplit, hlen, hlookup, hname, hanchor⟩

/-- Types at one place have one name. -/
theorem eq_of_position? {name other : String} {i : Nat} (h : s.position? name = some i)
    (h' : s.position? other = some i) : name = other := by
  obtain ⟨hlt, hname, -⟩ := List.findIdx?_eq_some_iff_getElem.mp h
  obtain ⟨_, hother, _⟩ := List.findIdx?_eq_some_iff_getElem.mp h'
  exact (beq_iff_eq.mp hname).symm.trans (beq_iff_eq.mp hother)

/-- A type is moved right after its anchor, unless it comes later already. -/
theorem moved_of_ensureAfter {name anchor : String} (hs : s.names.Nodup)
    (h : s.ensureAfter name anchor = .ok s') : s.Moved name anchor s' := by
  have hs' : s'.names.Nodup := ((perm_of_ensureAfter h).map _).nodup_iff.mpr hs
  unfold ensureAfter at h
  split at h
  · next found i j hfound hi hj =>
    split at h
    · next hlt =>
      cases h
      obtain ⟨xs, t, ys, u, zs, hsplit, hlen, ht, rfl, rfl⟩ := exists_split_of_lt hi hj hlt
      obtain rfl : found = t := Option.some.inj (hfound.symm.trans ht)
      rw [names, hsplit] at hs
      have hmoved : insertAfter u.specName found (s.types.eraseIdx i) =
          xs ++ ys ++ u :: found :: zs := by
        rw [hsplit, ← hlen]
        exact insertAfter_eraseIdx hs
      have hmoved' : insertAfter u.specName found (s.types.eraseIdx i) =
          xs ++ ys ++ [u] ++ found :: zs := by
        rw [hmoved, List.append_assoc _ [u]]
        rfl
      have hanchor := position?_of_split hs' hmoved
      have hname := position?_of_split hs' hmoved'
      rw [List.length_append] at hname
      refine ⟨fun _ => ⟨_, _, hanchor, hname, Nat.lt_succ_self _⟩, fun _ => ⟨_, hanchor, hname⟩,
        fun hnot => absurd ⟨i, j, hi, hj, hlt⟩ hnot, ?_⟩
      · rw [names, hmoved'] at hs'
        show (insertAfter u.specName found (s.types.eraseIdx i)).filter _ = _
        rw [hmoved', filter_others hs', hsplit, filter_others hs]
        simp only [List.append_assoc, List.cons_append, List.nil_append]
    · next hle =>
      cases h
      refine ⟨fun hne => ⟨j, i, hj, hi, ?_⟩, ?_, fun _ => rfl, rfl⟩
      · have : j ≠ i := by
          rintro rfl
          exact hne (eq_of_position? hi hj)
        omega
      · rintro ⟨i', j', hi', hj', hlt⟩
        cases hi.symm.trans hi'
        cases hj.symm.trans hj'
        omega
  · cases h

/-- Where a type is put out depends on the names only. -/
theorem position?_eq (name : String) : s.position? name = s.names.findIdx? (· == name) := by
  rw [names, List.findIdx?_map]
  rfl

theorem comesBefore_of_names {first second : String} (hnames : s'.names = s.names)
    (h : s.ComesBefore first second) : s'.ComesBefore first second := by
  simpa only [ComesBefore, position?_eq, hnames] using h

/-- One type is put out before another one when the names come in this order. -/
theorem comesBefore_iff (hs : s.names.Nodup) {first second : String} :
    s.ComesBefore first second ↔ [first, second].Sublist s.names := by
  constructor
  · rintro ⟨i, j, hi, hj, hlt⟩
    obtain ⟨xs, t, ys, u, zs, hsplit, -, -, rfl, rfl⟩ := exists_split_of_lt hi hj hlt
    have hpair : [t, u].Sublist s.types := by
      rw [hsplit]
      refine .trans (.cons_cons _ ?_) (List.sublist_append_right _ _)
      exact List.singleton_sublist.mpr (List.mem_append_right _ List.mem_cons_self)
    exact hpair.map _
  · intro h
    obtain ⟨before, after, hsplit, hfirst, hsecond⟩ := List.cons_sublist_iff.mp h
    obtain ⟨xs, ys, htypes, rfl, rfl⟩ := List.map_eq_append_iff.mp hsplit
    obtain ⟨t, ht, rfl⟩ := List.mem_map.mp hfirst
    obtain ⟨u, hu, rfl⟩ := List.mem_map.mp (List.singleton_sublist.mp hsecond)
    obtain ⟨ws, ws', rfl⟩ := List.append_of_mem ht
    obtain ⟨zs, zs', rfl⟩ := List.append_of_mem hu
    have hat := position?_of_split hs (htypes.trans (List.append_assoc ..))
    have hat' := position?_of_split hs (htypes.trans (List.append_assoc ..).symm)
    refine ⟨_, _, hat, hat', ?_⟩
    simp only [List.length_append, List.length_cons]
    omega

/-- Types that stay in order come one before the other as they did. -/
theorem comesBefore_of_others {name first second : String} (hs : s.names.Nodup)
    (hs' : s'.names.Nodup)
    (hothers : s'.types.filter (·.specName != name) = s.types.filter (·.specName != name))
    (hfirst : first ≠ name) (hsecond : second ≠ name) (h : s.ComesBefore first second) :
    s'.ComesBefore first second := by
  have hnames : s'.names.filter (· != name) = s.names.filter (· != name) := by
    simp only [names, List.filter_map]
    exact congrArg _ hothers
  have hpair : [first, second].filter (· != name) = [first, second] := by
    simp [hfirst, hsecond]
  rw [comesBefore_iff hs] at h
  rw [comesBefore_iff hs', ← hpair]
  exact (h.filter _).trans (hnames ▸ List.filter_sublist)

end Places

end Schema

end WireTables
