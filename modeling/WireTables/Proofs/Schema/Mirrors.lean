import Mathlib.Data.List.Induction
import WireTables.Proofs.Schema.Arena

/-!
# Arenas and the registries that they are read as

Each call that changes an arena does to it what the same change of a schema does to the registry
that the arena is read as, with the same failures, and keeps its parts together (`Mirrors`). What is
changed type by type and constant by constant on an arena is changed in one go in a schema: the two
come to the same because no name is changed twice.
-/

namespace WireTables

/-- A change that fails has changed nothing. -/
theorem Edit.run_tryUpdate (f : Schema → Except Error Schema) (r : Registry) :
    Id.run ((tryUpdate f).run r) = match f r.toSchema with
      | .ok s => (.ok (), { r with toSchema := s })
      | .error e => (.error e, r) := by
  have hread : Id.run ((schema >>= fun s => ofExcept (f s)).run r) = (f r.toSchema, r) := by
    rw [run_bind]
    rfl
  show Id.run (((schema >>= fun s => ofExcept (f s)) >>= fun s => Edit.update fun _ => s).run r) = _
  rw [run_bind, hread]
  cases f r.toSchema <;> rfl

/-- An arena was left whose parts fit together and which holds what was there before; the result and
the registry that it is read as are those of an edit. -/
structure Reflects {α : Type} (a : Arena) (made : Except Error α × Registry)
    (done : Except Error α × Arena) : Prop where
  coherent : done.2.Coherent
  continues : a.Continues done.2
  shown : made = (done.1, done.2.shown)

/-- The change does to every arena whose parts fit together what the edit does to the registry that
the arena is read as. -/
def Mirrors {α : Type} (m : Edit α) (m' : ArenaEdit α) : Prop :=
  ∀ a : Arena, a.Coherent → Reflects a (Id.run (m.run a.shown)) (Id.run (m'.run a))

namespace Mirrors

variable {α β : Type}

theorem pure {x : α} : Mirrors (Pure.pure x : Edit α) (Pure.pure x : ArenaEdit α) :=
  fun a ha => ⟨ha, .refl a, rfl⟩

theorem throw {e : Error} :
    Mirrors (MonadExcept.throw e : Edit α) (MonadExcept.throw e : ArenaEdit α) :=
  fun a ha => ⟨ha, .refl a, rfl⟩

theorem ofExcept {result : Except Error α} :
    Mirrors (Edit.ofExcept result) (ArenaEdit.ofExcept result) :=
  fun a ha => ⟨ha, .refl a, rfl⟩

theorem schema : Mirrors Edit.schema ArenaEdit.schema :=
  fun a ha => ⟨ha, .refl a, rfl⟩

/-- What is found out on the way is remembered; nothing else changes. -/
theorem calculate {m : Schema → Eval α} : Mirrors (Edit.calculate m) (ArenaEdit.calculate m) :=
  fun _ ha => ⟨⟨ha.order, ha.numbers, ha.typeNames, ha.constantNames⟩,
    ⟨fun _ t ht => ⟨t, ht, rfl⟩, fun _ c hc => ⟨c, hc, rfl⟩⟩, rfl⟩

theorem bind {m : Edit α} {m' : ArenaEdit α} {f : α → Edit β} {f' : α → ArenaEdit β}
    (h : Mirrors m m') (hf : ∀ x, Mirrors (f x) (f' x)) : Mirrors (m >>= f) (m' >>= f') := by
  intro a ha
  obtain ⟨hcoherent, hcontinues, hshown⟩ := h a ha
  rw [run_bind, run_bind, hshown]
  generalize Id.run (m'.run a) = done at hcoherent hcontinues
  obtain ⟨result, a'⟩ := done
  cases result with
  | error e => exact ⟨hcoherent, hcontinues, rfl⟩
  | ok x =>
    have hx := hf x a' hcoherent
    exact ⟨hx.coherent, hcontinues.trans hx.continues, hx.shown⟩

theorem foldlM {f : β → α → Edit β} {f' : β → α → ArenaEdit β} {xs : List α} {b : β}
    (h : ∀ b x, Mirrors (f b x) (f' b x)) : Mirrors (xs.foldlM f b) (xs.foldlM f' b) := by
  induction xs generalizing b with
  | nil => exact pure
  | cons x xs ih =>
    rw [List.foldlM_cons, List.foldlM_cons]
    exact (h b x).bind fun _ => ih

theorem forM {f : α → Edit Unit} {f' : α → ArenaEdit Unit} {xs : List α}
    (h : ∀ x, Mirrors (f x) (f' x)) : Mirrors (xs.forM f) (xs.forM f') := by
  induction xs with
  | nil => exact pure
  | cons x xs ih =>
    show Mirrors (f x >>= fun _ => xs.forM f) (f' x >>= fun _ => xs.forM f')
    exact (h x).bind fun _ => ih

theorem filterMapM {f : α → Edit (Option β)} {f' : α → ArenaEdit (Option β)} {xs : List α}
    (h : ∀ x, Mirrors (f x) (f' x)) : Mirrors (xs.filterMapM f) (xs.filterMapM f') := by
  induction xs with
  | nil => exact pure
  | cons x xs ih =>
    rw [List.filterMapM_cons, List.filterMapM_cons]
    refine (h x).bind fun y => ?_
    cases y with
    | none => exact ih
    | some z => exact ih.bind fun _ => pure

/-- A change that does one thing only. -/
theorem update {f : Schema → Schema} {g : Arena → Arena}
    (h : ∀ a : Arena, a.Coherent → (g a).Coherent ∧ a.Continues (g a) ∧
      (g a).shown = { a.shown with toSchema := f a.shown.toSchema }) :
    Mirrors (Edit.update f) (modify g) := by
  intro a ha
  obtain ⟨hcoherent, hcontinues, hshown⟩ := h a ha
  exact ⟨hcoherent, hcontinues, Prod.ext rfl hshown.symm⟩

/-- An edit that comes to the same is mirrored as well. -/
theorem of_run_eq {m₁ m₂ : Edit α} {m' : ArenaEdit α} (h : Mirrors m₁ m')
    (heq : ∀ a : Arena, a.Coherent → Id.run (m₂.run a.shown) = Id.run (m₁.run a.shown)) :
    Mirrors m₂ m' := by
  intro a ha
  rw [heq a ha]
  exact h a ha

end Mirrors

section Calls

open Arena

variable {a : Arena}

theorem Arena.Coherent.length_shown (h : a.Coherent) : a.shown.types.length = a.types.size := by
  show (a.order.filterMap (a.types[·]?)).length = _
  rw [h.length_listed (List.Subset.refl _), h.order.length_eq, List.length_range]

theorem mirrors_addType (t : TypeEntry) (anchor : Option String) :
    Mirrors (Edit.tryUpdate (·.addType t anchor)) (ArenaEdit.addType t anchor) := by
  intro a ha
  rw [Edit.run_tryUpdate]
  have hcontains := ha.contains_shown t.specName
  rcases addType_cases a t anchor with ⟨number, hn, hmade⟩ | ⟨hfresh, hcases⟩
  · have hfails : a.shown.addType t anchor = .error (.duplicateType t.specName) := by
      rw [hn] at hcontains
      exact if_pos hcontains
    rw [hfails, hmade]
    exact ⟨ha, .refl a, rfl⟩
  · have hplace : ∀ place, place ≤ a.order.length → (a.withType t place).Coherent :=
      fun place => ha.withType hfresh
    rw [hfresh] at hcontains
    rcases hcases with ⟨other, rfl, hother, hmade⟩ | ⟨rfl, hmade⟩ | ⟨other, number, rfl, hn, hmade⟩
    · have hfails : a.shown.addType t (some other) =
          .error (.unknownType other ("insertion of " ++ t.specName)) := by
        unfold Schema.addType
        rw [if_neg (by simp [hcontains])]
        exact if_neg (by rw [ha.contains_shown, hother]; exact Bool.false_ne_true)
      rw [hfails, hmade]
      exact ⟨ha, .refl a, rfl⟩
    · have hadded : a.shown.addType t none =
          .ok { a.shown.toSchema with
            types := a.shown.types ++ [{ t with id := a.shown.types.length }] } := by
        unfold Schema.addType
        exact if_neg (by simp [hcontains])
      rw [hadded, hmade]
      refine ⟨hplace _ (Nat.le_refl _), continues_withType a t _, Prod.ext rfl ?_⟩
      rw [ha.shown_withType (List.append_nil _).symm, ha.length_shown]
      rfl
    · obtain ⟨before, after, u, hsplit, hu, rfl, hat, -⟩ := ha.exists_split hn
      have hsplit' : a.order = (before ++ [number]) ++ after := by
        rw [hsplit, List.append_assoc]
        rfl
      obtain ⟨hlisted, -⟩ := ha.listed_of_split hsplit hu
      have hadded : a.shown.addType t (some u.specName) =
          .ok { a.shown.toSchema with
            types := Schema.insertAfter u.specName { t with id := a.shown.types.length }
              a.shown.types } := by
        unfold Schema.addType
        rw [if_neg (by simp [hcontains])]
        exact if_pos (by rw [ha.contains_shown, hn]; rfl)
      have hnames := ha.nodup_names
      rw [Schema.names, hlisted] at hnames
      have hbefore := Schema.ne_of_split hnames
      have hafter : ((a.order.idxOf? number).map (· + 1)).getD a.order.length =
          (before ++ [number]).length := by
        rw [hat, List.length_append]
        rfl
      rw [hadded, hmade, hafter]
      refine ⟨hplace _ (hsplit' ▸ (List.prefix_append _ _).length_le), continues_withType a t _,
        Prod.ext rfl ?_⟩
      rw [ha.shown_withType hsplit', ha.length_shown, hlisted, Schema.insertAfter_split hbefore,
        List.filterMap_append, List.filterMap_cons_some hu, List.append_assoc]
      rfl

/-- A type can only be moved if it and its anchor are there. -/
theorem Schema.ensureAfter_of_none {s : Schema} {name anchor : String}
    (h : s.position? name = none ∨ s.position? anchor = none) :
    s.ensureAfter name anchor = .error (.unknownType (name ++ " or " ++ anchor) "reordering") := by
  unfold ensureAfter
  split
  · next hname hanchor =>
    rcases h with h | h
    · cases h.symm.trans hname
    · cases h.symm.trans hanchor
  · rfl

theorem mirrors_ensureAfter (name anchor : String) :
    Mirrors (Edit.tryUpdate (·.ensureAfter name anchor)) (ArenaEdit.ensureAfter name anchor) := by
  intro a ha
  rw [Edit.run_tryUpdate]
  rcases ensureAfter_cases a name anchor with ⟨hnone, hmade⟩ | ⟨at_, anchorAt, hat, hanchor, hcases⟩
  · rw [← ha.position?_shown, ← ha.position?_shown] at hnone
    rw [Schema.ensureAfter_of_none hnone, hmade]
    exact ⟨ha, .refl a, rfl⟩
  · obtain ⟨number, -, -, t, hn, -, -, ht, -⟩ := ha.exists_split_of_position? hat
    have hensure : a.shown.ensureAfter name anchor = if at_ < anchorAt then
        .ok { a.shown.toSchema with
          types := Schema.insertAfter anchor t (a.shown.types.eraseIdx at_) }
        else .ok a.shown.toSchema := by
      unfold Schema.ensureAfter
      rw [ha.lookup?_shown, lookup?, hn, Option.bind_some, ht, ha.position?_shown,
        ha.position?_shown, hat, hanchor]
    rcases hcases with ⟨hle, hmade⟩ | ⟨hlt, hmade⟩
    · rw [hensure, if_neg hle, hmade]
      exact ⟨ha, .refl a, rfl⟩
    · obtain ⟨_, anchorNumber, before, between, after, hn', hk, rfl, hsplit, hmoved⟩ :=
        ha.withMoved hat hanchor hlt
      obtain rfl := Option.some.inj (hn.symm.trans hn')
      obtain ⟨u, hu, rfl⟩ := ha.exists_of_number? hk
      have hlisted : a.shown.types = before.filterMap (a.types[·]?) ++
          t :: (between.filterMap (a.types[·]?) ++ u :: after.filterMap (a.types[·]?)) := by
        rw [(ha.listed_of_split hsplit ht).1, List.filterMap_append, List.filterMap_cons_some hu]
      have hnames := ha.nodup_names
      rw [Schema.names, hlisted] at hnames
      have hlength := (ha.listed_of_split hsplit ht).2
      have hat : a.order[before.length]? = some number := by
        rw [hsplit, List.getElem?_append_right (Nat.le_refl _), Nat.sub_self]
        rfl
      rw [hensure, if_pos hlt, hmade, hat, hlisted, ← hlength, Schema.insertAfter_eraseIdx hnames]
      simp only [hlength, hmoved]
      refine ⟨ha.of_order ?_, ⟨fun _ t ht => ⟨t, ht, rfl⟩, fun _ c hc => ⟨c, hc, rfl⟩⟩,
        Prod.ext rfl ?_⟩
      · rw [hsplit, List.append_assoc]
        have hmiddle : (between ++ [anchorNumber] ++ number :: after).Perm _ := List.perm_middle
        simp only [List.append_assoc, List.cons_append, List.nil_append] at hmiddle
        exact hmiddle.append_left before
      · have hshown : (before ++ between ++ anchorNumber :: number :: after).filterMap
            (a.types[·]?) = before.filterMap (a.types[·]?) ++ between.filterMap (a.types[·]?) ++
              u :: t :: after.filterMap (a.types[·]?) := by
          rw [List.filterMap_append, List.filterMap_append, List.filterMap_cons_some hu,
            List.filterMap_cons_some ht]
        exact congrArg (fun types => { a.shown with types := types }) hshown.symm

theorem mirrors_addConstant (c : Constant) :
    Mirrors (Edit.tryUpdate (·.addConstant c)) (ArenaEdit.addConstant c) := by
  intro a ha
  rw [Edit.run_tryUpdate]
  have hnumber := ha.constantNumber?_shown c.specName
  rcases addConstant_cases a c with ⟨number, hn, hmade⟩ | ⟨hfresh, hmade⟩
  · have hfails : a.shown.addConstant c = .error (.duplicateConstant c.specName) :=
      if_pos (by rw [Schema.hasConstant, hnumber, hn]; rfl)
    rw [hfails, hmade]
    exact ⟨ha, .refl a, rfl⟩
  · have hadded : a.shown.addConstant c =
        .ok { a.shown.toSchema with constants := a.shown.constants.push c } :=
      if_neg (by rw [Schema.hasConstant, hnumber, hfresh]; exact Bool.false_ne_true)
    rw [hadded, hmade]
    exact ⟨ha.withConstant hfresh, continues_withConstant a c, rfl⟩

/-- Types that keep their numbers and their names may be changed where they lie. -/
theorem Arena.Coherent.mapTypes (h : a.Coherent) {change : TypeEntry → TypeEntry}
    (hid : ∀ t, (change t).id = t.id) (hname : ∀ t, (change t).specName = t.specName) :
    Coherent { a with types := a.types.map change } ∧
      a.Continues { a with types := a.types.map change } ∧
        { a with types := a.types.map change }.shown =
          { a.shown with types := a.shown.types.map change } := by
  have hget : ∀ number : Nat, (a.types.map change)[number]? = a.types[number]?.map change :=
    fun _ => Array.getElem?_map
  refine ⟨⟨?_, fun number t ht => ?_, fun name number => ?_, h.constantNames⟩,
    ⟨fun number t ht => ?_, fun _ c hc => ⟨c, hc, rfl⟩⟩, ?_⟩
  · rw [Array.size_map]
    exact h.order
  · obtain ⟨u, hu, rfl⟩ := Option.map_eq_some_iff.mp ((hget number).symm.trans ht)
    rw [hid]
    exact h.numbers number u hu
  · rw [hget, Option.map_map, h.typeNames]
    exact iff_of_eq (congrArg (fun key => Option.map key _ = _) (funext fun t => (hname t).symm))
  · exact ⟨change t, (hget number).trans (by rw [ht]; rfl), hname t⟩
  · refine congrArg (fun types => { a.shown with types := types }) ?_
    show a.order.filterMap ((a.types.map change)[·]?) = (a.order.filterMap (a.types[·]?)).map change
    rw [List.map_filterMap]
    exact List.filterMap_congr fun number _ => hget number

/-- The type under a name is the only one that is changed under it. -/
theorem Arena.Coherent.amendType_eq (h : a.Coherent) (name : String)
    (change : TypeEntry → TypeEntry) : a.amendType name change =
      { a with types := a.types.map fun t => if t.specName == name then change t else t } := by
  have hget : ∀ i, (if a.typeNames.number? name = some i then a.types[i]?.map change
      else a.types[i]?) = a.types[i]?.map fun t => if t.specName == name then change t else t := by
    intro i
    cases ht : a.types[i]? with
    | none => exact ite_self _
    | some t =>
      have hiff : a.typeNames.number? name = some i ↔ t.specName = name := by
        rw [h.typeNames, ht]
        exact Option.some_inj
      simp only [hiff, Option.map_some, beq_iff_eq]
      split <;> rfl
  unfold amendType
  cases hn : a.typeNames.number? name with
  | none =>
    refine congrArg (fun types => { a with types := types }) (Array.ext_getElem? fun i => ?_)
    rw [Array.getElem?_map, ← hget, hn]
    exact (if_neg (fun heq => nomatch heq)).symm
  | some number =>
    refine congrArg (fun types => { a with types := types }) (Array.ext_getElem? fun i => ?_)
    rw [Array.getElem?_map, Array.getElem?_modify, ← hget, hn]
    simp only [Option.some_inj]

/-- A type is changed under its number and its name. -/
theorem mirrors_amendType (name : String) {change : TypeEntry → TypeEntry}
    (hid : ∀ t, (change t).id = t.id) (hname : ∀ t, (change t).specName = t.specName) :
    Mirrors (Edit.update (·.modifyType name change)) (ArenaEdit.amendType name change) := by
  refine .update fun a ha => ?_
  rw [ha.amendType_eq]
  exact ha.mapTypes (fun t => by split <;> simp [hid]) fun t => by split <;> simp [hname]

/-- A constant is changed under its number and its name. -/
theorem mirrors_amendConstant (number : Nat) {change : Constant → Constant}
    (hname : ∀ c, (change c).specName = c.specName) :
    Mirrors (Edit.update fun s => { s with constants := s.constants.modify number change })
      (ArenaEdit.amendConstant number change) := by
  refine .update fun a ha => ?_
  have hget : ∀ i : Nat, ((a.constants.modify number change)[i]?).map (·.specName) =
      a.constants[i]?.map (·.specName) := by
    intro i
    rw [Array.getElem?_modify]
    split
    · rw [Option.map_map]
      exact congrArg (fun key => Option.map key _) (funext hname)
    · rfl
  refine ⟨⟨ha.order, ha.numbers, ha.typeNames, fun name i => ?_⟩,
    ⟨fun _ t ht => ⟨t, ht, rfl⟩, fun i c hc => ?_⟩, rfl⟩
  · exact (ha.constantNames name i).trans (by rw [← hget]; rfl)
  · have hi := hget i
    rw [hc] at hi
    exact Option.map_eq_some_iff.mp hi

theorem mirrors_setAdapted (lang : Language) :
    Mirrors (Edit.update ({ · with adaptedFor := some lang })) (ArenaEdit.setAdapted lang) :=
  .update fun _ ha => ⟨⟨ha.order, ha.numbers, ha.typeNames, ha.constantNames⟩,
    ⟨fun _ t ht => ⟨t, ht, rfl⟩, fun _ c hc => ⟨c, hc, rfl⟩⟩, rfl⟩

end Calls

section Loops

variable {α : Type} {s : Schema}

/-- Changes of the schema one after the other. -/
theorem Edit.run_forM_update (change : α → Schema → Schema) (xs : List α) (r : Registry) :
    Id.run ((xs.forM fun x => Edit.update (change x)).run r) =
      (.ok (), { r with toSchema := xs.foldl (fun s x => change x s) r.toSchema }) := by
  induction xs generalizing r with
  | nil => rfl
  | cons x xs ih =>
    show Id.run ((Edit.update (change x) >>= fun _ =>
      xs.forM fun x => Edit.update (change x)).run r) = _
    rw [run_bind]
    exact ih _

/-- Types with different names may be changed under their names one after the other. -/
theorem Schema.foldl_modifyType (hs : s.names.Nodup) {change : TypeEntry → TypeEntry}
    (hname : ∀ t, (change t).specName = t.specName) :
    s.names.foldl (fun s name => s.modifyType name change) s =
      { s with types := s.types.map change } := by
  -- what has been worked through is changed, and the rest is as it was
  suffices ∀ done todo : List TypeEntry, s.types = done ++ todo →
      (todo.map (·.specName)).foldl (fun s name => s.modifyType name change)
        { s with types := done.map change ++ todo } = { s with types := s.types.map change } from
    this [] s.types rfl
  intro done todo hsplit
  induction todo generalizing done with
  | nil =>
    rw [hsplit, List.append_nil]
    simp only [List.map_nil, List.foldl_nil, List.append_nil]
  | cons t rest ih =>
    have hsplit' : s.types = done ++ [t] ++ rest := by
      rw [hsplit, List.append_assoc]
      rfl
    rw [← ih (done ++ [t]) hsplit', List.map_cons, List.foldl_cons]
    have hothers : ∀ u ∈ done ++ rest, (u.specName == t.specName) = false := by
      rw [names, hsplit, List.map_append, List.map_cons] at hs
      have hnodup := List.nodup_middle.mp hs
      rw [← List.map_append] at hnodup
      exact fun u hu => beq_eq_false_iff_ne.mpr fun heq =>
        (List.nodup_cons.mp hnodup).1 (heq ▸ List.mem_map_of_mem hu)
    refine congrArg (fun types => List.foldl _ { s with types := types } _) ?_
    rw [List.map_append, List.map_append, List.map_cons, List.append_assoc]
    refine congrArg₂ (· ++ ·) ?_ (congrArg₂ List.cons (if_pos (beq_self_eq_true _)) ?_)
    · rw [List.map_map]
      refine List.map_congr_left fun u hu => ?_
      show (if (change u).specName == t.specName then _ else _) = _
      rw [hname, hothers u (List.mem_append_left _ hu)]
      rfl
    · refine (List.map_congr_left fun u hu => ?_).trans (List.map_id _)
      rw [hothers u (List.mem_append_right _ hu)]
      rfl

theorem TypeEntry.mapRecord_mapRecord (f g : Record → Record) (t : TypeEntry) :
    (t.mapRecord f).mapRecord g = t.mapRecord (g ∘ f) := by
  obtain ⟨_, _, _, _, _, kind⟩ := t
  cases kind <;> rfl

/-- What is learned after something else is put behind it unless it is there. -/
theorem Record.learn_eraseDups (links : List (String × String)) (link : String × String)
    (r : Record) : learn link { r with memberOf := links.eraseDups } =
      { r with memberOf := (links ++ [link]).eraseDups } := by
  have hcontains : links.eraseDups.contains link = links.contains link := by
    rw [Bool.eq_iff_iff, List.contains_iff_mem, List.contains_iff_mem, List.mem_eraseDups]
  have happend : (links ++ [link]).eraseDups =
      if links.contains link then links.eraseDups else links.eraseDups ++ [link] := by
    rw [List.eraseDups_append]
    by_cases hlink : link ∈ links
    · rw [if_pos (List.contains_iff_mem.mpr hlink)]
      simp [List.removeAll, hlink]
    · rw [if_neg (by rwa [List.contains_iff_mem])]
      simp [List.removeAll, hlink, List.eraseDups_cons]
  unfold learn
  dsimp only
  rw [hcontains, happend]
  split <;> rfl

/-- Structures that learn the unions they are members of one by one know all of them in the end. -/
theorem Schema.foldl_learn (s : Schema) (links : List (String × String × String)) :
    links.foldl (fun (s : Schema) x => s.modifyRecord x.1 (Record.learn x.2))
        { s with types := s.types.map fun t => t.mapRecord Record.forget } =
      { s with types := s.types.map fun t => t.mapRecord fun r =>
          { r with memberOf := ((links.filter (·.1 == t.specName)).map (·.2)).eraseDups } } := by
  induction links using List.reverseRecOn with
  | nil => rfl
  | append_singleton links x ih =>
    rw [List.foldl_append, ih, List.foldl_cons, List.foldl_nil]
    refine congrArg (fun types => { s with types := types }) ?_
    rw [List.map_map]
    refine List.map_congr_left fun t _ => ?_
    rw [Function.comp_apply, TypeEntry.specName_mapRecord, List.filter_append, List.map_append]
    by_cases hx : t.specName = x.1
    · have hfilter : [x].filter (·.1 == t.specName) = [x] := by simp [hx]
      rw [if_pos (beq_iff_eq.mpr hx), hfilter]
      refine (TypeEntry.mapRecord_mapRecord _ _ t).trans ?_
      exact congrArg (TypeEntry.mapRecord · t) (funext fun r => Record.learn_eraseDups _ _ r)
    · have hfilter : [x].filter (·.1 == t.specName) = [] := by simp [Ne.symm hx]
      rw [if_neg (by simpa using hx), hfilter, List.map_nil, List.append_nil]

/-- Constants may be changed under their numbers one after the other. -/
theorem Schema.foldl_modifyConstant (s : Schema) (change : Constant → Constant) :
    (List.range s.constants.size).foldl
        (fun s number => { s with constants := s.constants.modify number change }) s =
      { s with constants := s.constants.map change } := by
  suffices ∀ n, ∃ constants : Array Constant,
      (List.range n).foldl
        (fun s number => { s with constants := s.constants.modify number change }) s =
          { s with constants } ∧
        ∀ i : Nat, constants[i]? =
          if i < n then s.constants[i]?.map change else s.constants[i]? by
    obtain ⟨constants, hfold, hget⟩ := this s.constants.size
    rw [hfold]
    refine congrArg (fun constants => { s with constants := constants })
      (Array.ext_getElem? fun i => ?_)
    rw [hget, Array.getElem?_map]
    split
    · rfl
    · next hout => rw [Array.getElem?_eq_none (Nat.le_of_not_lt hout)]; rfl
  intro n
  induction n with
  | zero => exact ⟨s.constants, rfl, fun i => (if_neg (Nat.not_lt_zero i)).symm⟩
  | succ n ih =>
    obtain ⟨constants, hfold, hget⟩ := ih
    refine ⟨constants.modify n change, ?_, fun i => ?_⟩
    · rw [List.range_succ, List.foldl_append, hfold]
      rfl
    · rw [Array.getElem?_modify, hget]
      rcases Nat.lt_trichotomy i n with hlt | rfl | hgt
      · rw [if_neg (Nat.ne_of_gt hlt), if_pos hlt, if_pos (Nat.lt_succ_of_lt hlt)]
      · rw [if_pos rfl, if_neg (Nat.lt_irrefl _), if_pos (Nat.lt_succ_self _)]
      · rw [if_neg (Nat.ne_of_lt hgt), if_neg (Nat.lt_asymm hgt), if_neg (by omega)]

/-- Types are changed one after the other, each where it lies. -/
theorem mirrors_amendTypes {change : TypeEntry → TypeEntry} (hid : ∀ t, (change t).id = t.id)
    (hname : ∀ t, (change t).specName = t.specName) :
    Mirrors (Edit.update fun s => { s with types := s.types.map change })
      (ArenaEdit.amendTypes change) := by
  have h : Mirrors (Edit.schema >>= fun s => s.names.forM fun name =>
      Edit.update (·.modifyType name change)) (ArenaEdit.amendTypes change) :=
    Mirrors.schema.bind fun _ => .forM fun name => mirrors_amendType name hid hname
  refine h.of_run_eq fun a ha => ?_
  have hrun := Edit.run_forM_update (fun name s => s.modifyType name change) a.shown.names a.shown
  rw [Schema.foldl_modifyType ha.nodup_names hname] at hrun
  exact hrun.symm

/-- Constants are changed one after the other. -/
theorem mirrors_amendConstants {change : Constant → Constant}
    (hname : ∀ c, (change c).specName = c.specName) :
    Mirrors (Edit.update fun s => { s with constants := s.constants.map change })
      (ArenaEdit.amendConstants change) := by
  have h : Mirrors (Edit.schema >>= fun s => (List.range s.constants.size).forM fun number =>
      Edit.update fun s => { s with constants := s.constants.modify number change })
        (ArenaEdit.amendConstants change) :=
    Mirrors.schema.bind fun _ => .forM fun number => mirrors_amendConstant number hname
  refine h.of_run_eq fun a _ => ?_
  have hrun := Edit.run_forM_update
    (fun number s => { s with constants := s.constants.modify number change })
    (List.range a.shown.constants.size) a.shown
  rw [Schema.foldl_modifyConstant] at hrun
  exact hrun.symm

theorem mirrors_linkUnions : Mirrors (Edit.update (·.linkUnions)) ArenaEdit.linkUnions := by
  have h : Mirrors (Edit.schema >>= fun s =>
      (Edit.update fun s => { s with types := s.types.map (·.mapRecord Record.forget) }) >>=
        fun _ => s.memberships.forM fun x => Edit.update (·.modifyRecord x.1 (Record.learn x.2)))
      ArenaEdit.linkUnions :=
    Mirrors.schema.bind fun s => .bind
      (.update fun a ha => ha.mapTypes (TypeEntry.id_mapRecord _) (TypeEntry.specName_mapRecord _))
      fun _ => .forM fun (_, _) => mirrors_amendType _ (TypeEntry.id_mapRecord _)
        (TypeEntry.specName_mapRecord _)
  refine h.of_run_eq fun a _ => ?_
  have hrun := Edit.run_forM_update (fun x s => Schema.modifyRecord s x.1 (Record.learn x.2))
    a.shown.memberships { a.shown with types := a.shown.types.map (·.mapRecord Record.forget) }
  rw [Schema.foldl_learn] at hrun
  exact hrun.symm

end Loops

end WireTables
