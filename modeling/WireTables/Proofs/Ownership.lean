import WireTables.Proofs.Additions
import WireTables.Target.Adapt

/-!
# Whose constants

Every constant belongs to a type, and that type lists it exactly once while no other type does
(`count_declared_of_extract`), so it is put out in exactly one declaration. There is one exception. A
table of constants may bear the name of a type that is no enumeration. Nothing objects, and its
constants belong to a type that does not list them; only the constants that describe the bits of a
bitfield are in the list of that bitfield.

Constants come before they are listed: a table adds all of its constants and then the list. So the
invariant `Schema.Owned` holds between tables, and `Enlists` says what happens inside of one.
-/

namespace WireTables

open Target (listedConstants)

namespace TypeEntry

/-- The names of the constants that describe the bits of the type. -/
def bitNames (t : TypeEntry) : List String :=
  match t.kind with
  | .bitfield b => b.members.flatMap fun m =>
      (Extraction.bitConstants t.specName m).map (·.1)
  | _ => []

/-- A constant of the type is put out with it: any constant of an enumeration, and of a bitfield
those that describe its bits. -/
def declares (t : TypeEntry) (c : Constant) : Bool :=
  match t.kind with
  | .enum _ => true
  | _ => t.bitNames.contains c.specName

/-- The type with constants added to its list, if it is an enumeration. -/
def enlist (ids : List Nat) (errorCode : Option String) (t : TypeEntry) : TypeEntry :=
  match t.kind with
  | .enum e =>
    let e := { e with members := e.members ++ ids, errorCode := errorCode <|> e.errorCode }
    { t with kind := .enum e }
  | _ => t

theorem listedConstants_of_unlisted {t : TypeEntry} (h : t.listsConstants = false) :
    listedConstants t = [] ∧ t.bitNames = [] := by
  obtain ⟨id, specName, name, comment, implemented, kind⟩ := t
  cases kind
  case enum => cases h
  case bitfield => cases h
  all_goals exact ⟨rfl, rfl⟩

/-- The types put out the same constants under the same name. -/
structure SameList (t u : TypeEntry) : Prop where
  specName : u.specName = t.specName
  implemented : u.implemented = t.implemented
  listsConstants : u.listsConstants = t.listsConstants
  bitNames : u.bitNames = t.bitNames
  declares : ∀ c, u.declares c = t.declares c

theorem sameList_mapRecord (f : Record → Record) (t : TypeEntry) :
    SameList t (t.mapRecord f) ∧ listedConstants (t.mapRecord f) = listedConstants t := by
  obtain ⟨id, specName, name, comment, implemented, kind⟩ := t
  cases kind <;> exact ⟨⟨rfl, rfl, rfl, rfl, fun _ => rfl⟩, rfl⟩

theorem sameList_enlist (ids : List Nat) (errorCode : Option String) (t : TypeEntry) :
    SameList t (t.enlist ids errorCode) := by
  obtain ⟨id, specName, name, comment, implemented, kind⟩ := t
  cases kind <;> exact ⟨rfl, rfl, rfl, rfl, fun _ => rfl⟩

/-- An enumeration has the constants in its list afterwards. What is none stays as it is, and puts
out nothing but the constants that describe its bits. -/
theorem listedConstants_enlist (ids : List Nat) (errorCode : Option String) (t : TypeEntry) :
    listedConstants (t.enlist ids errorCode) = listedConstants t ++ ids ∧
        (∀ c, t.declares c = true) ∨
      listedConstants (t.enlist ids errorCode) = listedConstants t ∧
        ∀ c, t.declares c = true → c.specName ∈ t.bitNames := by
  obtain ⟨id, specName, name, comment, implemented, kind⟩ := t
  cases kind
  case enum => exact .inl ⟨rfl, fun _ => rfl⟩
  all_goals exact .inr ⟨rfl, fun c hc => List.contains_iff_mem.mp hc⟩

end TypeEntry

/-- The numbers of the constants that declarations put out, in the order of the declarations. -/
def Schema.declared (s : Schema) : List Nat :=
  s.implemented.flatMap listedConstants

/-- Types list their own constants. -/
structure Schema.Owned (s : Schema) : Prop where
  names : s.names.Nodup
  owner : ∀ (i : Nat) (c : Constant), s.constants[i]? = some c → c.owner ∈ s.names
  listed : ∀ t ∈ s.types, ∀ i ∈ listedConstants t,
    ∃ c, s.constants[i]? = some c ∧ c.owner = t.specName ∧ t.declares c = true
  once : ∀ t ∈ s.types, (listedConstants t).Nodup
  complete : ∀ (i : Nat) (c : Constant), s.constants[i]? = some c → ∀ t ∈ s.types,
    t.specName = c.owner → t.declares c = true → i ∈ listedConstants t
  described : ∀ t ∈ s.types, ∀ name ∈ t.bitNames, s.hasConstant name = true
  implemented : ∀ t ∈ s.types, t.listsConstants = true → t.implemented = true

namespace Schema

theorem hasConstant_iff {s : Schema} {name : String} :
    s.hasConstant name = true ↔ ∃ c ∈ s.constants, c.specName = name := by
  unfold hasConstant constantNumber?
  rw [Array.findIdx?_isSome, Array.any_eq_true']
  simp

/-- Constants of one owner were added, and these are the numbers of those that were not left out.
Afterwards there is a constant of each of the names. -/
structure Enlists (owner : String) (names : List String) (new : List Constant) (s : Schema)
    (numbers : List Nat) (s' : Schema) : Prop where
  types : s'.types = s.types
  constants : s'.constants = s.constants ++ new.toArray
  numbers : numbers = List.range' s.constants.size new.length
  fresh : ∀ c ∈ new, c.owner = owner ∧ c.specName ∈ names ∧ s.hasConstant c.specName = false
  present : ∀ name ∈ names, s'.hasConstant name = true

namespace Enlists

variable {owner : String} {names : List String} {new : List Constant} {s s' : Schema}
  {ids : List Nat}

theorem getElem?_old (h : Enlists owner names new s ids s') {i : Nat} {c : Constant}
    (hc : s.constants[i]? = some c) : s'.constants[i]? = some c := by
  obtain ⟨hi, -⟩ := Array.getElem?_eq_some_iff.mp hc
  rw [h.constants, Array.getElem?_append_left hi, hc]

theorem hasConstant_old (h : Enlists owner names new s ids s') {name : String}
    (hc : s.hasConstant name = true) : s'.hasConstant name = true := by
  obtain ⟨c, hc, hname⟩ := hasConstant_iff.mp hc
  exact hasConstant_iff.mpr ⟨c, by rw [h.constants]; exact Array.mem_append_left _ hc, hname⟩

/-- A constant was there before, or it is a new one and its number is among the numbers. -/
theorem cases (h : Enlists owner names new s ids s') {i : Nat} {c : Constant}
    (hc : s'.constants[i]? = some c) :
    s.constants[i]? = some c ∨ i ∈ ids ∧ c ∈ new := by
  rw [h.constants, Array.getElem?_append] at hc
  split at hc
  · exact .inl hc
  · next hi =>
    rw [List.getElem?_toArray] at hc
    refine .inr ⟨?_, List.mem_of_getElem? hc⟩
    obtain ⟨hlt, -⟩ := List.getElem?_eq_some_iff.mp hc
    rw [h.numbers, List.mem_range'_1]
    omega

theorem exists_of_mem (h : Enlists owner names new s ids s') {i : Nat} (hi : i ∈ ids) :
    s.constants.size ≤ i ∧ ∃ c ∈ new, s'.constants[i]? = some c := by
  rw [h.numbers, List.mem_range'_1] at hi
  have hlt : i - s.constants.size < new.length := by omega
  refine ⟨hi.1, new[i - s.constants.size], List.getElem_mem _, ?_⟩
  rw [h.constants, Array.getElem?_append_right hi.1, List.getElem?_toArray,
    List.getElem?_eq_getElem]

theorem nodup (h : Enlists owner names new s ids s') : ids.Nodup := by
  rw [h.numbers]
  exact List.nodup_range'

end Enlists

end Schema

namespace Build

open Schema

theorem eq_of_update {f : Schema → Except Error Schema} {s s' : Schema} {u : Unit}
    (h : update f s = .ok (u, s')) : f s = .ok s' := by
  have h : (f s).bind (fun s₁ => Except.ok ((), s₁)) = .ok (u, s') := by
    rw [← h]
    show _ = Except.bind (Except.bind (f s) fun a => .ok (a, s)) fun p =>
      (set p.1 : Build Unit) p.2
    cases f s <;> rfl
  obtain ⟨s₁, hf, h⟩ := bind_eq_ok.mp h
  cases h
  exact hf

/-- A row adds one constant or none, and afterwards there is one of its name. -/
def EnlistsOne (owner name : String) (m : Build (Option Nat)) : Prop :=
  ∀ s number s', m s = .ok (number, s') →
    number = none ∧ s' = s ∧ s.hasConstant name = true ∨
      ∃ c, c.specName = name ∧ c.owner = owner ∧ number = some s.constants.size ∧
        s.hasConstant name = false ∧ s'.types = s.types ∧ s'.constants = s.constants.push c

theorem enlistsOne_addConstant {config : Config} {c : Constant} :
    EnlistsOne c.owner c.specName (addConstant config c) := by
  intro s number s' h
  have h : (if (s.hasConstant c.specName && config.reserved.allowsDrop c.owner c.comment) = true
      then pure none else do
        update (·.addConstant c)
        pure (some s.constants.size) : Build (Option Nat)) s = .ok (number, s') := h
  split at h
  · next hdrop =>
    cases h
    exact .inl ⟨rfl, rfl, ((Bool.and_eq_true _ _).mp hdrop).1⟩
  · obtain ⟨⟨_, s₁⟩, hadd, h⟩ := bind_eq_ok.mp h
    cases h
    have hadd : s.addConstant c = .ok s' := eq_of_update hadd
    unfold Schema.addConstant at hadd
    split at hadd
    · cases hadd
    · next hnew =>
      cases hadd
      exact .inr ⟨c, rfl, rfl, rfl, by simpa using hnew, rfl, rfl⟩

/-- Rows add constants one after the other. -/
theorem exists_of_filterMapM {f : α → Build (Option Nat)} {owner : String} {name : α → String}
    {rows : List α} (hf : ∀ row ∈ rows, EnlistsOne owner (name row) (f row)) {s s' : Schema}
    {ids : List Nat} (h : rows.filterMapM f s = .ok (ids, s')) :
    ∃ new, Enlists owner (rows.map name) new s ids s' := by
  induction rows generalizing s ids with
  | nil =>
    cases h
    exact ⟨[], rfl, by simp, rfl, nofun, nofun⟩
  | cons row rows ih =>
    rw [List.filterMapM_cons] at h
    obtain ⟨⟨number, s₁⟩, hrow, hafter⟩ := bind_eq_ok.mp h
    clear h
    have hrest := fun row hmem => hf row (List.mem_cons_of_mem _ hmem)
    rcases hf row List.mem_cons_self s number s₁ hrow with
      ⟨rfl, rfl, hhas⟩ | ⟨c, hname, howner, rfl, hhas, htypes, hconstants⟩
    · obtain ⟨new, hnew⟩ := ih hrest hafter
      refine ⟨new, hnew.types, hnew.constants, hnew.numbers, fun c hc => ?_, fun n hn => ?_⟩
      · obtain ⟨howner, hmem, hfresh⟩ := hnew.fresh c hc
        exact ⟨howner, List.mem_cons_of_mem _ hmem, hfresh⟩
      · rcases List.mem_cons.mp hn with rfl | hn
        · exact hnew.hasConstant_old hhas
        · exact hnew.present n hn
    · obtain ⟨⟨rest, s₂⟩, hrows, hafter⟩ := bind_eq_ok.mp hafter
      cases hafter
      obtain ⟨new, hnew⟩ := ih hrest hrows
      have hself : s₁.hasConstant (name row) = true :=
        hasConstant_iff.mpr ⟨c, by rw [hconstants]; exact Array.mem_push_self, hname⟩
      have hbefore : ∀ n, s₁.hasConstant n = false → s.hasConstant n = false := by
        intro n hn
        by_contra hhas
        obtain ⟨d, hd, hdn⟩ := hasConstant_iff.mp (by simpa using hhas)
        rw [hasConstant_iff.mpr ⟨d, by rw [hconstants]; exact Array.mem_push_of_mem _ hd, hdn⟩] at hn
        cases hn
      refine ⟨c :: new, hnew.types.trans htypes, ?_, ?_, fun d hd => ?_, fun n hn => ?_⟩
      · rw [hnew.constants, hconstants]
        simp
      · rw [hnew.numbers, hconstants, Array.size_push, List.length_cons, List.range'_succ]
      · rcases List.mem_cons.mp hd with rfl | hd
        · exact ⟨howner, hname ▸ List.mem_cons_self, hname ▸ hhas⟩
        · obtain ⟨howner', hmem, hfresh⟩ := hnew.fresh d hd
          exact ⟨howner', List.mem_cons_of_mem _ hmem, hbefore _ hfresh⟩
      · rcases List.mem_cons.mp hn with rfl | hn
        · exact hnew.hasConstant_old hself
        · exact hnew.present n hn

end Build

namespace Schema.Owned

variable {s s' : Schema}

/-- A type without constants is added. -/
theorem addType (h : s.Owned) {t : TypeEntry} (ha : s.addType t = .ok s')
    (hn : listedConstants t = []) (hb : t.bitNames = [])
    (hi : t.listsConstants = true → t.implemented = true) : s'.Owned := by
  obtain ⟨hfresh, rfl⟩ := eq_of_addType ha
  have entry : ∀ {p : TypeEntry → Prop}, (∀ u ∈ s.types, p u) → (∀ id, p { t with id }) →
      ∀ u ∈ s.types ++ [{ t with id := s.types.length }], p u := by
    intro p hold hnew u hu
    rcases List.mem_append.mp hu with hu | hu
    · exact hold u hu
    · rw [List.mem_singleton.mp hu]
      exact hnew _
  have hnames : (s.types ++ [{ t with id := s.types.length }]).map TypeEntry.specName =
      s.names ++ [t.specName] := List.map_append
  have nothing : ∀ (id i : Nat), i ∉ listedConstants { t with id } := by
    intro id i hmem
    have hmem : i ∈ listedConstants t := hmem
    rw [hn] at hmem
    cases hmem
  refine ⟨?_, fun i c hc => ?_, entry h.listed fun id i hmem => absurd hmem (nothing id i),
    entry h.once fun id => ?_, fun i c hc => entry (h.complete i c hc) fun id hname => ?_,
    entry h.described fun id name hmem => ?_, entry h.implemented fun id => hi⟩
  · show ((s.types ++ [_]).map _).Nodup
    rw [hnames]
    exact List.nodup_append.mpr ⟨h.names, by simp, fun a ha b hb heq => by
      rw [List.mem_singleton.mp hb] at heq
      exact hfresh (heq ▸ ha)⟩
  · show c.owner ∈ (s.types ++ [_]).map _
    rw [hnames]
    exact List.mem_append_left _ (h.owner i c hc)
  · show (listedConstants t).Nodup
    rw [hn]
    exact List.nodup_nil
  · exact absurd (hname ▸ h.owner i c hc) hfresh
  · have hmem : name ∈ t.bitNames := hmem
    rw [hb] at hmem
    cases hmem

/-- Types are changed, but neither what they list nor their names. -/
theorem map (h : s.Owned) {f : TypeEntry → TypeEntry} (hs : s'.types = s.types.map f)
    (hc : s'.constants = s.constants)
    (hf : ∀ t : TypeEntry, t.SameList (f t) ∧ listedConstants (f t) = listedConstants t) :
    s'.Owned := by
  have hnames : s'.names = s.names := by
    unfold Schema.names
    rw [hs, List.map_map]
    exact List.map_congr_left fun t _ => (hf t).1.specName
  have entry : ∀ {p : TypeEntry → Prop}, (∀ t ∈ s.types, p (f t)) → ∀ u ∈ s'.types, p u := by
    intro p hp u hu
    rw [hs] at hu
    obtain ⟨t, ht, rfl⟩ := List.mem_map.mp hu
    exact hp t ht
  refine ⟨hnames ▸ h.names, fun i c hi => hnames ▸ h.owner i c (hc ▸ hi), entry fun t ht => ?_,
    entry fun t ht => (hf t).2 ▸ h.once t ht, fun i c hi => entry fun t ht hname hd => ?_,
    entry fun t ht name hn => ?_, entry fun t ht hl => ?_⟩
  · rw [(hf t).2, (hf t).1.specName, hc]
    simp only [(hf t).1.declares]
    exact h.listed t ht
  · rw [(hf t).2]
    rw [(hf t).1.specName] at hname
    rw [(hf t).1.declares] at hd
    exact h.complete i c (hc ▸ hi) t ht hname hd
  · rw [(hf t).1.bitNames] at hn
    have := h.described t ht name hn
    rw [hasConstant_iff] at this ⊢
    rwa [hc]
  · rw [(hf t).1.listsConstants] at hl
    rw [(hf t).1.implemented]
    exact h.implemented t ht hl

section Enlist

variable {name : String} {names : List String} {new : List Constant} {s₂ : Schema} {ids : List Nat}

/-- Constants of a type that there is are added, and to its list if it is an enumeration. -/
theorem enlist (h : s.Owned) (hname : name ∈ s.names) (hnew : Enlists name names new s ids s₂)
    (errorCode : Option String) : (s₂.modifyType name (·.enlist ids errorCode)).Owned := by
  let change (t : TypeEntry) : TypeEntry :=
    if t.specName == name then t.enlist ids errorCode else t
  have hsame : ∀ t : TypeEntry, t.SameList (change t) := by
    intro t
    show t.SameList (if t.specName == name then t.enlist ids errorCode else t)
    split
    · exact t.sameList_enlist ids errorCode
    · exact ⟨rfl, rfl, rfl, rfl, fun _ => rfl⟩
  have htypes : (s₂.modifyType name (·.enlist ids errorCode)).types = s.types.map change := by
    rw [← hnew.types]
    rfl
  have hnames : (s₂.modifyType name (·.enlist ids errorCode)).names = s.names := by
    unfold Schema.names
    rw [htypes, List.map_map]
    exact List.map_congr_left fun t _ => (hsame t).specName
  have entry : ∀ {p : TypeEntry → Prop}, (∀ t ∈ s.types, p (change t)) →
      ∀ u ∈ (s₂.modifyType name (·.enlist ids errorCode)).types, p u := by
    intro p hp u hu
    rw [htypes] at hu
    obtain ⟨t, ht, rfl⟩ := List.mem_map.mp hu
    exact hp t ht
  -- what is listed afterwards was listed before, or the type bears the name and lists everything
  have hlist : ∀ t : TypeEntry, listedConstants (change t) = listedConstants t ∧
      (t.specName = name → ∀ c, t.declares c = true → c.specName ∈ t.bitNames) ∨
        t.specName = name ∧ listedConstants (change t) = listedConstants t ++ ids ∧
          ∀ c, t.declares c = true := by
    intro t
    by_cases ht : t.specName = name
    · have hchange : change t = t.enlist ids errorCode := if_pos (by simpa using ht)
      rw [hchange]
      rcases t.listedConstants_enlist ids errorCode with ⟨hnumbers, hall⟩ | ⟨hnumbers, hbits⟩
      · exact .inr ⟨ht, hnumbers, hall⟩
      · exact .inl ⟨hnumbers, fun _ => hbits⟩
    · have hchange : change t = t := if_neg (by simpa using ht)
      rw [hchange]
      exact .inl ⟨rfl, fun hn => absurd hn ht⟩
  have hold : ∀ t ∈ s.types, ∀ i ∈ listedConstants t, ∃ c, s₂.constants[i]? = some c ∧
      c.owner = (change t).specName ∧ (change t).declares c = true := by
    intro t ht i hi
    obtain ⟨c, hc, howner, hd⟩ := h.listed t ht i hi
    exact ⟨c, hnew.getElem?_old hc, howner.trans (hsame t).specName.symm,
      ((hsame t).declares c).trans hd⟩
  refine ⟨hnames ▸ h.names, fun i c hi => hnames ▸ ?owner, entry fun t ht => ?listed,
    entry fun t ht => ?once, fun i c hi => entry fun t ht hn hd => ?complete,
    entry fun t ht n hn => ?described, entry fun t ht hl => ?implemented⟩
  case owner =>
    rcases hnew.cases hi with hi | ⟨-, hc⟩
    · exact h.owner i c hi
    · exact (hnew.fresh c hc).1 ▸ hname
  case listed =>
    rcases hlist t with ⟨hnumbers, -⟩ | ⟨ht', hnumbers, hall⟩
    · rw [hnumbers]
      exact hold t ht
    · intro i hi
      rw [hnumbers] at hi
      rcases List.mem_append.mp hi with hi | hi
      · exact hold t ht i hi
      · obtain ⟨-, c, hc, hget⟩ := hnew.exists_of_mem hi
        exact ⟨c, hget, ((hnew.fresh c hc).1.trans ht'.symm).trans (hsame t).specName.symm,
          ((hsame t).declares c).trans (hall c)⟩
  case once =>
    rcases hlist t with ⟨hnumbers, -⟩ | ⟨-, hnumbers, -⟩
    · exact hnumbers ▸ h.once t ht
    · rw [hnumbers]
      refine List.nodup_append.mpr ⟨h.once t ht, hnew.nodup, fun i hi j hj heq => ?_⟩
      obtain ⟨c, hc, -⟩ := h.listed t ht i hi
      obtain ⟨hlt, -⟩ := Array.getElem?_eq_some_iff.mp hc
      have hge := (hnew.exists_of_mem hj).1
      omega
  case complete =>
    rw [(hsame t).specName] at hn
    rw [(hsame t).declares] at hd
    rcases hnew.cases hi with hi | ⟨hi, hc⟩
    · have hmem := h.complete i c hi t ht hn hd
      rcases hlist t with ⟨hnumbers, -⟩ | ⟨-, hnumbers, -⟩
      · exact hnumbers ▸ hmem
      · exact hnumbers ▸ List.mem_append_left _ hmem
    · obtain ⟨howner, -, hfresh⟩ := hnew.fresh c hc
      rcases hlist t with ⟨-, hbits⟩ | ⟨-, hnumbers, -⟩
      · -- there are constants for all bits already, so a new one describes none
        have hhas := h.described t ht c.specName (hbits (hn.trans howner) c hd)
        cases hhas.symm.trans hfresh
      · exact hnumbers ▸ List.mem_append_right _ hi
  case described =>
    rw [(hsame t).bitNames] at hn
    exact hnew.hasConstant_old (h.described t ht n hn)
  case implemented =>
    rw [(hsame t).listsConstants] at hl
    rw [(hsame t).implemented]
    exact h.implemented t ht hl

/-- Constants are added before the type whose bits they describe. -/
theorem describe (h : s.Owned) (hnew : Enlists name names new s ids s₂) {t : TypeEntry}
    (ha : s₂.addType t = .ok s') (hname : t.specName = name) (hn : listedConstants t = ids)
    (hb : t.bitNames = names) (hd : ∀ c : Constant, c.specName ∈ names → t.declares c = true)
    (hi : t.implemented = true) : s'.Owned := by
  obtain ⟨hfresh, rfl⟩ := eq_of_addType ha
  have hfresh : name ∉ s.names := by
    rw [hname] at hfresh
    unfold Schema.names at hfresh ⊢
    rwa [hnew.types] at hfresh
  have entry : ∀ {p : TypeEntry → Prop}, (∀ u ∈ s.types, p u) → (∀ id, p { t with id }) →
      ∀ u ∈ s₂.types ++ [{ t with id := s₂.types.length }], p u := by
    intro p hold hadded u hu
    rcases List.mem_append.mp hu with hu | hu
    · exact hold u (hnew.types ▸ hu)
    · rw [List.mem_singleton.mp hu]
      exact hadded _
  have hnames : (s₂.types ++ [{ t with id := s₂.types.length }]).map TypeEntry.specName =
      s.names ++ [name] := by
    rw [List.map_append, hnew.types, List.map_singleton, hname]
    rfl
  refine ⟨?names, fun i c hc => ?owner, entry ?old fun id i hmem => ?listed,
    entry h.once fun id => ?once, fun i c hc => entry ?before fun id hown hdecl => ?complete,
    entry ?bits fun id n hmem => ?described, entry h.implemented fun id _ => hi⟩
  case names =>
    show ((s₂.types ++ [_]).map _).Nodup
    rw [hnames]
    exact List.nodup_append.mpr ⟨h.names, by simp, fun a ha b hb heq => by
      rw [List.mem_singleton.mp hb] at heq
      exact hfresh (heq ▸ ha)⟩
  case owner =>
    show c.owner ∈ (s₂.types ++ [_]).map _
    rw [hnames]
    rcases hnew.cases hc with hc | ⟨-, hc⟩
    · exact List.mem_append_left _ (h.owner i c hc)
    · rw [(hnew.fresh c hc).1]
      exact List.mem_append_right _ List.mem_cons_self
  case old =>
    intro u hu i hmem
    obtain ⟨c, hc, hrest⟩ := h.listed u hu i hmem
    exact ⟨c, hnew.getElem?_old hc, hrest⟩
  case listed =>
    have hmem : i ∈ listedConstants t := hmem
    rw [hn] at hmem
    obtain ⟨-, c, hc, hget⟩ := hnew.exists_of_mem hmem
    obtain ⟨howner, hin, -⟩ := hnew.fresh c hc
    exact ⟨c, hget, howner.trans hname.symm, hd c hin⟩
  case once =>
    show (listedConstants t).Nodup
    exact hn ▸ hnew.nodup
  case before =>
    intro u hu hown hdecl
    rcases hnew.cases hc with hc | ⟨-, hc⟩
    · exact h.complete i c hc u hu hown hdecl
    · rw [(hnew.fresh c hc).1] at hown
      exact absurd (hown ▸ List.mem_map_of_mem hu) hfresh
  case complete =>
    show i ∈ listedConstants t
    rcases hnew.cases hc with hc | ⟨hc, -⟩
    · have hown : t.specName = c.owner := hown
      exact absurd (hname ▸ hown ▸ h.owner i c hc) hfresh
    · exact hn ▸ hc
  case bits => exact fun u hu n hmem => hnew.hasConstant_old (h.described u hu n hmem)
  case described =>
    have hmem : n ∈ t.bitNames := hmem
    exact hnew.present n (hb ▸ hmem)

end Enlist

/-- No constant is put out twice. -/
theorem nodup_declared (h : s.Owned) : s.declared.Nodup := by
  have hsub : s.implemented.Sublist s.types := List.filter_sublist
  refine List.nodup_flatMap.mpr ⟨fun t ht => h.once t (hsub.subset ht), ?_⟩
  have hnames : s.implemented.Pairwise fun t u => t.specName ≠ u.specName :=
    (List.pairwise_map.mp h.names).sublist hsub
  refine hnames.imp_of_mem fun {t u} ht hu hne i hi hi' => hne ?_
  obtain ⟨c, hc, howner, -⟩ := h.listed t (hsub.subset ht) i hi
  obtain ⟨c', hc', howner', -⟩ := h.listed u (hsub.subset hu) i hi'
  cases hc.symm.trans hc'
  exact howner.symm.trans howner'

end Schema.Owned

namespace Extraction

open Build

variable {config : Config} {s s' : Schema}

theorem owned_of_addType {t : TypeEntry} (ht : t.listsConstants = false) (hs : s.Owned)
    (ha : s.addType t = .ok s') : s'.Owned := by
  obtain ⟨hn, hb⟩ := TypeEntry.listedConstants_of_unlisted ht
  exact hs.addType ha hn hb fun h => by cases ht.symm.trans h

/-- Afterwards there is a type of the name, of whatever kind. -/
theorem owned_of_ensureEnum {name underlying : String} {isGroup : Bool} {u : Unit} (hs : s.Owned)
    (h : ensureEnum name underlying isGroup s = .ok (u, s')) : s'.Owned ∧ name ∈ s'.names := by
  have h : (if (!s.contains name) = true then
      Build.addType (.new name (.enum { underlying, isGroup })) else pure () : Build Unit) s =
        .ok (u, s') := h
  split at h
  · have ha := eq_of_update h
    refine ⟨hs.addType ha rfl rfl fun _ => rfl, ?_⟩
    obtain ⟨-, rfl⟩ := Schema.eq_of_addType ha
    exact List.mem_map_of_mem (List.mem_append_right _ List.mem_cons_self)
  · next hthere =>
    cases h
    exact ⟨hs, Schema.contains_iff.mp (by simpa using hthere)⟩

/-- The row of an algorithm adds its constant, and the algorithm if the constant was not left
out. -/
theorem enlistsOne_algorithm (row : AlgorithmRow) :
    EnlistsOne algorithmEnum row.name do
      let number ← Build.addConstant config (.new row.name row.value algorithmEnum row.comment)
      if number.isSome then
        let mnemonic := Text.dropHead config.algPrefix row.name
        modify fun s =>
          { s with algorithms := s.algorithms ++ [.ofRow mnemonic row.value row.classes] }
      return number := by
  intro s number s' h
  obtain ⟨⟨number₁, s₁⟩, hadd, hafter⟩ := bind_eq_ok.mp h
  clear h
  rcases enlistsOne_addConstant s number₁ s₁ hadd with
    ⟨rfl, rfl, hhas⟩ | ⟨c, hname, howner, rfl, hfresh, htypes, hconstants⟩
  · cases hafter
    exact .inl ⟨rfl, rfl, hhas⟩
  · cases hafter
    exact .inr ⟨c, hname, howner, rfl, hfresh, htypes, hconstants⟩

theorem addAlgorithms_owned (base : String) (rows : List (Row AlgorithmRow)) :
    Preserves Schema.Owned (addAlgorithms config base rows) fun _ => True := by
  intro s u s' h hs
  obtain ⟨⟨_, s₁⟩, hensure, h⟩ := bind_eq_ok.mp h
  obtain ⟨⟨numbers, s₂⟩, hrows, h⟩ := bind_eq_ok.mp h
  obtain ⟨hs₁, hname⟩ := owned_of_ensureEnum hs hensure
  obtain ⟨new, hnew⟩ := exists_of_filterMapM (fun row _ => enlistsOne_algorithm row) hrows
  cases h
  exact ⟨hs₁.enlist hname hnew _, trivial⟩

theorem addConstants_owned (name : String) (base : Option String) (rows : List (Row ConstantRow)) :
    Preserves Schema.Owned (addConstants config name base rows) fun _ => True := by
  intro s u s' h hs
  obtain ⟨⟨_, s₁⟩, hensure, h⟩ := bind_eq_ok.mp h
  obtain ⟨⟨numbers, s₂⟩, hrows, h⟩ := bind_eq_ok.mp h
  obtain ⟨hs₁, hname⟩ := owned_of_ensureEnum hs hensure
  obtain ⟨new, hnew⟩ := exists_of_filterMapM
    (fun (row : ConstantRow) _ => enlistsOne_addConstant (c := .new row.name _ name _)) hrows
  cases h
  exact ⟨hs₁.enlist hname hnew _, trivial⟩

theorem addBitfield_owned (name base : String) (rows : List (Row BitsRow)) :
    Preserves Schema.Owned (addBitfield config name base rows) fun _ => True := by
  intro s u s' h hs
  obtain ⟨⟨numbers, s₁⟩, hrows, h⟩ := bind_eq_ok.mp h
  obtain ⟨new, hnew⟩ := exists_of_filterMapM
    (fun (row : BitfieldMember × String × String) _ =>
      enlistsOne_addConstant (c := .new row.2.1 row.2.2 name row.1.comment)) hrows
  have hbits : ∀ members : List BitfieldMember,
      (members.flatMap fun m => (bitConstants name m).map (m, ·)).map (fun row => row.2.1) =
        members.flatMap fun m => (bitConstants name m).map (·.1) := by
    intro members
    rw [List.map_flatMap]
    simp only [List.map_map]
    rfl
  refine ⟨hs.describe hnew (eq_of_update h) rfl rfl (hbits _).symm (fun c hc => ?_) rfl, trivial⟩
  have hc : c.specName ∈ List.map (fun row : BitfieldMember × String × String => row.2.1) _ := hc
  rw [hbits] at hc
  exact List.contains_iff_mem.mpr hc

theorem addTable_owned (t : Table) (kind : TableKind) :
    Preserves Schema.Owned (addTable config t kind) fun _ => True :=
  addTable_preserves (F := fun _ => True) ⟨trivial, fun _ _ => trivial, fun _ => trivial⟩
    (fun _ ht hs ha => owned_of_addType ht hs ha) (fun base rows _ => addAlgorithms_owned base rows)
    addConstants_owned addBitfield_owned t kind

theorem owned_initial (algPrefix : String) :
    Schema.Owned { Schema.initial with algPrefix } := by
  have hnone : ∀ t ∈ Schema.elementary, t.listsConstants = false := by decide
  have hlist : ∀ t ∈ Schema.elementary, listedConstants t = [] ∧ t.bitNames = [] :=
    fun t ht => TypeEntry.listedConstants_of_unlisted (hnone t ht)
  have hnames : (Schema.elementary.map (·.specName)).Nodup := by decide
  refine ⟨hnames, nofun, fun t ht i hi => ?_, fun t ht => ?_, nofun, fun t ht name hname => ?_,
    fun t ht hl => ?_⟩
  · rw [(hlist t ht).1] at hi
    cases hi
  · rw [(hlist t ht).1]
    exact List.nodup_nil
  · rw [(hlist t ht).2] at hname
    cases hname
  · cases (hnone t ht).symm.trans hl

theorem owned_of_extract {tables : List Table} {r : Registry} {report : ExtractionReport}
    (h : extract tables config = .ok (r, report)) : r.toSchema.Owned := by
  unfold extract at h
  obtain ⟨⟨report', s⟩, hadd, h⟩ := bind_eq_ok.mp h
  have hs : s.Owned :=
    (addTables_preserves addTable_owned tables _ _ _ hadd (owned_initial config.algPrefix)).1
  have hselected : (selectArrays s).Owned :=
    hs.map rfl rfl fun t => TypeEntry.sameList_mapRecord _ t
  have hlinked : (selectArrays s).linkUnions.Owned :=
    hselected.map rfl rfl fun t => TypeEntry.sameList_mapRecord _ t
  simp only at h
  split at h
  · next r' hcheck =>
    cases h
    obtain ⟨known, -, rfl⟩ := Registry.yields_of_calculate hcheck
    exact hlinked
  · cases h

/-- Every constant belongs to a type, and no other type lists it. That type lists it once, and among
all declarations it is put out once, unless the type is no enumeration and the constant does not
describe its bits. Then it is lost. -/
theorem count_declared_of_extract {tables : List Table} {r : Registry} {report : ExtractionReport}
    (h : extract tables config = .ok (r, report)) {i : Nat} {c : Constant}
    (hc : r.constants[i]? = some c) :
    ∃ t ∈ r.types, t.specName = c.owner ∧ (∀ u ∈ r.types, u ≠ t → i ∉ listedConstants u) ∧
      (listedConstants t).count i = (if t.declares c then 1 else 0) ∧
        r.declared.count i = if t.declares c then 1 else 0 := by
  have howned := owned_of_extract h
  obtain ⟨t, ht, hname⟩ := List.mem_map.mp (howned.owner i c hc)
  have hname : t.specName = c.owner := hname
  -- whoever lists the constant is its owner, and declares it
  have hlists : ∀ u ∈ r.types, i ∈ listedConstants u → u = t ∧ t.declares c = true := by
    intro u hu hi
    obtain ⟨c', hc', howner, hdeclares⟩ := howned.listed u hu i hi
    cases hc.symm.trans hc'
    obtain rfl : u = t :=
      List.inj_on_of_nodup_map howned.names hu ht (howner.symm.trans hname.symm)
    exact ⟨rfl, hdeclares⟩
  have hmem : i ∈ listedConstants t ↔ t.declares c = true :=
    ⟨fun hi => (hlists t ht hi).2, howned.complete i c hc t ht hname⟩
  have hdeclared : i ∈ r.declared ↔ t.declares c = true := by
    refine ⟨fun hi => ?_, fun hd => ?_⟩
    · obtain ⟨u, hu, hi⟩ := List.mem_flatMap.mp hi
      exact (hlists u (List.mem_of_mem_filter hu) hi).2
    · have hi := hmem.mpr hd
      refine List.mem_flatMap.mpr ⟨t, List.mem_filter.mpr ⟨ht, howned.implemented t ht ?_⟩, hi⟩
      by_contra hnone
      rw [(TypeEntry.listedConstants_of_unlisted (by simpa using hnone)).1] at hi
      cases hi
  refine ⟨t, ht, hname, fun u hu hne hi => hne (hlists u hu hi).1, ?_, ?_⟩
  · rw [(howned.once t ht).count]
    simp only [hmem]
  · rw [howned.nodup_declared.count]
    simp only [hdeclared]

section Shades

/-- Hues from two tables, shades by bits, and two tables of constants that bear the names of types
that are no enumerations. -/
def shadeTables : List Table :=
  [{ caption := "Table 1 — Definition of (UINT8) TPM_HUE Constants",
     rows := [["TPM_HUE_DARK", "1", ""]] },
   { caption := "Table 2 — Definition of (UINT8) TPM_HUE Constants",
     rows := [["TPM_HUE_LIGHT", "2", ""]] },
   { caption := "Table 3 — Definition of (UINT8) TPMA_SHADE Bits",
     rows := [["0", "matte", ""], ["2:1", "gloss", ""]] },
   { caption := "Table 4 — Definition of TPMS_TINT Structure", rows := [["hue", "TPM_HUE", ""]] },
   { caption := "Table 5 — Definition of (UINT8) TPMS_TINT Constants",
     rows := [["TPM_TINT", "7", ""]] },
   { caption := "Table 6 — Definition of (UINT8) TPMA_SHADE Constants",
     rows := [["TPM_SHADE", "8", ""]] }]

/-- The registry that the tables of shades are extracted to. -/
def shades : Registry :=
  match extract shadeTables {} with
  | .ok (r, _) => r
  | .error _ => default

/-- What the owners of three constants declare. -/
theorem shade_facts :
    (extract shadeTables {}).toOption.map Prod.fst = some shades ∧
      shades.constants[1]? = some (.new "TPM_HUE_LIGHT" "2" "TPM_HUE" "") ∧
      shades.constants[3]? = some (.new "TPMA_SHADE_gloss_BIT_MASK" "0x6" "TPMA_SHADE" "") ∧
      shades.constants[6]? = some (.new "TPM_TINT" "7" "TPMS_TINT" "") ∧
      (∀ t ∈ shades.types, t.specName = "TPM_HUE" →
        t.declares (.new "TPM_HUE_LIGHT" "2" "TPM_HUE" "") = true) ∧
      (∀ t ∈ shades.types, t.specName = "TPMA_SHADE" →
        t.declares (.new "TPMA_SHADE_gloss_BIT_MASK" "0x6" "TPMA_SHADE" "") = true) ∧
      ∀ t ∈ shades.types, t.specName = "TPMS_TINT" →
        t.declares (.new "TPM_TINT" "7" "TPMS_TINT" "") = false := by
  decide +kernel

/-- The light hue and the mask of the gloss are put out once. The constant of a structure is lost. -/
theorem count_declared_shades :
    (∃ report, extract shadeTables {} = .ok (shades, report)) ∧
      shades.constants[1]? = some (.new "TPM_HUE_LIGHT" "2" "TPM_HUE" "") ∧
      shades.constants[3]? = some (.new "TPMA_SHADE_gloss_BIT_MASK" "0x6" "TPMA_SHADE" "") ∧
      shades.constants[6]? = some (.new "TPM_TINT" "7" "TPMS_TINT" "") ∧
      shades.declared.count 1 = 1 ∧ shades.declared.count 3 = 1 ∧ shades.declared.count 6 = 0 := by
  obtain ⟨hshades, hlight, hmask, htint, hhue, hshade, hlost⟩ := shade_facts
  obtain ⟨⟨r, report⟩, hextract, rfl⟩ := Option.map_eq_some_iff.mp hshades
  have hextract := ok_of_toOption hextract
  refine ⟨⟨report, hextract⟩, hlight, hmask, htint, ?_, ?_, ?_⟩
  · obtain ⟨t, ht, hname, -, -, hcount⟩ := count_declared_of_extract hextract hlight
    rwa [if_pos (hhue t ht hname)] at hcount
  · obtain ⟨t, ht, hname, -, -, hcount⟩ := count_declared_of_extract hextract hmask
    rwa [if_pos (hshade t ht hname)] at hcount
  · obtain ⟨t, ht, hname, -, -, hcount⟩ := count_declared_of_extract hextract htint
    rwa [if_neg (by simp [hlost t ht hname])] at hcount

end Shades

end Extraction

end WireTables
