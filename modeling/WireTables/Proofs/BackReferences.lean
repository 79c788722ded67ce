import WireTables.Proofs.Memoization
import WireTables.Proofs.Translation

/-!
# References between constants go back

The text that is written for the value of a constant names other constants or says their values. Where
every constant is listed by the type that it belongs to (`Schema.ListsOwn`), a text names exactly
those that are listed before its own constant (`Schema.ListedBefore`): by a type that comes first in
the order of the types, or by the same type at an earlier place. All others are written as numbers
and noted as such (`constants_refer_back`). So declarations that are put out in this order never
refer forward.

Values are written in the order in which constants are listed, and what has been written so far is
what is listed before, no more and no less (`onward_of_foldlM`). A number stays the value of its
constant although more is remembered at the end (`Registry.Onward`): nothing is assumed of what was
remembered in the beginning.
-/

namespace WireTables

open Target (Rendering listedConstants literal note operatorText)

/-! ## Constants that are listed before others -/

namespace Schema

variable {s : Schema} {d i : Nat} {c : Constant}

/-- Types list constants that belong to them. -/
def ListsOwn (s : Schema) : Prop :=
  ∀ t ∈ s.types, ∀ i ∈ listedConstants t, ∀ c, s.constants[i]? = some c → c.owner = t.specName

instance (s : Schema) : Decidable s.ListsOwn :=
  decidable_of_iff (∀ t ∈ s.types, ∀ i ∈ listedConstants t, ∀ c ∈ s.constants[i]?,
    c.owner = t.specName) Iff.rfl

/-- The constant of number `d` is listed before the one of number `i`: by a type that comes before the
type that this one belongs to, or by the same type at an earlier place. -/
def ListedBefore (s : Schema) (d i : Nat) : Prop :=
  ∃ c before owner after, s.constants[i]? = some c ∧ s.types = before ++ owner :: after ∧
    owner.specName = c.owner ∧ ((∃ t ∈ before, d ∈ listedConstants t) ∨
      ∃ first rest, listedConstants owner = first ++ i :: rest ∧ d ∈ first)

/-- An element of a list, and what stands before and after its last place. -/
theorem exists_last_of_mem {α : Type} {x : α} {xs : List α} (h : x ∈ xs) :
    ∃ before after, xs = before ++ x :: after ∧ x ∉ after := by
  obtain ⟨after, before, heq, hnot⟩ := List.eq_append_cons_of_mem (List.mem_reverse.mpr h)
  refine ⟨before.reverse, after.reverse, ?_, by simpa using hnot⟩
  have hback := congrArg List.reverse heq
  simpa using hback

/-- What stands before some place of an element stands before its last place. -/
theorem mem_of_before_last {α : Type} {x y : α} {first first' rest rest' : List α}
    (h : first' ++ x :: rest' = first ++ x :: rest) (hlast : x ∉ rest) (hy : y ∈ first') :
    y ∈ first := by
  rcases List.append_eq_append_iff.mp h with ⟨more, rfl, -⟩ | ⟨more, rfl, htail⟩
  · exact List.mem_append_left _ hy
  · cases more with
    | nil => simpa using hy
    | cons z more =>
      obtain ⟨-, rfl⟩ := List.cons.inj htail
      exact absurd (List.mem_append_right _ List.mem_cons_self) hlast

/-- Types with one name stand at one place. -/
theorem split_unique (hnames : s.names.Nodup) {before before' after after' : List TypeEntry}
    {t t' : TypeEntry} (h : s.types = before ++ t :: after)
    (h' : s.types = before' ++ t' :: after') (hname : t'.specName = t.specName) :
    before' = before ∧ t' = t := by
  have ht : t ∈ s.types := h ▸ List.mem_append_right _ List.mem_cons_self
  have ht' : t' ∈ s.types := h' ▸ List.mem_append_right _ List.mem_cons_self
  obtain rfl := List.inj_on_of_nodup_map hnames ht' ht hname
  have hnodup : (before ++ t' :: after).Nodup := h ▸ hnames.of_map _
  obtain ⟨-, htail, hapart⟩ := List.nodup_append.mp hnodup
  have hbefore : t' ∉ before := fun hmem => hapart _ hmem _ List.mem_cons_self rfl
  obtain ⟨heq, -, -⟩ := (List.append_cons_inj_of_notMem hbefore (List.nodup_cons.mp htail).1).mp
    (h.symm.trans h')
  exact ⟨heq.symm, rfl⟩

/-- The last place of a listed constant in the order of all types; what stands before it is listed
before the constant. -/
theorem exists_place (hnames : s.names.Nodup) (hown : s.ListsOwn) {t : TypeEntry} (ht : t ∈ s.types)
    (hi : i ∈ listedConstants t) (hc : s.constants[i]? = some c) :
    ∃ before after, s.types.flatMap listedConstants = before ++ i :: after ∧ i ∉ after ∧
      ∀ d, s.ListedBefore d i ↔ d ∈ before := by
  have howner := hown t ht i hi c hc
  obtain ⟨types, later, htypes⟩ := List.append_of_mem ht
  obtain ⟨first, rest, hlist, hlast⟩ := exists_last_of_mem hi
  refine ⟨types.flatMap listedConstants ++ first, rest ++ later.flatMap listedConstants, ?_, ?_,
    fun d => ?_⟩
  · simp only [htypes, List.flatMap_append, List.flatMap_cons, hlist, List.append_assoc,
      List.cons_append]
  · intro hmem
    rcases List.mem_append.mp hmem with hmem | hmem
    · exact hlast hmem
    · -- a later type that lists the constant as well would have the same name
      obtain ⟨u, hu, hiu⟩ := List.mem_flatMap.mp hmem
      obtain ⟨middle, later, rfl⟩ := List.append_of_mem hu
      have hsplit : s.types = (types ++ t :: middle) ++ u :: later := by simp [htypes]
      have humem : u ∈ s.types := hsplit ▸ List.mem_append_right _ List.mem_cons_self
      have hname := (hown u humem i hiu c hc).symm.trans howner
      obtain ⟨hbefore, -⟩ := split_unique hnames htypes hsplit hname
      simpa using congrArg List.length hbefore
  · rw [List.mem_append, List.mem_flatMap]
    constructor
    · rintro ⟨c', before, owner, after, hc', hsplit, hname, hd⟩
      cases hc.symm.trans hc'
      obtain ⟨rfl, rfl⟩ := split_unique hnames htypes hsplit (hname.trans howner)
      refine hd.imp_right fun ⟨first', rest', hlist', hmem⟩ => ?_
      exact mem_of_before_last (hlist'.symm.trans hlist) hlast hmem
    · intro hd
      exact ⟨c, types, t, later, hc, htypes, howner.symm,
        hd.imp_right fun hmem => ⟨first, rest, hlist, hmem⟩⟩

/-- What is listed before a constant belongs to a type. -/
theorem ListedBefore.exists_owner (h : s.ListedBefore d i) (hnames : s.names.Nodup)
    (hown : s.ListsOwn) (hc : s.constants[d]? = some c) : ∃ t, s.lookup? c.owner = some t := by
  obtain ⟨_, before, owner, after, -, htypes, -, hd⟩ := h
  obtain ⟨t, ht, hmem⟩ : ∃ t ∈ s.types, d ∈ listedConstants t := by
    rcases hd with ⟨t, ht, hmem⟩ | ⟨first, rest, hlist, hmem⟩
    · exact ⟨t, htypes ▸ List.mem_append_left _ ht, hmem⟩
    · exact ⟨owner, htypes ▸ List.mem_append_right _ List.mem_cons_self,
        hlist ▸ List.mem_append_left _ hmem⟩
  exact ⟨t, hown t ht d hmem c hc ▸ lookup?_of_mem hnames ht⟩

theorem lt_of_resolveConstant? {name : String} (h : s.resolveConstant? name = some d) :
    d < s.constants.size := by
  have exact : ∀ {name}, s.constantNumber? name = some d → d < s.constants.size := fun h =>
    (Array.findIdx?_eq_some_iff_getElem.mp h).1
  unfold resolveConstant? at h
  rw [Option.orElse_eq_orElse, Option.orElse_eq_or, Option.or_eq_some_iff] at h
  exact h.elim exact fun ⟨_, h⟩ => exact h

theorem listedConstants_neutral (t : TypeEntry) :
    listedConstants t.neutral = listedConstants t := by
  unfold listedConstants
  rw [TypeEntry.kind_neutral]
  cases t.kind <;> rfl

theorem listed_neutral (s : Schema) :
    s.neutral.types.flatMap listedConstants = s.types.flatMap listedConstants := by
  simp only [neutral, List.flatMap_map, listedConstants_neutral]

theorem listsOwn_neutral (s : Schema) : s.neutral.ListsOwn = s.ListsOwn := by
  have constant : ∀ (i : Nat) (name : String),
      (∀ c, s.neutral.constants[i]? = some c → c.owner = name) ↔
        ∀ c, s.constants[i]? = some c → c.owner = name := by
    intro i name
    have found : s.neutral.constants[i]? = s.constants[i]?.map Constant.neutral :=
      Array.getElem?_map
    rw [found]
    cases s.constants[i]? with
    | none => simp
    | some c => simp [Constant.neutral]
  simp only [ListsOwn, constant]
  simp only [neutral, List.forall_mem_map, listedConstants_neutral, TypeEntry.specName_neutral]

/-! ## Later memories -/

/-- What is remembered in the end came about by calculations after what was remembered before. -/
def Later (s : Schema) (known known' : Known) : Prop :=
  ∀ base, s.Alongside base base known → s.Alongside base base known'

namespace Later

variable {known known' known'' : Known}

theorem refl : s.Later known known :=
  fun _ h => h

theorem trans (h : s.Later known known') (h' : s.Later known' known'') :
    s.Later known known'' :=
  fun base hbase => h' base (h base hbase)

/-- Questions continue what is remembered. -/
theorem keeps {α : Type} {m : Eval α} {Q : Known → α → Prop}
    (hm : ∀ base, Keeps (s.Alongside base base) m (Q base)) :
    Keeps (s.Later known) m fun _ => True :=
  fun k hk => ⟨fun base hbase => (hm base k (hk base hbase)).1, fun _ _ => trivial⟩

end Later

end Schema

/-- The second registry differs from the first one in what is written for a language, but not in names,
and what it remembers came about by calculations after what the first one remembers. -/
structure Registry.Onward (r r' : Registry) : Prop where
  neutral : r'.toSchema.neutral = r.toSchema.neutral
  types : ∀ name, (r'.lookup? name).map (·.name) = (r.lookup? name).map (·.name)
  constants : r'.constants.map (fun c => (c.owner, c.name)) =
    r.constants.map fun c => (c.owner, c.name)
  memory : r.toSchema.neutral.Later r.known r'.known

namespace Registry

variable {r r' r'' : Registry} {lang : Language}

theorem SameNames.onward (h : r.SameNames r') : r.Onward r' :=
  ⟨h.neutral, h.types, h.constants, h.known ▸ .refl⟩

namespace Onward

theorem refl (r : Registry) : r.Onward r :=
  ⟨rfl, fun _ => rfl, rfl, .refl⟩

theorem trans (h : r.Onward r') (h' : r'.Onward r'') : r.Onward r'' :=
  ⟨h'.neutral.trans h.neutral, fun name => (h'.types name).trans (h.types name),
    h'.constants.trans h.constants, h.memory.trans (h.neutral ▸ h'.memory)⟩

/-- What depends on the neutral schema alone is the same. -/
theorem apply_eq {α : Type} {m : Schema → α} (hm : ∀ s : Schema, m s.neutral = m s)
    (h : r.Onward r') : m r'.toSchema = m r.toSchema := by
  rw [← hm r'.toSchema, h.neutral, hm]

/-- More is remembered. -/
theorem remember {known : Known} (h : r.toSchema.neutral.Later r.known known) :
    r.Onward { r with known } :=
  ⟨rfl, fun _ => rfl, rfl, h⟩

/-- A value is written. -/
theorem write (r : Registry) (number : Nat) (text : Rendering) : r.Onward
    { r with constants := r.constants.modify number (Target.withValue text) } := by
  refine ⟨Schema.neutral_constants (Array.ext (by simp) fun i h₁ h₂ => ?_), fun _ => rfl,
    Array.ext (by simp) fun i h₁ h₂ => ?_, .refl⟩
  all_goals
    simp only [Array.getElem_map, Array.getElem_modify]
    split <;> rfl

theorem size_eq (h : r.Onward r') : r'.constants.size = r.constants.size := by
  simpa using congrArg Array.size h.constants

/-- Constants keep their names, and so do the types that they belong to. -/
theorem exists_constant (h : r.Onward r') {d : Nat} {c : Constant} (hc : r.constants[d]? = some c) :
    ∃ c', r'.constants[d]? = some c' ∧ c'.name = c.name ∧
      (r'.lookup? c'.owner).map (·.name) = (r.lookup? c.owner).map (·.name) := by
  have hat := congrArg (·[d]?) h.constants
  simp only [Array.getElem?_map, hc, Option.map_some, Option.map_eq_some_iff, Prod.mk.injEq] at hat
  obtain ⟨c', hc', howner, hname⟩ := hat
  exact ⟨c', hc', hname, by rw [howner, h.types]⟩

/-- What was answered on the way is answered in the end. -/
theorem ok_of_yields {α : Type} {m : Schema → Eval α} {Q : Known → α → Prop} {known known' : Known}
    {a : α} (h : Registry.Onward { r with known := known' } r')
    (hm : ∀ s : Schema, m s.neutral = m s)
    (hkeeps : ∀ base, Keeps (r.toSchema.neutral.Alongside base base) (m r.toSchema.neutral) (Q base))
    (hmirrors : r.toSchema.neutral.Mirrors known (m r.toSchema.neutral))
    (hy : Yields (m r.toSchema) known a known') : (r'.calculate m).1 = .ok a := by
  rw [← hm] at hy
  have hstep := ((Schema.Later.keeps hkeeps).of_yields .refl hy).1
  obtain ⟨wide, hlater, -⟩ := hmirrors.later hy ((hstep.trans h.memory) known .refl)
  refine calculate_eq_ok.mpr ⟨wide, ?_⟩
  rw [h.apply_eq hm, ← hm]
  exact hlater

theorem wireSize_eq_ok {known known' : Known} {type : String} {n : Nat}
    (h : Registry.Onward { r with known := known' } r')
    (hy : Yields (r.toSchema.wireSize type) known n known') : r'.wireSize type = .ok n :=
  h.ok_of_yields (m := (Schema.wireSize · type)) (fun s => s.wireSize_neutral type)
    (fun base => Schema.wireSize_alongside _ base type) (Schema.wireSize_mirrors _ _ type) hy

/-- What is remembered on the way came before what is remembered in the end. -/
theorem before {known known' : Known} (h : Registry.Onward { r with known := known' } r')
    (hlater : r.toSchema.neutral.Later known known') :
    Registry.Onward { r with known := known } r' :=
  ⟨h.neutral, h.types, h.constants, hlater.trans h.memory⟩

end Onward

end Registry

/-! ## What stands in a text -/

namespace Target

/-- What is written for a token of the expression of constant `i`, and the names of constants that are
written as numbers in it. -/
inductive Cites (r : Registry) (lang : Language) (i : Nat) : Token → String → List String → Prop
  | number {n text} : Cites r lang i (.number n text) text []
  | earlier {name d c text} (hd : r.resolveConstant? name = some d) (hc : r.constants[d]? = some c)
    (hq : r.qualifiedName? lang c = some text) (hbefore : r.ListedBefore d i) :
    Cites r lang i (.name name) text []
  | value {name n} (hn : r.constantValue name = .ok n)
    (hlate : ∀ d, r.resolveConstant? name = some d → ¬ r.ListedBefore d i) :
    Cites r lang i (.name name) (literal n ++ note lang name) [name]
  | size {type n} (hn : r.wireSize type = .ok n) : Cites r lang i (.sizeOf type) (toString n) []
  | operator {op} : Cites r lang i (.operator op) (operatorText lang op) []
  | openParen : Cites r lang i .openParen "(" []
  | closeParen : Cites r lang i .closeParen ")" []

/-- What is written for tokens one after the other, and the names of constants that are written as
numbers, in order. -/
inductive CitesAll (r : Registry) (lang : Language) (i : Nat) :
    List Token → String → List String → Prop
  | nil : CitesAll r lang i [] "" []
  | cons {t piece names ts text inlined} (h : Cites r lang i t piece names)
    (rest : CitesAll r lang i ts text inlined) :
    CitesAll r lang i (t :: ts) (piece ++ text) (names ++ inlined)

section Render

variable {r r' : Registry} {lang : Language} {processed : List Nat} {i : Nat}
  {out out' : Rendering} {known known' : Known}

/-- A constant is written behind its type if it has one and has been written before, and otherwise as
its value. -/
theorem exists_of_renderConstant (h : Registry.Onward { r with known := known' } r') {name : String}
    (hy : Yields (renderConstant r.toSchema lang processed out name) known out' known') :
    ∃ d c, r'.resolveConstant? name = some d ∧ d < r.constants.size ∧ r'.constants[d]? = some c ∧
      ((∃ t, r'.lookup? c.owner = some t ∧ d ∈ processed ∧
          out' = out.add (t.name ++ lang.scopeSeparator ++ c.name)) ∨
        ∃ n, r'.constantValue name = .ok n ∧ out' = out.addValue lang name n ∧
          ∀ t, r'.lookup? c.owner = some t → d ∉ processed) := by
  have hresolve : r'.resolveConstant? name = r.resolveConstant? name :=
    h.apply_eq (r := { r with known := known' }) (m := (Schema.resolveConstant? · name))
      fun s => s.resolveConstant?_neutral name
  unfold renderConstant at hy
  split at hy
  · exact (not_yields_throw hy).elim
  next d hd =>
  have hlt := Schema.lt_of_resolveConstant? hd
  have hat : r.toSchema.constants[d]? = some r.constants[d] := Array.getElem?_eq_getElem hlt
  obtain ⟨c, hc, hname, htype⟩ := h.exists_constant hat
  refine ⟨d, c, hresolve.trans hd, hlt, hc, ?_⟩
  dsimp only at hy
  rw [hat, Option.bind_some] at hy
  split at hy
  · next owner member howner hcontains =>
    obtain ⟨rfl, -⟩ := yields_pure.mp hy
    obtain ⟨u, hu, heq⟩ := Option.map_eq_some_iff.mp howner
    cases heq
    obtain ⟨t, ht, hsame⟩ := Option.map_eq_some_iff.mp (htype.trans (congrArg _ hu))
    refine .inl ⟨t, ht, by simpa using hcontains, ?_⟩
    rw [show t.name = u.name from hsame, hname]
  · next hnot =>
    obtain ⟨n, k, hn, hy⟩ := yields_bind.mp hy
    obtain ⟨rfl, rfl⟩ := yields_pure.mp hy
    refine .inr ⟨n, ?_, rfl, fun t ht hmem => ?_⟩
    · exact h.ok_of_yields (m := (Schema.constantValue · name))
        (fun s => s.constantValue_neutral name)
        (fun base => Schema.constantValue_alongside _ base name)
        (Schema.constantValue_mirrors _ _ name) hn
    · obtain ⟨u, hu, -⟩ := Option.map_eq_some_iff.mp (htype.symm.trans (congrArg _ ht))
      have hu : r.toSchema.lookup? r.constants[d].owner = some u := hu
      exact hnot u.name r.constants[d].name (by rw [hu, Option.map_some]) (by simpa using hmem)

theorem cites_of_renderConstant (hnames : r'.names.Nodup) (hown : r'.ListsOwn)
    (h : Registry.Onward { r with known := known' } r')
    (hprocessed : ∀ d < r.constants.size, d ∈ processed ↔ r'.ListedBefore d i) {name : String}
    (hy : Yields (renderConstant r.toSchema lang processed out name) known out' known') :
    ∃ piece names, out'.text = out.text ++ piece ∧ out'.inlined = out.inlined ++ names ∧
      Cites r' lang i (.name name) piece names := by
  obtain ⟨d, c, hd, hlt, hc, ⟨t, ht, hmem, rfl⟩ | ⟨n, hn, rfl, hnot⟩⟩ :=
    exists_of_renderConstant h hy
  · have hq : r'.qualifiedName? lang c = some (t.name ++ lang.scopeSeparator ++ c.name) := by
      rw [Schema.qualifiedName?, ht, Option.map_some]
    exact ⟨_, [], rfl, (List.append_nil _).symm, .earlier hd hc hq ((hprocessed d hlt).mp hmem)⟩
  · refine ⟨_, [name], String.append_assoc, rfl, .value hn fun d' hd' hbefore => ?_⟩
    cases hd.symm.trans hd'
    obtain ⟨t, ht⟩ := hbefore.exists_owner hnames hown hc
    exact hnot t ht ((hprocessed d hlt).mpr hbefore)

theorem cites_of_renderToken (hnames : r'.names.Nodup) (hown : r'.ListsOwn)
    (h : Registry.Onward { r with known := known' } r')
    (hprocessed : ∀ d < r.constants.size, d ∈ processed ↔ r'.ListedBefore d i) {t : Token}
    (hy : Yields (renderToken r.toSchema lang processed out t) known out' known') :
    ∃ piece names, out'.text = out.text ++ piece ∧ out'.inlined = out.inlined ++ names ∧
      Cites r' lang i t piece names := by
  have nothing : ∀ xs : List String, xs = xs ++ [] := fun xs => (List.append_nil xs).symm
  cases t with
  | name name => exact cites_of_renderConstant hnames hown h hprocessed hy
  | sizeOf type =>
    obtain ⟨n, k, hn, hy⟩ := yields_bind.mp hy
    obtain ⟨rfl, rfl⟩ := yields_pure.mp hy
    exact ⟨_, [], rfl, nothing _, .size (h.wireSize_eq_ok hn)⟩
  | number n text =>
    obtain ⟨rfl, -⟩ := yields_pure.mp hy
    exact ⟨_, [], rfl, nothing _, .number⟩
  | operator op =>
    obtain ⟨rfl, -⟩ := yields_pure.mp hy
    exact ⟨_, [], rfl, nothing _, .operator⟩
  | openParen =>
    obtain ⟨rfl, -⟩ := yields_pure.mp hy
    exact ⟨_, [], rfl, nothing _, .openParen⟩
  | closeParen =>
    obtain ⟨rfl, -⟩ := yields_pure.mp hy
    exact ⟨_, [], rfl, nothing _, .closeParen⟩

/-- Writing tokens continues what is remembered. -/
theorem later_of_foldlM {ts : List Token}
    (hy : Yields (ts.foldlM (renderToken r.toSchema lang processed) out) known out' known') :
    r.toSchema.neutral.Later known known' := by
  have hconstant : ∀ name, Keeps (r.toSchema.neutral.Later known)
      (r.toSchema.constantValue name) fun _ => True := by
    intro name
    rw [← Schema.constantValue_neutral]
    exact Schema.Later.keeps fun base => Schema.constantValue_alongside _ base name
  have hsize : ∀ type, Keeps (r.toSchema.neutral.Later known)
      (r.toSchema.wireSize type) fun _ => True := by
    intro type
    rw [← Schema.wireSize_neutral]
    exact Schema.Later.keeps fun base => Schema.wireSize_alongside _ base type
  have hkeeps : Keeps (r.toSchema.neutral.Later known)
      (ts.foldlM (renderToken r.toSchema lang processed) out) fun _ => True :=
    Keeps.foldlM trivial fun out _ t _ => renderToken_keeps hconstant hsize processed out t
  exact (hkeeps.of_yields .refl hy).1

theorem citesAll_of_foldlM (hnames : r'.names.Nodup) (hown : r'.ListsOwn)
    (h : Registry.Onward { r with known := known' } r')
    (hprocessed : ∀ d < r.constants.size, d ∈ processed ↔ r'.ListedBefore d i) {ts : List Token}
    (hy : Yields (ts.foldlM (renderToken r.toSchema lang processed) out) known out' known') :
    ∃ text inlined, out'.text = out.text ++ text ∧ out'.inlined = out.inlined ++ inlined ∧
      CitesAll r' lang i ts text inlined := by
  induction ts generalizing known out with
  | nil =>
    obtain ⟨rfl, -⟩ := yields_pure.mp hy
    exact ⟨"", [], String.append_empty.symm, (List.append_nil _).symm, .nil⟩
  | cons t ts ih =>
    rw [List.foldlM_cons] at hy
    obtain ⟨out₁, known₁, hstep, hrest⟩ := yields_bind.mp hy
    obtain ⟨piece, names, hpiece, hinlined, hcites⟩ :=
      cites_of_renderToken hnames hown (h.before (later_of_foldlM hrest)) hprocessed hstep
    obtain ⟨text, inlined, htext, hinlined', hall⟩ := ih hrest
    refine ⟨piece ++ text, names ++ inlined, ?_, ?_, .cons hcites hall⟩
    · rw [htext, hpiece, String.append_assoc]
    · rw [hinlined', hinlined, List.append_assoc]

end Render

end Target

/-! ## All values are written in order -/

namespace Edit

variable {r r' : Registry} {lang : Language} {processed processed' : List Nat} {u : Unit}

/-- One more value is written, if there is a constant of the number; names and the texts of other
constants stay as they are. -/
theorem onward_of_renderValue {number : Nat}
    (h : Yields (renderValue lang processed number) r processed' r') :
    r.Onward r' ∧ (∀ d < r.constants.size, d ∈ processed' ↔ d ∈ processed ∨ d = number) ∧
      ∀ d, d ≠ number → r'.constants[d]? = r.constants[d]? := by
  obtain ⟨hc, rfl, rfl⟩ | ⟨c, text, known, hc, hrender, rfl, rfl⟩ := exists_of_renderValue h
  · refine ⟨.refl r', fun d hd => ?_, fun _ _ => rfl⟩
    have hne : d ≠ number := by
      rintro rfl
      rw [Array.getElem?_eq_getElem hd] at hc
      cases hc
    simp [hne]
  · obtain ⟨ts, k, hts, hfold⟩ := yields_bind.mp hrender
    obtain ⟨-, rfl⟩ := Schema.yields_faulty.mp hts
    have honward := (Registry.Onward.remember (Target.later_of_foldlM hfold)).trans
      (.write _ number text)
    refine ⟨honward, fun d _ => ?_, fun d hd => ?_⟩
    · rw [List.mem_cons, or_comm]
    · rw [Array.getElem?_modify, if_neg (Ne.symm hd)]

/-- What has been written after some numbers is what stands among them, and the texts of all other
constants are as they were. -/
theorem onward_of_foldlM {numbers : List Nat}
    (h : Yields (numbers.foldlM (renderValue lang) processed) r processed' r') :
    r.Onward r' ∧ (∀ d < r.constants.size, d ∈ processed' ↔ d ∈ processed ∨ d ∈ numbers) ∧
      ∀ d ∉ numbers, r'.constants[d]? = r.constants[d]? := by
  induction numbers generalizing r processed with
  | nil =>
    obtain ⟨rfl, rfl⟩ := yields_pure.mp h
    exact ⟨.refl r', fun d _ => by simp, fun _ _ => rfl⟩
  | cons number numbers ih =>
    rw [List.foldlM_cons] at h
    obtain ⟨_, r₁, hfirst, hrest⟩ := yields_bind.mp h
    obtain ⟨honward, hprocessed, hsame⟩ := onward_of_renderValue hfirst
    obtain ⟨honward', hprocessed', hsame'⟩ := ih hrest
    refine ⟨honward.trans honward', fun d hd => ?_, fun d hd => ?_⟩
    · rw [hprocessed' d (honward.size_eq ▸ hd), hprocessed d hd, List.mem_cons, or_assoc]
    · obtain ⟨hne, hnot⟩ := not_or.mp (List.mem_cons.not.mp hd)
      exact (hsame' d hnot).trans (hsame d hne)

theorem onward_of_renderValues (h : Yields (renderValues lang) r u r') : r.Onward r' := by
  simp only [renderValues, yields_bind, yields_schema, yields_pure] at h
  obtain ⟨_, r, ⟨rfl, rfl⟩, _, r', h, -, rfl⟩ := h
  exact (onward_of_foldlM h).1

/-- The text of a constant in the end is the one that its value got when it was written for the last
time, with the names that there are in the end. -/
theorem exists_render_of_foldlM {before after : List Nat} {i : Nat}
    (h : Yields ((before ++ i :: after).foldlM (renderValue lang) []) r processed' r')
    (hlast : i ∉ after) {c : Constant} (hc : r'.constants[i]? = some c) :
    ∃ (r₁ : Registry) (processed : List Nat) (text : Rendering) (known : Known),
      (∀ d < r₁.constants.size, d ∈ processed ↔ d ∈ before) ∧
        Yields (Target.render r₁.toSchema lang processed c.expr) r₁.known text known ∧
          Registry.Onward { r₁ with known } r' ∧
            c.targetExpr = some text.text ∧ c.inlined = text.inlined := by
  rw [List.foldlM_append] at h
  obtain ⟨processed, r₁, hfirst, h⟩ := yields_bind.mp h
  rw [List.foldlM_cons] at h
  obtain ⟨_, r₂, hvalue, hrest⟩ := yields_bind.mp h
  obtain ⟨honward₁, hprocessed, -⟩ := onward_of_foldlM hfirst
  obtain ⟨honward₃, -, hsame⟩ := onward_of_foldlM hrest
  have hfinal : r'.constants[i]? = r₂.constants[i]? := hsame i hlast
  obtain ⟨hnone, -, rfl⟩ | ⟨c₁, text, known, hc₁, hrender, -, rfl⟩ := exists_of_renderValue hvalue
  · rw [hfinal, hnone] at hc
    cases hc
  · rw [hfinal, Array.getElem?_modify, if_pos rfl, hc₁, Option.map_some] at hc
    cases hc
    refine ⟨r₁, processed, text, known, fun d hd => ?_, hrender,
      (Registry.Onward.write _ i text).trans honward₃, rfl, rfl⟩
    rw [hprocessed d (honward₁.size_eq ▸ hd)]
    simp

/-- The text of a listed constant names those that are listed before it: these are the ones that have
been written when its value is written for the last time. -/
theorem cites_of_renderValues (h : Yields (renderValues lang) r u r') {rest : Registry}
    (hlater : r'.Onward rest) (hnames : rest.names.Nodup) (hown : rest.ListsOwn) {t : TypeEntry}
    (ht : t ∈ rest.types) {i : Nat} (hi : i ∈ listedConstants t) {c : Constant}
    (hc : r'.constants[i]? = some c) :
    ∃ ts text, Expression.tokens c.expr = .ok ts ∧ c.targetExpr = some text ∧
      Target.CitesAll rest lang i ts text c.inlined := by
  simp only [renderValues, yields_bind, yields_schema, yields_pure] at h
  obtain ⟨_, r, ⟨rfl, rfl⟩, _, r', h, -, rfl⟩ := h
  have honward := (onward_of_foldlM h).1.trans hlater
  obtain ⟨c', hc', -⟩ := hlater.exists_constant hc
  obtain ⟨before, after, hplace, hlast, hbefore⟩ := Schema.exists_place hnames hown ht hi hc'
  have hlisted : r.types.flatMap listedConstants = before ++ i :: after := by
    rw [← hplace]
    exact (honward.apply_eq (m := fun s => s.types.flatMap listedConstants)
      fun s => s.listed_neutral).symm
  -- the constants that no type lists are written last, and this is none of them
  obtain ⟨others, horder, hothers⟩ : ∃ others,
      Target.constantOrder r.toSchema = before ++ i :: (after ++ others) ∧ i ∉ others := by
    refine ⟨(List.range r.constants.size).filter (!(before ++ i :: after).contains ·), ?_, ?_⟩
    · rw [Target.constantOrder, hlisted, List.append_assoc, List.cons_append]
    · simp
  rw [horder] at h
  obtain ⟨r₁, processed, text, known, hprocessed, hrender, hwritten, htarget, hinlined⟩ :=
    exists_render_of_foldlM h (by simpa using ⟨hlast, hothers⟩) hc
  obtain ⟨ts, k, hts, hfold⟩ := yields_bind.mp hrender
  obtain ⟨htokens, rfl⟩ := Schema.yields_faulty.mp hts
  obtain ⟨piece, inlined, htext, hinlined', hall⟩ :=
    Target.citesAll_of_foldlM hnames hown (hwritten.trans hlater)
      (fun d hd => by rw [hprocessed d hd, hbefore d]) hfold
  have htext : text.text = piece := by simpa using htext
  have hinlined' : text.inlined = inlined := by simpa using hinlined'
  subst htext hinlined'
  exact ⟨ts, text.text, htokens, htarget, hinlined ▸ hall⟩

/-- Adapting a registry gives names to types and constants, then it writes the values of constants, and
what it does after that changes neither names nor constants. -/
theorem exists_of_adapt (hnames : r.names.Nodup) (h : r.adapt lang = .ok r') :
    ∃ r₁ r₂, r.Rewritten r₁ ∧ (∀ c ∈ r₁.constants, (Target.renameConstant c).name = c.name) ∧
      Yields (renderValues lang) r₁ () r₂ ∧ r₂.Onward r' ∧ r'.constants = r₂.constants := by
  have h := Registry.yields_of_adapt h
  unfold Edit.adapt at h
  simp only [yields_bind, yields_schema] at h
  obtain ⟨_, r, ⟨rfl, rfl⟩, h⟩ := h
  cases hadapted : r.toSchema.adaptedFor with
  | some previous =>
    rw [hadapted] at h
    exact (not_yields_throw h).elim
  | none =>
    simp only [hadapted, yields_bind] at h
    obtain ⟨_, _, htypes, _, r₁, hconstants, _, r₂, hvalues, _, r₃, hfill, hmark⟩ := h
    have hnamed := (rewritten_of_renameTypes htypes).trans (rewritten_of_renameConstants hconstants)
    have hnames₂ : r₂.names.Nodup := by
      rwa [(onward_of_renderValues hvalues).apply_eq Schema.names_neutral, hnamed.names_eq]
    obtain ⟨hfilled, hsame⟩ := sameNames_of_fillTargetTypes hnames₂ hfill
    obtain rfl := yields_update.mp hmark
    refine ⟨r₁, r₂, hnamed, fun c hc => ?_, hvalues,
      hfilled.onward.trans ⟨rfl, fun _ => rfl, rfl, .refl⟩, hsame⟩
    obtain rfl := yields_update.mp hconstants
    obtain ⟨c₀, -, rfl⟩ := Array.mem_map.mp hc
    rfl

/-- Adapting a registry writes for the language only, whatever is remembered. -/
theorem neutral_of_adapt (hnames : r.names.Nodup) (h : r.adapt lang = .ok r') :
    r'.toSchema.neutral = r.toSchema.neutral := by
  obtain ⟨r₁, r₂, hnamed, -, hvalues, hlater, -⟩ := exists_of_adapt hnames h
  exact ((onward_of_renderValues hvalues).trans hlater).neutral.trans hnamed.neutral

end Edit

/-- Where every constant is listed by the type that it belongs to, the texts of listed constants refer
back: a constant is named in the text of another one if it is listed before it, and otherwise its
value stands there as a number and its name is noted. -/
theorem constants_refer_back {r r' : Registry} {lang : Language} (hnames : r.names.Nodup)
    (hown : r.ListsOwn) (h : r.adapt lang = .ok r') :
    ∀ t ∈ r'.types, ∀ i ∈ listedConstants t, ∀ c, r'.constants[i]? = some c →
      c.owner = t.specName ∧ ∃ ts text, Expression.tokens c.expr = .ok ts ∧
        c.targetExpr = some text ∧ Target.CitesAll r' lang i ts text c.inlined := by
  have hneutral := Edit.neutral_of_adapt hnames h
  obtain ⟨r₁, r₂, -, -, hvalues, hlater, hsame⟩ := Edit.exists_of_adapt hnames h
  have hnames' : r'.names.Nodup := by
    rwa [← Schema.names_neutral, hneutral, Schema.names_neutral]
  have hown' : r'.ListsOwn := by
    rwa [← Schema.listsOwn_neutral, hneutral, Schema.listsOwn_neutral]
  intro t ht i hi c hc
  exact ⟨hown' t ht i hi c hc,
    Edit.cites_of_renderValues hvalues hlater hnames' hown' ht hi (hsame ▸ hc)⟩

/-- Two enumerations. The last constant of the first one follows from a constant of each, and that of
the second one from a constant that no type lists. -/
def ladder : Registry :=
  { Schema.initial with
    types := Schema.elementary ++
      [.new "TPM_LOW" (.enum { underlying := "UINT8", members := [0, 1] }),
        .new "TPM_HIGH" (.enum { underlying := "UINT8", members := [2, 3] })]
    constants := #[.new "TPM_LOW_ONE" "1" "TPM_LOW" "",
      .new "TPM_LOW_TOP" "TPM_LOW_ONE + TPM_HIGH_BASE" "TPM_LOW" "",
      .new "TPM_HIGH_BASE" "STEP * 4" "TPM_HIGH" "",
      .new "TPM_HIGH_TOP" "TPM_HIGH_BASE + TPM_LOW_TOP" "TPM_HIGH" "",
      .new "STEP" "4" "" ""] }

/-- The first enumeration does not name a constant of the second one. -/
theorem ladder_refers_back : (ladder.names.Nodup ∧ ladder.ListsOwn) ∧
    ∃ r', ladder.adapt .node = .ok r' ∧
      Target.CitesAll r' .node 1 [.name "TPM_LOW_ONE", .operator .add, .name "TPM_HIGH_BASE"]
        "TPM_LOW.ONE + 16 /*TPM_HIGH_BASE*/" ["TPM_HIGH_BASE"] ∧
      Target.CitesAll r' .node 3 [.name "TPM_HIGH_BASE", .operator .add, .name "TPM_LOW_TOP"]
        "TPM_HIGH.BASE + TPM_LOW.TOP" [] := by
  have hnames : ladder.names.Nodup := by decide +kernel
  have hown : ladder.ListsOwn := by decide +kernel
  have hadapted : (ladder.adapt .node).toOption.map (fun r =>
      (r.types.map listedConstants, r.constants.map fun c => (c.expr, c.targetExpr, c.inlined))) =
      some (List.replicate 10 [] ++ [[0, 1], [2, 3]],
        #[("1", some "1", []),
          ("TPM_LOW_ONE + TPM_HIGH_BASE", some "TPM_LOW.ONE + 16 /*TPM_HIGH_BASE*/",
            ["TPM_HIGH_BASE"]),
          ("STEP * 4", some "4 /*STEP*/ * 4", ["STEP"]),
          ("TPM_HIGH_BASE + TPM_LOW_TOP", some "TPM_HIGH.BASE + TPM_LOW.TOP", []),
          ("4", some "4", [])]) := by
    decide +kernel
  obtain ⟨r', hadapt, heq⟩ := Option.map_eq_some_iff.mp hadapted
  obtain ⟨hlists, hconstants⟩ := Prod.mk.inj heq
  have hback := constants_refer_back hnames hown (ok_of_toOption hadapt)
  have cites : ∀ (i : Nat) (expr text : String) (inlined : List String) (ts : List Token),
      (∃ list ∈ r'.types.map listedConstants, i ∈ list) →
      (r'.constants.map fun c => (c.expr, c.targetExpr, c.inlined))[i]? =
        some (expr, some text, inlined) → Expression.tokens expr = .ok ts →
      Target.CitesAll r' .node i ts text inlined := by
    intro i expr text inlined ts ⟨list, hlist, hi⟩ hat hts
    obtain ⟨t, ht, rfl⟩ := List.mem_map.mp hlist
    rw [Array.getElem?_map] at hat
    obtain ⟨c, hc, heq⟩ := Option.map_eq_some_iff.mp hat
    simp only [Prod.mk.injEq] at heq
    obtain ⟨rfl, htarget, rfl⟩ := heq
    obtain ⟨-, ts', text', hts', htext, hall⟩ := hback t ht i hi c hc
    cases hts.symm.trans hts'
    cases htext.symm.trans htarget
    exact hall
  refine ⟨⟨hnames, hown⟩, r', ok_of_toOption hadapt, ?_, ?_⟩
  · exact cites 1 _ _ _ _ (by rw [hlists]; decide) (by rw [hconstants]; rfl) (by decide +kernel)
  · exact cites 3 _ _ _ _ (by rw [hlists]; decide) (by rw [hconstants]; rfl) (by decide +kernel)

end WireTables
