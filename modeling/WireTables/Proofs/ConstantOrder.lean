import WireTables.Proofs.Editing
import WireTables.Proofs.Schema.Success

/-!
# Constants in any order

Constants whose values follow from each other without cycles have these values, and checking
references reports none of them, in whatever order they stand and whichever of them have been
evaluated before (`constants_succeed`). A limit on how deep constants and types may nest stands in
for finding cycles, so nothing may be nested deeper than that: a chain of more constants is reported
as a cycle, unless one in its middle happens to be remembered (`deepChain_rejected`).

The order of the constants shows in their numbers only. What is found under a name stays the same
(`constant?_reordered`), and so does all that questions raise and what follows from what.
-/

namespace WireTables

open Relation (TransGen ReflTransGen)

namespace Schema

variable {s : Schema} {order : List Constant}

/-- The schema with constants in another order. -/
def reordered (s : Schema) (order : List Constant) : Schema :=
  { s with constants := order.toArray }

/-! ## Looking through names -/

theorem followAliases_reordered {name : String} {hops : Nat} {t : TypeEntry} :
    (s.reordered order).followAliases name hops t = s.followAliases name hops t := by
  induction hops generalizing t with
  | zero => rfl
  | succ hops ih =>
    unfold followAliases
    split
    · exact bind_congr fun _ => ih
    · rfl

theorem collectFields_reordered {owner : String} {room : Nat} {name : String} :
    (s.reordered order).collectFields owner room name = s.collectFields owner room name := by
  induction room generalizing name with
  | zero => rfl
  | succ room ih =>
    unfold collectFields
    have target : (s.reordered order).target name = s.target name :=
      bind_congr fun _ => followAliases_reordered
    rw [target]
    refine bind_congr fun _ => bind_congr fun t => ?_
    split
    · rfl
    · split
      · rfl
      · rw [ih]

theorem allFields_reordered (name : String) :
    (s.reordered order).allFields name = s.allFields name :=
  collectFields_reordered

theorem parts_reordered {type : String} {kind : TypeKind} :
    (s.reordered order).parts type kind = s.parts type kind := by
  cases kind with
  | record => simp only [parts, allFields_reordered]
  | _ => rfl

theorem lengths_reordered {type : String} {kind : TypeKind} :
    (s.reordered order).lengths type kind = s.lengths type kind := by
  cases kind with
  | record => simp only [lengths, allFields_reordered]
  | _ => rfl

theorem kindSize_reordered {sub : Query → Int → Prop} {type : String} {depth : Nat} {n : Int}
    {kind : TypeKind} :
    KindSize (s.reordered order) sub type depth n kind ↔ KindSize s sub type depth n kind := by
  cases kind with
  | record => simp only [KindSize, allFields_reordered]
  | _ => exact Iff.rfl

/-! ## Constants by name -/

/-- A constant is found under its own name, or else under the name without the common start. -/
theorem constant?_eq (s : Schema) (name : String) :
    s.constant? name = (s.constants.toList.find? (·.specName == name)).or
      (s.constants.toList.find? (·.specName == s.algPrefix ++ name)) := by
  have exact_ : ∀ name, (s.constantNumber? name).bind (s.constants[·]?) =
      s.constants.toList.find? (·.specName == name) := fun name => by
    rw [Array.find?_toList, Array.find?_eq_bind_findIdx?_getElem?]
    rfl
  unfold constant? resolveConstant?
  rw [← exact_, ← exact_]
  cases h : s.constantNumber? name with
  | none => rfl
  | some number =>
    obtain ⟨hlt, -⟩ := Array.findIdx?_eq_some_iff_getElem.mp h
    simp [hlt]

theorem constant?_eq_some {name : String} {c : Constant} : s.constant? name = some c ↔
    ∃ number, s.resolveConstant? name = some number ∧ s.constants[number]? = some c :=
  Option.bind_eq_some_iff

section Order

variable (horder : order.Perm s.constants.toList)
  (hnames : (s.constants.toList.map (·.specName)).Nodup)

include horder hnames

theorem constant?_reordered (name : String) :
    (s.reordered order).constant? name = s.constant? name := by
  have hlist : (s.reordered order).constants.toList = order := rfl
  have hprefix : (s.reordered order).algPrefix = s.algPrefix := rfl
  rw [constant?_eq, constant?_eq, hlist, hprefix, find?_perm horder hnames name,
    find?_perm horder hnames (s.algPrefix ++ name)]

/-- The same constants are found under other numbers. -/
theorem exists_number_reordered {name : String} {number : Nat} {c : Constant}
    (hr : s.resolveConstant? name = some number) (hc : s.constants[number]? = some c) :
    ∃ number', (s.reordered order).resolveConstant? name = some number' ∧
      (s.reordered order).constants[number']? = some c := by
  rw [← constant?_eq_some, constant?_reordered horder hnames]
  exact constant?_eq_some.mpr ⟨number, hr, hc⟩

theorem Raises.reordered {q q' : Query} (h : s.Raises [] q q') :
    (s.reordered order).Raises [] q q' := by
  cases h with
  | expr hr _ hc hd hq =>
    obtain ⟨number', hr', hc'⟩ := exists_number_reordered horder hnames hr hc
    exact .expr hr' rfl hc' hd hq
  | part hd ht hp =>
    rw [← @parts_reordered s order] at hp
    exact .part hd ht hp
  | length hd ht hl hq =>
    rw [← @lengths_reordered s order] at hl
    exact .length hd ht hl hq

theorem Calculates.reordered {value : Query → Int} {q : Query} (h : s.Calculates value q) :
    (s.reordered order).Calculates value q := by
  cases h with
  | constant hr hc he =>
    obtain ⟨number', hr', hc'⟩ := exists_number_reordered horder hnames hr hc
    exact .constant hr' hc' he
  | size ht hk => exact .size ht (kindSize_reordered.mpr hk)

theorem raises_reordered : (s.reordered order).Raises [] = s.Raises [] := by
  have back : (s.reordered order).reordered s.constants.toList = s := by
    unfold reordered
    rw [Array.toArray_toList]
  have hnames' : ((s.reordered order).constants.toList.map (·.specName)).Nodup :=
    (horder.map _).nodup_iff.mpr hnames
  funext q q'
  refine propext ⟨fun h => ?_, Raises.reordered horder hnames⟩
  have h : ((s.reordered order).reordered s.constants.toList).Raises [] q q' :=
    h.reordered horder.symm hnames'
  rwa [back] at h

theorem refers_reordered : (s.reordered order).Refers = s.Refers := by
  unfold Refers
  rw [raises_reordered horder hnames]

omit hnames in
/-- Values of constants that follow from each other do so in any order. -/
theorem Valued.reordered {value : Query → Int} (hv : s.Valued value) :
    (s.reordered order).Valued value where
  names := (horder.map _).nodup_iff.mpr hv.names
  acyclic c hc := by
    unfold Circular
    rw [refers_reordered horder hv.names]
    exact hv.acyclic c (horder.mem_iff.mp hc)
  calculates c hc q hq := by
    rw [refers_reordered horder hv.names] at hq
    exact (hv.calculates c (horder.mem_iff.mp hc) q hq).reordered horder hv.names

theorem WithinLimit.reordered (hl : s.WithinLimit) : (s.reordered order).WithinLimit := by
  rintro q ⟨c, hc, hreach⟩
  rw [raises_reordered horder hnames] at hreach
  exact hl q ⟨c, horder.mem_iff.mp hc, hreach⟩

end Order

/-! ## Evaluating all constants -/

/-- What is remembered when the values of the named constants have been asked for in order, from
nothing on, whether they were found or not. -/
def evaluated (s : Schema) (names : List String) : Known :=
  names.foldl (fun known name => (Id.run ((s.constantValue name).run known)).2) []

theorem meant_evaluated (s : Schema) (names : List String) : s.Meant (s.evaluated names) := by
  suffices ∀ known, s.Meant known → s.Meant (names.foldl
      (fun known name => (Id.run ((s.constantValue name).run known)).2) known) from
    this [] meant_nil
  induction names with
  | nil =>
    intro known hk
    exact hk
  | cons name names ih =>
    intro known hk
    have hname : s.Meant (Id.run ((s.constantValue name).run known)).2 :=
      (ask_denotes (.constant name 0) known hk).1
    rw [List.foldl_cons]
    exact ih _ hname

/-- All constants have their values where each of them has its own. -/
theorem gives_constants
    (h : ∀ c ∈ s.constants.toList, ∃ n, Gives s.Meant (s.constantValue c.specName) n) :
    Gives s.Meant (s.constants.forM fun c => do let _ ← s.constantValue c.specName) ⟨⟩ := by
  rw [forM_constants]
  refine Gives.forM fun c hc => ?_
  obtain ⟨n, hn⟩ := h c hc
  exact hn.bind .pure

/-- Where every constant has its value, checking references fails on types only. -/
theorem error_of_checkReferences {known : Known} {e : Error}
    (hconstants : ∀ c ∈ s.constants.toList, ∃ n, Gives s.Meant (s.constantValue c.specName) n)
    (hk : s.Meant known) (h : (Id.run (s.checkReferences.run known)).1 = .error e) :
    (Id.run ((s.types.forM s.checkEntry).run known)).1 = .error e := by
  have values := gives_constants hconstants
  have entries : Keeps s.Meant (s.types.forM s.checkEntry) fun _ => True :=
    Keeps.forM fun t _ => checkEntry_keeps (fun text =>
      (evaluateWith_gives ask_denotes text 0).trivial) t
  rcases hout : Id.run ((s.types.forM s.checkEntry).run known) with ⟨_ | _, k⟩
  · unfold checkReferences at h
    rwa [run_bind, hout] at h
  · obtain ⟨k', -, hy⟩ := values k (entries.of_yields hk hout).1
    have checked : Yields s.checkReferences known () k' := yields_bind.mpr ⟨⟨⟩, k, hout, hy⟩
    rw [checked] at h
    cases h

end Schema

/-- Constants whose expressions are well formed, refer to what exists, have no cycles and overflow
nowhere have their values, and checking references does not fail on one of them, in whatever order
they stand and whichever of them have been evaluated before, as long as nothing that they refer to is
nested deeper than the limit. -/
theorem constants_succeed {s : Schema} {value : Query → Int} (hv : s.Valued value)
    (hl : s.WithinLimit) {order : List Constant} (horder : order.Perm s.constants.toList)
    (before : List String) :
    (∀ c ∈ order, ∃ known, Yields ((s.reordered order).constantValue c.specName)
      ((s.reordered order).evaluated before) (value (.constant c.specName 0)) known) ∧
    ∀ e, (Id.run ((s.reordered order).checkReferences.run
        ((s.reordered order).evaluated before))).1 = .error e →
      (Id.run ((s.types.forM (s.reordered order).checkEntry).run
        ((s.reordered order).evaluated before))).1 = .error e := by
  have hv' := hv.reordered horder
  have hl' := hl.reordered horder hv.names
  have hmeant := (s.reordered order).meant_evaluated before
  have gives : ∀ c ∈ order, Gives (s.reordered order).Meant
      ((s.reordered order).constantValue c.specName) (value (.constant c.specName 0)) :=
    fun c hc => Schema.gives_constantValue hv' hl' hc
  refine ⟨fun c hc => ?_, fun e h => ?_⟩
  · obtain ⟨known, -, hy⟩ := gives c hc _ hmeant
    exact ⟨known, hy⟩
  · have entries := Schema.error_of_checkReferences (fun c hc => ⟨_, gives c hc⟩) hmeant h
    exact entries

/-- A header of three bytes, and constants of which one follows from its size and another one from
that. -/
def headers : Schema :=
  { Schema.initial with
    types := Schema.elementary ++ [.new "TPMS_HEADER" (.record { fields :=
      [{ name := "kind", typeName := "UINT16" }, { name := "version", typeName := "BYTE" }] })]
    constants := #[.new "LIMIT" "SIZE + BASE" "" "", .new "BASE" "5" "" "",
      .new "SIZE" "sizeof(TPMS_HEADER) * 2" "" ""] }

/-- The constants of `headers` in another order. -/
def headersOrder : List Constant :=
  [.new "SIZE" "sizeof(TPMS_HEADER) * 2" "" "", .new "LIMIT" "SIZE + BASE" "" "",
    .new "BASE" "5" "" ""]

/-- The values of constants and the sizes of types in `headers`. -/
def headersValue : Query → Int
  | .constant "LIMIT" _ => 11
  | .constant "BASE" _ => 5
  | .constant "SIZE" _ => 6
  | .constant _ _ => 0
  | .size "TPMS_HEADER" _ => 3
  | .size "UINT16" _ => 2
  | .size _ _ => 1

theorem headers_succeed : (headers.Valued headersValue ∧ headers.WithinLimit ∧
      headersOrder.Perm headers.constants.toList) ∧
    ∃ known, Yields ((headers.reordered headersOrder).constantValue "LIMIT")
      ((headers.reordered headersOrder).evaluated ["BASE"]) 11 known := by
  have hv : headers.Valued headersValue :=
    Schema.valued_of_grounded ([.constant "LIMIT" 0, .constant "BASE" 0, .constant "SIZE" 0,
        .size "TPMS_HEADER" 0, .size "UINT16" 0, .size "BYTE" 0])
      (by decide +kernel) (by decide +kernel) (by decide +kernel) (by decide +kernel)
  have hl : headers.WithinLimit :=
    Schema.withinLimit_of_closed ([.constant "LIMIT" 0, .constant "BASE" 0,
        .constant "SIZE" 0, .constant "BASE" 1, .constant "SIZE" 1, .size "TPMS_HEADER" 0,
        .size "UINT16" 1, .size "BYTE" 1])
      (by decide +kernel) (by decide +kernel)
  have horder : headersOrder.Perm headers.constants.toList := by decide +kernel
  have hmem : Constant.new "LIMIT" "SIZE + BASE" "" "" ∈ headersOrder := by decide +kernel
  exact ⟨⟨hv, hl, horder⟩, (constants_succeed hv hl horder ["BASE"]).1 _ hmem⟩

/-! ## Deeper than the limit -/

/-- One constant of a chain: it refers to the next one, and the last one is a number. -/
def deepLink (i : Nat) : Constant :=
  .new ("C" ++ toString i) (if i < maxDepth + 1 then "C" ++ toString (i + 1) else "1") "" ""

/-- Constants that follow from each other, more of them than may be nested. -/
def deepChain : Schema :=
  { Schema.initial with constants := ((List.range (maxDepth + 2)).map deepLink).toArray }

/-- Being within the limit is needed: all constants of the chain have values, but asking for the first
one and checking references report a cycle. After one in the middle has been evaluated, the first one
has its value. -/
theorem deepChain_rejected : deepChain.Valued (fun _ => 1) ∧
    (Id.run ((deepChain.constantValue "C0").run [])).1 = .error (.expression "1" .cycle) ∧
    (Id.run (deepChain.checkReferences.run [])).1 = .error (.expression "1" .cycle) ∧
    (Id.run ((deepChain.constantValue "C0").run (deepChain.evaluated ["C32"]))).1 = .ok 1 := by
  have hv : deepChain.Valued fun _ => 1 :=
    Schema.valued_of_grounded ((List.range (maxDepth + 2)).map fun i =>
        .constant ("C" ++ toString i) 0)
      (by decide +kernel) (by decide +kernel) (by decide +kernel) (by decide +kernel)
  exact ⟨hv, by decide +kernel, by decide +kernel, by decide +kernel⟩

end WireTables
