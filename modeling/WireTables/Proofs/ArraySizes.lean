import WireTables.Proofs.Constants
import WireTables.Proofs.Schema.Recall
import WireTables.Proofs.Extraction
import WireTables.Source.Reference

/-!
# The sizes of the members of array unions

The size of a member of an array union is found in two ways: encoding looks for the first member
that a selector value chooses, and the generated function looks through the members with their
sizes, which leave out the one that stands for absence. So the two agree wherever the first member
with that value is another one (`selectedLength_agrees`). Where it is the one for absence, encoding
takes its size like any other, while the generated function goes on to the next member with the
value and gives zero if there is none.

This holds in every registry, whatever was found out about its constants before and on the way.
-/

namespace WireTables

open Wire (byteCount? memberBytes firstSelected selectedLength)
open Source (memberSizes)

namespace Registry

/-- The size of a union member in bytes. -/
def memberSize (r : Registry) (m : UnionMember) : Except Error Nat :=
  (r.calculate (memberBytes · m (.inconsistent m.typeName (.invalidMemberArraySize m.name)))).1

/-- The selector of a union member has a value. -/
def isChosen (r : Registry) (x : Int) (m : UnionMember) : Bool :=
  (r.constantValue m.selector).toOption == some x

/-- What the function that is generated from members and their sizes gives for a selector value. -/
def sizeFor (r : Registry) (entries : List (UnionMember × Nat)) (x : Int) : Nat :=
  ((entries.find? fun e => r.isChosen x e.1).map (·.2)).getD 0

/-- The first of some members whose selector has a value. -/
inductive FirstWith (r : Registry) (x : Int) :
    List (UnionMember × Nat) → UnionMember → Nat → Prop
  | here {m i rest} (h : r.constantValue m.selector = .ok x) : FirstWith r x ((m, i) :: rest) m i
  | later {m i rest n m' i'} (h : r.constantValue m.selector = .ok n) (hne : n ≠ x)
    (hrest : FirstWith r x rest m' i') : FirstWith r x ((m, i) :: rest) m' i'

variable {r : Registry} {x n : Int} {m : UnionMember} {i : Nat}

theorem isChosen_of_value (h : r.constantValue m.selector = .ok n) :
    r.isChosen x m = decide (n = x) := by
  unfold isChosen
  rw [h]
  exact Bool.beq_eq_decide_eq (some n) (some x) |>.trans (by simp)

theorem exists_firstWith {members : List (UnionMember × Nat)}
    (hdefined : ∀ p ∈ members, ∃ n, r.constantValue p.1.selector = .ok n)
    (hx : ∃ p ∈ members, r.constantValue p.1.selector = .ok x) :
    ∃ m i, FirstWith r x members m i := by
  induction members with
  | nil =>
    obtain ⟨p, hp, -⟩ := hx
    cases hp
  | cons p members ih =>
    obtain ⟨n, hn⟩ := hdefined p List.mem_cons_self
    by_cases heq : n = x
    · exact ⟨p.1, p.2, .here (heq ▸ hn)⟩
    · obtain ⟨q, hq, hvalue⟩ := hx
      rcases List.mem_cons.mp hq with rfl | hq
      · cases hn.symm.trans hvalue
        exact (heq rfl).elim
      · obtain ⟨m, i, h⟩ := ih (fun p hp => hdefined p (List.mem_cons_of_mem _ hp)) ⟨q, hq, hvalue⟩
        exact ⟨m, i, .later hn heq h⟩

namespace FirstWith

variable {members : List (UnionMember × Nat)}

theorem mem (h : FirstWith r x members m i) : (m, i) ∈ members := by
  induction h with
  | here => exact List.mem_cons_self
  | later _ _ _ ih => exact List.mem_cons_of_mem _ ih

theorem value (h : FirstWith r x members m i) : r.constantValue m.selector = .ok x := by
  induction h with
  | here hv => exact hv
  | later _ _ _ ih => exact ih

/-- The first member with a value is the first one also among those that are kept. -/
theorem find?_filter (h : FirstWith r x members m i) (keep : UnionMember × Nat → Bool)
    (hi : keep (m, i) = true) :
    (members.filter keep).find? (fun p => r.isChosen x p.1) = some (m, i) := by
  induction h with
  | here hv =>
    rw [List.filter_cons, if_pos hi, List.find?_cons, isChosen_of_value hv, decide_eq_true rfl]
  | later hv hne _ ih =>
    rw [List.filter_cons]
    split
    · rw [List.find?_cons, isChosen_of_value hv, decide_eq_false hne]
      exact ih hi
    · exact ih hi

theorem find?_present {u : UnionType} (h : FirstWith r x u.members.zipIdx m i)
    (hi : u.nullMember ≠ some i) : u.present.find? (r.isChosen x) = some m := by
  have hfind := h.find?_filter (fun p => some p.2 != u.nullMember) (bne_iff_ne.mpr (Ne.symm hi))
  unfold UnionType.present
  rw [List.find?_map]
  exact congrArg (Option.map Prod.fst) hfind

end FirstWith

/-- The number of elements of a union member. -/
def memberCount (s : Schema) (m : UnionMember) : Eval Int :=
  match m.arraySize with
  | some text => s.evaluate text
  | none => pure 1

section MemberBytes

variable {s : Schema} {failure : Error}

/-- The size of a member is the one of its type as often as it has elements. -/
theorem yields_memberBytes {known known' : Known} {size : Nat} :
    Yields (memberBytes s m failure) known size known' ↔ ∃ count known₁ bytes,
      Yields (memberCount s m) known count known₁ ∧
        Yields (s.wireSize m.typeName) known₁ bytes known' ∧
          byteCount? bytes count = some size := by
  unfold memberBytes memberCount
  cases m.arraySize <;>
  · simp only [yields_bind]
    refine exists_congr fun count => exists_congr fun known₁ => ?_
    rw [exists_and_left]
    refine and_congr_right fun _ => exists_congr fun bytes => ?_
    cases hsize : byteCount? bytes count <;> simp [yields_pure, not_yields_throw, eq_comm]

theorem memberCount_mirrors {base : Known} : s.Mirrors base (memberCount s m) := by
  unfold memberCount
  split
  · exact s.evaluate_mirrors base _
  · exact .pure

theorem memberBytes_mirrors {base : Known} : s.Mirrors base (memberBytes s m failure) := by
  intro known wide size known' h hy
  obtain ⟨count, known₁, bytes, hcount, hbytes, hsize⟩ := yields_memberBytes.mp hy
  obtain ⟨wide₁, hcount', h₁⟩ := memberCount_mirrors _ _ _ _ h hcount
  obtain ⟨wide₂, hbytes', h₂⟩ := s.wireSize_mirrors base _ _ _ _ _ h₁ hbytes
  exact ⟨wide₂, yields_memberBytes.mpr ⟨count, wide₁, bytes, hcount', hbytes', hsize⟩, h₂⟩

end MemberBytes

section Later

variable {wide : Known} (h : r.Alongside r.known r.known wide)

include h

/-- What a registry gives at first it gives after other calculations as well. -/
theorem exists_later {α : Type} {calculation : Schema → Eval α} {a : α}
    (hm : r.Mirrors r.known (calculation r.toSchema)) (ha : (r.calculate calculation).1 = .ok a) :
    ∃ wide', Yields (calculation r.toSchema) wide a wide' ∧
      r.Alongside r.known r.known wide' := by
  obtain ⟨known, hy⟩ := calculate_eq_ok.mp ha
  exact hm.later hy h

/-- The size of a member is found, whatever is remembered by then and whatever is said when there
is none. -/
theorem exists_memberBytes {size : Nat} (hsize : r.memberSize m = .ok size) (failure : Error) :
    ∃ wide', Yields (memberBytes r.toSchema m failure) wide size wide' ∧
      r.Alongside r.known r.known wide' := by
  obtain ⟨wide', hy, h'⟩ := exists_later h memberBytes_mirrors hsize
  exact ⟨wide', yields_memberBytes.mpr (yields_memberBytes.mp hy), h'⟩

/-- The size of the first member with a value is found. -/
theorem exists_firstSelected (union : String) {members : List (UnionMember × Nat)}
    (hfirst : FirstWith r x members m i) {size : Nat} (hsize : r.memberSize m = .ok size) :
    ∃ wide', Yields (firstSelected r.toSchema union x (members.map (·.1))) wide (some size)
      wide' := by
  induction hfirst generalizing wide with
  | here hv =>
    obtain ⟨wide₁, hvalue, h₁⟩ := exists_later h (r.constantValue_mirrors r.known _) hv
    obtain ⟨wide₂, hbytes, -⟩ := exists_memberBytes h₁ hsize _
    refine ⟨wide₂, ?_⟩
    rw [List.map_cons]
    unfold firstSelected
    refine yields_bind.mpr ⟨x, wide₁, hvalue, ?_⟩
    rw [if_neg (by simp)]
    exact yields_bind.mpr ⟨size, wide₂, hbytes, yields_pure.mpr ⟨rfl, rfl⟩⟩
  | later hv hne _ ih =>
    obtain ⟨wide₁, hvalue, h₁⟩ := exists_later h (r.constantValue_mirrors r.known _) hv
    obtain ⟨wide₂, hrest⟩ := ih h₁ hsize
    refine ⟨wide₂, ?_⟩
    rw [List.map_cons]
    unfold firstSelected
    refine yields_bind.mpr ⟨_, wide₁, hvalue, ?_⟩
    rw [if_pos (by simpa using hne)]
    exact hrest

/-- The sizes of members are found one after the other, each one as it is at first. -/
theorem exists_memberSizes {members : List UnionMember}
    (hsizes : ∀ m ∈ members, ∃ n, r.memberSize m = .ok n) :
    ∃ entries wide', Yields (members.mapM fun m => do
        let failure := Error.inconsistent m.typeName (.invalidMemberArraySize m.name)
        return (m, ← memberBytes r.toSchema m failure)) wide entries wide' ∧
      entries.map (·.1) = members ∧ ∀ e ∈ entries, r.memberSize e.1 = .ok e.2 := by
  induction members generalizing wide with
  | nil =>
    refine ⟨[], wide, ?_, rfl, fun _ he => (List.not_mem_nil he).elim⟩
    rw [List.mapM_nil]
    exact yields_pure.mpr ⟨rfl, rfl⟩
  | cons m members ih =>
    obtain ⟨hm, hrest⟩ := List.forall_mem_cons.mp hsizes
    obtain ⟨size, hsize⟩ := hm
    obtain ⟨wide₁, hbytes, h₁⟩ := exists_memberBytes h hsize _
    obtain ⟨entries, wide₂, hentries, hmembers, hall⟩ := ih h₁ hrest
    refine ⟨(m, size) :: entries, wide₂, ?_, ?_, List.forall_mem_cons.mpr ⟨hsize, hall⟩⟩
    · rw [List.mapM_cons]
      refine yields_bind.mpr ⟨(m, size), wide₁, ?_, ?_⟩
      · exact yields_bind.mpr ⟨size, wide₁, hbytes, yields_pure.mpr ⟨rfl, rfl⟩⟩
      · exact yields_bind.mpr ⟨entries, wide₂, hentries, yields_pure.mpr ⟨rfl, rfl⟩⟩
    · rw [List.map_cons, hmembers]

end Later

/-- The entry for a selector value is the one of the first member with it. -/
theorem sizeFor_eq {entries : List (UnionMember × Nat)}
    (hall : ∀ e ∈ entries, r.memberSize e.1 = .ok e.2)
    (hfind : (entries.map (·.1)).find? (r.isChosen x) = some m) {size : Nat}
    (hsize : r.memberSize m = .ok size) : r.sizeFor entries x = size := by
  rw [List.find?_map] at hfind
  obtain ⟨e, he, rfl⟩ := Option.map_eq_some_iff.mp hfind
  have hentry : entries.find? (fun e => r.isChosen x e.1) = some e := he
  have hsame : e.2 = size :=
    Except.ok.inj ((hall e (List.mem_of_find?_eq_some he)).symm.trans hsize)
  unfold sizeFor
  rw [hentry, Option.map_some, Option.getD_some, hsame]

/-- Where the selectors and the sizes of all members of a union are defined, so is the size that a
selector value of one of them chooses: it is the one of the first member with the value. That is the
size that the generated function gives, unless the member stands for absence. -/
theorem selectedLength_agrees (r : Registry) (union : String) {u : UnionType} {x : Int}
    (hunion : (r.lookup? union).bind TypeEntry.union? = some u)
    (hselectors : ∀ m ∈ u.members, ∃ n, r.constantValue m.selector = .ok n)
    (hsizes : ∀ m ∈ u.members, ∃ n, r.memberSize m = .ok n)
    (hx : ∃ m ∈ u.members, r.constantValue m.selector = .ok x) :
    ∃ entries m i n, (r.calculate (memberSizes · u)).1 = .ok entries ∧
      (r.calculate (selectedLength · union x)).1 = .ok (some n) ∧
      FirstWith r x u.members.zipIdx m i ∧ r.memberSize m = .ok n ∧
        (u.nullMember ≠ some i → r.sizeFor entries x = n) := by
  have hmembers : u.members.zipIdx.map (·.1) = u.members := List.zipIdx_map_fst 0 u.members
  have hmem {p : UnionMember × Nat} (hp : p ∈ u.members.zipIdx) : p.1 ∈ u.members :=
    hmembers ▸ List.mem_map_of_mem hp
  obtain ⟨m₀, hm₀, hvalue⟩ := hx
  rw [← hmembers] at hm₀
  obtain ⟨p, hp, rfl⟩ := List.mem_map.mp hm₀
  obtain ⟨m, i, hfirst⟩ :=
    exists_firstWith (fun p hp => hselectors p.1 (hmem hp)) ⟨p, hp, hvalue⟩
  obtain ⟨n, hn⟩ := hsizes m (hmem hfirst.mem)
  have hpresent : ∀ m ∈ u.present, ∃ n, r.memberSize m = .ok n := by
    intro m hm
    obtain ⟨p, hp, rfl⟩ := List.mem_map.mp hm
    exact hsizes p.1 (hmem (List.mem_of_mem_filter hp))
  obtain ⟨entries, known, hentries, hnames, hall⟩ :=
    exists_memberSizes Schema.Alongside.refl hpresent
  obtain ⟨known', hselected⟩ := exists_firstSelected .refl union hfirst hn
  refine ⟨entries, m, i, n, calculate_eq_ok.mpr ⟨known, hentries⟩,
    calculate_eq_ok.mpr ⟨known', ?_⟩, hfirst, hn, fun hi => ?_⟩
  · obtain ⟨t, ht, hu⟩ := Option.bind_eq_some_iff.mp hunion
    unfold selectedLength
    refine yields_bind.mpr
      ⟨t, r.known, Schema.yields_evalOfExcept.mpr ⟨Schema.require_eq_ok.mpr ht, rfl⟩, ?_⟩
    rw [hu]
    rwa [hmembers] at hselected
  · exact sizeFor_eq hall (hnames ▸ hfirst.find?_present hi) hn

end Registry

section Digests

/-- A union of digests, whose last member stands for absence. -/
def digestTables : List Table :=
  [{ caption := "Table 1 — Definition of (UINT16) TPM_ALG_ID Constants", comment := "",
     rows := [["TPM_ALG_SHA1", "4", ""], ["TPM_ALG_SHA256", "11", ""], ["TPM_ALG_NULL", "16", ""]],
     handleCount := 0 },
   { caption := "Table 2 — Definition of TPMU_HA Union", comment := "",
     rows := [["sha1[20]", "BYTE", "TPM_ALG_SHA1", ""],
       ["sha256[32]", "BYTE", "TPM_ALG_SHA256", ""], ["null", "", "TPM_ALG_NULL", ""]],
     handleCount := 0 }]

/-- The registry of digests. -/
def digests : Registry :=
  ((Extraction.extract digestTables {}).toOption.map (·.1)).getD default

/-- The union of digests. -/
def digestUnion : UnionType :=
  ((digests.lookup? "TPMU_HA").bind TypeEntry.union?).getD default

/-- The selectors and sizes of the members are defined, and the second one is chosen by 11. -/
theorem digest_facts :
    ((digests.lookup? "TPMU_HA").bind TypeEntry.union?).isSome = true ∧
      (∀ m ∈ digestUnion.members, (digests.constantValue m.selector).toOption.isSome = true ∧
        (digests.memberSize m).toOption.isSome = true) ∧
      (∃ m ∈ digestUnion.members, (digests.constantValue m.selector).toOption = some 11) ∧
      (∀ p ∈ digestUnion.members.zipIdx, (digests.constantValue p.1.selector).toOption = some 11 →
        p.2 = 1 ∧ (digests.memberSize p.1).toOption = some 32) ∧
      digestUnion.nullMember = some 2 := by
  decide +kernel

theorem exists_ok_of_isSome {α : Type} {result : Except Error α}
    (h : result.toOption.isSome = true) : ∃ a, result = .ok a := by
  obtain ⟨a, ha⟩ := Option.isSome_iff_exists.mp h
  exact ⟨a, ok_of_toOption ha⟩

/-- The size of the second digest is the one that the generated function gives. -/
theorem selectedLength_digests :
    (digests.calculate (selectedLength · "TPMU_HA" 11)).1 = .ok (some 32) ∧
      ∃ entries, (digests.calculate (memberSizes · digestUnion)).1 = .ok entries ∧
        digests.sizeFor entries 11 = 32 := by
  obtain ⟨hunion, hdefined, ⟨m₀, hm₀, hchosen⟩, honly, hnull⟩ := digest_facts
  obtain ⟨u, hu⟩ := Option.isSome_iff_exists.mp hunion
  have hsame : digestUnion = u := congrArg (·.getD default) hu
  obtain ⟨entries, m, i, n, hentries, hlength, hfirst, hsize, hagrees⟩ :=
    Registry.selectedLength_agrees digests "TPMU_HA" (hsame ▸ hu)
      (fun m hm => exists_ok_of_isSome (hdefined m hm).1)
      (fun m hm => exists_ok_of_isSome (hdefined m hm).2)
      ⟨m₀, hm₀, ok_of_toOption hchosen⟩
  obtain ⟨hi, hsize'⟩ := honly (m, i) hfirst.mem (congrArg Except.toOption hfirst.value)
  cases hsize.symm.trans (ok_of_toOption hsize')
  cases hi
  exact ⟨hlength, entries, hentries, hagrees (by rw [hnull]; decide)⟩

end Digests

end WireTables
