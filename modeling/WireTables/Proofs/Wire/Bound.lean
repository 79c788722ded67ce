import Mathlib.Data.List.Perm.Subperm
import WireTables.Proofs.Normal.ArrayUnion
import WireTables.Proofs.Schema.Size
import WireTables.Proofs.Wire.RoundTrip

/-!
# How long encodings get

The bytes of a structure are no more than its size. Each step writes no more than the size of its
field (`length_le_of_writes`), except that a sized structure is written after its length; but that
is another field, which has no step of its own, and no two structures share one (`SizesPaired`). So
the sizes of all fields bound what all steps write together (`sum_steps_le`).
-/

namespace WireTables

namespace Schema

/-- What makes sizes bounds: counts are not negative, a union-typed field holds single values, and
nothing is written for an absent member. -/
structure Measured (s : Schema) (known : Known) : Prop where
  words : known.Words
  complete : s.Complete known
  standard : ∀ t ∈ s.types, ∀ c, t.kind = .value c → Wire.Standard c
  counts : s.CountsNonnegative known
  single : ∀ union u, s.HasUnionField union → (s.lookup? union).bind TypeEntry.union? = some u →
    ∀ m ∈ u.present, m.arraySize = none
  absent : ∀ union u i m, (s.lookup? union).bind TypeEntry.union? = some u →
    u.nullMember = some i → u.members[i]? = some m → ∀ n, s.HasSize known m.typeName n → n = 0

theorem Measured.remembers {s : Schema} {known : Known} (h : s.Measured known) :
    s.Remembers (· = known) :=
  remembers_complete h.words h.complete

theorem Measured.nonneg {s : Schema} {known : Known} (h : s.Measured known) {type : String}
    {n : Int} (hn : s.HasSize known type n) : 0 ≤ n :=
  hn.nonneg h.complete h.counts h.standard

end Schema

/-- Every sized structure has a length, and no two have the same. -/
structure SizesPaired (fields : List Field) : Prop where
  tag : ∀ f ∈ fields, f.marshal = .sizedBody → ∃ tag g, f.partner = some tag ∧
    fields.find? (·.name == tag) = some g ∧ g.marshal = .bodySize
  once : ∀ g ∈ fields, g.marshal = .bodySize →
    (fields.filter (·.partner == some g.name)).length = 1

namespace Schema

theorem sizesPaired_of_clean {r : Record} (h : ∀ f ∈ r.fields, Clean r f) :
    SizesPaired r.fields where
  tag f hf hm := by
    have htagged := (h f hf).tagged
    unfold taggedFindings at htagged
    simp only [hm] at htagged
    split at htagged
    · next hp =>
      have hp : partnerMarshal? r f = some .bodySize := by simpa using hp
      obtain ⟨tag, htag, hp⟩ := Option.bind_eq_some_iff.mp hp
      obtain ⟨g, hg, hp⟩ := Option.bind_eq_some_iff.mp hp
      exact ⟨tag, g, htag, hg, Option.some.inj hp⟩
    · cases htagged
  once g hg hm := by
    have htag := (h g hg).tag
    unfold tagFindings at htag
    simp only [hm] at htag
    split at htag
    · next p hp => rw [hp]; rfl
    · cases htag

end Schema

namespace Wire

/-- What a step for a union has anywhere in a value is absent or of the type of a member of that
union other than the absent one. -/
inductive HoldsMembers (s : Schema) (known : Known) : String → Value → Prop
  | struct {type fields}
    (hunions : ∀ steps tail, Plan s known type steps tail → ∀ st ∈ steps, ∀ union tag,
      st.op = .union union tag → ∀ w, fields.lookup st.field.name = some w →
        w = .null ∨ ∃ u, (s.lookup? union).bind TypeEntry.union? = some u ∧ NamesMember u w)
    (hinside : ∀ steps tail, Plan s known type steps tail → ∀ st ∈ steps,
      ∀ w, fields.lookup st.field.name = some w → ∀ inner x, Inside s st.op w inner x →
        HoldsMembers s known inner x) :
    HoldsMembers s known type (.struct fields)

section Layout

variable {s : Schema} {known : Known} (h : s.Remembers (· = known)) {type : String}
  {steps : List Step} {fields : List Field}

include h

/-- A step of a layout is the step of its field. -/
theorem yields_stepOf_of_mem (hlayout : Yields (layout s type) known steps known)
    (hfields : s.allFields type = .ok fields) {st : Step} (hst : st ∈ steps) :
    st.field ∈ fields ∧
      Yields (stepOf s type fields st.field) known (some (st.op, st.isData)) known := by
  unfold layout at hlayout
  simp only [yields_bind, yields_ofExcept] at hlayout
  obtain ⟨fields', k, ⟨hfields', hk⟩, hsteps⟩ := hlayout
  cases hfields.symm.trans hfields'
  rw [hk] at hsteps
  refine (hsteps.filterMapM (I := (· = known)) (R := fun st => st.field ∈ fields ∧
    Yields (stepOf s type fields st.field) known (some (st.op, st.isData)) known) rfl
      fun f hf k y k' hk hy => ?_).2 st hst
  subst hk
  obtain ⟨out, k₁, hout, hy⟩ := yields_bind.mp hy
  obtain ⟨rfl, rfl⟩ := yields_pure.mp hy
  obtain ⟨rfl, -⟩ := (stepOf_keeps h type fields f).of_yields rfl hout
  refine ⟨rfl, fun st' hst' => ?_⟩
  obtain ⟨⟨op, isData⟩, rfl, rfl⟩ := Option.map_eq_some_iff.mp hst'
  exact ⟨hf, hout⟩

/-- The length of an array of constant length is a value of its text. -/
theorem exists_text_of_fixed {f : Field} {element : Element} {count : Nat} {isData : Bool}
    (hstep : Yields (stepOf s type fields f) known
      (some (.array element (.fixed count), isData)) known) :
    f.marshal = .fixedArray ∧ ∃ text n, f.arraySize = some text ∧
      Yields (s.evaluate text) known n known ∧ (count : Int) = n := by
  obtain ⟨-, htravels⟩ := travels_of_stepOf hstep
  cases htravels with
  | fixed hm =>
    refine ⟨hm, ?_⟩
    unfold stepOf at hstep
    simp only [hm, yields_bind, yields_pure, yields_ofExcept, Option.some.injEq, Prod.mk.injEq,
      Op.array.injEq, ArrayLength.fixed.injEq] at hstep
    obtain ⟨_, k, ⟨-, hk⟩, length, _, hlength, ⟨⟨-, hcount⟩, -⟩, -⟩ := hstep
    rw [hk] at hlength
    rw [hcount]
    unfold fixedLength at hlength
    split at hlength
    · exact (not_yields_throw hlength).elim
    · next text htext =>
      obtain ⟨n, k₁, hn, hrest⟩ := yields_bind.mp hlength
      rw [((Schema.evaluate_keeps h text).of_yields rfl hn).1] at hn
      refine ⟨text, n, htext, hn, ?_⟩
      dsimp only at hrest
      split at hrest
      · obtain ⟨_, _, hthrow, -⟩ := yields_bind.mp hrest
        exact (not_yields_throw hthrow).elim
      · next hpos =>
        obtain ⟨rfl, -⟩ := yields_pure.mp hrest
        exact Int.toNat_of_nonneg (Int.not_lt.mp hpos)

omit h in
/-- The length of a sized structure is the field that it names. -/
theorem exists_tag_of_sized {f : Field} {c : Scalar} {inner : String} {isData : Bool}
    {k k' : Known}
    (hstep : Yields (stepOf s type fields f) k (some (.sized c inner, isData)) k') :
    f.marshal = .sizedBody ∧ objectName? s f.typeName = some inner ∧
      ∃ tag g, f.partner = some tag ∧ fields.find? (·.name == tag) = some g ∧
        s.scalar? g.typeName = some c := by
  obtain ⟨-, htravels⟩ := travels_of_stepOf hstep
  cases htravels with
  | sized hm ht =>
    refine ⟨hm, ht, ?_⟩
    unfold stepOf at hstep
    simp only [hm, ht, yields_bind, yields_pure, yields_ofExcept, sizedStep, bind_eq_ok,
      partnerOf_eq_ok] at hstep
    obtain ⟨op, _, ⟨⟨tag, htag, hop⟩, -⟩, heq, -⟩ := hstep
    cases heq
    split at hop
    · next g hg =>
      obtain ⟨c', hc, hop⟩ := bind_eq_ok.mp hop
      cases hop
      exact ⟨tag, g, htag, hg, scalarOf_eq_ok.mp hc⟩
    · cases hop

end Layout

section Parts

variable {s : Schema} {known : Known} {type : String} {e : Int} {bytes : List UInt8}

/-- A number is written in as many bytes as its type has. -/
theorem length_eq_size {c : Scalar} {n : Int} (hb : NumberBytes c n bytes)
    (hc : s.scalar? type = some c) (he : s.HasSize known type e) : (bytes.length : Int) = e := by
  rw [he.scalar hc, Schema.sizeWord_eq hb.size, hb.length_eq]

theorem hasSize_objectName {object : String} (he : s.HasSize known type e)
    (h : objectName? s type = some object) : s.HasSize known object e := by
  obtain ⟨⟨t, r⟩, hr, rfl⟩ := Option.map_eq_some_iff.mp h
  exact he.target (Schema.recordOf?_eq_some.mp hr).1

theorem length_flatten_le {parts : List (List UInt8)}
    (h : ∀ part ∈ parts, (part.length : Int) ≤ e) :
    (parts.flatten.length : Int) ≤ e * parts.length := by
  induction parts with
  | nil => simp
  | cons part rest ih =>
    have hpart := h part List.mem_cons_self
    have hrest := ih fun part hp => h part (List.mem_cons_of_mem _ hp)
    rw [List.flatten_cons, List.length_append, List.length_cons, Nat.cast_add, Nat.cast_succ,
      Int.mul_add, Int.mul_one]
    omega

variable {nested : String → Value → List UInt8 → Prop} {v : Value}

/-- An array is no longer than its elements times their number. -/
theorem length_le_of_items {element : Element} {count : Nat}
    (hb : ElementBytes nested element v bytes) (hcount : v.length? = some count)
    (hbyte : element = .byte → e = 1)
    (hitem : ∀ items, v = .list items → ∀ x ∈ items, ∀ part, ItemBytes nested element x part →
      (part.length : Int) ≤ e) : (bytes.length : Int) ≤ e * count := by
  cases hb with
  | bytes =>
    cases hcount
    rw [hbyte rfl, Int.one_mul]
  | @items _ items parts h =>
    cases hcount
    rw [h.length_eq]
    refine length_flatten_le fun part hp => ?_
    obtain ⟨x, hx, hpart⟩ := exists_of_forall₂ h hp
    exact hitem items rfl x hx part hpart

theorem length_of_byteItem {x : Value} {part : List UInt8} (h : ItemBytes nested .byte x part) :
    part.length = 1 := by
  cases h with
  | byte _ hb => exact hb.length_eq

/-- An array field is no longer than the size of its type times the number of elements. -/
theorem length_le_of_elements {owner : String} {f : Field} {element : Element} {count : Nat}
    (hb : ElementBytes nested element v bytes) (hcount : v.length? = some count)
    (helement : elementOf s owner f = .ok element) (he : s.HasSize known f.typeName e)
    (hnested : ∀ inner items x part m, element = .object inner → v = .list items → x ∈ items →
      nested inner x part → s.HasSize known inner m → (part.length : Int) ≤ m) :
    (bytes.length : Int) ≤ e * count := by
  have hof := of_elementOf helement
  have hone : element = .byte → e = 1 := by
    rintro rfl
    rw [he.scalar hof]
    decide
  refine length_le_of_items hb hcount hone fun items hv x hx part hpart => ?_
  cases hpart with
  | byte hn hb =>
    rw [hone rfl, hb.length_eq]
    decide
  | scalar hn hb => exact Int.le_of_eq (length_eq_size hb hof he)
  | object hb => exact hnested _ items x part e rfl hv hx hb (hasSize_objectName he hof)

theorem mem_present {u : UnionType} {m : UnionMember} {i : Nat} (hm : (m, i) ∈ u.members.zipIdx)
    (hi : u.nullMember ≠ some i) : m ∈ u.present :=
  List.mem_map.mpr ⟨(m, i), List.mem_filter.mpr ⟨hm, by simpa using Ne.symm hi⟩, rfl⟩

/-- A member of a union is no larger than the union. -/
theorem exists_member_size {union : String} {u : UnionType} {m : UnionMember} {n : Int}
    (hn : s.HasSize known union n) (hu : (s.lookup? union).bind TypeEntry.union? = some u)
    (hm : m ∈ u.present) : ∃ e c, s.HasSize known m.typeName e ∧ s.HasMemberCount known m c ∧
      e * c ≤ n := by
  obtain ⟨sizes, hsizes, rfl⟩ := hn.union hu
  obtain ⟨size, hsize, e, c, he, hc, rfl⟩ := exists_of_forall₂ hsizes.flip hm
  exact ⟨e, c, he, hc, (le_foldl_max sizes 0).2 _ hsize⟩

/-- A value of the type of a member is no longer than the union, if members are single values. -/
theorem length_le_of_member {union : String} {u : UnionType} {m : UnionMember} {n : Int}
    (hn : s.HasSize known union n) (hu : (s.lookup? union).bind TypeEntry.union? = some u)
    (hm : m ∈ u.present) (hsingle : m.arraySize = none)
    (hb : MemberBytes s nested m.typeName v bytes)
    (hnested : ∀ size, s.isRecord m.typeName = true → nested m.typeName v bytes →
      s.HasSize known m.typeName size → (bytes.length : Int) ≤ size) :
    (bytes.length : Int) ≤ n := by
  obtain ⟨e, c, he, hc, hle⟩ := exists_member_size hn hu hm
  unfold Schema.HasMemberCount Schema.MemberCountOf at hc
  rw [hsingle] at hc
  have hc : c = 1 := hc
  rw [hc, Int.mul_one] at hle
  refine Int.le_trans ?_ hle
  cases hb with
  | record hr h => exact hnested e hr h he
  | scalar _ hscalar _ hb => exact Int.le_of_eq (length_eq_size hb hscalar he)

theorem byteCount?_eq_some {size : Nat} {c : Int} {n : Nat} (h : byteCount? size c = some n) :
    (n : Int) = Schema.sizeWord size * c := by
  unfold byteCount? at h
  cases hproduct : checkedWord (Schema.sizeWord size * c) with
  | none =>
    rw [hproduct] at h
    cases h
  | some m =>
    rw [hproduct] at h
    simp only [Option.bind_eq_bind, Option.bind_some, Option.ite_none_left_eq_some,
      Option.some.injEq] at h
    rw [← Schema.checkedWord_eq hproduct, ← h.2]
    exact Int.toNat_of_nonneg (Int.not_lt.mp h.1)

/-- The size of a member that is an array of bytes. -/
theorem exists_of_memberBytes (hc : s.Complete known) (h : s.Remembers (· = known))
    {m : UnionMember} {failure : Error} {count : Nat} {k' : Known}
    (hy : Yields (memberBytes s m failure) known count k') :
    ∃ e c, s.HasSize known m.typeName e ∧ s.HasMemberCount known m c ∧ (count : Int) = e * c := by
  have sized : ∀ {size : Nat} {c : Int} {k : Known}, Yields (s.wireSize m.typeName) known size k →
      byteCount? size c = some count → s.HasMemberCount known m c → ∃ e c,
        s.HasSize known m.typeName e ∧ s.HasMemberCount known m c ∧ (count : Int) = e * c := by
    intro size c k hsize hn hcount
    refine ⟨size, c, Schema.hasSize_of_wireSize hc hsize, hcount, ?_⟩
    rw [byteCount?_eq_some hn, Schema.sizeWord_of_wireSize h hsize]
  unfold memberBytes at hy
  dsimp only at hy
  split at hy
  · next text htext =>
    obtain ⟨c, k₁, hcount, hy⟩ := yields_bind.mp hy
    obtain ⟨size, k₂, hsize, hy⟩ := yields_bind.mp hy
    obtain ⟨hcount, hk⟩ := (Schema.yields_evaluate hc).mp hcount
    rw [hk] at hsize
    have hmember : s.HasMemberCount known m c := by
      unfold Schema.HasMemberCount Schema.MemberCountOf
      rw [htext]
      exact hcount
    split at hy
    · next n hn =>
      obtain ⟨rfl, -⟩ := yields_pure.mp hy
      exact sized hsize hn hmember
    · exact (not_yields_throw hy).elim
  · next hnone =>
    obtain ⟨c, k₁, hcount, hy⟩ := yields_bind.mp hy
    obtain ⟨size, k₂, hsize, hy⟩ := yields_bind.mp hy
    obtain ⟨hcount, hk⟩ := yields_pure.mp hcount
    rw [hk] at hsize
    have hmember : s.HasMemberCount known m c := by
      unfold Schema.HasMemberCount Schema.MemberCountOf
      rw [hnone]
      exact hcount
    split at hy
    · next n hn =>
      obtain ⟨rfl, -⟩ := yields_pure.mp hy
      exact sized hsize hn hmember
    · exact (not_yields_throw hy).elim

end Parts

/-- The bytes of the length that a step writes before a structure. -/
def lengthBytes : Op → Nat
  | .sized c _ => c.size
  | _ => 0

section Steps

variable {s : Schema} {known : Known} (hm : s.Measured known)

include hm

/-- An array of bytes that a selector chooses is no longer than its union. -/
theorem selectedLength_le {union : String} {n size : Int} {count : Nat}
    (hy : Yields (selectedLength s union n) known (some count) known)
    (hsize : s.HasSize known union size) : (count : Int) ≤ size := by
  obtain ⟨u, m, i, failure, hu, hchooses, hbytes⟩ := exists_of_selectedLength hm.remembers hy
  have hmem := (mem_of_chooses hchooses).1
  obtain ⟨e, c, he, hc, hcount⟩ := exists_of_memberBytes hm.complete hm.remembers hbytes
  rw [hcount]
  by_cases habsent : u.nullMember = some i
  · rw [hm.absent union u i m hu habsent (List.mem_zipIdx_iff_getElem?.mp hmem) e he, Int.zero_mul]
    exact hm.nonneg hsize
  · obtain ⟨e', c', he', hc', hle⟩ := exists_member_size hsize hu (mem_present hmem habsent)
    rw [he.unique he', hc.unique hc']
    exact hle

/-- What an array field writes is no longer than its size. -/
theorem length_le_of_array {type : String} {fields : List Field} {f : Field} {element : Element}
    {length : ArrayLength} {isData : Bool} {nested : String → Value → List UInt8 → Prop}
    {locals : Locals} {v : Value} {count : Nat} {required : Option Nat} {bytes : List UInt8}
    {n : Int}
    (hstep : Yields (stepOf s type fields f) known (some (.array element length, isData)) known)
    (hn : s.HasFieldSize known f n) (hcount : v.length? = some count)
    (hreq : Required s known locals length required) (heq : ∀ n, required = some n → n = count)
    (hmax : WithinMaximum s known f count) (hb : ElementBytes nested element v bytes)
    (hnested : ∀ inner items x part m, element = .object inner → v = .list items → x ∈ items →
      nested inner x part → s.HasSize known inner m → (part.length : Int) ≤ m) :
    (bytes.length : Int) ≤ n := by
  obtain ⟨e, c, he, hc, rfl⟩ := hn
  have elements : ∀ {owner : String}, elementOf s owner f = .ok element → (count : Int) ≤ c →
      (bytes.length : Int) ≤ e * c := fun helement hle =>
    Int.le_trans (length_le_of_elements hb hcount helement he hnested)
      (Int.mul_le_mul_of_nonneg_left hle (hm.nonneg he))
  -- A counted array and one without an end are no longer than their domains allow.
  have bounded : Schema.countText? f = some f.domain.maximum? → (count : Int) ≤ c := by
    intro htext
    obtain ⟨text, hmaximum, hvalue⟩ := hc.eq_of_yields hm.complete htext
    obtain ⟨maximum, hy, hle⟩ := hmax text hmaximum
    rwa [hvalue maximum hy]
  obtain ⟨-, htravels⟩ := travels_of_stepOf hstep
  cases htravels with
  | counted hmarshal _ helement =>
    exact elements helement (bounded (by unfold Schema.countText?; rw [hmarshal]))
  | rest hmarshal helement =>
    exact elements helement (bounded (by unfold Schema.countText?; rw [hmarshal]))
  | fixed hmarshal helement =>
    obtain ⟨-, text, value, htext, hy, hlength⟩ := exists_text_of_fixed hm.remembers hstep
    have hcountText : Schema.countText? f = some f.arraySize := by
      unfold Schema.countText?
      rw [hmarshal]
    obtain ⟨text', htext', hvalue⟩ := hc.eq_of_yields hm.complete hcountText
    cases htext.symm.trans htext'
    cases hreq
    refine elements helement (Int.le_of_eq ?_)
    rw [hvalue value hy, ← hlength, heq _ rfl]
  | selected hmarshal =>
    have hone : c = 1 := hc.eq_one (by unfold Schema.countText?; rw [hmarshal])
    cases hreq with
    | selected _ hlength =>
      have hbytes := length_le_of_items (e := 1) hb hcount (fun _ => rfl)
        fun _ _ x _ part hpart => Int.le_of_eq (congrArg Nat.cast (length_of_byteItem hpart))
      rw [heq _ rfl] at hlength
      rw [hone, Int.mul_one]
      rw [Int.one_mul] at hbytes
      exact Int.le_trans hbytes (selectedLength_le hm hlength he)

/-- What a step writes is no longer than its field, but for the length of a sized structure. -/
theorem length_le_of_writes {type : String} {steps all : List Step} {fields : List Field}
    {entries : List (String × Value)} {locals locals' : Locals} {st : Step}
    {nested : String → Value → List UInt8 → Prop} {bytes : List UInt8} {n : Int}
    (hlayout : Yields (layout s type) known steps known) (hfields : s.allFields type = .ok fields)
    (hst : st ∈ steps)
    (hw : Writes s known nested all entries locals st.field st.op bytes locals')
    (hn : s.HasFieldSize known st.field n)
    (hunions : ∀ union tag, st.op = .union union tag → ∀ w,
      entries.lookup st.field.name = some w →
        w = .null ∨ ∃ u, (s.lookup? union).bind TypeEntry.union? = some u ∧ NamesMember u w)
    (hnested : ∀ w, entries.lookup st.field.name = some w → ∀ inner x,
      Inside s st.op w inner x → ∀ part m, nested inner x part → s.HasSize known inner m →
        (part.length : Int) ≤ m) : (bytes.length : Int) ≤ n + lengthBytes st.op := by
  obtain ⟨hf, hstep⟩ := yields_stepOf_of_mem hm.remembers hlayout hfields hst
  obtain ⟨-, htravels⟩ := travels_of_stepOf hstep
  have hpos : 0 ≤ n := hn.nonneg hm.complete hm.counts hm.standard hfields hf
  have hsize := hn
  obtain ⟨e, c, he, hc, rfl⟩ := hn
  obtain ⟨f, op, isData⟩ := st
  dsimp only at *
  have single : Schema.countText? f = none → (bytes.length : Int) ≤ e →
      (bytes.length : Int) ≤ e * c := by
    intro hnone hle
    rwa [hc.eq_one hnone, Int.mul_one]
  have number : ∀ {scalar : Scalar} {m : Int}, Schema.countText? f = none →
      s.scalar? f.typeName = some scalar → NumberBytes scalar m bytes →
        (bytes.length : Int) ≤ e * c + 0 :=
    fun hnone hscalar hb => by
      rw [Int.add_zero]
      exact single hnone (Int.le_of_eq (length_eq_size hb hscalar he))
  cases hw with
  | scalar _ _ hb =>
    cases htravels with
    | scalar hmarshal hscalar =>
      exact number (by rcases hmarshal with h | h <;> unfold Schema.countText? <;> rw [h])
        hscalar hb
  | constant _ hb =>
    cases htravels with
    | constant hmarshal hscalar =>
      exact number (by unfold Schema.countText?; rw [hmarshal]) hscalar hb
  | count hb =>
    obtain ⟨hmarshal, -, hscalar⟩ := htravels.count_inv
    exact number (by unfold Schema.countText?; rw [hmarshal]) hscalar hb
  | given _ _ hb | derived _ _ _ hb =>
    obtain ⟨hmarshal, -, -, hscalar⟩ := htravels.selector_inv
    exact number (by unfold Schema.countText?; rw [hmarshal]) hscalar hb
  | object hv h =>
    cases htravels with
    | object hmarshal ht =>
      rw [show lengthBytes (.object _) = 0 from rfl, Nat.cast_zero, Int.add_zero]
      exact single (by unfold Schema.countText?; rw [hmarshal])
        (hnested _ hv _ _ .object _ _ h (hasSize_objectName he ht))
  | array hv hcount hreq heq hmax h =>
    rw [show lengthBytes (.array _ _) = 0 from rfl, Nat.cast_zero, Int.add_zero]
    refine length_le_of_array hm hstep hsize hcount hreq heq hmax h ?_
    rintro inner items x part m rfl rfl hx
    exact hnested _ hv inner x (.element hx) part m
  | @sized c' _ _ body size hv h hb =>
    obtain ⟨hmarshal, ht, -⟩ := exists_tag_of_sized hstep
    have hbody := hnested _ hv _ _ .sized _ _ h (hasSize_objectName he ht)
    rw [hc.eq_one (by unfold Schema.countText?; rw [hmarshal]), Int.mul_one, List.length_append,
      hb.length_eq, Nat.cast_add, Int.add_comm]
    exact Int.add_le_add_right hbody _
  | absent => exact Int.add_nonneg hpos (Int.natCast_nonneg _)
  | held hv h =>
    obtain ⟨hmarshal, -, rfl⟩ := htravels.union_inv
    rw [show lengthBytes (.union _ _) = 0 from rfl, Nat.cast_zero, Int.add_zero]
    refine single (by unfold Schema.countText?; rw [hmarshal]) ?_
    obtain hnull | ⟨u, hu, hnames⟩ := hunions _ _ rfl _ hv
    · cases hnull
    cases hnames with
    | named hmem hi =>
      have hpresent := mem_present hmem hi
      obtain ⟨t, ht, r, hr, hfr⟩ := Schema.exists_of_mem_collectFields hfields hf
      refine length_le_of_member he hu hpresent
        (hm.single _ _ ⟨t, ht, r, hr, f, hfr, hmarshal, rfl⟩ hu _ hpresent) h ?_
      exact fun size hrecord h => hnested _ hv _ _ (.member hrecord) _ _ h

end Steps

/-- The field with the length of the structure that a step writes. -/
def lengthField? (fields : List Field) (st : Step) : Option Field :=
  match st.op with
  | .sized .. => st.field.partner.bind fun tag => fields.find? (·.name == tag)
  | _ => none

section Sums

variable {fields : List Field} {steps : List Step}

theorem of_lengthField? {st : Step} {g : Field} (h : lengthField? fields st = some g) :
    g ∈ fields ∧ st.field.partner = some g.name := by
  unfold lengthField? at h
  split at h
  · obtain ⟨tag, htag, hg⟩ := Option.bind_eq_some_iff.mp h
    have hname : g.name = tag := by simpa using List.find?_some hg
    exact ⟨List.mem_of_find?_eq_some hg, by rw [htag, hname]⟩
  · cases h

/-- No two steps have their lengths in the same field. -/
theorem nodup_lengthFields (hpaired : SizesPaired fields)
    (hmap : steps.map (·.field) = fields.filter (·.marshal != .bodySize))
    (hlength : ∀ st ∈ steps, ∀ g, lengthField? fields st = some g → g.marshal = .bodySize) :
    (steps.filterMap (lengthField? fields)).Nodup := by
  refine List.nodup_iff_count_le_one.mpr fun g => ?_
  by_cases hg : g ∈ steps.filterMap (lengthField? fields)
  · obtain ⟨st, hst, hstg⟩ := List.mem_filterMap.mp hg
    calc (steps.filterMap (lengthField? fields)).count g
        = steps.countP (fun st => lengthField? fields st == some g) := by
          rw [List.count, List.countP_filterMap]
          refine List.countP_congr fun st _ => ?_
          cases lengthField? fields st <;> simp
      _ ≤ steps.countP (fun st => st.field.partner == some g.name) := by
          refine List.countP_mono_left fun st _ h => ?_
          rw [(of_lengthField? (by simpa using h)).2]
          exact beq_self_eq_true _
      _ = (steps.map (·.field)).countP (·.partner == some g.name) := by
          rw [List.countP_map]
          rfl
      _ ≤ fields.countP (·.partner == some g.name) := by
          rw [hmap]
          exact List.filter_sublist.countP_le
      _ ≤ 1 := by
          rw [List.countP_eq_length_filter]
          exact Nat.le_of_eq (hpaired.once g (of_lengthField? hstg).1 (hlength st hst g hstg))
  · rw [List.count_eq_zero_of_not_mem hg]
    exact Nat.zero_le 1

/-- The sizes of the fields with lengths are sizes of fields without steps. -/
theorem sum_steps_le (hpaired : SizesPaired fields)
    (hmap : steps.map (·.field) = fields.filter (·.marshal != .bodySize)) {size : Field → Int}
    (hpos : ∀ f ∈ fields, 0 ≤ size f)
    (hlength : ∀ st ∈ steps, ∀ g, lengthField? fields st = some g →
      g.marshal = .bodySize ∧ size g = lengthBytes st.op)
    (hnone : ∀ st ∈ steps, lengthField? fields st = none → lengthBytes st.op = 0) :
    (steps.map fun st => size st.field + lengthBytes st.op).sum ≤ (fields.map size).sum := by
  have hsizes : ∀ rest : List Step, (∀ st ∈ rest, st ∈ steps) →
      (rest.map fun st => (lengthBytes st.op : Int)).sum =
        ((rest.filterMap (lengthField? fields)).map size).sum := by
    intro rest hrest
    induction rest with
    | nil => rfl
    | cons st rest ih =>
      have ih := ih fun st' hst' => hrest st' (List.mem_cons_of_mem _ hst')
      have hst := hrest st List.mem_cons_self
      rw [List.map_cons, List.sum_cons, ih]
      cases hg : lengthField? fields st with
      | none =>
        rw [List.filterMap_cons_none hg, hnone st hst hg, Nat.cast_zero, Int.zero_add]
      | some g =>
        rw [List.filterMap_cons_some hg, List.map_cons, List.sum_cons, (hlength st hst g hg).2]
  have hsub : (steps.filterMap (lengthField? fields)).Subperm
      (fields.filter fun f => !(f.marshal != .bodySize)) := by
    refine List.subperm_of_subset
      (nodup_lengthFields hpaired hmap fun st hst g hg => (hlength st hst g hg).1) fun g hg => ?_
    obtain ⟨st, hst, hstg⟩ := List.mem_filterMap.mp hg
    exact List.mem_filter.mpr
      ⟨(of_lengthField? hstg).1, by simp [(hlength st hst g hstg).1]⟩
  obtain ⟨picked, hperm, hpicked⟩ := hsub
  calc (steps.map fun st => size st.field + lengthBytes st.op).sum
      = ((steps.map (·.field)).map size).sum +
          ((steps.filterMap (lengthField? fields)).map size).sum := by
        rw [List.sum_map_add, hsizes steps fun _ h => h, List.map_map]
        rfl
    _ ≤ ((fields.filter (·.marshal != .bodySize)).map size).sum +
          ((fields.filter fun f => !(f.marshal != .bodySize)).map size).sum := by
        rw [hmap, ← (hperm.map size).sum_eq]
        refine Int.add_le_add_left ((hpicked.map size).sum_le_sum fun n hn => ?_) _
        obtain ⟨f, hf, rfl⟩ := List.mem_map.mp hn
        exact hpos f (List.mem_filter.mp hf).1
    _ = (fields.map size).sum := by
        rw [← List.sum_append, ← List.map_append]
        exact ((List.filter_append_perm _ _).map size).sum_eq

end Sums

/-- The length of a sized structure is a field of this size. -/
theorem lengthField_of_mem {s : Schema} {known : Known} (hm : s.Measured known) {type : String}
    {fields : List Field} (hpaired : SizesPaired fields) {st : Step} (hf : st.field ∈ fields)
    (hstep : Yields (stepOf s type fields st.field) known (some (st.op, st.isData)) known) :
    (∀ g, lengthField? fields st = some g →
      g.marshal = .bodySize ∧ ∀ n, s.HasFieldSize known g n → n = lengthBytes st.op) ∧
      (lengthField? fields st = none → lengthBytes st.op = 0) := by
  unfold lengthField? lengthBytes
  split
  · next c inner hop =>
    rw [hop] at hstep
    obtain ⟨hmarshal, -, tag, g, htag, hg, hscalar⟩ := exists_tag_of_sized hstep
    obtain ⟨tag', g', htag', hg', hsize⟩ := hpaired.tag st.field hf hmarshal
    cases htag.symm.trans htag'
    cases hg.symm.trans hg'
    rw [htag, Option.bind_some, hg]
    refine ⟨?_, nofun⟩
    rintro _ ⟨⟩
    refine ⟨hsize, fun n hn => ?_⟩
    obtain ⟨e, count, he, hcount, rfl⟩ := hn
    rw [hcount.eq_one (by unfold Schema.countText?; rw [hsize]), Int.mul_one, he.scalar hscalar,
      Schema.sizeWord_eq (Schema.standard_of_scalar? hm.standard hscalar).1]
  · exact ⟨fun g hg => (Option.some_ne_none g hg.symm).elim, fun _ => rfl⟩

/-- The bytes of steps are no more than the bounds of all steps together. -/
theorem length_le_of_writesAll {s : Schema} {known : Known}
    {nested : String → Value → List UInt8 → Prop} {all steps : List Step}
    {tail : Option (String × Int)} {entries : List (String × Value)} {locals : Locals}
    {bytes : List UInt8} {bound : Step → Int}
    (h : WritesAll s known nested all tail entries locals steps bytes)
    (hpos : ∀ st ∈ steps, 0 ≤ bound st)
    (hbound : ∀ st ∈ steps, ∀ locals bytes locals',
      Writes s known nested all entries locals st.field st.op bytes locals' →
        (bytes.length : Int) ≤ bound st) :
    (bytes.length : Int) ≤ (steps.map bound).sum := by
  induction h with
  | done => exact Int.le_refl 0
  | @last locals locals' step rest bytes hw =>
    rw [List.map_cons, List.sum_cons]
    have hrest : 0 ≤ (rest.map bound).sum := List.sum_nonneg fun n hn => by
      obtain ⟨st, hst, rfl⟩ := List.mem_map.mp hn
      exact hpos st (List.mem_cons_of_mem _ hst)
    have hfirst := hbound step List.mem_cons_self _ _ _ hw
    omega
  | @more locals locals' step rest bytes others hw _ _ ih =>
    rw [List.map_cons, List.sum_cons, List.length_append, Nat.cast_add]
    exact Int.add_le_add (hbound step List.mem_cons_self _ _ _ hw)
      (ih (fun st hst => hpos st (List.mem_cons_of_mem _ hst))
        fun st hst => hbound st (List.mem_cons_of_mem _ hst))

/-- The bytes of a structure are no more than its size. -/
theorem length_le_of_encodes {s : Schema} {known : Known} (hm : s.Measured known)
    (hpaired : ∀ type fields, s.allFields type = .ok fields → SizesPaired fields) {levels : Nat}
    {type : String} {v : Value} {bytes : List UInt8} {n : Int}
    (h : Encodes s known levels type v bytes) (hv : HoldsMembers s known type v)
    (hn : s.HasSize known type n) : (bytes.length : Int) ≤ n := by
  induction levels generalizing type v bytes n with
  | zero => exact (not_yields_throw h).elim
  | succ levels ih =>
    obtain ⟨entries, steps, tail, rfl, hplan, hall⟩ := (encodes_succ hm.remembers).mp h
    obtain ⟨fields, hfields, hmap, -⟩ := steps_of_layout hplan.layout
    obtain ⟨sizes, hsizes, rfl⟩ := hn.fields hfields
    have hexists : ∀ f ∈ fields, ∃ m, s.HasFieldSize known f m := fun f hf => by
      obtain ⟨m, -, hm⟩ := exists_of_forall₂ hsizes.flip hf
      exact ⟨m, hm⟩
    choose! size hsize using hexists
    have hsum : sizes = fields.map size :=
      forall₂_unique (fun f _ m m' hm hm' => hm.unique hm') hsizes
        (List.forall₂_map_right_iff.mpr (List.forall₂_same.mpr hsize))
    have hpos : ∀ f ∈ fields, 0 ≤ size f := fun f hf =>
      (hsize f hf).nonneg hm.complete hm.counts hm.standard hfields hf
    have hstep : ∀ st ∈ steps, st.field ∈ fields ∧
        Yields (stepOf s type fields st.field) known (some (st.op, st.isData)) known :=
      fun st hst => yields_stepOf_of_mem hm.remembers hplan.layout hfields hst
    cases hv with
    | struct hunions hinside =>
      rw [hsum]
      have hpaired := hpaired type fields hfields
      have hlength := fun st hst => lengthField_of_mem hm hpaired (hstep st hst).1 (hstep st hst).2
      refine Int.le_trans (length_le_of_writesAll hall (fun st hst => ?_)
        fun st hst locals bytes locals' hw => ?_)
        (sum_steps_le hpaired hmap hpos (fun st hst g hg => ?_) fun st hst => (hlength st hst).2)
      · exact Int.add_nonneg (hpos _ (hstep st hst).1) (Int.natCast_nonneg _)
      · exact length_le_of_writes hm hplan.layout hfields hst hw (hsize _ (hstep st hst).1)
          (hunions steps tail hplan st hst) fun w hw inner x hx part m hpart hm =>
            ih hpart (hinside steps tail hplan st hst w hw inner x hx) hm
      · obtain ⟨hmarshal, hbytes⟩ := (hlength st hst).1 g hg
        exact ⟨hmarshal, hbytes _ (hsize g (of_lengthField? hg).1)⟩

end Wire

end WireTables
