import Mathlib.Data.List.Nodup
import WireTables.Proofs.Wire.Acceptance
import WireTables.Proofs.Wire.Depth
import WireTables.Proofs.Wire.ReadBack

/-!
# From values to bytes and back

Decoding the bytes of a value succeeds when all its structures are `Decided` (`decodes_of_encodes`).
The two values are related by whatever relation follows from their entries, so the same induction
serves for the values as a whole and for what is known of their unions only.

A selector that is not given is determined by the value of one union-typed field, and that value
stands for the member that the selector chooses (`chosenBy_of_derived`). Nothing makes sure of this
for a selector that is given, and for the other fields under the same selector; where the value is
`Consistent` in these places as well, decoding finds the `SameUnions` again.
-/

namespace WireTables.Wire

/-- No field of the structure takes the rest of its region. -/
def Closed (s : Schema) (known : Known) (type : String) : Prop :=
  ∀ steps tail, Plan s known type steps tail → ∀ st ∈ steps, ∀ element, st.op ≠ .array element .rest

section Decode

variable {s : Schema} {known k' : Known} {type : String} {v : Value} {bytes : List UInt8}

/-- Bytes are decoded to what is read from them if that takes all of them. -/
theorem yields_decode_iff_decodeAt : Yields (decode s type bytes) known v k' ↔ ∃ r',
    Yields (decodeAt s (levels s bytes.length) type) ⟨bytes, 0, known⟩ v r' ∧
      r'.position = bytes.length ∧ r'.known = k' := by
  have heq : Id.run ((decode s type bytes).run known) =
      match Id.run ((decodeAt s (levels s bytes.length) type).run ⟨bytes, 0, known⟩) with
      | (result, r) => (result.bind fun v => if r.position == bytes.length then .ok v
          else .error (.length (.trailing type (bytes.length - r.position))), r.known) := rfl
  unfold Yields
  rw [heq]
  rcases Id.run ((decodeAt s (levels s bytes.length) type).run ⟨bytes, 0, known⟩) with
    ⟨result, r⟩
  cases result with
  | error e => simp [Except.bind]
  | ok w => by_cases hposition : r.position = bytes.length <;> simp [Except.bind, hposition]

/-- Bytes are decoded to the value that is read from them if nothing is left. -/
theorem yields_decode (h : s.Remembers (· = known)) :
    Yields (decode s type bytes) known v k' ↔ k' = known ∧
      Decodes s known (levels s bytes.length) type ⟨bytes, 0, known⟩ v
        ⟨[], bytes.length, known⟩ := by
  rw [yields_decode_iff_decodeAt]
  constructor
  · rintro ⟨r', hread, hposition, rfl⟩
    have hread : Decodes s known (levels s bytes.length) type ⟨bytes, 0, known⟩ v r' := ⟨rfl, hread⟩
    obtain ⟨taken, ht⟩ := takes_of_decodes h hread
    have hknown : r'.known = known := ht.known
    have hleft : r'.left = [] := by
      have hlen := ht.end_eq
      rw [← List.length_eq_zero_iff]
      simp only [hposition, Nat.zero_add] at hlen
      omega
    refine ⟨hknown, ?_⟩
    rwa [show r' = ⟨[], bytes.length, known⟩ by rw [← hleft, ← hposition, ← hknown]] at hread
  · rintro ⟨rfl, -, hread⟩
    exact ⟨_, hread, rfl, rfl⟩

end Decode

section Levels

variable {s : Schema} {known : Known} (h : s.Remembers (· = known))

include h

/-- The bytes of a value are read as a value with entries of the same shape. -/
theorem decodes_of_encodes {R : String → Value → Value → Prop} {levels : Nat} {type : String}
    {v : Value} {bytes : List UInt8} {r r' : Reader} (hw : Encodes s known levels type v bytes)
    (ht : Takes bytes r r') (hr : Stable known r) (hopen : r'.left = [] ∨ Closed s known type)
    (hsound : ∀ inner steps tail, Reaches s known type inner → Plan s known inner steps tail →
      SoundPlan s steps tail ∧ Regular s known steps ∧ ∀ st ∈ steps, ∀ next, st.op.Holds s next →
        (∃ c, st.op = .sized c next) ∨ Closed s known next)
    (hdecided : ∀ inner fields steps tail, Reaches s known type inner →
      Part s known type v inner (.struct fields) → Plan s known inner steps tail →
        Decided s known steps tail fields)
    (hrel : ∀ inner fields steps tail entries, Reaches s known type inner →
      Part s known type v inner (.struct fields) → Plan s known inner steps tail →
        EntriesMatch s R fields (written tail fields steps) entries →
          R inner (.struct fields) (.struct entries)) :
    ∃ w, Decodes s known levels type r w r' ∧ R type v w := by
  induction levels generalizing type v bytes r r' with
  | zero => exact (not_yields_throw hw).elim
  | succ levels ih =>
    obtain ⟨fields, steps, tail, rfl, hplan, hw⟩ := (encodes_succ h).mp hw
    obtain ⟨hsteps, hregular, hholds⟩ := hsound type steps tail .refl hplan
    obtain ⟨entries, hread, hall⟩ : ∃ entries,
        ReadsAll s known (Decodes s known levels) tail [] steps r entries r' ∧
          EntriesMatch s R fields (written tail fields steps) entries :=
      readsAll_of_writesAll h hsteps hregular (hdecided type fields steps tail .refl .refl hplan)
      (fun _ _ _ => struct_of_encodes h) (List.nil_append steps).symm hw ht hr (fun _ _ => rfl)
      (fun _ _ => rfl) (fun _ hst => (List.not_mem_nil hst).elim) (fun _ hst => hst)
      (hopen.imp_right fun hclosed => hclosed steps tail hplan)
      (fun st hst next hnext w hlookup x hx body r₁ r₁' hbody ht₁ hr₁ hend => by
        have hreach : Reaches s known type next :=
          .step hplan (mem_of_mem_written hst) hnext .refl
        refine ih hbody ht₁ hr₁ ?_ (fun U steps tail hU => hsound U steps tail (hreach.trans hU))
          (fun U g steps tail hU hpart => hdecided U g steps tail (hreach.trans hU)
            (.step hplan hst hlookup hx hpart))
          fun U g steps tail entries hU hpart => hrel U g steps tail entries (hreach.trans hU)
            (.step hplan hst hlookup hx hpart)
        rcases hend with hend | hnot
        · exact .inl hend
        · rcases hholds st (mem_of_mem_written hst) next hnext with ⟨c, hop⟩ | hclosed
          · exact (hnot c hop).elim
          · exact .inr hclosed)
    refine ⟨.struct entries,
      (decodes_succ h).mpr ⟨hr.known, steps, tail, entries, hplan, hread, ?_⟩,
      hrel type fields steps tail entries .refl .refl hplan hall⟩
    rw [putFields_of_readsAll hread hsteps.linked.names]

/-- The bytes that a value is encoded in are decoded. -/
theorem decode_of_encode {R : String → Value → Value → Prop} {type : String} {v : Value}
    {bytes : List UInt8} {k' : Known} (hw : Yields (encode s type v) known bytes k')
    (hlength : bytes.length < 0x8000000000000000)
    (hsound : ∀ inner steps tail, Reaches s known type inner → Plan s known inner steps tail →
      SoundPlan s steps tail ∧ Regular s known steps ∧ ∀ st ∈ steps, ∀ next, st.op.Holds s next →
        (∃ c, st.op = .sized c next) ∨ Closed s known next)
    (hdecided : ∀ inner fields steps tail, Reaches s known type inner →
      Part s known type v inner (.struct fields) → Plan s known inner steps tail →
        Decided s known steps tail fields)
    (hrel : ∀ inner fields steps tail entries, Reaches s known type inner →
      Part s known type v inner (.struct fields) → Plan s known inner steps tail →
        EntriesMatch s R fields (written tail fields steps) entries →
          R inner (.struct fields) (.struct entries)) :
    ∃ w, Yields (decode s type bytes) known w known ∧ R type v w := by
  have ht : Takes bytes ⟨bytes, 0, known⟩ ⟨[], bytes.length, known⟩ :=
    ⟨(List.append_nil bytes).symm, (Nat.zero_add _).symm, rfl⟩
  have hr : Stable known ⟨bytes, 0, known⟩ := ⟨rfl, by rwa [Nat.zero_add]⟩
  obtain ⟨w, hread, hsame⟩ := decodes_of_encodes h ((yields_encodeAt h).mp hw).1 ht hr (.inl rfl)
    hsound hdecided hrel
  exact ⟨w, (yields_decode h).mpr ⟨rfl, decodes_levels h hread⟩, hsame⟩

end Levels

/-- A union value is absent or names a member other than the absent one. -/
inductive NamesMember (u : UnionType) : Value → Prop
  | absent : NamesMember u .null
  | named {m i v} (hm : (m, i) ∈ u.members.zipIdx) (hi : u.nullMember ≠ some i) :
    NamesMember u (.union m.typeName v)

variable {s : Schema} {known : Known}

section Members

/-- Members with the same selector are the same member. -/
theorem index_eq_of_distinct {u : UnionType} (hdistinct : DistinctSelectors s known u) {i i' : Nat}
    {m m' : UnionMember} (hm : u.members[i]? = some m) (hm' : u.members[i']? = some m')
    (heq : m.selector = m'.selector) : i = i' := by
  obtain ⟨values, hnodup, hall⟩ := hdistinct
  obtain ⟨hlen, hget⟩ := List.forall₂_iff_get.mp hall
  obtain ⟨hi, hm⟩ := List.getElem?_eq_some_iff.mp hm
  obtain ⟨hi', hm'⟩ := List.getElem?_eq_some_iff.mp hm'
  have h₁ := hget i hi (hlen ▸ hi)
  have h₂ := hget i' hi' (hlen ▸ hi')
  simp only [List.get_eq_getElem, hm, hm'] at h₁ h₂
  rw [heq] at h₁
  exact (List.Nodup.getElem_inj_iff hnodup).mp (h₁.unique h₂).1

/-- A union value stands for the member that it names. -/
theorem stands_of_namesMember {u : UnionType} {m : UnionMember} {v : Value}
    (hnames : NamesMember u v) (hdistinct : DistinctSelectors s known u)
    (hmembers : ∀ m ∈ u.members, ∀ m' ∈ u.members, m.typeName = m'.typeName →
      m.selector = m'.selector) (hm : memberHolding? u v = some m) :
    ∃ i, u.members[i]? = some m ∧ Stands u m i v := by
  cases hnames with
  | absent =>
    obtain ⟨i, hi, hget⟩ := Option.bind_eq_some_iff.mp hm
    refine ⟨i, hget, ?_⟩
    unfold Stands
    rw [if_pos hi]
  | @named m' i' x hm' hi' =>
    have hfind : u.members.find? (·.typeName == m'.typeName) = some m := hm
    have hmem := List.mem_of_find?_eq_some hfind
    have hname : m.typeName = m'.typeName := by simpa using List.find?_some hfind
    obtain ⟨i, hi⟩ := List.mem_iff_getElem?.mp hmem
    have hm' := List.mem_zipIdx_iff_getElem?.mp hm'
    have hselector := hmembers m hmem m' (List.mem_of_getElem? hm') hname
    obtain rfl := index_eq_of_distinct hdistinct hi hm' hselector
    refine ⟨i, hi, ?_⟩
    unfold Stands
    rw [if_neg hi', hname]
    exact ⟨x, rfl⟩

end Members

section Steps

variable {steps : List Step} {tail : Option (String × Int)} {fields : List (String × Value)}

/-- Steps with the same name are the same step. -/
theorem SoundPlan.step_eq (hsound : SoundPlan s steps tail) {st st' : Step} (hst : st ∈ steps)
    (hst' : st' ∈ steps) (hname : st.field.name = st'.field.name) : st = st' :=
  List.inj_on_of_nodup_map hsound.linked.names hst hst' hname

/-- The step of the selector of a union. -/
theorem SoundPlan.selector_of_union (hsound : SoundPlan s steps tail) {st : Step}
    (hst : st ∈ steps) {union tag : String} (hop : st.op = .union union tag) :
    ∃ st' ∈ steps, st'.field.name = tag ∧ ∃ c object, st'.op = .selector c object true := by
  obtain ⟨pre, post, hsplit⟩ := List.append_of_mem hst
  obtain ⟨st', hst', hselector⟩ := hsound.linked.union pre st post hsplit _ _ hop
  refine ⟨st', ?_, hselector⟩
  rw [hsplit]
  exact List.mem_append_left _ hst'

/-- The number of a selector that is not given chooses the member that its own union names. -/
theorem chosenBy_of_derived (hsound : SoundPlan s steps tail) (hregular : Regular s known steps)
    {st st' : Step} (hst : st ∈ steps) {union tag : String} (hop : st.op = .union union tag)
    {c : Scalar} {v : Value} (hop' : st'.op = .selector c st.field.name true)
    (hv : fields.lookup st.field.name = some v) (hnone : fields.lookup st'.field.name = none)
    (hnames : ∀ u, (s.lookup? union).bind TypeEntry.union? = some u → NamesMember u v) {n : Int}
    (hn : SelectorIs s known steps fields st' n) : ChosenBy s known union v n := by
  rcases hn with ⟨w, hw, -⟩ | ⟨-, c', object, w, hop'', hw, hderives⟩
  · cases hnone.symm.trans hw
  · cases hop'.symm.trans hop''
    cases hv.symm.trans hw
    obtain ⟨step, u, m, hfind, hu, hm, hvalue⟩ := hderives
    have hname : step.field.name = st.field.name := by simpa using List.find?_some hfind
    obtain rfl := hsound.step_eq (List.mem_of_find?_eq_some hfind) hst hname
    rw [hsound.linked.unionType _ hst _ _ hop] at hu
    obtain ⟨i, hi, hstands⟩ := stands_of_namesMember (hnames u hu)
      (hregular.distinct _ hst _ _ _ hop hu) (hsound.members _ hst _ _ _ hop hu) hm
    exact ⟨u, m, i, hu, hi, hvalue, hstands⟩

/-- The number of a selector does not come from this union: it is given, or another field
determines it. -/
def FromElsewhere (fields : List (String × Value)) (st st' : Step) : Prop :=
  fields.lookup st'.field.name ≠ none ∨ ∀ c, st'.op ≠ .selector c st.field.name true

/-- Unions are absent or name a member, and no array has more elements than memory has bytes. -/
structure Named (s : Schema) (steps : List Step) (tail : Option (String × Int))
    (fields : List (String × Value)) : Prop where
  members : ∀ st ∈ written tail fields steps, ∀ union tag, st.op = .union union tag →
    ∀ v, fields.lookup st.field.name = some v →
      ∃ u, (s.lookup? union).bind TypeEntry.union? = some u ∧ NamesMember u v
  lengths : ∀ name v count, fields.lookup name = some v → v.length? = some count →
    count < 0x8000000000000000

/-- Unions are chosen by their selectors also where the selectors come from elsewhere. -/
def Consistent (s : Schema) (known : Known) (steps : List Step) (tail : Option (String × Int))
    (fields : List (String × Value)) : Prop :=
  ∀ st ∈ written tail fields steps, ∀ union tag, st.op = .union union tag →
    ∀ v, fields.lookup st.field.name = some v → ∀ st' ∈ steps, st'.field.name = tag →
      FromElsewhere fields st st' → ∀ n, SelectorIs s known steps fields st' n →
        ChosenBy s known union v n

/-- No truth value stands for a selector after which a structure may end. -/
def PlainTail (steps : List Step) (tail : Option (String × Int)) : Prop :=
  ∀ selector null, tail = some (selector, null) → ∀ st ∈ steps, st.field.name = selector →
    ∀ c, st.op = .scalar c → c.isBool = false

theorem decided_of_consistent (hsound : SoundPlan s steps tail) (hregular : Regular s known steps)
    (htail : PlainTail steps tail) (hnamed : Named s steps tail fields)
    (hconsistent : Consistent s known steps tail fields) : Decided s known steps tail fields where
  chosen := by
    intro st hst union tag hop v hv st' hst' hname n hn
    have hmem := mem_of_mem_written hst
    by_cases helsewhere : FromElsewhere fields st st'
    · exact hconsistent st hst union tag hop v hv st' hst' hname helsewhere n hn
    · unfold FromElsewhere at helsewhere
      push Not at helsewhere
      obtain ⟨hnone, c, hop'⟩ := helsewhere
      refine chosenBy_of_derived hsound hregular hmem hop hop' hv hnone (fun u hu => ?_) hn
      obtain ⟨u', hu', hnames⟩ := hnamed.members st hst union tag hop v hv
      cases hu.symm.trans hu'
      exact hnames
  ending := by
    intro selector null hend st hst hname c hop hbool
    cases (htail selector null hend st (mem_of_mem_written hst) hname c hop).symm.trans hbool
  lengths := hnamed.lengths

end Steps

section Same

/-- Two values of a structure of the same type whose unions are of the same types. -/
inductive SameUnions (s : Schema) (known : Known) : String → Value → Value → Prop
  | struct {type fields entries steps tail} (hplan : Plan s known type steps tail)
    (hpresent : ∀ st ∈ written tail fields steps, st.isData = true →
      fields.lookup st.field.name ≠ none ∧ entries.lookup st.field.name ≠ none)
    (hsame : ∀ st ∈ written tail fields steps, ∀ x y, fields.lookup st.field.name = some x →
      entries.lookup st.field.name = some y →
        Matches s (fun _ _ _ => True) (SameUnions s known) st.op x y) :
    SameUnions s known type (.struct fields) (.struct entries)

theorem Matches.imp {leaf leaf' : Scalar → Value → Value → Prop}
    {inner : String → Value → Value → Prop} (hleaf : ∀ c v w, leaf c v w → leaf' c v w) {op : Op}
    {v w : Value} (h : Matches s leaf inner op v w) : Matches s leaf' inner op v w := by
  cases h with
  | scalar h => exact .scalar (hleaf _ _ _ h)
  | selector h => exact .selector (hleaf _ _ _ h)
  | object h => exact .object h
  | sized h => exact .sized h
  | bytes => exact .bytes
  | byteItems h => exact .byteItems h
  | scalars h => exact .scalars (h.imp fun _ _ => hleaf _ _ _)
  | objects hlen h => exact .objects hlen h
  | absent => exact .absent
  | record hr h => exact .record hr h
  | member hr hc h => exact .member hr hc (hleaf _ _ _ h)

theorem sameUnions_of_entriesMatch {type : String} {steps : List Step}
    {tail : Option (String × Int)} {fields entries : List (String × Value)}
    (hplan : Plan s known type steps tail) (hsound : SoundPlan s steps tail)
    (h : EntriesMatch s (SameUnions s known) fields (written tail fields steps) entries) :
    SameUnions s known type (.struct fields) (.struct entries) := by
  refine .struct hplan (fun st hst hdata => ?_) fun st hst x y hx hy => ?_
  · obtain ⟨⟨x, hx⟩, y, hy⟩ := lookups_of_entriesMatch h hst hdata
    rw [hx, hy]
    exact ⟨nofun, nofun⟩
  · obtain ⟨st', hst', hname, x', hx', hmatch⟩ := step_of_entriesMatch h hy
    obtain rfl := hsound.step_eq (mem_of_mem_written hst') (mem_of_mem_written hst) hname
    cases hx.symm.trans hx'
    exact hmatch.imp fun _ _ _ _ => trivial

end Same

section Encoded

variable (h : s.Remembers (· = known))

include h

/-- The number of a selector is written before its unions. -/
theorem exists_selectorIs {levels : Nat} {type : String} {fields : List (String × Value)}
    {bytes : List UInt8} {steps : List Step} {tail : Option (String × Int)}
    (hw : Encodes s known levels type (.struct fields) bytes) (hplan : Plan s known type steps tail)
    (hsound : SoundPlan s steps tail) {st st' : Step} (hst : st ∈ steps) (hst' : st' ∈ steps)
    {union tag : String} (hop : st.op = .union union tag) (hname : st'.field.name = tag) :
    ∃ v n, fields.lookup st.field.name = some v ∧ SelectorIs s known steps fields st' n := by
  have htail : tail = none := by
    cases htail : tail with
    | none => rfl
    | some end_ => exact (hsound.tailUnion (by rw [htail]; rfl) st hst union tag hop).elim
  have hall : ∀ st ∈ steps, st ∈ written tail fields steps := by
    intro st hst
    rw [htail, written_none]
    exact hst
  obtain ⟨inner, hwritten⟩ := writes_written h hw hplan hsound
  obtain ⟨st₁, hst₁, hname₁, c, object, hop₁⟩ := hsound.selector_of_union hst hop
  obtain rfl := hsound.step_eq hst₁ hst' (hname₁.trans hname.symm)
  have hv : ∃ v, fields.lookup st.field.name = some v := by
    obtain ⟨_, _, _, hwrite⟩ := hwritten st (hall st hst)
    rw [hop] at hwrite
    cases hwrite with
    | absent hv | held hv => exact ⟨_, hv⟩
  obtain ⟨v, hv⟩ := hv
  obtain ⟨_, _, _, hwrite⟩ := hwritten st₁ (hall st₁ hst₁)
  rw [hop₁] at hwrite
  cases hwrite with
  | given hw hn => exact ⟨v, _, hv, .inl ⟨_, hw, hn⟩⟩
  | derived hnone hw hn => exact ⟨v, _, hv, .inr ⟨hnone, c, object, _, hop₁, hw, hn⟩⟩

/-- What is inside a value that is written is written, and inside the type. -/
theorem encodes_of_part {type inner : String} {v x : Value}
    (hpart : Part s known type v inner x) {levels : Nat} {bytes : List UInt8}
    (hw : Encodes s known levels type v bytes)
    (hsound : ∀ inner steps tail, Reaches s known type inner → Plan s known inner steps tail →
      SoundPlan s steps tail)
    (hnamed : ∀ inner fields steps tail, Part s known type v inner (.struct fields) →
      Plan s known inner steps tail → Named s steps tail fields) :
    Reaches s known type inner ∧ ∃ levels bytes, Encodes s known levels inner x bytes := by
  induction hpart generalizing levels bytes with
  | refl => exact ⟨.refl, levels, bytes, hw⟩
  | @step type fields steps tail st w next y last z hplan hst hv hy _ ih =>
    have hmem := mem_of_mem_written hst
    obtain ⟨_, hwritten⟩ := writes_written h hw hplan (hsound _ _ _ .refl hplan)
    obtain ⟨_, _, _, hwrite⟩ := hwritten st hst
    obtain ⟨_, hnext⟩ := writes_of_inside hv hwrite hy
    have hholds : st.op.Holds s next := by
      have hmembers := (hnamed _ _ _ _ .refl hplan).members st hst
      generalize st.op = op at hy hmembers
      cases hy with
      | object => exact .object
      | sized => exact .sized
      | element => exact .element
      | member hr =>
        obtain ⟨u, hu, hnames⟩ := hmembers _ _ rfl _ hv
        cases hnames with
        | named hm hi => exact .member hu hm hi hr
    have hreach : Reaches s known type next := .step hplan hmem hholds .refl
    obtain ⟨hlast, hinner⟩ := ih hnext
      (fun U steps tail hU => hsound U steps tail (hreach.trans hU))
      fun U g steps tail hU => hnamed U g steps tail (.step hplan hst hv hy hU)
    exact ⟨hreach.trans hlast, hinner⟩

/-- A union whose selector it determines itself is the one that the selector chooses; where this
is so for the other unions as well, decoding finds them again. -/
theorem unions_of_encode {type : String} {v : Value} {bytes : List UInt8} {k' : Known}
    (hw : Yields (encode s type v) known bytes k') (hlength : bytes.length < 0x8000000000000000)
    (hsound : ∀ inner steps tail, Reaches s known type inner → Plan s known inner steps tail →
      SoundPlan s steps tail ∧ Regular s known steps ∧ PlainTail steps tail ∧
        ∀ st ∈ steps, ∀ element, st.op ≠ .array element .rest)
    (hnamed : ∀ inner fields steps tail, Part s known type v inner (.struct fields) →
      Plan s known inner steps tail → Named s steps tail fields) :
    (∀ inner fields steps tail, Part s known type v inner (.struct fields) →
      Plan s known inner steps tail → ∀ st ∈ written tail fields steps, ∀ union tag,
        st.op = .union union tag → ∀ st' ∈ steps, st'.field.name = tag →
          ∃ v n, fields.lookup st.field.name = some v ∧ SelectorIs s known steps fields st' n ∧
            (¬ FromElsewhere fields st st' → ChosenBy s known union v n)) ∧
    ((∀ inner fields steps tail, Part s known type v inner (.struct fields) →
      Plan s known inner steps tail → Consistent s known steps tail fields) →
        ∃ w, Yields (decode s type bytes) known w known ∧ SameUnions s known type v w) := by
  constructor
  · intro inner fields steps tail hpart hplan st hst union tag hop st' hst' hname
    obtain ⟨hreach, _, _, hinner⟩ := encodes_of_part h hpart ((yields_encodeAt h).mp hw).1
      (fun U steps tail hU hplan => (hsound U steps tail hU hplan).1) hnamed
    obtain ⟨hsteps, hregular, -⟩ := hsound inner steps tail hreach hplan
    have hmem := mem_of_mem_written hst
    obtain ⟨v, n, hv, hn⟩ := exists_selectorIs h hinner hplan hsteps hmem hst' hop hname
    refine ⟨v, n, hv, hn, fun hown => ?_⟩
    unfold FromElsewhere at hown
    push Not at hown
    obtain ⟨hnone, c, hop'⟩ := hown
    refine chosenBy_of_derived hsteps hregular hmem hop hop' hv hnone (fun u hu => ?_) hn
    obtain ⟨u', hu', hnames⟩ :=
      (hnamed inner fields steps tail hpart hplan).members st hst _ _ hop v hv
    cases hu.symm.trans hu'
    exact hnames
  · intro hconsistent
    refine decode_of_encode h hw hlength (fun inner steps tail hreach hplan => ?_)
      (fun inner fields steps tail hreach hpart hplan => ?_)
      fun inner fields steps tail entries hreach _ hplan hall => ?_
    · obtain ⟨hsteps, hregular, -, -⟩ := hsound inner steps tail hreach hplan
      refine ⟨hsteps, hregular, fun st hst next hnext => .inr fun steps' tail' hplan' => ?_⟩
      obtain ⟨-, -, -, hopen⟩ := hsound next steps' tail'
        (hreach.trans (.step hplan hst hnext .refl)) hplan'
      exact hopen
    · obtain ⟨hsteps, hregular, htail, -⟩ := hsound inner steps tail hreach hplan
      exact decided_of_consistent hsteps hregular htail (hnamed inner fields steps tail hpart hplan)
        (hconsistent inner fields steps tail hpart hplan)
    · obtain ⟨hsteps, -⟩ := hsound inner steps tail hreach hplan
      exact sameUnions_of_entriesMatch hplan hsteps hall

end Encoded

end WireTables.Wire
