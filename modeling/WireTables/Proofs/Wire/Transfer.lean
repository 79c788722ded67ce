import WireTables.Proofs.Wire.FieldReading

/-!
# Reading in another schema

Two schemas may differ in the fields of their structures and be alike in everything else that a
field is read by (`Alike`). Then what is read for a field is also read for a field like it in the
other schema (`Reads.transfer`), with values that differ only in the structures inside
(`Corresponds`).
-/

namespace WireTables.Wire

/-- A number or a truth value. -/
def Elementary (v : Value) : Prop :=
  v.word?.isSome = true

theorem elementary_of_readScalar {c : Scalar} {r r' : Reader} {v : Value}
    (h : Yields (readScalar c) r v r') : Elementary v := by
  obtain ⟨_, -, -, hv⟩ := takes_of_readScalar h
  unfold scalarValue? at hv
  split at hv
  · cases hv
    rfl
  · obtain ⟨kind, -, rfl⟩ := Option.map_eq_some_iff.mp hv
    rfl

/-- Elements read for the same array, where structures are related. -/
inductive CorrespondsItem (related : String → Value → Value → Prop) : Element → Value → Value → Prop
  | scalar {c v} (hv : Elementary v) : CorrespondsItem related (.scalar c) v v
  | object {type v v'} (h : related type v v') : CorrespondsItem related (.object type) v v'

/-- Values read for the same step, where those of structures inside are related. -/
inductive Corresponds (related : String → Value → Value → Prop) : Op → Value → Value → Prop
  | elementary {op v} (hv : Elementary v) : Corresponds related op v v
  | bytes {op data} : Corresponds related op (.bytes data) (.bytes data)
  | object {type v v'} (h : related type v v') : Corresponds related (.object type) v v'
  | items {element length items items'}
    (h : List.Forall₂ (CorrespondsItem related element) items items') :
    Corresponds related (.array element length) (.list items) (.list items')
  | null {op} : Corresponds related op .null .null
  | held {op type v} (hv : Elementary v) : Corresponds related op (.union type v) (.union type v)
  | record {op type v v'} (h : related type v v') :
    Corresponds related op (.union type v) (.union type v')

theorem Corresponds.flip {related : String → Value → Value → Prop} {op : Op} {v v' : Value}
    (h : Corresponds related op v v') :
    Corresponds (fun type v v' => related type v' v) op v' v := by
  cases h with
  | elementary hv => exact .elementary hv
  | bytes => exact .bytes
  | object h => exact .object h
  | items h =>
    refine .items (h.flip.imp fun v v' hv => ?_)
    cases hv with
    | scalar hv => exact .scalar hv
    | object h => exact .object h
  | null => exact .null
  | held hv => exact .held hv
  | record h => exact .record h

/-- Values that have the same structures inside are the same. -/
theorem Corresponds.eq {op : Op} {v v' : Value} (h : Corresponds (fun _ => Eq) op v v') :
    v = v' := by
  cases h with
  | elementary | bytes | null | held => rfl
  | object h => exact h
  | record h => rw [h]
  | items h =>
    have items : List.Forall₂ Eq _ _ := h.imp fun v w hw => by
      cases hw with
      | scalar => rfl
      | object h => exact h
    rw [List.forall₂_eq_eq_eq] at items
    rw [items]

/-- Two schemas that differ in nothing but the fields of structures. -/
structure Alike (s s' : Schema) (known : Known) : Prop where
  scalar : ∀ type, s'.scalar? type = s.scalar? type
  object : ∀ type, objectName? s' type = objectName? s type
  isRecord : ∀ type, s'.isRecord type = s.isRecord type
  union : ∀ name, (s'.lookup? name).bind TypeEntry.union? = (s.lookup? name).bind TypeEntry.union?
  constant : ∀ name n, Yields (s'.constantValue name) known n known ↔
    Yields (s.constantValue name) known n known

theorem Alike.refl (s : Schema) (known : Known) : Alike s s known where
  scalar _ := rfl
  object _ := rfl
  isRecord _ := rfl
  union _ := rfl
  constant _ _ := Iff.rfl

theorem Alike.symm {s s' : Schema} {known : Known} (h : Alike s s' known) : Alike s' s known where
  scalar type := (h.scalar type).symm
  object type := (h.object type).symm
  isRecord type := (h.isRecord type).symm
  union name := (h.union name).symm
  constant name n := (h.constant name n).symm

theorem Alike.element? {s s' : Schema} {known : Known} (h : Alike s s' known) (type : String) :
    element? s' type = element? s type := by
  unfold Wire.element?
  rw [h.object, h.scalar]

/-- The expressions that are evaluated where a field is read: its length, its largest length or the
value that it must have. -/
def decodedTexts (f : Field) : List String :=
  match f.marshal with
  | .fixedArray => f.arraySize.toList
  | .countedArray => f.domain.maximum?.toList
  | .constant => f.domain.onlyValue?.toList
  | _ => []

/-- All that is evaluated where a field is read has the same values in both schemas. -/
structure SameValues (s s' : Schema) (known : Known) (f : Field) : Prop where
  texts : ∀ text ∈ decodedTexts f, ∀ n, Yields (s'.evaluate text) known n known ↔
    Yields (s.evaluate text) known n known
  selected : f.marshal = .selectedArray → ∀ n count,
    Yields (selectedLength s' f.typeName n) known (some count) known ↔
      Yields (selectedLength s f.typeName n) known (some count) known

theorem SameValues.refl (s : Schema) (known : Known) (f : Field) : SameValues s s known f where
  texts _ _ _ := Iff.rfl
  selected _ _ _ := Iff.rfl

theorem SameValues.symm {s s' : Schema} {known : Known} {f : Field}
    (h : SameValues s s' known f) : SameValues s' s known f where
  texts text ht n := (h.texts text ht n).symm
  selected hm n count := (h.selected hm n count).symm

/-- Two fields that travel in the same way, whatever their names and those of their partners. -/
structure Renamed (f g : Field) : Prop where
  marshal : g.marshal = f.marshal
  typeName : g.typeName = f.typeName
  arraySize : g.arraySize = f.arraySize
  domain : g.domain = f.domain
  partner : g.partner.isSome = f.partner.isSome

namespace Renamed

variable {f g : Field}

theorem refl (f : Field) : Renamed f f :=
  ⟨rfl, rfl, rfl, rfl, rfl⟩

theorem symm (h : Renamed f g) : Renamed g f :=
  ⟨h.marshal.symm, h.typeName.symm, h.arraySize.symm, h.domain.symm, h.partner.symm⟩

theorem exists_partner (h : Renamed f g) {name : String} (hf : f.partner = some name) :
    ∃ name', g.partner = some name' :=
  Option.isSome_iff_exists.mp (h.partner.trans (by rw [hf]; rfl))

/-- A field with a tag has it as its partner, and so has the field like it. -/
theorem exists_tag (h : Renamed f g) {tag : String}
    (hm : f.marshal = .countedArray ∨ f.marshal = .unionBody ∨ f.marshal = .selectedArray)
    (hf : f.partner = some tag) :
    f.tag? = some tag ∧ ∃ tag', g.partner = some tag' ∧ g.tag? = some tag' := by
  obtain ⟨tag', hg⟩ := h.exists_partner hf
  have hm' := h.marshal
  unfold Field.tag?
  rcases hm with hm | hm | hm <;> rw [hm', hm] <;> exact ⟨hf, tag', hg, hg⟩

end Renamed

/-- The number that a field leaves for those after it, if it leaves one. -/
def noted (name : String) (n : Option Int) : Locals :=
  (n.map (name, ·)).toList

/-- What a field leaves for those after it: a tag its number, and what a tag describes nothing. -/
theorem noted_of_reads {s : Schema} {known : Known} {f : Field} {all : List Field} {op : Op}
    {isData : Bool} {nested : String → Reader → Value → Reader → Prop} {locals locals' : Locals}
    {r r' : Reader} {v : Option Value} (hstep : Steps s known all f op isData)
    (h : Reads s known nested locals f isData op r v locals' r') :
    (f.marshal = .count ∨ f.marshal = .selector → ∃ n, locals' = (f.name, n) :: locals) ∧
      (f.tag?.isSome = true → locals' = locals) := by
  have tagless : ∀ {P : Prop} {m : Marshal}, f.marshal = m →
      m ≠ .countedArray ∧ m ≠ .unionBody ∧ m ≠ .selectedArray → f.tag?.isSome = true → P := by
    intro P m hm hne htag
    unfold Field.tag? at htag
    rw [hm] at htag
    split at htag <;> simp_all
  cases hstep with
  | scalar hm => exact ⟨by simp [hm], tagless hm (by decide)⟩
  | object hm => cases h; exact ⟨by simp [hm], fun _ => rfl⟩
  | constant hm => cases h; exact ⟨by simp [hm], fun _ => rfl⟩
  | count hm | selector hm => cases h; exact ⟨fun _ => ⟨_, rfl⟩, tagless hm (by decide)⟩
  | union hm | selected hm | counted hm | fixed hm | rest hm =>
    cases h
    exact ⟨by simp [hm], fun _ => rfl⟩

section Transfer

variable {s s' : Schema} {known : Known} {f g : Field} {all all' : List Field} {op : Op}
  {isData : Bool}

theorem Chooses.transfer (halike : Alike s s' known) {n : Int}
    {members : List (UnionMember × Nat)} {m : UnionMember} {i : Nat}
    (h : Chooses s known n members m i) : Chooses s' known n members m i := by
  induction h with
  | here h => exact .here ((halike.constant _ _).mpr h)
  | later h hne _ ih => exact .later ((halike.constant _ _).mpr h) hne ih

theorem ReadsRow.transfer {item item' : Reader → Value → Reader → Prop}
    {R : Value → Value → Prop}
    (hitem : ∀ r v r', item r v r' → ∃ v', item' r v' r' ∧ R v v') {r r' : Reader}
    {items : List Value} (h : ReadsRow item r items r') :
    ∃ items', ReadsRow item' r items' r' ∧ List.Forall₂ R items items' := by
  induction h with
  | nil => exact ⟨[], .nil, .nil⟩
  | cons h _ ih =>
    obtain ⟨v', h', hv⟩ := hitem _ _ _ h
    obtain ⟨items', hrow, hitems⟩ := ih
    exact ⟨v' :: items', .cons h' hrow, .cons hv hitems⟩

/-- An array has as many elements in the other schema. -/
theorem Steps.transfer_array (halike : Alike s s' known) (hvalues : SameValues s s' known f)
    (hlike : Renamed f g) {locals locals' : Locals} (hlocals : ∀ tag tag', f.tag? = some tag →
      g.tag? = some tag' → locals'.lookup tag' = locals.lookup tag)
    {element : Element} {length : ArrayLength}
    (hstep : Steps s known all f (.array element length) true) :
    ∃ length', Steps s' known all' g (.array element length') true ∧
      ∀ count, CountFor s known locals f length count →
        CountFor s' known locals' g length' count := by
  have isElement : ∀ {e}, element? s f.typeName = some e → element? s' g.typeName = some e :=
    fun he => hlike.typeName ▸ (halike.element? _).trans he
  have hm' := hlike.marshal
  cases hstep with
  | selected hm hp =>
    obtain ⟨htag, tag', hp', htag'⟩ := hlike.exists_tag (.inr (.inr hm)) hp
    refine ⟨_, .selected (hm'.trans hm) hp', fun count hc => ?_⟩
    cases hc with
    | other _ hreq => cases hreq with
      | selected hn hcount =>
        rw [hlike.typeName]
        exact .other (by simp) (.selected ((hlocals _ _ htag htag').trans hn)
          ((hvalues.selected hm _ _).mpr hcount))
  | counted hm hp he =>
    obtain ⟨htag, tag', hp', htag'⟩ := hlike.exists_tag (.inl hm) hp
    refine ⟨_, .counted (hm'.trans hm) hp' (isElement he), fun count hc => ?_⟩
    cases hc with
    | tag hn hpos hmax =>
      refine .tag (by rwa [hlocals _ _ htag htag']) hpos fun text ht => ?_
      rw [hlike.domain] at ht
      obtain ⟨maximum, hmaximum, hle⟩ := hmax text ht
      exact ⟨maximum, (hvalues.texts _ (by simp [decodedTexts, hm, ht]) _).mpr hmaximum, hle⟩
    | other hl => exact (hl _ rfl).elim
  | fixed hm he ht hn hpos =>
    have hn' := (hvalues.texts _ (by simp [decodedTexts, hm, ht]) _).mpr hn
    refine ⟨_, .fixed (hm'.trans hm) (isElement he) (hlike.arraySize.trans ht) hn' hpos,
      fun count hc => ?_⟩
    cases hc with
    | other _ hreq => cases hreq with
      | fixed => exact .other (by simp) .fixed
  | rest hm he =>
    refine ⟨_, .rest (hm'.trans hm) (isElement he), fun count hc => ?_⟩
    cases hc with
    | other _ hreq => cases hreq with
      | rest => exact .other (by simp) .rest

variable {nested nested' : String → Reader → Value → Reader → Prop}
  {related : String → Value → Value → Prop}
  (hnested : ∀ type r v r', nested type r v r' → ∃ v', nested' type r v' r' ∧ related type v v')

include hnested

theorem ReadsItem.transfer {element : Element} {r r' : Reader} {v : Value}
    (h : ReadsItem nested element r v r') :
    ∃ v', ReadsItem nested' element r v' r' ∧ CorrespondsItem related element v v' := by
  cases h with
  | scalar h => exact ⟨v, .scalar h, .scalar (elementary_of_readScalar h)⟩
  | object h =>
    obtain ⟨v', h', hv⟩ := hnested _ _ _ _ h
    exact ⟨v', .object h', .object hv⟩

theorem ReadsElements.transfer {element : Element} {length : ArrayLength} {count : Option Nat}
    {r r' : Reader} {v : Value} (h : ReadsElements nested element count r v r') :
    ∃ v', ReadsElements nested' element count r v' r' ∧
      Corresponds related (.array element length) v v' := by
  cases h with
  | bytes hle => exact ⟨_, .bytes hle, .bytes⟩
  | allBytes => exact ⟨_, .allBytes, .bytes⟩
  | items hbyte h hlen =>
    obtain ⟨items', hrow, hitems⟩ :=
      h.transfer fun _ _ _ hitem => ReadsItem.transfer hnested hitem
    exact ⟨_, .items hbyte hrow (hitems.length_eq.symm.trans hlen), .items hitems⟩
  | allItems hbyte h hend =>
    have some_ : ∀ r v r', ReadsSome nested element r v r' →
        ∃ v', ReadsSome nested' element r v' r' ∧ CorrespondsItem related element v v' := by
      rintro r v r' ⟨hitem, hused⟩
      obtain ⟨v', h', hv⟩ := ReadsItem.transfer hnested hitem
      exact ⟨v', ⟨h', hused⟩, hv⟩
    obtain ⟨items', hrow, hitems⟩ := h.transfer some_
    exact ⟨_, .allItems hbyte hrow hend, .items hitems⟩

theorem ReadsUnion.transfer (halike : Alike s s' known) {union tag : String} {n : Int}
    {r r' : Reader} {v : Value} (h : ReadsUnion s known nested union n r v r') :
    ∃ v', ReadsUnion s' known nested' union n r v' r' ∧
      Corresponds related (.union union tag) v v' := by
  obtain ⟨u, m, i, hu, hm, h⟩ := h
  have hu' := (halike.union union).trans hu
  have hm' := hm.transfer halike
  cases h with
  | absent hi => exact ⟨_, ⟨u, m, i, hu', hm', .absent hi⟩, .null⟩
  | record hi hr h =>
    obtain ⟨v', h', hv⟩ := hnested _ _ _ _ h
    exact ⟨_, ⟨u, m, i, hu', hm', .record hi ((halike.isRecord _).trans hr) h'⟩, .record hv⟩
  | scalar hi hr hc h =>
    exact ⟨_, ⟨u, m, i, hu', hm', .scalar hi ((halike.isRecord _).trans hr)
      ((halike.scalar _).trans hc) h⟩, .held (elementary_of_readScalar h)⟩

/-- What is read for a field in one schema is read for a field like it in the other one, if what
they refer to has the same values. -/
theorem Reads.transfer (halike : Alike s s' known) (hvalues : SameValues s s' known f)
    (hlike : Renamed f g)
    (hselects : f.marshal = .selector → selectsObject all' g = selectsObject all f)
    {locals locals' locals₁ : Locals} (hlocals : ∀ tag tag', f.tag? = some tag →
      g.tag? = some tag' → locals'.lookup tag' = locals.lookup tag)
    (hstep : Steps s known all f op isData) {r r' : Reader} {v : Option Value}
    (h : Reads s known nested locals f isData op r v locals₁ r') :
    ∃ op' v' n, Steps s' known all' g op' isData ∧
      Reads s' known nested' locals' g isData op' r v' (noted g.name n ++ locals') r' ∧
        locals₁ = noted f.name n ++ locals ∧ Option.Rel (Corresponds related op) v v' := by
  have scalar : ∀ {c r v r'}, Yields (readScalar c) r v r' →
      Option.Rel (Corresponds related op) (some v) (some v) :=
    fun h => .some (.elementary (elementary_of_readScalar h))
  have isScalar : ∀ {c}, s.scalar? f.typeName = some c → s'.scalar? g.typeName = some c :=
    fun hc => hlike.typeName ▸ (halike.scalar _).trans hc
  have isObject : ∀ {o}, objectName? s f.typeName = o → objectName? s' g.typeName = o :=
    fun ho => hlike.typeName ▸ (halike.object _).trans ho
  have hm' := hlike.marshal
  have hsame := hstep
  cases hstep with
  | scalar hm ho hc => cases h with
    | @scalar _ _ n _ _ hr hn =>
      exact ⟨_, _, some n, .scalar (hm'.trans hm) (isObject ho) (isScalar hc), .scalar hr hn, rfl,
        scalar hr⟩
  | object hm ho => cases h with
    | object h =>
      obtain ⟨v', h', hv⟩ := hnested _ _ _ _ h
      exact ⟨_, some v', none, .object (hm'.trans hm) (isObject ho), .object h', rfl,
        .some (.object hv)⟩
  | constant hm hc ht => cases h with
    | constant hr hn he =>
      have he' := (hvalues.texts _ (by simp [decodedTexts, hm, ht]) _).mpr he
      exact ⟨_, none, none, .constant (hm'.trans hm) (isScalar hc) (hlike.domain ▸ ht),
        .constant hr hn he', rfl, .none⟩
  | count hm hc hp => cases h with
    | @count _ _ _ n _ _ hr hn =>
      obtain ⟨array', hp'⟩ := hlike.exists_partner hp
      exact ⟨_, none, some n, .count (hm'.trans hm) (isScalar hc) hp', .count hr hn, rfl, .none⟩
  | selector hm hc hp => cases h with
    | @selector _ _ _ v n _ _ hr hn =>
      obtain ⟨object', hp'⟩ := hlike.exists_partner hp
      rw [← hselects hm]
      refine ⟨_, _, some n, .selector (hm'.trans hm) (isScalar hc) hp', .selector hr hn, rfl, ?_⟩
      split
      · exact .some (.elementary (elementary_of_readScalar hr))
      · exact .none
  | union hm hp => cases h with
    | union hn h =>
      obtain ⟨v', h', hv⟩ := ReadsUnion.transfer hnested halike h
      obtain ⟨htag, tag', hp', htag'⟩ := hlike.exists_tag (.inr (.inl hm)) hp
      exact ⟨_, some v', none, .union (hm'.trans hm) hp',
        .union ((hlocals _ _ htag htag').trans hn) (by rwa [hlike.typeName]), rfl, .some hv⟩
  | selected | counted | fixed | rest => cases h with
    | array hc h =>
      obtain ⟨length', hstep', hcount⟩ := hsame.transfer_array halike hvalues hlike hlocals
      obtain ⟨v', h', hv⟩ := ReadsElements.transfer hnested h
      exact ⟨_, some v', none, hstep', .array (hcount _ hc) h', rfl, .some hv⟩

end Transfer

end WireTables.Wire
