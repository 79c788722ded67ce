import WireTables.Proofs.Normal.Inlining
import WireTables.Proofs.Schema.ExactSize

/-!
# Sizes after inlining

A field of wrapper type has the size of its two pieces together, as long as it adds no bounds of its
own to what the wrapper says. So inlining changes no exact size (`Flattens.exact_agree`), and what
can be evaluated before and after has the same value (`Flattens.evaluate_agree`). It does not follow
that it can be evaluated at all: the sums on the way are other ones, and questions nest less deep.
-/

namespace WireTables

/-- An empty domain adds nothing. -/
theorem Domain.merge_of_isEmpty {d e : Domain} (he : e.isEmpty = true) : d.merge e = d := by
  unfold merge
  rw [List.isEmpty_iff.mp he, List.append_nil]

namespace Schema

namespace Inlined

variable {config : Config} {s s' : Schema} (h : Inlined config s s')

include h

theorem recordOf?_eq {type : String} : s'.recordOf? type = (s.recordOf? type).map fun p =>
    (p.1.expand (s'.pieces config p.1.specName), p.2.expand (s'.pieces config p.1.specName)) := by
  conv_lhs => rw [h.eq_expand]
  exact recordOf?_expand

theorem resolveConstant? (name : String) :
    s'.resolveConstant? name = s.resolveConstant? name := by
  rw [h.eq_expand]
  rfl

theorem complete {known : Known} (hc : s.Complete known) : s'.Complete known :=
  fun name number hr => hc name number ((h.resolveConstant? name).symm.trans hr)

/-- The outcome has structures as tables define them. -/
theorem tabled (htabled : s.Tabled) : s'.Tabled := by
  have htypes : s'.types = s.types.map fun t => t.expand (s'.pieces config t.specName) := by
    conv_lhs => rw [h.eq_expand]
    rfl
  refine htabled.map htypes (fun t => TypeEntry.specName_expand) fun t _ ht =>
    ht.mapRecord (fun r _ hr => ?_) fun r _ hr => ?_
  · refine ⟨⟨hr.fields.inline inlines_pieces, hr.base, hr.tail⟩, fun g hg => ?_⟩
    rcases mem_inline inlines_pieces hg with ⟨hg, -⟩ | ⟨f, -, -, tag, data, -, hor, hin⟩
    · exact hr.unsized g hg
    · cases hin with
      | pair _ htag _ hdata =>
        rcases hor with rfl | rfl
        · rcases htag with hm | hm <;> rw [hm] <;> decide
        · rcases hdata with hm | hm | hm <;> rw [hm] <;> decide
  · show r.fields.flatMap _ = []
    rw [hr]
    rfl

end Inlined

/-- What becomes of a schema of tables when its wrappers are inlined and no inlined field has a
domain of its own. -/
structure Flattens (config : Config) (s s' : Schema) : Prop extends Inlined config s s' where
  tabled : s.Tabled
  domains : ∀ t ∈ s.types, ∀ r, t.record? = some r → ∀ f ∈ r.fields,
    (s'.wrapperOf? config t.specName f).isSome = true → f.domain.isEmpty = true

/-- Only the type of a field and the number of its elements matter for its size. -/
theorem FieldExact.congr {sub : Query → Int → Prop} {f g : Field} {n : Int}
    (h : FieldExact sub g n) (htype : f.typeName = g.typeName)
    (hcount : countText? f = countText? g) : FieldExact sub f n := by
  unfold FieldExact CountOf at h ⊢
  rwa [htype, hcount]

theorem ExactIn.followAliases {s : Schema} {known : Known} {name : String} {n : Int} {hops : Nat} :
    ∀ {t t' : TypeEntry} {nesting : Nat}, s.lookup? t.specName = some t →
      s.followAliases name hops t = .ok t' → ExactIn s known nesting (.size t'.specName 0) n →
        ∃ nesting, ExactIn s known nesting (.size t.specName 0) n := by
  induction hops with
  | zero => exact fun _ h => nomatch h
  | succ hops ih =>
    intro t t' nesting ht hf h
    unfold Schema.followAliases at hf
    split at hf
    · next a hk =>
      obtain ⟨next, hnext, hf⟩ := bind_eq_ok.mp hf
      have hnext := require_eq_ok.mp hnext
      have hname := (mem_of_lookup? hnext).2
      obtain ⟨nesting, h⟩ := ih (hname ▸ hnext) hf h
      refine ⟨nesting + 1, .size ht ?_⟩
      rw [hk]
      show ExactIn s known nesting (.size a.base 0) n
      rwa [← hname]
    · cases hf
      exact ⟨nesting, h⟩

/-- A further name has the exact size of what it stands for. -/
theorem ExactIn.of_target {s : Schema} {known : Known} {type : String} {n : Int} {nesting : Nat}
    {t : TypeEntry} (ht : s.target type = .ok t)
    (h : ExactIn s known nesting (.size t.specName 0) n) :
    ∃ nesting, ExactIn s known nesting (.size type 0) n := by
  obtain ⟨first, hfirst, hf⟩ := bind_eq_ok.mp ht
  have hfirst := require_eq_ok.mp hfirst
  have hname := (mem_of_lookup? hfirst).2
  exact hname ▸ h.followAliases (hname ▸ hfirst) hf

namespace Flattens

variable {config : Config} {s s' : Schema} {known : Known} (h : Flattens config s s')

include h

/-- The outcome has structures as tables define them. -/
theorem tabled' : s'.Tabled :=
  h.toInlined.tabled h.tabled

/-- What a wrapper is made of has the same sizes where it is inlined. -/
theorem exact_of_pieces {owner : String} {f tag data : Field} {nesting : Nat} {sizes : List Int}
    (hw : s'.wrapperOf? config owner f = some (tag, data)) (hdomain : f.domain.isEmpty = true)
    (hs : List.Forall₂ (FieldExact (ExactIn s' known nesting)) (inlineParts f tag data) sizes) :
    ∃ nesting, ExactIn s' known nesting (.size f.typeName 0) sizes.sum := by
  obtain ⟨-, t, r, hrecord, -, hwraps⟩ := wrapperOf?_eq_some.mp hw
  obtain ⟨ht, hr⟩ := recordOf?_eq_some.mp hrecord
  have hkind := TypeEntry.kind_of_record? hr
  have hsize : ExactIn s' known (nesting + 1) (.size t.specName 0) sizes.sum := by
    refine .size (lookup?_of_target ht).1 ?_
    rw [hkind]
    refine ⟨[tag, data], sizes, ?_, ?_, rfl⟩
    · refine (allFields_eq_ok h.tabled'.bases).mpr
        ⟨t, r, recordOf?_eq_some.mpr ⟨?_, hr⟩, hwraps.fields.symm⟩
      exact target_of_lookup? (lookup?_of_target ht).1 (lookup?_of_target ht).2
    · unfold inlineParts at hs
      obtain _ | ⟨htag, _ | ⟨hdata, _ | _⟩⟩ := hs
      refine .cons (htag.congr rfl rfl) (.cons (hdata.congr rfl ?_) .nil)
      show countText? data = countText? { data with domain := data.domain.merge f.domain }
      rw [Domain.merge_of_isEmpty hdomain]
  exact ExactIn.of_target ht hsize

/-- The pieces of fields have the same sizes together as the fields. -/
theorem sum_pieces {nesting nesting' : Nat}
    (ih : ∀ nesting' q q' n n', Query.Same q q' → ExactIn s known nesting q n →
      ExactIn s' known nesting' q' n' → n = n')
    {t : TypeEntry} {r : Record} (ht : t ∈ s.types) (hr : t.record? = some r)
    {fields : List Field} (hfields : ∀ f ∈ fields, f ∈ r.fields) {sizes sizes' : List Int}
    (hs : List.Forall₂ (FieldExact (ExactIn s known nesting)) fields sizes)
    (hs' : List.Forall₂ (FieldExact (ExactIn s' known nesting'))
      (fields.flatMap (s'.pieces config t.specName)) sizes') : sizes.sum = sizes'.sum := by
  induction hs generalizing sizes' with
  | nil =>
    cases hs'
    rfl
  | @cons f n fields sizes hf _ ih_fields =>
    have hmem := hfields f List.mem_cons_self
    rw [List.flatMap_cons] at hs'
    have hfirst := (List.forall₂_take_append _ _ _ hs'.flip).flip
    have hrest := (List.forall₂_drop_append _ _ _ hs'.flip).flip
    rw [← List.take_append_drop (s'.pieces config t.specName f).length sizes', List.sum_cons,
      List.sum_append, ih_fields (fun g hg => hfields g (List.mem_cons_of_mem _ hg)) hrest]
    generalize sizes'.take (s'.pieces config t.specName f).length = first at hfirst
    suffices n = first.sum by rw [this]
    unfold pieces at hfirst
    split at hfirst
    · next tag data hw =>
      have hdomain := h.domains t ht r hr f hmem (by rw [hw]; rfl)
      obtain ⟨deeper, hsum⟩ := h.exact_of_pieces hw hdomain hfirst
      obtain ⟨⟨hplain, -⟩, -⟩ := wrapperOf?_eq_some.mp hw
      obtain ⟨e, c, he, hc, rfl⟩ := hf
      unfold CountOf countText? at hc
      rw [hplain] at hc
      obtain rfl : c = 1 := hc
      rw [Int.mul_one]
      exact ih deeper (.size f.typeName 0) (.size f.typeName 0) e _ rfl he hsum
    · obtain _ | ⟨hkept, _ | _⟩ := hfirst
      rw [List.sum_singleton]
      exact hf.agree (ih nesting') rfl rfl hkept

/-- Inlining changes no exact size and no exact value of a constant. -/
theorem exact_agree {nesting nesting' : Nat} {q q' : Query} {n n' : Int} (hq : Query.Same q q')
    (he : ExactIn s known nesting q n) (he' : ExactIn s' known nesting' q' n') : n = n' := by
  induction nesting generalizing nesting' q q' n n' with
  | zero => exact he.elim
  | succ nesting ih =>
    cases nesting' with
    | zero => exact he'.elim
    | succ nesting' =>
      refine Exact.agree (fun _ _ _ _ hq h h' => ih hq h h') (fun _ => ?_)
        (fun type t t' ht ht' => ?_) ?_ hq he he'
      · rw [h.eq_expand]
        rfl
      · rw [h.eq_expand, lookup?_expand, ht, Option.map_some, Option.some.injEq] at ht'
        subst ht'
        obtain ⟨id, specName, name, comment, implemented, kind⟩ := t
        cases kind with
        | record r => exact .inr ⟨_, _, rfl, rfl⟩
        | _ => exact .inl rfl
      · intro type fields fields' sizes sizes' hf hf' hs hs'
        obtain ⟨t, r, hrecord, rfl⟩ := (allFields_eq_ok h.tabled.bases).mp hf
        obtain ⟨t', r', hrecord', rfl⟩ := (allFields_eq_ok h.tabled'.bases).mp hf'
        rw [h.recordOf?_eq, hrecord, Option.map_some, Option.some.injEq, Prod.mk.injEq] at hrecord'
        obtain ⟨rfl, rfl⟩ := hrecord'
        obtain ⟨ht, hr⟩ := mem_of_recordOf? hrecord
        exact h.sum_pieces (fun _ _ _ _ _ hq he he' => ih hq he he') ht hr (fun _ hf => hf) hs hs'

/-- What a text has as its value before and after is the same. -/
theorem evaluate_agree (hc : s.Complete known) (hc' : s'.Complete known) {text : String}
    {n n' : Int} {k k' : Known} (he : Yields (s.evaluate text) known n k)
    (he' : Yields (s'.evaluate text) known n' k') : n = n' :=
  ((yields_evaluate hc).mp he).1.agree (fun _ _ _ _ hq ha ha' =>
    h.exact_agree hq ha.exact ha'.exact) ((yields_evaluate hc').mp he').1

end Flattens

end Schema

end WireTables
