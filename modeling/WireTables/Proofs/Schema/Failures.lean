import WireTables.Proofs.Schema.Nesting

/-!
# What sizes fail with

Looking through names, collecting fields and adding up sizes fail in few ways of their own: a type
is not registered, or a structure is inconsistent. All other failures in the calculation of a size
come from the questions that it asks and from the texts of its array lengths (`sizeStep_avoids`).
-/

namespace WireTables

/-- The failure is about a type that is not registered or a structure that is inconsistent. -/
def Error.Structural : Error → Prop
  | .unknownType _ _ | .inconsistent _ _ => True
  | _ => False

/-- Steps without a state fail in the way that their parts fail. -/
theorem of_bind_eq_error {ε α β : Type} {p : ε → Prop} {r : Except ε α} {f : α → Except ε β} {e : ε}
    (h : (r >>= f) = .error e) (hr : ∀ e, r = .error e → p e)
    (hf : ∀ a, r = .ok a → ∀ e, f a = .error e → p e) : p e := by
  cases r with
  | error e' =>
    cases h
    exact hr _ rfl
  | ok a => exact hf a rfl e h

namespace Schema

variable {s : Schema} {name owner : String} {e : Error}

/-! ## Looking through names -/

theorem structural_require {referrer : String} (h : s.require name referrer = .error e) :
    e.Structural := by
  unfold require at h
  split at h
  · cases h
  · cases h
    trivial

theorem structural_followAliases {hops : Nat} {t : TypeEntry}
    (h : s.followAliases name hops t = .error e) : e.Structural := by
  induction hops generalizing t e with
  | zero =>
    cases h
    trivial
  | succ hops ih =>
    unfold followAliases at h
    split at h
    · exact of_bind_eq_error h (fun _ => structural_require) fun _ _ _ => ih
    · cases h

theorem structural_target (h : s.target name = .error e) : e.Structural :=
  of_bind_eq_error h (fun _ => structural_require) fun _ _ _ => structural_followAliases

theorem structural_collectFields {room : Nat} (h : s.collectFields owner room name = .error e) :
    e.Structural := by
  induction room generalizing name e with
  | zero =>
    cases h
    trivial
  | succ room ih =>
    rw [collectFields_step] at h
    refine of_bind_eq_error h (fun _ => structural_require) fun _ _ e h =>
      of_bind_eq_error h (fun _ => structural_target) fun t _ e h => ?_
    split at h
    · cases h
      trivial
    · split at h
      · cases h
      · exact of_bind_eq_error h (fun _ => ih) fun _ _ _ h => nomatch h

theorem structural_allFields (h : s.allFields name = .error e) : e.Structural :=
  structural_collectFields h

/-! ## Adding up sizes -/

section Sizes

variable {ask : Query → Eval Int} {E : Error → Prop} {P : Known → Prop} {depth : Nat}
  (hE : ∀ e, Error.Structural e → ¬ E e)

include hE

theorem product_avoids {a b : Int} {fault : StructureFault} :
    Avoids E P (product a b (.inconsistent owner fault)) := by
  unfold product
  split
  · exact .pure
  · exact .throw (hE _ trivial)

theorem fieldCount_avoids {f : Field}
    (hlength : ∀ text, countText? f = some (some text) → Avoids E P (evaluateWith ask text 0)) :
    Avoids E P (fieldCount ask owner f) := by
  unfold countText? at hlength
  unfold fieldCount
  cases hm : f.marshal with
  | fixedArray | countedArray | restArray =>
    simp only [hm] at hlength ⊢
    split
    · next text htext => exact hlength text (by rw [htext])
    · exact .throw (hE _ trivial)
  | _ => exact .pure

theorem fieldSizeWith_avoids {f : Field}
    (hpart : Avoids E P (ask (.size f.typeName (depth + 1))))
    (hlength : ∀ text, countText? f = some (some text) → Avoids E P (evaluateWith ask text 0)) :
    Avoids E P (fieldSizeWith ask owner depth f) :=
  hpart.andThen fun _ => (fieldCount_avoids hE hlength).andThen fun _ => product_avoids hE

theorem memberSizeWith_avoids {m : UnionMember}
    (hpart : Avoids E P (ask (.size m.typeName (depth + 1))))
    (hlength : ∀ text, m.arraySize = some text → Avoids E P (evaluateWith ask text 0)) :
    Avoids E P (memberSizeWith ask owner depth m) := by
  unfold memberSizeWith
  split
  · next text htext =>
    exact (hlength text htext).andThen fun _ => hpart.andThen fun _ => product_avoids hE
  · exact hpart.andThen fun _ => product_avoids hE

/-- The size of a type fails with what the sizes of its parts and the lengths of its arrays fail
with. -/
theorem sizeStep_avoids {type : String}
    (hpart : ∀ t inner, depth ≤ maxDepth → s.lookup? type = some t → inner ∈ s.parts type t.kind →
      Avoids E P (ask (.size inner (depth + 1))))
    (hlength : ∀ t text, depth ≤ maxDepth → s.lookup? type = some t →
      text ∈ s.lengths type t.kind → Avoids E P (evaluateWith ask text 0)) :
    Avoids E P (s.sizeStep ask type depth) := by
  unfold sizeStep
  split
  · exact .throw (hE _ trivial)
  next hd =>
  have hd := Nat.not_lt.mp hd
  refine (Avoids.ofExcept fun e he => hE e (structural_require he)).bind fun _ t _ _ ht => ?_
  have ht := require_eq_ok.mp (yields_evalOfExcept.mp ht).1
  have hpart := fun inner => hpart t inner hd ht
  have hlength := fun text => hlength t text hd ht
  cases hkind : t.kind with
  | value v => exact .pure
  | aliasOf | enum | bitfield => exact hpart _ (hkind ▸ List.mem_singleton_self _)
  | record r =>
    refine (Avoids.ofExcept fun e he => hE e (structural_allFields he)).bind
      fun _ fields _ _ hfields => ?_
    have hfields := (yields_evalOfExcept.mp hfields).1
    refine Avoids.foldlM fun total f hf => ?_
    refine Avoids.bind (fieldSizeWith_avoids hE (hpart _ (hkind ▸ mem_parts_of_field hfields hf))
      fun text htext => hlength text (hkind ▸ mem_lengths_of_field hfields hf htext))
      fun _ _ _ _ _ => ?_
    split
    · exact .pure
    · exact .throw (hE _ trivial)
  | union u =>
    refine Avoids.foldlM fun largest m hm => ?_
    exact (memberSizeWith_avoids hE (hpart _ (hkind ▸ List.mem_map_of_mem hm)) fun text htext =>
      hlength text (hkind ▸ List.mem_filterMap.mpr ⟨m, hm, htext⟩)).andThen fun _ => .pure

end Sizes

end Schema

end WireTables
