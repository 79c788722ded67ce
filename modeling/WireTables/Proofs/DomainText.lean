import WireTables.Domain.Parser
import WireTables.Proofs.Expression.Spelling
import WireTables.Proofs.Text.Blank

/-!
# Domains and their texts

A domain is gathered from cells: the constraints that a cell writes go behind those that are there, and
two domains may be put together. Whatever blanks and items the cells hold, each bound that comes out of
them is trimmed, not empty, and free of the marks of domains (`readable_of_addText`), so that it may be
written between such marks.

The text of a domain in a listing is such a cell. Read into the empty domain, it gives back the domain
with all constraints in their order, open ends and the empty domain included, and this is so for
domains from cells and for no others (`addText_text_iff`). A domain whose single values were
added one by one need not be readable: a value may be blank, or hold a comma.
-/

namespace WireTables

open Expression (expect? isSeparator skip span_append)

namespace Domain

/-- The domains that cells make: none to start with, then the constraints of more cells, and those of
other such domains. -/
inductive FromCells : Domain → Prop where
  | empty : FromCells Domain.empty
  | add {d d' : Domain} {cell : String} (h : FromCells d) (added : d.addText cell = .ok d') :
    FromCells d'
  | merge {d e : Domain} (h : FromCells d) (h' : FromCells e) : FromCells (d.merge e)

/-- A bound as it is read: not empty, without blanks around it, and without the marks of domains. -/
structure IsBound (text : String) : Prop where
  nonempty : text.toList ≠ []
  trimmed : Text.IsTrimmed text.toList
  plain : ∀ c ∈ text.toList, isBoundChar c = true

end Domain

/-- The bounds of a constraint are as they are read. -/
def Constraint.Readable : Constraint → Prop
  | .value text => Domain.IsBound text
  | .range lower upper =>
    (∀ text ∈ lower, Domain.IsBound text) ∧ ∀ text ∈ upper, Domain.IsBound text

/-- All bounds of a domain are as they are read. -/
def Domain.Readable (d : Domain) : Prop :=
  ∀ c ∈ d.constraints, c.Readable

namespace Domain

variable {cs rest : List Char} {items : List Constraint} {text : String} {d d' e : Domain}

/-! ## What is read -/

theorem isBound_of_bound? (hcs : ∀ c ∈ cs, isBoundChar c = true) (h : bound? cs = some text) :
    IsBound text := by
  unfold bound? at h
  split at h
  · cases h
  · next c more htrim =>
    cases h
    rw [← htrim]
    refine ⟨?_, ?_, ?_⟩ <;> rw [String.toList_ofList]
    · rw [htrim]
      exact List.cons_ne_nil c more
    · exact Text.isTrimmed_trimChars cs
    · exact fun c hc => hcs c (Text.mem_of_mem_trimChars hc)

/-- The first part of a text that may be a bound makes bounds only. -/
theorem isBound_of_takeWhile (h : text ∈ bound? (cs.takeWhile isBoundChar)) : IsBound text :=
  isBound_of_bound? (fun _ hc => List.all_eq_true.mp List.all_takeWhile _ hc) h

theorem readable_of_item? (h : item? cs = some (items, rest)) : ∀ c ∈ items, c.Readable := by
  unfold item? at h
  dsimp only at h
  intro c hc
  split at h
  · cases h
    obtain rfl := List.mem_singleton.mp hc
    exact ⟨fun _ => isBound_of_takeWhile, fun _ => isBound_of_takeWhile⟩
  · split at h
    · cases h
    · cases h
      obtain ⟨text, htext, rfl⟩ := List.mem_map.mp hc
      exact isBound_of_takeWhile (Option.mem_toList.mp htext)

theorem readable_append {more : List Constraint} (h : ∀ c ∈ items, c.Readable)
    (hmore : ∀ c ∈ more, c.Readable) : ∀ c ∈ items ++ more, c.Readable := fun c hc =>
  (List.mem_append.mp hc).elim (h c) (hmore c)

theorem readable_of_moreItems? (h : moreItems? cs = some items) : ∀ c ∈ items, c.Readable := by
  fun_induction moreItems? cs generalizing items with
  | case1 =>
    cases h
    exact fun c hc => (List.not_mem_nil hc).elim
  | case4 cs rest _ first after hfirst ih =>
    obtain ⟨more, hmore, rfl⟩ := Option.map_eq_some_iff.mp h
    exact readable_append (readable_of_item? hfirst) (ih hmore)
  | case2 | case3 | case5 => cases h

theorem readable_of_listItems? (h : listItems? cs = some items) : ∀ c ∈ items, c.Readable := by
  unfold listItems? at h
  split at h
  · next first after hfirst =>
    obtain ⟨more, hmore, rfl⟩ := Option.map_eq_some_iff.mp h
    exact readable_append (readable_of_item? hfirst) (readable_of_moreItems? hmore)
  · split at h
    · split at h
      · cases h
        exact fun c hc => (List.not_mem_nil hc).elim
      · cases h
    · cases h

theorem readable_of_items? (h : items? cs = some items) : ∀ c ∈ items, c.Readable := by
  unfold items? at h
  split at h
  · cases h
    exact fun c hc => (List.not_mem_nil hc).elim
  · exact readable_of_listItems? h
  · split at h
    · next first after hfirst =>
      split at h
      · cases h
        exact readable_of_item? hfirst
      · cases h
    · cases h

theorem readable_of_parse (h : parse text = .ok items) : ∀ c ∈ items, c.Readable := by
  unfold parse at h
  split at h
  · next found hfound =>
    cases h
    exact readable_of_items? hfound
  · cases h

/-- A cell adds constraints with bounds only. -/
theorem readable_of_addText (hd : d.Readable) (h : d.addText text = .ok d') : d'.Readable := by
  unfold addText at h
  dsimp only at h
  split at h
  · cases h
    exact hd
  · cases hparse : parse (Text.trim text) with
    | error e =>
      rw [hparse] at h
      cases h
    | ok items =>
      rw [hparse] at h
      cases h
      exact readable_append hd (readable_of_parse hparse)

theorem FromCells.readable (h : FromCells d) : d.Readable := by
  induction h with
  | empty => exact fun c hc => (List.not_mem_nil hc).elim
  | add _ added ih => exact readable_of_addText ih added
  | merge _ _ ih ih' => exact readable_append ih ih'

/-! ## What is written -/

theorem isBlank_of_isSeparator {c : Char} (h : isSeparator c = true) : Text.isBlank c = true := by
  simp only [isSeparator, Bool.or_eq_true, beq_iff_eq] at h
  obtain ((rfl | rfl) | rfl) | rfl := h <;> rfl

theorem skip_eq_self (h : ∀ c ∈ cs.head?, isSeparator c = false) : skip cs = cs := by
  cases cs with
  | nil => rfl
  | cons c cs => exact List.dropWhile_cons_of_neg (by simp [h c rfl])

theorem IsBound.bound?_eq (h : IsBound text) : bound? text.toList = some text := by
  have htrim : Text.trimChars text.toList = text.toList := h.trimmed
  unfold bound?
  rw [htrim]
  split
  · next hnil => exact (h.nonempty hnil).elim
  · next c more hcons => rw [← hcons, String.ofList_toList]

/-- A bound starts with no separator. -/
theorem IsBound.head (h : IsBound text) : ∀ c ∈ (text.toList ++ rest).head?, isSeparator c = false := by
  intro c hc
  rw [List.head?_append_of_ne_nil _ h.nonempty] at hc
  refine Bool.eq_false_iff.mpr fun hsep => ?_
  exact Bool.false_ne_true
    (((Text.isTrimmed_iff.mp h.trimmed).1 c hc).symm.trans (isBlank_of_isSeparator hsep))

section End

variable {bound : Option String} (hbound : ∀ text ∈ bound, IsBound text)

include hbound

theorem bound?_getD : bound? (bound.getD "").toList = bound := by
  cases bound with
  | none => rfl
  | some text => exact (hbound text rfl).bound?_eq

theorem span_getD (hrest : ∀ c ∈ rest.head?, isBoundChar c = false) :
    ((bound.getD "").toList ++ rest).takeWhile isBoundChar = (bound.getD "").toList ∧
      ((bound.getD "").toList ++ rest).dropWhile isBoundChar = rest := by
  cases bound with
  | none => exact span_append (fun c hc => (List.not_mem_nil hc).elim) hrest
  | some text => exact span_append (hbound text rfl).plain hrest

theorem head_getD (hrest : ∀ c ∈ rest.head?, isSeparator c = false) :
    ∀ c ∈ ((bound.getD "").toList ++ rest).head?, isSeparator c = false := by
  cases bound with
  | none => exact hrest
  | some text => exact (hbound text rfl).head

end End

/-- An item ends at a comma, at a closing brace, or with the text. -/
def EndsItem (rest : List Char) : Prop :=
  ∀ c ∈ rest.head?, c = ',' ∨ c = '}'

theorem EndsItem.not {p : Char → Bool} (h : EndsItem rest) (hcomma : p ',' = false)
    (hbrace : p '}' = false) : ∀ c ∈ rest.head?, p c = false := fun c hc =>
  (h c hc).elim (fun heq => heq ▸ hcomma) fun heq => heq ▸ hbrace

variable {c : Constraint}

/-- An item starts with no separator. -/
theorem skip_text (hc : c.Readable) : skip (c.text.toList ++ rest) = c.text.toList ++ rest := by
  apply skip_eq_self
  cases c with
  | value text => exact hc.head
  | range lower upper =>
    rw [Constraint.text, String.append_assoc, String.toList_append, List.append_assoc]
    refine head_getD hc.1 ?_
    rw [String.toList_append]
    exact fun c hc => Option.some.inj hc ▸ rfl

/-- A constraint is read back from its text up to the end of the item. -/
theorem item?_text (hc : c.Readable) (hrest : EndsItem rest) :
    item? (c.text.toList ++ rest) = some ([c], rest) := by
  have hplain := hrest.not (p := isBoundChar) rfl rfl
  have hsep := hrest.not (p := isSeparator) rfl rfl
  unfold item?
  dsimp only
  cases c with
  | value text =>
    obtain ⟨htake, hdrop⟩ := span_append hc.plain hplain
    have hcolon : expect? ':' rest = none := by
      unfold expect?
      rw [skip_eq_self hsep]
      cases rest with
      | nil => rfl
      | cons c rest => exact if_neg (by obtain rfl | rfl := hrest c rfl <;> decide)
    rw [Constraint.text, htake, hdrop, hcolon]
    simp [hc.nonempty, valueItem, hc.bound?_eq]
  | range lower upper =>
    have htext : (Constraint.range lower upper).text.toList ++ rest =
        (lower.getD "").toList ++ ':' :: ((upper.getD "").toList ++ rest) := by
      simp [Constraint.text]
    have hends : ∀ c ∈ (':' :: ((upper.getD "").toList ++ rest)).head?, isBoundChar c = false :=
      fun c hc => Option.some.inj hc ▸ rfl
    obtain ⟨htake, hdrop⟩ := span_getD hc.1 hends
    obtain ⟨htake', hdrop'⟩ := span_getD hc.2 hplain
    have hcolon : ∀ cs, expect? ':' (':' :: cs) = some cs := fun _ => rfl
    rw [htext, htake, hdrop, hcolon]
    dsimp only
    rw [skip_eq_self (head_getD hc.2 hsep), htake', hdrop', bound?_getD hc.1, bound?_getD hc.2]

/-- The items after the first one, each with the comma before it, and the closing brace. -/
def moreText (items : List Constraint) : List Char :=
  items.flatMap (fun c => ',' :: ' ' :: c.text.toList) ++ ['}']

theorem moreText_cons : moreText (c :: items) = ',' :: ' ' :: (c.text.toList ++ moreText items) := by
  simp [moreText]

theorem endsItem_moreText : EndsItem (moreText items) := by
  cases items with
  | nil => exact fun c hc => .inr (Option.some.inj hc).symm
  | cons => exact fun c hc => .inl (Option.some.inj hc).symm

theorem moreItems?_comma {first more : List Constraint} {after : List Char}
    (hfirst : item? (skip rest) = some (first, after)) (hmore : moreItems? after = some more) :
    moreItems? (',' :: rest) = some (first ++ more) := by
  have hskip : skip (',' :: rest) = ',' :: rest := rfl
  fun_cases moreItems? (',' :: rest) with
  | case4 rest' hcomma items after' hitem =>
    cases hskip.symm.trans hcomma
    cases hfirst.symm.trans hitem
    rw [hmore]
    rfl
  | case3 rest' hcomma hnone =>
    cases hskip.symm.trans hcomma
    cases hfirst.symm.trans hnone
  | case1 rest' hbrace | case2 rest' hbrace => cases hskip.symm.trans hbrace
  | case5 _ hother => exact (hother rest hskip).elim

/-- Each further item is read back, with the comma before it. -/
theorem moreItems?_moreText (h : ∀ c ∈ items, c.Readable) :
    moreItems? (moreText items) = some items := by
  induction items with
  | nil =>
    rw [moreItems?]
    rfl
  | cons c items ih =>
    have hitem : item? (skip (' ' :: (c.text.toList ++ moreText items))) =
        some ([c], moreText items) := by
      have hc := h c List.mem_cons_self
      rw [show skip (' ' :: (c.text.toList ++ moreText items)) =
        skip (c.text.toList ++ moreText items) from rfl, skip_text hc, item?_text hc endsItem_moreText]
    rw [moreText_cons]
    exact moreItems?_comma hitem (ih fun c hc => h c (List.mem_cons_of_mem _ hc))

/-- The text of a domain that is not empty: the first item follows the brace at once. -/
theorem toList_text_cons : (Domain.mk (c :: items)).text.toList =
    '{' :: (c.text.toList ++ moreText items) := by
  have hitems : (", ".intercalate ((c :: items).map Constraint.text)).toList =
      c.text.toList ++ items.flatMap fun c => ',' :: ' ' :: c.text.toList := by
    induction items generalizing c with
    | nil => simp
    | cons c' items ih =>
      rw [List.map_cons, List.map_cons, String.intercalate_cons_cons, ← List.map_cons,
        String.toList_append, ih, List.flatMap_cons]
      simp
  rw [text, String.toList_append, String.toList_append, hitems, moreText]
  simp

/-- The text of a domain stands in braces, so that no blanks are around it. -/
theorem trim_text : Text.trim d.text = d.text := by
  obtain ⟨inner, hinner⟩ : ∃ inner, d.text.toList = '{' :: (inner ++ ['}']) :=
    ⟨(", ".intercalate (d.constraints.map Constraint.text)).toList, by simp [text]⟩
  refine Text.trim_eq_self (Text.isTrimmed_iff.mpr ⟨fun c hc => ?_, fun c hc => ?_⟩)
  · rw [hinner] at hc
    exact Option.some.inj hc ▸ rfl
  · rw [hinner, ← List.cons_append, List.getLast?_concat] at hc
    exact Option.some.inj hc ▸ rfl

/-- A domain whose bounds are as they are read is read back from its text. -/
theorem parse_text (h : d.Readable) : parse d.text = .ok d.constraints := by
  have hitems : items? d.text.toList = some d.constraints := by
    obtain ⟨_ | ⟨c, items⟩⟩ := d
    · rfl
    · have hc := h c List.mem_cons_self
      have hmore := moreItems?_moreText fun c hc => h c (List.mem_cons_of_mem _ hc)
      have hbrace : ∀ cs, items? ('{' :: cs) = listItems? cs := fun _ => rfl
      rw [toList_text_cons, hbrace, listItems?, skip_text hc, item?_text hc endsItem_moreText]
      dsimp only
      rw [hmore]
      rfl
  rw [parse, hitems]

theorem addText_text (h : d.Readable) : Domain.empty.addText d.text = .ok d := by
  have hne : d.text.isEmpty = false := by
    simp [text]
  rw [addText, trim_text, hne, parse_text h]
  rfl

/-- The domains from cells are those that their own texts give back: the text that a listing shows
for such a domain, read as a cell into the empty domain, is that domain. -/
theorem addText_text_iff : d.FromCells ↔ Domain.empty.addText d.text = .ok d :=
  ⟨fun h => addText_text h.readable, fun h => .add .empty h⟩

/-- A cell with values, bounds with blanks inside and ranges that are open at either end or at both is
read as the domain that prints in the usual form and is read back from that. -/
example :
    let d : Domain := ⟨[.value "TPM_ALG_NULL", .range (some "LOW + 1") (some "1 << 4"),
      .range (some "3") none, .range none (some "sizeof (TPM_HT)"), .range none none,
      .value "7"]⟩
    Domain.empty.addText " { TPM_ALG_NULL,LOW + 1 : 1 << 4 ,3:, :sizeof (TPM_HT), : ,7} " =
        .ok d ∧
      d.text = "{TPM_ALG_NULL, LOW + 1:1 << 4, 3:, :sizeof (TPM_HT), :, 7}" ∧
      Domain.empty.addText d.text = .ok d := by
  decide +kernel

/-- A blank value, which no cell adds, is lost. -/
example : Domain.empty.addText (Domain.empty.addValue " ").text = .ok Domain.empty := by rfl

end Domain

end WireTables
