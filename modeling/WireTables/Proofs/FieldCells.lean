import WireTables.Proofs.Expression.Spelling
import WireTables.Proofs.Text.Blank
import WireTables.Table.Row

/-!
# Fields and their cells

The cell with the name of a field has up to seven more parts, each with a mark of its own: `@` for an
authorization, a selector in square brackets, then after the name `+`, `=` with or without a value, a
count in square brackets, and a domain in braces. Each part is taken off by its mark, and stops at
the mark of a later part, so that a field is read back from the cells that it is written in whichever
parts it has, from the row of a structure as from that of a command (`read_cells`).

Words and names may be of any script. What stands in brackets or braces may be any text without the
closing mark, blanks around a count apart, which are not kept. A field with both a value and the mark of
a size cannot be written, because the cell has one equals sign for both.
-/

namespace WireTables

open Expression (span_append)

namespace FieldRow

/-- An optional part between marks. -/
def between (opening closing : String) (part : Option String) : String :=
  match part with
  | some text => opening ++ text ++ closing
  | none => ""

/-- The part that tells of a fixed value or of a size. -/
def equalsPart (row : FieldRow) : String :=
  match row.constant with
  | some value => "=" ++ value
  | none => if row.sizeMarker then "=" else ""

/-- The name cell of a field, without any blanks between its parts. -/
def nameCell (row : FieldRow) : String :=
  (if row.requiresAuth then "@" else "") ++ between "[" "]" row.selector ++ row.name ++
    (if row.nullable then "+" else "") ++ row.equalsPart ++ between "[" "]" row.array ++
    row.domain.getD ""

/-- A non-empty text of word characters. -/
def IsWord (text : String) : Prop :=
  text.toList ≠ [] ∧ ∀ c ∈ text.toList, Text.isWord c = true

instance : DecidablePred IsWord := fun text =>
  decidable_of_iff (text.toList ≠ [] ∧ text.toList.all Text.isWord = true)
    (and_congr_right fun _ => List.all_eq_true)

/-- The parts of a field can be told apart in its cells. -/
structure Writable (row : FieldRow) : Prop where
  name : Table.isName row.name = true
  typeName : Table.isName row.typeName = true
  selector : ∀ text ∈ row.selector, IsWord text
  constant : ∀ text ∈ row.constant, IsWord text
  array : ∀ text ∈ row.array, Text.IsTrimmed text.toList ∧ ']' ∉ text.toList
  domain : ∀ text ∈ row.domain, ∃ inner, text.toList = '{' :: inner ++ ['}'] ∧ '}' ∉ inner
  comment : Text.IsTrimmed row.comment.toList
  single : row.sizeMarker = true → row.constant = none

end FieldRow

namespace Row

open FieldRow (between)

variable {rest cs inner : List Char}

/-! ## One part at a time -/

/-- What can be said of the first characters of two texts holds of the first one of both. -/
theorem head_append {p : Char → Prop} (h : ∀ c ∈ cs.head?, p c) (hrest : ∀ c ∈ rest.head?, p c) :
    ∀ c ∈ (cs ++ rest).head?, p c := by
  intro c hc
  rw [List.head?_append] at hc
  exact (Option.or_eq_some_iff.mp hc).elim (h c) fun hc => hrest c hc.2

theorem mark_here (c : Char) : mark c (c :: rest) = (true, rest) :=
  if_pos (beq_self_eq_true c)

theorem mark_absent {c : Char} (h : ∀ d ∈ cs.head?, d ≠ c) : mark c cs = (false, cs) := by
  cases cs with
  | nil => rfl
  | cons d cs => exact if_neg (by simpa using h d rfl)

/-- A mark is taken off if it is there. -/
theorem mark_append {c : Char} (present : Bool) (hrest : ∀ d ∈ rest.head?, d ≠ c) :
    mark c ((if present then [c] else []) ++ rest) = (present, rest) := by
  cases present with
  | true => exact mark_here c
  | false => exact mark_absent hrest

theorem skipBlanks_eq_self (h : ∀ c ∈ cs.head?, Text.isBlank c = false) : skipBlanks cs = cs := by
  cases cs with
  | nil => rfl
  | cons c cs => exact List.dropWhile_cons_of_neg (by simp [h c rfl])

/-- A word is taken off as a whole where no word character comes after it. -/
theorem word_append (hne : cs ≠ []) (hcs : ∀ c ∈ cs, Text.isWord c = true)
    (hrest : ∀ c ∈ rest.head?, Text.isWord c = false) : word (cs ++ rest) = (some cs, rest) := by
  obtain ⟨htake, hdrop⟩ := span_append hcs hrest
  unfold word
  rw [htake, hdrop]
  split
  · exact (hne rfl).elim
  · rfl

theorem word_eq_none (hrest : ∀ c ∈ rest.head?, Text.isWord c = false) :
    word rest = (none, rest) := by
  have htake : ([] ++ rest).takeWhile Text.isWord = [] := (span_append (by simp) hrest).1
  unfold word
  rw [← List.nil_append rest, htake]

/-- A name is taken off as a whole where no word character comes after it. -/
theorem name?_append (hname : Text.isName cs = true)
    (hrest : ∀ c ∈ rest.head?, Text.isWord c = false) : Text.name? (cs ++ rest) = some (cs, rest) := by
  cases cs with
  | nil => cases hname
  | cons c cs =>
    rw [Text.isName, Bool.and_eq_true, List.all_eq_true] at hname
    obtain ⟨htake, hdrop⟩ := span_append hname.2 hrest
    rw [List.cons_append, Text.name?, if_pos hname.1, htake, hdrop]

/-- The characters of an optional part between marks. -/
def betweenChars (opening closing : Char) (part : Option (List Char)) : List Char :=
  part.elim [] fun inner => opening :: inner ++ [closing]

theorem head_betweenChars {opening closing : Char} {part : Option (List Char)} :
    ∀ c ∈ (betweenChars opening closing part).head?, c = opening := by
  cases part with
  | none => exact nofun
  | some inner => exact fun c hc => (Option.some.inj hc).symm

/-- An optional part between marks is taken off if it is there. -/
theorem bracketed?_append {opening closing : Char} {part : Option (List Char)}
    (hpart : ∀ inner ∈ part, closing ∉ inner) (hrest : ∀ d ∈ rest.head?, d ≠ opening) :
    bracketed? opening closing (betweenChars opening closing part ++ rest) = some (part, rest) := by
  cases part with
  | none =>
    unfold bracketed?
    rw [betweenChars, Option.elim_none, List.nil_append, mark_absent hrest]
  | some inner =>
    have hinner : ∀ c ∈ inner, (c != closing) = true := fun c hc => bne_iff_ne.mpr fun heq =>
      hpart inner rfl (heq ▸ hc)
    have hclosing : ∀ c ∈ (closing :: rest).head?, (c != closing) = false := fun c hc =>
      Option.some.inj hc ▸ bne_self_eq_false closing
    obtain ⟨htake, hdrop⟩ := span_append hinner hclosing
    have htext : betweenChars opening closing (some inner) ++ rest =
        opening :: (inner ++ closing :: rest) := by
      simp [betweenChars]
    unfold bracketed?
    rw [htext, mark_here]
    dsimp only
    rw [upTo?, hdrop, htake]
    rfl

/-- A selector is taken off if it is there. -/
theorem selectorPart?_append {part : Option (List Char)}
    (hpart : ∀ inner ∈ part, inner ≠ [] ∧ ∀ c ∈ inner, Text.isWord c = true)
    (hrest : ∀ d ∈ rest.head?, d ≠ '[') :
    selectorPart? (betweenChars '[' ']' part ++ rest) = some (part, rest) := by
  cases part with
  | none =>
    unfold selectorPart?
    rw [betweenChars, Option.elim_none, List.nil_append, mark_absent hrest]
  | some inner =>
    have htext : betweenChars '[' ']' (some inner) ++ rest = '[' :: (inner ++ ']' :: rest) := by
      simp [betweenChars]
    obtain ⟨hne, hword⟩ := hpart inner rfl
    unfold selectorPart?
    rw [htext, mark_here]
    dsimp only
    have hbracket : ∀ c ∈ (']' :: rest).head?, Text.isWord c = false := fun c hc =>
      Option.some.inj hc ▸ by decide
    rw [word_append hne hword hbracket]
    rfl

/-! ## What follows the name -/

namespace NameSuffix

/-- The count and the domain as they are written. -/
def bracketChars (x : NameSuffix) : List Char :=
  betweenChars '[' ']' x.count ++ betweenChars '{' '}' x.domain

/-- The parts after a name as they are written. -/
def chars (x : NameSuffix) : List Char :=
  (if x.plus then ['+'] else []) ++
    ((if x.equals then ['='] else []) ++ (x.constant.getD [] ++ x.bracketChars))

/-- The parts after a name can be told apart. -/
structure Writable (x : NameSuffix) : Prop where
  constant : ∀ inner ∈ x.constant,
    x.equals = true ∧ inner ≠ [] ∧ ∀ c ∈ inner, Text.isWord c = true
  count : ∀ inner ∈ x.count, ']' ∉ inner
  domain : ∀ inner ∈ x.domain, '}' ∉ inner

variable {x : NameSuffix}

theorem head_bracketChars : ∀ c ∈ x.bracketChars.head?, c = '[' ∨ c = '{' :=
  head_append (fun c hc => .inl (head_betweenChars c hc)) fun c hc => .inr (head_betweenChars c hc)

/-- Without an equals sign there is no value. -/
theorem Writable.constant_eq_none (h : x.Writable) (hequals : x.equals = false) :
    x.constant = none := by
  refine Option.eq_none_iff_forall_not_mem.mpr fun inner hinner => ?_
  exact Bool.false_ne_true (hequals.symm.trans (h.constant inner hinner).1)

/-- A value stands behind an equals sign only. -/
theorem Writable.head_equals (h : x.Writable) : ∀ c ∈ ((if x.equals then ['='] else []) ++
    (x.constant.getD [] ++ x.bracketChars)).head?, c = '=' ∨ c = '[' ∨ c = '{' := by
  cases hequals : x.equals with
  | true => exact fun c hc => .inl (Option.some.inj hc).symm
  | false =>
    rw [h.constant_eq_none hequals]
    exact fun c hc => .inr (head_bracketChars c hc)

theorem Writable.head_chars (h : x.Writable) :
    ∀ c ∈ x.chars.head?, c = '+' ∨ c = '=' ∨ c = '[' ∨ c = '{' := by
  refine head_append (fun c hc => ?_) fun c hc => .inr (h.head_equals c hc)
  cases hplus : x.plus with
  | true =>
    rw [hplus] at hc
    exact .inl (Option.some.inj hc).symm
  | false =>
    rw [hplus] at hc
    cases hc

/-- What follows the equals sign is a word or in brackets. -/
theorem Writable.head_value (h : x.Writable) : ∀ c ∈ (x.constant.getD [] ++ x.bracketChars).head?,
    Text.isWord c = true ∨ c = '[' ∨ c = '{' := by
  refine head_append (fun c hc => ?_) fun c hc => .inr (head_bracketChars c hc)
  cases hconstant : x.constant with
  | none =>
    rw [hconstant] at hc
    cases hc
  | some inner =>
    rw [hconstant] at hc
    exact .inl ((h.constant inner hconstant).2.2 c (List.mem_of_mem_head? hc))

/-- The value is taken off if it is there. -/
theorem Writable.value_eq (h : x.Writable) :
    (if x.equals = true then word (skipBlanks (x.constant.getD [] ++ x.bracketChars))
      else (none, x.constant.getD [] ++ x.bracketChars)) = (x.constant, x.bracketChars) := by
  have hrest : ∀ c ∈ x.bracketChars.head?, Text.isWord c = false := by
    intro c hc
    obtain rfl | rfl := head_bracketChars c hc <;> decide
  split
  · rw [skipBlanks_eq_self]
    · cases hconstant : x.constant with
      | none => exact word_eq_none hrest
      | some inner =>
        obtain ⟨-, hne, hword⟩ := h.constant inner hconstant
        exact word_append hne hword hrest
    · intro c hc
      obtain hword | rfl | rfl := h.head_value c hc
      · exact Text.isBlank_of_isWord hword
      · rfl
      · rfl
  · next hequals =>
    rw [h.constant_eq_none (Bool.eq_false_iff.mpr hequals)]
    rfl

/-- Each part after a name is taken off in its turn. -/
theorem Writable.nameSuffix?_chars (h : x.Writable) : nameSuffix? x.chars = some x := by
  have hplus : mark '+' (skipBlanks x.chars) =
      (x.plus, (if x.equals then ['='] else []) ++ (x.constant.getD [] ++ x.bracketChars)) := by
    rw [skipBlanks_eq_self, chars, mark_append]
    · exact fun c hc => by obtain rfl | rfl | rfl := h.head_equals c hc <;> decide
    · exact fun c hc => by obtain rfl | rfl | rfl | rfl := h.head_chars c hc <;> rfl
  have hequals : mark '=' (skipBlanks ((if x.equals then ['='] else []) ++
      (x.constant.getD [] ++ x.bracketChars))) =
      (x.equals, x.constant.getD [] ++ x.bracketChars) := by
    rw [skipBlanks_eq_self, mark_append]
    · intro c hc
      obtain hword | rfl | rfl := h.head_value c hc
      · rintro rfl
        cases hword
      · decide
      · decide
    · exact fun c hc => by obtain rfl | rfl | rfl := h.head_equals c hc <;> rfl
  have hcount : bracketed? '[' ']' (skipBlanks x.bracketChars) =
      some (x.count, betweenChars '{' '}' x.domain) := by
    rw [skipBlanks_eq_self, bracketChars, bracketed?_append h.count]
    · exact fun c hc => by obtain rfl := head_betweenChars c hc; decide
    · exact fun c hc => by obtain rfl | rfl := head_bracketChars c hc <;> rfl
  have hdomain : bracketed? '{' '}' (skipBlanks (betweenChars '{' '}' x.domain)) =
      some (x.domain, []) := by
    rw [skipBlanks_eq_self, ← List.append_nil (betweenChars '{' '}' x.domain),
      bracketed?_append h.domain]
    · exact nofun
    · exact fun c hc => by obtain rfl := head_betweenChars c hc; rfl
  unfold nameSuffix?
  rw [hplus]
  dsimp only
  rw [hequals]
  dsimp only
  rw [h.value_eq]
  simp [hcount, hdomain]

end NameSuffix

/-! ## Whole cells -/

/-- The start of a name is a letter of ASCII or the low line. -/
theorem isWord_of_isNameStart {c : Char} (h : Text.isNameStart c = true) : Text.isWord c = true := by
  have hascii : c.toNat < 128 := by
    simp only [Text.isNameStart, Bool.or_eq_true, beq_iff_eq] at h
    obtain h | rfl := h
    · delta Char.isAlpha Char.isUpper Char.isLower at h
      simp only [Bool.or_eq_true, Bool.and_eq_true, decide_eq_true_eq, UInt32.le_iff_toNat_le] at h
      have hlast : 'Z'.val.toNat = 90 ∧ 'z'.val.toNat = 122 := ⟨rfl, rfl⟩
      show c.val.toNat < 128
      omega
    · decide
  rw [Text.isWord, if_pos hascii, Char.isAlphanum]
  simp only [Text.isNameStart, Bool.or_eq_true] at h ⊢
  exact h.imp_left .inl

theorem isWord_of_isName (h : Text.isName cs = true) : ∀ c ∈ cs, Text.isWord c = true := by
  cases cs with
  | nil => cases h
  | cons c cs =>
    rw [Text.isName, Bool.and_eq_true, List.all_eq_true] at h
    exact List.forall_mem_cons.mpr ⟨isWord_of_isNameStart h.1, h.2⟩

theorem ne_nil_of_isName (h : Text.isName cs = true) : cs ≠ [] := by
  rintro rfl
  cases h

/-- A type cell may be a name only. -/
theorem typeCell?_name {text : String} (h : Table.isName text = true) :
    typeCell? text.toList = some (text, false) := by
  have hwords := isWord_of_isName h
  have hplus : mark '+' text.toList = (false, text.toList) := mark_absent fun d hd => by
    have := hwords d (List.mem_of_mem_head? hd)
    rintro rfl
    cases this
  have hblank : skipBlanks text.toList = text.toList := skipBlanks_eq_self fun d hd =>
    Text.isBlank_of_isWord (hwords d (List.mem_of_mem_head? hd))
  have hname : Text.name? (text.toList ++ []) = some (text.toList, []) := name?_append h nofun
  rw [List.append_nil] at hname
  unfold typeCell?
  rw [hplus]
  dsimp only
  rw [hblank, hname]
  exact congrArg (fun name => some (name, false)) (String.ofList_toList (s := text))

end Row

namespace FieldRow

open Row (NameSuffix betweenChars)

variable {row : FieldRow}

theorem toList_between (part : Option String) :
    (between "[" "]" part).toList = betweenChars '[' ']' (part.map String.toList) := by
  cases part <;> simp [between, betweenChars]

/-- The parts of a name cell after the name. -/
def suffix (row : FieldRow) : NameSuffix where
  plus := row.nullable
  equals := row.sizeMarker || row.constant.isSome
  constant := row.constant.map String.toList
  count := row.array.map String.toList
  domain := row.domain.map fun text => text.toList.tail.dropLast

theorem Writable.suffix (h : row.Writable) : row.suffix.Writable where
  constant inner hinner := by
    obtain ⟨text, htext, rfl⟩ := Option.map_eq_some_iff.mp hinner
    obtain ⟨hne, hword⟩ := h.constant text htext
    exact ⟨by simp [FieldRow.suffix, Option.mem_def.mp htext], hne, hword⟩
  count inner hinner := by
    obtain ⟨text, htext, rfl⟩ := Option.map_eq_some_iff.mp hinner
    exact (h.array text htext).2
  domain inner hinner := by
    obtain ⟨text, htext, rfl⟩ := Option.map_eq_some_iff.mp hinner
    obtain ⟨inner, heq, hfree⟩ := h.domain text htext
    simpa [heq] using hfree

theorem toList_equalsPart : row.equalsPart.toList =
    (if row.suffix.equals then ['='] else []) ++ row.suffix.constant.getD [] := by
  cases hconstant : row.constant with
  | none => cases hsize : row.sizeMarker <;> simp [equalsPart, suffix, hconstant, hsize]
  | some value => simp [equalsPart, suffix, hconstant]

theorem Writable.toList_domain (h : row.Writable) :
    (row.domain.getD "").toList = betweenChars '{' '}' row.suffix.domain := by
  cases hdomain : row.domain with
  | none => simp [FieldRow.suffix, hdomain, betweenChars]
  | some text =>
    obtain ⟨inner, heq, -⟩ := h.domain text hdomain
    simp [FieldRow.suffix, hdomain, betweenChars, heq]

theorem Writable.toList_nameCell (h : row.Writable) : row.nameCell.toList =
    (if row.requiresAuth then ['@'] else []) ++
      (betweenChars '[' ']' (row.selector.map String.toList) ++
        (row.name.toList ++ row.suffix.chars)) := by
  simp only [nameCell, NameSuffix.chars, NameSuffix.bracketChars, String.toList_append,
    toList_between, toList_equalsPart, h.toList_domain, apply_ite String.toList, List.append_assoc]
  rfl

/-- What was put between marks comes back. -/
theorem map_ofList_toList (part : Option String) :
    (part.map String.toList).map String.ofList = part := by
  cases part <;> simp

/-- The parts of a name cell are those of the field. -/
theorem Writable.parts_eq (h : row.Writable) :
    (row.suffix.equals && row.suffix.constant.isNone) = row.sizeMarker ∧
      row.suffix.count.map (fun count => String.ofList (Text.trimChars count)) = row.array ∧
      row.suffix.domain.map (fun inner => String.ofList ('{' :: inner ++ ['}'])) = row.domain := by
  refine ⟨?_, ?_, ?_⟩
  · cases hsize : row.sizeMarker with
    | true => simp [FieldRow.suffix, hsize, h.single hsize]
    | false => cases hconstant : row.constant <;> simp [FieldRow.suffix, hsize, hconstant]
  · cases harray : row.array with
    | none => simp [FieldRow.suffix, harray]
    | some text =>
      have htrim : Text.trimChars text.toList = text.toList := (h.array text harray).1
      simp [FieldRow.suffix, harray, htrim]
  · cases hdomain : row.domain with
    | none => simp [FieldRow.suffix, hdomain]
    | some text =>
      obtain ⟨inner, heq, -⟩ := h.domain text hdomain
      have htext : text = String.ofList ('{' :: inner ++ ['}']) := by
        rw [← heq, String.ofList_toList]
      simp [FieldRow.suffix, hdomain, htext]

/-- What is left to read after the selector starts with the name. -/
theorem Writable.head_name (h : row.Writable) :
    ∀ d ∈ (row.name.toList ++ row.suffix.chars).head?, Text.isWord d = true := by
  rw [List.head?_append_of_ne_nil _ (Row.ne_nil_of_isName h.name)]
  exact fun d hd => Row.isWord_of_isName h.name d (List.mem_of_mem_head? hd)

theorem Writable.head_selector (h : row.Writable) :
    ∀ d ∈ (betweenChars '[' ']' (row.selector.map String.toList) ++
      (row.name.toList ++ row.suffix.chars)).head?, d = '[' ∨ Text.isWord d = true :=
  Row.head_append (fun d hd => .inl (Row.head_betweenChars d hd)) fun d hd => .inr (h.head_name d hd)

theorem Writable.head_nameCell (h : row.Writable) :
    ∀ d ∈ row.nameCell.toList.head?, d = '@' ∨ d = '[' ∨ Text.isWord d = true := by
  rw [h.toList_nameCell]
  refine Row.head_append (fun d hd => ?_) fun d hd => .inr (h.head_selector d hd)
  cases hauth : row.requiresAuth with
  | true =>
    rw [hauth] at hd
    exact .inl (Option.some.inj hd).symm
  | false =>
    rw [hauth] at hd
    cases hd

/-- A field is read back from its name cell and its type cell. -/
theorem Writable.field?_nameCell (h : row.Writable) :
    Row.field? row.nameCell row.typeName row.comment = some row := by
  have hmark := Row.mark_append (c := '@') row.requiresAuth fun d hd => by
    obtain rfl | hword := h.head_selector d hd
    · decide
    · rintro rfl
      cases hword
  have hpart : Row.selectorPart? (betweenChars '[' ']' (row.selector.map String.toList) ++
      (row.name.toList ++ row.suffix.chars)) =
        some (row.selector.map String.toList, row.name.toList ++ row.suffix.chars) := by
    refine Row.selectorPart?_append (fun inner hinner => ?_) fun d hd => ?_
    · obtain ⟨text, htext, rfl⟩ := Option.map_eq_some_iff.mp hinner
      exact h.selector text htext
    · rintro rfl
      cases h.head_name '[' hd
  have hrest : Text.name? (row.name.toList ++ row.suffix.chars) =
      some (row.name.toList, row.suffix.chars) := by
    refine Row.name?_append h.name fun d hd => ?_
    obtain rfl | rfl | rfl | rfl := h.suffix.head_chars d hd <;> decide
  have hblank := Row.skipBlanks_eq_self fun d hd => by
    obtain rfl | hword := h.head_selector d hd
    · rfl
    · exact Text.isBlank_of_isWord hword
  have hblank' := Row.skipBlanks_eq_self fun d hd => Text.isBlank_of_isWord (h.head_name d hd)
  obtain ⟨hsize, harray, hdomain⟩ := h.parts_eq
  unfold Row.field?
  simp only [h.toList_nameCell, hmark, hblank, hpart, hblank', hrest, h.suffix.nameSuffix?_chars,
    Row.typeCell?_name h.typeName, hsize, harray, hdomain, map_ofList_toList, String.ofList_toList,
    Option.bind_eq_bind, Option.bind_some, Option.pure_def, Bool.or_false]
  rw [show row.suffix.constant.map String.ofList = row.constant from map_ofList_toList _]
  rfl

/-! ## Rows -/

theorem Writable.isTrimmed_nameCell (h : row.Writable) : Text.IsTrimmed row.nameCell.toList := by
  have hmark : ∀ (present : Bool) {c : Char}, Text.isBlank c = false →
      Text.IsTrimmed (if present then [c] else []) := by
    intro present c hc
    cases present with
    | true => exact Text.isTrimmed_iff.mpr ⟨fun d hd => Option.some.inj hd ▸ hc,
        fun d hd => Option.some.inj hd ▸ hc⟩
    | false => rfl
  have hbetween : ∀ (part : Option (List Char)) {o c : Char}, Text.isBlank o = false →
      Text.isBlank c = false → Text.IsTrimmed (betweenChars o c part) := by
    intro part o c ho hc
    cases part with
    | none => rfl
    | some inner =>
      refine Text.isTrimmed_iff.mpr ⟨fun d hd => Option.some.inj hd ▸ ho, fun d hd => ?_⟩
      rw [betweenChars, Option.elim_some, List.getLast?_concat] at hd
      exact Option.some.inj hd ▸ hc
  have hword : ∀ part ∈ row.suffix.constant, Text.IsTrimmed part := fun part hpart =>
    Text.isTrimmed_of_isWord (h.suffix.constant part hpart).2.2
  have hconstant : Text.IsTrimmed (row.suffix.constant.getD []) := by
    cases hpart : row.suffix.constant with
    | none => rfl
    | some part => exact hword part hpart
  rw [h.toList_nameCell]
  exact (hmark _ rfl).append <| (hbetween _ rfl rfl).append <|
    (Text.isTrimmed_of_isWord (Row.isWord_of_isName h.name)).append <| (hmark _ rfl).append <|
    (hmark _ rfl).append <| hconstant.append <| (hbetween _ rfl rfl).append (hbetween _ rfl rfl)

theorem Writable.ne_nil_nameCell (h : row.Writable) : row.nameCell.toList ≠ [] := by
  rw [h.toList_nameCell]
  simp [Row.ne_nil_of_isName h.name]

theorem Writable.isTrimmed_typeName (h : row.Writable) : Text.IsTrimmed row.typeName.toList :=
  Text.isTrimmed_of_isWord (Row.isWord_of_isName h.typeName)

/-- A cell that does not start with `#` is not that of an error code. -/
theorem dropHead?_errorCode {text : String} (h : ∀ d ∈ text.toList.head?, d ≠ '#') :
    Text.dropHead? "#" text = none := by
  have hnot : "#".toList.isPrefixOf text.toList = false := by
    cases htext : text.toList with
    | nil => rfl
    | cons d rest =>
      have hd := h d (htext ▸ rfl)
      simp [List.isPrefixOf, hd.symm]
  rw [Text.dropHead?, Text.dropHeadChars?, hnot]
  rfl

variable {first second : String}

/-- A row of three cells without an error code is taken cell by cell. -/
theorem read_three {α : Type} {content? : List String → Option (Row α)} {comment : String}
    (hfirst : Text.IsTrimmed first.toList) (hne : first.toList ≠ [])
    (hhead : ∀ d ∈ first.toList.head?, d ≠ '#') :
    Row.read content? [first, second, comment] = content? [first, second, comment] := by
  have hblank : [first, second, comment].all Text.isBlankText = false := by
    simp [Text.isBlankText_of_isTrimmed hfirst hne]
  have hcell : Table.cell [first, second, comment] 0 = first := Text.trim_eq_self hfirst
  unfold Row.read
  rw [hblank, hcell, dropHead?_errorCode hhead]
  rfl

/-- What stands in the third cell is the comment. -/
theorem cellsFrom_two {comment : String} (h : Text.IsTrimmed comment.toList) :
    Table.cellsFrom [first, second, comment] 2 = comment := by
  have htrim := Text.trim_eq_self h
  unfold Table.cellsFrom
  cases hempty : comment.isEmpty with
  | true =>
    obtain rfl := String.isEmpty_iff.mp hempty
    rfl
  | false => simp [htrim, hempty]

theorem Writable.read_structureField? (h : row.Writable) :
    Row.read Row.structureField? [row.nameCell, row.typeName, row.comment] = some (.content row) := by
  rw [read_three h.isTrimmed_nameCell h.ne_nil_nameCell fun d hd => ?_]
  · have hname : Table.cell [row.nameCell, row.typeName, row.comment] 0 = row.nameCell :=
      Text.trim_eq_self h.isTrimmed_nameCell
    have htype : Table.cell [row.nameCell, row.typeName, row.comment] 1 = row.typeName :=
      Text.trim_eq_self h.isTrimmed_typeName
    rw [Row.structureField?, hname, htype, cellsFrom_two h.comment, h.field?_nameCell]
    rfl
  · obtain rfl | rfl | hword := h.head_nameCell d hd
    · decide
    · decide
    · rintro rfl
      cases hword

theorem Writable.read_command? (h : row.Writable) (hheader : row.nameCell ∉ Row.commandHeaderNames) :
    Row.read Row.command? [row.typeName, row.nameCell, row.comment] =
      some (.content (.parameter row)) := by
  have hwords := Row.isWord_of_isName h.typeName
  rw [read_three h.isTrimmed_typeName (Row.ne_nil_of_isName h.typeName) fun d hd => ?_]
  · have htype : Table.cell [row.typeName, row.nameCell, row.comment] 0 = row.typeName :=
      Text.trim_eq_self h.isTrimmed_typeName
    have hname : Table.cell [row.typeName, row.nameCell, row.comment] 1 = row.nameCell :=
      Text.trim_eq_self h.isTrimmed_nameCell
    have hcontains : Row.commandHeaderNames.contains row.nameCell = false := by
      simpa using hheader
    unfold Row.command?
    simp only [hname, htype, hcontains, cellsFrom_two h.comment, h.field?_nameCell]
    rfl
  · have hword := hwords d (List.mem_of_mem_head? hd)
    rintro rfl
    cases hword

/-- A field is read back from the row that it is written in: that of a structure, and with the first
two cells in the other order that of a command, where its name cell is not one of the header. -/
theorem read_cells (h : row.Writable) :
    Row.read Row.structureField? [row.nameCell, row.typeName, row.comment] =
        some (.content row) ∧
      (row.nameCell ∉ Row.commandHeaderNames →
        Row.read Row.command? [row.typeName, row.nameCell, row.comment] =
          some (.content (.parameter row))) :=
  ⟨h.read_structureField?, h.read_command?⟩

/-- A field with most of the parts. -/
def digestRow : FieldRow where
  name := "digest"
  typeName := "TPMU_HA"
  requiresAuth := true
  selector := some "hashAlg"
  nullable := true
  constant := some "TPM_MAGIC"
  array := some "size of \x7bkey [x"
  domain := some "\x7b:sizeof(TPMU_HA), [1]\x7d"
  comment := "the digest, or none"

theorem writable_digestRow : digestRow.Writable where
  name := by decide
  typeName := by decide
  selector := by decide
  constant := by decide
  array := by decide
  domain := by
    rintro text ⟨⟩
    exact ⟨":sizeof(TPMU_HA), [1]".toList, by decide, by decide⟩
  comment := by decide
  single := by decide

theorem read_digestRow : digestRow.Writable ∧
    digestRow.nameCell = "@[hashAlg]digest+=TPM_MAGIC[size of \x7bkey [x]\x7b:sizeof(TPMU_HA), [1]\x7d" ∧
    Row.read Row.structureField? [digestRow.nameCell, "TPMU_HA", "the digest, or none"] =
      some (.content digestRow) ∧
    Row.read Row.command? ["TPMU_HA", digestRow.nameCell, "the digest, or none"] =
      some (.content (.parameter digestRow)) :=
  have hcells := read_cells writable_digestRow
  ⟨writable_digestRow, by decide +kernel, hcells.1, hcells.2 (by decide +kernel)⟩

end FieldRow

end WireTables
