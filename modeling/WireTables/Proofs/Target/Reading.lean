import WireTables.Language
import WireTables.Proofs.Expression.Spelling
import WireTables.Proofs.Expression.Unique
import WireTables.Proofs.Target.Arithmetic
import WireTables.Proofs.Text.Digits
import WireTables.Target.Text

/-!
# Reading values in a target language

What the text of a value says in a target language (`Reads`): blanks and comments are dropped, words
are numbers or names, perhaps after the name of a type and a point, and operators have their usual
precedence, which is that of the grammar of expressions. A sign before a number where an operand is due
belongs to the number. The value of a text is unique (`Reads.unique`).

Languages read more than this, but nothing of what is read here in another way: a number with zeros
before it is refused, and so are signs that stand side by side.
-/

namespace WireTables

/-- Whether an operand is due after the token. -/
def Token.wants : Token → Bool
  | .operator _ | .openParen => true
  | _ => false

namespace Target

open Expression (Derives isHexDigit isIdentifierChar isIdentifierChar_of_spelled isSeparator
  spelled_hexUpper spelled_toString)

/-- A character of a number or of a name, also of one after that of a type. -/
def isWordChar (c : Char) : Bool :=
  isIdentifierChar c || c == '.'

/-- A decimal number starts with zeros that it does not need. One language takes them in a number that
is zero. -/
def padded (lang : Language) : List Char → Bool
  | '0' :: c :: rest => c.isDigit && !(lang == .py && (c :: rest).all (· == '0'))
  | _ => false

/-- The digits of a number in base sixteen. -/
def hexDigits? : List Char → Option (List Char)
  | '0' :: mark :: digits =>
    if (mark == 'x' || mark == 'X') && !digits.isEmpty && digits.all isHexDigit then some digits
    else none
  | _ => none

/-- The number that a word is. -/
def number? (lang : Language) (cs : List Char) : Option Nat :=
  match hexDigits? cs with
  | some digits => some (Text.ofHex digits)
  | none => if cs.all Char.isDigit && !padded lang cs then some (Text.ofDecimal cs) else none

/-- The token of a word: a number if it starts with a digit, and a name otherwise. -/
def word? (lang : Language) : List Char → Option Token
  | [] => none
  | c :: cs =>
    if c.isDigit then
      (number? lang (c :: cs)).map fun (n : Nat) => .number n (String.ofList (c :: cs))
    else if c == '.' then none
    else some (.name (String.ofList (c :: cs)))

/-- The symbol at the start of a text, and what follows it. -/
def symbol? (lang : Language) : List Char → Option (Token × List Char)
  | '<' :: '<' :: rest => some (.operator .shift, rest)
  | '/' :: '/' :: rest => if lang == .py then some (.operator .div, rest) else none
  | '/' :: rest => if lang == .py then none else some (.operator .div, rest)
  | '+' :: '+' :: _ | '-' :: '-' :: _ | '*' :: '*' :: _ => none
  | '+' :: rest => some (.operator .add, rest)
  | '-' :: rest => some (.operator .sub, rest)
  | '*' :: rest => some (.operator .mul, rest)
  | '(' :: rest => some (.openParen, rest)
  | ')' :: rest => some (.closeParen, rest)
  | _ => none

/-- The lexeme at the start of a text, and what follows it. -/
def lexeme? (lang : Language) : List Char → Option (Token × List Char)
  | [] => none
  | c :: rest =>
    if isWordChar c then
      (word? lang (c :: rest.takeWhile isWordChar)).map (·, rest.dropWhile isWordChar)
    else symbol? lang (c :: rest)

/-- What follows the end of a comment. -/
def commentEnd? : List Char → Option (List Char)
  | [] => none
  | '*' :: '/' :: rest => some rest
  | _ :: rest => commentEnd? rest

/-- What follows the blank or comment at the start of a text. -/
def gap? (lang : Language) : List Char → Option (List Char)
  | [] => none
  | '/' :: '*' :: rest => if lang == .py then none else commentEnd? rest
  | '/' :: '/' :: rest => if lang == .py then none else some (rest.dropWhile (· != '\n'))
  | c :: rest => if isSeparator c then some rest else none

section Length

variable {lang : Language} {cs rest : List Char}

theorem length_of_commentEnd? (h : commentEnd? cs = some rest) : rest.length < cs.length := by
  fun_induction commentEnd? cs with
  | case1 => cases h
  | case2 =>
    cases h
    simp only [List.length_cons]
    omega
  | case3 c cs _ ih =>
    have := ih h
    simp only [List.length_cons]
    omega

theorem length_of_gap? (h : gap? lang cs = some rest) : rest.length < cs.length := by
  unfold gap? at h
  split at h
  · cases h
  · split at h
    · cases h
    · have := length_of_commentEnd? h
      simp only [List.length_cons]
      omega
  · next text =>
    split at h
    · cases h
    · cases h
      have := (List.dropWhile_sublist (l := text) (· != '\n')).length_le
      simp only [List.length_cons]
      omega
  · split at h
    · cases h
      exact Nat.lt_succ_self _
    · cases h

theorem length_of_symbol? {t : Token} (h : symbol? lang cs = some (t, rest)) :
    rest.length < cs.length := by
  unfold symbol? at h
  grind

theorem length_of_lexeme? {t : Token} (h : lexeme? lang cs = some (t, rest)) :
    rest.length < cs.length := by
  unfold lexeme? at h
  split at h
  · cases h
  next c text =>
  split at h
  · obtain ⟨_, -, h⟩ := Option.map_eq_some_iff.mp h
    cases h
    have := (List.dropWhile_sublist (l := text) isWordChar).length_le
    simp only [List.length_cons]
    omega
  · exact length_of_symbol? h

end Length

/-- All lexemes of a text, if every part of it is one. -/
def lexemes? (lang : Language) (cs : List Char) : Option (List Token) :=
  if cs.isEmpty then some []
  else
    match _gap : gap? lang cs with
    | some rest => lexemes? lang rest
    | none =>
      match _lexeme : lexeme? lang cs with
      | some (t, rest) => (lexemes? lang rest).map (t :: ·)
      | none => none
termination_by cs.length
decreasing_by
  · exact length_of_gap? _gap
  · exact length_of_lexeme? _lexeme

/-- The tokens with each sign taken into the number after it where an operand is due. -/
def signed : Bool → List Token → List Token
  | _, [] => []
  | true, .operator .sub :: .number n text :: ts => .number (-n) ("-" ++ text) :: signed false ts
  | _, t :: ts => t :: signed t.wants ts

/-- The tokens of a text. -/
def tokens? (lang : Language) (text : String) : Option (List Token) :=
  (lexemes? lang text.toList).map (signed true)

/-- The text says the number in the language, where names stand for whole numbers. -/
def Reads (lang : Language) (A : Arithmetic) (reference : String → Option Int) (text : String)
    (v : A.Number) : Prop :=
  ∃ ts e, tokens? lang text = some ts ∧ Derives .shift ts e ∧ e.calculated A reference = some v

theorem Reads.unique {lang : Language} {A : Arithmetic} {reference : String → Option Int}
    {text : String} {v v' : A.Number} (h : Reads lang A reference text v)
    (h' : Reads lang A reference text v') : v = v' := by
  obtain ⟨ts, e, ht, he, hv⟩ := h
  obtain ⟨ts', e', ht', he', hv'⟩ := h'
  obtain rfl := Option.some.inj (ht.symm.trans ht')
  obtain rfl := he.unique he'
  exact Option.some.inj (hv.symm.trans hv')

/-! ## Pieces of text -/

section Pieces

variable {lang : Language} {cs rest : List Char} {t : Token}

theorem lexemes?_of_gap (h : gap? lang cs = some rest) : lexemes? lang cs = lexemes? lang rest := by
  cases cs with
  | nil => cases h
  | cons c cs =>
    rw [lexemes?]
    split
    · next heq => simp at heq
    · split
      · next heq =>
        cases h.symm.trans heq
        rfl
      · next heq => cases h.symm.trans heq

theorem lexemes?_of_lexeme (hg : gap? lang cs = none) (h : lexeme? lang cs = some (t, rest)) :
    lexemes? lang cs = (lexemes? lang rest).map (t :: ·) := by
  cases cs with
  | nil => cases h
  | cons c cs =>
    rw [lexemes?]
    split
    · next heq => simp at heq
    · split
      · next heq => cases hg.symm.trans heq
      · split
        · next heq =>
          cases h.symm.trans heq
          rfl
        · next heq => cases h.symm.trans heq

theorem lexemes?_blank (lang : Language) (cs : List Char) :
    lexemes? lang (' ' :: cs) = lexemes? lang cs :=
  lexemes?_of_gap rfl

/-- No character that would go on with a word comes first. -/
def Free (cs : List Char) : Prop :=
  ∀ c rest, cs = c :: rest → isWordChar c = false

theorem Free.takeWhile (h : Free cs) : cs.takeWhile isWordChar = [] := by
  cases cs with
  | nil => rfl
  | cons c cs => rw [List.takeWhile_cons, h c cs rfl, if_neg (by decide)]

theorem Free.dropWhile (h : Free cs) : cs.dropWhile isWordChar = cs := by
  cases cs with
  | nil => rfl
  | cons c cs => rw [List.dropWhile_cons, h c cs rfl, if_neg (by decide)]

theorem gap?_word {c : Char} (hc : isWordChar c = true) (cs : List Char) :
    gap? lang (c :: cs) = none := by
  unfold gap?
  split
  · rfl
  · next heq =>
    cases heq
    cases hc
  · next heq =>
    cases heq
    cases hc
  · next heq =>
    cases heq
    rw [if_neg]
    intro hsep
    simp only [isSeparator, Bool.or_eq_true, beq_iff_eq] at hsep
    rcases hsep with ((rfl | rfl) | rfl) | rfl <;> cases hc

/-- A word is read up to its end. -/
theorem lexemes?_word {w : List Char} (hw : ∀ c ∈ w, isWordChar c = true)
    (ht : word? lang w = some t) (hcs : Free cs) :
    lexemes? lang (w ++ cs) = (lexemes? lang cs).map (t :: ·) := by
  cases w with
  | nil => cases ht
  | cons c w =>
    have hc := hw c List.mem_cons_self
    have hrest : ∀ d ∈ w, isWordChar d = true := fun d hd => hw d (List.mem_cons_of_mem c hd)
    have htake : (w ++ cs).takeWhile isWordChar = w := by
      rw [List.takeWhile_append_of_pos hrest, hcs.takeWhile, List.append_nil]
    have hdrop : (w ++ cs).dropWhile isWordChar = cs := by
      rw [List.dropWhile_append_of_pos hrest, hcs.dropWhile]
    refine lexemes?_of_lexeme (gap?_word hc _) ?_
    show lexeme? lang (c :: (w ++ cs)) = some (t, cs)
    rw [lexeme?, if_pos hc, htake, hdrop, ht, Option.map_some]

theorem lexemes?_openParen (lang : Language) (cs : List Char) :
    lexemes? lang ('(' :: cs) = (lexemes? lang cs).map (.openParen :: ·) :=
  lexemes?_of_lexeme rfl rfl

theorem lexemes?_closeParen (lang : Language) (cs : List Char) :
    lexemes? lang (')' :: cs) = (lexemes? lang cs).map (.closeParen :: ·) :=
  lexemes?_of_lexeme rfl rfl

/-- A sign directly before a digit. -/
theorem lexemes?_sign {c : Char} (hc : c.isDigit = true) (cs : List Char) :
    lexemes? lang ('-' :: c :: cs) = (lexemes? lang (c :: cs)).map (.operator .sub :: ·) := by
  have hne : c ≠ '-' := by
    rintro rfl
    cases hc
  refine lexemes?_of_lexeme rfl ?_
  show symbol? lang ('-' :: c :: cs) = some (.operator .sub, c :: cs)
  simp [symbol?, hne]

theorem lexemes?_operator {A : Arithmetic} (hA : Speaks lang A) (op : Operator) (cs : List Char) :
    lexemes? lang ((operatorText lang op).toList ++ cs) =
      (lexemes? lang cs).map (.operator op :: ·) := by
  cases hA <;> cases op <;>
    exact (lexemes?_blank ..).trans ((lexemes?_of_lexeme rfl rfl).trans
      (congrArg (Option.map _) (lexemes?_blank ..)))

/-- A comment is dropped where the language has them. -/
theorem lexemes?_note (name : List Char) (hname : ∀ c ∈ name, c ≠ '*') (cs : List Char) :
    lexemes? .node ('/' :: '*' :: (name ++ '*' :: '/' :: cs)) = lexemes? .node cs := by
  refine lexemes?_of_gap ?_
  show commentEnd? (name ++ '*' :: '/' :: cs) = some cs
  induction name with
  | nil => rfl
  | cons c name ih =>
    have hc := hname c List.mem_cons_self
    rw [List.cons_append, commentEnd?]
    · exact ih fun d hd => hname d (List.mem_cons_of_mem c hd)
    · rintro rest rfl
      exact absurd rfl hc

end Pieces

/-! ## Numbers and names -/

section Words

variable {lang : Language}

theorem hexDigits?_of_decimal {cs : List Char} (h : ∀ c ∈ cs, c.isDigit = true) :
    hexDigits? cs = none := by
  unfold hexDigits?
  split
  · next mark digits =>
    have hmark := h mark (by simp)
    rw [if_neg]
    intro hcond
    simp only [Bool.and_eq_true, Bool.or_eq_true, beq_iff_eq] at hcond
    obtain ⟨⟨rfl | rfl, -⟩, -⟩ := hcond <;> cases hmark
  · rfl

/-- A decimal number is read where it is not padded. -/
theorem word?_decimal {cs : List Char} (hne : cs ≠ []) (h : ∀ c ∈ cs, c.isDigit = true)
    (hp : padded lang cs = false) :
    word? lang cs = some (.number (Text.ofDecimal cs) (String.ofList cs)) := by
  cases cs with
  | nil => exact absurd rfl hne
  | cons c cs =>
    have hc := h c List.mem_cons_self
    have hall : (c :: cs).all Char.isDigit = true := List.all_eq_true.mpr h
    rw [word?, if_pos hc, number?, hexDigits?_of_decimal h]
    simp only [hall, hp, Bool.not_false, Bool.and_self, if_true, Option.map_some]

/-- A number in base sixteen is read. -/
theorem word?_hex {mark : Char} {digits : List Char} (hmark : mark = 'x' ∨ mark = 'X')
    (hne : digits ≠ []) (h : ∀ c ∈ digits, isHexDigit c = true) :
    word? lang ('0' :: mark :: digits) =
      some (.number (Text.ofHex digits) (String.ofList ('0' :: mark :: digits))) := by
  have hall : digits.all isHexDigit = true := List.all_eq_true.mpr h
  have hempty : digits.isEmpty = false := by simpa using hne
  have hdigits : hexDigits? ('0' :: mark :: digits) = some digits := by
    simp [hexDigits?, hmark, hall, hempty]
  rw [word?, if_pos (by decide), number?, hdigits]
  rfl

/-- A number is read as it was read before. -/
theorem word?_of_spelled {n : Int} {text : String} (h : (Token.number n text).Spelled)
    (hp : padded lang text.toList = false) :
    word? lang text.toList = some (.number n text) ∧ ∀ c ∈ text.toList, isWordChar c = true := by
  refine ⟨?_, fun c hc => by simp [isWordChar, isIdentifierChar_of_spelled h c hc]⟩
  cases h with
  | inl h =>
    obtain ⟨mark, digits, htext, hmark, hne, hdigits, rfl⟩ := h
    rw [htext, word?_hex hmark hne hdigits, ← htext, String.ofList_toList]
  | inr h =>
    obtain ⟨hne, hdigits, rfl⟩ := h
    rw [word?_decimal hne hdigits hp, String.ofList_toList]

/-- A name, perhaps after that of a type. -/
def IsReference (text : String) : Prop :=
  (∀ c ∈ text.toList, isWordChar c = true) ∧
    ∃ c rest, text.toList = c :: rest ∧ c.isDigit = false ∧ c ≠ '.'

instance (text : String) : Decidable (IsReference text) :=
  decidable_of_iff (text.toList.all isWordChar = true ∧
      (text.toList.head?.any fun c => !c.isDigit && c != '.') = true) <| by
    unfold IsReference
    cases text.toList <;> simp

theorem word?_of_isReference {text : String} (h : IsReference text) :
    word? lang text.toList = some (.name text) := by
  obtain ⟨-, c, rest, htext, hdigit, hpoint⟩ := h
  rw [htext, word?, if_neg (by simp [hdigit]), if_neg (by simpa using hpoint), ← htext,
    String.ofList_toList]

theorem padded_of_ne {c : Char} (hc : c ≠ '0') (cs : List Char) : padded lang (c :: cs) = false := by
  unfold padded
  split
  · next heq =>
    cases heq
    exact absurd rfl hc
  · rfl

theorem padded_toString (n : Nat) : padded lang (toString n).toList = false := by
  rw [Text.toList_toString]
  cases Nat.eq_zero_or_pos n with
  | inl h =>
    rw [h]
    rfl
  | inr h =>
    obtain ⟨d, rest, hd, hlt, heq⟩ := Text.exists_head_of_toDigits (b := 10) (by decide) h
    have hne : ∀ d < 10, 0 < d → Nat.digitChar d ≠ '0' := by decide
    rw [heq]
    exact padded_of_ne (hne d hlt hd) rest

theorem padded_hexUpper (n : Nat) : padded lang ("0x" ++ Text.hexUpper n).toList = false := by
  simp [Text.hexUpper, padded]

end Words

/-! ## Pieces one after the other -/

section Says

variable {lang : Language}

/-- The piece is read as the token, where an operand is due or not. An operand ends where no word goes
on. -/
def Says (lang : Language) (due : Bool) (piece : List Char) (t : Token) : Prop :=
  ∀ cs, (t.kind = .operand → Free cs) → (lexemes? lang (piece ++ cs)).map (signed due) =
    ((lexemes? lang cs).map (signed t.wants)).map (t :: ·)

theorem says_word {w : List Char} {t : Token} (hw : ∀ c ∈ w, isWordChar c = true)
    (ht : word? lang w = some t) (hk : t.kind = .operand) : Says lang true w t := by
  intro cs hcs
  rw [lexemes?_word hw ht (hcs hk), Option.map_map, Option.map_map]
  congr 1
  funext ts
  cases t with
  | operator => cases hk
  | _ => rfl

theorem says_number {n : Int} {text : String} (h : (Token.number n text).Spelled)
    (hp : padded lang text.toList = false) : Says lang true text.toList (.number n text) := by
  obtain ⟨ht, hw⟩ := word?_of_spelled h hp
  exact says_word hw ht rfl

theorem says_reference {text : String} (h : IsReference text) :
    Says lang true text.toList (.name text) :=
  says_word h.1 (word?_of_isReference h) rfl

/-- A sign belongs to the number after it. -/
theorem says_negative {n : Nat} {text : String} (h : (Token.number n text).Spelled)
    (hp : padded lang text.toList = false) {c : Char} {rest : List Char}
    (htext : text.toList = c :: rest) (hc : c.isDigit = true) :
    Says lang true ('-' :: text.toList) (.number (-n) ("-" ++ text)) := by
  intro cs hcs
  obtain ⟨ht, hw⟩ := word?_of_spelled h hp
  have hsign : lexemes? lang ('-' :: (text.toList ++ cs)) =
      (lexemes? lang (text.toList ++ cs)).map (.operator .sub :: ·) := by
    rw [htext]
    exact lexemes?_sign hc _
  rw [List.cons_append, hsign, lexemes?_word hw ht (hcs rfl)]
  simp only [Option.map_map]
  rfl

/-- A value is read as it is written. -/
theorem says_literal (n : Int) : Says lang true (literal n).toList (.number n (literal n)) := by
  unfold literal
  by_cases hn : n > 0xFF
  · obtain ⟨m, rfl⟩ := Int.eq_ofNat_of_zero_le (show 0 ≤ n by omega)
    rw [if_pos hn, Int.toNat_natCast]
    exact says_number (spelled_hexUpper m) (padded_hexUpper m)
  · rw [if_neg hn]
    cases n with
    | ofNat m => exact says_number (spelled_toString m) (padded_toString m)
    | negSucc m =>
      have htext : (toString (Int.negSucc m)) = "-" ++ toString (m + 1) := rfl
      have hlist : ("-" ++ toString (m + 1)).toList = '-' :: (toString (m + 1)).toList := by simp
      obtain ⟨d, rest, -, hlt, heq⟩ := Text.exists_head_of_toDigits (b := 10) (by decide)
        (Nat.succ_pos m)
      have hdigit : ∀ d < 10, (Nat.digitChar d).isDigit = true := by decide
      rw [htext, hlist]
      exact says_negative (spelled_toString (m + 1)) (padded_toString (m + 1))
        ((Text.toList_toString _).trans heq) (hdigit d hlt)

theorem says_operator {A : Arithmetic} (hA : Speaks lang A) (op : Operator) :
    Says lang false (operatorText lang op).toList (.operator op) := by
  intro cs _
  rw [lexemes?_operator hA, Option.map_map, Option.map_map]
  congr 1
  funext ts
  cases op <;> simp [signed, Token.wants]

theorem says_openParen : Says lang true ['('] .openParen := by
  intro cs _
  rw [List.singleton_append, lexemes?_openParen, Option.map_map, Option.map_map]
  rfl

theorem says_closeParen : Says lang false [')'] .closeParen := by
  intro cs _
  rw [List.singleton_append, lexemes?_closeParen, Option.map_map, Option.map_map]
  rfl

/-- A comment behind an operand is not read. -/
theorem Says.note {piece : List Char} {t : Token} (h : Says .node true piece t) {name : List Char}
    (hname : ∀ c ∈ name, c ≠ '*') :
    Says .node true (piece ++ (' ' :: '/' :: '*' :: (name ++ ['*', '/']))) t := by
  intro cs _
  have free : Free (' ' :: '/' :: '*' :: (name ++ ['*', '/']) ++ cs) := by
    intro c rest heq
    cases heq
    rfl
  have dropped : lexemes? .node (' ' :: '/' :: '*' :: (name ++ ['*', '/']) ++ cs) =
      lexemes? .node cs := by
    rw [List.cons_append, lexemes?_blank, List.cons_append, List.cons_append, List.append_assoc]
    exact lexemes?_note name hname cs
  rw [List.append_assoc, h _ fun _ => free, dropped]

end Says

end Target

end WireTables
