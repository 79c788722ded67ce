import WireTables.Error
import WireTables.Text.Hex
import WireTables.Text.Search

/-!
# Reading tokens

The text of an expression is cut into lexemes by ordered choice: a whole `sizeof(T)` first, then a
hexadecimal number, a decimal number, a name and the symbols. Blanks may stand between the parts
but not inside a number or a name. The cut fails as a whole when some character starts no lexeme;
only then are the numbers read, each of which must fit a signed 64-bit word.
-/

namespace WireTables

/-- A piece of an expression's text. Numbers keep their characters. -/
inductive Lexeme where
  | hex (text : List Char)
  | decimal (text : List Char)
  | name (text : List Char)
  | sizeOf (type : List Char)
  | operator (op : Operator)
  | openParen
  | closeParen
  deriving DecidableEq, Repr

namespace Expression

/-- A character that may stand between lexemes. -/
def isSeparator (c : Char) : Bool :=
  c == ' ' || c == '\t' || c == '\r' || c == '\n'

/-- A letter, digit or low line. -/
def isIdentifierChar (c : Char) : Bool :=
  c.isAlphanum || c == '_'

/-- A hexadecimal digit. -/
def isHexDigit (c : Char) : Bool :=
  (Text.hexDigit? c).isSome

/-- The text from its first character that is no separator. -/
def skip (cs : List Char) : List Char :=
  cs.dropWhile isSeparator

/-- The longest identifier at the start of a text, and what follows it. -/
def identifier? : List Char → Option (List Char × List Char)
  | [] => none
  | c :: rest =>
    if c.isAlpha || c == '_' then
      some (c :: rest.takeWhile isIdentifierChar, rest.dropWhile isIdentifierChar)
    else none

/-- What follows a given character, separators before it skipped. -/
def expect? (c : Char) (cs : List Char) : Option (List Char) :=
  match skip cs with
  | [] => none
  | d :: rest => if d == c then some rest else none

/-- The type named by a whole `sizeof(T)`, and what follows it. -/
def sizeOf? (cs : List Char) : Option (List Char × List Char) := do
  let rest ← Text.dropHeadChars? "sizeof".toList cs
  let rest ← expect? '(' rest
  let (type, rest) ← identifier? (skip rest)
  let rest ← expect? ')' rest
  return (type, rest)

/-- A number in base sixteen: its two-character mark with at least one digit after it. -/
def hex? : List Char → Option (List Char × List Char)
  | zero :: mark :: d :: rest =>
    if zero == '0' && (mark == 'x' || mark == 'X') && isHexDigit d then
      some (zero :: mark :: d :: rest.takeWhile isHexDigit, rest.dropWhile isHexDigit)
    else none
  | _ => none

/-- A number in base ten. -/
def decimal? : List Char → Option (List Char × List Char)
  | [] => none
  | c :: rest =>
    if c.isDigit then some (c :: rest.takeWhile Char.isDigit, rest.dropWhile Char.isDigit)
    else none

/-- A symbol. -/
def symbol? : List Char → Option (Lexeme × List Char)
  | '<' :: '<' :: rest => some (.operator .shift, rest)
  | '+' :: rest => some (.operator .add, rest)
  | '-' :: rest => some (.operator .sub, rest)
  | '*' :: rest => some (.operator .mul, rest)
  | '/' :: rest => some (.operator .div, rest)
  | '(' :: rest => some (.openParen, rest)
  | ')' :: rest => some (.closeParen, rest)
  | _ => none

/-- The lexeme at the start of a text, and what follows it. -/
def lexeme? (cs : List Char) : Option (Lexeme × List Char) :=
  ((sizeOf? cs).map fun (type, rest) => (Lexeme.sizeOf type, rest)) <|>
  ((hex? cs).map fun (text, rest) => (Lexeme.hex text, rest)) <|>
  ((decimal? cs).map fun (text, rest) => (Lexeme.decimal text, rest)) <|>
  ((identifier? cs).map fun (text, rest) => (Lexeme.name text, rest)) <|>
  symbol? cs

theorem length_skip_le (cs : List Char) : (skip cs).length ≤ cs.length :=
  (List.dropWhile_sublist _).length_le

theorem length_of_identifier? {cs text rest : List Char}
    (h : identifier? cs = some (text, rest)) : rest.length < cs.length := by
  cases cs with
  | nil => simp [identifier?] at h
  | cons c cs =>
    simp only [identifier?] at h
    split at h
    · simp only [Option.some.injEq, Prod.mk.injEq] at h
      have := (List.dropWhile_sublist (l := cs) isIdentifierChar).length_le
      simp only [← h.2, List.length_cons]
      omega
    · simp at h

theorem length_of_expect? {c : Char} {cs rest : List Char} (h : expect? c cs = some rest) :
    rest.length < cs.length := by
  have bound := length_skip_le cs
  unfold expect? at h
  split at h
  · simp at h
  · rename_i d tail eq
    split at h
    · simp only [Option.some.injEq] at h
      subst h
      rw [eq, List.length_cons] at bound
      omega
    · simp at h

theorem length_of_sizeOf? {cs type rest : List Char} (h : sizeOf? cs = some (type, rest)) :
    rest.length < cs.length := by
  simp only [sizeOf?, Text.dropHeadChars?, Option.bind_eq_bind, Option.bind_eq_some_iff,
    Option.pure_def, Option.some.injEq, Prod.mk.injEq, Prod.exists] at h
  obtain ⟨a, ha, b, hb, c, d, hcd, e, he, -, rfl⟩ := h
  have h1 : a.length ≤ cs.length := by
    split at ha
    · simp only [Option.some.injEq] at ha
      simp [← ha]
    · simp at ha
  have h2 := length_of_expect? hb
  have h3 := length_of_identifier? hcd
  have h4 := length_skip_le b
  have h5 := length_of_expect? he
  omega

theorem length_of_hex? {cs text rest : List Char} (h : hex? cs = some (text, rest)) :
    rest.length < cs.length := by
  unfold hex? at h
  split at h
  · rename_i zero mark d tail
    split at h
    · simp only [Option.some.injEq, Prod.mk.injEq] at h
      have := (List.dropWhile_sublist (l := tail) isHexDigit).length_le
      simp only [← h.2, List.length_cons]
      omega
    · simp at h
  · simp at h

theorem length_of_decimal? {cs text rest : List Char} (h : decimal? cs = some (text, rest)) :
    rest.length < cs.length := by
  cases cs with
  | nil => simp [decimal?] at h
  | cons c cs =>
    simp only [decimal?] at h
    split at h
    · simp only [Option.some.injEq, Prod.mk.injEq] at h
      have := (List.dropWhile_sublist (l := cs) Char.isDigit).length_le
      simp only [← h.2, List.length_cons]
      omega
    · simp at h

theorem length_of_symbol? {cs : List Char} {l : Lexeme} {rest : List Char}
    (h : symbol? cs = some (l, rest)) : rest.length < cs.length := by
  unfold symbol? at h
  split at h <;> simp only [Option.some.injEq, Prod.mk.injEq, reduceCtorEq] at h <;>
    simp only [← h.2, List.length_cons] <;> omega

/-- A lexeme takes at least one character. -/
theorem length_of_lexeme? {cs : List Char} {l : Lexeme} {rest : List Char}
    (h : lexeme? cs = some (l, rest)) : rest.length < cs.length := by
  simp only [lexeme?, Option.orElse_eq_orElse, Option.orElse_eq_or, Option.or_eq_some_iff,
    Option.map_eq_some_iff, Prod.mk.injEq, Prod.exists] at h
  rcases h with ⟨_, _, h, _, rfl⟩ | ⟨_, h⟩
  · exact length_of_sizeOf? h
  rcases h with ⟨_, _, h, _, rfl⟩ | ⟨_, h⟩
  · exact length_of_hex? h
  rcases h with ⟨_, _, h, _, rfl⟩ | ⟨_, h⟩
  · exact length_of_decimal? h
  rcases h with ⟨_, _, h, _, rfl⟩ | ⟨_, h⟩
  · exact length_of_identifier? h
  · exact length_of_symbol? h

/-- All lexemes of a text, if every part of it is one. -/
def lexemes? (cs : List Char) : Option (List Lexeme) :=
  if (skip cs).isEmpty then some []
  else
    match _step : lexeme? (skip cs) with
    | none => none
    | some (l, after) => (lexemes? after).map (l :: ·)
termination_by cs.length
decreasing_by exact Nat.lt_of_lt_of_le (length_of_lexeme? _step) (length_skip_le cs)

/-- The largest number of a signed 64-bit word. -/
def maxWord : Nat :=
  0x7FFFFFFFFFFFFFFF

end Expression

namespace Lexeme

/-- The token of a lexeme; a number has to fit a signed 64-bit word. -/
def toToken : Lexeme → Except ExpressionFault Token
  | hex text =>
    let value := Text.ofHex (text.drop 2)
    if value ≤ Expression.maxWord then .ok (.number value (String.ofList text))
    else .error (.hexOutOfRange (String.ofList text))
  | decimal text =>
    let value := Text.ofDecimal text
    if value ≤ Expression.maxWord then .ok (.number value (String.ofList text))
    else .error (.literalOutOfRange (String.ofList text))
  | name text => .ok (.name (String.ofList text))
  | sizeOf type => .ok (.sizeOf (String.ofList type))
  | operator op => .ok (.operator op)
  | openParen => .ok .openParen
  | closeParen => .ok .closeParen

end Lexeme

namespace Expression

/-- The tokens of a text, or what is wrong with it. -/
def tokens (text : String) : Except ExpressionFault (List Token) :=
  match lexemes? text.toList with
  | none => .error .badTokens
  | some ls => ls.mapM Lexeme.toToken

end Expression

end WireTables
