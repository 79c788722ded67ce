import WireTables.Json.Basic
import WireTables.Text.Hex
import WireTables.Text.Search

/-!
# Tokens of JSON

A JSON text is cut into brackets, separators and simple values. Blanks, tabs and line ends may stand
between tokens.
-/

namespace WireTables

/-- A token of a JSON text. -/
inductive JsonToken where
  | openArray
  | closeArray
  | openObject
  | closeObject
  | comma
  | colon
  /-- A value without parts. -/
  | simple (v : JsonValue)

namespace JsonToken

/-- A piece of a text: a character, or an escaped half or whole of one by its code. -/
inductive Piece where
  | char (c : Char)
  | unit (code : Nat)
  deriving DecidableEq, Repr

/-- The number that four digits of base sixteen write. -/
def unitCode? (a b c d : Char) : Option Nat := do
  let digits ← [a, b, c, d].mapM Text.hexDigit?
  return digits.foldl (fun n digit => n * 16 + digit) 0

/-- The character that follows a backslash, with its meaning. -/
def escape? : Char → Option Char
  | '"' => some '"'
  | '\\' => some '\\'
  | '/' => some '/'
  | 'b' => some '\x08'
  | 'f' => some '\x0c'
  | 'n' => some '\n'
  | 'r' => some '\r'
  | 't' => some '\t'
  | _ => none

/-- The pieces up to the closing quote, and what follows it. -/
def pieces? : List Char → Option (List Piece × List Char)
  | '"' :: rest => some ([], rest)
  | '\\' :: 'u' :: a :: b :: c :: d :: rest => do
    let code ← unitCode? a b c d
    let (more, after) ← pieces? rest
    return (.unit code :: more, after)
  | '\\' :: e :: rest => do
    let c ← escape? e
    let (more, after) ← pieces? rest
    return (.char c :: more, after)
  | c :: rest =>
    if c < ' ' || c == '\\' then none
    else do
      let (more, after) ← pieces? rest
      return (.char c :: more, after)
  | [] => none

/-- The first half of a character beyond the first 65536. -/
def isHighHalf (code : Nat) : Bool :=
  0xD800 ≤ code && code < 0xDC00

/-- The second half of a character beyond the first 65536. -/
def isLowHalf (code : Nat) : Bool :=
  0xDC00 ≤ code && code < 0xE000

/-- The text of pieces, if all halves come in pairs. -/
def join? : List Piece → Option (List Char)
  | [] => some []
  | .char c :: rest => (join? rest).map (c :: ·)
  | .unit high :: .unit low :: rest =>
    if isHighHalf high then
      if isLowHalf low then
        let code := 0x10000 + (high - 0xD800) * 0x400 + (low - 0xDC00)
        (join? rest).map (Char.ofNat code :: ·)
      else none
    else if isLowHalf high then none
    else (join? (.unit low :: rest)).map (Char.ofNat high :: ·)
  | .unit code :: rest =>
    if isHighHalf code || isLowHalf code then none
    else (join? rest).map (Char.ofNat code :: ·)

/-- Digits at the start, at least one. -/
def digits? (cs : List Char) : Option (List Char × List Char) :=
  let digits := cs.takeWhile Char.isDigit
  if digits.isEmpty then none else some (digits, cs.dropWhile Char.isDigit)

/-- A whole number without needless zeros in front. -/
def whole? : List Char → Option (List Char × List Char)
  | '0' :: rest => some (['0'], rest)
  | cs => digits? cs

/-- The decimals of a number, if it has any. -/
def decimals (cs : List Char) : List Char × List Char :=
  match cs with
  | '.' :: rest =>
    match digits? rest with
    | some (digits, after) => ('.' :: digits, after)
    | none => ([], cs)
  | _ => ([], cs)

/-- The sign of an exponent, if it has one. -/
def sign : List Char → List Char × List Char
  | '+' :: rest => (['+'], rest)
  | '-' :: rest => (['-'], rest)
  | cs => ([], cs)

/-- The exponent of a number, if it has one. -/
def exponent (cs : List Char) : List Char × List Char :=
  match cs with
  | mark :: rest =>
    if mark == 'e' || mark == 'E' then
      match digits? (sign rest).2 with
      | some (digits, after) => (mark :: (sign rest).1 ++ digits, after)
      | none => ([], cs)
    else ([], cs)
  | [] => ([], cs)

/-- A number without its sign. -/
def unsigned? (cs : List Char) : Option (List Char × List Char) := do
  let (whole, rest) ← whole? cs
  let (decimals, rest) := decimals rest
  let (exponent, rest) := exponent rest
  return (whole ++ decimals ++ exponent, rest)

/-- A number. -/
def number? : List Char → Option (JsonToken × List Char)
  | '-' :: rest => do
    let (text, after) ← unsigned? rest
    return (simple (.number (String.ofList ('-' :: text))), after)
  | cs => do
    let (text, after) ← unsigned? cs
    return (simple (.number (String.ofList text)), after)

/-- A text. -/
def text? : List Char → Option (JsonToken × List Char)
  | '"' :: rest => do
    let (pieces, after) ← pieces? rest
    return (simple (.text ((join? pieces).map String.ofList)), after)
  | _ => none

/-- The words that are values. -/
def words : List (String × JsonValue) :=
  [("null", .null), ("true", .bool true), ("false", .bool false)]

/-- A value that is a word. -/
def word? (cs : List Char) : Option (JsonToken × List Char) :=
  words.findSome? fun (word, v) => (Text.dropHeadChars? word.toList cs).map (simple v, ·)

/-- A bracket or separator. -/
def mark? : List Char → Option (JsonToken × List Char)
  | '[' :: rest => some (openArray, rest)
  | ']' :: rest => some (closeArray, rest)
  | '\x7b' :: rest => some (openObject, rest)
  | '\x7d' :: rest => some (closeObject, rest)
  | ',' :: rest => some (comma, rest)
  | ':' :: rest => some (colon, rest)
  | _ => none

/-- The token at the start. -/
def first? (cs : List Char) : Option (JsonToken × List Char) :=
  mark? cs <|> text? cs <|> word? cs <|> number? cs

/-- A character that may stand between tokens. -/
def isGap (c : Char) : Bool :=
  c == ' ' || c == '\t' || c == '\n' || c == '\r'

theorem length_of_pieces? {cs rest : List Char} {ps : List Piece}
    (h : pieces? cs = some (ps, rest)) : rest.length < cs.length := by
  fun_induction pieces? cs generalizing ps with
  | case1 r =>
    simp only [Option.some.injEq, Prod.mk.injEq] at h
    simp [← h.2]
  | case2 a b c d r ih =>
    simp only [Option.bind_eq_bind, Option.bind_eq_some_iff, Option.pure_def, Option.some.injEq,
      Prod.mk.injEq, Prod.exists] at h
    obtain ⟨_, _, more, after, step, _, rfl⟩ := h
    have := ih step
    simp only [List.length_cons]
    omega
  | case3 e r _ ih =>
    simp only [Option.bind_eq_bind, Option.bind_eq_some_iff, Option.pure_def, Option.some.injEq,
      Prod.mk.injEq, Prod.exists] at h
    obtain ⟨_, _, more, after, step, _, rfl⟩ := h
    have := ih step
    simp only [List.length_cons]
    omega
  | case4 => simp at h
  | case5 c r _ _ _ _ ih =>
    simp only [Option.bind_eq_bind, Option.bind_eq_some_iff, Option.pure_def, Option.some.injEq,
      Prod.mk.injEq, Prod.exists] at h
    obtain ⟨more, after, step, _, rfl⟩ := h
    have := ih step
    simp only [List.length_cons]
    omega
  | case6 => simp at h

theorem length_dropWhile_le (p : Char → Bool) (cs : List Char) :
    (cs.dropWhile p).length ≤ cs.length :=
  (List.dropWhile_sublist p).length_le

theorem length_of_digits? {cs ds rest : List Char} (h : digits? cs = some (ds, rest)) :
    rest.length < cs.length := by
  simp only [digits?] at h
  split at h
  · simp at h
  · rename_i some_digit
    simp only [Option.some.injEq, Prod.mk.injEq] at h
    have parts := congrArg List.length
      (List.takeWhile_append_dropWhile (p := Char.isDigit) (l := cs))
    rw [List.length_append] at parts
    have : 0 < (cs.takeWhile Char.isDigit).length := by
      cases hd : cs.takeWhile Char.isDigit with
      | nil => simp [hd] at some_digit
      | cons => simp
    rw [← h.2]
    omega

theorem length_of_whole? {cs text rest : List Char} (h : whole? cs = some (text, rest)) :
    rest.length < cs.length := by
  unfold whole? at h
  split at h
  · simp only [Option.some.injEq, Prod.mk.injEq] at h
    simp [← h.2]
  · exact length_of_digits? h

theorem length_decimals_le (cs : List Char) : (decimals cs).2.length ≤ cs.length := by
  unfold decimals
  split
  · split
    · rename_i step
      have := length_of_digits? step
      simp only [List.length_cons]
      omega
    · exact Nat.le_refl _
  · exact Nat.le_refl _

theorem length_sign_le (cs : List Char) : (sign cs).2.length ≤ cs.length := by
  unfold sign
  split <;> simp

theorem length_exponent_le (cs : List Char) : (exponent cs).2.length ≤ cs.length := by
  unfold exponent
  split
  · rename_i mark rest
    have := length_sign_le rest
    split
    · split
      · rename_i step
        have := length_of_digits? step
        simp only [List.length_cons]
        omega
      · exact Nat.le_refl _
    · exact Nat.le_refl _
  · exact Nat.le_refl _

theorem length_of_unsigned? {cs text rest : List Char} (h : unsigned? cs = some (text, rest)) :
    rest.length < cs.length := by
  simp only [unsigned?, Option.bind_eq_bind, Option.bind_eq_some_iff, Option.pure_def,
    Option.some.injEq, Prod.mk.injEq, Prod.exists] at h
  obtain ⟨whole, after, step, _, rfl⟩ := h
  have h1 := length_of_whole? step
  have h2 := length_decimals_le after
  have h3 := length_exponent_le (decimals after).2
  omega

theorem length_of_number? {cs rest : List Char} {t : JsonToken} (h : number? cs = some (t, rest)) :
    rest.length < cs.length := by
  unfold number? at h
  split at h
  · simp only [Option.bind_eq_bind, Option.bind_eq_some_iff, Option.pure_def, Option.some.injEq,
      Prod.mk.injEq, Prod.exists] at h
    obtain ⟨text, after, step, _, rfl⟩ := h
    have := length_of_unsigned? step
    simp only [List.length_cons]
    omega
  · simp only [Option.bind_eq_bind, Option.bind_eq_some_iff, Option.pure_def, Option.some.injEq,
      Prod.mk.injEq, Prod.exists] at h
    obtain ⟨text, after, step, _, rfl⟩ := h
    exact length_of_unsigned? step

theorem length_of_text? {cs rest : List Char} {t : JsonToken} (h : text? cs = some (t, rest)) :
    rest.length < cs.length := by
  unfold text? at h
  split at h
  · simp only [Option.bind_eq_bind, Option.bind_eq_some_iff, Option.pure_def, Option.some.injEq,
      Prod.mk.injEq, Prod.exists] at h
    obtain ⟨pieces, after, step, _, rfl⟩ := h
    have := length_of_pieces? step
    simp only [List.length_cons]
    omega
  · simp at h

theorem length_of_dropHeadChars? {head cs rest : List Char} (head_ne : head ≠ [])
    (h : Text.dropHeadChars? head cs = some rest) : rest.length < cs.length := by
  unfold Text.dropHeadChars? at h
  split at h
  · rename_i starts
    simp only [Option.some.injEq] at h
    have := List.length_pos_iff.mpr head_ne
    have := (List.isPrefixOf_iff_prefix.mp starts).length_le
    rw [← h, List.length_drop]
    omega
  · simp at h

theorem length_of_word? {cs rest : List Char} {t : JsonToken} (h : word? cs = some (t, rest)) :
    rest.length < cs.length := by
  obtain ⟨⟨word, v⟩, mem, h⟩ := List.exists_of_findSome?_eq_some h
  simp only [Option.map_eq_some_iff, Prod.mk.injEq] at h
  obtain ⟨after, step, _, rfl⟩ := h
  refine length_of_dropHeadChars? ?_ step
  simp only [words, List.mem_cons, Prod.mk.injEq, List.not_mem_nil, or_false] at mem
  rcases mem with ⟨rfl, _⟩ | ⟨rfl, _⟩ | ⟨rfl, _⟩ <;> decide

theorem length_of_mark? {cs rest : List Char} {t : JsonToken} (h : mark? cs = some (t, rest)) :
    rest.length < cs.length := by
  unfold mark? at h
  split at h <;> simp only [Option.some.injEq, Prod.mk.injEq, reduceCtorEq] at h <;>
    simp [← h.2]

/-- A token takes at least one character. -/
theorem length_of_first? {cs rest : List Char} {t : JsonToken} (h : first? cs = some (t, rest)) :
    rest.length < cs.length := by
  simp only [first?, Option.orElse_eq_orElse, Option.orElse_eq_or, Option.or_eq_some_iff] at h
  rcases h with h | ⟨_, h | ⟨_, h | ⟨_, h⟩⟩⟩
  · exact length_of_mark? h
  · exact length_of_text? h
  · exact length_of_word? h
  · exact length_of_number? h

/-- The tokens of a text after those found before, which come last first. -/
def scan? (found : List JsonToken) (cs : List Char) : Option (List JsonToken) :=
  let rest := cs.dropWhile isGap
  if rest.isEmpty then some found.reverse
  else
    match _step : first? rest with
    | none => none
    | some (t, after) => scan? (t :: found) after
termination_by cs.length
decreasing_by
  exact Nat.lt_of_lt_of_le (length_of_first? _step) (length_dropWhile_le isGap cs)

/-- The tokens of a text, if it consists of tokens. -/
def tokens? (text : String) : Option (List JsonToken) :=
  scan? [] text.toList

end JsonToken

end WireTables
