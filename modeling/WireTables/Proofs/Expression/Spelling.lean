import WireTables.Proofs.Expression.Reading
import WireTables.Proofs.Text.Digits

/-!
# How tokens are spelled

A number token keeps the characters that it was read from: the mark of base sixteen and its digits, or
decimal digits, perhaps with zeros before them. The names of tokens are made of letters, digits and
low lines (`spelled_of_tokens`). Numbers are printed like that (`spelled_toString`,
`spelled_hexUpper`).

A number as tokens keep it is cut off as one lexeme where no letter, digit or low line comes after it,
and if it fits a signed 64-bit word then that lexeme is the token again (`lexeme?_number`). The same
holds of names, sizes and symbols (`exists_lexeme?_spelling`), with one exception: the name `sizeof` is
not read as such where a name in parentheses comes next. Tokens of a text are never like that, because
they would have been read as a size. So they may be written with single blanks between them, whatever
stood between them in the text, and are read again as they are (`tokens_written_of_tokens`);
`tokens_written_iff` says of which other tokens that is true.
-/

namespace WireTables

open Expression (IsIdentifier isHexDigit isIdentifierChar maxWord)

/-- The token has the value and the characters that it was read with. -/
def Token.Spelled : Token → Prop
  | .number value text =>
    (∃ mark digits, text.toList = '0' :: mark :: digits ∧ (mark = 'x' ∨ mark = 'X') ∧ digits ≠ [] ∧
      (∀ c ∈ digits, isHexDigit c = true) ∧ value = Text.ofHex digits) ∨
    (text.toList ≠ [] ∧ (∀ c ∈ text.toList, c.isDigit = true) ∧ value = Text.ofDecimal text.toList)
  | .name text => ∀ c ∈ text.toList, isIdentifierChar c = true
  | _ => True

/-- The characters of a lexeme are those of its kind. -/
def Lexeme.Spelled : Lexeme → Prop
  | .hex text => ∃ mark digits, text = '0' :: mark :: digits ∧ (mark = 'x' ∨ mark = 'X') ∧
      digits ≠ [] ∧ ∀ c ∈ digits, isHexDigit c = true
  | .decimal text => text ≠ [] ∧ ∀ c ∈ text, c.isDigit = true
  | .name text => ∀ c ∈ text, isIdentifierChar c = true
  | _ => True

/-- A token that may stand in a text: its number fits a word, its name is an identifier. -/
def Token.Legible : Token → Prop
  | .number value text => (Token.number value text).Spelled ∧ value ≤ maxWord
  | .name text => IsIdentifier text.toList
  | .sizeOf type => IsIdentifier type.toList
  | _ => True

namespace Expression

variable {cs text rest : List Char}

theorem spelled_of_hex? (h : hex? cs = some (text, rest)) : (Lexeme.hex text).Spelled := by
  unfold hex? at h
  split at h
  · next zero mark d tail =>
    split at h
    · next hcond =>
      cases h
      simp only [Bool.and_eq_true, Bool.or_eq_true, beq_iff_eq] at hcond
      obtain ⟨⟨rfl, hmark⟩, hd⟩ := hcond
      refine ⟨mark, _, rfl, hmark, List.cons_ne_nil _ _, fun c hc => ?_⟩
      cases List.mem_cons.mp hc with
      | inl h => exact h ▸ hd
      | inr h => exact List.all_eq_true.mp List.all_takeWhile c h
    · cases h
  · cases h

theorem spelled_of_decimal? (h : decimal? cs = some (text, rest)) :
    (Lexeme.decimal text).Spelled := by
  cases cs with
  | nil => cases h
  | cons d cs =>
    simp only [decimal?] at h
    split at h
    · next hd =>
      cases h
      refine ⟨List.cons_ne_nil _ _, fun c hc => ?_⟩
      cases List.mem_cons.mp hc with
      | inl h => exact h ▸ hd
      | inr h => exact List.all_eq_true.mp List.all_takeWhile c h
    · cases h

theorem spelled_of_lexeme? {l : Lexeme} (h : lexeme? cs = some (l, rest)) : l.Spelled := by
  have h := readBy_of_lexeme? h
  cases l with
  | hex => exact spelled_of_hex? h
  | decimal => exact spelled_of_decimal? h
  | name => exact (identifier?_eq_some_iff.mp h.2).1.chars
  | sizeOf | operator | openParen | closeParen => trivial

theorem spelled_of_toToken {l : Lexeme} {t : Token} (hl : l.Spelled) (h : l.toToken = .ok t) :
    t.Spelled := by
  cases l with
  | hex text =>
    obtain ⟨mark, digits, rfl, hmark, hne, hdigits⟩ := hl
    simp only [Lexeme.toToken] at h
    split at h
    · cases h
      exact .inl ⟨mark, digits, by simp, hmark, hne, hdigits, rfl⟩
    · cases h
  | decimal text =>
    obtain ⟨hne, hdigits⟩ := hl
    simp only [Lexeme.toToken] at h
    split at h
    · cases h
      exact .inr (by simpa using ⟨hne, hdigits⟩)
    · cases h
  | name text =>
    cases h
    show ∀ c ∈ (String.ofList text).toList, isIdentifierChar c = true
    rw [String.toList_ofList]
    exact hl
  | sizeOf | operator | openParen | closeParen =>
    cases h
    trivial

theorem spelled_of_reads {ts : List Token} (h : Reads cs ts) : ∀ t ∈ ts, t.Spelled := by
  induction h with
  | nil => exact fun t ht => (List.not_mem_nil ht).elim
  | cons h token _ ih =>
    exact List.forall_mem_cons.mpr ⟨spelled_of_toToken (spelled_of_lexeme? h) token, ih⟩

/-- The tokens of a text are spelled as they were read. -/
theorem spelled_of_tokens {text : String} {ts : List Token} (h : tokens text = .ok ts) :
    ∀ t ∈ ts, t.Spelled :=
  spelled_of_reads (tokens_eq_ok_iff.mp h)

/-! ## Printed numbers -/

section Numbers

variable {n : Int} {text : String}

theorem isIdentifierChar_of_isHexDigit {c : Char} (h : isHexDigit c = true) :
    isIdentifierChar c = true := by
  simp only [isHexDigit, Text.hexDigit?, Char.le_def] at h
  simp only [isIdentifierChar, Char.isAlphanum]
  delta Char.isAlpha Char.isUpper Char.isLower Char.isDigit
  grind

/-- The characters of a number are letters and digits. -/
theorem isIdentifierChar_of_spelled (h : (Token.number n text).Spelled) :
    ∀ c ∈ text.toList, isIdentifierChar c = true := by
  intro c hc
  rcases h with ⟨mark, digits, htext, hmark, -, hdigits, -⟩ | ⟨-, hdigits, -⟩
  · rw [htext, List.mem_cons, List.mem_cons] at hc
    obtain rfl | rfl | hc := hc
    · decide
    · obtain rfl | rfl := hmark <;> decide
    · exact isIdentifierChar_of_isHexDigit (hdigits c hc)
  · exact isIdentifierChar_of_isDigit (hdigits c hc)

/-- Decimal numbers are written as they are read. -/
theorem spelled_toString (n : Nat) : (Token.number n (toString n)).Spelled := by
  refine .inr ?_
  rw [Text.toList_toString, Text.ofDecimal_toDigits]
  exact ⟨by simp, fun c hc => Nat.isDigit_of_mem_toDigits (by decide) (by decide) hc, rfl⟩

/-- Numbers in base sixteen are written as they are read. -/
theorem spelled_hexUpper (n : Nat) : (Token.number n ("0x" ++ Text.hexUpper n)).Spelled := by
  have hhex : ∀ d < 16, isHexDigit (Nat.digitChar d).toUpper = true := by decide
  refine .inl ⟨'x', (Nat.toDigits 16 n).map Char.toUpper, ?_, .inl rfl, by simp, ?_, ?_⟩
  · simp [Text.hexUpper]
  · intro c hc
    obtain ⟨c', hc', rfl⟩ := List.mem_map.mp hc
    obtain ⟨d, hd, rfl⟩ := Text.exists_of_mem_toDigits (by decide) hc'
    exact hhex d hd
  · rw [Text.ofHex_toUpper]

end Numbers

/-! ## Numbers that are read -/

section Lexing

variable {ds after : List Char} {p : Char → Bool} {mark : Char}

theorem sizeOf?_digit {d : Char} (hd : d.isDigit = true) : sizeOf? (d :: rest) = none := by
  have hne : 's' ≠ d := by
    rintro rfl
    cases hd
  simp [sizeOf?, Text.dropHeadChars?, List.isPrefixOf, hne]

/-- The mark of base sixteen is neither a digit nor the end of a word. -/
theorem hex?_decimal {d : Char} (hds : ∀ c ∈ ds, c.isDigit = true) (hrest : EndsWord rest) :
    hex? (d :: (ds ++ rest)) = none := by
  have hmark : ∀ c ∈ (ds ++ rest).head?, ¬ (c = 'x' ∨ c = 'X') := by
    intro c hc hx
    cases ds with
    | nil =>
      have := hrest c hc
      rcases hx with rfl | rfl <;> cases this
    | cons e ds =>
      obtain rfl := Option.some.inj hc
      have := hds e List.mem_cons_self
      rcases hx with rfl | rfl <;> cases this
  unfold hex?
  split
  · next zero mark first tail heq =>
    obtain ⟨rfl, htail⟩ := List.cons.inj heq
    have := hmark mark (by rw [htail]; rfl)
    simp [not_or.mp this]
  · rfl

/-- Decimal digits up to the end of a word are one lexeme. -/
theorem lexeme?_decimal (hne : ds ≠ []) (hds : ∀ c ∈ ds, c.isDigit = true) (hrest : EndsWord rest) :
    lexeme? (ds ++ rest) = some (.decimal ds, rest) := by
  cases ds with
  | nil => exact (hne rfl).elim
  | cons d ds =>
    have hd := hds d List.mem_cons_self
    have hds := fun c hc => hds c (List.mem_cons_of_mem d hc)
    obtain ⟨htake, hdrop⟩ := span_append hds (hrest.not fun _ => isIdentifierChar_of_isDigit)
    have hdecimal : decimal? (d :: (ds ++ rest)) = some (d :: ds, rest) := by
      rw [decimal?, if_pos hd, htake, hdrop]
    simp [lexeme?, sizeOf?_digit hd, hex?_decimal hds hrest, hdecimal]

/-- The mark of base sixteen with digits up to the end of a word is one lexeme. -/
theorem lexeme?_hex (hmark : mark = 'x' ∨ mark = 'X') (hne : ds ≠ [])
    (hds : ∀ c ∈ ds, isHexDigit c = true) (hrest : EndsWord rest) :
    lexeme? ('0' :: mark :: (ds ++ rest)) = some (.hex ('0' :: mark :: ds), rest) := by
  cases ds with
  | nil => exact (hne rfl).elim
  | cons d ds =>
    obtain ⟨htake, hdrop⟩ := span_append (fun c hc => hds c (List.mem_cons_of_mem d hc))
      (hrest.not fun _ => isIdentifierChar_of_isHexDigit)
    have hhex : hex? ('0' :: mark :: d :: (ds ++ rest)) =
        some ('0' :: mark :: d :: ds, rest) := by
      simp [hex?, hmark, hds d List.mem_cons_self, htake, hdrop]
    simp [lexeme?, sizeOf?_digit, hhex]

/-- A number up to the end of a word is one lexeme, which is the number again if it fits a word, and
is refused otherwise. -/
theorem lexeme?_number {n : Int} {text : String} (h : (Token.number n text).Spelled)
    (rest : List Char) (hrest : EndsWord rest) :
    ∃ l, lexeme? (text.toList ++ rest) = some (l, rest) ∧
      (n ≤ maxWord → l.toToken = .ok (.number n text)) ∧
      (maxWord < n → l.toToken = .error (.hexOutOfRange text) ∨
        l.toToken = .error (.literalOutOfRange text)) := by
  rcases h with ⟨mark, digits, htext, hmark, hne, hdigits, rfl⟩ | ⟨hne, hdigits, rfl⟩
  · rw [htext]
    refine ⟨_, lexeme?_hex hmark hne hdigits hrest, fun hn => ?_, fun hn => .inl ?_⟩
    all_goals
      have hvalue : Text.ofHex (('0' :: mark :: digits).drop 2) = Text.ofHex digits := rfl
    · have hn : Text.ofHex digits ≤ maxWord := Int.ofNat_le.mp hn
      rw [Lexeme.toToken, hvalue, if_pos hn, ← htext, String.ofList_toList]
    · have hn : maxWord < Text.ofHex digits := Int.ofNat_lt.mp hn
      rw [Lexeme.toToken, hvalue, if_neg (Nat.not_le.mpr hn), ← htext, String.ofList_toList]
  · refine ⟨_, lexeme?_decimal hne hdigits hrest, fun hn => ?_, fun hn => .inr ?_⟩
    · have hn : Text.ofDecimal text.toList ≤ maxWord := Int.ofNat_le.mp hn
      rw [Lexeme.toToken, if_pos hn, String.ofList_toList]
    · have hn : maxWord < Text.ofDecimal text.toList := Int.ofNat_lt.mp hn
      rw [Lexeme.toToken, if_neg (Nat.not_le.mpr hn), String.ofList_toList]

end Lexing

/-! ## Tokens that are written -/

/-- Tokens that may stand in one text: each may on its own, and nowhere are four of them what is read
as the size of a type. -/
structure Legible (ts : List Token) : Prop where
  tokens : ∀ t ∈ ts, t.Legible
  size : ∀ type, ¬ [.name "sizeof", .openParen, .name type, .closeParen] <:+: ts

/-- The tokens with a blank between each and the next. -/
def written (ts : List Token) : String :=
  " ".intercalate (ts.map Token.spelling)

section Writing

variable {l : Lexeme} {t : Token} {ts : List Token}

theorem legible_of_lexeme? (h : lexeme? cs = some (l, rest)) (ht : l.toToken = .ok t) :
    t.Legible := by
  have hl := toToken_eq_ok_iff.mp ht
  cases t with
  | number => exact ⟨spelled_of_toToken (spelled_of_lexeme? h) ht, hl.1⟩
  | name =>
    obtain rfl := hl
    exact (identifier?_eq_some_iff.mp (lexeme?_eq_name_iff.mp h).2).1
  | sizeOf =>
    obtain rfl := hl
    obtain ⟨_, _, _, -, -, hname, -⟩ := sizeOf?_eq_some_iff.mp (lexeme?_eq_sizeOf_iff.mp h)
    exact (identifier?_eq_some_iff.mp hname).1
  | operator | openParen | closeParen => trivial

/-- What is read is legible: a name in parentheses after the word `sizeof` is never left to be read
as tokens of their own. -/
theorem legible_of_reads (h : Reads cs ts) : Legible ts := by
  induction h with
  | nil => exact ⟨fun t ht => (List.not_mem_nil ht).elim, fun type h => by simp at h⟩
  | @cons cs after l t ts h token rest ih =>
    refine ⟨List.forall_mem_cons.mpr ⟨legible_of_lexeme? h token, ih.tokens⟩, fun type hsize => ?_⟩
    rcases List.infix_cons_iff.mp hsize with hhere | hlater
    · obtain ⟨rfl, hnext⟩ := List.cons_prefix_cons.mp hhere
      obtain rfl : l = .name _ := toToken_eq_ok_iff.mp token
      obtain ⟨hplain, hname⟩ := lexeme?_eq_name_iff.mp h
      obtain ⟨-, -, htext⟩ := identifier?_eq_some_iff.mp hname
      obtain ⟨_, _, hread⟩ := (exists_sizeOf?_iff rest).mpr ⟨type, hnext⟩
      rw [htext] at hplain
      cases hplain.symm.trans hread
    · exact ih.size type hlater

/-- A size is read from its spelling. -/
theorem sizeOf?_spelling {type : String} (h : IsIdentifier type.toList) :
    sizeOf? ((Token.sizeOf type).spelling.toList ++ rest) = some (type.toList, rest) := by
  have hname : identifier? (type.toList ++ ')' :: rest) = some (type.toList, ')' :: rest) :=
    identifier?_eq_some_iff.mpr ⟨h, fun c hc => Option.some.inj hc ▸ rfl, rfl⟩
  refine sizeOf?_eq_some_iff.mpr ⟨'(' :: (type.toList ++ ')' :: rest), _, _, ?_, rfl,
    (skip_of_identifier? hname).symm ▸ hname, rfl⟩
  simp [Token.spelling]

/-- A legible token is read from its spelling up to the end of the word, a name `sizeof` if no size is
read there. -/
theorem exists_lexeme?_spelling (ht : t.Legible) (hrest : EndsWord rest)
    (hsize : t = .name "sizeof" → sizeOf? ("sizeof".toList ++ rest) = none) :
    ∃ l, lexeme? (t.spelling.toList ++ rest) = some (l, rest) ∧ l.toToken = .ok t := by
  cases t with
  | number value text =>
    obtain ⟨l, hl, htoken, -⟩ := lexeme?_number ht.1 rest hrest
    exact ⟨l, hl, htoken ht.2⟩
  | name text =>
    have hname : identifier? (text.toList ++ rest) = some (text.toList, rest) :=
      identifier?_eq_some_iff.mpr ⟨ht, hrest, rfl⟩
    have hplain : sizeOf? (text.toList ++ rest) = none := by
      refine Option.eq_none_iff_forall_ne_some.mpr fun (type, after) h => ?_
      obtain ⟨_, _, hword, -⟩ := exists_of_sizeOf? h
      obtain ⟨htext, -⟩ := Prod.mk.inj (Option.some.inj (hname.symm.trans hword))
      obtain rfl := String.toList_inj.mp htext
      cases (hsize rfl).symm.trans h
    exact ⟨.name text.toList, lexeme?_eq_name_iff.mpr ⟨hplain, hname⟩, toToken_eq_ok_iff.mpr rfl⟩
  | sizeOf type =>
    exact ⟨.sizeOf type.toList, lexeme?_eq_sizeOf_iff.mpr (sizeOf?_spelling ht),
      toToken_eq_ok_iff.mpr rfl⟩
  | operator op => exact ⟨.operator op, (lexeme?_eq_symbol_iff rfl).mpr rfl, rfl⟩
  | openParen => exact ⟨.openParen, (lexeme?_eq_symbol_iff rfl).mpr rfl, rfl⟩
  | closeParen => exact ⟨.closeParen, (lexeme?_eq_symbol_iff rfl).mpr rfl, rfl⟩

/-- After the first token the text ends, or goes on with a blank and the others. -/
theorem exists_toList_written (t : Token) (ts : List Token) :
    ∃ rest, (written (t :: ts)).toList = t.spelling.toList ++ rest ∧ EndsWord rest ∧
      skip rest = skip (written ts).toList := by
  cases ts with
  | nil => exact ⟨[], by simp [written], nofun, rfl⟩
  | cons u ts =>
    refine ⟨' ' :: (written (u :: ts)).toList, ?_, fun c hc => Option.some.inj hc ▸ rfl, rfl⟩
    simp [written, String.intercalate_cons_cons]

theorem reads_written (h : Legible ts) : Reads (written ts).toList ts := by
  induction ts with
  | nil => exact .nil rfl
  | cons t ts ih =>
    obtain ⟨rest, htext, hends, hskip⟩ := exists_toList_written t ts
    have htail : Legible ts := ⟨fun u hu => h.tokens u (List.mem_cons_of_mem t hu),
      fun type hsize => h.size type (List.infix_cons_iff.mpr (.inr hsize))⟩
    have hrest : Reads rest ts := (ih htail).congr hskip
    have hplain : t = .name "sizeof" → sizeOf? ("sizeof".toList ++ rest) = none := by
      rintro rfl
      refine Option.eq_none_iff_forall_ne_some.mpr fun (type, after) hread => ?_
      obtain ⟨type, hnext⟩ := (exists_sizeOf?_iff hrest).mp ⟨_, _, hread⟩
      exact h.size type (List.infix_cons_iff.mpr (.inl (List.cons_prefix_cons.mpr ⟨rfl, hnext⟩)))
    obtain ⟨l, hl, htoken⟩ := exists_lexeme?_spelling (h.tokens t List.mem_cons_self) hends hplain
    rw [htext]
    exact .cons ((skip_of_lexeme? hl).symm ▸ hl) htoken hrest

/-- Legible tokens are those that are read from their own text. -/
theorem tokens_written_iff : tokens (written ts) = .ok ts ↔ Legible ts :=
  tokens_eq_ok_iff.trans ⟨legible_of_reads, reads_written⟩

/-- They are all the tokens that texts are read as. -/
theorem exists_tokens_iff : (∃ text, tokens text = .ok ts) ↔ Legible ts :=
  ⟨fun ⟨_, h⟩ => legible_of_reads (tokens_eq_ok_iff.mp h), fun h => ⟨_, tokens_written_iff.mpr h⟩⟩

/-- The tokens of a text, written with a blank between each and the next, are read as they are. -/
theorem tokens_written_of_tokens {text : String} (h : tokens text = .ok ts) :
    tokens (written ts) = .ok ts :=
  tokens_written_iff.mpr (exists_tokens_iff.mp ⟨text, h⟩)

/-- Tokens of a text without blanks between them. -/
def crowded : List Token :=
  [.number 0 "0", .name "x", .operator .add, .number 12 "12", .name "abc", .operator .shift,
    .name "sizeof", .openParen, .number 1 "1", .closeParen, .operator .sub, .sizeOf "T",
    .operator .mul, .number 7 "007", .operator .div, .number 31 "0X1f"]

/-- Neither the blanks that are put between tokens matter, nor those taken out of a size. -/
theorem tokens_written_crowded :
    tokens "0x+12abc<<sizeof(1)-sizeof ( T )*007/0X1f" = .ok crowded ∧
      written crowded = "0 x + 12 abc << sizeof ( 1 ) - sizeof(T) * 007 / 0X1f" ∧
      tokens "0 x + 12 abc << sizeof ( 1 ) - sizeof(T) * 007 / 0X1f" = .ok crowded := by
  have hcrowded : tokens "0x+12abc<<sizeof(1)-sizeof ( T )*007/0X1f" = .ok crowded := by
    decide +kernel
  have hwritten : written crowded = "0 x + 12 abc << sizeof ( 1 ) - sizeof(T) * 007 / 0X1f" := by
    decide +kernel
  exact ⟨hcrowded, hwritten, hwritten ▸ tokens_written_of_tokens hcrowded⟩

/-- Where the word `sizeof` is no token, no four tokens look like a size. -/
theorem Legible.of_notMem (h : ∀ t ∈ ts, t.Legible) (hsize : .name "sizeof" ∉ ts) : Legible ts :=
  ⟨h, fun _ hparts => hsize (hparts.subset List.mem_cons_self)⟩

/-- The text of a number that fits a word is read as the number. -/
theorem tokens_number {n : Int} {text : String} (h : (Token.number n text).Spelled)
    (hn : n ≤ maxWord) : tokens text = .ok [.number n text] := by
  have hlegible : Legible [.number n text] :=
    .of_notMem (List.forall_mem_singleton.mpr ⟨h, hn⟩) (by simp)
  simpa [written, Token.spelling] using tokens_written_iff.mpr hlegible

/-- The text of a number that fits no word has no tokens. -/
theorem tokens_number_refused {n : Int} {text : String} (h : (Token.number n text).Spelled)
    (hn : maxWord < n) : tokens text = .error (.hexOutOfRange text) ∨
      tokens text = .error (.literalOutOfRange text) := by
  obtain ⟨l, hl, -, hrefused⟩ := lexeme?_number h [] nofun
  rw [List.append_nil] at hl
  have hlexemes : lexemes? text.toList = some [l] := by
    rw [lexemes?_of_lexeme? ((skip_of_lexeme? hl).symm ▸ hl), lexemes?]
    rfl
  have htokens : tokens text = l.toToken.map ([·]) := by
    unfold tokens
    rw [hlexemes]
    cases h : l.toToken <;> simp [h, Except.map]
  rw [htokens]
  exact (hrefused hn).imp (fun h => by rw [h]; rfl) fun h => by rw [h]; rfl

/-- A shift between two numbers is read as it is written. -/
theorem tokens_shift {a n : Int} {left right : String} (ha : (Token.number a left).Spelled)
    (hn : (Token.number n right).Spelled) (hfirst : a ≤ maxWord) (hlast : n ≤ maxWord) :
    tokens (left ++ " << " ++ right) =
      .ok [.number a left, .operator .shift, .number n right] := by
  have hlegible : Legible [.number a left, .operator .shift, .number n right] :=
    .of_notMem (by simp [Token.Legible, ha, hn, hfirst, hlast]) (by simp)
  have htext : written [.number a left, .operator .shift, .number n right] =
      left ++ " << " ++ right := by
    refine String.toList_inj.mp ?_
    simp [written, Token.spelling, Operator.symbol, String.intercalate_cons_cons]
  exact htext ▸ tokens_written_iff.mpr hlegible

end Writing

end Expression

end WireTables
