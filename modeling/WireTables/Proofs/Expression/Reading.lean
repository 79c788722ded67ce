import WireTables.Expression.Lexer
import WireTables.Proofs.Calculation
import WireTables.Proofs.Text.Search

/-!
# How tokens are read

A text is read token by token, with the separators in front of each token skipped
(`tokens_eq_ok_iff`). What the readers take off is said without running them: a name is a letter or low
line with as many letters, digits and low lines as follow (`identifier?_eq_some_iff`), and the size of
a type is four parts that may have separators between them (`sizeOf?_eq_some_iff`).

A size is tried before a name. So the word `sizeof` is read as a name exactly if the tokens after it are
not a name in parentheses (`exists_sizeOf?_iff`). Nowhere else does it matter what comes after the next
separator.
-/

namespace WireTables

namespace Expression

variable {cs rest after text type : List Char} {c : Char} {l : Lexeme} {t : Token} {ts : List Token}

/-! ## Parts of a text -/

/-- A letter or low line, and then letters, digits and low lines. -/
def IsIdentifier : List Char → Prop
  | [] => False
  | c :: cs => (c.isAlpha || c == '_') = true ∧ cs.all isIdentifierChar = true

instance : DecidablePred IsIdentifier
  | [] => inferInstanceAs (Decidable False)
  | c :: cs =>
    inferInstanceAs (Decidable ((c.isAlpha || c == '_') = true ∧ cs.all isIdentifierChar = true))

/-- No letter, digit or low line comes next. -/
def EndsWord (rest : List Char) : Prop :=
  ∀ c ∈ rest.head?, isIdentifierChar c = false

theorem EndsWord.not {p : Char → Bool} (h : EndsWord rest)
    (hp : ∀ c, p c = true → isIdentifierChar c = true) : ∀ c ∈ rest.head?, p c = false := by
  intro c hc
  cases hpc : p c with
  | false => rfl
  | true => exact (hp c hpc).symm.trans (h c hc)

theorem isIdentifierChar_of_isDigit (h : c.isDigit = true) : isIdentifierChar c = true := by
  simp [isIdentifierChar, Char.isAlphanum, h]

theorem isIdentifierChar_of_isSeparator (h : isSeparator c = true) : isIdentifierChar c = false := by
  simp only [isSeparator, Bool.or_eq_true, beq_iff_eq] at h
  obtain ((rfl | rfl) | rfl) | rfl := h <;> rfl

/-- What starts an identifier may also stand inside of one. -/
theorem isIdentifierChar_of_starts (h : (c.isAlpha || c == '_') = true) :
    isIdentifierChar c = true := by
  simp only [isIdentifierChar, Char.isAlphanum, Bool.or_eq_true] at h ⊢
  tauto

theorem IsIdentifier.chars (h : IsIdentifier cs) : ∀ c ∈ cs, isIdentifierChar c = true := by
  cases cs with
  | nil => exact h.elim
  | cons d cs =>
    exact List.forall_mem_cons.mpr ⟨isIdentifierChar_of_starts h.1, List.all_eq_true.mp h.2⟩

/-- A run of characters is taken off as a whole where none of its kind comes after it. -/
theorem span_append {p : Char → Bool} (hcs : ∀ c ∈ cs, p c = true)
    (hrest : ∀ c ∈ rest.head?, p c = false) :
    (cs ++ rest).takeWhile p = cs ∧ (cs ++ rest).dropWhile p = rest := by
  rw [List.takeWhile_append_of_pos hcs, List.dropWhile_append_of_pos hcs]
  cases rest with
  | nil => simp
  | cons c rest => simp [hrest c rfl]

/-- What is left of a text without a run of characters starts with another one. -/
theorem head_dropWhile {p : Char → Bool} : ∀ c ∈ (cs.dropWhile p).head?, p c = false := by
  intro c hc
  have h := List.head?_dropWhile_not p cs
  rw [hc] at h
  exact h

/-- An identifier is taken off up to the end of the word. -/
theorem identifier?_eq_some_iff : identifier? cs = some (text, rest) ↔
    IsIdentifier text ∧ EndsWord rest ∧ cs = text ++ rest := by
  constructor
  · intro h
    cases cs with
    | nil => cases h
    | cons c cs =>
      simp only [identifier?] at h
      split at h
      · next hc =>
        cases h
        exact ⟨⟨hc, List.all_takeWhile⟩, head_dropWhile, by simp⟩
      · cases h
  · rintro ⟨htext, hrest, rfl⟩
    cases text with
    | nil => exact htext.elim
    | cons c text =>
      obtain ⟨htake, hdrop⟩ := span_append (List.all_eq_true.mp htext.2) hrest
      rw [List.cons_append, identifier?, if_pos htext.1, htake, hdrop]

theorem expect?_eq_some_iff : expect? c cs = some rest ↔ skip cs = c :: rest := by
  unfold expect?
  split
  · next h => simp [h]
  · next d more h =>
    split
    · next hd => simp [h, eq_of_beq hd]
    · next hd =>
      have hd : d ≠ c := by simpa using hd
      simp [h, hd]

/-- The size of a type: the word, a parenthesis, the name of the type and a parenthesis. -/
theorem sizeOf?_eq_some_iff : sizeOf? cs = some (type, rest) ↔
    ∃ afterWord afterOpen afterName, cs = "sizeof".toList ++ afterWord ∧
      skip afterWord = '(' :: afterOpen ∧ identifier? (skip afterOpen) = some (type, afterName) ∧
      skip afterName = ')' :: rest := by
  simp only [sizeOf?, Option.bind_eq_bind, Option.pure_def, Option.bind_eq_some_iff,
    Text.dropHeadChars?_eq_some_iff, expect?_eq_some_iff, Option.some.injEq, Prod.mk.injEq,
    Prod.exists]
  constructor
  · rintro ⟨afterWord, hword, afterOpen, hopen, _, afterName, hname, _, hclose, rfl, rfl⟩
    exact ⟨afterWord, afterOpen, afterName, hword, hopen, hname, hclose⟩
  · rintro ⟨afterWord, afterOpen, afterName, hword, hopen, hname, hclose⟩
    exact ⟨afterWord, hword, afterOpen, hopen, type, afterName, hname, rest, hclose, rfl, rfl⟩

theorem EndsWord.of_skip (h : EndsWord (skip cs)) : EndsWord cs := by
  intro c hc
  by_cases hsep : isSeparator c = true
  · exact isIdentifierChar_of_isSeparator hsep
  · cases cs with
    | nil => cases hc
    | cons d cs =>
      obtain rfl := Option.some.inj hc
      rw [skip, List.dropWhile_cons_of_neg hsep] at h
      exact h d rfl

/-- No identifier starts with a separator. -/
theorem skip_of_identifier? (h : identifier? cs = some (text, rest)) : skip cs = cs := by
  cases cs with
  | nil => rfl
  | cons c cs =>
    refine List.dropWhile_cons_of_neg fun hsep => ?_
    have hstart : ¬ (c.isAlpha || c == '_') = true := fun hc => Bool.false_ne_true
      ((isIdentifierChar_of_isSeparator hsep).symm.trans (isIdentifierChar_of_starts hc))
    rw [identifier?, if_neg hstart] at h
    cases h

/-- The word in front of a size is an identifier, and a parenthesis follows it. -/
theorem exists_of_sizeOf? (h : sizeOf? cs = some (type, rest)) :
    ∃ afterWord afterOpen, identifier? cs = some ("sizeof".toList, afterWord) ∧
      skip afterWord = '(' :: afterOpen := by
  obtain ⟨afterWord, afterOpen, -, hword, hopen, -⟩ := sizeOf?_eq_some_iff.mp h
  refine ⟨afterWord, afterOpen, identifier?_eq_some_iff.mpr ⟨by decide, .of_skip ?_, hword⟩, hopen⟩
  rw [hopen]
  exact fun c hc => Option.some.inj hc ▸ rfl

/-! ## Lexemes -/

/-- What a lexeme is read by. -/
def ReadBy (cs rest : List Char) : Lexeme → Prop
  | .hex text => hex? cs = some (text, rest)
  | .decimal text => decimal? cs = some (text, rest)
  | .name text => sizeOf? cs = none ∧ identifier? cs = some (text, rest)
  | .sizeOf type => sizeOf? cs = some (type, rest)
  | l => symbol? cs = some (l, rest)

theorem readBy_of_symbol? (h : symbol? cs = some (l, rest)) : ReadBy cs rest l := by
  have hsymbol := h
  unfold symbol? at h
  split at h <;> cases h <;> exact hsymbol

/-- The reader of a lexeme is the first one that reads any, and names come after sizes. -/
theorem readBy_of_lexeme? (h : lexeme? cs = some (l, rest)) : ReadBy cs rest l := by
  simp only [lexeme?, Option.orElse_eq_orElse, Option.orElse_eq_or, Option.or_eq_some_iff,
    Option.map_eq_some_iff, Option.map_eq_none_iff, Prod.mk.injEq, Prod.exists] at h
  obtain ⟨_, _, h, rfl, rfl⟩ | ⟨hsize, h⟩ := h
  · exact h
  obtain ⟨_, _, h, rfl, rfl⟩ | ⟨-, h⟩ := h
  · exact h
  obtain ⟨_, _, h, rfl, rfl⟩ | ⟨-, h⟩ := h
  · exact h
  obtain ⟨_, _, h, rfl, rfl⟩ | ⟨-, h⟩ := h
  · exact ⟨hsize, h⟩
  · exact readBy_of_symbol? h

/-- A number in base sixteen starts with a digit. -/
theorem hex?_eq_none (hc : c.isDigit = false) : hex? (c :: rest) = none := by
  unfold hex?
  split
  · next zero mark d tail heq =>
    obtain ⟨rfl, -⟩ := List.cons.inj heq
    have hzero : c ≠ '0' := by
      rintro rfl
      cases hc
    simp [hzero]
  · rfl

/-- What starts an identifier starts no number. -/
theorem isDigit_of_starts (hc : (c.isAlpha || c == '_') = true) : c.isDigit = false := by
  simp only [Bool.or_eq_true, beq_iff_eq] at hc
  obtain hc | rfl := hc
  · revert hc
    delta Char.isAlpha Char.isUpper Char.isLower Char.isDigit
    grind
  · rfl

/-- A name is read where an identifier starts, unless the size of a type is read there. -/
theorem lexeme?_eq_name_iff : lexeme? cs = some (.name text, rest) ↔
    sizeOf? cs = none ∧ identifier? cs = some (text, rest) := by
  refine ⟨readBy_of_lexeme?, fun ⟨hsize, hname⟩ => ?_⟩
  cases cs with
  | nil => cases hname
  | cons c cs =>
    have hdigit : c.isDigit = false := by
      by_cases hc : (c.isAlpha || c == '_') = true
      · exact isDigit_of_starts hc
      · rw [identifier?, if_neg hc] at hname
        cases hname
    simp [lexeme?, hsize, hex?_eq_none hdigit, decimal?, hdigit, hname]

theorem lexeme?_eq_sizeOf_iff :
    lexeme? cs = some (.sizeOf type, rest) ↔ sizeOf? cs = some (type, rest) :=
  ⟨readBy_of_lexeme?, fun h => by simp [lexeme?, h]⟩

/-- What is neither a letter nor a digit nor a low line can only start a symbol. -/
theorem lexeme?_eq_symbol? (hc : isIdentifierChar c = false) :
    lexeme? (c :: rest) = symbol? (c :: rest) := by
  have hdigit : c.isDigit = false := Bool.eq_false_iff.mpr fun h =>
    Bool.false_ne_true (hc.symm.trans (isIdentifierChar_of_isDigit h))
  have hname : identifier? (c :: rest) = none := if_neg fun h =>
    Bool.false_ne_true (hc.symm.trans (isIdentifierChar_of_starts h))
  have hsize : sizeOf? (c :: rest) = none := by
    refine Option.eq_none_iff_forall_ne_some.mpr fun (type, after) h => ?_
    obtain ⟨_, _, hword, -⟩ := exists_of_sizeOf? h
    cases hname.symm.trans hword
  simp [lexeme?, hsize, hex?_eq_none hdigit, decimal?, hdigit, hname]

/-- The characters of a symbol. -/
def symbolChars? : Lexeme → Option (List Char)
  | .operator op => some op.symbol.toList
  | .openParen => some ['(']
  | .closeParen => some [')']
  | _ => none

/-- A symbol is read wherever its characters are. -/
theorem lexeme?_eq_symbol_iff (hl : symbolChars? l = some text) :
    lexeme? cs = some (l, rest) ↔ cs = text ++ rest := by
  constructor
  · intro h
    have hread := readBy_of_lexeme? h
    cases l with
    | hex | decimal | name | sizeOf => cases hl
    | operator | openParen | closeParen =>
      have hread : symbol? cs = some (_, rest) := hread
      unfold symbol? at hread
      split at hread <;> cases hread <;> cases hl <;> rfl
  · rintro rfl
    cases l with
    | hex | decimal | name | sizeOf => cases hl
    | operator op =>
      cases hl
      cases op <;> exact lexeme?_eq_symbol? rfl
    | openParen | closeParen =>
      cases hl
      exact lexeme?_eq_symbol? rfl

/-- No lexeme starts with a separator. -/
theorem skip_of_lexeme? (h : lexeme? cs = some (l, rest)) : skip cs = cs := by
  cases cs with
  | nil => rfl
  | cons c cs =>
    refine List.dropWhile_cons_of_neg fun hc => ?_
    rw [lexeme?_eq_symbol? (isIdentifierChar_of_isSeparator hc)] at h
    simp only [isSeparator, Bool.or_eq_true, beq_iff_eq] at hc
    obtain ((rfl | rfl) | rfl) | rfl := hc <;> cases h

/-! ## Tokens -/

/-- The lexemes that become a token. Numbers have to fit a signed 64-bit word. -/
def Becomes (l : Lexeme) : Token → Prop
  | .number value text => value ≤ maxWord ∧
    (l = .hex text.toList ∧ value = Text.ofHex (text.toList.drop 2) ∨
      l = .decimal text.toList ∧ value = Text.ofDecimal text.toList)
  | .name text => l = .name text.toList
  | .sizeOf type => l = .sizeOf type.toList
  | .operator op => l = .operator op
  | .openParen => l = .openParen
  | .closeParen => l = .closeParen

theorem toToken_eq_ok_iff : l.toToken = .ok t ↔ Becomes l t := by
  constructor
  · intro h
    cases l with
    | hex text | decimal text =>
      simp only [Lexeme.toToken] at h
      split at h
      · next hvalue =>
        cases h
        simpa [Becomes] using hvalue
      · cases h
    | name | sizeOf =>
      cases h
      simp [Becomes]
    | operator | openParen | closeParen =>
      cases h
      rfl
  · intro h
    cases t with
    | number value text =>
      obtain ⟨hvalue, ⟨rfl, rfl⟩ | ⟨rfl, rfl⟩⟩ := h <;>
        simp [Lexeme.toToken, Int.ofNat_le.mp hvalue]
    | name | sizeOf =>
      cases h
      simp [Lexeme.toToken]
    | operator | openParen | closeParen =>
      cases h
      rfl

/-- What a text is read as, one token after the other. -/
inductive Reads : List Char → List Token → Prop where
  | nil {cs : List Char} (h : skip cs = []) : Reads cs []
  | cons {cs after : List Char} {l : Lexeme} {t : Token} {ts : List Token}
    (h : lexeme? (skip cs) = some (l, after)) (token : l.toToken = .ok t) (rest : Reads after ts) :
    Reads cs (t :: ts)

/-- Separators in front of a text do not matter. -/
theorem Reads.congr {cs' : List Char} (h : Reads cs ts) (hskip : skip cs' = skip cs) :
    Reads cs' ts := by
  cases h with
  | nil h => exact .nil (hskip.trans h)
  | cons h token rest => exact .cons (hskip ▸ h) token rest

/-- The lexeme that a text starts with becomes the first token. -/
theorem Reads.uncons (h : Reads cs ts) (hl : lexeme? (skip cs) = some (l, after)) :
    ∃ t ts', ts = t :: ts' ∧ l.toToken = .ok t ∧ Reads after ts' := by
  cases h with
  | nil h =>
    rw [h] at hl
    cases hl
  | cons h token rest =>
    cases h.symm.trans hl
    exact ⟨_, _, rfl, token, rest⟩

/-- The lexeme that a text starts with is its first one. -/
theorem lexemes?_of_lexeme? (h : lexeme? (skip cs) = some (l, after)) :
    lexemes? cs = (lexemes? after).map (l :: ·) := by
  have hne : (skip cs).isEmpty = false := by
    cases hs : skip cs with
    | nil =>
      rw [hs] at h
      cases h
    | cons => rfl
  rw [lexemes?, if_neg (by simp [hne])]
  split
  · next hnone =>
    rw [h] at hnone
    cases hnone
  · next l' after' hsome =>
    rw [h] at hsome
    cases hsome
    rfl

theorem reads_of_lexemes? {ls : List Lexeme} (h : lexemes? cs = some ls)
    (hts : ls.mapM Lexeme.toToken = .ok ts) : Reads cs ts := by
  induction ls generalizing cs ts with
  | nil =>
    cases hts
    rw [lexemes?] at h
    split at h
    · next hempty => exact .nil (List.isEmpty_iff.mp hempty)
    · split at h
      · cases h
      · obtain ⟨_, -, heq⟩ := Option.map_eq_some_iff.mp h
        cases heq
  | cons l ls ih =>
    rw [List.mapM_cons] at hts
    obtain ⟨t, ht, hts⟩ := bind_eq_ok.mp hts
    obtain ⟨ts', hts', heq⟩ := bind_eq_ok.mp hts
    cases heq
    rw [lexemes?] at h
    split at h
    · cases h
    · split at h
      · cases h
      · next l' after hl =>
        obtain ⟨ls', hafter, heq⟩ := Option.map_eq_some_iff.mp h
        cases heq
        exact .cons hl ht (ih hafter hts')

theorem exists_lexemes_of_reads (h : Reads cs ts) :
    ∃ ls, lexemes? cs = some ls ∧ ls.mapM Lexeme.toToken = .ok ts := by
  induction h with
  | nil h =>
    refine ⟨[], ?_, rfl⟩
    rw [lexemes?, h]
    rfl
  | @cons _ _ l _ _ h token rest ih =>
    obtain ⟨ls, hls, hts⟩ := ih
    refine ⟨l :: ls, ?_, ?_⟩
    · rw [lexemes?_of_lexeme? h, hls]
      rfl
    · rw [List.mapM_cons, token, hts]
      rfl

/-- The tokens of a text are read off one after the other. -/
theorem tokens_eq_ok_iff {text : String} : tokens text = .ok ts ↔ Reads text.toList ts := by
  unfold tokens
  constructor
  · intro h
    split at h
    · cases h
    · next ls hls => exact reads_of_lexemes? hls h
  · intro h
    obtain ⟨ls, hls, hts⟩ := exists_lexemes_of_reads h
    rw [hls]
    exact hts

/-! ## Sizes and names -/

/-- A size is read exactly if the tokens after the word are a name in parentheses. -/
theorem exists_sizeOf?_iff (h : Reads rest ts) :
    (∃ type after, sizeOf? ("sizeof".toList ++ rest) = some (type, after)) ↔
      ∃ type, [.openParen, .name type, .closeParen] <+: ts := by
  constructor
  · rintro ⟨type, after, hsize⟩
    obtain ⟨afterWord, afterOpen, afterName, heq, hopen, hname, hclose⟩ :=
      sizeOf?_eq_some_iff.mp hsize
    obtain rfl := List.append_cancel_left heq
    -- a size inside the parentheses would go on with a parenthesis of its own
    have hplain : sizeOf? (skip afterOpen) = none := by
      refine Option.eq_none_iff_forall_ne_some.mpr fun (type', after') hsize' => ?_
      obtain ⟨open', _, hword, hopen'⟩ := exists_of_sizeOf? hsize'
      cases hword.symm.trans hname
      cases hopen'.symm.trans hclose
    obtain ⟨_, _, rfl, htoken, hinner⟩ := h.uncons
      ((lexeme?_eq_symbol_iff (l := .openParen) rfl).mpr hopen)
    cases htoken
    obtain ⟨_, _, rfl, htoken, hlast⟩ := hinner.uncons (lexeme?_eq_name_iff.mpr ⟨hplain, hname⟩)
    cases htoken
    obtain ⟨_, ts, rfl, htoken, -⟩ := hlast.uncons
      ((lexeme?_eq_symbol_iff (l := .closeParen) rfl).mpr hclose)
    cases htoken
    exact ⟨String.ofList type, ts, rfl⟩
  · rintro ⟨type, ts, rfl⟩
    obtain - | ⟨hopen, htoken, hinner⟩ := h
    obtain rfl : _ = Lexeme.openParen := toToken_eq_ok_iff.mp htoken
    obtain - | ⟨hname, htoken, hlast⟩ := hinner
    obtain rfl : _ = Lexeme.name type.toList := toToken_eq_ok_iff.mp htoken
    obtain - | ⟨hclose, htoken, -⟩ := hlast
    obtain rfl : _ = Lexeme.closeParen := toToken_eq_ok_iff.mp htoken
    exact ⟨type.toList, _, sizeOf?_eq_some_iff.mpr ⟨rest, _, _, rfl,
      (lexeme?_eq_symbol_iff rfl).mp hopen, (lexeme?_eq_name_iff.mp hname).2,
      (lexeme?_eq_symbol_iff rfl).mp hclose⟩⟩

end Expression

end WireTables
