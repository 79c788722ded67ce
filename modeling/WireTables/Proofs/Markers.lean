import Mathlib.Data.List.Infix
import WireTables.Proofs.Expression.Spelling
import WireTables.Table.Template

/-!
# Markers

The scan for markers goes from left to right and skips what a marker takes. What it finds is said here
without a scan: a marker stands wherever one of the two words starts (`Marker.occursIn_iff`), and the
letters are those of the first place that has any (`Marker.classesIn?_eq_some_iff`). The two agree
because a marker takes an exclamation mark, letters and a full stop (`Marker.scan_induction`), so no
word starts inside what a marker takes.
-/

namespace WireTables

open Expression (span_append)

namespace Marker

/-- The two words that start a marker. -/
def words : List (List Char) :=
  ["!ALG".toList, "!alg".toList]

/-- A character that a marker takes after its exclamation mark. -/
def isMarkerChar (c : Char) : Bool :=
  isClassLetter c || "alg.".toList.contains c

/-- A marker starts a text. -/
def Starts (cs : List Char) : Prop :=
  ∃ word ∈ words, word <+: cs

instance : DecidablePred Starts := fun cs =>
  inferInstanceAs (Decidable (∃ word ∈ words, word <+: cs))

/-- A marker stands somewhere in a text. -/
def Occurs (text : List Char) : Prop :=
  ∃ cs ∈ text.tails, Starts cs

instance : DecidablePred Occurs := fun text =>
  inferInstanceAs (Decidable (∃ cs ∈ text.tails, Starts cs))

/-- Every exclamation mark of a text starts a marker. -/
def OnlyMarkers (text : List Char) : Prop :=
  ∀ cs ∈ text.tails, cs.head? = some '!' → Starts cs

instance : DecidablePred OnlyMarkers := fun text =>
  inferInstanceAs (Decidable (∀ cs ∈ text.tails, cs.head? = some '!' → Starts cs))

/-- A marker that asks for the letters starts a text. -/
structure Asks (cs letters : List Char) : Prop where
  nonempty : letters ≠ []
  classes : ∀ c ∈ letters, isClassLetter c = true
  starts : ∃ word ∈ words, ∃ rest, cs = word ++ '.' :: (letters ++ rest) ∧
    ∀ c ∈ rest.head?, isClassLetter c = false

/-- The letters that the first marker with letters asks for. -/
inductive FirstAsks : List Char → List Char → Prop
  | here {cs letters : List Char} : Asks cs letters → FirstAsks cs letters
  | later {c : Char} {cs letters : List Char} : (∀ other, ¬ Asks (c :: cs) other) →
      FirstAsks cs letters → FirstAsks (c :: cs) letters

variable {c d : Char} {cs part rest word letters text : List Char} {marker : Marker} {length : Nat}

/-! ## The marker at the start -/

theorem words_length (h : word ∈ words) : word.length = 4 := by
  revert word
  decide

theorem exists_of_mem_words (h : word ∈ words) :
    ∃ tail, word = '!' :: tail ∧ tail.all isMarkerChar = true := by
  simp only [words, List.mem_cons, List.not_mem_nil, or_false] at h
  rcases h with rfl | rfl
  · exact ⟨"ALG".toList, rfl, by decide⟩
  · exact ⟨"alg".toList, rfl, by decide⟩

theorem notMem_of_isMarkerChar (hpart : part.all isMarkerChar = true) (hd : isMarkerChar d = false) :
    d ∉ part := fun hmem => by
  rw [List.all_eq_true.mp hpart d hmem] at hd
  cases hd

theorem letters?_eq_some_iff : letters? cs = some letters ↔ letters ≠ [] ∧
    (∀ c ∈ letters, isClassLetter c = true) ∧
    ∃ rest, cs = '.' :: (letters ++ rest) ∧ ∀ c ∈ rest.head?, isClassLetter c = false := by
  constructor
  · intro h
    unfold letters? at h
    split at h
    · next rest =>
      split at h
      · cases h
      · next hne =>
        cases h
        refine ⟨hne, fun c hc => List.all_eq_true.mp List.all_takeWhile c hc,
          rest.dropWhile isClassLetter, by rw [List.takeWhile_append_dropWhile], fun c hc => ?_⟩
        have hstop := List.head?_dropWhile_not isClassLetter rest
        rw [Option.mem_def.mp hc] at hstop
        simpa using hstop
    · cases h
  · rintro ⟨hne, hclass, rest, rfl, hrest⟩
    obtain ⟨htake, -⟩ := span_append hclass hrest
    unfold letters?
    cases letters with
    | nil => exact (hne rfl).elim
    | cons c letters => simp only [htake]

/-- A text starts with one of the words in one way only. -/
theorem asks_append_iff (hword : word ∈ words) :
    Asks (word ++ rest) letters ↔ letters? rest = some letters := by
  rw [letters?_eq_some_iff]
  constructor
  · rintro ⟨hne, hclass, other, hother, more, heq, hmore⟩
    have hlength : word.length = other.length := by rw [words_length hword, words_length hother]
    exact ⟨hne, hclass, more, (List.append_inj heq hlength).2, hmore⟩
  · rintro ⟨hne, hclass, more, rfl, hmore⟩
    exact ⟨hne, hclass, word, hword, more, rfl, hmore⟩

theorem Asks.isStart (h : Asks cs letters) : Starts cs := by
  obtain ⟨word, hword, rest, rfl, -⟩ := h.starts
  exact ⟨word, hword, List.prefix_append word _⟩

theorem Starts.mem (h : Starts cs) : '!' ∈ cs := by
  obtain ⟨word, hword, hprefix⟩ := h
  obtain ⟨tail, rfl, -⟩ := exists_of_mem_words hword
  exact hprefix.subset List.mem_cons_self

theorem not_starts_cons (hc : c ≠ '!') : ¬ Starts (c :: cs) := by
  rintro ⟨word, hword, hprefix⟩
  obtain ⟨tail, rfl, -⟩ := exists_of_mem_words hword
  exact hc (List.cons_prefix_cons.mp hprefix).1.symm

theorem at?_eq_none_iff : at? cs = none ↔ ¬ Starts cs := by
  have hwords : Starts cs ↔ "!ALG".toList <+: cs ∨ "!alg".toList <+: cs := by
    simp [Starts, words]
  rw [hwords, ← List.isPrefixOf_iff_prefix, ← List.isPrefixOf_iff_prefix]
  unfold at? Text.dropHeadChars?
  cases "!ALG".toList.isPrefixOf cs <;> cases "!alg".toList.isPrefixOf cs <;> simp

/-- The part that a word takes, with the letters after it. -/
theorem exists_part (hword : word ∈ words) {upper : Bool}
    (h : (match letters? rest with
      | some letters => ((⟨upper, some letters⟩ : Marker), 5 + letters.length)
      | none => (⟨upper, none⟩, 4)) = (marker, length)) :
    ∃ part more, word ++ rest = '!' :: (part ++ more) ∧ part.all isMarkerChar = true ∧
      length = part.length + 1 ∧ marker.classes = letters? rest := by
  have hlength := words_length hword
  obtain ⟨tail, rfl, htail⟩ := exists_of_mem_words hword
  rw [List.length_cons] at hlength
  split at h
  · next letters hletters =>
    cases h
    obtain ⟨-, hclass, more, rfl, -⟩ := letters?_eq_some_iff.mp hletters
    have hpart : (tail ++ '.' :: letters).all isMarkerChar = true := by
      rw [List.all_append, List.all_cons, htail, Bool.true_and, Bool.and_eq_true, List.all_eq_true]
      exact ⟨by decide, fun c hc => by rw [isMarkerChar, hclass c hc, Bool.true_or]⟩
    have hlen : 5 + letters.length = (tail ++ '.' :: letters).length + 1 := by
      rw [List.length_append, List.length_cons]
      omega
    exact ⟨tail ++ '.' :: letters, more, by simp, hpart, hlen, hletters.symm⟩
  · next hletters =>
    cases h
    exact ⟨tail, rest, rfl, htail, by omega, hletters.symm⟩

/-- What a marker takes starts with an exclamation mark and has no other one, and its letters are
those that are asked for. -/
theorem exists_of_at?_eq_some (h : at? cs = some (marker, length)) :
    ∃ part rest, cs = '!' :: (part ++ rest) ∧ part.all isMarkerChar = true ∧
      length = part.length + 1 ∧ ∀ letters, marker.classes = some letters ↔ Asks cs letters := by
  have hsplit : ∃ word ∈ words, ∃ rest upper, cs = word ++ rest ∧
      (match letters? rest with
      | some letters => ((⟨upper, some letters⟩ : Marker), 5 + letters.length)
      | none => (⟨upper, none⟩, 4)) = (marker, length) := by
    unfold at? at h
    split at h
    · next rest hrest =>
      exact ⟨_, by decide, rest, true, Text.dropHeadChars?_eq_some_iff.mp hrest, Option.some.inj h⟩
    · obtain ⟨rest, hrest, hmarker⟩ := Option.map_eq_some_iff.mp h
      exact ⟨_, by decide, rest, false, Text.dropHeadChars?_eq_some_iff.mp hrest, hmarker⟩
  obtain ⟨word, hword, rest, upper, rfl, hfound⟩ := hsplit
  obtain ⟨part, more, heq, hpart, hlength, hclasses⟩ := exists_part hword hfound
  exact ⟨part, more, heq, hpart, hlength, fun letters => by
    rw [hclasses, asks_append_iff hword]⟩

/-! ## The scan of a text -/

/-- The scan takes a character that starts no marker, or all that a marker takes. -/
theorem scan_induction {motive : List Char → Prop} (nil : motive [])
    (plain : ∀ c cs, at? (c :: cs) = none → motive cs → motive (c :: cs))
    (marked : ∀ marker part rest, part.all isMarkerChar = true →
      at? ('!' :: (part ++ rest)) = some (marker, part.length + 1) →
      (∀ letters, marker.classes = some letters ↔ Asks ('!' :: (part ++ rest)) letters) →
      motive rest → motive ('!' :: (part ++ rest)))
    (cs : List Char) : motive cs := by
  induction hn : cs.length using Nat.strongRecOn generalizing cs with
  | _ n ih =>
    subst hn
    cases cs with
    | nil => exact nil
    | cons c cs =>
      cases hat : at? (c :: cs) with
      | none => exact plain c cs hat (ih _ (by simp) cs rfl)
      | some found =>
        obtain ⟨marker, length⟩ := found
        obtain ⟨part, rest, hcs, hpart, rfl, hletters⟩ := exists_of_at?_eq_some hat
        cases hcs
        have hshort : rest.length < ('!' :: (part ++ rest)).length := by
          rw [List.length_cons, List.length_append]
          omega
        exact marked marker part rest hpart hat hletters (ih _ hshort rest rfl)

theorem allIn_pending : allIn part.length (part ++ rest) = allIn 0 rest := by
  induction part with
  | nil => rfl
  | cons c part ih => exact ih

theorem allIn_plain (h : at? (c :: cs) = none) : allIn 0 (c :: cs) = allIn 0 cs := by
  rw [allIn, h]

theorem allIn_marked (h : at? ('!' :: (part ++ rest)) = some (marker, part.length + 1)) :
    allIn 0 ('!' :: (part ++ rest)) = marker :: allIn 0 rest := by
  rw [allIn, h]
  exact congrArg (marker :: ·) allIn_pending

theorem replaceIn_pending {upper lower : List Char} :
    replaceIn upper lower part.length (part ++ rest) = replaceIn upper lower 0 rest := by
  induction part with
  | nil => rfl
  | cons c part ih => exact ih

theorem replaceIn_plain {upper lower : List Char} (h : at? (c :: cs) = none) :
    replaceIn upper lower 0 (c :: cs) = c :: replaceIn upper lower 0 cs := by
  rw [replaceIn, h]

theorem replaceIn_marked {upper lower : List Char}
    (h : at? ('!' :: (part ++ rest)) = some (marker, part.length + 1)) :
    replaceIn upper lower 0 ('!' :: (part ++ rest)) =
      (if marker.upper then upper else lower) ++ replaceIn upper lower 0 rest := by
  rw [replaceIn, h]
  exact congrArg (_ ++ ·) replaceIn_pending

/-! ## Where markers stand -/

theorem occurs_cons : Occurs (c :: cs) ↔ Starts (c :: cs) ∨ Occurs cs := by
  simp [Occurs]

theorem not_occurs_nil : ¬ Occurs [] := by decide

theorem not_occurs_of_notMem (h : '!' ∉ text) : ¬ Occurs text := by
  rintro ⟨cs, hcs, hstart⟩
  exact h (((List.mem_tails cs text).mp hcs).subset hstart.mem)

theorem allIn_eq_nil_iff : allIn 0 text = [] ↔ ¬ Occurs text := by
  induction text using scan_induction with
  | nil => exact iff_of_true rfl not_occurs_nil
  | plain c cs hat ih => rw [allIn_plain hat, ih, occurs_cons, or_iff_right (at?_eq_none_iff.mp hat)]
  | marked marker part rest _ hat =>
    have hstart : Starts ('!' :: (part ++ rest)) := by
      by_contra hnot
      rw [at?_eq_none_iff.mpr hnot] at hat
      cases hat
    rw [allIn_marked hat]
    exact iff_of_false (List.cons_ne_nil _ _) fun hnot => hnot (occurs_cons.mpr (.inl hstart))

/-- The scan finds a marker in a text if there is one. -/
theorem occursIn_iff {text : String} : occursIn text = true ↔ Occurs text.toList := by
  rw [occursIn, Bool.not_eq_true', List.isEmpty_eq_false_iff, ne_eq, allIn_eq_nil_iff, not_not]

/-! ## What the first marker asks for -/

theorem firstAsks_cons (hnot : ∀ other, ¬ Asks (c :: cs) other) :
    FirstAsks (c :: cs) letters ↔ FirstAsks cs letters := by
  constructor
  · rintro (h | ⟨-, h⟩)
    · exact (hnot _ h).elim
    · exact h
  · exact .later hnot

/-- Nothing is asked for inside what a marker takes. -/
theorem firstAsks_append (hpart : '!' ∉ part) :
    FirstAsks (part ++ rest) letters ↔ FirstAsks rest letters := by
  induction part with
  | nil => rfl
  | cons c part ih =>
    rw [List.mem_cons, not_or] at hpart
    rw [List.cons_append, firstAsks_cons fun _ h => not_starts_cons (Ne.symm hpart.1) h.isStart,
      ih hpart.2]

theorem findSome?_allIn_eq_some_iff :
    (allIn 0 text).findSome? (·.classes) = some letters ↔ FirstAsks text letters := by
  induction text using scan_induction with
  | nil =>
    refine iff_of_false (nomatch ·) ?_
    rintro ⟨h⟩
    exact absurd h.isStart (by decide)
  | plain c cs hat ih =>
    rw [allIn_plain hat, ih, firstAsks_cons fun _ h => at?_eq_none_iff.mp hat h.isStart]
  | marked marker part rest hpart hat hletters ih =>
    rw [allIn_marked hat, List.findSome?_cons]
    cases hclasses : marker.classes with
    | none =>
      have hnot : ∀ other, ¬ Asks ('!' :: (part ++ rest)) other := fun other h => by
        rw [(hletters other).mpr h] at hclasses
        cases hclasses
      have hmark : '!' ∉ part := notMem_of_isMarkerChar hpart (by decide)
      rw [firstAsks_cons hnot, firstAsks_append hmark, ← ih]
    | some found =>
      change some found = some letters ↔ _
      rw [← hclasses, hletters]
      refine ⟨.here, ?_⟩
      rintro (h | ⟨hnot, -⟩)
      · exact h
      · exact (hnot found ((hletters found).mp hclasses)).elim

/-- The letters that the scan comes back with are those of the first marker that has any. -/
theorem classesIn?_eq_some_iff {text : String} :
    classesIn? text = some letters ↔ FirstAsks text.toList letters :=
  findSome?_allIn_eq_some_iff

theorem classesIn?_eq_none_iff {text : String} :
    classesIn? text = none ↔ ∀ letters, ¬ FirstAsks text.toList letters := by
  simp only [← classesIn?_eq_some_iff, Option.eq_none_iff_forall_ne_some, ne_eq]

theorem FirstAsks.ne_nil (h : FirstAsks text letters) : letters ≠ [] := by
  induction h with
  | here h => exact h.nonempty
  | later _ _ ih => exact ih

/-! ## Names in place of markers -/

theorem OnlyMarkers.of_suffix (h : OnlyMarkers text) (hcs : cs <:+ text) : OnlyMarkers cs :=
  fun ds hds => h ds ((List.mem_tails ds text).mpr (((List.mem_tails ds cs).mp hds).trans hcs))

/-- No exclamation mark is left over. -/
theorem notMem_replaceIn {upper lower : List Char} (hupper : '!' ∉ upper) (hlower : '!' ∉ lower)
    (h : OnlyMarkers text) : '!' ∉ replaceIn upper lower 0 text := by
  induction text using scan_induction with
  | nil => exact List.not_mem_nil
  | plain c cs hat ih =>
    have hc : c ≠ '!' := by
      rintro rfl
      exact at?_eq_none_iff.mp hat (h _ ((List.mem_tails _ _).mpr List.suffix_rfl) rfl)
    rw [replaceIn_plain hat, List.mem_cons, not_or]
    exact ⟨Ne.symm hc, ih (h.of_suffix (List.suffix_cons c cs))⟩
  | marked marker part rest _ hat _ ih =>
    have hrest : rest <:+ '!' :: (part ++ rest) :=
      (List.suffix_append part rest).trans (List.suffix_cons '!' _)
    rw [replaceIn_marked hat, List.mem_append, not_or]
    refine ⟨?_, ih (h.of_suffix hrest)⟩
    split
    · exact hupper
    · exact hlower

end Marker

end WireTables
