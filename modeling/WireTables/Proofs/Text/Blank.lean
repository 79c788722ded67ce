import Mathlib.Data.List.DropRight
import WireTables.Text.Blank
import WireTables.Text.Word

/-!
# Blanks and trimmed texts

A text is trimmed if it neither starts nor ends with a blank (`isTrimmed_iff`). Trimming makes it so
and takes nothing else away (`isTrimmed_trimChars`, `mem_of_mem_trimChars`), so that a text which is
known to be trimmed may be put between marks and read from there as it is. No blank of any script is
a word character (`isBlank_of_isWord`); the tables are looked through once for that.
-/

namespace WireTables.Text

variable {cs : List Char}

/-- No blanks stand at either end. -/
def IsTrimmed (cs : List Char) : Prop :=
  trimChars cs = cs

instance : DecidablePred IsTrimmed := fun cs =>
  inferInstanceAs (Decidable (trimChars cs = cs))

theorem trimEndChars_eq_rdropWhile (cs : List Char) : trimEndChars cs = cs.rdropWhile isBlank :=
  rfl

theorem isBlank_head_trimChars : ∀ c ∈ (trimChars cs).head?, isBlank c = false := by
  intro c hc
  have hprefix : trimChars cs <+: cs.dropWhile isBlank := by
    rw [trimChars, trimEndChars_eq_rdropWhile]
    exact List.rdropWhile_prefix isBlank _
  obtain ⟨ended, heq⟩ := hprefix
  cases htrim : trimChars cs with
  | nil =>
    rw [htrim] at hc
    cases hc
  | cons d rest =>
    rw [htrim] at hc heq
    obtain rfl := Option.some.inj hc
    have hhead := List.head?_dropWhile_not isBlank cs
    rw [← heq] at hhead
    exact Bool.eq_false_iff.mpr (by simpa using hhead)

theorem isBlank_getLast_trimChars : ∀ c ∈ (trimChars cs).getLast?, isBlank c = false := by
  intro c hc
  rw [trimChars, trimEndChars_eq_rdropWhile] at hc
  obtain ⟨hne, rfl⟩ := List.mem_getLast?_eq_getLast hc
  exact Bool.eq_false_iff.mpr (List.rdropWhile_last_not isBlank _ hne)

/-- A text is trimmed exactly if it neither starts nor ends with a blank. -/
theorem isTrimmed_iff : IsTrimmed cs ↔
    (∀ c ∈ cs.head?, isBlank c = false) ∧ ∀ c ∈ cs.getLast?, isBlank c = false := by
  constructor
  · intro h
    rw [← show trimChars cs = cs from h]
    exact ⟨isBlank_head_trimChars, isBlank_getLast_trimChars⟩
  · rintro ⟨hhead, hlast⟩
    have hstart : cs.dropWhile isBlank = cs := List.dropWhile_eq_self_iff.mpr fun hl => by
      simp [hhead cs[0] (by simp [List.head?_eq_getElem?])]
    have hend : cs.rdropWhile isBlank = cs := List.rdropWhile_eq_self_iff.mpr fun hl => by
      simp [hlast (cs.getLast hl) (List.getLast_mem_getLast? hl)]
    rw [IsTrimmed, trimChars, hstart, trimEndChars_eq_rdropWhile, hend]

theorem isTrimmed_trimChars (cs : List Char) : IsTrimmed (trimChars cs) :=
  isTrimmed_iff.mpr ⟨isBlank_head_trimChars, isBlank_getLast_trimChars⟩

theorem trim_eq_self {text : String} (h : IsTrimmed text.toList) : trim text = text := by
  rw [trim, show trimChars text.toList = text.toList from h, String.ofList_toList]

/-- A trimmed text that is not empty has more than blanks. -/
theorem isBlankText_of_isTrimmed {text : String} (h : IsTrimmed text.toList)
    (hne : text.toList ≠ []) : isBlankText text = false := by
  refine Bool.eq_false_iff.mpr fun hblank => ?_
  have hhead := List.head_mem_head? hne
  have hall := List.all_eq_true.mp hblank _ (List.mem_of_mem_head? hhead)
  exact Bool.false_ne_true (((isTrimmed_iff.mp h).1 _ hhead).symm.trans hall)

/-- Trimming only takes characters away. -/
theorem mem_of_mem_trimChars {c : Char} (h : c ∈ trimChars cs) : c ∈ cs := by
  rw [trimChars, trimEndChars_eq_rdropWhile] at h
  exact (List.dropWhile_suffix isBlank).subset ((List.rdropWhile_prefix isBlank _).subset h)

/-- Trimmed texts one after the other are trimmed. -/
theorem IsTrimmed.append {more : List Char} (h : IsTrimmed cs) (hmore : IsTrimmed more) :
    IsTrimmed (cs ++ more) := by
  obtain ⟨hhead, hlast⟩ := isTrimmed_iff.mp h
  obtain ⟨hhead', hlast'⟩ := isTrimmed_iff.mp hmore
  refine isTrimmed_iff.mpr ⟨fun c hc => ?_, fun c hc => ?_⟩
  · rw [List.head?_append] at hc
    exact (Option.or_eq_some_iff.mp hc).elim (hhead c) fun hc => hhead' c hc.2
  · rw [List.getLast?_append] at hc
    exact (Option.or_eq_some_iff.mp hc).elim (hlast' c) fun hc => hlast c hc.2

/-- The ranges of the blanks beyond ASCII. -/
def blankSpans : List (Nat × Nat) :=
  [(0x85, 0x85), (0xA0, 0xA0), (0x1680, 0x1680), (0x2000, 0x200A), (0x2028, 0x2029),
    (0x202F, 0x202F), (0x205F, 0x205F), (0x3000, 0x3000)]

theorem wordSpans_apart : ((wordSpansPartOne.toList ++ wordSpansPartTwo.toList).all fun s =>
    blankSpans.all fun b => s.2 < b.1 || b.2 < s.1) = true := by
  decide +kernel

theorem exists_blankSpan {c : Char} (h : isBlank c = true) (hc : 128 ≤ c.toNat) :
    ∃ b ∈ blankSpans, b.1 ≤ c.toNat ∧ c.toNat ≤ b.2 := by
  simp only [isBlank, Bool.or_eq_true, Bool.and_eq_true, decide_eq_true_eq, beq_iff_eq] at h
  simp only [blankSpans, List.mem_cons, List.not_mem_nil, or_false, exists_eq_or_imp,
    exists_eq_left]
  omega

/-- In ASCII no blank is a letter, a digit or the low line. -/
theorem isWord_ascii : ∀ n < 128, isBlank (Char.ofNat n) = true → isWord (Char.ofNat n) = false := by
  decide +kernel

/-- No blank is a word character. -/
theorem isBlank_of_isWord {c : Char} (h : isWord c = true) : isBlank c = false := by
  refine Bool.eq_false_iff.mpr fun hblank => ?_
  by_cases hc : c.toNat < 128
  · have hascii := isWord_ascii c.toNat hc
    rw [Char.ofNat_toNat] at hascii
    exact Bool.false_ne_true ((hascii hblank).symm.trans h)
  · obtain ⟨b, hb, hfirst, hlast⟩ := exists_blankSpan hblank (Nat.le_of_not_lt hc)
    rw [isWord, if_neg hc, inSpans, ← Array.any_toList, List.any_eq_true] at h
    obtain ⟨s, hs, hin⟩ := h
    rw [wordSpans, Array.toList_append] at hs
    have hapart := List.all_eq_true.mp (List.all_eq_true.mp wordSpans_apart s hs) b hb
    simp only [Bool.or_eq_true, Bool.and_eq_true, decide_eq_true_eq] at hapart hin
    omega
/-- A text of word characters is trimmed. -/
theorem isTrimmed_of_isWord (h : ∀ c ∈ cs, isWord c = true) : IsTrimmed cs :=
  isTrimmed_iff.mpr ⟨fun c hc => isBlank_of_isWord (h c (List.mem_of_mem_head? hc)),
    fun c hc => isBlank_of_isWord (h c (List.mem_of_mem_getLast? hc))⟩

end WireTables.Text
