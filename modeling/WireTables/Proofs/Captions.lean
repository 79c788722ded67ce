import WireTables.Proofs.Markers
import WireTables.Proofs.Text.Case
import WireTables.Table.Caption

/-!
# Markers in captions

A marker starts with an exclamation mark, and no caption of the algorithm table has one in its plain
form. So a marker in such a caption stands in a part that the plain form leaves out, and the name
that replaces it stays in there, for a name has no bracket: every table that the algorithm table
stands for is an algorithm table again (`kind?_substitute`). The table number is no exception. It
ends before the first exclamation mark or opening bracket, whatever comes after
(`dropNumber_append`).
-/

namespace WireTables

namespace Caption

/-- A character that starts or ends a part that the plain form leaves out. -/
def isBracket (c : Char) : Bool :=
  c == '<' || c == '>' || c == '{' || c == '}'

/-- A text without brackets. -/
def Unbracketed (cs : List Char) : Prop :=
  ∀ c ∈ cs, isBracket c = false

instance (cs : List Char) : Decidable (Unbracketed cs) :=
  inferInstanceAs (Decidable (∀ c ∈ cs, _))

/-- A character at which a table number has ended for certain. -/
def EndsNumber (c : Char) : Prop :=
  Text.isBlank c = false ∧ isNumberChar c = false ∧ isNumberEnd c = false ∧ c ∉ "Table".toList

instance (c : Char) : Decidable (EndsNumber c) :=
  inferInstanceAs (Decidable (_ ∧ _ ∧ _ ∧ _))

theorem endsNumber_exclamation : EndsNumber '!' := by decide

theorem endsNumber_of_isBracket {c : Char} (h : isBracket c = true) : EndsNumber c := by
  simp only [isBracket, Bool.or_eq_true, beq_iff_eq] at h
  rcases h with ((rfl | rfl) | rfl) | rfl <;> decide

/-! ## The table number -/

theorem dropWhile_append_cons {p : Char → Bool} {c : Char} (hc : p c = false) (cs rest : List Char) :
    (cs ++ c :: rest).dropWhile p = cs.dropWhile p ++ c :: rest := by
  induction cs with
  | nil => simp [hc]
  | cons d cs ih =>
    by_cases hd : p d <;> simp [hd, ih]

theorem dropHeadChars?_append_cons {head : List Char} {c : Char} (hc : c ∉ head)
    (cs rest : List Char) :
    Text.dropHeadChars? head (cs ++ c :: rest) =
      (Text.dropHeadChars? head cs).map (· ++ c :: rest) := by
  unfold Text.dropHeadChars?
  by_cases h : head <+: cs
  · have happend : head <+: cs ++ c :: rest := h.trans (List.prefix_append cs _)
    simp [h, happend, List.drop_append_of_le_length h.length_le]
  · have happend : ¬ head <+: cs ++ c :: rest := by
      intro hp
      rcases Nat.lt_or_ge cs.length head.length with hlt | hge
      · obtain ⟨more, hmore⟩ := hp
        have hget : (head ++ more)[cs.length]? = some c := by rw [hmore]; simp
        rw [List.getElem?_append_left hlt] at hget
        exact hc (List.mem_of_getElem? hget)
      · exact h (List.prefix_of_prefix_length_le hp (List.prefix_append cs _) hge)
    simp [h, happend]

section Number

variable {c : Char} (hc : EndsNumber c)

include hc

theorem afterEndMark?_append (cs rest : List Char) :
    afterEndMark? (cs ++ c :: rest) = (afterEndMark? cs).map (· ++ c :: rest) := by
  obtain ⟨hblank, -, hend, -⟩ := hc
  unfold afterEndMark?
  rw [dropWhile_append_cons hblank]
  cases cs.dropWhile Text.isBlank with
  | nil => simp [hend]
  | cons d ds =>
    by_cases hd : isNumberEnd d <;> simp [hd, dropWhile_append_cons hblank]

theorem afterNumber?_append (cs rest : List Char) :
    afterNumber? (cs ++ c :: rest) = (afterNumber? cs).map (· ++ c :: rest) := by
  induction cs with
  | nil =>
    have hend := afterEndMark?_append hc [] rest
    rw [List.nil_append] at hend ⊢
    have hstop : ¬ isNumberChar c = true := by simp [hc.2.1]
    rw [afterNumber?.eq_2, if_neg hstop, hend, afterNumber?.eq_1]
  | cons d cs ih =>
    have hend := afterEndMark?_append hc (d :: cs) rest
    rw [List.cons_append] at hend ⊢
    rw [afterNumber?.eq_2, afterNumber?.eq_2, ih, hend]
    by_cases hd : isNumberChar d
    · rw [if_pos hd, if_pos hd]
      cases afterNumber? cs <;> simp
    · rw [if_neg hd, if_neg hd]

/-- Whether there is a table number and where it ends is settled before the character. -/
theorem dropNumber_append (cs rest : List Char) :
    dropNumber (cs ++ c :: rest) = dropNumber cs ++ c :: rest := by
  obtain ⟨hblank, hnumber, hend, htable⟩ := id hc
  unfold dropNumber
  rw [dropWhile_append_cons hblank, dropHeadChars?_append_cons htable]
  cases Text.dropHeadChars? "Table".toList (cs.dropWhile Text.isBlank) with
  | none => simp
  | some after =>
    cases after with
    | nil => simp [hblank]
    | cons blank after =>
      by_cases hb : Text.isBlank blank
      · simp only [Option.map_some, List.cons_append, Option.bind_eq_bind, Option.bind_some, hb,
          if_true, dropWhile_append_cons hblank]
        cases after.dropWhile Text.isBlank with
        | nil => simp [hnumber]
        | cons d number =>
          by_cases hd : isNumberChar d
          · simp only [List.cons_append, hd, if_true, afterNumber?_append hc]
            cases afterNumber? number <;> simp
          · simp [hd]
      · simp [hb]

end Number

theorem afterEndMark?_suffix {cs rest : List Char} (h : afterEndMark? cs = some rest) :
    rest <:+ cs := by
  unfold afterEndMark? at h
  split at h
  · next c after hafter =>
    split at h
    · cases h
      have hdrop : c :: after <:+ cs := hafter ▸ List.dropWhile_suffix _
      exact ((List.dropWhile_suffix _).trans (List.suffix_cons c after)).trans hdrop
    · cases h
  · cases h

theorem afterNumber?_suffix {cs rest : List Char} (h : afterNumber? cs = some rest) :
    rest <:+ cs := by
  induction cs with
  | nil => exact afterEndMark?_suffix h
  | cons c cs ih =>
    rw [afterNumber?.eq_2] at h
    split at h
    · cases hnumber : afterNumber? cs with
      | none =>
        rw [hnumber] at h
        exact afterEndMark?_suffix h
      | some after =>
        rw [hnumber] at h
        cases h
        exact (ih hnumber).trans (List.suffix_cons c cs)
    · exact afterEndMark?_suffix h

theorem getD_suffix {label? : Option (List Char)} {cs : List Char}
    (h : ∀ rest, label? = some rest → rest <:+ cs) : label?.getD cs <:+ cs := by
  cases label? with
  | none => exact List.suffix_refl cs
  | some rest => exact h rest rfl

/-- What stands after a table number is the end of the caption. -/
theorem dropNumber_suffix (cs : List Char) : dropNumber cs <:+ cs := by
  refine getD_suffix fun rest hrest => ?_
  obtain ⟨after, hafter, hrest⟩ := Option.bind_eq_some_iff.mp hrest
  have hhead : after <:+ cs := by
    unfold Text.dropHeadChars? at hafter
    split at hafter
    · cases hafter
      exact (List.drop_suffix _ _).trans (List.dropWhile_suffix _)
    · cases hafter
  refine List.IsSuffix.trans ?_ hhead
  cases after with
  | nil => cases hrest
  | cons blank after =>
    refine List.IsSuffix.trans ?_ (List.suffix_cons blank after)
    replace hrest := (Option.ite_none_right_eq_some.mp hrest).2
    split at hrest
    · next c number hnumber =>
      have hdrop : c :: number <:+ after := hnumber ▸ List.dropWhile_suffix Text.isBlank
      replace hrest := (Option.ite_none_right_eq_some.mp hrest).2
      exact ((afterNumber?_suffix hrest).trans (List.suffix_cons c number)).trans hdrop
    · cases hrest

/-! ## Parts in brackets -/

/-- The second text is the first one with some parts replaced. A replaced part starts with an
exclamation mark, and neither it nor what replaces it has a bracket. -/
inductive Patched : List Char → List Char → Prop where
  | nil : Patched [] []
  | keep (c : Char) {cs ds : List Char} : Patched cs ds → Patched (c :: cs) (c :: ds)
  | patch {part filler cs ds : List Char} : Unbracketed part → Unbracketed filler →
      Patched cs ds → Patched ('!' :: (part ++ cs)) (filler ++ ds)

namespace Patched

theorem refl : ∀ cs : List Char, Patched cs cs
  | [] => .nil
  | c :: cs => .keep c (refl cs)

theorem eq_of_notMem {cs ds : List Char} (h : Patched cs ds) (hcs : '!' ∉ cs) : ds = cs := by
  induction h with
  | nil => rfl
  | keep c _ ih => rw [ih fun hmem => hcs (List.mem_cons_of_mem c hmem)]
  | patch => exact absurd List.mem_cons_self hcs

theorem prepend {cs ds : List Char} (h : Patched cs ds) :
    ∀ start : List Char, Patched (start ++ cs) (start ++ ds)
  | [] => h
  | c :: start => .keep c (h.prepend start)

theorem exists_of_cons {c : Char} {cs ds : List Char} (hc : c ≠ '!') (h : Patched (c :: cs) ds) :
    ∃ es, ds = c :: es ∧ Patched cs es := by
  cases h with
  | keep _ h => exact ⟨_, rfl, h⟩
  | patch => exact absurd rfl hc

/-- What comes before the first exclamation mark stays. -/
theorem exists_of_append {cs ds : List Char} : ∀ {start : List Char}, '!' ∉ start →
    Patched (start ++ cs) ds → ∃ es, ds = start ++ es ∧ Patched cs es
  | [], _, h => ⟨ds, rfl, h⟩
  | c :: start, hstart, h => by
    rw [List.mem_cons, not_or] at hstart
    rw [List.cons_append] at h
    obtain ⟨es, rfl, htail⟩ := h.exists_of_cons (Ne.symm hstart.1)
    obtain ⟨fs, rfl, hrest⟩ := exists_of_append hstart.2 htail
    exact ⟨fs, rfl, hrest⟩

/-- A bracket stands in both texts or in neither. -/
theorem contains_eq {cs ds : List Char} (h : Patched cs ds) {b : Char} (hb : isBracket b = true) :
    cs.contains b = ds.contains b := by
  have absent {es : List Char} (hes : Unbracketed es) : b ∉ es := fun hmem => by
    rw [hes b hmem] at hb
    cases hb
  have hmark : b ≠ '!' := by
    rintro rfl
    revert hb
    decide
  induction h with
  | nil => rfl
  | keep c _ ih => rw [List.contains_cons, List.contains_cons, ih]
  | patch hpart hfiller _ ih =>
    rw [List.contains_cons, List.contains_append, List.contains_append, ih]
    simp [hmark, absent hpart, absent hfiller]

/-- Both texts go on after a closing bracket in the same way. -/
theorem afterClosing {cs ds : List Char} (h : Patched cs ds) {b : Char}
    (hb : isBracket b = true) :
    Patched ((cs.dropWhile (· != b)).drop 1) ((ds.dropWhile (· != b)).drop 1) := by
  have skip {es : List Char} (hes : Unbracketed es) (more : List Char) :
      (es ++ more).dropWhile (· != b) = more.dropWhile (· != b) := by
    refine List.dropWhile_append_of_pos fun e he => ?_
    rw [bne_iff_ne]
    rintro rfl
    rw [hes e he] at hb
    cases hb
  have hmark : ('!' != b) = true := by
    rw [bne_iff_ne]
    rintro rfl
    revert hb
    decide
  induction h with
  | nil => exact .nil
  | keep c h ih =>
    by_cases hc : c = b
    · simpa [hc] using h
    · simpa [hc] using ih
  | patch hpart hfiller _ ih =>
    rwa [List.dropWhile_cons, if_pos hmark, skip hpart, skip hfiller]

end Patched

theorem dropBracketed_cons {opening closing c : Char} (h : c ≠ opening) (cs : List Char) :
    dropBracketed opening closing (c :: cs) = c :: dropBracketed opening closing cs := by
  rw [dropBracketed, if_neg (by simp [h])]

theorem dropBracketed_append {opening closing : Char} {start : List Char}
    (h : opening ∉ start) (cs : List Char) :
    dropBracketed opening closing (start ++ cs) = start ++ dropBracketed opening closing cs := by
  induction start with
  | nil => rfl
  | cons c start ih =>
    rw [List.mem_cons, not_or] at h
    rw [List.cons_append, dropBracketed_cons (Ne.symm h.1), ih h.2, List.cons_append]

/-- Parts in brackets are left out of both texts alike. -/
theorem Patched.dropBracketed {opening closing : Char} (ho : isBracket opening = true)
    (hc : isBracket closing = true) {cs ds : List Char} (h : Patched cs ds) :
    Patched (dropBracketed opening closing cs) (dropBracketed opening closing ds) := by
  have absent {es : List Char} (hes : Unbracketed es) : opening ∉ es := fun hmem => by
    rw [hes opening hmem] at ho
    cases ho
  have hmark : '!' ≠ opening := by
    rintro rfl
    revert ho
    decide
  induction hn : cs.length using Nat.strongRecOn generalizing cs ds with
  | _ n ih =>
    subst hn
    cases h with
    | nil => exact .refl _
    | @keep c cs ds h =>
      rw [Caption.dropBracketed, Caption.dropBracketed, h.contains_eq hc]
      split
      · refine ih _ ?_ (h.afterClosing hc) rfl
        have := (List.dropWhile_sublist (l := cs) (· != closing)).length_le
        simp only [List.length_drop, List.length_cons]
        omega
      · exact .keep c (ih _ (by simp) h rfl)
    | @patch part filler cs ds hpart hfiller h =>
      rw [dropBracketed_append (absent hfiller), dropBracketed_cons hmark,
        dropBracketed_append (absent hpart)]
      exact .patch hpart hfiller
        (ih _ (by simp only [List.length_append, List.length_cons]; omega) h rfl)

/-! ## The plain form -/

theorem mem_trimChars {c : Char} {cs : List Char} (hc : Text.isBlank c = false) (h : c ∈ cs) :
    c ∈ Text.trimChars cs := by
  have keep {ds : List Char} (hds : c ∈ ds) : c ∈ ds.dropWhile Text.isBlank := by
    rw [← List.takeWhile_append_dropWhile (p := Text.isBlank) (l := ds)] at hds
    refine (List.mem_append.mp hds).resolve_left fun htake => ?_
    rw [List.all_eq_true.mp List.all_takeWhile c htake] at hc
    cases hc
  unfold Text.trimChars Text.trimEndChars
  exact List.mem_reverse.mpr (keep (List.mem_reverse.mpr (keep h)))

theorem mem_collapse {c : Char} {cs : List Char} (hc : Text.isBlank c = false) (h : c ∈ cs) :
    c ∈ collapse cs := by
  fun_induction collapse cs with
  | case1 => exact h
  | case2 d hd next rest hnext ih =>
    rcases List.mem_cons.mp h with rfl | h
    · rw [hd] at hc
      cases hc
    · exact ih h
  | case3 d hd next rest hnext ih =>
    rcases List.mem_cons.mp h with rfl | h
    · rw [hd] at hc
      cases hc
    · exact List.mem_cons_of_mem _ (ih h)
  | case4 d hd =>
    rw [List.mem_singleton.mp h, hd] at hc
    cases hc
  | case5 d rest hd ih =>
    rcases List.mem_cons.mp h with rfl | h
    · exact List.mem_cons_self
    · exact List.mem_cons_of_mem d (ih h)

/-- The plain form loses no exclamation mark that stands outside of brackets. -/
theorem notMem_of_plainChars {cs : List Char} (h : '!' ∉ plainChars cs) :
    '!' ∉ dropBracketed '{' '}' (dropBracketed '<' '>' (dropNumber cs)) :=
  fun hmem => h (mem_collapse (by decide) (mem_trimChars (by decide) hmem))

/-- Parts that the plain form leaves out may be replaced. -/
theorem plainChars_eq_of_patched {cs ds : List Char} (h : Patched cs ds)
    (hplain : '!' ∉ plainChars cs) : plainChars ds = plainChars cs := by
  have houter := notMem_of_plainChars hplain
  suffices hnumber : Patched (dropNumber cs) (dropNumber ds) by
    have hangles : Patched (dropBracketed '<' '>' (dropNumber cs))
        (dropBracketed '<' '>' (dropNumber ds)) := hnumber.dropBracketed rfl rfl
    have hbraces : Patched (dropBracketed '{' '}' (dropBracketed '<' '>' (dropNumber cs)))
        (dropBracketed '{' '}' (dropBracketed '<' '>' (dropNumber ds))) :=
      hangles.dropBracketed rfl rfl
    unfold plainChars
    rw [hbraces.eq_of_notMem houter]
  -- the first character that is an exclamation mark or a bracket settles where the number ends
  have hstop {c : Char} (hc : (c == '!' || isBracket c) = true) : EndsNumber c := by
    rw [Bool.or_eq_true, beq_iff_eq] at hc
    rcases hc with rfl | hc
    · exact endsNumber_exclamation
    · exact endsNumber_of_isBracket hc
  cases hfind : cs.find? fun c => c == '!' || isBracket c with
  | none =>
    have hmark : '!' ∉ cs := fun hmem => absurd (List.find?_eq_none.mp hfind '!' hmem) (by decide)
    rw [h.eq_of_notMem hmark]
    exact .refl _
  | some c =>
    obtain ⟨hc, start, rest, rfl, hstart⟩ := List.find?_eq_some_iff_append.mp hfind
    have hmark : '!' ∉ start := fun hmem => absurd (hstart '!' hmem) (by decide)
    have hend : EndsNumber c := hstop hc
    rw [dropNumber_append hend]
    by_cases hbang : c = '!'
    · -- an exclamation mark in front of all brackets would be part of the plain form
      subst hbang
      have hfree {b : Char} (hb : isBracket b = true) : b ∉ dropNumber start := fun hmem => by
        have hfalse := hstart b ((dropNumber_suffix start).subset hmem)
        simp [hb] at hfalse
      refine absurd ?_ houter
      rw [dropNumber_append hend, dropBracketed_append (hfree (by decide)),
        dropBracketed_cons (by decide), dropBracketed_append (hfree (by decide)),
        dropBracketed_cons (by decide)]
      simp
    · obtain ⟨es, rfl, hes⟩ := Patched.exists_of_append hmark h
      obtain ⟨fs, rfl, hfs⟩ := hes.exists_of_cons hbang
      rw [dropNumber_append hend]
      exact (Patched.keep c hfs).prepend _

/-! ## The caption of the algorithm table -/

theorem mem_splitWords {c : Char} {cs : List Char} (h : c ∈ cs) :
    c = ' ' ∨ ∃ word ∈ splitWords cs, c ∈ word := by
  induction cs with
  | nil => cases h
  | cons d cs ih =>
    rw [splitWords]
    by_cases hd : d = ' '
    · rcases List.mem_cons.mp h with rfl | h
      · exact .inl hd
      · obtain hblank | ⟨word, hword, hc⟩ := ih h
        · exact .inl hblank
        · exact .inr ⟨word, by simp [hd, hword], hc⟩
    · rw [if_neg (by simpa using hd)]
      cases hwords : splitWords cs with
      | nil =>
        rcases List.mem_cons.mp h with rfl | h
        · exact .inr ⟨[c], by simp, by simp⟩
        · obtain hblank | ⟨word, hword, hc⟩ := ih h
          · exact .inl hblank
          · rw [hwords] at hword
            cases hword
      | cons first more =>
        rcases List.mem_cons.mp h with rfl | h
        · exact .inr ⟨c :: first, by simp, by simp⟩
        · obtain hblank | ⟨word, hword, hc⟩ := ih h
          · exact .inl hblank
          · rw [hwords] at hword
            rcases List.mem_cons.mp hword with rfl | hword
            · exact .inr ⟨d :: word, by simp, List.mem_cons_of_mem d hc⟩
            · exact .inr ⟨word, List.mem_cons_of_mem _ hword, hc⟩

theorem notMem_of_parenthesized? {cs : List Char} {base : String}
    (h : parenthesized? cs = some base) : '!' ∉ cs := by
  unfold parenthesized? at h
  split at h
  · next rest =>
    split at h
    · next hlast =>
      have hword : rest.dropLast.all Text.isWord = true := by
        unfold wordText? at h
        split at h
        · next hall => exact ((Bool.and_eq_true _ _).mp hall).2
        · cases h
      have hrest : rest = rest.dropLast ++ [')'] := by
        obtain ⟨front, rfl⟩ := List.getLast?_eq_some_iff.mp (beq_iff_eq.mp hlast)
        rw [List.dropLast_concat]
      intro hmem
      rw [hrest, List.mem_cons, List.mem_append, List.mem_singleton] at hmem
      rcases hmem with hmem | hmem | hmem
      · cases hmem
      · exact absurd (List.all_eq_true.mp hword '!' hmem) (by decide)
      · cases hmem
    · cases h
  · cases h

/-- The words of the caption of the algorithm table: a type in parentheses and two fixed ones. -/
theorem exists_of_kindOfDefinition? {words : List (List Char)} {base : String}
    (h : kindOfDefinition? words = some (.algorithms base)) :
    ∃ first, parenthesized? first = some base ∧
      words = [first, "TPM_ALG_ID".toList, "Constants".toList] := by
  unfold kindOfDefinition? at h
  split at h
  case h_3 first second third hwords =>
    obtain ⟨_, hbase, hkind⟩ := Option.map_eq_some_iff.mp h
    cases hkind
    simp only [List.map_cons, List.map_nil, List.cons.injEq] at hwords
    refine ⟨first, hbase, ?_⟩
    rw [← hwords.2.1, ← hwords.2.2.1, String.toList_ofList, String.toList_ofList]
  case h_4 | h_6 | h_8 =>
    obtain ⟨_, _, h⟩ := Option.bind_eq_some_iff.mp h
    obtain ⟨_, _, h⟩ := Option.bind_eq_some_iff.mp h
    cases h
  case h_5 =>
    obtain ⟨_, _, h⟩ := Option.bind_eq_some_iff.mp h
    cases h
  case h_7 | h_9 =>
    obtain ⟨_, _, h⟩ := Option.map_eq_some_iff.mp h
    cases h
  all_goals cases h

/-- No caption of the algorithm table has an exclamation mark in its plain form. -/
theorem notMem_of_kind? {caption base : String} (h : kind? caption = some (.algorithms base)) :
    '!' ∉ plainChars caption.toList := by
  unfold kind? kindOfPlain? at h
  intro hmem
  obtain hblank | ⟨word, hword, hmem⟩ := mem_splitWords hmem
  · cases hblank
  · split at h
    · next first second rest hwords =>
      rw [hwords] at hword
      split at h
      · next hstart =>
        simp only [Bool.and_eq_true, beq_iff_eq] at hstart
        obtain ⟨rfl, rfl⟩ := hstart
        rcases List.mem_cons.mp hword with rfl | hword
        · exact absurd hmem (by decide)
        · rcases List.mem_cons.mp hword with rfl | hword
          · exact absurd hmem (by decide)
          · obtain ⟨base, hbase, rfl⟩ := exists_of_kindOfDefinition? h
            simp only [List.mem_cons, List.not_mem_nil, or_false] at hword
            rcases hword with rfl | rfl | rfl
            · exact notMem_of_parenthesized? hbase hmem
            · exact absurd hmem (by decide)
            · exact absurd hmem (by decide)
      · split at h
        · cases hname : commandName? first <;> rw [hname] at h <;> cases h
        · split at h
          · cases hname : commandName? first <;> rw [hname] at h <;> cases h
          · cases h
    · cases h

end Caption

namespace Marker

open Caption

theorem unbracketed_of_isMarkerChar {part : List Char} (hpart : part.all isMarkerChar = true) :
    Unbracketed part := by
  intro c hc
  cases hbracket : isBracket c
  · rfl
  · simp only [isBracket, Bool.or_eq_true, beq_iff_eq] at hbracket
    rcases hbracket with ((rfl | rfl) | rfl) | rfl <;>
      exact (notMem_of_isMarkerChar hpart (by decide) hc).elim

/-- Replacing markers by names replaces nothing else. -/
theorem patched_replaceIn {upper lower : List Char} (hupper : Unbracketed upper)
    (hlower : Unbracketed lower) (cs : List Char) : Patched cs (replaceIn upper lower 0 cs) := by
  induction cs using scan_induction with
  | nil => exact .nil
  | plain c cs hat ih =>
    rw [replaceIn_plain hat]
    exact .keep c ih
  | marked marker part rest hpart hat _ ih =>
    rw [replaceIn_marked hat]
    refine .patch (unbracketed_of_isMarkerChar hpart) ?_ ih
    split
    · exact hupper
    · exact hlower

end Marker

namespace Algorithm

open Caption

theorem unbracketed_of_subset {cs ds : List Char} (hds : Unbracketed ds)
    (h : ∀ c, Text.isUncased c = true → c ∈ cs → c ∈ ds) : Unbracketed cs := by
  intro c hc
  cases hbracket : isBracket c
  · rfl
  · have huncased : Text.isUncased c = true := by
      simp only [isBracket, Bool.or_eq_true, beq_iff_eq] at hbracket
      rcases hbracket with ((rfl | rfl) | rfl) | rfl <;> decide
    rw [← hbracket]
    exact hds c (h c huncased hc)

/-- The tables that the algorithm table stands for are algorithm tables of the same type. -/
theorem kind?_substitute {a : Algorithm} (ha : Unbracketed a.mnemonic.toList)
    {caption base : String} (h : kind? caption = some (.algorithms base)) :
    kind? (a.substitute caption) = some (.algorithms base) := by
  have hupper := unbracketed_of_subset ha fun c => Text.mem_of_mem_upper (s := a.mnemonic)
  have hlower := unbracketed_of_subset ha fun c => Text.mem_of_mem_lower (s := a.mnemonic)
  have hplain := plainChars_eq_of_patched
    (Marker.patched_replaceIn hupper hlower caption.toList) (notMem_of_kind? h)
  rw [← h]
  unfold kind? substitute
  rw [String.toList_ofList, hplain]

end Algorithm

end WireTables
