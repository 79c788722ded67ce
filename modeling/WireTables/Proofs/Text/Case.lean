import WireTables.Text.Case

/-!
# What a change of case leaves alone

A change of case never makes an ASCII character that has no case: digits and punctuation of the
result stand in the text already (`mem_of_mem_upper`, `mem_of_mem_lower`). The tables are looked
through once for that; what they lead to is beyond ASCII or a letter.
-/

namespace WireTables.Text

/-- An ASCII character without a case. -/
def isUncased (c : Char) : Bool :=
  0 < c.toNat && c.toNat < 128 && !c.isAlpha

/-- A code point beyond ASCII or the one of a letter. -/
def isCaseTarget (n : Nat) : Bool :=
  128 ≤ n || (Char.ofNat n).isAlpha

/-- Everything that the runs of a table lead to is beyond ASCII or a letter. A run that starts in
ASCII is a single character. -/
def shiftsLead (shifts : Array Shift) : Bool :=
  shifts.all fun s => 128 ≤ s.target || (s.first == s.last && isCaseTarget s.target)

/-- Everything that the expansions of a table lead to is beyond ASCII or a letter. -/
def expansionsLead (expansions : Array (Nat × List Nat)) : Bool :=
  expansions.all fun (_, image) => image.all isCaseTarget

theorem upper_leads : shiftsLead upperShifts = true ∧ expansionsLead upperExpansions = true := by
  decide +kernel

theorem lower_leads : shiftsLead lowerShifts = true ∧ expansionsLead lowerExpansions = true := by
  decide +kernel

theorem ne_ofNat_of_isCaseTarget {b : Char} {n : Nat} (hb : isUncased b = true)
    (hn : isCaseTarget n = true) : b ≠ Char.ofNat n := by
  rintro rfl
  simp only [isUncased, isCaseTarget, Bool.and_eq_true, Bool.or_eq_true, decide_eq_true_eq,
    Bool.not_eq_true'] at hb hn
  obtain ⟨⟨hpos, hlt⟩, halpha⟩ := hb
  rcases hn with hn | hn
  · by_cases hvalid : n.isValidChar
    · have hself : (Char.ofNat n).toNat = n := by
        rw [Char.ofNat, dif_pos hvalid]
        rfl
      omega
    · have hzero : (Char.ofNat n).toNat = 0 := by simp [Char.ofNat, hvalid]
      omega
  · rw [hn] at halpha
    cases halpha

theorem eq_of_mem_mapCase {shifts : Array Shift} {expansions : Array (Nat × List Nat)} {b c : Char}
    (hs : shiftsLead shifts = true) (he : expansionsLead expansions = true)
    (hb : isUncased b = true) (h : b ∈ mapCase shifts expansions c) : b = c := by
  unfold mapCase at h
  split at h
  · next k image hfind =>
    obtain ⟨n, hn, rfl⟩ := List.mem_map.mp h
    have himage := Array.all_eq_true_iff_forall_mem.mp he _ (Array.mem_of_find?_eq_some hfind)
    exact absurd rfl (ne_ofNat_of_isCaseTarget hb (List.all_eq_true.mp himage n hn))
  · split at h
    · next n hfind =>
      obtain rfl := List.mem_singleton.mp h
      obtain ⟨s, hmem, himage⟩ := Array.exists_of_findSome?_eq_some hfind
      have hlead := Array.all_eq_true_iff_forall_mem.mp hs s hmem
      unfold Shift.image? at himage
      split at himage
      · next hin =>
        cases himage
        refine absurd rfl (ne_ofNat_of_isCaseTarget hb ?_)
        simp only [Bool.or_eq_true, Bool.and_eq_true, decide_eq_true_eq, beq_iff_eq] at hlead hin
        rcases hlead with hbeyond | ⟨hsingle, htarget⟩
        · simp only [isCaseTarget, Bool.or_eq_true, decide_eq_true_eq]
          exact .inl (by omega)
        · rwa [show s.target + (c.toNat - s.first) = s.target by omega]
      · cases himage
    · exact List.mem_singleton.mp h

/-- In ASCII a change of case moves between letters. -/
theorem eq_of_isUncased {c : Char} (hc : c.toNat < 128) :
    (isUncased c.toUpper = true → c.toUpper = c) ∧ (isUncased c.toLower = true → c.toLower = c) := by
  have hall : ∀ n < 128, (isUncased (Char.ofNat n).toUpper = true →
      (Char.ofNat n).toUpper = Char.ofNat n) ∧ (isUncased (Char.ofNat n).toLower = true →
      (Char.ofNat n).toLower = Char.ofNat n) := by decide +kernel
  rw [← Char.ofNat_toNat c]
  exact hall c.toNat hc

theorem eq_of_mem_upperChar {b c : Char} (hb : isUncased b = true) (h : b ∈ upperChar c) :
    b = c := by
  unfold upperChar at h
  split at h
  · next hc =>
    obtain rfl := List.mem_singleton.mp h
    exact (eq_of_isUncased hc).1 hb
  · exact eq_of_mem_mapCase upper_leads.1 upper_leads.2 hb h

theorem eq_of_mem_lowerChar {b c : Char} (hb : isUncased b = true) (h : b ∈ lowerChar c) :
    b = c := by
  unfold lowerChar at h
  split at h
  · next hc =>
    obtain rfl := List.mem_singleton.mp h
    exact (eq_of_isUncased hc).2 hb
  · exact eq_of_mem_mapCase lower_leads.1 lower_leads.2 hb h

theorem mem_of_mem_upper {b : Char} {s : String} (hb : isUncased b = true)
    (h : b ∈ (upper s).toList) : b ∈ s.toList := by
  rw [upper, String.toList_ofList] at h
  obtain ⟨c, hc, hbc⟩ := List.mem_flatMap.mp h
  exact eq_of_mem_upperChar hb hbc ▸ hc

theorem mem_of_mem_lowerFrom {b : Char} (hb : isUncased b = true) :
    ∀ {cs before : List Char}, b ∈ lowerFrom before cs → b ∈ cs
  | [], _, h => h
  | c :: rest, before, h => by
    have hsigma : b ≠ 'ς' ∧ b ≠ 'σ' := by
      constructor <;> rintro rfl <;> revert hb <;> decide
    rw [lowerFrom] at h
    rcases List.mem_append.mp h with h | h
    · split at h
      · split at h
        · exact absurd (List.mem_singleton.mp h) hsigma.1
        · exact absurd (List.mem_singleton.mp h) hsigma.2
      · exact eq_of_mem_lowerChar hb h ▸ List.mem_cons_self
    · exact List.mem_cons_of_mem c (mem_of_mem_lowerFrom hb h)

theorem mem_of_mem_lower {b : Char} {s : String} (hb : isUncased b = true)
    (h : b ∈ (lower s).toList) : b ∈ s.toList := by
  rw [lower, String.toList_ofList] at h
  exact mem_of_mem_lowerFrom hb h

end WireTables.Text
