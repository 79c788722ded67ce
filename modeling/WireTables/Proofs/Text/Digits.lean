import WireTables.Text.Hex

/-!
# Digits and back

The number that the digits of a number write is that number, in base ten as in base sixteen
(`ofDecimal_toDigits`, `ofHex_toUpper`), and only zero starts with the digit zero
(`exists_head_of_toDigits`).
-/

namespace WireTables.Text

variable {b n : Nat}

theorem ofDigits_append (b : Nat) (ds : List Nat) (d : Nat) :
    ofDigits b (ds ++ [d]) = ofDigits b ds * b + d := by
  simp [ofDigits]

/-- Digits are read back whatever characters write them. -/
theorem ofDigits_toDigits (hb : 1 < b) {value : Char → Nat}
    (hvalue : ∀ d < b, value (Nat.digitChar d) = d) (n : Nat) :
    ofDigits b ((Nat.toDigits b n).map value) = n := by
  induction n using Nat.strongRecOn with
  | ind n ih =>
    rw [Nat.toDigits_eq_if hb]
    by_cases hn : n < b
    · simp [hn, ofDigits, hvalue n hn]
    · have hdiv : n / b < n := Nat.div_lt_self (by omega) hb
      have hmod : n % b < b := Nat.mod_lt n (by omega)
      rw [if_neg hn, List.map_append, List.map_singleton, ofDigits_append, ih _ hdiv,
        hvalue _ hmod]
      exact Nat.div_add_mod' n b

theorem ofDecimal_toDigits (n : Nat) : ofDecimal (Nat.toDigits 10 n) = n :=
  ofDigits_toDigits (by decide) (by decide) n

theorem ofHex_toUpper (n : Nat) : ofHex ((Nat.toDigits 16 n).map Char.toUpper) = n := by
  unfold ofHex
  rw [List.map_map]
  exact ofDigits_toDigits (by decide) (by decide) n

theorem toList_toString (n : Nat) : (toString n).toList = Nat.toDigits 10 n :=
  String.toList_ofList

theorem exists_of_mem_toDigits (hb : 1 < b) {c : Char} (h : c ∈ Nat.toDigits b n) :
    ∃ d < b, c = Nat.digitChar d := by
  induction n using Nat.strongRecOn with
  | ind n ih =>
    rw [Nat.toDigits_eq_if hb] at h
    by_cases hn : n < b
    · rw [if_pos hn] at h
      exact ⟨n, hn, List.mem_singleton.mp h⟩
    · rw [if_neg hn] at h
      cases List.mem_append.mp h with
      | inl h => exact ih _ (Nat.div_lt_self (by omega) hb) h
      | inr h => exact ⟨n % b, Nat.mod_lt n (by omega), List.mem_singleton.mp h⟩

/-- A number that is not zero starts with another digit than zero. -/
theorem exists_head_of_toDigits (hb : 1 < b) (hn : 0 < n) :
    ∃ d rest, 0 < d ∧ d < b ∧ Nat.toDigits b n = Nat.digitChar d :: rest := by
  induction n using Nat.strongRecOn with
  | ind n ih =>
    rw [Nat.toDigits_eq_if hb]
    by_cases hlt : n < b
    · exact ⟨n, [], hn, hlt, by rw [if_pos hlt]⟩
    · have hdiv : 0 < n / b := Nat.div_pos (by omega) (by omega)
      obtain ⟨d, rest, hd, hdb, heq⟩ := ih _ (Nat.div_lt_self hn hb) hdiv
      exact ⟨d, rest ++ [(n % b).digitChar], hd, hdb, by rw [if_neg hlt, heq]; rfl⟩

end WireTables.Text
