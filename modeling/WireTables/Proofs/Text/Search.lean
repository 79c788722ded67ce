import Mathlib.Data.List.Infix
import WireTables.Text.Search

/-!
# Removing a text from another

Characters in front of the first occurrence of a text stay (`replaceChars_clear`), and the occurrence
goes (`replaceChars_here`). A text that ends with a mark and has no other one occurs at marks only, so
that each mark is looked at on its own: what stands in front of it since the mark before decides
whether it goes (`replaceChars_marked`, `replaceChars_kept`).
-/

namespace WireTables.Text

variable {part plain rest : List Char}

/-- A text starts with what is taken off and goes on with what is left. -/
theorem dropHeadChars?_eq_some_iff {head cs : List Char} :
    dropHeadChars? head cs = some rest ↔ cs = head ++ rest := by
  unfold dropHeadChars?
  split
  · next hprefix =>
    obtain ⟨more, rfl⟩ := List.isPrefixOf_iff_prefix.mp hprefix
    rw [List.drop_left, Option.some.injEq, List.append_cancel_left_eq]
  · next hprefix =>
    refine iff_of_false nofun fun heq => hprefix (List.isPrefixOf_iff_prefix.mpr ⟨rest, heq.symm⟩)

theorem replaceChars_pending {filler skipped : List Char} :
    replaceChars part filler skipped.length (skipped ++ rest) = replaceChars part filler 0 rest := by
  induction skipped with
  | nil => rfl
  | cons c skipped ih => exact ih

/-- Where the text stands, it is left out. -/
theorem replaceChars_here (hpart : part ≠ []) :
    replaceChars part [] 0 (part ++ rest) = replaceChars part [] 0 rest := by
  cases part with
  | nil => exact (hpart rfl).elim
  | cons c part =>
    have hstart : (c :: part).isPrefixOf (c :: (part ++ rest)) = true :=
      List.isPrefixOf_iff_prefix.mpr ⟨rest, rfl⟩
    rw [List.cons_append, replaceChars, if_pos hstart, List.nil_append, List.length_cons,
      Nat.add_sub_cancel, replaceChars_pending]

/-- Where the text does not start, everything stays. -/
theorem replaceChars_clear (h : ∀ k < plain.length, ¬ part <+: (plain ++ rest).drop k) :
    replaceChars part [] 0 (plain ++ rest) = plain ++ replaceChars part [] 0 rest := by
  induction plain with
  | nil => rfl
  | cons c plain ih =>
    have hhere : ¬ part.isPrefixOf (c :: (plain ++ rest)) = true := fun hp =>
      h 0 (Nat.zero_lt_succ _) (List.isPrefixOf_iff_prefix.mp hp)
    rw [List.cons_append, replaceChars, if_neg hhere, List.cons_append,
      ih fun k hk => h (k + 1) (Nat.succ_lt_succ hk)]

section Marked

variable {mark : Char} {name front seg : List Char}

/-- Up to the first mark there is one text only. -/
theorem eq_of_prefix_marked (hname : mark ∉ name) (hseg : mark ∉ seg)
    (h : name ++ [mark] <+: seg ++ mark :: rest) : name = seg := by
  have through : ∀ {cs : List Char} (more : List Char), mark ∉ cs →
      (cs ++ mark :: more).takeWhile (· != mark) = cs := by
    intro cs more hcs
    have hother : ∀ c ∈ cs, (c != mark) = true := fun c hc => bne_iff_ne.mpr fun heq =>
      hcs (heq ▸ hc)
    rw [List.takeWhile_append_of_pos hother, List.takeWhile_cons_of_neg (by simp), List.append_nil]
  obtain ⟨more, heq⟩ := h
  rw [List.append_assoc, List.singleton_append] at heq
  rw [← through more hname, heq, through rest hseg]

/-- A text without marks is the end of another one up to a mark, if at all, after the last mark of
it. -/
theorem suffix_append_marked (hname : mark ∉ name) :
    name <:+ front ++ mark :: seg ↔ name <:+ seg := by
  constructor
  · intro h
    rcases List.suffix_or_suffix_of_suffix h (List.suffix_append front (mark :: seg)) with h | h
    · exact (List.suffix_cons_iff.mp h).resolve_left fun heq =>
        hname (heq ▸ List.mem_cons_self)
    · exact (hname (h.subset List.mem_cons_self)).elim
  · exact fun h => h.trans ((List.suffix_cons mark seg).trans (List.suffix_append _ _))

variable (hname : mark ∉ name)

include hname

/-- A mark behind the name goes together with the name. -/
theorem replaceChars_marked (hfront : mark ∉ front) :
    replaceChars (name ++ [mark]) [] 0 (front ++ name ++ mark :: rest) =
      front ++ replaceChars (name ++ [mark]) [] 0 rest := by
  have hsplit : front ++ name ++ mark :: rest = front ++ (name ++ [mark] ++ rest) := by simp
  rw [hsplit, replaceChars_clear, replaceChars_here (by simp)]
  intro k hk hp
  -- more than the name stands between here and the next mark
  rw [List.drop_append_of_le_length (Nat.le_of_lt hk), List.append_assoc, List.singleton_append,
    ← List.append_assoc] at hp
  have hfree : mark ∉ front.drop k ++ name := fun hmem =>
    (List.mem_append.mp hmem).elim (fun h => hfront (List.mem_of_mem_drop h)) hname
  have hlength := congrArg List.length (eq_of_prefix_marked hname hfree hp)
  rw [List.length_append, List.length_drop] at hlength
  omega

/-- A mark behind anything else stays. -/
theorem replaceChars_kept (hseg : mark ∉ seg) (hnot : ¬ name <:+ seg) :
    replaceChars (name ++ [mark]) [] 0 (seg ++ mark :: rest) =
      seg ++ mark :: replaceChars (name ++ [mark]) [] 0 rest := by
  have hclear : ∀ k < (seg ++ [mark]).length,
      ¬ name ++ [mark] <+: (seg ++ [mark] ++ rest).drop k := by
    intro k hk hp
    rw [List.length_append, List.length_singleton, Nat.lt_succ_iff] at hk
    rw [List.append_assoc, List.singleton_append, List.drop_append_of_le_length hk] at hp
    have heq := eq_of_prefix_marked hname (fun h => hseg (List.mem_of_mem_drop h)) hp
    exact hnot (heq ▸ List.drop_suffix k seg)
  simpa only [List.append_assoc, List.singleton_append] using replaceChars_clear hclear

omit hname in
/-- Without a mark nothing goes. -/
theorem replaceChars_unmarked (hseg : mark ∉ seg) :
    replaceChars (name ++ [mark]) [] 0 seg = seg := by
  have hclear : replaceChars (name ++ [mark]) [] 0 (seg ++ []) = seg ++ _ :=
    replaceChars_clear fun k _ hp => by
      rw [List.append_nil] at hp
      exact hseg (List.mem_of_mem_drop (hp.subset (List.mem_append_right _ List.mem_cons_self)))
  simpa [replaceChars] using hclear

end Marked

end WireTables.Text
