import FlatTemplate.Text.Blank
import FlatTemplate.Text.Word

namespace FlatTemplate.Text

theorem mem_of_inRanges {n : Nat} {ranges : List CodeRange} (h : inRanges n ranges = true) :
    ∃ r ∈ ranges, r.1 ≤ n ∧ n ≤ r.2 := by
  induction ranges with
  | nil => cases h
  | cons r ranges ih =>
    obtain ⟨low, high⟩ := r
    rw [inRanges] at h
    split at h
    · cases h
    · next hlow =>
      rcases Bool.or_eq_true _ _ ▸ h with h | h
      · exact ⟨(low, high), List.mem_cons_self, Nat.le_of_not_lt hlow, of_decide_eq_true h⟩
      · obtain ⟨r, hr, hn⟩ := ih h
        exact ⟨r, List.mem_cons_of_mem _ hr, hn⟩

theorem inRanges_eq_false {n : Nat} {rs ss : List CodeRange} (h : inRanges n rs = true)
    (hapart : ∀ r ∈ rs, ∀ s ∈ ss, r.2 < s.1 ∨ s.2 < r.1) : inRanges n ss = false := by
  refine Bool.eq_false_iff.mpr fun hn => ?_
  obtain ⟨r, hr, hr₁, hr₂⟩ := mem_of_inRanges h
  obtain ⟨s, hs, hs₁, hs₂⟩ := mem_of_inRanges hn
  rcases hapart r hr s hs with h | h <;> omega

theorem inRanges_of_isDigit {c : Char} (h : c.isDigit = true) :
    inRanges c.toNat [(0x30, 0x39)] = true := by
  simp only [Char.isDigit, Bool.and_eq_true, decide_eq_true_eq, ge_iff_le,
    UInt32.le_iff_toNat_le] at h
  simp only [inRanges, Char.toNat, Bool.or_false]
  rw [if_neg (by exact Nat.not_lt.mpr h.1)]
  exact decide_eq_true h.2

theorem isBlank_eq_false_of_isDigit {c : Char} (h : c.isDigit = true) : isBlank c = false :=
  inRanges_eq_false (inRanges_of_isDigit h) (by decide)

theorem isWordChar_of_isDigit {c : Char} (h : c.isDigit = true) : isWordChar c = true := by
  have hrange := inRanges_of_isDigit h
  simp only [inRanges, Bool.or_false] at hrange
  have hnumeral : isNumeral c = true := by
    split at hrange
    · cases hrange
    · next hlow =>
      rw [isNumeral, numeralRanges, inRanges, if_neg hlow, hrange, Bool.true_or]
  simp [isWordChar, hnumeral]

section WordStart

variable {c : Char} (h : isWordStart c = true)
include h

theorem isWordChar_of_isWordStart : isWordChar c = true := by
  rcases Bool.or_eq_true _ _ ▸ h with h | h <;> simp [isWordChar, h]

theorem isBlank_eq_false_of_isWordStart : isBlank c = false := by
  rcases Bool.or_eq_true _ _ ▸ h with h | h
  · exact inRanges_eq_false h (by decide +kernel)
  · obtain rfl := of_decide_eq_true h
    decide

theorem isDigit_eq_false_of_isWordStart : c.isDigit = false := by
  refine Bool.eq_false_iff.mpr fun hdigit => ?_
  rcases Bool.or_eq_true _ _ ▸ h with h | h
  · have hnot : inRanges c.toNat letterRanges = false :=
      inRanges_eq_false (inRanges_of_isDigit hdigit) (by decide +kernel)
    exact Bool.false_ne_true (hnot.symm.trans h)
  · obtain rfl := of_decide_eq_true h
    exact absurd hdigit (by decide)

end WordStart

end FlatTemplate.Text
