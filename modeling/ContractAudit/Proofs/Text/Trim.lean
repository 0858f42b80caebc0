import ContractAudit.Text.Trim

/-!
# Blanks and trimmed texts

A blank is no word character, and `trimRight` cuts off blanks only, up to a last character that is
none.
-/

namespace ContractAudit

/-- The codes of the blanks that are not ASCII. -/
def wideBlanks : List Nat :=
  [0x85, 0xA0, 0x1680, 0x2000, 0x2001, 0x2002, 0x2003, 0x2004, 0x2005, 0x2006, 0x2007, 0x2008,
    0x2009, 0x200A, 0x2028, 0x2029, 0x202F, 0x205F, 0x3000]

variable {a : Char}

theorem mem_wideBlanks (h : isBlank a) (ha : ¬a.toNat < 0x80) : a.toNat ∈ wideBlanks := by
  simp only [isBlank, ha, if_false, Bool.or_eq_true, Bool.and_eq_true, beq_iff_eq,
    decide_eq_true_eq] at h
  simp only [wideBlanks, List.mem_cons, List.not_mem_nil, or_false]
  omega

theorem even_countAtMost_wideBlanks :
    ∀ n ∈ wideBlanks, countAtMost alphanumericChanges n % 2 = 0 := by
  decide +kernel

theorem isWordChar_of_isBlank (h : isBlank a) : isWordChar a = false := by
  by_cases ha : a.toNat < 0x80
  · simp only [isBlank, ha, if_true, Bool.or_eq_true, Bool.and_eq_true, decide_eq_true_eq] at h
    have hne : a ≠ '_' := by
      rintro rfl
      simp at h
    simp only [isWordChar, ha, if_true, isAsciiLetter, Char.le_def, UInt32.le_iff_toNat_le,
      Bool.or_eq_false_iff, Bool.and_eq_false_iff, decide_eq_false_iff_not, beq_eq_false_iff_ne]
    refine ⟨⟨⟨?_, ?_⟩, ?_⟩, hne⟩ <;> simp only [Char.toNat_val, Char.reduceToNat] <;> omega
  · simp [isWordChar, ha, even_countAtMost_wideBlanks _ (mem_wideBlanks h ha)]

theorem isDecimalDigit_asciiBlanks :
    ∀ n ∈ List.range 0x80, isBlank (.ofNat n) → isDecimalDigit (.ofNat n) = false := by
  decide +kernel

theorem isDecimalDigit_wideBlanks : ∀ n ∈ wideBlanks, isDecimalDigit (.ofNat n) = false := by
  decide +kernel

theorem isDecimalDigit_of_isBlank (h : isBlank a) : isDecimalDigit a = false := by
  rw [← Char.ofNat_toNat a]
  by_cases ha : a.toNat < 0x80
  · exact isDecimalDigit_asciiBlanks _ (List.mem_range.2 ha) (by rwa [Char.ofNat_toNat])
  · exact isDecimalDigit_wideBlanks _ (mem_wideBlanks h ha)

/-- What is cut off is blank. -/
theorem exists_trimRight_append (cs : List Char) :
    ∃ bs, cs = trimRight cs ++ bs ∧ ∀ b ∈ bs, isBlank b := by
  refine ⟨(cs.reverse.takeWhile isBlank).reverse, ?_, fun b hb => ?_⟩
  · rw [trimRight, ← List.reverse_append, List.takeWhile_append_dropWhile, List.reverse_reverse]
  · exact List.all_eq_true.1 List.all_takeWhile b (List.mem_reverse.1 hb)

/-- Blanks at the end are cut off. -/
theorem trimRight_append_blanks {gap : List Char} (hgap : ∀ a ∈ gap, isBlank a) (cs : List Char) :
    trimRight (cs ++ gap) = trimRight cs := by
  have hblank : ∀ a ∈ gap.reverse, isBlank a := fun a ha => hgap a (List.mem_reverse.1 ha)
  rw [trimRight, List.reverse_append, List.dropWhile_append_of_pos hblank, trimRight]

theorem getLast?_trimRight {cs : List Char} {a : Char} (h : (trimRight cs).getLast? = some a) :
    isBlank a = false := by
  rw [trimRight, List.getLast?_reverse] at h
  have hnot := List.head?_dropWhile_not isBlank cs.reverse
  simpa [h] using hnot

/-- A text that starts with no blank keeps its first character. -/
theorem head?_trimRight {cs : List Char} (h : cs.head? = some a) (ha : isBlank a = false) :
    (trimRight cs).head? = some a := by
  obtain ⟨bs, hcs, hbs⟩ := exists_trimRight_append cs
  cases ht : trimRight cs with
  | nil =>
    rw [hcs, ht, List.nil_append] at h
    have hblank := hbs a (List.mem_of_head? h)
    simp [ha] at hblank
  | cons b t =>
    rw [hcs, ht] at h
    exact h

end ContractAudit
