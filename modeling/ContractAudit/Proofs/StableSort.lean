/-!
# Stable sorting

`List.mergeSort` keeps the order of elements that are tied. So elements can be picked out before or
after sorting (`filter_mergeSort`), a sorted list is fixed by the lists of its ties
(`eq_of_ties_eq`), and two lists with the same ties sort to the same list
(`mergeSort_eq_of_ties_eq`).
-/

namespace ContractAudit

open List

variable {α : Type} {le : α → α → Bool}

/-- Two elements are tied if each may stand before the other. -/
def tied (le : α → α → Bool) (a b : α) : Bool :=
  le a b && le b a

theorem tied_self (total : ∀ a b, le a b || le b a) (a : α) : tied le a a := by
  have h := total a a
  simp_all [tied]

/-! ## Picking out -/

/-- There is one way to cut a list into elements that fail a test and elements that pass it. -/
theorem append_inj_of_test {q : α → Bool} {x₁ x₂ y₁ y₂ : List α} (h : x₁ ++ x₂ = y₁ ++ y₂)
    (hx₁ : ∀ b ∈ x₁, !q b) (hx₂ : ∀ b ∈ x₂, q b) (hy₁ : ∀ b ∈ y₁, !q b) (hy₂ : ∀ b ∈ y₂, q b) :
    x₁ = y₁ ∧ x₂ = y₂ := by
  have hfail : ∀ {z₁ z₂ : List α}, (∀ b ∈ z₁, !q b) → (∀ b ∈ z₂, q b) →
      (z₁ ++ z₂).filter (!q ·) = z₁ := by
    intro z₁ z₂ h₁ h₂
    rw [filter_append, filter_eq_self.2 h₁, filter_eq_nil_iff.2 (by simpa using h₂), append_nil]
  have heq : x₁ = y₁ := by rw [← hfail hx₁ hx₂, h, hfail hy₁ hy₂]
  subst heq
  exact ⟨rfl, append_cancel_left h⟩

/-- Elements can be picked out before or after sorting. -/
theorem filter_mergeSort (trans : ∀ a b c, le a b → le b c → le a c)
    (total : ∀ a b, le a b || le b a) (p : α → Bool) :
    ∀ l : List α, (l.mergeSort le).filter p = (l.filter p).mergeSort le
  | [] => by simp
  | a :: l => by
    obtain ⟨l₁, l₂, hal, hl, hl₁⟩ := mergeSort_cons trans total a l
    have hsorted := pairwise_mergeSort trans total (a :: l)
    rw [hal, pairwise_append, pairwise_cons] at hsorted
    have ih := filter_mergeSort trans total p l
    rw [hl, filter_append] at ih
    by_cases hp : p a
    · obtain ⟨m₁, m₂, ham, hm, hm₁⟩ := mergeSort_cons trans total a (l.filter p)
      have hsorted' := pairwise_mergeSort trans total (a :: l.filter p)
      rw [ham, pairwise_append, pairwise_cons] at hsorted'
      obtain ⟨h₁, h₂⟩ := append_inj_of_test (ih.trans hm)
        (fun b hb => hl₁ b (mem_filter.1 hb).1) (fun b hb => hsorted.2.1.1 b (mem_filter.1 hb).1)
        hm₁ hsorted'.2.1.1
      rw [hal, filter_append, filter_cons_of_pos hp, filter_cons_of_pos hp, ham, h₁, h₂]
    · rw [hal, filter_append, filter_cons_of_neg hp, filter_cons_of_neg hp, ih]

/-! ## Ties -/

/-- The first elements of two sorted lists with the same ties are tied. -/
theorem tied_of_ties_eq (total : ∀ a b, le a b || le b a) {a b : α} {l l' : List α}
    (ha : ∀ x ∈ l, le a x) (hb : ∀ x ∈ l', le b x)
    (h : ∀ c, (a :: l).filter (tied le c) = (b :: l').filter (tied le c)) : tied le a b := by
  have hmem : ∀ {c : α} {m n : List α}, m.filter (tied le c) = n.filter (tied le c) → c ∈ m →
      c ∈ n := by
    intro c m n heq hc
    have hc' : c ∈ m.filter (tied le c) := mem_filter.2 ⟨hc, tied_self total c⟩
    rw [heq] at hc'
    exact (mem_filter.1 hc').1
  have hself : ∀ c, le c c := fun c => by simpa using total c c
  have hab : le a b := by
    rcases mem_cons.1 (hmem (h b).symm mem_cons_self) with rfl | hin
    · exact hself b
    · exact ha b hin
  have hba : le b a := by
    rcases mem_cons.1 (hmem (h a) mem_cons_self) with rfl | hin
    · exact hself a
    · exact hb a hin
  simp [tied, hab, hba]

/-- A sorted list is fixed by its ties. -/
theorem eq_of_ties_eq (total : ∀ a b, le a b || le b a) : ∀ {l l' : List α},
    l.Pairwise (le · ·) → l'.Pairwise (le · ·) →
      (∀ a, l.filter (tied le a) = l'.filter (tied le a)) → l = l'
  | [], [], _, _, _ => rfl
  | [], b :: l', _, _, h => by
    have hb := h b
    simp [tied_self total b] at hb
  | a :: l, [], _, _, h => by
    have ha := h a
    simp [tied_self total a] at ha
  | a :: l, b :: l', hl, hl', h => by
    obtain ⟨ha, hl⟩ := pairwise_cons.1 hl
    obtain ⟨hb, htail⟩ := pairwise_cons.1 hl'
    have hab := tied_of_ties_eq total ha hb h
    have hh := h a
    rw [filter_cons_of_pos (tied_self total a), filter_cons_of_pos hab] at hh
    obtain ⟨rfl, -⟩ := cons.inj hh
    refine congrArg (a :: ·) (eq_of_ties_eq total hl htail fun c => ?_)
    have hc := h c
    simp only [filter_cons] at hc
    split at hc
    · exact (cons.inj hc).2
    · exact hc

/-- Lists with the same ties sort to the same list. -/
theorem mergeSort_eq_of_ties_eq (trans : ∀ a b c, le a b → le b c → le a c)
    (total : ∀ a b, le a b || le b a) {l l' : List α}
    (h : ∀ a, l.filter (tied le a) = l'.filter (tied le a)) :
    l.mergeSort le = l'.mergeSort le := by
  refine eq_of_ties_eq total (pairwise_mergeSort trans total l) (pairwise_mergeSort trans total l')
    fun a => ?_
  rw [filter_mergeSort trans total, filter_mergeSort trans total, h]

end ContractAudit
