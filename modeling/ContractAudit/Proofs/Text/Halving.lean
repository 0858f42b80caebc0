import ContractAudit.Text.Halving

/-!
# What halving finds

`firstFailing holds n` is an index at which `holds` turns false (`Turns`), whatever the test : it
holds just before the index and fails there, unless the index is `n`. On a test that never turns
true again there is one such index (`Turns.eq`). So in an increasing array `countAtMost` counts
(`countAtMost_eq_countP`).
-/

namespace ContractAudit

/-- The test turns false at the index `k`, or holds up to the bound `n`. -/
structure Turns (holds : Nat → Bool) (n k : Nat) : Prop where
  le : k ≤ n
  holds_before : ∀ i, k = i + 1 → holds i
  fails_there : k < n → holds k = false

variable {holds : Nat → Bool} {n k : Nat}

/-- Halving keeps that the test holds just before `lo` and fails at `hi`. -/
theorem turns_halve : ∀ (fuel lo hi : Nat), lo ≤ hi → hi ≤ lo + fuel → hi ≤ n →
    (∀ i, lo = i + 1 → holds i) → (hi < n → holds hi = false) →
    Turns holds n (halve holds fuel lo hi)
  | 0, lo, hi, hle, hfuel, hn, hlo, hhi => by
    obtain rfl : hi = lo := by omega
    exact ⟨hn, hlo, hhi⟩
  | fuel + 1, lo, hi, hle, hfuel, hn, hlo, hhi => by
    by_cases hlt : lo < hi
    · by_cases hmid : holds ((lo + hi) / 2)
      · simp only [halve, hlt, hmid, if_true]
        refine turns_halve fuel _ hi (by omega) (by omega) hn (fun i hi' => ?_) hhi
        obtain rfl : (lo + hi) / 2 = i := by omega
        exact hmid
      · simp only [halve, hlt, hmid, if_true]
        refine turns_halve fuel lo _ (by omega) (by omega) (by omega) hlo fun _ => ?_
        simpa using hmid
    · obtain rfl : hi = lo := by omega
      simp only [halve, hlt, if_false]
      exact ⟨hn, hlo, hhi⟩

theorem turns_firstFailing (holds : Nat → Bool) (n : Nat) :
    Turns holds n (firstFailing holds n) :=
  turns_halve n 0 n (Nat.zero_le n) (by omega) (Nat.le_refl n) (by simp) (by simp)

theorem turns_countAtMost (a : Array Nat) (x : Nat) :
    Turns (fun i => a[i]?.any (· ≤ x)) a.size (countAtMost a x) :=
  turns_firstFailing _ _

/-- A test that holds below `m` and nowhere behind turns false at `m`. -/
theorem Turns.eq {m : Nat} (h : Turns holds n k) (hm : m ≤ n) (hbelow : ∀ i < m, holds i)
    (hbehind : ∀ i, m ≤ i → i < n → holds i = false) : k = m := by
  have hle := h.le
  refine Nat.le_antisymm (Nat.le_of_not_lt fun hlt => ?_) (Nat.le_of_not_lt fun hlt => ?_)
  · obtain ⟨i, rfl⟩ : ∃ i, k = i + 1 := ⟨k - 1, by omega⟩
    have hholds := h.holds_before i rfl
    rw [hbehind i (by omega) (by omega)] at hholds
    exact Bool.noConfusion hholds
  · have hfails := h.fails_there (by omega)
    rw [hbelow k hlt] at hfails
    exact Bool.noConfusion hfails

/-- The entries of an increasing list that are at most `x` come first. -/
theorem any_le_eq_lt_countP {x : Nat} : ∀ {l : List Nat}, l.Pairwise (· < ·) → ∀ i,
    l[i]?.any (· ≤ x) = decide (i < l.countP (· ≤ x))
  | [], _, i => by simp
  | a :: l, h, i => by
    obtain ⟨ha, hl⟩ := List.pairwise_cons.1 h
    by_cases hax : a ≤ x
    · cases i with
      | zero => simp [hax]
      | succ i => simpa [hax] using any_le_eq_lt_countP hl i
    · -- The entries behind one that is too large are too large.
      have hnone : l.countP (· ≤ x) = 0 := by
        refine List.countP_eq_zero.2 fun b hb => ?_
        have hab := ha b hb
        simp only [decide_eq_true_eq]
        omega
      cases i with
      | zero => simp [hax, hnone]
      | succ i => simpa [hax, hnone] using any_le_eq_lt_countP (x := x) hl i

theorem countAtMost_eq_countP {a : Array Nat} (h : a.toList.Pairwise (· < ·)) (x : Nat) :
    countAtMost a x = a.toList.countP (· ≤ x) := by
  have hany : ∀ i, a[i]?.any (· ≤ x) = decide (i < a.toList.countP (· ≤ x)) := by
    intro i
    rw [← Array.getElem?_toList]
    exact any_le_eq_lt_countP h i
  refine (turns_countAtMost a x).eq ?_ (fun i hi => ?_) fun i hi _ => ?_
  · exact List.countP_le_length
  · rw [hany, decide_eq_true hi]
  · rw [hany, decide_eq_false (by omega)]

end ContractAudit
