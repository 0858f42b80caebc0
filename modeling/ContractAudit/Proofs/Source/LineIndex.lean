import ContractAudit.Proofs.Text.Halving
import ContractAudit.Source.LineIndex

/-!
# Places and offsets

The first line starts at offset 0, so the line of an offset is one that starts at it or before it,
and its line and column lead back to the offset (`LineIndex.offset_location`). The index depends on
where the newlines of a text are and on nothing else (`LineIndex.of_congr`), and the line of an
offset counts those before it (`LineIndex.line_location`).
-/

namespace ContractAudit

namespace LineIndex

theorem startsFrom_head : ∀ (cs : List Char) (i : Nat) (found : Array Nat) {s : Nat},
    found[0]? = some s → (startsFrom i found cs)[0]? = some s
  | [], _, _, _, h => h
  | c :: cs, i, found, s, h => by
    refine startsFrom_head cs (i + 1) _ ?_
    split
    · have hlt : 0 < found.size := (Array.getElem?_eq_some_iff.1 h).1
      rw [Array.getElem?_push_lt hlt, ← Array.getElem?_eq_getElem hlt, h]
    · exact h

/-- The first line starts at offset 0. -/
theorem starts_head (text : List Char) : (LineIndex.of text).starts[0]? = some 0 :=
  startsFrom_head text 0 #[0] rfl

/-- The line of an offset starts at it or before it. -/
theorem exists_start_le {index : LineIndex} (h : index.starts[0]? = some 0) (o : Nat) :
    ∃ i s, countAtMost index.starts o = i + 1 ∧ index.starts[i]? = some s ∧ s ≤ o := by
  have hturns := turns_countAtMost index.starts o
  have hlt : 0 < index.starts.size := (Array.getElem?_eq_some_iff.1 h).1
  cases hcount : countAtMost index.starts o with
  | zero =>
    have hfails := hturns.fails_there (by omega)
    simp [hcount, h] at hfails
  | succ i =>
    have hholds := hturns.holds_before i hcount
    obtain ⟨s, hs, hle⟩ := (Option.any_eq_true _ _).1 hholds
    exact ⟨i, s, rfl, hs, of_decide_eq_true hle⟩

/-- The line and column of an offset lead back to it. -/
theorem offset_location {index : LineIndex} (h : index.starts[0]? = some 0) (o : Nat) :
    index.offset (index.location o) = .ok (o : Int) := by
  obtain ⟨i, s, hcount, hs, hle⟩ := exists_start_le h o
  have hline : ¬ ((i + 1 : Nat) : Int) < 1 := by omega
  have hindex : ((i + 1 : Nat) : Int) - 1 = i := by omega
  have hcolumn : (s : Int) + (o - s + 1) - 1 = o := by omega
  simp only [offset, location, hcount, hline, if_false, hindex, Int.natCast_nonneg, Int.not_lt.2,
    Int.toNat_natCast, hs, Nat.add_sub_cancel, Option.getD_some, hcolumn]
  rfl

/-! ## Newlines -/

/-- Only the newlines of a text count. -/
theorem startsFrom_congr : ∀ {cs ds : List Char}, cs.map (· == '\n') = ds.map (· == '\n') →
    ∀ (i : Nat) (found : Array Nat), startsFrom i found cs = startsFrom i found ds
  | [], [], _, _, _ => rfl
  | [], d :: ds, h, _, _ => by simp at h
  | c :: cs, [], h, _, _ => by simp at h
  | c :: cs, d :: ds, h, i, found => by
    obtain ⟨hhead, htail⟩ : (c == '\n') = (d == '\n') ∧ _ := List.cons.inj h
    rw [startsFrom, hhead, startsFrom_congr htail, startsFrom]

theorem of_congr {cs ds : List Char} (h : cs.map (· == '\n') = ds.map (· == '\n')) :
    LineIndex.of cs = LineIndex.of ds :=
  congrArg mk (startsFrom_congr h 0 #[0])

/-- The starts of lines increase. -/
theorem pairwise_startsFrom : ∀ (cs : List Char) {i : Nat} {found : Array Nat},
    found.toList.Pairwise (· < ·) → (∀ s ∈ found.toList, s ≤ i) →
      (startsFrom i found cs).toList.Pairwise (· < ·)
  | [], _, _, h, _ => h
  | c :: cs, i, found, h, hle => by
    unfold startsFrom
    split
    · refine pairwise_startsFrom cs ?_ ?_
      · rw [Array.toList_push]
        refine List.pairwise_append.2 ⟨h, List.pairwise_singleton _ _, fun s hs t ht => ?_⟩
        have hsi := hle s hs
        rw [List.mem_singleton.1 ht]
        omega
      · intro s hs
        rw [Array.toList_push] at hs
        rcases List.mem_append.1 hs with hs | hs
        · exact Nat.le_succ_of_le (hle s hs)
        · exact Nat.le_of_eq (List.mem_singleton.1 hs)
    · exact pairwise_startsFrom cs h fun s hs => Nat.le_succ_of_le (hle s hs)

theorem pairwise_starts (text : List Char) : (LineIndex.of text).starts.toList.Pairwise (· < ·) :=
  pairwise_startsFrom text (List.pairwise_singleton _ _) (by simp)

/-- Every newline before the offset `o` starts a line there or before. -/
theorem countP_startsFrom (o : Nat) : ∀ (cs : List Char) (i : Nat) (found : Array Nat),
    (startsFrom i found cs).toList.countP (· ≤ o) =
      found.toList.countP (· ≤ o) + (cs.take (o - i)).count '\n'
  | [], i, found => by simp [startsFrom]
  | c :: cs, i, found => by
    rw [startsFrom, countP_startsFrom o cs (i + 1)]
    by_cases hio : i < o
    · have hsub : o - i = o - (i + 1) + 1 := by omega
      rw [hsub, List.take_succ_cons, List.count_cons]
      split
      · rw [Array.toList_push, List.countP_append, List.countP_singleton,
          if_pos (decide_eq_true (show i + 1 ≤ o from hio))]
        omega
      · rfl
    · have hsub : o - i = 0 := by omega
      have hsub' : o - (i + 1) = 0 := by omega
      rw [hsub, hsub', List.take_zero, List.take_zero]
      split
      · rw [Array.toList_push, List.countP_append, List.countP_singleton,
          if_neg (by simpa [Nat.lt_succ_iff] using hio), Nat.add_zero]
      · rfl

/-- The line of an offset is one more than the newlines before it. -/
theorem line_location (text : List Char) (o : Nat) :
    ((LineIndex.of text).location o).line = (1 + (text.take o).count '\n' : Nat) := by
  show ((countAtMost (LineIndex.of text).starts o : Nat) : Int) = _
  rw [countAtMost_eq_countP (pairwise_starts text), LineIndex.of, countP_startsFrom]
  simp

end LineIndex

end ContractAudit
