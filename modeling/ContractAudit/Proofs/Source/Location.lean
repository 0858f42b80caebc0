import ContractAudit.Proofs.Source.LineIndex
import ContractAudit.Proofs.Text.Split
import ContractAudit.Source.Basic

/-!
# Offsets and places

The line of an offset starts behind the last newline before it (`LineIndex.exists_start`), so the
place of an offset can be read off the text before it : its newlines give the line, and what stands
behind the last one gives the column (`LineIndex.location_eq`). Offsets and places then determine
each other (`Source.Placed`) : every column of every line is the place of an offset, and places come
in the order of their offsets.
-/

namespace ContractAudit

/-! ## Lines of a text -/

/-- What stands behind the last newline of a text. -/
def lastLine (cs : List Char) : List Char :=
  (cs.reverse.takeWhile (· != '\n')).reverse

theorem lastLine_append {u v : List Char} (hu : ∀ a ∈ u.getLast?, a = '\n') (hv : '\n' ∉ v) :
    lastLine (u ++ v) = v := by
  have hall : ∀ a ∈ v.reverse, (a != '\n') = true := by
    intro a ha
    have hne : a ≠ '\n' := fun h => hv (h ▸ List.mem_reverse.1 ha)
    simpa using hne
  have hstop : u.reverse.takeWhile (· != '\n') = [] := by
    rw [← List.head?_reverse] at hu
    cases hrev : u.reverse with
    | nil => rfl
    | cons a w =>
      obtain rfl : a = '\n' := hu a (by rw [hrev]; rfl)
      rfl
  rw [lastLine, List.reverse_append, List.takeWhile_append_of_pos hall, hstop, List.append_nil,
    List.reverse_reverse]

/-- Before a line there are as many newlines as lines. -/
theorem exists_line : ∀ {n : Nat} {text line : List Char},
    (splitAt (· == '\n') text)[n]? = some line →
    ∃ before behind, text = before ++ (line ++ behind) ∧ before.count '\n' = n ∧
      (∀ a ∈ before.getLast?, a = '\n') ∧ '\n' ∉ line
  | n, text, line, h => by
    have hsingle : ∀ {l : List Char}, '\n' ∉ l → splitAt (· == '\n') l = [l] := by
      intro l hl
      refine splitAt_eq_singleton fun c hc => ?_
      have hne : c ≠ '\n' := fun heq => hl (heq ▸ hc)
      simpa using hne
    by_cases hmem : '\n' ∈ text
    · obtain ⟨l, r, rfl, hl⟩ := List.eq_append_cons_of_mem hmem
      rw [splitAt_append_cons rfl, hsingle hl, List.singleton_append] at h
      cases n with
      | zero =>
        obtain rfl : l = line := Option.some.inj h
        exact ⟨[], '\n' :: r, rfl, rfl, by simp, hl⟩
      | succ n =>
        obtain ⟨before, behind, rfl, hcount, hlast, hline⟩ := exists_line (n := n) h
        refine ⟨l ++ '\n' :: before, behind, by simp, ?_, fun a ha => ?_, hline⟩
        · rw [List.count_append, List.count_eq_zero.2 hl, List.count_cons_self, hcount,
            Nat.zero_add]
        · cases hbefore : before.getLast? with
          | none =>
            rw [List.getLast?_eq_none_iff.1 hbefore, List.getLast?_concat] at ha
            exact (Option.some.inj ha).symm
          | some b =>
            have hab : (l ++ '\n' :: before).getLast? = some b := by
              rw [List.getLast?_append, List.getLast?_cons, hbefore]
              rfl
            rw [hab] at ha
            exact Option.some.inj ha ▸ hlast b hbefore
    · rw [hsingle hmem] at h
      cases n with
      | zero =>
        obtain rfl : text = line := Option.some.inj h
        exact ⟨[], [], by simp, rfl, by simp, hmem⟩
      | succ n => simp at h

namespace LineIndex

/-- A line starts where the text starts, or behind a newline. -/
theorem mem_startsFrom : ∀ (cs : List Char) (i : Nat) (found : Array Nat),
    ∀ s ∈ (startsFrom i found cs).toList, s ∈ found.toList ∨ ∃ k, s = i + k + 1 ∧ cs[k]? = some '\n'
  | [], _, _, s, hs => Or.inl hs
  | c :: cs, i, found, s, hs => by
    rcases mem_startsFrom cs (i + 1) _ s hs with hs | ⟨k, rfl, hk⟩
    · split at hs
      next hc =>
        rw [Array.toList_push, List.mem_append, List.mem_singleton] at hs
        refine hs.imp_right fun hs => ⟨0, hs, ?_⟩
        rw [List.getElem?_cons_zero, beq_iff_eq.1 hc]
      next => exact Or.inl hs
    · exact Or.inr ⟨k + 1, by omega, hk⟩

variable {text : List Char}

theorem eq_newline_of_mem_starts {s : Nat} (hs : s ∈ (LineIndex.of text).starts.toList) :
    ∀ a ∈ (text.take s).getLast?, a = '\n' := by
  intro a ha
  rcases mem_startsFrom text 0 #[0] s hs with hs | ⟨k, rfl, hk⟩
  · obtain rfl : s = 0 := by simpa using hs
    simp at ha
  · rw [Nat.zero_add, List.take_add_one, hk, Option.toList_some, List.getLast?_concat] at ha
    exact (Option.some.inj ha).symm

theorem countAtMost_starts (text : List Char) (o : Nat) :
    countAtMost (LineIndex.of text).starts o = 1 + (text.take o).count '\n' :=
  Int.ofNat.inj (line_location text o)

/-- The line of an offset starts behind the last newline before it. -/
theorem exists_start {o : Nat} (ho : o ≤ text.length) :
    ∃ s, (LineIndex.of text).starts[(text.take o).count '\n']? = some s ∧ s ≤ o ∧
      (lastLine (text.take o)).length = o - s := by
  obtain ⟨i, s, hcount, hs, hle⟩ := exists_start_le (starts_head text) o
  rw [countAtMost_starts] at hcount
  obtain rfl : (text.take o).count '\n' = i := by omega
  refine ⟨s, hs, hle, ?_⟩
  have htake : text.take o = text.take s ++ (text.take o).drop s := by
    have hcut := (List.take_append_drop s (text.take o)).symm
    rwa [List.take_take, Nat.min_eq_left hle] at hcut
  -- The line starts at or before its start, so as many newlines come before that as before the
  -- offset.
  have hlt : (text.take o).count '\n' < countAtMost (LineIndex.of text).starts s := by
    have hany := any_le_eq_lt_countP (x := s) (pairwise_starts text) ((text.take o).count '\n')
    rw [Array.getElem?_toList, hs] at hany
    rw [countAtMost_eq_countP (pairwise_starts text)]
    simpa using hany
  have hnone : '\n' ∉ (text.take o).drop s := by
    have hsum := congrArg (List.count '\n') htake
    rw [List.count_append] at hsum
    rw [countAtMost_starts] at hlt
    exact List.count_eq_zero.1 (by omega)
  have hmem : s ∈ (LineIndex.of text).starts.toList :=
    Array.mem_toList_iff.2 (Array.mem_of_getElem? hs)
  rw [htake, lastLine_append (eq_newline_of_mem_starts hmem) hnone, List.length_drop,
    List.length_take, Nat.min_eq_left ho]

/-- The line of an offset counts the newlines before it, the column the characters behind the last
one. -/
theorem location_eq {o : Nat} (ho : o ≤ text.length) : (LineIndex.of text).location o =
    ⟨(1 + (text.take o).count '\n' : Nat), (1 + (lastLine (text.take o)).length : Nat)⟩ := by
  obtain ⟨s, hs, hle, hlen⟩ := exists_start ho
  have hcolumn : (o : Int) - s + 1 = (1 + (o - s) : Nat) := by omega
  simp only [location, countAtMost_starts, Nat.add_sub_cancel_left, hs, Option.getD_some, hcolumn,
    hlen]

end LineIndex

/-! ## Places of a source -/

/-- The place comes before another one : on an earlier line, or further left on the same line. -/
def Location.Precedes (a b : Location) : Prop :=
  a.line < b.line ∨ a.line = b.line ∧ a.column < b.column

namespace Source

theorem clamp_le (s : Source) (o : Int) : s.clamp o ≤ s.length :=
  Nat.min_le_right _ _

variable {n : Nat}

theorem clamp_natCast (s : Source) (h : n ≤ s.length) : s.clamp n = n := by
  rw [clamp, Int.toNat_natCast, Nat.min_eq_left h]

theorem length_ofChars (cs : List Char) : (Source.ofChars cs).length = cs.length := by
  simp [length, ofChars]

variable {text : List Char}

theorem location_natCast (h : n ≤ text.length) :
    (ofChars text).location n = (LineIndex.of text).location n := by
  rw [location, clamp_natCast _ (by rwa [length_ofChars])]
  rfl

/-- The place of an offset of the text leads back to the offset. -/
theorem offset_location_ofChars (cs : List Char) (h : n ≤ cs.length) :
    (Source.ofChars cs).lines.offset ((Source.ofChars cs).location n) = .ok (n : Int) := by
  rw [location_natCast h]
  exact LineIndex.offset_location (LineIndex.starts_head cs) n

/-- A column of a line is the place of an offset. -/
theorem exists_location_eq {n k : Nat} {line : List Char}
    (hline : (splitAt (· == '\n') text)[n]? = some line) (hk : k ≤ line.length) :
    ∃ o ≤ text.length, (ofChars text).location (o : Nat) = ⟨(n + 1 : Nat), (k + 1 : Nat)⟩ := by
  obtain ⟨before, behind, rfl, hcount, hlast, hfree⟩ := exists_line hline
  have hle : before.length + k ≤ (before ++ (line ++ behind)).length := by
    simp only [List.length_append]
    omega
  have htake : (before ++ (line ++ behind)).take (before.length + k) = before ++ line.take k := by
    rw [List.take_length_add_append, List.take_append_of_le_length hk]
  have hfree' : '\n' ∉ line.take k := fun hmem => hfree (List.mem_of_mem_take hmem)
  refine ⟨before.length + k, hle, ?_⟩
  rw [location_natCast hle, LineIndex.location_eq hle, htake, lastLine_append hlast hfree',
    List.count_append, List.count_eq_zero.2 hfree', hcount, List.length_take, Nat.min_eq_left hk,
    Nat.add_zero, Nat.add_comm 1, Nat.add_comm 1]

theorem precedes_location {o p : Nat} (hop : o < p) (hp : p ≤ text.length) :
    ((ofChars text).location o).Precedes ((ofChars text).location p) := by
  have ho : o ≤ text.length := by omega
  rw [location_natCast ho, location_natCast hp, LineIndex.location_eq ho, LineIndex.location_eq hp]
  have hle : (text.take o).count '\n' ≤ (text.take p).count '\n' :=
    ((List.take_prefix_take_left (Nat.le_of_lt hop)).sublist).count_le '\n'
  rcases Nat.lt_or_eq_of_le hle with hlt | heq
  · left
    show ((1 + _ : Nat) : Int) < ((1 + _ : Nat) : Int)
    omega
  · -- On one line both columns are counted from the same start.
    obtain ⟨s, hs, hso, hlen⟩ := LineIndex.exists_start ho
    obtain ⟨t, ht, -, hlen'⟩ := LineIndex.exists_start hp
    obtain rfl : s = t := Option.some.inj (hs.symm.trans (heq ▸ ht))
    right
    refine ⟨by rw [heq], ?_⟩
    show ((1 + _ : Nat) : Int) < ((1 + _ : Nat) : Int)
    omega

/-- The offsets of a source with the given text and its places determine each other. -/
structure Placed (text : List Char) (s : Source) : Prop where
  /-- The offset is moved into the text. The line counts the newlines before it, and the column what
  stands behind the last one. -/
  location_eq : ∀ offset : Int, s.location offset =
    ⟨(1 + (text.take (max 0 (min offset text.length)).toNat).count '\n' : Nat),
      (1 + (lastLine (text.take (max 0 (min offset text.length)).toNat)).length : Nat)⟩
  offset_location : ∀ o ≤ text.length, s.lines.offset (s.location (o : Nat)) = .ok (o : Int)
  /-- The columns of a line go up to the one behind its last character. -/
  location_offset : ∀ (n : Nat) (line : List Char), (splitAt (· == '\n') text)[n]? = some line →
    ∀ k ≤ line.length, ∃ o, s.lines.offset ⟨(n + 1 : Nat), (k + 1 : Nat)⟩ = .ok o ∧
      s.location o = ⟨(n + 1 : Nat), (k + 1 : Nat)⟩
  increasing : ∀ o p : Nat, o < p → p ≤ text.length → (s.location o).Precedes (s.location p)

theorem placed_ofChars (text : List Char) : (ofChars text).Placed text where
  location_eq offset := by
    have hclamp : (ofChars text).clamp offset = (max 0 (min offset text.length)).toNat := by
      rw [clamp, length_ofChars]
      omega
    have hle := (ofChars text).clamp_le offset
    rw [length_ofChars] at hle
    rw [← hclamp, location]
    exact LineIndex.location_eq hle
  offset_location _ ho := offset_location_ofChars text ho
  location_offset n line hline k hk := by
    obtain ⟨o, ho, hlocation⟩ := exists_location_eq hline hk
    refine ⟨o, ?_, hlocation⟩
    rw [← hlocation]
    exact offset_location_ofChars text ho
  increasing _ _ hop hp := precedes_location hop hp

end Source

end ContractAudit
