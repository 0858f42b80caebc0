import ContractAudit.Proofs.Text.Balance

/-!
# Partners by counting

The partner of an opening bracket is found without a stack : it is the first place behind the
bracket up to which there are as many closing as opening brackets (`Closes`). In `level` this place
is where the text behind the bracket falls below the level at which it began, or there is none if it
never does (`exists_closer_or_level`). So what stands before the bracket or behind its partner does
not count, and the pairs of any text are nested or apart (`Pairs.matched_of`).
-/

namespace ContractAudit

variable {opener closer : Char} {text : List Char}

/-- From one offset to another, both included, the text has as many closing as opening brackets. -/
def Evens (opener closer : Char) (text : List Char) (o c : Nat) : Prop :=
  (text.extract o (c + 1)).count closer = (text.extract o (c + 1)).count opener

/-- A bracket opens at `o`, and `c` is the first offset behind it up to which there are as many
closing as opening brackets. -/
structure Closes (opener closer : Char) (text : List Char) (o c : Nat) : Prop where
  opens : text[o]? = some opener
  lt : o < c
  lt_length : c < text.length
  evens : Evens opener closer text o c
  first : ∀ k, o < k → k < c → ¬ Evens opener closer text o k

theorem Closes.unique {o c d : Nat} (hc : Closes opener closer text o c)
    (hd : Closes opener closer text o d) : c = d := by
  rcases Nat.lt_trichotomy c d with hlt | heq | hlt
  · exact absurd hc.evens (hd.first c hc.lt hlt)
  · exact heq
  · exact absurd hd.evens (hc.first d hd.lt hlt)

/-! ## Levels by counting -/

/-- The level behind a text, by the numbers of brackets in it. -/
theorem level_add_count (hne : opener ≠ closer) {cs : List Char} {n m : Nat}
    (h : level opener closer n cs = some m) : m + cs.count closer = n + cs.count opener := by
  induction cs generalizing n with
  | nil =>
    obtain rfl : n = m := Option.some.inj h
    rfl
  | cons c cs ih =>
    by_cases hopen : c = opener
    · subst hopen
      rw [level_opener] at h
      have hcount := ih h
      rw [List.count_cons_of_ne hne, List.count_cons_self]
      omega
    by_cases hclose : c = closer
    · subst hclose
      cases n with
      | zero => simp [level, hopen] at h
      | succ n =>
        rw [level_closer hne] at h
        have hcount := ih h
        rw [List.count_cons_self, List.count_cons_of_ne hopen]
        omega
    · rw [level_other hopen hclose] at h
      rw [List.count_cons_of_ne hclose, List.count_cons_of_ne hopen]
      exact ih h

/-- A text that closes no bracket opened in front of it has nowhere more closing than opening
brackets. -/
theorem count_take_le_of_level (hne : opener ≠ closer) {cs : List Char} {m : Nat}
    (h : level opener closer 0 cs = some m) (k : Nat) :
    (cs.take k).count closer ≤ (cs.take k).count opener := by
  rw [← List.take_append_drop k cs, level_append] at h
  obtain ⟨n, hn, -⟩ := Option.bind_eq_some_iff.1 h
  have hcount := level_add_count hne hn
  omega

/-- Either a text closes a bracket that is open in front of it, and what comes before is balanced,
or it has a level. -/
theorem exists_closer_or_level (opener closer : Char) : ∀ (n : Nat) (cs : List Char),
    (∃ inner behind, cs = inner ++ closer :: behind ∧ level opener closer n inner = some 0) ∨
      ∃ m, level opener closer n cs = some m
  | n, [] => Or.inr ⟨n, rfl⟩
  | n, c :: cs => by
    -- Where the first character goes to another level, the rest is looked at from there.
    have hnext : ∀ k, (∀ ds, level opener closer n (c :: ds) = level opener closer k ds) →
        (∃ inner behind, c :: cs = inner ++ closer :: behind ∧
          level opener closer n inner = some 0) ∨
          ∃ m, level opener closer n (c :: cs) = some m := by
      intro k hk
      rcases exists_closer_or_level opener closer k cs with ⟨inner, behind, rfl, hinner⟩ | ⟨m, hm⟩
      · exact Or.inl ⟨c :: inner, behind, rfl, by rw [hk, hinner]⟩
      · exact Or.inr ⟨m, by rw [hk, hm]⟩
    by_cases hopen : c = opener
    · subst hopen
      exact hnext (n + 1) (level_opener n)
    by_cases hclose : c = closer
    · subst hclose
      cases n with
      | zero => exact Or.inl ⟨[], cs, rfl, rfl⟩
      | succ n => exact hnext n (level_closer (Ne.symm hopen) n)
    · exact hnext n (level_other hopen hclose n)

/-! ## The text behind an opening bracket -/

section Behind

variable {front inner behind rest : List Char}

theorem evens_behind_iff (hne : opener ≠ closer) (n : Nat) :
    Evens opener closer (front ++ opener :: rest) front.length (front.length + 1 + n) ↔
      (rest.take (n + 1)).count closer = (rest.take (n + 1)).count opener + 1 := by
  have hextract : (front ++ opener :: rest).extract front.length (front.length + 1 + n + 1) =
      opener :: rest.take (n + 1) := by
    rw [List.extract_eq_take_drop, List.drop_left]
    have hlen : front.length + 1 + n + 1 - front.length = n + 1 + 1 := by omega
    rw [hlen, List.take_succ_cons]
  rw [Evens, hextract, List.count_cons_of_ne hne, List.count_cons_self]

/-- A bracket is closed behind a balanced text. -/
theorem closes_of_level (hne : opener ≠ closer) (h : level opener closer 0 inner = some 0) :
    Closes opener closer (front ++ opener :: (inner ++ closer :: behind)) front.length
      (front.length + 1 + inner.length) where
  opens := by simp
  lt := by omega
  lt_length := by
    simp only [List.length_append, List.length_cons]
    omega
  evens := by
    have htake : (inner ++ closer :: behind).take (inner.length + 1) = inner ++ [closer] := by
      rw [List.take_length_add_append]
      rfl
    have hcount := level_add_count hne h
    have hopener : [closer].count opener = 0 := List.count_eq_zero_of_not_mem (by simpa using hne)
    rw [evens_behind_iff hne, htake, List.count_append, List.count_append,
      List.count_singleton_self, hopener]
    omega
  first k h₁ h₂ := by
    obtain ⟨n, rfl⟩ : ∃ n, k = front.length + 1 + n := ⟨k - (front.length + 1), by omega⟩
    rw [evens_behind_iff hne, List.take_append_of_le_length (by omega)]
    have hle := count_take_le_of_level hne h (n + 1)
    omega

/-- A bracket has no partner if the text behind it closes no bracket opened in front. -/
theorem not_closes_of_level (hne : opener ≠ closer) {m : Nat}
    (h : level opener closer 0 rest = some m)
    (c : Nat) : ¬ Closes opener closer (front ++ opener :: rest) front.length c := by
  intro hc
  have hlt := hc.lt
  obtain ⟨n, rfl⟩ : ∃ n, c = front.length + 1 + n := ⟨c - (front.length + 1), by omega⟩
  have heven := (evens_behind_iff hne n).1 hc.evens
  have hle := count_take_le_of_level hne h (n + 1)
  omega

end Behind

namespace Pairs

/-- An opening bracket splits its text. -/
theorem exists_behind {o : Nat} (h : text[o]? = some opener) :
    ∃ front rest, text = front ++ opener :: rest ∧ o = front.length := by
  obtain ⟨hlt, hget⟩ := List.getElem?_eq_some_iff.1 h
  refine ⟨text.take o, text.drop (o + 1), ?_, ?_⟩
  · rw [← hget, List.getElem_cons_drop, List.take_append_drop]
  · rw [List.length_take, Nat.min_eq_left (Nat.le_of_lt hlt)]

/-- Between an opening bracket and its partner stands a balanced text. -/
theorem exists_group_of_close? (hne : opener ≠ closer) {o c : Nat}
    (h : (of opener closer text).close? o = some c) :
    ∃ front inner behind, text = front ++ opener :: (inner ++ closer :: behind) ∧ o = front.length ∧
      c = front.length + 1 + inner.length ∧ level opener closer 0 inner = some 0 := by
  obtain ⟨front, rest, rfl, rfl⟩ := exists_behind (joins_of_close? h).opens
  rcases exists_closer_or_level opener closer 0 rest with ⟨inner, behind, rfl, hinner⟩ | ⟨m, hm⟩
  · rw [close?_of_level hne hinner] at h
    exact ⟨front, inner, behind, rfl, rfl, (Option.some.inj h).symm, hinner⟩
  · rw [close?_eq_none_of_level hm] at h
    cases h

/-- The stack finds the partner that counting finds. -/
theorem close?_iff_closes (hne : opener ≠ closer) (text : List Char) (o c : Nat) :
    (of opener closer text).close? o = some c ↔ Closes opener closer text o c := by
  constructor
  · intro h
    obtain ⟨front, inner, behind, rfl, rfl, rfl, hinner⟩ := exists_group_of_close? hne h
    exact closes_of_level hne hinner
  · intro h
    obtain ⟨front, rest, rfl, rfl⟩ := exists_behind h.opens
    rcases exists_closer_or_level opener closer 0 rest with ⟨inner, behind, rfl, hinner⟩ | ⟨m, hm⟩
    · rw [close?_of_level hne hinner, (closes_of_level hne hinner).unique h]
    · exact absurd h (not_closes_of_level hne hm c)

theorem mem_toList_iff {ps : Pairs} {o c : Nat} : (o, c) ∈ ps.toList ↔ ps.close? o = some c := by
  rw [close?_eq_some_iff, toList, List.mem_filterMap]
  constructor
  · rintro ⟨⟨close, i⟩, hmem, hpair⟩
    obtain ⟨k, rfl, hk⟩ := Option.map_eq_some_iff.1 hpair
    obtain ⟨rfl, rfl⟩ := Prod.mk.inj hk
    rw [← Array.getElem?_toList]
    exact List.mk_mem_zipIdx_iff_getElem?.1 hmem
  · intro h
    rw [← Array.getElem?_toList] at h
    exact ⟨(some c, o), List.mk_mem_zipIdx_iff_getElem?.2 h, rfl⟩

/-- The pairs are those of a text : they join each opening bracket with its partner, if it has one.
No two opening brackets share a partner, any two pairs are nested or apart, and the brackets inside
a pair have their partners inside it. -/
structure Matched (opener closer : Char) (text : List Char) (ps : Pairs) : Prop where
  mem_toList_iff : ∀ o c, (o, c) ∈ ps.toList ↔ Closes opener closer text o c
  close?_eq_some_iff : ∀ o c, ps.close? o = some c ↔ Closes opener closer text o c
  close?_eq_none_iff : ∀ o, ps.close? o = none ↔ ¬ ∃ c, Closes opener closer text o c
  opener_unique : ∀ o p c, ps.close? o = some c → ps.close? p = some c → o = p
  nested_or_apart : ∀ o c p d, ps.close? o = some c → ps.close? p = some d → o < p → d < c ∨ c < p
  opener_inside : ∀ o c j, ps.close? o = some c → o < j → j < c → text[j]? = some opener →
    ∃ k, ps.close? j = some k ∧ j < k ∧ k < c
  closer_inside : ∀ o c j, ps.close? o = some c → o < j → j < c → text[j]? = some closer →
    ∃ i, ps.close? i = some j ∧ o < i ∧ i < j

theorem nested_or_apart_of (hne : opener ≠ closer) {o c p d : Nat}
    (hc : (of opener closer text).close? o = some c)
    (hd : (of opener closer text).close? p = some d) (hlt : o < p) : d < c ∨ c < p := by
  have hp := (joins_of_close? hd).opens
  rcases Nat.lt_trichotomy p c with hpc | rfl | hcp
  · obtain ⟨k, hk, -, hkc⟩ := exists_close?_between hne hc hlt hpc hp
    obtain rfl : d = k := Option.some.inj (hd.symm.trans hk)
    exact Or.inl hkc
  · exact absurd (Option.some.inj (hp.symm.trans (joins_of_close? hc).closes)) hne
  · exact Or.inr hcp

theorem opener_unique_of (hne : opener ≠ closer) {o p c : Nat}
    (ho : (of opener closer text).close? o = some c)
    (hp : (of opener closer text).close? p = some c) : o = p := by
  have hoc := (joins_of_close? ho).lt
  have hpc := (joins_of_close? hp).lt
  rcases Nat.lt_trichotomy o p with hlt | heq | hlt
  · rcases nested_or_apart_of hne ho hp hlt with h | h <;> omega
  · exact heq
  · rcases nested_or_apart_of hne hp ho hlt with h | h <;> omega

/-- The brackets of any text are matched, whatever is unbalanced in it. -/
theorem matched_of (hne : opener ≠ closer) (text : List Char) :
    Matched opener closer text (of opener closer text) where
  mem_toList_iff o c := Pairs.mem_toList_iff.trans (close?_iff_closes hne text o c)
  close?_eq_some_iff := close?_iff_closes hne text
  close?_eq_none_iff o := by
    rw [Option.eq_none_iff_forall_ne_some, not_exists]
    exact forall_congr' fun c => not_congr (close?_iff_closes hne text o c)
  opener_unique _ _ _ := opener_unique_of hne
  nested_or_apart _ _ _ _ := nested_or_apart_of hne
  opener_inside _ _ _ := exists_close?_between hne
  closer_inside o c j h hoj hjc hj := by
    obtain ⟨i, hoi, hij⟩ := (balanced_of_close? hne h).closes j hoj hjc hj
    exact ⟨i, hij, hoi, (joins_of_close? hij).lt⟩

/-- A pair inside another one, between two brackets without a partner. -/
theorem matched_of_torn : '[' ≠ ']' ∧
    Matched '[' ']' "]a[b[c]d]e[".toList (of '[' ']' "]a[b[c]d]e[".toList) ∧
    (of '[' ']' "]a[b[c]d]e[".toList).toList = [(2, 8), (4, 6)] :=
  ⟨by decide, matched_of (by decide) _, by decide⟩

end Pairs

end ContractAudit
