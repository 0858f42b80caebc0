import ContractAudit.Proofs.Text.Bracket

/-!
# Brackets inside a pair

Between two matched brackets all brackets of the kind are matched among themselves
(`Pairs.Balanced`, `Pairs.balanced_of_close?`), whatever is unbalanced elsewhere in the text. While
a text is run over, this holds between each unmatched bracket of the stack and the one above it, and
between the latest one and the place reached (`Pairs.Waits`). A closing bracket then closes a
balanced stretch, and joins it with the one in front of it.
-/

namespace ContractAudit

namespace Pairs

variable {opener closer : Char} {text : List Char} {ps qs : Pairs} {lo hi : Nat}

/-- The brackets strictly between two offsets are matched among themselves. -/
structure Balanced (opener closer : Char) (text : List Char) (ps : Pairs) (lo hi : Nat) : Prop where
  opens : ∀ j, lo < j → j < hi → text[j]? = some opener → ∃ k, k < hi ∧ ps.close? j = some k
  closes : ∀ j, lo < j → j < hi → text[j]? = some closer → ∃ o, lo < o ∧ ps.close? o = some j

namespace Balanced

theorem succ (opener closer : Char) (text : List Char) (ps : Pairs) (i : Nat) :
    Balanced opener closer text ps i (i + 1) where
  opens j h₁ h₂ := by omega
  closes j h₁ h₂ := by omega

/-- A character that is no bracket is passed. -/
theorem skip (h : Balanced opener closer text ps lo hi) (hopen : text[hi]? ≠ some opener)
    (hclose : text[hi]? ≠ some closer) : Balanced opener closer text ps lo (hi + 1) where
  opens j h₁ h₂ hj := by
    have hne : j ≠ hi := by
      rintro rfl
      exact hopen hj
    obtain ⟨k, hk, hjk⟩ := h.opens j h₁ (by omega) hj
    exact ⟨k, Nat.lt_succ_of_lt hk, hjk⟩
  closes j h₁ h₂ hj := by
    have hne : j ≠ hi := by
      rintro rfl
      exact hclose hj
    exact h.closes j h₁ (by omega) hj

/-- Further pairs do no harm. -/
theorem mono (h : Balanced opener closer text ps lo hi)
    (hkeep : ∀ j k, ps.close? j = some k → qs.close? j = some k) :
    Balanced opener closer text qs lo hi where
  opens j h₁ h₂ hj := by
    obtain ⟨k, hk, hjk⟩ := h.opens j h₁ h₂ hj
    exact ⟨k, hk, hkeep j k hjk⟩
  closes j h₁ h₂ hj := by
    obtain ⟨o, ho, hoj⟩ := h.closes j h₁ h₂ hj
    exact ⟨o, ho, hkeep o j hoj⟩

/-- A balanced stretch, and behind it a pair around another one. -/
theorem wrap {o k : Nat} (hne : opener ≠ closer) (h : Balanced opener closer text ps lo o)
    (hpair : Balanced opener closer text ps o k) (hjoins : Joins opener closer text o k)
    (hlo : lo < o) (hclose : ps.close? o = some k) :
    Balanced opener closer text ps lo (k + 1) where
  opens j h₁ h₂ hj := by
    have hlt := hjoins.lt
    rcases Nat.lt_trichotomy j o with hjo | rfl | hjo
    · obtain ⟨l, hl, hjl⟩ := h.opens j h₁ hjo hj
      exact ⟨l, by omega, hjl⟩
    · exact ⟨k, Nat.lt_succ_self k, hclose⟩
    · have hjk : j ≠ k := by
        rintro rfl
        exact hne (Option.some.inj (hj.symm.trans hjoins.closes))
      obtain ⟨l, hl, hjl⟩ := hpair.opens j hjo (by omega) hj
      exact ⟨l, Nat.lt_succ_of_lt hl, hjl⟩
  closes j h₁ h₂ hj := by
    rcases Nat.lt_trichotomy j o with hjo | rfl | hjo
    · exact h.closes j h₁ hjo hj
    · exact absurd (Option.some.inj (hjoins.opens.symm.trans hj)) hne
    · rcases Nat.eq_or_lt_of_le (Nat.le_of_lt_succ h₂) with rfl | hjk
      · exact ⟨o, hlo, hclose⟩
      · obtain ⟨p, hp, hpj⟩ := hpair.closes j hjo hjk hj
        exact ⟨p, by omega, hpj⟩

end Balanced

theorem close?_eq_some_iff {i k : Nat} : ps.close? i = some k ↔ ps.closers[i]? = some (some k) := by
  simp [close?, Option.join_eq_some_iff]

/-- The brackets of the stack are unmatched, and the text from each one to the next, and from the
latest one to the offset `i`, is balanced. -/
def Waits (opener closer : Char) (text : List Char) (ps : Pairs) : Nat → List Nat → Prop
  | _, [] => True
  | i, o :: stack => o < i ∧ ps.closers[o]? = some none ∧ Balanced opener closer text ps o i ∧
    Waits opener closer text ps o stack

/-- The bracket `o` is closed by the one at `i`. -/
def join (ps : Pairs) (o i : Nat) : Pairs :=
  ⟨ps.closers.setIfInBounds o (some i)⟩

theorem getElem?_join {o i j : Nat} (hne : o ≠ j) : (ps.join o i).closers[j]? = ps.closers[j]? := by
  simp [join, hne]

theorem close?_join_self {o i : Nat} (h : ps.closers[o]? = some none) :
    (ps.join o i).close? o = some i := by
  have hlt : o < ps.closers.size := (Array.getElem?_eq_some_iff.1 h).1
  simp [close?_eq_some_iff, join, hlt]

theorem close?_join {o i j k : Nat} (ho : ps.closers[o]? = some none) (h : ps.close? j = some k) :
    (ps.join o i).close? j = some k := by
  rw [close?_eq_some_iff] at h ⊢
  have hne : o ≠ j := by
    rintro rfl
    simp [ho] at h
  rw [getElem?_join hne, h]

/-- Closing a bracket behind all of the stack leaves the stack waiting. -/
theorem Waits.join {o i : Nat} (ho : ps.closers[o]? = some none) : ∀ {stack : List Nat} {p : Nat},
    p ≤ o → Waits opener closer text ps p stack → Waits opener closer text (ps.join o i) p stack
  | [], _, _, _ => trivial
  | q :: stack, p, hp, ⟨hlt, hnone, hbalanced, hstack⟩ => by
    refine ⟨hlt, ?_, hbalanced.mono fun _ _ => close?_join ho, Waits.join ho (by omega) hstack⟩
    rwa [getElem?_join (by omega)]

/-- What holds at the offset `i` of the run beside `Matching` : each pair lies before the offset and
around a balanced stretch. -/
structure Nesting (opener closer : Char) (text : List Char) (i : Nat) (stack : List Nat)
    (ps : Pairs) : Prop where
  size_eq : ps.closers.size = text.length
  waits : Waits opener closer text ps i stack
  pairs : ∀ o k, ps.close? o = some k → k < i ∧ Balanced opener closer text ps o k

namespace Nesting

variable {i : Nat} {stack : List Nat}

theorem start (opener closer : Char) (text : List Char) :
    Nesting opener closer text 0 [] ⟨Array.replicate text.length none⟩ where
  size_eq := Array.size_replicate
  waits := trivial
  pairs o k h := by simp [close?_eq_some_iff, Array.getElem?_replicate] at h

theorem skip (h : Nesting opener closer text i stack ps) (hopen : text[i]? ≠ some opener)
    (hclose : text[i]? = some closer → stack = []) :
      Nesting opener closer text (i + 1) stack ps where
  size_eq := h.size_eq
  waits := by
    cases stack with
    | nil => trivial
    | cons o stack =>
      obtain ⟨hlt, hnone, hbalanced, hstack⟩ := h.waits
      have hne : text[i]? ≠ some closer := fun hi => List.cons_ne_nil o stack (hclose hi)
      exact ⟨Nat.lt_succ_of_lt hlt, hnone, hbalanced.skip hopen hne, hstack⟩
  pairs o k hok := ⟨Nat.lt_succ_of_lt (h.pairs o k hok).1, (h.pairs o k hok).2⟩

theorem push (h : Nesting opener closer text i stack ps)
    (hmatching : Matching opener closer text i stack ps.closers) (hi : text[i]? = some opener) :
    Nesting opener closer text (i + 1) (i :: stack) ps where
  size_eq := h.size_eq
  waits := by
    have hlt : i < ps.closers.size := h.size_eq ▸ (List.getElem?_eq_some_iff.1 hi).1
    refine ⟨Nat.lt_succ_self i, ?_, .succ _ _ _ _ _, h.waits⟩
    rw [Array.getElem?_eq_getElem hlt]
    cases hget : ps.closers[i] with
    | none => rfl
    | some k =>
      -- A bracket that is only just read is in no pair yet.
      have hk : ps.closers[i]? = some (some k) := by rw [Array.getElem?_eq_getElem hlt, hget]
      have hik := (hmatching.joins i k hk).lt
      have hki := (h.pairs i k (close?_eq_some_iff.2 hk)).1
      omega
  pairs o k hok := ⟨Nat.lt_succ_of_lt (h.pairs o k hok).1, (h.pairs o k hok).2⟩

theorem pop {o : Nat} (hne : opener ≠ closer) (h : Nesting opener closer text i (o :: stack) ps)
    (hmatching : Matching opener closer text i (o :: stack) ps.closers)
    (hi : text[i]? = some closer) : Nesting opener closer text (i + 1) stack (ps.join o i) := by
  obtain ⟨hlt, hnone, hbalanced, hstack⟩ := h.waits
  have hkeep : ∀ j k, ps.close? j = some k → (ps.join o i).close? j = some k :=
    fun _ _ => close?_join hnone
  have hjoins : Joins opener closer text o i :=
    ⟨hlt, (hmatching.waits o List.mem_cons_self).2, hi⟩
  refine ⟨by simp [join, h.size_eq], ?_, fun p k hpk => ?_⟩
  · cases stack with
    | nil => trivial
    | cons q stack =>
      obtain ⟨hqo, hqnone, hqbalanced, hstack'⟩ := hstack.join (i := i) hnone (Nat.le_refl o)
      refine ⟨by omega, hqnone, ?_, hstack'⟩
      exact hqbalanced.wrap hne (hbalanced.mono hkeep) hjoins hqo (close?_join_self hnone)
  · by_cases hpo : o = p
    · subst hpo
      obtain rfl : i = k := Option.some.inj ((close?_join_self hnone).symm.trans hpk)
      exact ⟨Nat.lt_succ_self _, hbalanced.mono hkeep⟩
    · have hpk' : ps.close? p = some k := by
        rwa [close?_eq_some_iff, getElem?_join hpo, ← close?_eq_some_iff] at hpk
      obtain ⟨hki, hbal⟩ := h.pairs p k hpk'
      exact ⟨Nat.lt_succ_of_lt hki, hbal.mono hkeep⟩

/-- The run keeps both invariants, from any place of the text on. -/
theorem balanced_pairFrom (hne : opener ≠ closer) : ∀ (cs : List Char) {i : Nat} {stack : List Nat}
    {done : Array (Option Nat)}, cs = text.drop i → Matching opener closer text i stack done →
      Nesting opener closer text i stack ⟨done⟩ → ∀ o k,
        (Pairs.mk (pairFrom opener closer i stack done cs)).close? o = some k →
          Balanced opener closer text ⟨pairFrom opener closer i stack done cs⟩ o k
  | [], _, _, _, _, _, h => fun o k hok => (h.pairs o k hok).2
  | c :: cs, i, stack, done, hcs, hm, h => by
    have hget : text[i]? = some c := by rw [← List.head?_drop, ← hcs, List.head?_cons]
    have hrest : cs = text.drop (i + 1) := by
      rw [← List.drop_drop, ← hcs, List.drop_one, List.tail_cons]
    unfold pairFrom
    split
    next hopen =>
      rw [beq_iff_eq.1 hopen] at hget
      exact balanced_pairFrom hne cs hrest (hm.push hget) (h.push hm hget)
    next hopen =>
      have hopen' : text[i]? ≠ some opener := by simpa [hget] using hopen
      split
      next hclose =>
        rw [beq_iff_eq.1 hclose] at hget
        cases stack with
        | nil => exact balanced_pairFrom hne cs hrest hm.skip (h.skip hopen' fun _ => rfl)
        | cons o stack => exact balanced_pairFrom hne cs hrest (hm.pop hget) (h.pop hne hm hget)
      next hclose =>
        have hclose' : text[i]? ≠ some closer := by simpa [hget] using hclose
        exact balanced_pairFrom hne cs hrest hm.skip (h.skip hopen' fun hi => absurd hi hclose')

end Nesting

/-- Between two matched brackets all brackets are matched among themselves. -/
theorem balanced_of_close? (hne : opener ≠ closer) {i k : Nat}
    (h : (of opener closer text).close? i = some k) :
    Balanced opener closer text (of opener closer text) i k :=
  Nesting.balanced_pairFrom hne text rfl (Matching.start opener closer text text.length)
    (Nesting.start opener closer text) i k h

/-- A bracket that opens between two matched ones is closed between them. -/
theorem exists_close?_between (hne : opener ≠ closer) {o close i : Nat}
    (h : (of opener closer text).close? o = some close) (hoi : o < i) (hi : i < close)
    (hopen : text[i]? = some opener) : ∃ k, (of opener closer text).close? i = some k ∧ i < k ∧
      k < close := by
  obtain ⟨k, hk, hik⟩ := (balanced_of_close? hne h).opens i hoi hi hopen
  exact ⟨k, hik, (joins_of_close? hik).lt, hk⟩

theorem exists_close?_inside {o close i : Nat} (h : (parens text).close? o = some close)
    (hoi : o < i) (hi : i < close) (hopen : text[i]? = some '(') :
    ∃ k, (parens text).close? i = some k ∧ i < k ∧ k < close :=
  exists_close?_between (by decide) h hoi hi hopen

end Pairs

end ContractAudit
