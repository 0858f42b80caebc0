import ContractAudit.Text.Bracket

/-!
# Matched brackets

`Pairs.of` runs over a text with a stack of the opening brackets that are still unmatched.
`Matching` is what holds between two characters of the run. At its end a pair consists of an opening
bracket and a closing bracket behind it (`Pairs.Joins`, `Pairs.joins_of_close?`).
-/

namespace ContractAudit

namespace Pairs

variable {opener closer : Char} {text : List Char}

/-- The bracket that opens at `i` can be the partner of the one that closes at `k`. -/
structure Joins (opener closer : Char) (text : List Char) (i k : Nat) : Prop where
  lt : i < k
  opens : text[i]? = some opener
  closes : text[k]? = some closer

theorem Joins.lt_length {i k : Nat} (h : Joins opener closer text i k) : k < text.length :=
  (List.getElem?_eq_some_iff.1 h.closes).1

/-- What holds at the offset `i` of the run, with the brackets on `stack` unmatched. -/
structure Matching (opener closer : Char) (text : List Char) (i : Nat) (stack : List Nat)
    (done : Array (Option Nat)) : Prop where
  waits : ∀ o ∈ stack, o < i ∧ text[o]? = some opener
  joins : ∀ o k, done[o]? = some (some k) → Joins opener closer text o k

namespace Matching

variable {i : Nat} {stack : List Nat} {done : Array (Option Nat)}

theorem start (opener closer : Char) (text : List Char) (n : Nat) :
    Matching opener closer text 0 [] (Array.replicate n none) where
  waits o h := absurd h List.not_mem_nil
  joins o k h := by simp [Array.getElem?_replicate] at h

theorem skip (h : Matching opener closer text i stack done) :
    Matching opener closer text (i + 1) stack done where
  waits o ho := ⟨Nat.lt_succ_of_lt (h.waits o ho).1, (h.waits o ho).2⟩
  joins := h.joins

theorem push (h : Matching opener closer text i stack done) (hi : text[i]? = some opener) :
    Matching opener closer text (i + 1) (i :: stack) done where
  waits o ho := by
    rcases List.mem_cons.1 ho with rfl | ho
    · exact ⟨Nat.lt_succ_self _, hi⟩
    · exact h.skip.waits o ho
  joins := h.joins

theorem pop {o : Nat} (h : Matching opener closer text i (o :: stack) done)
    (hi : text[i]? = some closer) :
    Matching opener closer text (i + 1) stack (done.setIfInBounds o (some i)) where
  waits p hp := h.skip.waits p (List.mem_cons_of_mem _ hp)
  joins p k hk := by
    rw [Array.getElem?_setIfInBounds] at hk
    split at hk
    · rename_i hop
      split at hk
      · obtain rfl : i = k := by simpa using hk
        obtain ⟨hlt, hopen⟩ := h.waits o List.mem_cons_self
        exact hop ▸ ⟨hlt, hopen, hi⟩
      · simp at hk
    · exact h.joins p k hk

/-- The run keeps the invariant, from any place of the text on. -/
theorem joins_pairFrom : ∀ (cs : List Char) {i : Nat} {stack : List Nat}
    {done : Array (Option Nat)}, cs = text.drop i → Matching opener closer text i stack done →
      ∀ o k, (pairFrom opener closer i stack done cs)[o]? = some (some k) →
        Joins opener closer text o k
  | [], _, _, _, _, h => h.joins
  | c :: cs, i, stack, done, hcs, h => by
    have hget : text[i]? = some c := by rw [← List.head?_drop, ← hcs, List.head?_cons]
    have hrest : cs = text.drop (i + 1) := by
      rw [← List.drop_drop, ← hcs, List.drop_one, List.tail_cons]
    intro o k hk
    by_cases hopen : c = opener
    · rw [hopen] at hget
      exact joins_pairFrom cs hrest (h.push hget) o k (by simpa [pairFrom, hopen] using hk)
    · by_cases hclose : c = closer
      · rw [hclose] at hget
        have hne : closer ≠ opener := hclose ▸ hopen
        cases stack with
        | nil =>
          exact joins_pairFrom cs hrest h.skip o k (by simpa [pairFrom, hne, hclose] using hk)
        | cons p stack =>
          exact joins_pairFrom cs hrest (h.pop hget) o k (by simpa [pairFrom, hne, hclose] using hk)
      · exact joins_pairFrom cs hrest h.skip o k (by simpa [pairFrom, hopen, hclose] using hk)

end Matching

/-- A pair consists of an opening bracket and a closing one behind it. -/
theorem joins_of_close? {i k : Nat} (h : (of opener closer text).close? i = some k) :
    Joins opener closer text i k := by
  refine Matching.joins_pairFrom text rfl (Matching.start opener closer text text.length) i k ?_
  simpa [close?, of, Option.join_eq_some_iff] using h

end Pairs

end ContractAudit
