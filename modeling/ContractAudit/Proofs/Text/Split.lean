import ContractAudit.Text.Trim

/-!
# Pieces of a text

`splitAt` cuts a text at its separators. Two texts with a separator between them are cut one behind
the other (`splitAt_append_cons`), a text without separators is one piece (`splitAt_eq_singleton`),
and the pieces with the separator between them are the text again (`intercalate_splitAt`). Which
characters a text avoids (`Avoids`) is told from the texts it is put together from.
-/

namespace ContractAudit

variable {isSep : Char → Bool}

theorem splitAfter_eq_append : ∀ (cs : List Char) (done : List (List Char)) (piece : List Char),
    splitAfter isSep done piece cs = done.reverse ++ splitAfter isSep [] piece cs
  | [], done, piece => by simp [splitAfter]
  | c :: cs, done, piece => by
    unfold splitAfter
    split
    · rw [splitAfter_eq_append cs (piece.reverse :: done), splitAfter_eq_append cs [piece.reverse],
        List.reverse_cons, List.append_assoc, List.reverse_singleton]
    · exact splitAfter_eq_append cs done (c :: piece)

theorem splitAfter_append_cons {s : Char} (hs : isSep s) (r : List Char) :
    ∀ (l piece : List Char), splitAfter isSep [] piece (l ++ s :: r) =
      splitAfter isSep [] piece l ++ splitAt isSep r
  | [], piece => by
    have hstep : splitAfter isSep [] piece (s :: r) = splitAfter isSep [piece.reverse] [] r := by
      rw [splitAfter, if_pos hs]
    rw [List.nil_append, hstep, splitAfter_eq_append]
    rfl
  | c :: l, piece => by
    rw [List.cons_append, splitAfter, splitAfter]
    split
    · rw [splitAfter_eq_append, splitAfter_append_cons hs r l [],
        splitAfter_eq_append l [piece.reverse], List.append_assoc]
    · exact splitAfter_append_cons hs r l (c :: piece)

theorem splitAt_append_cons {s : Char} (hs : isSep s) (l r : List Char) :
    splitAt isSep (l ++ s :: r) = splitAt isSep l ++ splitAt isSep r :=
  splitAfter_append_cons hs r l []

theorem splitAfter_eq_singleton :
    ∀ {l : List Char} (piece : List Char), (∀ c ∈ l, isSep c = false) →
    splitAfter isSep [] piece l = [piece.reverse ++ l]
  | [], piece, _ => by simp [splitAfter]
  | c :: l, piece, h => by
    have hc : isSep c = false := h c List.mem_cons_self
    rw [splitAfter, hc, if_neg Bool.false_ne_true,
      splitAfter_eq_singleton (c :: piece) fun a ha => h a (List.mem_cons_of_mem _ ha),
      List.reverse_cons, List.append_assoc, List.singleton_append]

theorem splitAt_eq_singleton {l : List Char} (h : ∀ c ∈ l, isSep c = false) :
    splitAt isSep l = [l] :=
  splitAfter_eq_singleton [] h

theorem splitAt_ne_nil (isSep : Char → Bool) (cs : List Char) : splitAt isSep cs ≠ [] := by
  have hne : ∀ (cs : List Char) (piece : List Char), splitAfter isSep [] piece cs ≠ [] := by
    intro cs
    induction cs with
    | nil => simp [splitAfter]
    | cons c cs ih =>
      intro piece
      unfold splitAfter
      split
      · rw [splitAfter_eq_append]
        simp
      · exact ih (c :: piece)
  exact hne cs []

/-- The pieces of texts that a separator joins. -/
theorem splitAt_intercalate {s : Char} (hs : isSep s) : ∀ {ls : List (List Char)}, ls ≠ [] →
    splitAt isSep ([s].intercalate ls) = ls.flatMap (splitAt isSep)
  | [], hne => absurd rfl hne
  | [l], _ => by simp
  | l :: l' :: ls, _ => by
    rw [List.intercalate_cons_cons, List.append_assoc, List.singleton_append,
      splitAt_append_cons hs, splitAt_intercalate hs (List.cons_ne_nil l' ls),
      List.flatMap_cons (x := l)]

theorem infix_of_mem_splitAfter : ∀ (cs piece : List Char), ∀ p ∈ splitAfter isSep [] piece cs,
    p <:+: piece.reverse ++ cs
  | [], piece, p, hp => by
    obtain rfl : p = piece.reverse := by simpa [splitAfter] using hp
    exact List.infix_append' [] _ []
  | c :: cs, piece, p, hp => by
    unfold splitAfter at hp
    split at hp
    · rw [splitAfter_eq_append, List.mem_append, List.reverse_singleton, List.mem_singleton] at hp
      rcases hp with rfl | hp
      · exact (List.prefix_append _ _).isInfix
      · have hcs : cs <:+: piece.reverse ++ c :: cs :=
          ((List.suffix_cons c cs).trans (List.suffix_append _ _)).isInfix
        exact (infix_of_mem_splitAfter cs [] p hp).trans hcs
    · simpa using infix_of_mem_splitAfter cs (c :: piece) p hp

theorem infix_of_mem_splitAt {cs p : List Char} (hp : p ∈ splitAt isSep cs) : p <:+: cs :=
  infix_of_mem_splitAfter cs [] p hp

theorem intercalate_splitAfter {s : Char} : ∀ (cs piece : List Char),
    [s].intercalate (splitAfter (· == s) [] piece cs) = piece.reverse ++ cs
  | [], piece => by simp [splitAfter]
  | c :: cs, piece => by
    unfold splitAfter
    split
    next hc =>
      have hne := splitAt_ne_nil (· == s) cs
      have ih := intercalate_splitAfter (s := s) cs []
      obtain rfl : c = s := beq_iff_eq.1 hc
      rw [splitAfter_eq_append, List.reverse_singleton, List.singleton_append]
      unfold splitAt at hne
      cases hp : splitAfter (· == c) [] [] cs with
      | nil => exact absurd hp hne
      | cons p ps =>
        rw [List.intercalate_cons_cons, ← hp, ih, List.append_assoc]
        rfl
    next hc =>
      rw [intercalate_splitAfter cs (c :: piece), List.reverse_cons, List.append_assoc,
        List.singleton_append]

/-- The pieces with the separator between them are the text. -/
theorem intercalate_splitAt (s : Char) (cs : List Char) :
    [s].intercalate (splitAt (· == s) cs) = cs :=
  intercalate_splitAfter cs []

/-- The first piece, and the others each behind a separator. -/
theorem intercalate_cons_eq {α : Type} (sep l : List α) : ∀ ls : List (List α),
    sep.intercalate (l :: ls) = l ++ ls.flatMap (sep ++ ·)
  | [] => by simp
  | l' :: ls => by
    rw [List.intercalate_cons_cons, intercalate_cons_eq sep l' ls, List.flatMap_cons,
      List.append_assoc, List.append_assoc]

/-! ## Characters that a text avoids -/

/-- The character does not occur in the text. -/
def Avoids (c : Char) (s : String) : Prop :=
  c ∉ s.toList

namespace Avoids

variable {c : Char}

/-- For a literal, which is written as the list of its characters. -/
theorem literal {cs : List Char} (h : c ∉ cs) : Avoids c (String.ofList cs) := by
  rwa [Avoids, String.toList_ofList]

theorem append {s t : String} (hs : Avoids c s) (ht : Avoids c t) : Avoids c (s ++ t) := by
  rw [Avoids, String.toList_append, List.mem_append]
  exact not_or.2 ⟨hs, ht⟩

theorem ofNat (hc : c.isDigit = false) (n : Nat) : Avoids c (toString n) := by
  intro h
  have hdigit := Nat.isDigit_of_mem_toDigits (by decide) (by decide) (Nat.toList_repr (n := n) ▸ h)
  simp [hc] at hdigit

theorem ofInt (hc : c.isDigit = false) (hsign : c ≠ '-') : ∀ n : Int, Avoids c (toString n)
  | .ofNat n => ofNat hc n
  | .negSucc n => append (literal (by simpa using hsign)) (ofNat hc (n + 1))

end Avoids

end ContractAudit
