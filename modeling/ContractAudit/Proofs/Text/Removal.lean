import ContractAudit.Proofs.Text.Groups
import ContractAudit.Proofs.Text.Partner

/-!
# Removing groups at once

Read off the pairs of brackets, the text without its groups has a space for each outermost group and
keeps everything else (`withoutGroups`). A pass with the brackets that wait on a stack adds,
character by character and group by group, what the pairs keep (`Remains.chars_foldl`), as long as
no pair reaches over from before (`Pairs.Clear`). So the groups that are removed in rounds, the
innermost first, could be removed at once (`stripGroups_eq_withoutGroups`).
-/

namespace ContractAudit

/-- The offset lies in the group of a pair, behind its opening bracket. -/
def Pairs.covers (ps : Pairs) (i : Nat) : Bool :=
  ps.toList.any fun (o, c) => o < i && i ≤ c

/-- A character with its offset, if it is kept. The bracket that opens a group becomes a space, and
the rest of the group is left out. -/
def Pairs.keep? (ps : Pairs) : Char × Nat → Option Char
  | (a, i) => if ps.covers i then none else if (ps.close? i).isSome then some ' ' else some a

/-- The text with a space for each group that no other one encloses. -/
def withoutGroups (text : List Char) : List Char :=
  text.zipIdx.filterMap (Pairs.parens text).keep?

/-! ## Pairs -/

namespace Pairs

variable {ps : Pairs} {front : List Char}

theorem covers_iff {i : Nat} : ps.covers i ↔ ∃ o c, ps.close? o = some c ∧ o < i ∧ i ≤ c := by
  simp [covers, List.any_eq_true, mem_toList_iff]

/-- What stands behind a place is in no pair that opens in front of it. -/
def Clear (ps : Pairs) (n : Nat) : Prop :=
  ∀ o c, ps.close? o = some c → o < n → c < n

variable {n : Nat}

theorem Clear.not_covers (h : ps.Clear n) : ps.covers n = false := by
  refine Bool.eq_false_iff.2 fun hcovers => ?_
  obtain ⟨o, c, hoc, hlt, hle⟩ := covers_iff.1 hcovers
  exact absurd (h o c hoc hlt) (Nat.not_lt.2 hle)

/-- A bracket without a partner, or another character, is kept. -/
theorem Clear.keep? (h : ps.Clear n) (hnone : ps.close? n = none) (a : Char) :
    ps.keep? (a, n) = some a := by
  simp [Pairs.keep?, h.not_covers, hnone]

theorem Clear.succ (h : ps.Clear n) (hnone : ps.close? n = none) : ps.Clear (n + 1) := by
  intro o c hoc hlt
  rcases Nat.lt_succ_iff_lt_or_eq.1 hlt with hlt | rfl
  · exact Nat.lt_succ_of_lt (h o c hoc hlt)
  · rw [hnone] at hoc
    cases hoc

/-- A group is passed over, with a space for it. -/
theorem Clear.filterMap_group {inner behind : List Char} (h : ps.Clear n)
    (hclose : ps.close? n = some (n + 1 + inner.length)) :
    (('(' :: (inner ++ ')' :: behind)).zipIdx n).filterMap ps.keep? =
      ' ' :: (behind.zipIdx (n + 1 + inner.length + 1)).filterMap ps.keep? := by
  have hfirst : ps.keep? ('(', n) = some ' ' := by simp [Pairs.keep?, h.not_covers, hclose]
  have hinside : ((inner ++ [')']).zipIdx (n + 1)).filterMap ps.keep? = [] := by
    refine List.filterMap_eq_nil_iff.2 fun x hx => ?_
    obtain ⟨a, i⟩ := x
    have hle := List.le_snd_of_mem_zipIdx hx
    have hlt := List.snd_lt_add_of_mem_zipIdx hx
    simp only [List.length_append, List.length_singleton] at hle hlt
    have hcovers : ps.covers i := covers_iff.2 ⟨n, _, hclose, by omega, by omega⟩
    simp [Pairs.keep?, hcovers]
  have happend : inner ++ ')' :: behind = (inner ++ [')']) ++ behind := by simp
  have hlen : n + 1 + (inner ++ [')']).length = n + 1 + inner.length + 1 := by simp; omega
  rw [List.zipIdx_cons, List.filterMap_cons_some hfirst, happend, List.zipIdx_append,
    List.filterMap_append, hinside, List.nil_append, hlen]

/-- Behind a pair nothing is in a pair that opens in front. -/
theorem Clear.behind {text : List Char} {n c : Nat} (h : (parens text).Clear n)
    (hclose : (parens text).close? n = some c) : (parens text).Clear (c + 1) := by
  intro o d hod hlt
  have hnc := (joins_of_close? hclose).lt
  rcases Nat.lt_trichotomy o n with hon | rfl | hno
  · have hdn := h o d hod hon
    omega
  · obtain rfl : c = d := Option.some.inj (hclose.symm.trans hod)
    exact Nat.lt_succ_self c
  · rcases nested_or_apart_of (by decide) hclose hod hno with hdc | hco <;> omega

theorem close?_eq_none_of_ne {a : Char} {cs : List Char} (ha : a ≠ '(') :
    (parens (front ++ a :: cs)).close? front.length = none := by
  refine Option.eq_none_iff_forall_ne_some.2 fun c hc => ha ?_
  have hopens := (joins_of_close? hc).opens
  simpa using hopens

end Pairs

/-! ## The pass by pairs -/

namespace Remains

open Pairs

variable {ps : Pairs} {s : Remains} {n : Nat}

/-- A character that the pairs keep is added to what the pass leaves. -/
theorem chars_foldl_kept {a : Char} {cs : List Char} (hclear : ps.Clear n)
    (hnone : ps.close? n = none) (hstep : (s.step a).chars = s.chars ++ [a])
    (hrest : (cs.foldl step (s.step a)).chars =
      (s.step a).chars ++ (cs.zipIdx (n + 1)).filterMap ps.keep?) :
    ((a :: cs).foldl step s).chars = s.chars ++ ((a :: cs).zipIdx n).filterMap ps.keep? := by
  rw [List.foldl_cons, hrest, hstep, List.zipIdx_cons,
    List.filterMap_cons_some (hclear.keep? hnone a), List.append_assoc]
  rfl

/-- So is the space for a group. -/
theorem chars_foldl_group {inner behind : List Char} (hclear : ps.Clear n)
    (hinner : level '(' ')' 0 inner = some 0) (hclose : ps.close? n = some (n + 1 + inner.length))
    (hrest : (behind.foldl step (s.add [' '])).chars =
      (s.add [' ']).chars ++ (behind.zipIdx (n + 1 + inner.length + 1)).filterMap ps.keep?) :
    (('(' :: (inner ++ ')' :: behind)).foldl step s).chars =
      s.chars ++ (('(' :: (inner ++ ')' :: behind)).zipIdx n).filterMap ps.keep? := by
  rw [foldl_group hinner, hrest, chars_add, hclear.filterMap_group hclose, List.append_assoc]
  rfl

/-- Where no pair reaches over, and no bracket that waits is closed, the pass adds what the pairs
keep. -/
theorem chars_foldl {text front cs : List Char} {s : Remains} (htext : text = front ++ cs)
    (hclear : (parens text).Clear front.length)
    (hopen : s.waiting = [] ∨ ∃ m, level '(' ')' 0 cs = some m) :
    (cs.foldl step s).chars =
      s.chars ++ (cs.zipIdx front.length).filterMap (parens text).keep? := by
  induction hlen : cs.length using Nat.strongRecOn generalizing front cs s with
  | _ len ih =>
  subst hlen
  cases cs with
  | nil => simp
  | cons a cs =>
    have hkept (hnone : (parens text).close? front.length = none)
        (hstep : (s.step a).chars = s.chars ++ [a])
        (hopen' : (s.step a).waiting = [] ∨ ∃ m, level '(' ')' 0 cs = some m) := by
      have hclear' : (parens text).Clear (front ++ [a]).length := by simpa using hclear.succ hnone
      have hrest := ih cs.length (Nat.lt_succ_self _) (by simp [htext]) hclear' hopen' rfl
      rw [List.length_append, List.length_singleton] at hrest
      exact chars_foldl_kept hclear hnone hstep hrest
    by_cases hparen : a = '('
    · subst hparen
      rcases exists_closer_or_level '(' ')' 0 cs with ⟨inner, behind, rfl, hinner⟩ | ⟨m, hm⟩
      · have hclose : (parens text).close? front.length =
            some (front.length + 1 + inner.length) := by
          rw [htext]
          exact close?_of_level (by decide) hinner
        have hlen : (front ++ '(' :: (inner ++ [')'])).length =
            front.length + 1 + inner.length + 1 := by
          simp only [List.length_append, List.length_cons, List.length_nil]
          omega
        rw [level_group (by decide) hinner] at hopen
        refine chars_foldl_group hclear hinner hclose ?_
        rw [← hlen]
        exact ih behind.length (by simp; omega) (by simp [htext])
          (hlen ▸ hclear.behind hclose) hopen rfl
      · refine hkept ?_ (chars_step_opener s) (Or.inr ⟨m, hm⟩)
        rw [htext]
        exact close?_eq_none_of_level hm
    · have hnone : (parens text).close? front.length = none := by
        rw [htext]
        exact close?_eq_none_of_ne hparen
      by_cases hclose : a = ')'
      · subst hclose
        rcases hopen with hnil | ⟨m, hm⟩
        · rw [step_closer hnil] at hkept
          exact hkept hnone (chars_add ..) (Or.inl hnil)
        · simp [level] at hm
      · rw [level_other hparen hclose] at hopen
        rw [step_other (by simp [isParen, hparen, hclose])] at hkept
        exact hkept hnone (chars_add ..) hopen

/-- The pass leaves what the pairs keep. -/
theorem chars_eq_withoutGroups (text : List Char) :
    (text.foldl step start).chars = withoutGroups text := by
  have hclear : (parens text).Clear ([] : List Char).length :=
    fun o c _ ho => absurd ho (Nat.not_lt_zero o)
  exact (chars_foldl (List.nil_append text).symm hclear (Or.inl rfl)).trans (List.nil_append _)

end Remains

/-- Groups are removed in rounds until a round changes nothing. What is left is the text with a
space for each outermost matched group and with everything else as it was, brackets without a
partner too, and in it no bracket closes behind one that opens. -/
theorem stripGroups_eq_withoutGroups (text : List Char) :
    (∃ n, stripGroups text = stripRound^[n] text ∧
      stripRound (stripRound^[n] text) = stripRound^[n] text ∧
      ∀ k < n, stripRound (stripRound^[k] text) ≠ stripRound^[k] text) ∧
    stripGroups text = withoutGroups text ∧
    ∀ front behind, stripGroups text = front ++ '(' :: behind → ')' ∉ behind := by
  refine ⟨stripGroupsFor_eq_iterate (Nat.le_refl text.length), ?_, fun front behind => ?_⟩
  · rw [stripGroups_eq_chars, Remains.chars_eq_withoutGroups]
  · exact (noFlatGroup_stripGroups text).not_mem

end ContractAudit
