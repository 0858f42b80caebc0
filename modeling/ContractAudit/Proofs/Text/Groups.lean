import ContractAudit.Proofs.Text.Balance
import ContractAudit.Proofs.Text.Cut
import Mathlib.Data.List.Induction
import Mathlib.Logic.Function.Iterate

/-!
# Removing groups

The groups of a text are removed in rounds, the innermost ones first. A round makes the text shorter
or finds no group to remove (`length_stripRound_lt_or`), so the rounds come to an end
(`stripGroupsFor_eq_iterate`). What they leave is found in one pass over the text, with the brackets
that wait on a stack (`Remains`). The pass does not tell a group from a space
(`Remains.foldl_group`), so a round makes no difference for it, and it leaves a text in which no
bracket is closed as it is (`Remains.chars_of_unclosed`). So the pass and the rounds leave the same
text (`stripGroups_eq_chars`).
-/

namespace ContractAudit

open Pattern Cursor

/-! ## Groups without brackets inside -/

section Flat

variable {front text inner : List Char}

theorem level_of_flat (h : ∀ a ∈ inner, isParen a = false) : level '(' ')' 0 inner = some 0 :=
  level_of_not_mem (fun hmem => absurd (h _ hmem) (by decide))
    (fun hmem => absurd (h _ hmem) (by decide)) 0

theorem opens_flatGroup : flatGroup.Opens (· == '(') :=
  ((opens_text (a := '(') rfl rfl).append _).append _

theorem exists_of_reads_flatGroup {ps qs : Parts} {d : Cursor}
    (h : flatGroup.Reads (between front text) ps d qs) :
    ∃ inner r, text = '(' :: (inner ++ ')' :: r) ∧ (∀ a ∈ inner, isParen a = false) ∧
      d = between (front ++ '(' :: (inner ++ [')'])) r := by
  obtain ⟨_, _, ⟨_, _, hopen, hinside⟩, hclose⟩ := h
  obtain ⟨r, rfl, rfl, rfl⟩ := (reads_symbol_iff (a := '(') rfl).1 hopen
  obtain ⟨inner, r, rfl, hinner, rfl, rfl⟩ := reads_stretch_iff.1 hinside
  obtain ⟨r, rfl, rfl, -⟩ := (reads_symbol_iff (a := ')') rfl).1 hclose
  exact ⟨inner, r, rfl, fun a ha => by simpa using hinner a ha, by simp⟩

theorem takes_flatGroup (hinner : ∀ a ∈ inner, isParen a = false) (front r : List Char) :
    flatGroup.Takes (between front ('(' :: (inner ++ ')' :: r))) []
      (between (front ++ ['('] ++ inner ++ [')']) r) [] := by
  have hinside : (stretch (!isParen ·)).Takes (between (front ++ ['(']) (inner ++ ')' :: r)) []
      (between (front ++ ['('] ++ inner) (')' :: r)) [] :=
    takes_stretch (fun a ha => by simp [hinner a ha]) rfl _ []
  exact ((takes_symbol rfl front _ []).append hinside).append (takes_symbol rfl _ r [])

end Flat

/-! ## Rounds -/

section Rounds

variable {text : List Char}

/-- The text from a place on with each flat group replaced by a space. -/
def flattened (front text : List Char) : List Char :=
  flatGroup.replaced [' '] (between front text)

/-- In a round the first flat group becomes a space, and the text behind it goes through the same
round. -/
theorem flattened_cases (front text : List Char) :
    (flatGroup.find? (between front text) = none ∧ flattened front text = text) ∨
      ∃ u inner r, text = u ++ '(' :: (inner ++ ')' :: r) ∧ (∀ a ∈ inner, isParen a = false) ∧
        flattened front text = u ++ ' ' :: flattened (front ++ u ++ '(' :: (inner ++ [')'])) r := by
  cases hfind : flatGroup.find? (between front text) with
  | none => exact Or.inl ⟨rfl, replaced_of_find?_eq_none hfind⟩
  | some h =>
    obtain ⟨hstart, hle, hreads⟩ := reads_of_find? (in_between front text) hfind
    obtain ⟨u, rest, rfl, hu⟩ := exists_between hstart hle
    rw [hu] at hreads
    obtain ⟨inner, r, rfl, hinner, hstop⟩ := exists_of_reads_flatGroup hreads
    refine Or.inr ⟨u, inner, r, rfl, hinner, ?_⟩
    rw [flattened, opens_flatGroup.replaced_of_find? (in_between ..) hfind, hu, hstop,
      textTo_between]
    rfl

/-- What is kept by replacing one flat group is kept by a round. -/
theorem flattened_induction {P : List Char → List Char → Prop} (same : ∀ text, P text text)
    (replace : ∀ {u inner r r' : List Char}, (∀ a ∈ inner, isParen a = false) → P r r' →
      P (u ++ '(' :: (inner ++ ')' :: r)) (u ++ ' ' :: r')) (front text : List Char) :
    P text (flattened front text) := by
  induction hlen : text.length using Nat.strongRecOn generalizing text front with
  | _ len ih =>
  subst hlen
  rcases flattened_cases front text with ⟨-, hsame⟩ | ⟨u, inner, r, rfl, hinner, hround⟩
  · rw [hsame]
    exact same text
  · rw [hround]
    exact replace hinner (ih r.length (by simp; omega) _ r rfl)

theorem length_flattened_le (front text : List Char) :
    (flattened front text).length ≤ text.length := by
  refine flattened_induction (P := fun text text' => text'.length ≤ text.length)
    (fun _ => Nat.le_refl _) (fun _ hle => ?_) front text
  simp only [List.length_append, List.length_cons]
  omega

/-- One round : the groups without brackets inside become spaces. -/
def stripRound (text : List Char) : List Char :=
  flatGroup.replaceIn [' '] text

/-- There is no group without brackets inside. -/
def NoFlatGroup (text : List Char) : Prop :=
  ∀ u inner r, text = u ++ '(' :: (inner ++ ')' :: r) → ¬ ∀ a ∈ inner, isParen a = false

/-- A round makes a text shorter, or there is nothing left to remove. -/
theorem length_stripRound_lt_or (text : List Char) :
    (stripRound text).length < text.length ∨ stripRound text = text ∧ NoFlatGroup text := by
  have hstart : stripRound text = flattened [] text := rfl
  rw [hstart]
  rcases flattened_cases [] text with ⟨hnone, hsame⟩ | ⟨u, inner, r, rfl, hinner, hround⟩
  · refine Or.inr ⟨hsame, ?_⟩
    rintro u inner r rfl hinner
    have hsome := isSome_findIn?_of_reads (takes_flatGroup hinner u r).reads
    rw [findIn?, ← between_nil, hnone] at hsome
    simp at hsome
  · have hle := length_flattened_le ([] ++ u ++ '(' :: (inner ++ [')'])) r
    rw [hround]
    simp only [List.length_append, List.length_cons]
    omega

/-- The rounds end at the first text that a round does not change. -/
theorem stripGroupsFor_eq_iterate : ∀ {fuel : Nat} {text : List Char}, text.length ≤ fuel →
    ∃ n, stripGroupsFor fuel text = stripRound^[n] text ∧
      stripRound (stripRound^[n] text) = stripRound^[n] text ∧
      ∀ k < n, stripRound (stripRound^[k] text) ≠ stripRound^[k] text
  | 0, text, hfuel => by
    obtain rfl : text = [] := List.length_eq_zero_iff.1 (Nat.le_zero.1 hfuel)
    exact ⟨0, rfl, rfl, fun k hk => absurd hk (Nat.not_lt_zero k)⟩
  | fuel + 1, text, hfuel => by
    have hloop : stripGroupsFor (fuel + 1) text =
        if stripRound text == text then text else stripGroupsFor fuel (stripRound text) := rfl
    rw [hloop]
    by_cases hsame : stripRound text = text
    · rw [if_pos (beq_iff_eq.2 hsame)]
      exact ⟨0, rfl, hsame, fun k hk => absurd hk (Nat.not_lt_zero k)⟩
    · have hlt : (stripRound text).length < text.length :=
        (length_stripRound_lt_or text).resolve_right fun h => hsame h.1
      have hfuel' : (stripRound text).length ≤ fuel := by omega
      obtain ⟨n, hn, hfix, hfirst⟩ := stripGroupsFor_eq_iterate hfuel'
      rw [if_neg (by simpa using hsame)]
      refine ⟨n + 1, hn, hfix, fun k hk => ?_⟩
      cases k with
      | zero => exact hsame
      | succ k => exact hfirst k (by omega)

/-- Without flat groups no bracket is closed behind one that opens. -/
theorem NoFlatGroup.not_mem (h : NoFlatGroup text) {front behind : List Char}
    (htext : text = front ++ '(' :: behind) : ')' ∉ behind := by
  intro hmem
  obtain ⟨w, r, rfl, hw⟩ := List.eq_append_cons_of_mem hmem
  clear hmem
  -- Up to the first bracket that closes, the last one that opens begins a flat group.
  induction hlen : w.length using Nat.strongRecOn generalizing front w with
  | _ n ih =>
  subst hlen
  by_cases hopen : '(' ∈ w
  · obtain ⟨u, v, rfl, -⟩ := List.eq_append_cons_of_mem hopen
    have htext' : text = (front ++ '(' :: u) ++ '(' :: (v ++ ')' :: r) := by simp [htext]
    exact ih v.length (by simp; omega) v (fun hv => hw (by simp [hv])) htext' rfl
  · refine h front w r htext fun a ha => ?_
    have hne : a ≠ '(' ∧ a ≠ ')' := ⟨fun heq => hopen (heq ▸ ha), fun heq => hw (heq ▸ ha)⟩
    simp [isParen, hne]

end Rounds

/-! ## One pass -/

/-- What a pass over a text leaves : the text behind the latest bracket that waits, and in front of
each one that waits the text from the one before it, the latest first. -/
structure Remains where
  waiting : List (List Char)
  last : List Char

namespace Remains

variable {s : Remains} {a : Char} {u inner : List Char}

/-- What is kept of the empty text. -/
def start : Remains :=
  ⟨[], []⟩

/-- What is kept once more text is read that opens and closes nothing. -/
def add (s : Remains) (u : List Char) : Remains :=
  ⟨s.waiting, s.last ++ u⟩

/-- A bracket that closes the latest one that waits leaves a space for the group. -/
def step (s : Remains) (a : Char) : Remains :=
  if a == '(' then ⟨s.last :: s.waiting, []⟩
  else if a == ')' then
    match s.waiting with
    | [] => s.add [')']
    | front :: waiting => ⟨waiting, front ++ [' ']⟩
  else s.add [a]

/-- The text that is left. -/
def chars (s : Remains) : List Char :=
  s.waiting.foldl (fun t front => front ++ '(' :: t) s.last

theorem chars_add (s : Remains) (u : List Char) : (s.add u).chars = s.chars ++ u := by
  obtain ⟨waiting, last⟩ := s
  unfold chars add
  induction waiting generalizing last with
  | nil => rfl
  | cons front waiting ih =>
    rw [List.foldl_cons, List.foldl_cons, ← ih]
    simp

theorem step_opener (s : Remains) : s.step '(' = ⟨s.last :: s.waiting, []⟩ := by
  simp [step]

theorem step_closer (h : s.waiting = []) : s.step ')' = s.add [')'] := by
  simp [step, h]

theorem step_other (ha : isParen a = false) : s.step a = s.add [a] := by
  simp only [isParen, Bool.or_eq_false_iff] at ha
  simp [step, ha]

theorem chars_step_opener (s : Remains) : (s.step '(').chars = s.chars ++ ['('] := by
  rw [step_opener, ← chars_add]
  rfl

theorem foldl_flat (h : ∀ a ∈ u, isParen a = false) (s : Remains) : u.foldl step s = s.add u := by
  induction u generalizing s with
  | nil => simp [add]
  | cons a u ih =>
    obtain ⟨ha, hu⟩ := List.forall_mem_cons.1 h
    rw [List.foldl_cons, step_other ha, ih hu]
    simp [add]

/-- A text with a level leaves what waits in front of it. -/
theorem exists_foldl_of_level :
    ∀ {cs : List Char} {own waiting : List (List Char)} {last : List Char} {m : Nat},
    level '(' ')' own.length cs = some m → ∃ own' last', own'.length = m ∧
      cs.foldl step ⟨own ++ waiting, last⟩ = ⟨own' ++ waiting, last'⟩
  | [], own, waiting, last, m, h => ⟨own, last, Option.some.inj h, rfl⟩
  | c :: cs, own, waiting, last, m, h => by
    rw [List.foldl_cons]
    by_cases hopen : c = '('
    · subst hopen
      rw [level_opener] at h
      have hown : level '(' ')' (last :: own).length cs = some m := h
      exact exists_foldl_of_level hown
    by_cases hclose : c = ')'
    · subst hclose
      cases own with
      | nil => simp [level] at h
      | cons front own =>
        rw [List.length_cons, level_closer (by decide)] at h
        exact exists_foldl_of_level h
    · rw [level_other hopen hclose] at h
      rw [step_other (by simp [isParen, hopen, hclose])]
      exact exists_foldl_of_level h

/-- A group is passed like a space. -/
theorem foldl_group (h : level '(' ')' 0 inner = some 0) (s : Remains) (rest : List Char) :
    ('(' :: (inner ++ ')' :: rest)).foldl step s = rest.foldl step (s.add [' ']) := by
  have hrun : ∃ own last, own.length = 0 ∧
      inner.foldl step ⟨[] ++ s.last :: s.waiting, []⟩ = ⟨own ++ s.last :: s.waiting, last⟩ :=
    exists_foldl_of_level h
  obtain ⟨own, last, hown, hinner⟩ := hrun
  obtain rfl : own = [] := List.length_eq_zero_iff.1 hown
  rw [List.nil_append] at hinner
  rw [List.foldl_cons, List.foldl_append, step_opener, hinner]
  rfl

/-- So a round makes no difference for the pass. -/
theorem foldl_stripRound (text : List Char) (s : Remains) :
    (stripRound text).foldl step s = text.foldl step s := by
  refine flattened_induction (P := fun text text' => ∀ s, text'.foldl step s = text.foldl step s)
    (fun _ _ => rfl) (fun hinner hrest s => ?_) [] text s
  rw [List.foldl_append, List.foldl_append, foldl_group (level_of_flat hinner), List.foldl_cons,
    step_other (by decide)]
  exact hrest _

theorem foldl_iterate (n : Nat) (text : List Char) (s : Remains) :
    (stripRound^[n] text).foldl step s = text.foldl step s := by
  induction n generalizing text with
  | zero => rfl
  | succ n ih => rw [Function.iterate_succ_apply, ih, foldl_stripRound]

/-- A text in which no bracket is closed is left as it is. -/
theorem chars_of_unclosed {text : List Char}
    (h : ∀ front behind, text = front ++ '(' :: behind → ')' ∉ behind) :
    (text.foldl step start).chars = text ∧ ('(' ∉ text → (text.foldl step start).waiting = []) := by
  induction text using List.reverseRecOn with
  | nil => exact ⟨rfl, fun _ => rfl⟩
  | append_singleton text a ih =>
    have hpart : ∀ front behind, text = front ++ '(' :: behind → ')' ∉ behind := by
      rintro front behind rfl hmem
      exact h front (behind ++ [a]) (by simp) (by simp [hmem])
    obtain ⟨hchars, hwaiting⟩ := ih hpart
    rw [List.foldl_append, List.foldl_cons, List.foldl_nil]
    by_cases hopen : a = '('
    · subst hopen
      exact ⟨by rw [chars_step_opener, hchars], fun hnot => absurd (by simp) hnot⟩
    have hstep : (text.foldl step start).step a = (text.foldl step start).add [a] := by
      by_cases hclose : a = ')'
      · subst hclose
        refine step_closer (hwaiting fun hmem => ?_)
        obtain ⟨front, behind, rfl, -⟩ := List.eq_append_cons_of_mem hmem
        exact h front (behind ++ [')']) (by simp) (by simp)
      · exact step_other (by simp [isParen, hopen, hclose])
    rw [hstep, chars_add, hchars]
    exact ⟨rfl, fun hnot => hwaiting fun hmem => hnot (by simp [hmem])⟩

end Remains

/-- What is left once the rounds are over has no group without brackets inside. -/
theorem noFlatGroup_stripGroups (text : List Char) : NoFlatGroup (stripGroups text) := by
  obtain ⟨n, hn, hfix, -⟩ := stripGroupsFor_eq_iterate (Nat.le_refl text.length)
  refine ((length_stripRound_lt_or _).resolve_left ?_).2
  rw [stripGroups, hn, hfix]
  exact Nat.lt_irrefl _

/-- The rounds leave what the pass leaves. -/
theorem stripGroups_eq_chars (text : List Char) :
    stripGroups text = (text.foldl Remains.step .start).chars := by
  obtain ⟨n, hn, -⟩ := stripGroupsFor_eq_iterate (Nat.le_refl text.length)
  have hunclosed (front behind : List Char) (h : stripGroups text = front ++ '(' :: behind) :
      ')' ∉ behind :=
    (noFlatGroup_stripGroups text).not_mem h
  calc stripGroups text
      = ((stripGroups text).foldl Remains.step .start).chars :=
        (Remains.chars_of_unclosed hunclosed).1.symm
    _ = (text.foldl Remains.step .start).chars := by rw [stripGroups, hn, Remains.foldl_iterate]

end ContractAudit
