import ContractAudit.Proofs.Text.Partner
import ContractAudit.Proofs.Written.Path
import ContractAudit.Proofs.Written.Pieces
import ContractAudit.Rule.Arguments

/-!
# Arguments and pieces

Two functions split a text at the commas outside its brackets. `splitTopLevel` counts the open
brackets of both kinds; `callArguments` goes from each opening round bracket to its partner and
counts the square brackets only. Where the brackets are properly nested (`ProperlyNested`), the
number of open square brackets is the depth wherever `callArguments` stops, and a comma in a group
that it passes over is never at depth zero; so both find the same pieces (`SplitsAlike`,
`splitsAlike_of_awaitedBehind`). Texts with properly nested brackets and no comma outside them
(`Written.Argument`) are found again when they are written with commas and blanks between them
(`Written.splitTopLevel_arguments`).
-/

namespace ContractAudit

open Cursor Written

/-! ## Properly nested brackets -/

/-- The closing brackets that are awaited behind a character, the next one first, if `stack` are
awaited in front of it. There are none if the character closes a bracket and is not the next one. -/
def awaitedAfter (stack : List Char) (c : Char) : Option (List Char) :=
  if c == '(' then some (')' :: stack)
  else if c == '[' then some (']' :: stack)
  else if isClosing c then
    if stack.head? == some c then some stack.tail else none
  else some stack

/-- The closing brackets that are awaited behind a text. -/
def awaitedBehind (stack cs : List Char) : Option (List Char) :=
  cs.foldlM awaitedAfter stack

/-- Every bracket of the text has its partner in it, and pairs of round and of square brackets do
not cross. -/
def ProperlyNested (cs : List Char) : Prop :=
  awaitedBehind [] cs = some []

instance (cs : List Char) : Decidable (ProperlyNested cs) :=
  inferInstanceAs (Decidable (_ = _))

/-- What a character does to the closing brackets that are awaited. -/
inductive Awaits : List Char → Char → List Char → Prop where
  | round (stack : List Char) : Awaits stack '(' (')' :: stack)
  | square (stack : List Char) : Awaits stack '[' (']' :: stack)
  | closes {c : Char} (hclose : isClosing c) (stack : List Char) : Awaits (c :: stack) c stack
  | other {c : Char} (hopen : isOpening c = false) (hclose : isClosing c = false)
      (stack : List Char) : Awaits stack c stack

section Awaited

variable {stack left cs : List Char} {c : Char}

theorem isOpening_of_isClosing (h : isClosing c) : isOpening c = false := by
  simp only [isClosing, Bool.or_eq_true, beq_iff_eq] at h
  rcases h with rfl | rfl <;> rfl

theorem awaitedAfter_eq_some_iff : awaitedAfter stack c = some left ↔ Awaits stack c left := by
  constructor
  · intro h
    unfold awaitedAfter at h
    split at h
    next hround =>
      obtain rfl := Option.some.inj h
      exact beq_iff_eq.1 hround ▸ .round stack
    next hround =>
      split at h
      next hsquare =>
        obtain rfl := Option.some.inj h
        exact beq_iff_eq.1 hsquare ▸ .square stack
      next hsquare =>
        split at h
        next hclose =>
          split at h
          next hhead =>
            obtain ⟨later, rfl⟩ := List.head?_eq_some_iff.1 (beq_iff_eq.1 hhead)
            obtain rfl : later = left := Option.some.inj h
            exact .closes hclose later
          next => cases h
        next hclose =>
          obtain rfl := Option.some.inj h
          have hopen : isOpening c = false := by simpa [isOpening] using And.intro hround hsquare
          exact .other hopen (by simpa using hclose) stack
  · intro h
    cases h with
    | round => rfl
    | square => rfl
    | closes hclose =>
      have hopen := isOpening_of_isClosing hclose
      simp only [isOpening, Bool.or_eq_false_iff] at hopen
      simp [awaitedAfter, hopen, hclose]
    | other hopen hclose =>
      simp only [isOpening, Bool.or_eq_false_iff] at hopen
      simp [awaitedAfter, hopen, hclose]

theorem awaitedBehind_cons_iff : awaitedBehind stack (c :: cs) = some left ↔
    ∃ next, Awaits stack c next ∧ awaitedBehind next cs = some left := by
  simp only [← awaitedAfter_eq_some_iff]
  exact Option.bind_eq_some_iff

theorem awaitedBehind_append (stack cs ds : List Char) :
    awaitedBehind stack (cs ++ ds) = (awaitedBehind stack cs).bind (awaitedBehind · ds) :=
  List.foldlM_append

/-- A closing bracket that is awaited in front of a text and not behind it stands in the text, and
the brackets `own` that are to come first are closed in front of it. -/
theorem exists_closer_of_awaitedBehind : ∀ {cs : List Char} (own : List Char),
    awaitedBehind (own ++ c :: stack) cs = some [] → ∃ inner behind, cs = inner ++ c :: behind ∧
      awaitedBehind own inner = some [] ∧ awaitedBehind stack behind = some []
  | [], own, h => by simp [awaitedBehind] at h
  | a :: cs, own, h => by
    -- A character that does not close the bracket belongs to the text in front of it.
    have hinside {own' : List Char} (hawaits : Awaits own a own')
        (hrest : awaitedBehind (own' ++ c :: stack) cs = some []) : ∃ inner behind,
          a :: cs = inner ++ c :: behind ∧ awaitedBehind own inner = some [] ∧
            awaitedBehind stack behind = some [] := by
      obtain ⟨inner, behind, rfl, hinner, hbehind⟩ := exists_closer_of_awaitedBehind own' hrest
      exact ⟨a :: inner, behind, rfl, awaitedBehind_cons_iff.2 ⟨own', hawaits, hinner⟩, hbehind⟩
    obtain ⟨next, hawaits, hrest⟩ := awaitedBehind_cons_iff.1 h
    generalize hstack : own ++ c :: stack = waiting at hawaits
    cases hawaits with
    | round =>
      subst hstack
      exact hinside (.round own) hrest
    | square =>
      subst hstack
      exact hinside (.square own) hrest
    | closes hclose =>
      cases own with
      | nil =>
        obtain ⟨rfl, rfl⟩ := List.cons.inj hstack
        exact ⟨[], cs, rfl, rfl, hrest⟩
      | cons b own =>
        obtain ⟨rfl, rfl⟩ := List.cons.inj hstack
        exact hinside (.closes hclose own) hrest
    | other hopen hclose =>
      subst hstack
      exact hinside (.other hopen hclose own) hrest

/-- The depth grows by the number of brackets that are awaited. -/
theorem depthBehind_of_awaitedBehind (h : awaitedBehind stack cs = some left) (depth : Int) :
    depthBehind depth cs + stack.length = depth + left.length := by
  induction cs generalizing stack depth with
  | nil =>
    obtain rfl : stack = left := Option.some.inj h
    rfl
  | cons a cs ih =>
    obtain ⟨next, hawaits, hrest⟩ := awaitedBehind_cons_iff.1 h
    have hstep : depthAfter depth a + stack.length = depth + next.length := by
      cases hawaits with
      | round =>
        show depth + 1 + stack.length = depth + (stack.length + 1 : Nat)
        omega
      | square =>
        show depth + 1 + stack.length = depth + (stack.length + 1 : Nat)
        omega
      | closes hclose stack =>
        rw [depthAfter, if_neg (by simp [isOpening_of_isClosing hclose]), if_pos hclose,
          List.length_cons]
        omega
      | other hopen hclose => simp [depthAfter, hopen, hclose]
    have hbehind : depthBehind (depthAfter depth a) cs + next.length =
        depthAfter depth a + left.length :=
      ih hrest (depthAfter depth a)
    show depthBehind (depthAfter depth a) cs + stack.length = depth + left.length
    omega

/-- The level of the round brackets is the number of those that are awaited. -/
theorem level_of_awaitedBehind (h : awaitedBehind stack cs = some left) :
    level '(' ')' (stack.count ')') cs = some (left.count ')') := by
  induction cs generalizing stack with
  | nil =>
    obtain rfl : stack = left := Option.some.inj h
    rfl
  | cons a cs ih =>
    obtain ⟨next, hawaits, hrest⟩ := awaitedBehind_cons_iff.1 h
    rw [← ih hrest]
    cases hawaits with
    | round => rw [level_opener, List.count_cons_self]
    | square => rw [level_other (by decide) (by decide), List.count_cons_of_ne (by decide)]
    | closes hclose =>
      simp only [isClosing, Bool.or_eq_true, beq_iff_eq] at hclose
      rcases hclose with rfl | rfl
      · rw [List.count_cons_self, level_closer (by decide)]
      · rw [List.count_cons_of_ne (by decide), level_other (by decide) (by decide)]
    | other hopen hclose =>
      simp only [isOpening, isClosing, Bool.or_eq_false_iff, beq_eq_false_iff_ne] at hopen hclose
      rw [level_other hopen.1 hclose.1]

end Awaited

namespace ProperlyNested

variable {cs u v inner front behind text : List Char}

theorem depthBehind_eq (h : ProperlyNested cs) (depth : Int) : depthBehind depth cs = depth := by
  simpa using depthBehind_of_awaitedBehind h depth

/-- Inside the text the depth has grown by the number of brackets that are awaited there. -/
theorem exists_awaitedBehind (h : ProperlyNested (u ++ v)) :
    ∃ left, awaitedBehind [] u = some left ∧
    ∀ depth : Int, depthBehind depth u = depth + left.length := by
  obtain ⟨left, hleft, -⟩ := Option.bind_eq_some_iff.1 ((awaitedBehind_append [] u v).symm.trans h)
  exact ⟨left, hleft, fun depth => by simpa using depthBehind_of_awaitedBehind hleft depth⟩

/-- A round bracket in front of the text is closed behind it. -/
theorem close?_eq (h : ProperlyNested inner)
    (htext : text = front ++ '(' :: (inner ++ ')' :: behind)) :
    (Pairs.parens text).close? front.length = some (front.length + 1 + inner.length) :=
  htext ▸ Pairs.close?_of_level (by decide) (level_of_awaitedBehind h)

end ProperlyNested

/-! ## Steps over a text -/

section Steps

variable {inner : List Char} {c : Char}

/-- Brackets are open at every place of a properly nested text that stands in brackets. -/
theorem topLevelFrom_nested (h : ProperlyNested inner) (depth : Int) (hdepth : 0 < depth)
    (done : List (List Char)) (piece rest : List Char) :
    topLevelFrom ',' done piece depth (inner ++ rest) =
      topLevelFrom ',' done (inner.reverse ++ piece) depth rest := by
  rw [topLevelFrom_append done piece depth rest fun u v huv => ?_, h.depthBehind_eq]
  obtain ⟨left, -, hleft⟩ := ProperlyNested.exists_awaitedBehind (huv ▸ h)
  have hu : depthBehind depth u = depth + left.length := hleft depth
  show depthBehind depth u ≠ 0
  omega

theorem topLevelFrom_group (h : ProperlyNested inner) (depth : Nat) (done : List (List Char))
    (piece rest : List Char) : topLevelFrom ',' done piece depth ('(' :: (inner ++ ')' :: rest)) =
      topLevelFrom ',' done (('(' :: (inner ++ [')'])).reverse ++ piece) depth rest := by
  have hinner := topLevelFrom_nested h (depth + 1) (by omega) done ('(' :: piece) (')' :: rest)
  have hclose : (depth : Int) + 1 - 1 = depth := by omega
  simp [topLevelFrom, depthAfter, isOpening, isClosing, hinner, hclose]

variable {parens : Pairs} {close : Nat} {front : List Char} (hlt : front.length < close)
  (found : List (List Char)) (arg : Cursor) {squares : Int} (fuel : Nat) (rest : List Char)

include hlt

theorem argumentsFrom_group
    (hpartner : parens.close? front.length = some (front.length + 1 + inner.length)) :
    argumentsFrom parens close found arg squares (fuel + 1)
      (between front ('(' :: (inner ++ ')' :: rest))) =
      argumentsFrom parens close found arg squares fuel
        (between (front ++ '(' :: (inner ++ [')'])) rest) := by
  have hplace : (between front ('(' :: (inner ++ ')' :: rest))).offset < close := hlt
  rw [argumentsFrom, if_pos hplace]
  simp only [peek_between, List.head?_cons, offset_between, hpartner, advanceTo_group]

theorem argumentsFrom_comma (hsquares : squares ≤ 0) :
    argumentsFrom parens close found arg squares (fuel + 1) (between front (',' :: rest)) =
      argumentsFrom parens close (arg.textTo (between front (',' :: rest)) :: found)
        (between (front ++ [',']) rest) squares fuel (between (front ++ [',']) rest) := by
  have hplace : (between front (',' :: rest)).offset < close := hlt
  rw [argumentsFrom, if_pos hplace]
  simp only [peek_between, List.head?_cons, advance_one_between, if_pos hsquares]

/-- Outside round brackets the square ones are counted as the depth is. -/
theorem argumentsFrom_keep (hparen : isParen c = false) (hcomma : c = ',' → 0 < squares) :
    argumentsFrom parens close found arg squares (fuel + 1) (between front (c :: rest)) =
      argumentsFrom parens close found arg (depthAfter squares c) fuel
        (between (front ++ [c]) rest) := by
  have hplace : (between front (c :: rest)).offset < close := hlt
  rw [argumentsFrom, if_pos hplace, advance_one_between]
  split
  next hpeek => cases hpeek
  next hpeek =>
    obtain rfl : c = '(' := Option.some.inj hpeek
    cases hparen
  next hpeek =>
    obtain rfl : c = '[' := Option.some.inj hpeek
    rfl
  next hpeek =>
    obtain rfl : c = ']' := Option.some.inj hpeek
    rfl
  next hpeek =>
    obtain rfl : c = ',' := Option.some.inj hpeek
    have hpos := hcomma rfl
    exact if_neg (by omega)
  next _ hopen hclose _ hpeek =>
    obtain rfl := Option.some.inj hpeek
    have hplain : isOpening c = false ∧ isClosing c = false := by
      simp only [isParen, Bool.or_eq_false_iff, beq_eq_false_iff_ne] at hparen
      simpa [isOpening, isClosing, hparen] using And.intro hopen hclose
    rw [depthAfter, if_neg (by simp [hplain]), if_neg (by simp [hplain])]

end Steps

/-! ## The same pieces -/

/-- Both loops find the same pieces in the text up to the offset `close` if `w` is left of it, the
pieces `found` have been found, the next one has begun with `piece`, and `n` square brackets are
open. -/
def SplitsAlike (text behind : List Char) (close fuel n : Nat) (found : List (List Char))
    (before piece w : List Char) : Prop :=
  text = before ++ (piece ++ (w ++ behind)) → close = before.length + piece.length + w.length →
    argumentsFrom (.parens text) close found (between before (piece ++ (w ++ behind))) n fuel
      (between (before ++ piece) (w ++ behind)) = .ok (topLevelFrom ',' found piece.reverse n w)

namespace SplitsAlike

variable {text behind : List Char} {close fuel n : Nat} {found : List (List Char)}
    {before piece w : List Char}

theorem nil : SplitsAlike text behind close (fuel + 1) n found before piece [] := by
  intro _ hclose
  have hplace : ¬ (between (before ++ piece) ([] ++ behind)).offset < close := by simp [hclose]
  have hpiece : close - before.length = piece.length := by simp [hclose]
  rw [argumentsFrom, if_neg hplace, offset_between, rest_between, hpiece, List.take_left,
    topLevelFrom, List.reverse_reverse]
  rfl

/-- The loops are at a place in front of the closing bracket. -/
theorem length_lt {c : Char} (hclose : close = before.length + piece.length + (c :: w).length) :
    (before ++ piece).length < close := by
  rw [hclose, List.length_append, List.length_cons]
  omega

/-- A character that belongs to the piece changes the depth as it changes the number of square
brackets. -/
theorem keep {c : Char} {m : Nat} (hparen : isParen c = false) (hcomma : c = ',' → n ≠ 0)
    (hdepth : depthAfter n c = m)
    (h : SplitsAlike text behind close fuel m found before (piece ++ [c]) w) :
    SplitsAlike text behind close (fuel + 1) n found before piece (c :: w) := by
  intro htext hclose
  have hwidth : close = before.length + (piece ++ [c]).length + w.length := by
    rw [hclose, List.length_append, List.length_singleton, List.length_cons]
    omega
  have hstay : c = ',' → depthAfter n c ≠ 0 := by
    rintro rfl
    exact Int.natCast_ne_zero.2 (hcomma rfl)
  have hpos : c = ',' → 0 < (n : Int) :=
    fun hc => Int.natCast_pos.2 (Nat.pos_of_ne_zero (hcomma hc))
  rw [List.cons_append, argumentsFrom_keep (length_lt hclose) _ _ _ _ hparen hpos,
    topLevelFrom_keep hstay, hdepth]
  simpa using h (by simpa using htext) hwidth

/-- A group in round brackets belongs to the piece as a whole. -/
theorem group {inner : List Char} (hinner : ProperlyNested inner)
    (h : SplitsAlike text behind close fuel n found before (piece ++ '(' :: (inner ++ [')'])) w) :
    SplitsAlike text behind close (fuel + 1) n found before piece ('(' :: (inner ++ ')' :: w)) := by
  intro htext hclose
  have hgroup : text = before ++ piece ++ '(' :: (inner ++ ')' :: (w ++ behind)) := by
    simpa using htext
  have hwidth : close = before.length + (piece ++ '(' :: (inner ++ [')'])).length + w.length := by
    rw [hclose]
    simp only [List.length_append, List.length_cons, List.length_nil]
    omega
  rw [List.cons_append, List.append_assoc, List.cons_append,
    argumentsFrom_group (length_lt hclose) _ _ _ _ (hinner.close?_eq hgroup),
    topLevelFrom_group hinner]
  simpa using h (by simpa using htext) hwidth

/-- A comma outside all brackets ends the piece. -/
theorem comma
    (h : SplitsAlike text behind close fuel 0 (piece :: found) (before ++ piece ++ [',']) [] w) :
    SplitsAlike text behind close (fuel + 1) 0 found before piece (',' :: w) := by
  intro htext hclose
  have hwidth : close = (before ++ piece ++ [',']).length + 0 + w.length := by
    rw [hclose, List.length_append, List.length_append, List.length_singleton, List.length_cons]
    omega
  rw [List.cons_append, argumentsFrom_comma (length_lt hclose) _ _ _ _ (by decide), textTo_between]
  simpa [topLevelFrom, depthAfter, isOpening, isClosing] using h (by simpa using htext) hwidth

end SplitsAlike

/-- The loops agree from any place on at which all open brackets are square ones. -/
theorem splitsAlike_of_awaitedBehind {text behind : List Char} {close : Nat} : ∀ {fuel n : Nat}
    {before piece w : List Char} (found : List (List Char)),
    awaitedBehind (.replicate n ']') w = some [] →
      w.length < fuel → SplitsAlike text behind close fuel n found before piece w
  | 0, _, _, _, _, _, _, hfuel => absurd hfuel (Nat.not_lt_zero _)
  | fuel + 1, n, before, piece, [], found, _, _ => .nil
  | fuel + 1, n, before, piece, c :: w, found, hw, hfuel => by
    rw [List.length_cons] at hfuel
    obtain ⟨next, hawaits, hrest⟩ := awaitedBehind_cons_iff.1 hw
    generalize hstack : List.replicate n ']' = stack at hawaits
    cases hawaits with
    | round =>
      subst hstack
      obtain ⟨inner, rest, rfl, hinner, hrest⟩ := exists_closer_of_awaitedBehind [] hrest
      rw [List.length_append, List.length_cons] at hfuel
      exact .group hinner (splitsAlike_of_awaitedBehind found hrest (by omega))
    | square =>
      subst hstack
      exact .keep (m := n + 1) rfl (by simp) rfl
        (splitsAlike_of_awaitedBehind found hrest (by omega))
    | closes hclosing =>
      cases n with
      | zero => cases hstack
      | succ n =>
        obtain ⟨rfl, rfl⟩ := List.cons.inj hstack
        have hdepth : depthAfter (n + 1 : Nat) ']' = n := by
          show ((n + 1 : Nat) : Int) - 1 = n
          omega
        exact .keep rfl (by simp) hdepth (splitsAlike_of_awaitedBehind found hrest (by omega))
    | other hopen hclosing =>
      subst hstack
      have hdepth : depthAfter n c = n := by simp [depthAfter, hopen, hclosing]
      have hparen : isParen c = false := by
        simp only [isOpening, isClosing, Bool.or_eq_false_iff] at hopen hclosing
        simp [isParen, hopen, hclosing]
      by_cases hends : c = ',' ∧ n = 0
      · obtain ⟨rfl, rfl⟩ := hends
        exact .comma (splitsAlike_of_awaitedBehind (piece :: found) hrest (by omega))
      · exact .keep hparen (fun hcomma hn => hends ⟨hcomma, hn⟩) hdepth
          (splitsAlike_of_awaitedBehind found hrest (by omega))

/-- The arguments between two matched brackets are the pieces of the text between them. -/
theorem argumentsIn_eq_splitTopLevel {text : List Char} {o c : Nat}
    (hpair : (Pairs.parens text).close? o = some c)
    (hnested : ProperlyNested (text.extract (o + 1) c)) :
    argumentsIn text o = .ok (some (splitTopLevel ',' (text.extract (o + 1) c))) := by
  obtain ⟨front, inner, behind, rfl, rfl, rfl, -⟩ := Pairs.exists_group_of_close? (by decide) hpair
  have hinner : (front ++ '(' :: (inner ++ ')' :: behind)).extract (front.length + 1)
      (front.length + 1 + inner.length) = inner := by simp [List.extract_eq_take_drop]
  rw [hinner] at hnested ⊢
  have hfirst : (start (front ++ '(' :: (inner ++ ')' :: behind))).advance (front.length + 1) =
      between (front ++ ['(']) (inner ++ ')' :: behind) := by
    simpa [between_nil] using advance_between (front ++ ['(']) [] (inner ++ ')' :: behind)
  have hargs : argumentsFrom (.parens (front ++ '(' :: (inner ++ ')' :: behind)))
      (front.length + 1 + inner.length)
      [] (between (front ++ ['(']) (inner ++ ')' :: behind)) 0 (inner.length + 1)
      (between (front ++ ['(']) (inner ++ ')' :: behind)) =
        .ok (topLevelFrom ',' [] [] 0 inner) := by
    have h : SplitsAlike (front ++ '(' :: (inner ++ ')' :: behind)) (')' :: behind)
        (front.length + 1 + inner.length) (inner.length + 1) 0 [] (front ++ ['(']) [] inner :=
      splitsAlike_of_awaitedBehind [] hnested (Nat.lt_succ_self _)
    simpa using h (by simp) (by simp)
  rw [argumentsIn, hfirst, callArguments]
  simp only [offset_between, List.length_append, List.length_singleton, Nat.add_sub_cancel, hpair,
    Nat.add_sub_cancel_left, hargs]
  rfl

/-- Brackets that cross are read in two ways. -/
example : (argumentsIn "f((x[y),z])".toList 1).toOption =
    some (some ["(x[y)".toList, "z]".toList]) ∧
    splitTopLevel ',' "(x[y),z]".toList = ["(x[y),z]".toList] := by
  decide

namespace Written

/-- What may stand between two commas. -/
structure Argument where
  chars : List Char
  chars_ne_nil : chars ≠ []
  trim_chars : trim chars = chars
  nested_chars : ProperlyNested chars
  /-- Brackets are open at each comma. -/
  enclosed : ∀ i < chars.length, chars[i]? = some ',' → awaitedBehind [] (chars.take i) ≠ some []

theorem Argument.unsplit_chars (a : Argument) : Unsplit a.chars where
  depth := a.nested_chars.depthBehind_eq 0
  comma u v huv := by
    obtain ⟨left, hawaited, hleft⟩ := ProperlyNested.exists_awaitedBehind (huv ▸ a.nested_chars)
    have hopen := a.enclosed u.length (by simp [huv]) (by simp [huv])
    rw [huv, List.take_left, hawaited] at hopen
    rw [hleft]
    simpa using hopen

/-- Arguments with commas between them, and blanks around each of them, are found again. -/
theorem splitTopLevel_arguments (parts : List (Gap × Argument × Gap)) :
    splitTopLevel ','
      ([','].intercalate (parts.map fun p => p.1.chars ++ (p.2.1.chars ++ p.2.2.chars))) =
      parts.map (·.2.1.chars) := by
  refine splitTopLevel_pieces (fun p _ => ?_) (fun p _ => ?_) (fun p _ => p.2.1.chars_ne_nil)
  · exact p.2.1.unsplit_chars.pad p.1.isBlank_of_mem p.2.2.isBlank_of_mem
  · have htrimmed : Trimmed p.2.1.chars := p.2.1.trim_chars ▸ trimmed_trim p.2.1.chars
    exact htrimmed.trim_append_append p.2.1.chars_ne_nil p.1.isBlank_of_mem p.2.2.isBlank_of_mem

end Written

/-- The arguments of a call are the pieces of the text in its brackets, and what is written between
commas and blanks is found again in the pieces. -/
theorem arguments_eq_pieces :
    (∀ (text : List Char) (o c : Nat), (Pairs.parens text).close? o = some c →
      ProperlyNested (text.extract (o + 1) c) →
        argumentsIn text o = .ok (some (splitTopLevel ',' (text.extract (o + 1) c)))) ∧
    ∀ parts : List (Gap × Argument × Gap),
      splitTopLevel ','
        ([','].intercalate (parts.map fun p => p.1.chars ++ (p.2.1.chars ++ p.2.2.chars))) =
        parts.map (·.2.1.chars) :=
  ⟨fun _ _ _ => argumentsIn_eq_splitTopLevel, splitTopLevel_arguments⟩

/-- A group with a comma in it, and an element with a group in its index. -/
def swapArguments : List (Gap × Argument × Gap) :=
  [(.nothing, ⟨"pool(a, b[1])".toList, by decide, by decide, by decide, by decide⟩, .space),
    (.space, ⟨"fees[f(x, y), 2]".toList, by decide, by decide, by decide, by decide⟩, .nothing)]

/-- A call whose arguments hold commas of their own, inside parentheses and inside brackets. -/
def swapCall : List Char :=
  "swap(pool(a, b[1]) , fees[f(x, y), 2]);".toList

theorem arguments_eq_pieces_swap : (Pairs.parens swapCall).close? 4 = some 37 ∧
    ProperlyNested (swapCall.extract 5 37) ∧
    [','].intercalate (swapArguments.map fun p => p.1.chars ++ (p.2.1.chars ++ p.2.2.chars)) =
      swapCall.extract 5 37 ∧
    splitTopLevel ',' (swapCall.extract 5 37) =
      ["pool(a, b[1])".toList, "fees[f(x, y), 2]".toList] ∧
    argumentsIn swapCall 4 = .ok (some ["pool(a, b[1])".toList, "fees[f(x, y), 2]".toList]) := by
  have hpair : (Pairs.parens swapCall).close? 4 = some 37 := by decide
  have hnested : ProperlyNested (swapCall.extract 5 37) := by decide
  have hwritten :
      [','].intercalate (swapArguments.map fun p => p.1.chars ++ (p.2.1.chars ++ p.2.2.chars)) =
      swapCall.extract 5 37 := by decide
  have hpieces := arguments_eq_pieces.2 swapArguments
  have hargs := arguments_eq_pieces.1 swapCall 4 37 hpair hnested
  rw [hwritten] at hpieces
  rw [hpieces] at hargs
  exact ⟨hpair, hnested, hwritten, hpieces, hargs⟩

end ContractAudit
