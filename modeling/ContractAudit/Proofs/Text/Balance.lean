import ContractAudit.Proofs.Text.Nesting
import ContractAudit.Proofs.Text.Match

/-!
# Balanced texts

`level` counts the brackets of one kind that are open behind a text. Where the text behind an
opening bracket comes back to the level at which it began, the bracket is closed by the one that
brings it there (`Pairs.close?_of_level`), whatever stands before and behind; where it never falls
below, the bracket stays open (`Pairs.close?_eq_none_of_level`). A text with balanced round brackets
is a sequence of groups and of characters outside them (`Grouped`).
-/

namespace ContractAudit

/-- The number of brackets that are open behind a text, with `n` open in front of it. There is none
if the text closes a bracket that is not open. -/
def level (opener closer : Char) : Nat → List Char → Option Nat
  | n, [] => some n
  | n, c :: cs =>
    if c == opener then level opener closer (n + 1) cs
    else if c == closer then
      match n with
      | 0 => none
      | n + 1 => level opener closer n cs
    else level opener closer n cs

section Level

variable {opener closer : Char}

theorem level_opener (n : Nat) (cs : List Char) :
    level opener closer n (opener :: cs) = level opener closer (n + 1) cs := by
  simp [level]

theorem level_closer (hne : opener ≠ closer) (n : Nat) (cs : List Char) :
    level opener closer (n + 1) (closer :: cs) = level opener closer n cs := by
  simp [level, hne.symm]

theorem level_other {a : Char} (hopen : a ≠ opener) (hclose : a ≠ closer) (n : Nat)
    (cs : List Char) : level opener closer n (a :: cs) = level opener closer n cs := by
  simp [level, hopen, hclose]

theorem level_append : ∀ (cs ds : List Char) (n : Nat),
    level opener closer n (cs ++ ds) = (level opener closer n cs).bind (level opener closer · ds)
  | [], _, _ => rfl
  | c :: cs, ds, n => by
    simp only [List.cons_append, level]
    split
    · exact level_append cs ds (n + 1)
    · split
      · cases n with
        | zero => rfl
        | succ n => exact level_append cs ds n
      · exact level_append cs ds n

/-- More brackets that are open in front stay open. -/
theorem level_add (k : Nat) : ∀ {cs : List Char} {n m : Nat}, level opener closer n cs = some m →
    level opener closer (n + k) cs = some (m + k)
  | [], n, m, h => by
    obtain rfl : n = m := Option.some.inj h
    rfl
  | c :: cs, n, m, h => by
    unfold level at h ⊢
    split
    next hopen =>
      rw [if_pos hopen] at h
      rw [Nat.add_right_comm]
      exact level_add k h
    next hopen =>
      rw [if_neg hopen] at h
      split
      next hclose =>
        rw [if_pos hclose] at h
        cases n with
        | zero => simp at h
        | succ n =>
          have hn : n + 1 + k = n + k + 1 := Nat.add_right_comm ..
          simp only [hn]
          exact level_add k h
      next hclose =>
        rw [if_neg hclose] at h
        exact level_add k h

variable {cs : List Char}

/-- A balanced text. -/
theorem level_of_balanced (h : level opener closer 0 cs = some 0) (n : Nat) :
    level opener closer n cs = some n := by
  simpa using level_add n h

theorem level_append_balanced (h : level opener closer 0 cs = some 0) (n : Nat) (ds : List Char) :
    level opener closer n (cs ++ ds) = level opener closer n ds := by
  rw [level_append, level_of_balanced h n, Option.bind_some]

theorem level_of_not_mem : ∀ {cs : List Char}, opener ∉ cs → closer ∉ cs → ∀ n : Nat,
    level opener closer n cs = some n
  | [], _, _, _ => rfl
  | c :: cs, hopen, hclose, n => by
    rw [level_other (List.ne_of_not_mem_cons hopen).symm (List.ne_of_not_mem_cons hclose).symm]
    exact level_of_not_mem (List.not_mem_of_not_mem_cons hopen)
      (List.not_mem_of_not_mem_cons hclose) n

/-- A group around a balanced text is balanced. -/
theorem level_group (hne : opener ≠ closer) (h : level opener closer 0 cs = some 0) (n : Nat)
    (ds : List Char) :
    level opener closer n (opener :: (cs ++ closer :: ds)) = level opener closer n ds := by
  rw [level_opener, level_append_balanced h, level_closer hne]

/-- The bracket that is open in front of a text is closed in it if none is open behind it. -/
theorem exists_closer_of_level (hne : opener ≠ closer) : ∀ {cs : List Char} {n : Nat},
    level opener closer (n + 1) cs = some 0 → ∃ inner behind, cs = inner ++ closer :: behind ∧
      level opener closer 0 inner = some 0 ∧ level opener closer n behind = some 0
  | cs, n, h => by
    induction hlen : cs.length using Nat.strongRecOn generalizing cs n with
    | _ len ih =>
    cases cs with
    | nil => simp [level] at h
    | cons c cs =>
      subst hlen
      by_cases hopen : c = opener
      · subst hopen
        rw [level_opener] at h
        -- A group opens first : it is closed, and what is looked for comes behind it.
        obtain ⟨inner, behind, rfl, hinner, hbehind⟩ := ih cs.length (Nat.lt_succ_self _) cs _ h rfl
        obtain ⟨inner', behind', rfl, hinner', hbehind'⟩ :=
          ih behind.length (by simp; omega) behind n hbehind rfl
        refine ⟨c :: (inner ++ closer :: inner'), behind', by simp, ?_, hbehind'⟩
        rw [level_group hne hinner, hinner']
      · by_cases hclose : c = closer
        · subst hclose
          rw [level_closer hne] at h
          exact ⟨[], cs, rfl, rfl, h⟩
        · rw [level_other hopen hclose] at h
          obtain ⟨inner, behind, rfl, hinner, hbehind⟩ :=
            ih cs.length (Nat.lt_succ_self _) cs _ h rfl
          refine ⟨c :: inner, behind, rfl, ?_, hbehind⟩
          rw [level_other hopen hclose, hinner]

end Level

/-! ## Partners of brackets -/

namespace Pairs

variable {opener closer : Char}

theorem pairFrom_opener (i : Nat) (stack : List Nat) (done : Array (Option Nat)) (cs : List Char) :
    pairFrom opener closer i stack done (opener :: cs) =
      pairFrom opener closer (i + 1) (i :: stack) done cs := by
  simp [pairFrom]

theorem pairFrom_closer (hne : opener ≠ closer) (i o : Nat) (stack : List Nat)
    (done : Array (Option Nat)) (cs : List Char) :
    pairFrom opener closer i (o :: stack) done (closer :: cs) =
      pairFrom opener closer (i + 1) stack (done.setIfInBounds o (some i)) cs := by
  simp [pairFrom, hne.symm]

/-- A bracket that is not waiting keeps its partner. -/
theorem getElem?_pairFrom {j : Nat} : ∀ (cs : List Char) {i : Nat} {stack : List Nat}
    {done : Array (Option Nat)}, j < i → j ∉ stack →
      (pairFrom opener closer i stack done cs)[j]? = done[j]?
  | [], _, _, _, _, _ => rfl
  | c :: cs, i, stack, done, hj, hstack => by
    unfold pairFrom
    split
    · refine getElem?_pairFrom cs (Nat.lt_succ_of_lt hj) fun hmem => ?_
      rcases List.mem_cons.1 hmem with rfl | hmem
      · exact Nat.lt_irrefl _ hj
      · exact hstack hmem
    · split
      · cases stack with
        | nil => exact getElem?_pairFrom cs (Nat.lt_succ_of_lt hj) hstack
        | cons o stack =>
          have hne : o ≠ j := fun h => hstack (h ▸ List.mem_cons_self)
          refine (getElem?_pairFrom cs (Nat.lt_succ_of_lt hj) fun hmem => ?_).trans (by simp [hne])
          exact hstack (List.mem_cons_of_mem o hmem)
      · exact getElem?_pairFrom cs (Nat.lt_succ_of_lt hj) hstack

/-- What the run over a text does : the brackets of it that wait lie in it, and the entries behind
it are as they were. -/
theorem exists_pairFrom_append (opener closer : Char) :
    ∀ (cs : List Char) (i : Nat) (stack : List Nat)
    (done : Array (Option Nat)), (∀ o ∈ stack, o < i) → ∃ stack' done',
      (∀ ds, pairFrom opener closer i stack done (cs ++ ds) =
        pairFrom opener closer (i + cs.length) stack' done' ds) ∧
      (∀ o ∈ stack', o < i + cs.length) ∧ ∀ j, i + cs.length ≤ j → done'[j]? = done[j]?
  | [], i, stack, done, hstack => ⟨stack, done, fun _ => rfl, hstack, fun _ _ => rfl⟩
  | c :: cs, i, stack, done, hstack => by
    have hlen : i + (c :: cs).length = i + 1 + cs.length := by rw [List.length_cons]; omega
    have hkeep : ∀ o ∈ stack, o < i + 1 := fun o ho => Nat.lt_succ_of_lt (hstack o ho)
    rw [hlen]
    simp only [List.cons_append, pairFrom]
    split
    · refine exists_pairFrom_append opener closer cs (i + 1) (i :: stack) done fun o ho => ?_
      rcases List.mem_cons.1 ho with rfl | ho
      · exact Nat.lt_succ_self o
      · exact hkeep o ho
    · split
      · cases stack with
        | nil => exact exists_pairFrom_append opener closer cs (i + 1) [] done hkeep
        | cons o stack =>
          obtain ⟨stack', done', hrun, hstack', hdone⟩ :=
            exists_pairFrom_append opener closer cs (i + 1) stack (done.setIfInBounds o (some i))
              fun p hp => hkeep p (List.mem_cons_of_mem o hp)
          have ho : o < i := hstack o List.mem_cons_self
          refine ⟨stack', done', hrun, hstack', fun j hj => ?_⟩
          rw [hdone j hj, Array.getElem?_setIfInBounds_ne (by omega)]
      · exact exists_pairFrom_append opener closer cs (i + 1) stack done hkeep

/-- A text at a known level leaves the brackets that wait in front of it waiting. -/
theorem exists_pairFrom_level (stack : List Nat) : ∀ (cs : List Char) (i : Nat) (own : List Nat)
    (done : Array (Option Nat)) {m : Nat}, level opener closer own.length cs = some m →
      ∃ own' done', own'.length = m ∧
        (∀ ds, pairFrom opener closer i (own ++ stack) done (cs ++ ds) =
          pairFrom opener closer (i + cs.length) (own' ++ stack) done' ds) ∧
        ∀ j, j < i → j ∉ own → done'[j]? = done[j]?
  | [], i, own, done, m, h => ⟨own, done, Option.some.inj h, fun _ => rfl, fun _ _ _ => rfl⟩
  | c :: cs, i, own, done, m, h => by
    have hlen : i + (c :: cs).length = i + 1 + cs.length := by rw [List.length_cons]; omega
    rw [hlen]
    simp only [List.cons_append, pairFrom]
    unfold level at h
    by_cases hopen : c == opener
    · simp only [hopen, if_true] at h ⊢
      obtain ⟨own', done', hm, hrun, hdone⟩ :=
        exists_pairFrom_level stack cs (i + 1) (i :: own) done h
      refine ⟨own', done', hm, hrun, fun j hj hjown => hdone j (Nat.lt_succ_of_lt hj) ?_⟩
      exact List.not_mem_cons_of_ne_of_not_mem (Nat.ne_of_lt hj) hjown
    · simp only [hopen] at h ⊢
      by_cases hclose : c == closer
      · simp only [hclose, if_true] at h ⊢
        cases own with
        | nil => simp at h
        | cons o own =>
          obtain ⟨own', done', hm, hrun, hdone⟩ :=
            exists_pairFrom_level stack cs (i + 1) own (done.setIfInBounds o (some i)) h
          refine ⟨own', done', hm, hrun, fun j hj hjown => ?_⟩
          have hjo : o ≠ j := (List.ne_of_not_mem_cons hjown).symm
          rw [hdone j (Nat.lt_succ_of_lt hj) (List.not_mem_of_not_mem_cons hjown),
            Array.getElem?_setIfInBounds_ne hjo]
      · simp only [hclose] at h ⊢
        obtain ⟨own', done', hm, hrun, hdone⟩ := exists_pairFrom_level stack cs (i + 1) own done h
        exact ⟨own', done', hm, hrun, fun j hj => hdone j (Nat.lt_succ_of_lt hj)⟩

variable {front inner behind : List Char}

/-- What the run has found in front of an opening bracket, which then waits. -/
theorem exists_pairFrom_opener (opener closer : Char) (front behind : List Char) :
    ∃ stack done, of opener closer (front ++ opener :: behind) =
        ⟨pairFrom opener closer (front.length + 1) (front.length :: stack) done behind⟩ ∧
      (∀ o ∈ stack, o < front.length) ∧ done[front.length]? = some none := by
  obtain ⟨stack, done, hfront, hstack, hdone⟩ :=
    exists_pairFrom_append opener closer front 0 []
      (Array.replicate (front ++ opener :: behind).length none) (by simp)
  rw [Nat.zero_add] at hfront hstack hdone
  refine ⟨stack, done, ?_, hstack, ?_⟩
  · rw [of, hfront, pairFrom_opener]
  · rw [hdone _ (Nat.le_refl _)]
    simp

/-- An opening bracket is closed behind a balanced text. -/
theorem close?_of_level (hne : opener ≠ closer) (h : level opener closer 0 inner = some 0) :
    (of opener closer (front ++ opener :: (inner ++ closer :: behind))).close? front.length =
      some (front.length + 1 + inner.length) := by
  obtain ⟨stack, done, hof, hstack, hnone⟩ :=
    exists_pairFrom_opener opener closer front (inner ++ closer :: behind)
  obtain ⟨own, done', hlen, hinner, hdone⟩ :=
    exists_pairFrom_level (front.length :: stack) inner (front.length + 1) [] done h
  obtain rfl : own = [] := List.length_eq_zero_iff.1 hlen
  have hnone' : done'[front.length]? = some none := by
    rw [hdone _ (Nat.lt_succ_self _) (by simp), hnone]
  have hlt : front.length < done'.size := (Array.getElem?_eq_some_iff.1 hnone').1
  have hbelow : front.length ∉ stack := fun hmem => Nat.lt_irrefl _ (hstack _ hmem)
  rw [hof, close?_eq_some_iff]
  rw [List.nil_append] at hinner
  rw [hinner, pairFrom_closer hne, getElem?_pairFrom _ (by omega) hbelow]
  simp [hlt]

/-- An opening bracket is not closed in a text that closes no bracket opened in front of it. -/
theorem close?_eq_none_of_level {m : Nat} (h : level opener closer 0 behind = some m) :
    (of opener closer (front ++ opener :: behind)).close? front.length = none := by
  obtain ⟨stack, done, hof, hstack, hnone⟩ := exists_pairFrom_opener opener closer front behind
  obtain ⟨own, done', -, hbehind, hdone⟩ :=
    exists_pairFrom_level (front.length :: stack) behind (front.length + 1) [] done h
  have hrun := hbehind []
  rw [List.append_nil, List.nil_append] at hrun
  rw [hof, close?, hrun, pairFrom, hdone _ (Nat.lt_succ_self _) (by simp), hnone]
  rfl

end Pairs

/-! ## Groups -/

/-- Characters of a class, and groups in round brackets. -/
inductive Grouped (ok : Char → Bool) : List Char → Prop where
  | nil : Grouped ok []
  | char {a : Char} {cs : List Char} (ha : ok a) (hparen : isParen a = false) :
    Grouped ok cs → Grouped ok (a :: cs)
  | group {inner cs : List Char} (hinner : level '(' ')' 0 inner = some 0) :
    Grouped ok cs → Grouped ok ('(' :: (inner ++ ')' :: cs))

/-- A balanced text consists of groups, and of characters outside them. -/
theorem grouped_of_level {ok : Char → Bool} : ∀ {cs : List Char}, level '(' ')' 0 cs = some 0 →
    (∀ a ∈ cs, isParen a = false → ok a) → Grouped ok cs
  | cs, h, hok => by
    induction hlen : cs.length using Nat.strongRecOn generalizing cs with
    | _ len ih =>
    cases cs with
    | nil => exact .nil
    | cons c cs =>
      subst hlen
      by_cases hopen : c = '('
      · subst hopen
        rw [level_opener] at h
        obtain ⟨inner, behind, rfl, hinner, hbehind⟩ := exists_closer_of_level (by decide) h
        refine .group hinner (ih behind.length (by simp; omega) behind hbehind (fun a ha => ?_) rfl)
        exact hok a (by simp [ha])
      · by_cases hclose : c = ')'
        · subst hclose
          simp [level] at h
        · rw [level_other hopen hclose] at h
          have hparen : isParen c = false := by simp [isParen, hopen, hclose]
          refine .char (hok c List.mem_cons_self hparen) hparen
            (ih cs.length (Nat.lt_succ_self _) cs h (fun a ha => ?_) rfl)
          exact hok a (List.mem_cons_of_mem c ha)

open Cursor in
/-- A loop that passes over each character and over each group in a round passes over the text. -/
theorem Grouped.glides {β : Type} {f : Nat → Cursor → β} {ok : Char → Bool} {text : List Char}
    {limit : Nat}
    (hchar : ∀ front a rest, text = front ++ a :: rest → front.length < limit → ok a →
      isParen a = false →
        ∀ fuel, f (fuel + 1) (between front (a :: rest)) = f fuel (between (front ++ [a]) rest))
    (hgroup : ∀ front inner rest, text = front ++ '(' :: (inner ++ ')' :: rest) →
      front.length + 1 + inner.length < limit → level '(' ')' 0 inner = some 0 →
        ∀ fuel, f (fuel + 1) (between front ('(' :: (inner ++ ')' :: rest))) =
          f fuel (between (front ++ '(' :: (inner ++ [')'])) rest))
    {w rest : List Char} (h : Grouped ok w) : ∀ {front : List Char}, text = front ++ (w ++ rest) →
      front.length + w.length ≤ limit → Glides f f front w rest := by
  induction h with
  | nil => exact fun _ _ => glides_nil f _ rest
  | @char a w ha hparen _ ih =>
    intro front htext hlimit
    rw [List.length_cons] at hlimit
    have hround := hchar front a (w ++ rest) htext (by omega) ha hparen
    exact (glides_of_round (w := [a]) (by simp) hround).append
      (ih (by simp [htext]) (by simp; omega))
  | @group inner w hinner _ ih =>
    intro front htext hlimit
    simp only [List.length_cons, List.length_append] at hlimit
    have hround := hgroup front inner (w ++ rest) (by simpa using htext) (by omega) hinner
    have hfirst : Glides f f front ('(' :: (inner ++ [')'])) (w ++ rest) :=
      glides_of_round (by simp) fun fuel => by simpa using hround fuel
    have hall := hfirst.append (ih (by simp [htext]) (by simp; omega))
    simpa using hall

end ContractAudit
