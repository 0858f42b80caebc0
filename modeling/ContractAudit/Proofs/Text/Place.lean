import ContractAudit.Proofs.Text.Gap

/-!
# Places between two parts of a text

`Cursor.between front rest` is the place of the text `front ++ rest` behind `front`. Where the text
that follows is known, so is the place that a cursor moves to, and so are the places that a run of
characters of a class or repeated steps go through. A loop that passes over a text in a bounded
number of rounds glides over it (`Cursor.Glides`).
-/

namespace ContractAudit

variable {front w rest : List Char}

namespace Cursor

/-- The place behind the front part of a text. -/
def between (front rest : List Char) : Cursor :=
  ⟨front.length, front.getLast?, rest⟩

@[simp]
theorem offset_between (front rest : List Char) : (between front rest).offset = front.length :=
  rfl

@[simp]
theorem before_between (front rest : List Char) :
    (between front rest).before = front.getLast? :=
  rfl

@[simp]
theorem rest_between (front rest : List Char) : (between front rest).rest = rest :=
  rfl

@[simp]
theorem peek_between (front rest : List Char) : (between front rest).peek = rest.head? :=
  rfl

theorem between_nil (rest : List Char) : between [] rest = start rest :=
  rfl

theorem in_between (front rest : List Char) : (between front rest).In (front ++ rest) where
  offset_le := by simp
  rest_eq := by simp
  before_eq := by simp

/-- The place behind the next character. -/
theorem next_between (front rest : List Char) (a : Char) :
    (⟨front.length + 1, some a, rest⟩ : Cursor) = between (front ++ [a]) rest := by
  simp [between]

/-- A place of the text that does not lie before another is reached over some text. -/
theorem exists_between {d : Cursor} (hd : d.In (front ++ rest)) (hle : front.length ≤ d.offset) :
    ∃ w r, rest = w ++ r ∧ d = between (front ++ w) r := by
  have hlen := hd.offset_le
  rw [List.length_append] at hlen
  refine ⟨rest.take (d.offset - front.length), rest.drop (d.offset - front.length),
    (List.take_append_drop ..).symm, ?_⟩
  refine hd.ext ?_ ?_
  · have hin := in_between (front ++ rest.take (d.offset - front.length))
      (rest.drop (d.offset - front.length))
    rwa [List.append_assoc, List.take_append_drop] at hin
  · simp only [offset_between, List.length_append, List.length_take]
    omega

@[simp]
theorem advance_between : ∀ (w front rest : List Char),
    (between front (w ++ rest)).advance w.length = between (front ++ w) rest
  | [], front, rest => by simp [advance]
  | a :: w, front, rest => by
    show advance w.length ⟨front.length + 1, some a, w ++ rest⟩ = _
    rw [next_between, advance_between w (front ++ [a]) rest, List.append_assoc, List.cons_append,
      List.nil_append]

@[simp]
theorem advance_one_between (front rest : List Char) (a : Char) :
    (between front (a :: rest)).advance 1 = between (front ++ [a]) rest :=
  advance_between [a] front rest

/-- The place with the offset behind the text `w`. -/
theorem advanceTo_between {k : Nat} (hk : k = front.length + w.length) :
    (between front (w ++ rest)).advanceTo k = between (front ++ w) rest := by
  rw [advanceTo, offset_between, hk, Nat.add_sub_cancel_left, advance_between]

/-- The place behind the character that closes a group. -/
theorem advanceTo_group (front inner rest : List Char) (a b : Char) :
    (between front (a :: (inner ++ b :: rest))).advanceTo (front.length + 1 + inner.length + 1) =
      between (front ++ a :: (inner ++ [b])) rest := by
  have hlen : front.length + 1 + inner.length + 1 =
      front.length + (a :: (inner ++ [b])).length := by
    simp only [List.length_cons, List.length_append, List.length_nil]
    omega
  have h : (between front (a :: (inner ++ [b]) ++ rest)).advanceTo
      (front.length + 1 + inner.length + 1) = _ := advanceTo_between hlen
  simpa using h

@[simp]
theorem textTo_between (front w rest : List Char) :
    (between front (w ++ rest)).textTo (between (front ++ w) rest) = w := by
  simp [textTo]

theorem skipBlanks_between : ∀ {w front rest : List Char}, (∀ a ∈ w, isBlank a) →
    rest.head?.any isBlank = false →
      (between front (w ++ rest)).skipBlanks = between (front ++ w) rest
  | [], front, [], _, _ => by
    rw [List.nil_append, List.append_nil]
    rfl
  | [], front, a :: rest, _, hrest => by
    have ha : isBlank a = false := hrest
    show skipBlanks.go front.length front.getLast? (a :: rest) = _
    rw [skipBlanks.go, if_neg (by simp [ha]), List.append_nil]
    rfl
  | a :: w, front, rest, hw, hrest => by
    have ha : isBlank a := hw a List.mem_cons_self
    show skipBlanks.go front.length front.getLast? (a :: (w ++ rest)) = _
    rw [skipBlanks.go, if_pos ha]
    show skipBlanks ⟨front.length + 1, some a, w ++ rest⟩ = _
    rw [next_between, skipBlanks_between (fun b hb => hw b (List.mem_cons_of_mem a hb)) hrest,
      List.append_assoc, List.cons_append, List.nil_append]

/-- There are no blanks to skip. -/
theorem skipBlanks_between_self (h : rest.head?.any isBlank = false) (front : List Char) :
    (between front rest).skipBlanks = between front rest := by
  have hskip : (between front ([] ++ rest)).skipBlanks = between (front ++ []) rest :=
    skipBlanks_between (by simp) h
  rwa [List.nil_append, List.append_nil] at hskip

@[simp]
theorem past?_between : ∀ (w front rest : List Char),
    (between front (w ++ rest)).past? (· == ·) w = some (between (front ++ w) rest)
  | [], front, rest => by simp [past?]
  | a :: w, front, rest => by
    show (if (a == a) = true then past? (· == ·) w ⟨front.length + 1, some a, w ++ rest⟩
      else none) = _
    rw [if_pos (beq_self_eq_true a), next_between, past?_between w (front ++ [a]) rest,
      List.append_assoc, List.cons_append, List.nil_append]

variable {ok : Char → Bool}

/-- The places over the characters of a class, from the next character on. -/
theorem run_between_cons (ok : Char → Bool) (a : Char) (front rest : List Char) :
    (between front (a :: rest)).run ok =
      (if ok a then (between (front ++ [a]) rest).run ok else []) ++
        [between front (a :: rest)] := by
  rw [← next_between]
  exact run_cons ..

/-- The place behind all characters of a class. -/
theorem head?_run (front : List Char) (hw : ∀ a ∈ w, ok a) (hrest : rest.head?.any ok = false) :
    ((between front (w ++ rest)).run ok).head? = some (between (front ++ w) rest) := by
  induction w generalizing front with
  | nil =>
    rw [List.append_nil]
    cases rest with
    | nil => rfl
    | cons a rest =>
      have ha : ok a = false := hrest
      rw [List.nil_append, run_between_cons, ha]
      rfl
  | cons a w ih =>
    obtain ⟨ha, hw⟩ := List.forall_mem_cons.1 hw
    rw [List.cons_append, run_between_cons, if_pos ha, List.head?_append, ih (front ++ [a]) hw,
      List.append_assoc]
    rfl

/-- The places behind the characters of a class that come first. -/
theorem mem_run (hw : ∀ a ∈ w, ok a) :
    between (front ++ w) rest ∈ (between front (w ++ rest)).run ok := by
  induction w generalizing front with
  | nil =>
    rw [List.append_nil]
    exact self_mem_run _
  | cons a w ih =>
    obtain ⟨ha, hw⟩ := List.forall_mem_cons.1 hw
    have hnext : _ ∈ (between (front ++ [a]) (w ++ rest)).run ok := ih hw
    rw [← next_between, List.append_assoc] at hnext
    exact mem_run_cons_iff.2 (Or.inr ⟨ha, hnext⟩)

/-! ## Repeated steps -/

variable {step : Cursor → Option Cursor}

theorem self_mem_stepsFrom : ∀ (fuel : List Char)
    (passed : List Cursor) (c : Cursor), c ∈ stepsFrom step passed fuel c
  | [], _, _ => List.mem_cons_self
  | _ :: fuel, passed, c => by
    unfold stepsFrom
    split
    · split
      · exact mem_stepsFrom_of_mem_passed fuel _ c List.mem_cons_self
      · exact List.mem_cons_self
    · exact List.mem_cons_self

/-- The place behind texts each of which is a step. -/
theorem between_mem_stepsFrom {α : Type} {f : α → List Char} {rest : List Char} :
    ∀ (xs : List α) (fuel : List Char) (passed : List Cursor)
    (front : List Char), (∀ x ∈ xs, f x ≠ [] ∧ ∀ front rest,
        step (between front (f x ++ rest)) = some (between (front ++ f x) rest)) →
      xs.length ≤ fuel.length →
        between (front ++ xs.flatMap f) rest ∈
          stepsFrom step passed fuel (between front (xs.flatMap f ++ rest))
  | [], fuel, passed, front, _, _ => by
    rw [List.flatMap_nil, List.append_nil, List.nil_append]
    exact self_mem_stepsFrom fuel passed _
  | x :: xs, [], passed, front, _, hfuel => by simp at hfuel
  | x :: xs, a :: fuel, passed, front, hstep, hfuel => by
    obtain ⟨hne, hx⟩ := hstep x List.mem_cons_self
    have hlt : (between front (f x ++ (xs.flatMap f ++ rest))).offset <
        (between (front ++ f x) (xs.flatMap f ++ rest)).offset := by
      have hpos := List.length_pos_iff.2 hne
      simp only [offset_between, List.length_append]
      omega
    rw [List.flatMap_cons, List.append_assoc, stepsFrom, hx]
    simp only [if_pos hlt]
    rw [← List.append_assoc front]
    exact between_mem_stepsFrom xs fuel _ (front ++ f x)
      (fun y hy => hstep y (List.mem_cons_of_mem x hy)) (by simpa using hfuel)

/-! ## Loops over a text -/

/-- The loop `f` passes over the text `w` in at most as many rounds as it has characters, and goes
on as the loop `g`. -/
def Glides {β : Type} (f g : Nat → Cursor → β) (front w rest : List Char) : Prop :=
  ∃ n, n ≤ w.length ∧
    ∀ fuel, f (n + fuel) (between front (w ++ rest)) = g fuel (between (front ++ w) rest)

section Glides

variable {β : Type} {f g h : Nat → Cursor → β} {v : List Char}

theorem glides_nil (f : Nat → Cursor → β) (front rest : List Char) : Glides f f front [] rest :=
  ⟨0, Nat.le_refl 0, fun fuel => by simp⟩

/-- One round passes over the text. -/
theorem glides_of_round (hne : w ≠ [])
    (hround : ∀ fuel, f (fuel + 1) (between front (w ++ rest)) =
      g fuel (between (front ++ w) rest)) :
    Glides f g front w rest :=
  ⟨1, List.length_pos_iff.2 hne, fun fuel => by rw [Nat.add_comm, hround]⟩

theorem Glides.append (hw : Glides f g front w (v ++ rest)) (hv : Glides g h (front ++ w) v rest) :
    Glides f h front (w ++ v) rest := by
  obtain ⟨n, hn, hw⟩ := hw
  obtain ⟨m, hm, hv⟩ := hv
  refine ⟨n + m, by simp; omega, fun fuel => ?_⟩
  rw [List.append_assoc, Nat.add_assoc, hw, hv, List.append_assoc]

/-- A loop with more rounds than the text has characters has rounds left behind it. -/
theorem Glides.exists_eq (hw : Glides f g front w rest) {fuel : Nat} (hfuel : w.length < fuel) :
    ∃ k, f fuel (between front (w ++ rest)) = g (k + 1) (between (front ++ w) rest) := by
  obtain ⟨n, hn, hf⟩ := hw
  obtain ⟨k, rfl⟩ : ∃ k, fuel = n + (k + 1) := ⟨fuel - n - 1, by omega⟩
  exact ⟨k, hf (k + 1)⟩

/-- Each character is passed over by a round. -/
theorem glides_of_forall {text : List Char} {limit : Nat}
    (hchar : ∀ front a rest, text = front ++ a :: rest → front.length < limit → ok a →
      ∀ fuel, f (fuel + 1) (between front (a :: rest)) = f fuel (between (front ++ [a]) rest)) :
    ∀ {w front : List Char}, (∀ a ∈ w, ok a) → text = front ++ (w ++ rest) →
      front.length + w.length ≤ limit → Glides f f front w rest
  | [], front, _, _, _ => glides_nil f front rest
  | a :: w, front, hw, htext, hlimit => by
    rw [List.length_cons] at hlimit
    have hround := hchar front a (w ++ rest) htext (by omega) (hw a List.mem_cons_self)
    refine (glides_of_round (w := [a]) (by simp) hround).append ?_
    exact glides_of_forall hchar (fun b hb => hw b (List.mem_cons_of_mem a hb)) (by simp [htext])
      (by simp; omega)

end Glides

end Cursor

end ContractAudit
