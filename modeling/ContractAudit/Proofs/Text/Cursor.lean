import ContractAudit.Proofs.Text.Trim
import ContractAudit.Text.Cursor

/-!
# Cursors of a text

A cursor is a place of a text (`Cursor.In`) if its offset counts the characters before it, the last
of which it shows, and its rest is what follows. Every way of moving a cursor leads from a place of
the text to a place of the text that does not lie before it; these lemmas say where it leads and
what stands between the two places.
-/

namespace ContractAudit

namespace Cursor

/-- The cursor is a place of the text. -/
structure In (text : List Char) (c : Cursor) : Prop where
  offset_le : c.offset ≤ text.length
  rest_eq : c.rest = text.drop c.offset
  before_eq : c.before = (text.take c.offset).getLast?

variable {text : List Char} {c d : Cursor}

theorem in_start (text : List Char) : (start text).In text :=
  ⟨Nat.zero_le _, rfl, rfl⟩

variable {a : Char}

namespace In

theorem peek_eq (h : c.In text) : c.peek = text[c.offset]? := by
  rw [peek, h.rest_eq, List.head?_drop]

/-- A text has one place for each offset. -/
theorem ext (hc : c.In text) (hd : d.In text) (h : c.offset = d.offset) : c = d := by
  obtain ⟨i, b, r⟩ := c
  obtain ⟨j, b', r'⟩ := d
  obtain rfl : i = j := h
  obtain rfl : r = r' := hc.rest_eq.trans hd.rest_eq.symm
  obtain rfl : b = b' := hc.before_eq.trans hd.before_eq.symm
  rfl

/-- The place behind the next character. -/
theorem next {i : Nat} {b : Option Char} {r : List Char} (h : In text ⟨i, b, a :: r⟩) :
    In text ⟨i + 1, some a, r⟩ := by
  have hrest : text.drop i = a :: r := h.rest_eq.symm
  have hget : text[i]? = some a := by rw [← List.head?_drop, hrest, List.head?_cons]
  have hlt : i < text.length := (List.getElem?_eq_some_iff.1 hget).1
  refine ⟨hlt, ?_, ?_⟩
  · show r = text.drop (i + 1)
    rw [← List.drop_drop, hrest, List.drop_one, List.tail_cons]
  · show some a = (text.take (i + 1)).getLast?
    rw [List.take_add_one, hget, Option.toList_some, List.getLast?_concat]

end In

/-! ## Moving on by characters -/

theorem in_advance : ∀ (n : Nat) {c : Cursor}, c.In text →
    (c.advance n).In text ∧ (c.advance n).offset = min (c.offset + n) text.length
  | 0, c, h => ⟨h, (Nat.min_eq_left h.offset_le).symm⟩
  | n + 1, ⟨i, b, []⟩, h => by
    have hlen : text.length ≤ i := List.drop_eq_nil_iff.1 h.rest_eq.symm
    have hle : i ≤ text.length := h.offset_le
    refine ⟨h, ?_⟩
    show i = min (i + (n + 1)) text.length
    omega
  | n + 1, ⟨i, b, a :: r⟩, h => by
    obtain ⟨hin, hoff⟩ := in_advance n h.next
    refine ⟨hin, ?_⟩
    show (advance n ⟨i + 1, some a, r⟩).offset = min (i + (n + 1)) text.length
    rw [hoff]
    show min (i + 1 + n) text.length = min (i + (n + 1)) text.length
    rw [Nat.add_right_comm, Nat.add_assoc]

theorem In.advance (h : c.In text) (n : Nat) : (c.advance n).In text :=
  (in_advance n h).1

theorem In.offset_advance (h : c.In text) {n : Nat} (hn : c.offset + n ≤ text.length) :
    (c.advance n).offset = c.offset + n := by
  rw [(in_advance n h).2, Nat.min_eq_left hn]

theorem In.advanceTo (h : c.In text) (k : Nat) : (c.advanceTo k).In text :=
  h.advance _

theorem In.offset_advanceTo (h : c.In text) {k : Nat} (hck : c.offset ≤ k)
    (hk : k ≤ text.length) : (c.advanceTo k).offset = k := by
  have hsum : c.offset + (k - c.offset) = k := by omega
  rw [Cursor.advanceTo, h.offset_advance (by omega), hsum]

/-- The place behind a character that stands before the end. -/
theorem In.offset_advance_one (h : c.In text) (ha : c.peek = some a) :
    (c.advance 1).offset = c.offset + 1 := by
  rw [h.peek_eq] at ha
  exact h.offset_advance (List.getElem?_eq_some_iff.1 ha).1

theorem In.textTo_eq (h : c.In text) : c.textTo d = text.extract c.offset d.offset := by
  rw [textTo, h.rest_eq, List.extract_eq_take_drop]

/-- The character before the place behind a character is that character. -/
theorem In.before_of_offset_eq (hc : c.In text) {i : Nat} (ha : text[i]? = some a)
    (hi : c.offset = i + 1) : c.before = some a := by
  rw [hc.before_eq, hi, List.take_add_one, ha, Option.toList_some, List.getLast?_concat]

/-! ## Blanks -/

/-- The skipped characters are blank, and the place reached is in front of no blank. -/
theorem in_skipBlanks_go : ∀ (cs : List Char) (i : Nat) (b : Option Char), In text ⟨i, b, cs⟩ →
    (skipBlanks.go i b cs).In text ∧ i ≤ (skipBlanks.go i b cs).offset ∧
      (∀ o, i ≤ o → o < (skipBlanks.go i b cs).offset → text[o]?.any isBlank) ∧
      (skipBlanks.go i b cs).peek.any isBlank = false
  | [], i, b, h => by
    refine ⟨h, Nat.le_refl _, fun o h₁ h₂ => ?_, rfl⟩
    exact absurd h₂ (Nat.not_lt.2 h₁)
  | a :: r, i, b, h => by
    by_cases ha : isBlank a
    · obtain ⟨hin, hle, hblank, hpeek⟩ := in_skipBlanks_go r (i + 1) (some a) h.next
      simp only [skipBlanks.go, ha, if_true]
      refine ⟨hin, by omega, fun o h₁ h₂ => ?_, hpeek⟩
      rcases Nat.eq_or_lt_of_le h₁ with rfl | h₁
      · have hget : some a = text[i]? := h.peek_eq
        rw [← hget]
        exact ha
      · exact hblank o h₁ h₂
    · simp only [skipBlanks.go, ha]
      refine ⟨h, Nat.le_refl _, fun o h₁ h₂ => ?_, by simpa [peek] using ha⟩
      exact absurd h₂ (Nat.not_lt.2 h₁)

theorem In.skipBlanks (h : c.In text) : c.skipBlanks.In text :=
  (in_skipBlanks_go c.rest c.offset c.before h).1

theorem In.offset_le_skipBlanks (h : c.In text) : c.offset ≤ c.skipBlanks.offset :=
  (in_skipBlanks_go c.rest c.offset c.before h).2.1

theorem In.isBlank_of_lt_skipBlanks (h : c.In text) {o : Nat} (h₁ : c.offset ≤ o)
    (h₂ : o < c.skipBlanks.offset) : text[o]?.any isBlank :=
  (in_skipBlanks_go c.rest c.offset c.before h).2.2.1 o h₁ h₂

theorem In.peek_skipBlanks (h : c.In text) : c.skipBlanks.peek.any isBlank = false :=
  (in_skipBlanks_go c.rest c.offset c.before h).2.2.2

/-- Blanks are not skipped past a character that is none. -/
theorem In.skipBlanks_offset_le (h : c.In text) {k : Nat} (hk : c.offset ≤ k)
    (hsolid : text[k]?.any isBlank = false) : c.skipBlanks.offset ≤ k := by
  refine Nat.le_of_not_lt fun hlt => ?_
  have hblank := h.isBlank_of_lt_skipBlanks hk hlt
  simp [hsolid] at hblank

/-! ## Words and runs -/

theorem in_past? {same : Char → Char → Bool} : ∀ (w : List Char) {c d : Cursor}, c.In text →
    c.past? same w = some d → d.In text ∧ d.offset = c.offset + w.length
  | [], c, d, h, hp => by
    obtain rfl : c = d := by simpa [past?] using hp
    exact ⟨h, rfl⟩
  | x :: w, ⟨i, b, []⟩, d, h, hp => by simp [past?] at hp
  | x :: w, ⟨i, b, a :: r⟩, d, h, hp => by
    by_cases hs : same x a
    · obtain ⟨hin, hoff⟩ := in_past? w h.next (by simpa [past?, hs] using hp)
      refine ⟨hin, ?_⟩
      rw [hoff]
      show i + 1 + w.length = i + (w.length + 1)
      omega
    · simp [past?, hs] at hp

/-- The characters passed are those of the word. -/
theorem take_of_past? : ∀ (w : List Char) {c d : Cursor}, c.past? (· == ·) w = some d →
    c.rest.take w.length = w
  | [], _, _, _ => rfl
  | x :: w, ⟨i, b, []⟩, d, hp => by simp [past?] at hp
  | x :: w, ⟨i, b, a :: r⟩, d, hp => by
    by_cases hs : x = a
    · subst hs
      have hw := take_of_past? w (c := ⟨i + 1, some x, r⟩) (by simpa [past?] using hp)
      rw [List.length_cons, List.take_succ_cons, hw]
    · simp [past?, hs] at hp

variable {ok : Char → Bool}

theorem runFrom_eq_append : ∀ (cs : List Char) (passed : List Cursor) (i : Nat)
    (b : Option Char), runFrom ok passed i b cs = runFrom ok [] i b cs ++ passed
  | [], _, _, _ => rfl
  | a :: cs, passed, i, b => by
    rw [runFrom, runFrom]
    split
    · rw [runFrom_eq_append cs (_ :: passed), runFrom_eq_append cs [_], List.append_assoc,
        List.singleton_append]
    · rfl

/-- The places over the characters of a class, from the next character on. -/
theorem run_cons (ok : Char → Bool) (i : Nat) (b : Option Char) (a : Char) (r : List Char) :
    run ok ⟨i, b, a :: r⟩ =
      (if ok a then run ok ⟨i + 1, some a, r⟩ else []) ++ [⟨i, b, a :: r⟩] := by
  rw [run, runFrom]
  split
  · exact runFrom_eq_append ..
  · rfl

theorem mem_run_cons_iff {i : Nat} {b : Option Char} {r : List Char} :
    d ∈ run ok ⟨i, b, a :: r⟩ ↔ d = ⟨i, b, a :: r⟩ ∨ ok a ∧ d ∈ run ok ⟨i + 1, some a, r⟩ := by
  rw [run_cons]
  by_cases ha : ok a <;> simp [ha, or_comm]

theorem self_mem_run : ∀ c : Cursor, c ∈ c.run ok
  | ⟨_, _, []⟩ => List.mem_cons_self
  | ⟨_, _, _ :: _⟩ => mem_run_cons_iff.2 (Or.inl rfl)

theorem In.of_mem_run (h : c.In text) (hd : d ∈ c.run ok) : d.In text ∧ c.offset ≤ d.offset := by
  obtain ⟨i, b, rest⟩ := c
  induction rest generalizing i b with
  | nil =>
    obtain rfl := List.mem_singleton.1 hd
    exact ⟨h, Nat.le_refl _⟩
  | cons a r ih =>
    rcases mem_run_cons_iff.1 hd with rfl | ⟨-, hd⟩
    · exact ⟨h, Nat.le_refl _⟩
    · obtain ⟨hin, hle⟩ := ih (i + 1) (some a) h.next hd
      exact ⟨hin, Nat.le_of_succ_le hle⟩

/-- The characters passed on a run are of the class. -/
theorem all_of_mem_run (hd : d ∈ c.run ok) : ∀ a ∈ c.textTo d, ok a := by
  obtain ⟨i, b, rest⟩ := c
  induction rest generalizing i b with
  | nil => simp [textTo]
  | cons a r ih =>
    intro x hx
    rcases mem_run_cons_iff.1 hd with rfl | ⟨ha, hd⟩
    · simp [textTo] at hx
    · have hall := ih (i + 1) (some a) hd
      simp only [textTo] at hx hall
      cases hn : d.offset - i with
      | zero => simp [hn] at hx
      | succ n =>
        have hn' : d.offset - (i + 1) = n := by omega
        rw [hn, List.take_succ_cons] at hx
        rcases List.mem_cons.1 hx with rfl | hx
        · exact ha
        · exact hall x (hn' ▸ hx)

/-- The text between two places is a part of the text. -/
theorem In.isInfix_textTo (h : c.In text) : c.textTo d <:+: text := by
  rw [textTo, h.rest_eq]
  exact (List.take_prefix _ _).isInfix.trans (List.drop_suffix _ _).isInfix

/-! ## Words around a place -/

/-- No word goes through the place. -/
def Free (c : Cursor) : Prop :=
  c.before.any isWordChar → c.peek.any isWordChar = false

namespace Free

theorem of_before (h : c.before = some a) (ha : isWordChar a = false) : c.Free := by
  intro hb
  simp [h, ha] at hb

theorem of_peek (h : c.peek = some a) (ha : isWordChar a = false) : c.Free := by
  intro _
  simp [h, ha]

theorem of_atWordEdge (h : c.atWordEdge) : c.Free := by
  intro hb
  simpa [atWordEdge, hb] using h

/-- Skipping blanks does not lead into a word. -/
theorem skipBlanks (h : c.Free) (hc : c.In text) : c.skipBlanks.Free := by
  rcases Nat.eq_or_lt_of_le hc.offset_le_skipBlanks with heq | hlt
  · rw [← hc.ext hc.skipBlanks heq]
    exact h
  · have hblank : text[c.skipBlanks.offset - 1]?.any isBlank :=
      hc.isBlank_of_lt_skipBlanks (by omega) (by omega)
    obtain ⟨a, ha, hab⟩ := (Option.any_eq_true _ _).1 hblank
    have hbefore := hc.skipBlanks.before_of_offset_eq ha (by omega)
    exact of_before hbefore (isWordChar_of_isBlank hab)

end Free

end Cursor

end ContractAudit
