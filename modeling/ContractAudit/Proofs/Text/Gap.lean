import ContractAudit.Proofs.Text.Pattern
import ContractAudit.Text.Bracket

/-!
# Texts behind a gap

A gap is a stretch of blanks in front of a text. Every place of the text then lies behind it
(`Cursor.behind`), and moving on from there is as it was. A pattern that does not ask whether the
text starts (`Pattern.Steady`) matches behind the gap what it matches in the text
(`Pattern.read_behind`), and if its matches start with no blank, a search from the start of the gap
on finds the same (`Pattern.findIn?_append`, `Pattern.allIn_append`). So do brackets find their
partners (`Pairs.close?_append`).
-/

namespace ContractAudit

variable {gap text : List Char}

namespace Cursor

/-- The place behind a gap. -/
def behind (gap : List Char) (c : Cursor) : Cursor :=
  ⟨gap.length + c.offset, c.before.or gap.getLast?, c.rest⟩

variable {c d : Cursor}

@[simp]
theorem offset_behind : (c.behind gap).offset = gap.length + c.offset :=
  rfl

@[simp]
theorem before_behind : (c.behind gap).before = c.before.or gap.getLast? :=
  rfl

@[simp]
theorem rest_behind : (c.behind gap).rest = c.rest :=
  rfl

@[simp]
theorem peek_behind : (c.behind gap).peek = c.peek :=
  rfl

@[simp]
theorem textTo_behind : (c.behind gap).textTo (d.behind gap) = c.textTo d := by
  simp [textTo, Nat.add_sub_add_left]

@[simp]
theorem advance_behind : ∀ (n : Nat) (c : Cursor),
    (c.behind gap).advance n = (c.advance n).behind gap
  | 0, _ => rfl
  | _ + 1, ⟨_, _, []⟩ => rfl
  | n + 1, ⟨i, _, a :: r⟩ => advance_behind n ⟨i + 1, some a, r⟩

@[simp]
theorem advanceTo_behind (k : Nat) (c : Cursor) :
    (c.behind gap).advanceTo (gap.length + k) = (c.advanceTo k).behind gap := by
  rw [advanceTo, offset_behind, Nat.add_sub_add_left, advance_behind, advanceTo]

theorem skipBlanks_go_behind : ∀ (cs : List Char) (i : Nat) (b : Option Char),
    skipBlanks.go (gap.length + i) (b.or gap.getLast?) cs = (skipBlanks.go i b cs).behind gap
  | [], _, _ => rfl
  | a :: r, i, b => by
    unfold skipBlanks.go
    split
    · exact skipBlanks_go_behind r (i + 1) (some a)
    · rfl

@[simp]
theorem skipBlanks_behind (c : Cursor) : (c.behind gap).skipBlanks = c.skipBlanks.behind gap :=
  skipBlanks_go_behind c.rest c.offset c.before

theorem runFrom_behind (ok : Char → Bool) : ∀ (cs : List Char) (passed : List Cursor) (i : Nat)
    (b : Option Char),
    runFrom ok (passed.map (behind gap)) (gap.length + i) (b.or gap.getLast?) cs =
      (runFrom ok passed i b cs).map (behind gap)
  | [], _, _, _ => rfl
  | a :: r, passed, i, b => by
    unfold runFrom
    split
    · exact runFrom_behind ok r (⟨i, b, a :: r⟩ :: passed) (i + 1) (some a)
    · rfl

theorem run_behind (ok : Char → Bool) (c : Cursor) :
    (c.behind gap).run ok = (c.run ok).map (behind gap) :=
  runFrom_behind ok c.rest [] c.offset c.before

theorem past?_behind (same : Char → Char → Bool) : ∀ (w : List Char) (c : Cursor),
    (c.behind gap).past? same w = (c.past? same w).map (behind gap)
  | [], _ => rfl
  | _ :: _, ⟨_, _, []⟩ => rfl
  | x :: w, ⟨i, b, a :: r⟩ => by
    show (if same x a then past? same w (behind gap ⟨i + 1, some a, r⟩) else none) =
      (if same x a then past? same w ⟨i + 1, some a, r⟩ else none).map (behind gap)
    rw [past?_behind same w]
    split <;> rfl

theorem stepsFrom_behind (step : Cursor → Option Cursor)
    (hstep : ∀ c, step (c.behind gap) = (step c).map (behind gap)) : ∀ (fuel : List Char)
    (passed : List Cursor) (c : Cursor),
    stepsFrom step (passed.map (behind gap)) fuel (c.behind gap) =
      (stepsFrom step passed fuel c).map (behind gap)
  | [], _, _ => rfl
  | _ :: fuel, passed, c => by
    unfold stepsFrom
    rw [hstep]
    cases step c with
    | none => rfl
    | some d =>
      simp only [Option.map_some, offset_behind, Nat.add_lt_add_iff_left]
      split
      · exact stepsFrom_behind step hstep fuel (c :: passed) d
      · rfl

/-- A gap ends no word and starts none. -/
theorem atWordEdge_behind (hgap : ∀ a ∈ gap, isBlank a) (c : Cursor) :
    (c.behind gap).atWordEdge = c.atWordEdge := by
  have hlast : gap.getLast?.any isWordChar = false := by
    cases h : gap.getLast? with
    | none => rfl
    | some a => exact isWordChar_of_isBlank (hgap a (List.mem_of_getLast? h))
  have hbefore : (c.before.or gap.getLast?).any isWordChar = c.before.any isWordChar := by
    cases c.before with
    | none => exact hlast
    | some a => rfl
  rw [atWordEdge, atWordEdge, peek_behind]
  exact congrArg (· != c.peek.any isWordChar) hbefore

end Cursor

/-- The parts of a match behind a gap. -/
def Parts.behind (gap : List Char) (ps : Parts) : Parts :=
  ps.map fun (label, c, d) => (label, c.behind gap, d.behind gap)

namespace Hit

/-- The match behind a gap. -/
def behind (gap : List Char) (h : Hit) : Hit :=
  ⟨h.start.behind gap, h.stop.behind gap, Parts.behind gap h.parts⟩

variable {h : Hit}

@[simp]
theorem start_behind : (h.behind gap).start = h.start.behind gap :=
  rfl

@[simp]
theorem stop_behind : (h.behind gap).stop = h.stop.behind gap :=
  rfl

theorem lookup_behind (label : String) : ∀ ps : Parts,
    (Parts.behind gap ps).lookup label =
      (ps.lookup label).map fun (c, d) => (c.behind gap, d.behind gap)
  | [] => rfl
  | (l, c, d) :: ps => by
    show List.lookup label ((l, c.behind gap, d.behind gap) :: Parts.behind gap ps) = _
    rw [List.lookup_cons, List.lookup_cons, lookup_behind label ps]
    split <;> rfl

@[simp]
theorem part?_behind (label : String) : (h.behind gap).part? label = h.part? label := by
  unfold part?
  show ((Parts.behind gap h.parts).lookup label).map _ = _
  rw [lookup_behind, Option.map_map]
  congr 1
  ext1 ⟨c, d⟩
  exact Cursor.textTo_behind

@[simp]
theorem part_behind (label : String) : (h.behind gap).part label = h.part label := by
  rw [part, part?_behind, part]

end Hit

namespace Pattern

/-! ## Patterns that do not ask for the start -/

/-- No test of the pattern notices a gap in front of the text. -/
def Steady (gap : List Char) : Pattern → Prop
  | check ok => ∀ c, ok (c.behind gap) = ok c
  | seq p q | alt p q => p.Steady gap ∧ q.Steady gap
  | many p | named _ p => p.Steady gap
  | char _ | word _ _ | stretch _ | shortStretch _ => True

section Steady

variable {p q : Pattern}

@[simp]
theorem steady_char (ok : Char → Bool) : (char ok).Steady gap :=
  trivial

@[simp]
theorem steady_text (w : String) : (Pattern.text w).Steady gap :=
  trivial

@[simp]
theorem steady_stretch (ok : Char → Bool) : (stretch ok).Steady gap :=
  trivial

@[simp]
theorem steady_append : (p ++ q).Steady gap ↔ p.Steady gap ∧ q.Steady gap :=
  Iff.rfl

@[simp]
theorem steady_named (label : String) : (named label p).Steady gap ↔ p.Steady gap :=
  Iff.rfl

@[simp]
theorem steady_maybe : (maybe p).Steady gap ↔ p.Steady gap :=
  ⟨fun h => h.1, fun h => ⟨h, fun _ => rfl⟩⟩

@[simp]
theorem steady_oneOf : ∀ {ps : List Pattern}, (oneOf ps).Steady gap ↔ ∀ p ∈ ps, p.Steady gap
  | [] => ⟨fun _ _ hp => absurd hp List.not_mem_nil, fun _ _ => rfl⟩
  | p :: ps => by
    rw [List.forall_mem_cons, ← steady_oneOf]
    exact Iff.rfl

theorem steady_edge (hgap : ∀ a ∈ gap, isBlank a) : edge.Steady gap :=
  Cursor.atWordEdge_behind hgap

end Steady

/-- A steady pattern reads behind the gap what it reads without : if what is to follow gives the
same answer up to `f`, so does the pattern. -/
theorem read_behind : ∀ (p : Pattern), p.Steady gap → ∀ {α β : Type} {f : α → β}
    {k : Cursor → Parts → Option α} {k' : Cursor → Parts → Option β},
    (∀ d qs, k' (d.behind gap) (Parts.behind gap qs) = (k d qs).map f) → ∀ c ps,
      p.read (c.behind gap) (Parts.behind gap ps) k' = (p.read c ps k).map f
  | char ok, _, _, _, _, _, _, _, ⟨_, _, []⟩, _ => rfl
  | char ok, _, _, _, f, k, k', hk, ⟨i, b, a :: r⟩, ps => by
    have hnext := hk ⟨i + 1, some a, r⟩ ps
    show (if ok a then k' (Cursor.behind gap ⟨i + 1, some a, r⟩) (Parts.behind gap ps) else none) =
      (if ok a then k ⟨i + 1, some a, r⟩ ps else none).map f
    split
    · exact hnext
    · rfl
  | word same w, _, _, _, f, k, k', hk, c, ps => by
    unfold read
    rw [Cursor.past?_behind]
    cases c.past? same w with
    | none => rfl
    | some d => exact hk d ps
  | check ok, hp, _, _, f, k, k', hk, c, ps => by
    unfold read
    rw [hp c]
    split
    · exact hk c ps
    · rfl
  | seq p q, hp, _, _, f, k, k', hk, c, ps => by
    unfold read
    exact read_behind p hp.1 (fun d qs => read_behind q hp.2 hk d qs) c ps
  | alt p q, hp, _, _, f, k, k', hk, c, ps => by
    unfold read
    rw [read_behind p hp.1 hk, read_behind q hp.2 hk]
    cases p.read c ps k <;> rfl
  | stretch ok, _, _, _, f, k, k', hk, c, ps => by
    unfold read
    simp only [Cursor.run_behind, List.findSome?_map, List.map_findSome?, Function.comp_def, hk]
  | shortStretch ok, _, _, _, f, k, k', hk, c, ps => by
    unfold read
    simp only [Cursor.run_behind, ← List.map_reverse, List.findSome?_map, List.map_findSome?,
      Function.comp_def, hk]
  | many p, hp, _, _, f, k, k', hk, c, ps => by
    unfold read
    have hsteps : Cursor.stepsFrom (fun d => p.read d [] fun e _ => some e) [] c.rest
        (c.behind gap) = (c.steps fun d => p.read d [] fun e _ => some e).map (.behind gap) :=
      Cursor.stepsFrom_behind _ (fun d => read_behind p hp (fun _ _ => rfl) d []) c.rest [] c
    rw [Cursor.steps, Cursor.rest_behind, hsteps]
    simp only [List.findSome?_map, List.map_findSome?, Function.comp_def, hk]
  | named label p, hp, _, _, f, k, k', hk, c, ps => by
    unfold read
    exact read_behind p hp (fun d qs => hk d ((label, c, d) :: qs)) c ps

/-! ## Searches from a place on -/

section Behind

variable {p : Pattern} (hp : p.Steady gap)

include hp

theorem at?_behind (c : Cursor) : p.at? (c.behind gap) = (p.at? c).map (.behind gap) :=
  read_behind p hp (fun _ _ => rfl) c []

theorem findBefore?_behind : ∀ (n : Nat) (c : Cursor),
    p.findBefore? n (c.behind gap) = (p.findBefore? n c).map (.behind gap)
  | 0, _ => rfl
  | n + 1, ⟨i, b, []⟩ => by
    unfold findBefore?
    rw [at?_behind hp]
    cases p.at? ⟨i, b, []⟩ <;> rfl
  | n + 1, ⟨i, b, a :: r⟩ => by
    unfold findBefore?
    rw [at?_behind hp]
    cases p.at? ⟨i, b, a :: r⟩ with
    | none => exact findBefore?_behind n ⟨i + 1, some a, r⟩
    | some h => rfl

theorem findFrom?_behind : ∀ (cs : List Char) (i : Nat) (b : Option Char),
    p.findFrom? (gap.length + i) (b.or gap.getLast?) cs = (p.findFrom? i b cs).map (.behind gap)
  | [], i, b => at?_behind hp ⟨i, b, []⟩
  | a :: r, i, b => by
    have hat : p.at? ⟨gap.length + i, b.or gap.getLast?, a :: r⟩ =
        (p.at? ⟨i, b, a :: r⟩).map (.behind gap) := at?_behind hp ⟨i, b, a :: r⟩
    unfold findFrom?
    rw [hat]
    cases p.at? ⟨i, b, a :: r⟩ with
    | none => exact findFrom?_behind r (i + 1) (some a)
    | some h => rfl

theorem find?_behind (c : Cursor) : p.find? (c.behind gap) = (p.find? c).map (.behind gap) :=
  findFrom?_behind hp c.rest c.offset c.before

theorem findAllFrom_behind : ∀ (fuel : List Char) (found : List Hit) (c : Cursor),
    p.findAllFrom (found.map (.behind gap)) fuel (c.behind gap) =
      (p.findAllFrom found fuel c).map (.behind gap)
  | [], found, _ => (List.map_reverse ..).symm
  | _ :: fuel, found, c => by
    unfold findAllFrom
    rw [find?_behind hp]
    cases p.find? c with
    | none => exact (List.map_reverse ..).symm
    | some h =>
      simp only [Option.map_some, Hit.start_behind, Hit.stop_behind, Cursor.offset_behind,
        Nat.add_lt_add_iff_left, Cursor.advance_behind, ← apply_ite (Cursor.behind gap)]
      exact findAllFrom_behind fuel (h :: found) _

theorem findAll_behind (c : Cursor) : p.findAll (c.behind gap) = (p.findAll c).map (.behind gap) :=
  findAllFrom_behind hp c.rest [] c

end Behind

/-! ## Searches from the start of the gap on -/

variable {p : Pattern}

/-- Where a pattern that starts with no blank is not found. -/
theorem Opens.at?_eq_none (hopens : p.Opens (!isBlank ·)) {c : Cursor} (hc : c.In text)
    (hpeek : c.peek.all isBlank) : p.at? c = none := by
  cases hat : p.at? c with
  | none => rfl
  | some h =>
    have hsolid := (hopens text _ _ _ _ hc (reads_of_at? hat).2).1
    cases hc' : c.peek <;> simp_all

/-- There is nothing to find at the end of a text. -/
theorem Opens.find?_eq_none {ok : Char → Bool} (hopens : p.Opens ok) {c : Cursor} (hc : c.In text)
    (hend : text.length ≤ c.offset) : p.find? c = none := by
  cases hfind : p.find? c with
  | none => rfl
  | some h =>
    obtain ⟨hstart, hle, hreads⟩ := reads_of_find? hc hfind
    have hlt := (hopens text _ _ _ _ hstart hreads).2
    have hle' := (hreads.in hstart).1.offset_le
    omega

/-- The blanks in front are passed over. -/
theorem Opens.findFrom?_append (hopens : p.Opens (!isBlank ·)) :
    ∀ (gap cs : List Char) (i : Nat) (b : Option Char), (∀ a ∈ gap, isBlank a) →
      Cursor.In text ⟨i, b, gap ++ cs⟩ →
      p.findFrom? i b (gap ++ cs) = p.findFrom? (i + gap.length) (gap.getLast?.or b) cs
  | [], cs, i, b, _, _ => by simp
  | a :: gap, cs, i, b, hgap, hc => by
    have hnone : p.at? ⟨i, b, a :: (gap ++ cs)⟩ = none :=
      hopens.at?_eq_none hc (by simpa [Cursor.peek] using hgap a List.mem_cons_self)
    have hrest := hopens.findFrom?_append gap cs (i + 1) (some a)
      (fun a' ha' => hgap a' (List.mem_cons_of_mem _ ha')) hc.next
    have hlength : i + 1 + gap.length = i + (a :: gap).length := by
      rw [List.length_cons]
      omega
    have hlast : gap.getLast?.or (some a) = (a :: gap).getLast?.or b := by
      cases gap <;> simp [List.getLast?_cons]
    rw [List.cons_append, findFrom?, hnone, ← hlength, ← hlast]
    exact hrest

/-- How long the search for all matches may take does not matter, if it may take long enough. -/
theorem Opens.findAllFrom_eq {ok : Char → Bool} (hopens : p.Opens ok) :
    ∀ (fuel fuel' : List Char) (found : List Hit) (c : Cursor), c.In text →
      text.length ≤ c.offset + fuel.length → text.length ≤ c.offset + fuel'.length →
      p.findAllFrom found fuel c = p.findAllFrom found fuel' c
  | [], [], _, _, _, _, _ => rfl
  | [], _ :: _, _, _, hc, hle, _ => by
    rw [findAllFrom, findAllFrom, hopens.find?_eq_none hc hle]
  | _ :: _, [], _, _, hc, _, hle => by
    rw [findAllFrom, findAllFrom, hopens.find?_eq_none hc hle]
  | _ :: fuel, _ :: fuel', found, c, hc, hle, hle' => by
    unfold findAllFrom
    cases hfind : p.find? c with
    | none => rfl
    | some h =>
      obtain ⟨hstart, hge, hreads⟩ := reads_of_find? hc hfind
      have hlt := (hopens text _ _ _ _ hstart hreads).2
      simp only [hlt, if_true]
      rw [List.length_cons] at hle hle'
      exact hopens.findAllFrom_eq fuel fuel' _ h.stop (hreads.in hstart).1 (by omega) (by omega)

section Append

variable {p : Pattern} (hgap : ∀ a ∈ gap, isBlank a) (hopens : p.Opens (!isBlank ·))
  (hp : p.Steady gap) (text : List Char)

include hgap hopens

theorem find?_start_append :
    p.find? (.start (gap ++ text)) = p.find? ((Cursor.start text).behind gap) := by
  have hskip := hopens.findFrom?_append gap text 0 none hgap (Cursor.in_start _)
  rw [Nat.zero_add, Option.or_none] at hskip
  exact hskip

include hp

theorem findIn?_append : p.findIn? (gap ++ text) = (p.findIn? text).map (.behind gap) := by
  rw [findIn?, find?_start_append hgap hopens, find?_behind hp, findIn?]

theorem occursIn_append : p.occursIn (gap ++ text) = p.occursIn text := by
  rw [occursIn, findIn?_append hgap hopens hp, Option.isSome_map, occursIn]

theorem allIn_append : p.allIn (gap ++ text) = (p.allIn text).map (.behind gap) := by
  have hstart : ∀ fuel : List Char, p.findAllFrom [] fuel (.start (gap ++ text)) =
      p.findAllFrom [] fuel ((Cursor.start text).behind gap) := by
    intro fuel
    cases fuel with
    | nil => rfl
    | cons _ _ => rw [findAllFrom, find?_start_append hgap hopens, findAllFrom]
  calc p.allIn (gap ++ text)
      = p.findAllFrom [] (gap ++ text) ((Cursor.start text).behind gap) := hstart (gap ++ text)
    _ = (p.findAllFrom [] (gap ++ text) (.start text)).map (.behind gap) :=
      findAllFrom_behind hp (gap ++ text) [] (.start text)
    _ = (p.allIn text).map (.behind gap) := by
      have hfuel : text.length ≤ (Cursor.start text).offset + (gap ++ text).length := by
        rw [List.length_append]
        omega
      rw [hopens.findAllFrom_eq (gap ++ text) text [] _ (Cursor.in_start text) hfuel (by omega)]
      rfl

end Append

end Pattern

/-! ## Brackets -/

namespace Pairs

variable {opener closer : Char}

/-- Text without brackets is passed over. -/
theorem pairFrom_append (hopener : isBlank opener = false) (hcloser : isBlank closer = false)
    (cs : List Char) (done : Array (Option Nat)) : ∀ (gap : List Char) (i : Nat),
    (∀ a ∈ gap, isBlank a) →
      pairFrom opener closer i [] done (gap ++ cs) =
        pairFrom opener closer (i + gap.length) [] done cs
  | [], _, _ => rfl
  | a :: gap, i, hgap => by
    have ha := hgap a List.mem_cons_self
    have hopen : a ≠ opener := by
      rintro rfl
      simp [hopener] at ha
    have hclose : a ≠ closer := by
      rintro rfl
      simp [hcloser] at ha
    have hlength : i + 1 + gap.length = i + (a :: gap).length := by
      rw [List.length_cons]
      omega
    rw [List.cons_append, pairFrom, beq_false_of_ne hopen, beq_false_of_ne hclose, ← hlength]
    exact pairFrom_append hopener hcloser cs done gap (i + 1)
      fun a' ha' => hgap a' (List.mem_cons_of_mem _ ha')

/-- The partners found in a run behind a gap of `n` characters are those found without. -/
structure Moved (n : Nat) (done done' : Array (Option Nat)) : Prop where
  size_eq : done'.size = n + done.size
  getElem?_eq : ∀ j, done'[n + j]? = done[j]?.map (Option.map (n + ·))

theorem Moved.set {n o i : Nat} {done done' : Array (Option Nat)} (h : Moved n done done') :
    Moved n (done.setIfInBounds o (some i)) (done'.setIfInBounds (n + o) (some (n + i))) := by
  refine ⟨by simp [h.size_eq], fun j => ?_⟩
  simp only [Array.getElem?_setIfInBounds, h.size_eq, h.getElem?_eq, Nat.add_left_cancel_iff,
    Nat.add_lt_add_iff_left]
  split
  · split <;> rfl
  · rfl

theorem moved_pairFrom (opener closer : Char) {n : Nat} :
    ∀ (cs : List Char) (i : Nat) (stack : List Nat)
    {done done' : Array (Option Nat)}, Moved n done done' →
      Moved n (pairFrom opener closer i stack done cs)
        (pairFrom opener closer (n + i) (stack.map (n + ·)) done' cs)
  | [], _, _, _, _, h => h
  | c :: cs, i, stack, done, done', h => by
    unfold pairFrom
    split
    · exact moved_pairFrom opener closer cs (i + 1) (i :: stack) h
    · split
      · cases stack with
        | nil => exact moved_pairFrom opener closer cs (i + 1) [] h
        | cons o stack => exact moved_pairFrom opener closer cs (i + 1) stack h.set
      · exact moved_pairFrom opener closer cs (i + 1) stack h

/-- Brackets find the same partners behind a gap. -/
theorem close?_append (hopener : isBlank opener = false) (hcloser : isBlank closer = false)
    (hgap : ∀ a ∈ gap, isBlank a) (text : List Char) (i : Nat) :
    (of opener closer (gap ++ text)).close? (gap.length + i) =
      ((of opener closer text).close? i).map (gap.length + ·) := by
  have hstart : Moved gap.length (Array.replicate text.length none)
      (Array.replicate (gap ++ text).length none) := by
    refine ⟨by simp, fun j => ?_⟩
    simp only [Array.getElem?_replicate, List.length_append, Nat.add_lt_add_iff_left]
    split <;> rfl
  have hmoved := (moved_pairFrom opener closer text 0 [] hstart).getElem?_eq i
  simp only [close?, of, pairFrom_append hopener hcloser text _ gap 0 hgap, Nat.zero_add]
  simp only [Nat.add_zero, List.map_nil] at hmoved
  rw [hmoved]
  cases (pairFrom opener closer 0 [] (Array.replicate text.length none) text)[i]? <;> rfl

end Pairs

end ContractAudit
