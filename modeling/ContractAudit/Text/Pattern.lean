import ContractAudit.Text.Cursor

/-!
# Text patterns

A `Pattern` says how a stretch of text may look. `Pattern.read` tries the ways in which
a pattern can match at a place, in order of preference, and hands each end to what is to
follow until that accepts : so a pattern gives text back when the rest of the match needs
it. A stretch of a class is tried from its longest form on (`stretch`) or from its shortest
(`shortStretch`), alternatives in the order they are written.

`Pattern.at?` is the preferred match at a place, `Pattern.find?` the first match in a
text, `Pattern.findAll` the matches one behind the other.
-/

namespace ContractAudit

/-- What a stretch of a text is searched for. -/
inductive Pattern where
  /-- One character of a class. -/
  | char (ok : Char → Bool)
  /-- The characters of `cs` in order, compared by `same`. -/
  | word (same : Char → Char → Bool) (cs : List Char)
  /-- No text, at a place that passes the test. -/
  | check (ok : Cursor → Bool)
  /-- One pattern and then another. -/
  | seq (p q : Pattern)
  /-- One pattern, or else the other. -/
  | alt (p q : Pattern)
  /-- Any number of characters of a class, the more the better. -/
  | stretch (ok : Char → Bool)
  /-- Any number of characters of a class, the fewer the better. -/
  | shortStretch (ok : Char → Bool)
  /-- A pattern any number of times, each time in its preferred way, the more the better. -/
  | many (p : Pattern)
  /-- A pattern whose text is kept under a label. -/
  | named (label : String) (p : Pattern)

/-- The texts kept by a match, as labels with the places where a text starts and ends, the
latest first. -/
abbrev Parts := List (String × Cursor × Cursor)

/-- A match : where it starts, where it ends and what it kept. -/
structure Hit where
  start : Cursor
  stop : Cursor
  parts : Parts
  deriving DecidableEq, Repr

namespace Cursor

/-- The places reached by taking steps that move on, kept in `passed`, the farthest first.
There are at most as many steps as characters in `fuel`. -/
def stepsFrom (step : Cursor → Option Cursor) (passed : List Cursor) :
    List Char → Cursor → List Cursor
  | [], c => c :: passed
  | _ :: fuel, c =>
    match step c with
    | some d => if c.offset < d.offset then stepsFrom step (c :: passed) fuel d else c :: passed
    | none => c :: passed

/-- The places reached by 0, 1, 2, … steps that move on, the farthest first. -/
def steps (step : Cursor → Option Cursor) (c : Cursor) : List Cursor :=
  stepsFrom step [] c.rest c

end Cursor

namespace Hit

/-- The text kept under a label, if the match went through it. -/
def part? (h : Hit) (label : String) : Option (List Char) :=
  (h.parts.lookup label).map fun (c, d) => c.textTo d

/-- The text kept under a label, or the empty text. -/
def part (h : Hit) (label : String) : List Char :=
  (h.part? label).getD []

/-- The text matched. -/
def text (h : Hit) : List Char :=
  h.start.textTo h.stop

end Hit

namespace Pattern

/-- The first answer that `k` gives at an end of the pattern, the ends taken in order of
preference. -/
def read : {α : Type} → Pattern → Cursor → Parts → (Cursor → Parts → Option α) → Option α
  | _, char ok, ⟨i, _, a :: r⟩, ps, k => if ok a then k ⟨i + 1, some a, r⟩ ps else none
  | _, char _, ⟨_, _, []⟩, _, _ => none
  | _, word same cs, c, ps, k =>
    match c.past? same cs with
    | some d => k d ps
    | none => none
  | _, check ok, c, ps, k => if ok c then k c ps else none
  | _, seq p q, c, ps, k => read p c ps fun d qs => read q d qs k
  | _, alt p q, c, ps, k =>
    match read p c ps k with
    | some x => some x
    | none => read q c ps k
  | _, stretch ok, c, ps, k => (c.run ok).findSome? (k · ps)
  | _, shortStretch ok, c, ps, k => (c.run ok).reverse.findSome? (k · ps)
  | _, many p, c, ps, k => (c.steps fun d => read p d [] fun e _ => some e).findSome? (k · ps)
  | _, named label p, c, ps, k => read p c ps fun d qs => k d ((label, c, d) :: qs)

/-! ## Building patterns -/

/-- Exactly the given word. -/
def text (w : String) : Pattern :=
  word (· == ·) w.toList

/-- The given word in any case. -/
def anyCase (w : String) : Pattern :=
  word (fun a b => foldCase a == foldCase b) w.toList

instance : Coe String Pattern := ⟨text⟩

instance : Append Pattern := ⟨seq⟩

/-- No text. -/
def nothing : Pattern :=
  check fun _ => true

/-- No match. -/
def never : Pattern :=
  check fun _ => false

/-- One of the patterns, the earlier the better. -/
def oneOf (ps : List Pattern) : Pattern :=
  ps.foldr alt never

/-- One of the words, in any case. -/
def oneOfAnyCase (ws : List String) : Pattern :=
  oneOf (ws.map anyCase)

/-- The pattern, or else no text. -/
def maybe (p : Pattern) : Pattern :=
  alt p nothing

/-- One of the characters. -/
def charOf (cs : List Char) : Pattern :=
  char cs.contains

/-- One of the characters of the word. -/
def among (w : String) : Pattern :=
  charOf w.toList

/-- One or more characters of a class. -/
def stretch1 (ok : Char → Bool) : Pattern :=
  char ok ++ stretch ok

/-- Blanks, or nothing. -/
def blanks : Pattern :=
  stretch isBlank

/-- One blank or more. -/
def blanks1 : Pattern :=
  stretch1 isBlank

/-- The edge of a word. -/
def edge : Pattern :=
  check Cursor.atWordEdge

/-- The start of the text. -/
def atStart : Pattern :=
  check fun c => c.before.isNone

/-- The end of the text. -/
def atEnd : Pattern :=
  check Cursor.atEnd

/-- The next character is none of the given ones. -/
def notBefore (w : String) : Pattern :=
  check fun c => !c.peek.any w.toList.contains

/-- The character before is none of the given ones. -/
def notAfter (w : String) : Pattern :=
  check fun c => !c.before.any w.toList.contains

/-- A letter or underscore and the word characters behind it. -/
def ident : Pattern :=
  char isIdentStart ++ stretch isWordChar

/-- An identifier that may go on with dots. -/
def dotted : Pattern :=
  char isIdentStart ++ stretch fun c => isWordChar c || c == '.'

/-! ## Matching -/

/-- The preferred match at a place. -/
def at? (p : Pattern) (c : Cursor) : Option Hit :=
  p.read c [] fun d ps => some ⟨c, d, ps⟩

/-- The first match that starts before the place `n` characters on. -/
def findBefore? (p : Pattern) : Nat → Cursor → Option Hit
  | 0, _ => none
  | n + 1, c =>
    match p.at? c with
    | some h => some h
    | none =>
      match c with
      | ⟨_, _, []⟩ => none
      | ⟨i, _, a :: r⟩ => findBefore? p n ⟨i + 1, some a, r⟩

/-- The first match in the text `cs`, which starts at offset `i` behind the character `b`. -/
def findFrom? (p : Pattern) (i : Nat) (b : Option Char) : List Char → Option Hit
  | [] => p.at? ⟨i, b, []⟩
  | a :: r =>
    match p.at? ⟨i, b, a :: r⟩ with
    | some h => some h
    | none => findFrom? p (i + 1) (some a) r

/-- The first match at or behind a place. -/
def find? (p : Pattern) (c : Cursor) : Option Hit :=
  p.findFrom? c.offset c.before c.rest

/-- The matches behind the matches `found` (kept reversed), at most one for each character
of `fuel`. -/
def findAllFrom (p : Pattern) (found : List Hit) : List Char → Cursor → List Hit
  | [], _ => found.reverse
  | _ :: fuel, c =>
    match p.find? c with
    | some h =>
      findAllFrom p (h :: found) fuel
        (if h.start.offset < h.stop.offset then h.stop else h.stop.advance 1)
    | none => found.reverse

/-- The matches from a place on, each searched for behind the one before it. -/
def findAll (p : Pattern) (c : Cursor) : List Hit :=
  p.findAllFrom [] c.rest c

/-- The matches from a place on of a pattern none of whose matches lacks the given sign : where
the sign is not found, there is nothing to search for. -/
def findAllWith (sign p : Pattern) (c : Cursor) : List Hit :=
  if (sign.find? c).isSome then p.findAll c else []

/-- The preferred match at the start of a text. -/
def startOf? (p : Pattern) (cs : List Char) : Option Hit :=
  p.at? (Cursor.start cs)

/-- Does the text start with the pattern? -/
def starts (p : Pattern) (cs : List Char) : Bool :=
  (p.startOf? cs).isSome

/-- Does the whole text match? -/
def fits (p : Pattern) (cs : List Char) : Bool :=
  (p.read (Cursor.start cs) [] fun d _ => if d.rest.isEmpty then some () else none).isSome

/-- The first match in a text. -/
def findIn? (p : Pattern) (cs : List Char) : Option Hit :=
  p.find? (Cursor.start cs)

/-- Is there a match in the text? -/
def occursIn (p : Pattern) (cs : List Char) : Bool :=
  (p.findIn? cs).isSome

/-- The matches in a text, one behind the other. -/
def allIn (p : Pattern) (cs : List Char) : List Hit :=
  p.findAll (Cursor.start cs)

/-- The matches in a text of a pattern that needs the given sign. -/
def allInWith (sign p : Pattern) (cs : List Char) : List Hit :=
  findAllWith sign p (Cursor.start cs)

/-- The text from `c` on with each of the matches replaced by `new`, behind the text
`done` (kept reversed). -/
def spliceFrom (new : List Char) (done : List Char) (c : Cursor) : List Hit → List Char
  | [] => done.reverse ++ c.rest
  | h :: hs => spliceFrom new (new.reverseAux ((c.textTo h.start).reverseAux done)) h.stop hs

/-- The text with every match replaced by `new`. -/
def replaceIn (p : Pattern) (new : List Char) (cs : List Char) : List Char :=
  spliceFrom new [] (Cursor.start cs) (p.allIn cs)

/-- The text with every match of a pattern that needs the given sign replaced by `new`. -/
def replaceInWith (sign p : Pattern) (new : List Char) (cs : List Char) : List Char :=
  spliceFrom new [] (Cursor.start cs) (allInWith sign p cs)

end Pattern

end ContractAudit
