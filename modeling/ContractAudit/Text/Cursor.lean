import ContractAudit.Text.CharClass

/-!
# Places in a text

A `Cursor` is a place in a text : its offset, the character just before it, if any, and
the text that follows. Every reader of text moves a cursor forward; the character before
is there for the tests that look back over one character.
-/

namespace ContractAudit

/-- A place in a text. -/
structure Cursor where
  /-- How many characters of the text come before the place. -/
  offset : Nat
  /-- The last of them. -/
  before : Option Char
  /-- The text from the place on. -/
  rest : List Char
  deriving DecidableEq, Repr

namespace Cursor

/-- The start of a text. -/
def start (text : List Char) : Cursor :=
  ⟨0, none, text⟩

/-- The character at the place. -/
def peek (c : Cursor) : Option Char :=
  c.rest.head?

/-- The place `n` characters on, or the end of the text. -/
def advance : Nat → Cursor → Cursor
  | 0, c => c
  | _ + 1, ⟨i, b, []⟩ => ⟨i, b, []⟩
  | n + 1, ⟨i, _, a :: r⟩ => advance n ⟨i + 1, some a, r⟩

/-- The place with the given offset, if it lies ahead. -/
def advanceTo (offset : Nat) (c : Cursor) : Cursor :=
  advance (offset - c.offset) c

/-- The text between two places of the same text. -/
def textTo (c d : Cursor) : List Char :=
  c.rest.take (d.offset - c.offset)

/-- Does a word begin or end here? -/
def atWordEdge (c : Cursor) : Bool :=
  c.before.any isWordChar != c.peek.any isWordChar

/-- The end of the text, or the place before a newline that ends it. -/
def atEnd (c : Cursor) : Bool :=
  c.rest.isEmpty || c.rest == ['\n']

/-- The places reached from here over characters of a class, kept in `passed`, the
farthest first. -/
def runFrom (ok : Char → Bool) (passed : List Cursor) (i : Nat) (b : Option Char) :
    List Char → List Cursor
  | [] => ⟨i, b, []⟩ :: passed
  | a :: r =>
    if ok a then runFrom ok (⟨i, b, a :: r⟩ :: passed) (i + 1) (some a) r
    else ⟨i, b, a :: r⟩ :: passed

/-- The places reached over 0, 1, 2, … characters of a class, the farthest first. -/
def run (ok : Char → Bool) (c : Cursor) : List Cursor :=
  runFrom ok [] c.offset c.before c.rest

/-- The place behind `word`, if the text goes on with it up to `same`. -/
def past? (same : Char → Char → Bool) : List Char → Cursor → Option Cursor
  | [], c => some c
  | _ :: _, ⟨_, _, []⟩ => none
  | w :: ws, ⟨i, _, a :: r⟩ => if same w a then past? same ws ⟨i + 1, some a, r⟩ else none

/-- The place behind the blanks that start here. -/
def skipBlanks : Cursor → Cursor
  | ⟨i, b, cs⟩ => go i b cs
where
  /-- The blanks of `cs`, which start at offset `i` behind the character `b`. -/
  go (i : Nat) (b : Option Char) : List Char → Cursor
    | [] => ⟨i, b, []⟩
    | a :: r => if isBlank a then go (i + 1) (some a) r else ⟨i, b, a :: r⟩

end Cursor

end ContractAudit
