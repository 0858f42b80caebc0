import ContractAudit.Source.LineIndex
import ContractAudit.Source.Neutral

/-!
# Sources

A `Source` is the text of a file together with its neutral form and its line index. All
three share their offsets, which count characters. `Source.of?` refuses a text that is
longer than the limit.
-/

namespace ContractAudit

/-- A problem of a source that does not stop its analysis. -/
inductive Warning where
  | unterminatedLiteral
  deriving DecidableEq, Repr

/-- The warning in a report. -/
def Warning.label : Warning → String
  | unterminatedLiteral => "unterminatedLiteral"

/-- A text longer than the limit. -/
structure TooLarge where
  size : Nat
  limit : Int
  deriving DecidableEq, Repr

/-- What the one who scans is told. -/
def TooLarge.message (e : TooLarge) : String :=
  s!"Input of {e.size} characters exceeds the limit of {e.limit}"

/-- A source that was taken in : its text, what is left of it to search, and its lines. -/
structure Source where
  /-- The text as it was given. -/
  raw : Array Char
  /-- The text with comments and literals blanked out. -/
  text : Array Char
  lines : LineIndex
  warnings : List Warning
  deriving DecidableEq, Repr

namespace Source

/-- The source with the given text. -/
def ofChars (raw : List Char) : Source :=
  let neutral := neutralize raw
  { raw := raw.toArray
    text := neutral.text
    lines := LineIndex.of raw
    warnings := if neutral.unterminated then [.unterminatedLiteral] else [] }

/-- The source with the given text, unless it has more characters than `limit`. -/
def of? (limit : Int) (raw : String) : Except TooLarge Source :=
  let chars := raw.toList
  if limit < chars.length then throw ⟨chars.length, limit⟩ else pure (ofChars chars)

/-- How many characters the source has. -/
def length (s : Source) : Nat :=
  s.raw.size

/-- The nearest offset inside the source. -/
def clamp (s : Source) (offset : Int) : Nat :=
  min offset.toNat s.length

/-- The line and column of an offset, taken as the nearest one inside the source. -/
def location (s : Source) (offset : Int) : Location :=
  s.lines.location (s.clamp offset)

/-- The line of an offset. -/
def lineOf (s : Source) (offset : Int) : Int :=
  (s.location offset).line

/-- The source as given, between two offsets. -/
def snippet (s : Source) (start stop : Nat) : String :=
  String.ofList (s.raw.extract start stop).toList

/-- The neutral text between two offsets. -/
def slice (s : Source) (start stop : Nat) : List Char :=
  (s.text.extract start stop).toList

end Source

end ContractAudit
