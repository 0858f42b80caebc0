import ContractAudit.Text.Integer

/-!
# Lines and columns

The line index of a text holds the offset at which every line starts; a line ends with a
newline and nothing else. Lines and columns are counted from 1.
-/

namespace ContractAudit

/-- A place in a text by its line and its column. -/
structure Location where
  line : Int
  column : Int
  deriving DecidableEq, Repr

/-- The offsets of the starts of the lines, in increasing order. -/
structure LineIndex where
  starts : Array Nat
  deriving DecidableEq, Repr

/-- Why a line has no offset. -/
inductive LineFault where
  /-- There is no such line. -/
  | missing
  /-- The number of the line is no index. -/
  | unaddressable
  deriving DecidableEq, Repr

/-- What the one who asks for the line is told. -/
def LineFault.message : LineFault → String
  | missing => "tuple index out of range"
  | unaddressable => noIndexMessage

namespace LineIndex

/-- The line starts in a text that goes on at offset `i`, behind those already found. -/
def startsFrom (i : Nat) (found : Array Nat) : List Char → Array Nat
  | [] => found
  | c :: cs => startsFrom (i + 1) (if c == '\n' then found.push (i + 1) else found) cs

/-- The starts of all lines of a text. -/
def of (text : List Char) : LineIndex :=
  ⟨startsFrom 0 #[0] text⟩

/-- The line and column of an offset. -/
def location (index : LineIndex) (offset : Nat) : Location :=
  let line := countAtMost index.starts offset
  ⟨line, offset - (index.starts[line - 1]?.getD 0) + 1⟩

/-- The offset of a line and column. Line 0 is the last line, line -1 the one before it,
and so on; there may be no such line, and the column is not checked. -/
def offset (index : LineIndex) (place : Location) : Except LineFault Int :=
  let lines : Int := index.starts.size
  let i := if place.line < 1 then place.line - 1 + lines else place.line - 1
  let start? := if i < 0 then none else index.starts[i.toNat]?
  match start? with
  | some start => pure (start + place.column - 1)
  | none => throw (if isIndex (place.line - 1) then .missing else .unaddressable)

end LineIndex

end ContractAudit
