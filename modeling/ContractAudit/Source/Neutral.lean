/-!
# Neutral text

`neutralize` blanks out what is not code : the marks and contents of comments and the
contents of literals become spaces, one for each character, so that offsets stay those of
the source. Newlines and the quotes around a literal are kept. It reads one character at a
time, looking at the one behind it, and says whether a comment or a literal was cut off.
-/

namespace ContractAudit

/-- Where in a source the reader stands. -/
inductive Region where
  /-- In code. -/
  | code
  /-- Before the second slash of a line comment's mark. -/
  | lineMark
  /-- In a line comment. -/
  | line
  /-- Before the star of a block comment's opening mark. -/
  | blockMark
  /-- In a block comment. -/
  | block
  /-- Before the slash of a block comment's closing mark. -/
  | blockEnd
  /-- In a literal between the given quotes. -/
  | literal (quote : Char)
  /-- Behind a backslash in such a literal. -/
  | escaped (quote : Char)
  deriving DecidableEq, Repr

namespace Region

/-- One character `c` in front of `next` : what is written for it and where the reader
stands behind it. -/
def step (c : Char) (next : Option Char) : Region → Char × Region
  | code =>
    if c == '/' && next == some '/' then (' ', lineMark)
    else if c == '/' && next == some '*' then (' ', blockMark)
    else if c == '"' || c == '\'' then (c, literal c)
    else (c, code)
  | lineMark => (' ', line)
  | line => if c == '\n' then (c, code) else (' ', line)
  | blockMark => (' ', block)
  | block =>
    if c == '\n' then (c, block)
    else if c == '*' && next == some '/' then (' ', blockEnd)
    else (' ', block)
  | blockEnd => (' ', code)
  | literal q =>
    if c == '\n' then (c, code)
    else if c == '\\' && next.any (· != '\n') then (' ', escaped q)
    else if c == q then (c, code)
    else (' ', literal q)
  | escaped q => (' ', literal q)

/-- Is a literal cut off by the character `c`? -/
def cutBy (c : Char) : Region → Bool
  | literal _ => c == '\n'
  | _ => false

/-- Is a comment or a literal cut off where the source ends? -/
def openAtEnd : Region → Bool
  | block | literal _ => true
  | _ => false

end Region

/-- A text with its comments and literals blanked out. -/
structure Neutral where
  text : Array Char
  /-- A block comment or a literal was not closed. -/
  unterminated : Bool
  deriving DecidableEq, Repr

/-- Blanks out the rest of a source, behind what is `done`. -/
def neutralizeFrom (region : Region) (done : Neutral) : List Char → Neutral
  | [] => { done with unterminated := done.unterminated || region.openAtEnd }
  | c :: cs =>
    let (out, region') := region.step c cs.head?
    neutralizeFrom region'
      ⟨done.text.push out, done.unterminated || region.cutBy c⟩ cs

/-- The text with comments and literals blanked out, and whether a literal was left open. -/
def neutralize (source : List Char) : Neutral :=
  neutralizeFrom .code ⟨#[], false⟩ source

end ContractAudit
