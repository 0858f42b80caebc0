import ContractAudit.Contract.Basic
import ContractAudit.Text.Bracket

/-!
# Declarations of variables

How a type is written, and the declarations that a statement or a contract's body makes
with it : `localDeclaration?` and `tupleDeclarations` for statements, `stateVariables`
for the top level of a contract's body, `parseParams` for the parameters of a header.
-/

namespace ContractAudit

open Pattern

/-! ## Types -/

/-- The class of all characters. -/
def anyChar (_ : Char) : Bool :=
  true

/-- Words that start a statement and are no type. -/
def notTypes : List String :=
  ["return", "emit", "delete", "revert", "require", "assert", "else", "new", "throw", "break",
    "continue"]

/-- A named type, with its array brackets. -/
def plainType : Pattern :=
  dotted ++ maybe (blanks1 ++ "payable") ++ many (blanks ++ "[" ++ stretch (· != ']') ++ "]")

/-- The dotted name a type starts with, or nothing. -/
def typeBase (typeText : List Char) : String :=
  match dotted.startOf? (trim typeText) with
  | some h => String.ofList h.text
  | none => ""

/-! ## Statements -/

/-- A variable declared by a statement. -/
structure Declared where
  typeText : List Char
  /-- The data location in front of the name. -/
  place : Option (List Char)
  name : String
  deriving DecidableEq, Repr

/-- Where the value of a variable is kept. -/
def dataLocation : Pattern :=
  oneOf ["memory", "storage", "calldata"]

/-- A declaration of one local variable : type, place, name, and then a value or the end. -/
def localPattern : Pattern :=
  named "type" (oneOf ["mapping" ++ blanks ++ "(" ++ shortStretch anyChar ++ ")", plainType]) ++
    blanks1 ++ maybe (named "place" dataLocation ++ blanks1) ++ named "name" ident ++ blanks ++
    oneOf ["=", Pattern.atEnd]

/-- The variable that a statement of the form `Type [location] name [= …]` declares. -/
def localDeclaration? (stmt : List Char) : Option Declared :=
  match localPattern.startOf? stmt with
  | some h =>
    if notTypes.contains (typeBase (h.part "type")) then none
    else some ⟨h.part "type", h.part? "place", String.ofList (h.part "name")⟩
  | none => none

/-- An assignment to a group of names. -/
def tuplePattern : Pattern :=
  "(" ++ named "inner" (stretch (!isParen ·)) ++ ")" ++ blanks ++ "=" ++ notBefore "="

/-- A name inside such a group with a type in front. -/
def tuplePartPattern : Pattern :=
  named "type" (char anyChar ++ shortStretch anyChar) ++ blanks1 ++
    maybe (named "place" dataLocation ++ blanks1) ++ named "name" ident ++ Pattern.atEnd

/-- The variables declared on the left of an assignment to a tuple. -/
def tupleDeclarations (stmt : List Char) : List Declared :=
  match tuplePattern.startOf? stmt with
  | some h =>
    (splitTopLevel ',' (h.part "inner")).filterMap fun part =>
      (tuplePartPattern.startOf? part).map fun g =>
        ⟨g.part "type", g.part? "place", String.ofList (g.part "name")⟩
  | none => []

/-- The variables a statement declares. -/
def declarations (stmt : List Char) : List Declared :=
  match localDeclaration? stmt with
  | some d => [d]
  | none => tupleDeclarations stmt

/-! ## Parameters -/

/-- A parameter with a name; the name is the last word. -/
def paramPattern : Pattern :=
  named "type" (char anyChar ++ shortStretch anyChar) ++ blanks1 ++ named "name" ident ++
    Pattern.atEnd

/-- A parameter from its text : a type and a name, or a type alone. -/
def parseParam (part : List Char) : Parameter :=
  let unnamed : Parameter := ⟨String.ofList (squeeze part), none⟩
  match paramPattern.startOf? part with
  | some h =>
    let name := String.ofList (h.part "name")
    if ["memory", "storage", "calldata", "payable"].contains name then unnamed
    else ⟨String.ofList (squeeze (h.part "type")), some name⟩
  | none => unnamed

/-- The parameters of a header, from the text between its round brackets. -/
def parseParams (text : List Char) : List Parameter :=
  (splitTopLevel ',' text).map parseParam

/-! ## State variables -/

/-- Words that start a member of a contract that is no state variable. -/
def otherMember : Pattern :=
  oneOf ["using", "event", "error", "pragma", "import", "function", "modifier", "constructor",
    "fallback", "receive", "struct", "enum", "type"] ++ edge

/-- A single equals sign : no comparison and no arrow. -/
def lonelyEquals : Pattern :=
  notAfter "=!<>" ++ "=" ++ notBefore "=>"

/-- A word that may stand between the type and the name of a state variable. -/
def variableAttribute : Pattern :=
  oneOf ["public", "private", "internal", "constant", "immutable", "transient",
    "override" ++ maybe (blanks ++ "(" ++ stretch (· != ')') ++ ")")]

/-- A declaration of a state variable, without its value. -/
def variablePattern : Pattern :=
  named "type" (oneOf ["mapping" ++ blanks ++ "(" ++ stretch anyChar ++ ")", plainType]) ++
    many (blanks1 ++ variableAttribute) ++ blanks1 ++ named "name" ident ++ Pattern.atEnd

/-- Longer declarations are passed over. -/
def maxDeclaration : Nat := 1000

/-- The text of a declaration without its initial value. -/
def withoutValue (segment : List Char) : List Char :=
  match lonelyEquals.findIn? segment with
  | some h => trim (segment.take h.start.offset)
  | none => trim segment

/-- The state variable that a member of a contract's body declares. -/
def stateVariable? (segment : List Char) : Option Variable :=
  let segment := trim segment
  if segment.isEmpty || segment.length ≥ maxDeclaration || otherMember.starts segment then none
  else
    match variablePattern.startOf? (withoutValue segment) with
    | some h =>
      if notTypes.contains (String.ofList (h.part "type")) then none
      else some ⟨String.ofList (h.part "name"), String.ofList (squeeze (h.part "type"))⟩
    | none => none

/-- The state variables from the place `c` on, the member at `c` having begun at `member`,
behind those already `found` (kept reversed). A body inside the contract's body is jumped
over; an unmatched one ends the search, as does the offset `stop`. -/
def stateVariablesFrom (braces : Pairs) (stop : Nat) (found : List Variable) (member : Cursor) :
    Nat → Cursor → List Variable
  | 0, _ => found.reverse
  | fuel + 1, c =>
    if c.offset < stop then
      match c.peek with
      | none => found.reverse
      | some '{' =>
        match braces.close? c.offset with
        | none => found.reverse
        | some close =>
          if close < stop then
            let next := c.advanceTo (close + 1)
            stateVariablesFrom braces stop found next fuel next
          else found.reverse
      | some ';' =>
        let next := c.advance 1
        let found := match stateVariable? (member.textTo c) with
          | some v => v :: found
          | none => found
        stateVariablesFrom braces stop found next fuel next
      | some '}' =>
        let next := c.advance 1
        stateVariablesFrom braces stop found next fuel next
      | some _ => stateVariablesFrom braces stop found member fuel (c.advance 1)
    else found.reverse

/-- The state variables declared at the top level of a contract's body, which starts at
`c` and ends at the offset `stop`. -/
def stateVariables (braces : Pairs) (c : Cursor) (stop : Nat) : List Variable :=
  stateVariablesFrom braces stop [] c (stop - c.offset) c

end ContractAudit
