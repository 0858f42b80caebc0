import ContractAudit.Contract.Declaration

/-!
# Scopes and the classification of statements

A `Scope` collects, statement by statement, the names declared in a body : local
variables, references into storage, and variables that hold a contract. `Scope.classify`
tells with them what a statement does. A name that is not known to be local counts as a
state variable.
-/

namespace ContractAudit

open Pattern

/-- The names that are known where a statement stands. -/
structure Scope where
  /-- Structs, enums and value types of the source : no contracts. -/
  valueTypes : List String
  locals : List String
  storageRefs : List String
  /-- Variables that hold a contract. -/
  callables : List String
  deriving DecidableEq, Repr

namespace Scope

/-! ## Declaring names -/

/-- Is the type that of a contract? Its name is a capitalised word and no value type. -/
def isContractType (s : Scope) (typeText : List Char) : Bool :=
  let base := typeBase typeText
  match base.toList with
  | [] => false
  | c :: cs => isAsciiUpper c && cs.all isWordChar && !s.valueTypes.contains base

/-- Adds a declared name : to the references into the storage or to the locals, by its place. -/
def declare (s : Scope) (d : Declared) : Scope :=
  let inStorage := d.place == some "storage".toList || (words d.typeText).contains "storage".toList
  let s := if inStorage then { s with storageRefs := s.storageRefs.insert d.name }
    else { s with locals := s.locals.insert d.name }
  if s.isContractType d.typeText then { s with callables := s.callables.insert d.name } else s

/-- The scope with the names that a statement declares. -/
def record (s : Scope) (stmt : List Char) : Scope :=
  (declarations stmt).foldl declare s

/-- The scope in which the body of a member starts. -/
def initial (valueTypes : List String) (stateVars : List Variable) (params : List Parameter) :
    Scope :=
  let s : Scope := ⟨valueTypes, [], [], []⟩
  let s := stateVars.foldl
    (fun s v => if s.isContractType v.typeText.toList then
      { s with callables := s.callables.insert v.name } else s) s
  params.foldl
    (fun s p => match p.name with
      | some name => s.declare ⟨p.typeText.toList, none, name⟩
      | none => s) s

/-! ## What a statement writes -/

/-- Names that are never state variables. -/
def reservedNames : List String :=
  ["this", "msg", "tx", "block", "abi", "super", "type", "require", "assert", "revert", "return",
    "emit", "new", "delete", "payable", "address", "_"]

/-- Does a name stand for storage here? -/
def isStorage (s : Scope) (name : String) : Bool :=
  !reservedNames.contains name && (s.storageRefs.contains name || !s.locals.contains name)

/-- An assignment behind a path, alone or joined with an operator. -/
def assignment : Pattern :=
  blanks ++ maybe (oneOf [among "-+*/%|&^", "<<", ">>"]) ++ "=" ++ notBefore "=>"

/-- A step up or down behind a path. -/
def steppedBehind : Pattern :=
  blanks ++ oneOf ["++", "--"]

/-- A step up or down in front of a path. -/
def steppedAhead : Pattern :=
  oneOf ["++", "--"] ++ blanks

/-- A deletion of what a name holds. -/
def deletion : Pattern :=
  "delete" ++ blanks1 ++ named "name" ident

/-- An access to a member of what stands in front. -/
def memberAccess : Pattern :=
  "." ++ blanks ++ named "member" ident

/-- The place behind the square bracket that brings the depth back to zero. -/
def closeSquare? (i : Nat) (depth : Nat) : List Char → Option Cursor
  | [] => none
  | '[' :: cs => closeSquare? (i + 1) (depth + 1) cs
  | ']' :: cs =>
    if depth == 1 then some ⟨i + 1, some ']', cs⟩ else closeSquare? (i + 1) (depth - 1) cs
  | _ :: cs => closeSquare? (i + 1) depth cs

/-- The end of a path of member and index accesses, and the last member named if no index
follows it. There are at most as many steps as characters in `fuel`. No end if an index is
not closed. -/
def pathEnd? (member : List Char) : List Char → Cursor → Option (Cursor × List Char)
  | [], c => some (c, member)
  | _ :: fuel, c =>
    let next := c.skipBlanks
    if next.peek == some '[' then
      match closeSquare? next.offset 0 next.rest with
      | some d => pathEnd? [] fuel d
      | none => none
    else
      match memberAccess.at? next with
      | some h => pathEnd? (h.part "member") fuel h.stop
      | none => some (c, member)

/-- Does the text behind a path write to it? `member` is the last member of the path. -/
def writesPath (member : List Char) (c : Cursor) : Bool :=
  (assignment.at? c).isSome || (steppedBehind.at? c).isSome ||
    ((member == "push".toList || member == "pop".toList) && c.skipBlanks.peek == some '(')

/-- The variable of storage that a statement writes to. -/
def writeTarget (s : Scope) (stmt : List Char) : Option String :=
  let stmt := trimLeft stmt
  let storage (name : List Char) : Option String :=
    if s.isStorage (String.ofList name) then some (String.ofList name) else none
  match deletion.startOf? stmt with
  | some h => storage (h.part "name")
  | none =>
    let ahead := steppedAhead.startOf? stmt
    let path := match ahead with
      | some h => h.stop.rest
      | none => stmt
    match ident.startOf? path with
    | none => none
    | some base =>
      match pathEnd? [] path base.stop with
      | none => none
      | some (c, member) =>
        if ahead.isSome || writesPath member c then storage base.text else none

/-! ## What a statement calls -/

/-- A call by address, with the gas and the value that older sources chain to it. -/
def lowLevelCall : Pattern :=
  "." ++ blanks ++ named "method" (oneOf ["call", "delegatecall", "staticcall"]) ++ blanks ++
    many ("." ++ blanks ++ oneOf ["value", "gas"] ++ blanks ++ flatGroup ++ blanks) ++ among "(\x7b"

/-- A payment by `transfer` or `send`. -/
def etherSend : Pattern :=
  "." ++ blanks ++ oneOf ["transfer", "send"] ++ blanks ++ "("

/-- A call through one of the libraries that wrap the low-level ones. -/
def safeCall : Pattern :=
  "." ++ blanks ++ oneOf ["safeTransfer", "safeTransferFrom", "safeApprove",
    "safeIncreaseAllowance", "sendValue", "functionCall" ++ stretch isWordChar] ++ blanks ++ "("

/-- The inside of a group whose own groups are flat. -/
def shallowInside : Pattern :=
  many (oneOf [char (!isParen ·), flatGroup])

/-- A call of a member of what stands in front. -/
def memberCall : Pattern :=
  "." ++ blanks ++ ident ++ blanks ++ among "(\x7b"

/-- A call of a member of an address cast to a contract. -/
def castCall : Pattern :=
  edge ++ named "type" (char isAsciiUpper ++ stretch isWordChar) ++ blanks ++ "(" ++
    shallowInside ++ ")" ++ blanks ++ memberCall

/-- A call of a member of a variable, or of an element of it. -/
def variableCall : Pattern :=
  edge ++ named "name" ident ++ blanks ++ maybe ("[" ++ stretch (· != ']') ++ "]" ++ blanks) ++
    memberCall

/-- Does a statement call another contract? -/
def isExternalCall (s : Scope) (stmt : List Char) : Bool :=
  lowLevelCall.occursIn stmt || etherSend.occursIn stmt || safeCall.occursIn stmt ||
    (castCall.allIn stmt).any (fun h => !s.valueTypes.contains (String.ofList (h.part "type"))) ||
    (variableCall.allIn stmt).any fun h => s.callables.contains (String.ofList (h.part "name"))

/-! ## Classification -/

/-- The word in front of an event. -/
def emitWord : Pattern :=
  "emit" ++ edge

/-- The word in front of what runs when a call fails. -/
def catchWord : Pattern :=
  "catch" ++ edge

/-- What a statement does, what it writes to, and the scope behind it. -/
def classify (s : Scope) (stmt : List Char) : StatementKind × Option String × Scope :=
  if emitWord.starts stmt then (.eventEmit, none, s)
  else
    let s := s.record stmt
    let target := s.writeTarget stmt
    if s.isExternalCall stmt then (.externalCall, target, s)
    else if target.isSome then (.stateWrite, target, s)
    else if catchWord.starts stmt then (.controlFlow, none, s)
    else (.other, none, s)

end Scope

end ContractAudit
