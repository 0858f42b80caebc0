import ContractAudit.Rule.Arguments

/-!
# Signs in the code

The patterns that several rules share : names that guard or privilege, checks of the
sender, transfers of value, comparisons. Names are compared without regard to case where
their spelling is a convention.
-/

namespace ContractAudit

open Pattern

namespace Sign

/-- `==` or `!=`. -/
def equality : Pattern :=
  among "!=" ++ "="

/-! ## Names -/

/-- The whole text is the word, in any case. -/
def exactly (w : String) : Pattern :=
  atStart ++ anyCase w ++ Pattern.atEnd

/-- The name of a modifier that keeps calls from coming back. -/
def guardName : Pattern :=
  oneOf [anyCase "nonreentrant", anyCase "noreentran", anyCase "reentrancyguard", exactly "lock",
    exactly "mutex", exactly "locked"]

/-- The name of a modifier that lets only some callers in. -/
def accessName : Pattern :=
  oneOf [atStart ++ anyCase "only", anyCase "auth", exactly "restricted",
    atStart ++ anyCase "admin", anyCase "owner", anyCase "governance", exactly "initializer",
    exactly "reinitializer"]

/-- A part of the name of a variable that decides who may do what, in any case. -/
def privilegedName : Pattern :=
  oneOfAnyCase ["owner", "admin", "governor", "governance", "operator", "implementation", "minter",
    "guardian", "controller", "authority", "treasury", "oracle"]

/-! ## Statements -/

/-- A comparison with the caller, or a call of a function that makes one. -/
def senderCheck : Pattern :=
  oneOf ["msg.sender" ++ blanks ++ equality, equality ++ blanks ++ "msg.sender",
    "tx.origin" ++ blanks ++ equality, equality ++ blanks ++ "tx.origin",
    edge ++ oneOf ["hasRole", "_checkOwner", "_checkRole", "_onlyOwner", "isOwner", "_isAuthorized",
      "_authorize" ++ stretch isWordChar, "requiresAuth"] ++ blanks ++ "("]

/-- The statement reads the result of the call it starts with. -/
def wrapped : Pattern :=
  oneOf ["require", "assert", "if", "return", "while"] ++ edge

/-- The statement keeps a result in a variable. -/
def captured : Pattern :=
  oneOf ["(" ++ blanks ++ "bool" ++ blanks1 ++ named "flag" (stretch1 isWordChar),
    "bool" ++ blanks1 ++ named "flag" (stretch1 isWordChar) ++ blanks ++ "=" ++ notBefore "=",
    named "flag" (stretch1 isWordChar) ++ blanks ++ "=" ++ notBefore "="]

/-- Ether or tokens leave the contract. -/
def valueOut : Pattern :=
  oneOf ["." ++ blanks ++ "call" ++ blanks ++ "\x7b" ++ blanks ++ "value",
    "." ++ blanks ++ "call" ++ blanks ++ "." ++ blanks ++ "value" ++ blanks ++ "(",
    "." ++ blanks ++ oneOf ["transfer", "send", "transferFrom", "safeTransfer", "safeTransferFrom",
      "sendValue"] ++ blanks ++ "("]

/-- A call that ends the contract. -/
def selfDestruct : Pattern :=
  edge ++ oneOf ["selfdestruct", "suicide"] ++ blanks ++ "("

/-- The contract's own address. -/
def ownAddress : Pattern :=
  "address" ++ blanks ++ "(" ++ blanks ++ "this" ++ blanks ++ ")"

/-- The contract's own balance of a token. -/
def ownTokens : Pattern :=
  "balanceOf" ++ blanks ++ "(" ++ blanks ++ ownAddress ++ blanks ++ ")"

/-- A comparison of any kind. -/
def comparison : Pattern :=
  oneOf [among "<>" ++ maybe "=", equality]

/-- A requirement, or a conditional on the first line. -/
def condition : Pattern :=
  oneOf [oneOf ["require", "assert"] ++ blanks ++ "(", stretch (· != '\n') ++ "?"]

/-- A run of word characters. -/
def wholeWord : Pattern :=
  stretch1 isWordChar

/-- The words of a text. -/
def wordsOf (text : List Char) : List String :=
  (wholeWord.allIn text).map fun h => String.ofList h.text

end Sign

/-! ## Matches and members -/

/-- The match on a whole statement. -/
def Statement.matched (s : Statement) (ruleId evidence : String) : Match :=
  ⟨ruleId, s.start, s.stop, some evidence⟩

namespace Statement

/-- The pattern occurs in the statement. -/
def shows (p : Pattern) (s : Statement) : Bool :=
  p.occursIn s.chars

/-- The statement branches, or requires a condition. -/
def isBranching (s : Statement) : Bool :=
  s.isControlFlow || Sign.condition.starts s.chars

end Statement

namespace Block

/-- The offset where the header ends. -/
def headerStop (b : Block) : Nat :=
  match b.body with
  | some (start, _) => if b.start < start then start - 1 else b.stop
  | none => b.stop

/-- The match on the header of a member. -/
def headerMatched (b : Block) (s : Source) (ruleId evidence : String) : Match :=
  let header := trimRight (s.slice b.start b.headerStop)
  ⟨ruleId, b.start, (b.start + header.length : Nat), some evidence⟩

/-- A modifier of the block lets only some callers in. -/
def hasAccessModifier (b : Block) : Bool :=
  b.modifiers.any fun m => Sign.accessName.occursIn m.toList

/-- A modifier or a check of the sender restricts who may call the member. -/
def hasAccessControl (b : Block) : Bool :=
  b.hasAccessModifier || b.statements.any (·.shows Sign.senderCheck)

/-- A modifier of the block keeps calls from coming back. -/
def isGuarded (b : Block) : Bool :=
  b.modifiers.any fun m => Sign.guardName.occursIn m.toList

/-- The statements that write a privileged variable, each with the variable. Any target can be one,
for no outline has an empty one. -/
def privilegedWrites (b : Block) : List (Statement × String) :=
  b.statements.filterMap fun s =>
    match s.target with
    | some t => if Sign.privilegedName.occursIn t.toList then some (s, t) else none
    | none => none

end Block

/-- The place of an offset in the neutral text, which is cut off at `stop`. -/
def Source.window (s : Source) (start stop : Nat) : Cursor :=
  ⟨start, if start = 0 then none else s.text[start - 1]?, s.slice start stop⟩

end ContractAudit
