/-!
# Contracts, members and statements

The outline of a source : its contracts with their state variables, and the members of
contracts with a body (`Block`), each with its header and, if the body could be read, its
statements in order. Offsets point into the source.
-/

namespace ContractAudit

/-! ## Statements -/

/-- What a statement does, as far as the rules ask. -/
inductive StatementKind where
  | externalCall
  | stateWrite
  | controlFlow
  | eventEmit
  | other
  deriving DecidableEq, Repr

/-- The kind in a report. -/
def StatementKind.label : StatementKind → String
  | externalCall => "external-call"
  | stateWrite => "state-write"
  | controlFlow => "control-flow"
  | eventEmit => "event-emit"
  | other => "other"

/-- A statement, or the header of an `if` or a loop. -/
structure Statement where
  kind : StatementKind
  start : Nat
  /-- The offset behind the last character. -/
  stop : Nat
  text : String
  /-- How many loops have the statement in their body. -/
  loopDepth : Nat
  /-- The state variable that is written. It is an identifier, so there is no empty one. -/
  target : Option String
  deriving DecidableEq, Repr

namespace Statement

/-- The text of the statement as a list. -/
def chars (s : Statement) : List Char :=
  s.text.toList

/-- The statement calls out of the contract. -/
def isExternalCall (s : Statement) : Bool :=
  s.kind == .externalCall

/-- The statement is the header of a branch or of a loop. -/
def isControlFlow (s : Statement) : Bool :=
  s.kind == .controlFlow

end Statement

/-! ## Contracts -/

/-- A state variable and its type as it is written. -/
structure Variable where
  name : String
  typeText : String
  deriving DecidableEq, Repr

/-- What a contract is declared as. -/
inductive ContractKind where
  | contract
  | abstractContract
  | interface
  | library
  deriving DecidableEq, Repr

/-- The kind as it is written in a source. -/
def ContractKind.label : ContractKind → String
  | contract => "contract"
  | abstractContract => "abstract contract"
  | interface => "interface"
  | library => "library"

/-- A contract of the source : its name, its range and what it declares. -/
structure Contract where
  name : String
  kind : ContractKind
  start : Nat
  stop : Nat
  bases : List String
  stateVars : List Variable
  /-- The body is not closed; the contract then reaches to the end of the source. -/
  unparsable : Bool
  deriving DecidableEq, Repr

/-- The names of the state variables. -/
def Contract.variableNames (c : Contract) : List String :=
  c.stateVars.map (·.name)

/-! ## Members -/

/-- What a block of code is declared as. -/
inductive BlockKind where
  | function
  | modifier
  | constructor
  | fallback
  | receive
  deriving DecidableEq, Repr

/-- The kind as it is written in a source. -/
def BlockKind.label : BlockKind → String
  | function => "function"
  | modifier => "modifier"
  | constructor => "constructor"
  | fallback => "fallback"
  | receive => "receive"

/-- Who may call a function, by the keyword in its header. -/
inductive Visibility where
  | everyone
  | outside
  | family
  | self
  deriving DecidableEq, Repr

/-- The visibility as it is written in a source. -/
def Visibility.keyword : Visibility → String
  | everyone => "public"
  | outside => "external"
  | family => "internal"
  | self => "private"

/-- What a function may do to the state. -/
inductive Mutability where
  | view
  | pure
  | payable
  | nonpayable
  deriving DecidableEq, Repr

/-- The mutability as it is written in a source. -/
def Mutability.keyword : Mutability → String
  | view => "view"
  | pure => "pure"
  | payable => "payable"
  | nonpayable => "nonpayable"

/-- A parameter of a block; its name may be left out. -/
structure Parameter where
  typeText : String
  name : Option String
  deriving DecidableEq, Repr

/-- What stands between the keyword of a member and its body. -/
structure Header where
  kind : BlockKind
  /-- Empty if the member has no name of its own. -/
  name : String
  params : List Parameter
  visibility : Option Visibility
  mutability : List Mutability
  modifiers : List String
  deriving DecidableEq, Repr

/-- Why the body of a member could not be read. -/
inductive Fault where
  | missingBody
  | unbalancedBraces
  deriving DecidableEq, Repr

/-- The fault in a report. -/
def Fault.reason : Fault → String
  | missingBody => "missing body"
  | unbalancedBraces => "unbalanced braces"

/-- A function, modifier, constructor, fallback or receive declaration. -/
structure Block extends Header where
  start : Nat
  stop : Nat
  contract : Option Contract
  /-- The offsets behind the opening brace and of the closing one. -/
  body : Option (Nat × Nat)
  /-- Empty if there is a fault. -/
  statements : List Statement
  fault : Option Fault
  deriving DecidableEq, Repr

namespace Block

/-- The block has a closed body, which was read. -/
def isParsed (b : Block) : Bool :=
  b.fault.isNone

/-- The name of the contract around the block, empty for a block outside all contracts. -/
def contractName (b : Block) : String :=
  match b.contract with
  | some c => c.name
  | none => ""

/-- The name, or else the kind, behind the name of the contract. -/
def displayName (b : Block) : String :=
  let own := if b.name.isEmpty then b.kind.label else b.name
  if b.contractName.isEmpty then own else b.contractName ++ "." ++ own

/-- The names of the parameters that have one. -/
def paramNames (b : Block) : List String :=
  b.params.filterMap (·.name)

/-- The member promises not to write. -/
def isView (b : Block) : Bool :=
  b.mutability.contains .view || b.mutability.contains .pure

/-- The member can be called from outside the contract; a function that does not say is
public. -/
def isEntryPoint (b : Block) : Bool :=
  match b.kind with
  | .fallback | .receive => true
  | .function => b.visibility == none || b.visibility == some .everyone ||
      b.visibility == some .outside
  | _ => false

end Block

/-- The contracts and members of a source, in the order they start. -/
structure Outline where
  contracts : List Contract
  blocks : List Block
  deriving DecidableEq, Repr

/-- The members whose body could not be read. -/
def Outline.unparsable (o : Outline) : List Block :=
  o.blocks.filter (!·.isParsed)

end ContractAudit
