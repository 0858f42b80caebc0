import ContractAudit.Contract.Outline
import ContractAudit.Proofs.Text.Balance
import ContractAudit.Proofs.Text.Words

/-!
# Written contracts

Contracts as an author has them in mind, and how they are written down. A `Written.Contract` has a
name, bases, state variables and members, a member has a role, parameters, attributes and a body of
statements. Names are identifiers that are no reserved words, and a statement is simple, or pays the
sender of the message. `Written.source` writes contracts one behind the other; a `Written.Layout`
says which blanks stand in front of what.
-/

namespace ContractAudit

namespace Written

/-! ## Names -/

/-- Words that open a declaration. -/
def declarationWords : List String :=
  ["contract", "interface", "library", "function", "modifier", "constructor", "fallback", "receive"]

/-- Words that open a statement with a body of its own. -/
def controlWords : List String :=
  ["if", "for", "while", "else", "do"]

/-- Words with a meaning of their own, which are no names. -/
def reservedWords : List String :=
  declarationWords ++ controlWords ++
    ["abstract", "public", "external", "internal", "private", "view", "pure", "payable",
      "nonpayable", "constant", "virtual", "override", "returns", "memory", "storage", "calldata",
      "using", "event", "error", "pragma", "import", "struct", "enum", "type", "return", "emit",
      "delete", "revert",
      "require", "assert", "new", "throw", "break", "continue", "assembly"]

/-- Is the text a name? -/
def isName (cs : List Char) : Bool :=
  cs.head?.any isIdentStart && cs.all isWordChar && !reservedWords.contains (String.ofList cs)

/-- An identifier that is no reserved word. -/
structure Name where
  chars : List Char
  isName_chars : isName chars
  deriving DecidableEq

/-- The name as a text. -/
def Name.text (n : Name) : String :=
  String.ofList n.chars

/-! ## Types and variables -/

/-- The size of an array, or nothing. -/
structure Size where
  digits : List Char
  isDigit_digits : digits.all Char.isDigit
  deriving DecidableEq

/-- A type as a source writes it. -/
inductive TypeName where
  /-- A name with the names it is qualified by in front, and array brackets behind. -/
  | plain (first : Name) (others : List Name) (sizes : List Size)
  | mapping (key value : TypeName)
  deriving DecidableEq

/-- The word in front of the types of a mapping. -/
def TypeName.keyword : List Char :=
  "mapping".toList

/-- The type as it is written. -/
def TypeName.chars : TypeName → List Char
  | plain first others sizes =>
    first.chars ++ (others.flatMap (fun n => '.' :: n.chars) ++
      sizes.flatMap fun s => '[' :: (s.digits ++ [']']))
  | mapping key value =>
    keyword ++ '(' :: (key.chars ++ (' ' :: '=' :: '>' :: ' ' :: value.chars) ++ [')'])

/-- A state variable. Its declaration is not longer than one that is read. -/
structure Variable where
  type : TypeName
  name : Name
  short : (type.chars ++ ' ' :: name.chars).length < maxDeclaration
  deriving DecidableEq

namespace Variable

/-- The declaration as it is written, without its semicolon. -/
def chars (v : Variable) : List Char :=
  v.type.chars ++ ' ' :: v.name.chars

/-- The variable as an outline has it. -/
def record (v : Variable) : ContractAudit.Variable :=
  ⟨v.name.text, String.ofList v.type.chars⟩

end Variable

/-! ## Headers -/

/-- Where the value of a parameter is kept. -/
inductive Place where
  | memory
  | storage
  | calldata
  deriving DecidableEq

/-- The place as it is written. -/
def Place.keyword : Place → String
  | memory => "memory"
  | storage => "storage"
  | calldata => "calldata"

/-- A parameter of a member. -/
structure Param where
  type : TypeName
  place : Option Place
  name : Name
  deriving DecidableEq

namespace Param

/-- The type, with the place of the value. -/
def typeChars (p : Param) : List Char :=
  p.type.chars ++ p.place.toList.flatMap fun place => ' ' :: place.keyword.toList

/-- The parameter as it is written. -/
def chars (p : Param) : List Char :=
  p.typeChars ++ ' ' :: p.name.chars

/-- The parameter as an outline has it. -/
def record (p : Param) : Parameter :=
  ⟨String.ofList p.typeChars, some p.name.text⟩

end Param

/-- What a member is. -/
inductive Role where
  | function (name : Name)
  | modifier (name : Name)
  | constructor
  | fallback
  | receive
  deriving DecidableEq

namespace Role

/-- The kind of block the member is read as. -/
def kind : Role → BlockKind
  | function _ => .function
  | modifier _ => .modifier
  | constructor => .constructor
  | fallback => .fallback
  | receive => .receive

/-- The name that is written behind the keyword. -/
def name? : Role → Option Name
  | function name | modifier name => some name
  | constructor | fallback | receive => none

/-- The name by which the member goes. -/
def name (r : Role) : String :=
  match r.name? with
  | some n => n.text
  | none => r.kind.label

end Role

/-! ## Statements -/

/-- Is the text code throughout, without literals and comments? -/
def isCode : List Char → Bool
  | [] => true
  | c :: cs =>
    !(['"', '\''].contains c) && !(c == '/' && (cs.head? == some '/' || cs.head? == some '*')) &&
      isCode cs

/-- Does the text start with the word? -/
def startsWithWord (cs : List Char) (w : String) : Bool :=
  w.toList.isPrefixOf cs && !(cs.drop w.length).head?.any isWordChar

/-- A statement without a semicolon, braces, literals and comments that is trimmed and whose
brackets are balanced. It does not start with a control word, and no word in it opens a
declaration. -/
def isSimple (cs : List Char) : Bool :=
  !cs.isEmpty && trim cs == cs && level '(' ')' 0 cs == some 0 &&
    cs.all (fun a => !(['{', '}', ';'].contains a)) && isCode cs &&
      !controlWords.any (startsWithWord cs) &&
    !declarationWords.any fun w => (wordRuns cs).contains w.toList

/-- A statement of a body. -/
inductive Statement where
  | simple (chars : List Char) (isSimple_chars : isSimple chars)
  /-- A call that pays the given amount to the sender of the message. -/
  | payment (amount : Name)
  deriving DecidableEq

namespace Statement

/-- The call of a payment. -/
def call : List Char :=
  "(bool ok, ) = msg.sender.call".toList

/-- What is written in front of the amount of a payment. -/
def option : List Char :=
  "value:".toList

/-- The statement as it is written, without its semicolon. -/
def chars : Statement → List Char
  | simple cs _ => cs
  | payment amount =>
    call ++ '{' :: (option ++ ' ' :: (amount.chars ++ '}' :: ['(', '"', '"', ')']))

end Statement

/-! ## Members and contracts -/

/-- The blanks of a source. -/
structure Layout where
  /-- Behind a contract. -/
  apart : List Char
  /-- In front of the brace that closes a contract. -/
  foot : List Char
  /-- In front of a variable, of a member and of the brace that closes a member. -/
  member : List Char
  /-- In front of a statement. -/
  statement : List Char
  blank : ∀ a ∈ apart ++ foot ++ member ++ statement, isBlank a

/-- The text of statements one behind the other. -/
def bodyChars (layout : Layout) (ss : List Statement) : List Char :=
  ss.flatMap fun s => layout.statement ++ (s.chars ++ [';'])

/-- The text of a header behind its keyword. -/
def signature (role : Role) (params : List Param) (attributes : List (List Char)) : List Char :=
  role.name?.toList.flatMap (fun n => ' ' :: n.chars) ++
    '(' :: ([',', ' '].intercalate (params.map Param.chars) ++
      ')' :: attributes.flatMap (' ' :: ·))

/-- The words behind the parameters of a header. -/
def attributes (visibility : Option Visibility) (mutability : List Mutability)
    (modifiers : List Name) : List (List Char) :=
  visibility.toList.map (·.keyword.toList) ++ mutability.map (·.keyword.toList) ++
    modifiers.map Name.chars

/-- A member of a contract. What stands between its keyword and its brace is not longer than what is
read. -/
structure Member where
  role : Role
  params : List Param
  visibility : Option Visibility
  mutability : List Mutability
  modifiers : List Name
  nodup : modifiers.Nodup
  body : List Statement
  short : (signature role params (attributes visibility mutability modifiers) ++ [' ']).length <
    headerLimit

namespace Member

/-- The words behind the parameters. -/
def attributes (m : Member) : List (List Char) :=
  Written.attributes m.visibility m.mutability m.modifiers

/-- The word the member is declared with. -/
def keyword (m : Member) : List Char :=
  m.role.kind.label.toList

/-- The text between the keyword and the brace. -/
def signature (m : Member) : List Char :=
  Written.signature m.role m.params m.attributes ++ [' ']

/-- The text between the braces. -/
def inside (layout : Layout) (m : Member) : List Char :=
  bodyChars layout m.body ++ layout.member

/-- The text in front of the braces. -/
def head (m : Member) : List Char :=
  m.keyword ++ m.signature

/-- The member as it is written. -/
def chars (layout : Layout) (m : Member) : List Char :=
  m.head ++ '{' :: (m.inside layout ++ ['}'])

/-- The header as an outline has it. -/
def header (m : Member) : Header :=
  ⟨m.role.kind, m.role.name, m.params.map Param.record, m.visibility, m.mutability,
    m.modifiers.map Name.text⟩

end Member

/-- The text of variables one behind the other. -/
def variablesChars (layout : Layout) (vs : List Variable) : List Char :=
  vs.flatMap fun v => layout.member ++ (v.chars ++ [';'])

/-- The text of members one behind the other. -/
def membersChars (layout : Layout) (ms : List Member) : List Char :=
  ms.flatMap fun m => layout.member ++ m.chars layout

/-- A contract as a source writes it. -/
structure Contract where
  kind : ContractKind
  name : Name
  bases : List Name
  stateVars : List Variable
  members : List Member

namespace Contract

/-- The text between the name and the brace. -/
def heritage (c : Contract) : List Char :=
  (if c.bases.isEmpty then [] else
    " is ".toList ++ [',', ' '].intercalate (c.bases.map Name.chars)) ++
    [' ']

/-- The text between the braces. -/
def inside (layout : Layout) (c : Contract) : List Char :=
  variablesChars layout c.stateVars ++ (membersChars layout c.members ++ layout.foot)

/-- The text in front of the braces. -/
def head (c : Contract) : List Char :=
  c.kind.label.toList ++ ' ' :: (c.name.chars ++ c.heritage)

/-- The contract as it is written. -/
def chars (layout : Layout) (c : Contract) : List Char :=
  c.head ++ '{' :: (c.inside layout ++ ['}'])

end Contract

/-- The text of contracts one behind the other. -/
def source (layout : Layout) (cs : List Contract) : List Char :=
  cs.flatMap fun c => c.chars layout ++ layout.apart

end Written

end ContractAudit
