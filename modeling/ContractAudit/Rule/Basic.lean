import ContractAudit.Contract.Outline
import ContractAudit.Text.Quoted

/-!
# Rules

A `Rule` describes a weakness and tells where a source shows it. What it is asked, it
answers with an `Outcome` : a list of matches, or something else, or a failure. It may also
cancel tokens, which stops a scan that goes by one of them.
-/

namespace ContractAudit

/-! ## Grades -/

/-- How bad the findings of a rule are. -/
inductive Severity where
  | critical
  | high
  | medium
  | low
  deriving DecidableEq, Repr

namespace Severity

/-- From the gravest to the slightest. -/
def all : List Severity :=
  [critical, high, medium, low]

/-- The severity in data. -/
def name : Severity → String
  | critical => "critical"
  | high => "high"
  | medium => "medium"
  | low => "low"

/-- The severity for a reader. -/
def label : Severity → String
  | critical => "Critical"
  | high => "High"
  | medium => "Medium"
  | low => "Low"

/-- The graver, the higher. -/
def rank : Severity → Nat
  | critical => 4
  | high => 3
  | medium => 2
  | low => 1

/-- What a finding adds to the score. -/
def weight : Severity → Nat
  | critical => 10
  | high => 5
  | medium => 2
  | low => 1

end Severity

/-- What the findings of a rule are about. -/
inductive Category where
  | accessControl
  | reentrancy
  | mev
  | randomness
  | arithmeticSafety
  | externalCalls
  | timestamp
  | availability
  | centralization
  | other
  deriving DecidableEq, Repr

namespace Category

/-- In the order in which reports list them. -/
def all : List Category :=
  [accessControl, reentrancy, mev, randomness, arithmeticSafety, externalCalls, timestamp,
    availability, centralization, other]

/-- The category in data and for a reader. -/
def name : Category → String
  | accessControl => "AccessControl"
  | reentrancy => "Reentrancy"
  | mev => "MEV"
  | randomness => "Randomness"
  | arithmeticSafety => "ArithmeticSafety"
  | externalCalls => "ExternalCalls"
  | timestamp => "Timestamp"
  | availability => "Availability"
  | centralization => "Centralization"
  | other => "Other"

end Category

/-- How much a weakness bears on the gas that is spent. -/
inductive GasImpact where
  | absent
  | low
  | medium
  | high
  deriving DecidableEq, Repr

namespace GasImpact

/-- The impacts, from none on. -/
def all : List GasImpact :=
  [absent, low, medium, high]

/-- The impact in data and for a reader. -/
def name : GasImpact → String
  | absent => "None"
  | low => "Low"
  | medium => "Medium"
  | high => "High"

end GasImpact

/-- A name that no grade of the kind goes by. -/
structure UnknownName where
  kind : String
  name : String
  deriving DecidableEq, Repr

/-- What the one who asks for the name is told. -/
def UnknownName.message (e : UnknownName) : String :=
  quoted e.name ++ " is not a valid " ++ e.kind

/-- The severity of a name; any other text is an error. -/
def Severity.ofName (name : String) : Except UnknownName Severity :=
  match Severity.all.find? (·.name == name) with
  | some s => pure s
  | none => throw ⟨"Severity", name⟩

/-- The category of a name; any other text is an error. -/
def Category.ofName (name : String) : Except UnknownName Category :=
  match Category.all.find? (·.name == name) with
  | some c => pure c
  | none => throw ⟨"Category", name⟩

/-- The impact of a name; any other text is an error. -/
def GasImpact.ofName (name : String) : Except UnknownName GasImpact :=
  match GasImpact.all.find? (·.name == name) with
  | some g => pure g
  | none => throw ⟨"GasImpact", name⟩

/-! ## Answers of a rule -/

/-- A place where a rule applies. The offsets may lie outside the source, and the end
before the start. -/
structure Match where
  ruleId : String
  start : Int
  stop : Int
  evidence : Option String
  deriving DecidableEq, Repr

/-- One item of a rule's answer. -/
inductive Item where
  | found (m : Match)
  /-- Something else, by the name of its type. -/
  | alien (typeName : String)
  deriving DecidableEq, Repr

/-- What a rule answers. -/
inductive Outcome where
  | items (xs : List Item)
  /-- A single thing where a list is expected, by the name of its type. -/
  | notAList (typeName : String)
  /-- A failure that a scan goes on after, by its kind and its message. What ends the whole program,
  such as an interrupt from outside or a request to exit, is none. -/
  | failed (kind message : String)
  deriving DecidableEq, Repr

/-- The matches of a list that holds nothing else, or the first thing that is none. -/
def matchesOnly (xs : List Item) : Except String (List Match) :=
  xs.mapM fun
    | .found m => pure m
    | .alien typeName => throw typeName

/-- Why an answer has no matches, by the kind of the failure and its message. -/
structure RuleFailure where
  kind : String
  message : String
  deriving DecidableEq, Repr

/-- The failure in a report : what kind it is and what it says. -/
def RuleFailure.text (f : RuleFailure) : String :=
  f.kind ++ ": " ++ f.message

/-- The matches of an answer, or why it has none. -/
def Outcome.matches : Outcome → Except RuleFailure (List Match)
  | items xs =>
    match matchesOnly xs with
    | .ok ms => pure ms
    | .error typeName => throw ⟨"TypeError", s!"predicate returned {typeName}, expected Match"⟩
  | notAList typeName => throw ⟨"TypeError", "'" ++ typeName ++ "' object is not iterable"⟩
  | failed kind message => throw ⟨kind, message⟩

/-- A token by which a scan can be cancelled. -/
structure Token where
  number : Nat
  deriving DecidableEq, Repr

/-- An answer, and the tokens cancelled while it was worked out. -/
structure Evaluation where
  outcome : Outcome
  cancels : List Token
  deriving DecidableEq, Repr

/-- What is said about a rule. -/
structure RuleInfo where
  id : String
  title : String
  category : Category
  severity : Severity
  gasImpact : GasImpact
  description : String
  remediation : String
  /-- The entry of the weakness classification registry. -/
  swc : Option String
  deriving DecidableEq, Repr

/-- A rule : what it is called and how it looks at a source. -/
structure Rule extends RuleInfo where
  evaluate : Source → List Block → Evaluation

/-! ## Detectors -/

/-- What can go wrong in a detector. -/
inductive DetectorFault where
  /-- A bracket inside an argument list has no partner. -/
  | unpaired (offset : Nat)
  /-- A version has too many digits. -/
  | overlong (fault : DigitFault)
  deriving DecidableEq, Repr

/-- The fault as the end of an evaluation. -/
def DetectorFault.outcome : DetectorFault → Outcome
  | unpaired offset => .failed "KeyError" (toString offset)
  | overlong fault => .failed "ValueError" fault.message

/-- Finds the matches of a rule in a source with the given members. -/
abbrev Detector := Source → List Block → Except DetectorFault (List Match)

namespace Detector

/-- The detector that looks at one member after the other. -/
def eachBlock (f : Source → Block → Except DetectorFault (List Match)) : Detector :=
  fun s bs => do return (← bs.mapM (f s)).flatten

/-- The detector that looks at the statements of one parsed member after the other. -/
def eachParsed (f : Source → Block → Except DetectorFault (List Match)) : Detector :=
  eachBlock fun s b => if b.isParsed then f s b else pure []

/-- The detector that looks at one entry point that may write after the other. -/
def eachEntryPoint (f : Source → Block → Except DetectorFault (List Match)) : Detector :=
  eachParsed fun s b => if b.isEntryPoint && !b.isView then f s b else pure []

/-- What a rule with this detector answers. -/
def evaluate (detect : Detector) (s : Source) (bs : List Block) : Evaluation :=
  match detect s bs with
  | .ok ms => ⟨.items (ms.map .found), []⟩
  | .error fault => ⟨fault.outcome, []⟩

end Detector

end ContractAudit
