import ContractAudit.Risk

/-!
# Reports

A `Report` holds the findings of a scan in order, what they add up to, and how the scan went
(`Metadata`). It is plain data : the texts written from it depend on nothing else.
-/

namespace ContractAudit

/-- A rule that failed and was passed over. -/
structure RuleError where
  ruleId : String
  message : String
  deriving DecidableEq, Repr

/-- A member of a contract that could not be taken apart. -/
structure Unparsable where
  name : String
  kind : String
  line : Int
  reason : String
  deriving DecidableEq, Repr

/-- How a scan went. -/
structure Metadata where
  inputLength : Int
  blockCount : Int
  contractCount : Int
  rulesTotal : Int
  rulesEvaluated : Int
  budgetLimit : Int
  budgetUsed : Int
  budgetExceeded : Bool
  cancelled : Bool
  ruleErrors : List RuleError
  unparsable : List Unparsable
  warnings : List String
  deriving DecidableEq, Repr

/-- Some rules were not asked. -/
def Metadata.isPartial (m : Metadata) : Bool :=
  m.budgetExceeded || m.cancelled

/-- What a scan of one source tells. -/
structure Report where
  findings : List Finding
  score : Int
  riskLabel : String
  categories : Tally
  severities : Tally
  metadata : Metadata
  deriving DecidableEq, Repr

/-- The report on the given findings. -/
def Report.of (findings : List Finding) (metadata : Metadata) : Report :=
  let sorted := Finding.sort findings
  let summary := Summary.of sorted
  { findings := sorted
    score := summary.score
    riskLabel := summary.level.label
    categories := summary.categories
    severities := summary.severities
    metadata }

end ContractAudit
