import ContractAudit.Rule.Basic

/-!
# Findings

A `Finding` is a match together with what its rule says and with the place it has in the
source. Reports list findings from the gravest to the slightest, then by line, rule and
offset (`Finding.sort`).
-/

namespace ContractAudit

/-- A stretch of the source that a rule reports, as the reports show it. -/
structure Finding where
  rule : RuleInfo
  start : Int
  stop : Int
  /-- Where it starts. -/
  first : Location
  /-- Where it ends. -/
  last : Location
  /-- The source between the two. -/
  snippet : String
  evidence : Option String
  deriving DecidableEq, Repr

namespace Finding

/-- The finding for a match, whose offsets are moved into the source. -/
def ofMatch (rule : RuleInfo) (source : Source) (m : Match) : Finding :=
  let start := source.clamp m.start
  let stop := max start (source.clamp m.stop)
  { rule
    start
    stop
    first := source.location start
    last := source.location stop
    snippet := source.snippet start stop
    evidence := m.evidence }

/-- The numbers by which reports say where a finding is. -/
def placeNumbers (f : Finding) : List Int :=
  [f.first.line, f.first.column, f.last.line, f.last.column]

/-- The order of reports. -/
def compare : Finding → Finding → Ordering :=
  compareLex (compareOn fun f => -(f.rule.severity.rank : Int)) <|
  compareLex (compareOn fun f => f.first.line) <|
  compareLex (compareOn fun f => f.rule.id) <|
  compareLex (compareOn fun f => f.start) (compareOn fun f => f.stop)

/-- Puts findings into the order of reports. -/
def sort (fs : List Finding) : List Finding :=
  fs.mergeSort fun a b => (a.compare b).isLE

end Finding

end ContractAudit
