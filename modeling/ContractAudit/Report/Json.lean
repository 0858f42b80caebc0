import ContractAudit.JsonValue
import ContractAudit.Report.Basic

/-!
# Reports as JSON

`Report.toJson` holds every field of a report, in a fixed order. `Report.json` is its text with
an indentation of any width, unless that is no index or a number is too long.
-/

namespace ContractAudit

open JsonValue

/-- The rule as the list of rules shows it. -/
def RuleInfo.toJson (r : RuleInfo) : JsonValue :=
  obj [("id", str r.id), ("title", str r.title), ("category", str r.category.name),
    ("severity", str r.severity.name), ("gas_impact", str r.gasImpact.name),
    ("description", str r.description), ("remediation", str r.remediation), ("swc", ofOption r.swc)]

/-- The finding with what the report says of its rule. -/
def Finding.toJson (f : Finding) : JsonValue :=
  obj [("rule_id", str f.rule.id), ("title", str f.rule.title),
    ("category", str f.rule.category.name), ("severity", str f.rule.severity.name),
    ("gas_impact", str f.rule.gasImpact.name),
    ("start_offset", num f.start), ("end_offset", num f.stop),
    ("start_line", num f.first.line), ("start_column", num f.first.column),
    ("end_line", num f.last.line), ("end_column", num f.last.column),
    ("snippet", str f.snippet), ("evidence", ofOption f.evidence),
    ("description", str f.rule.description), ("remediation", str f.rule.remediation),
    ("swc", ofOption f.rule.swc)]

/-- The rule that failed and why. -/
def RuleError.toJson (e : RuleError) : JsonValue :=
  obj [("rule_id", str e.ruleId), ("message", str e.message)]

/-- The block that could not be read and why. -/
def Unparsable.toJson (u : Unparsable) : JsonValue :=
  obj [("name", str u.name), ("kind", str u.kind), ("line", num u.line), ("reason", str u.reason)]

/-- What the report says of the scan itself. -/
def Metadata.toJson (m : Metadata) : JsonValue :=
  obj [("input_length", num m.inputLength), ("unit_count", num m.blockCount),
    ("contract_count", num m.contractCount), ("rules_total", num m.rulesTotal),
    ("rules_evaluated", num m.rulesEvaluated), ("budget_limit", num m.budgetLimit),
    ("budget_used", num m.budgetUsed), ("budget_exceeded", bool m.budgetExceeded),
    ("cancelled", bool m.cancelled), ("rule_errors", arr (m.ruleErrors.map (·.toJson))),
    ("unparsable_blocks", arr (m.unparsable.map (·.toJson))), ("warnings", ofStrings m.warnings)]

/-- The counts, each under its name. -/
def Tally.toJson (t : Tally) : JsonValue :=
  obj (t.map fun (name, n) => (name, num n))

/-- Why a report has no text in JSON. -/
inductive JsonFault where
  /-- The width of the indentation is no index. -/
  | widthNoIndex
  | overlong (fault : DigitFault)
  deriving DecidableEq, Repr

/-- What the one who writes the report is told. -/
def JsonFault.message : JsonFault → String
  | widthNoIndex => noIndexMessage
  | overlong fault => fault.message

namespace Report

/-- The fields of a report. -/
def fields (r : Report) : List (String × JsonValue) :=
  [("risk_label", str r.riskLabel), ("score", num r.score),
    ("summary", obj [("findings_count", num r.findings.length),
      ("categories", Tally.toJson r.categories), ("severities", Tally.toJson r.severities)]),
    ("findings", arr (r.findings.map (·.toJson))), ("metadata", r.metadata.toJson)]

/-- The report as one object. -/
def toJson (r : Report) : JsonValue :=
  obj r.fields

/-- The text of a report in JSON; an indentation below zero is none. -/
def json (indent : Int) (r : Report) : Except JsonFault String :=
  if !isIndex indent then throw .widthNoIndex
  else (r.toJson.write indent.toNat).mapError .overlong

end Report

end ContractAudit
