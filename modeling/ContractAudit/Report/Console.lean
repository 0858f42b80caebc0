import ContractAudit.Report.Basic

/-!
# Reports on the console

What is shown of a report once it is made : lines with the numbers, a table of the findings
and the paths of the files. Tables are given as cells; how they are drawn is left to the one
who shows them.
-/

namespace ContractAudit

/-- A cell of a table; the console may style its text. -/
inductive Cell where
  | plain (text : String)
  | styled (text style : String)
  deriving DecidableEq, Repr

/-- A table : the titles of its columns and its rows. -/
structure Table where
  columns : List String
  rows : List (List Cell)
  deriving DecidableEq, Repr

/-- Something shown on the console. -/
inductive ConsoleItem where
  | text (s : String)
  | table (t : Table)
  deriving DecidableEq, Repr

/-- Puts an item behind the others, a text into one with a text before it. -/
def showItem (shown : List ConsoleItem) (item : ConsoleItem) : List ConsoleItem :=
  match item, shown.getLast? with
  | .text s, some (.text before) => shown.dropLast ++ [.text (before ++ s)]
  | _, _ => shown ++ [item]

/-- The lines as one text, each with its end. -/
def consoleText (lines : List String) : ConsoleItem :=
  .text (String.join (lines.map (· ++ "\n")))

/-- How the console styles a severity. -/
def Severity.style : Severity → String
  | critical => "bold red"
  | high => "bold yellow"
  | medium => "yellow"
  | low => "green"

/-- The severity as a cell of a table. -/
def Severity.cell (s : Severity) : Cell :=
  .styled s.label s.style

/-- The first items, or all but the last ones if `n` is negative. -/
def takeFirst {α : Type} (n : Int) (xs : List α) : List α :=
  if 0 ≤ n then xs.take n.toNat else xs.take (xs.length - n.natAbs)

/-- The row of a finding : it shows the evidence, or the title if there is none. -/
def Finding.row (f : Finding) : List Cell :=
  let details := match f.evidence with
    | some evidence => if evidence.isEmpty then f.rule.title else evidence
    | none => f.rule.title
  [f.rule.severity.cell, .plain f.rule.id, .plain f.rule.category.name,
    .plain s!"{f.first.line}:{f.first.column}", .plain details]

namespace Report

/-- The summary below the findings; it says so when the scan was cut short. -/
def summaryLines (r : Report) : List String :=
  ["", "Scan summary:",
    s!"- Overall risk: {r.riskLabel} (score {r.score})",
    s!"- Total findings: {r.findings.length}"] ++
  (if r.metadata.isPartial then
    ["- Results are partial (scan cancelled or evaluation budget exhausted)"]
    else [])

/-- The table of the first findings, or of all. -/
def table (r : Report) (top : Int) (full : Bool) : Table where
  columns := ["Severity", "Rule", "Category", "Line:Col", "Details"]
  rows := (if full then r.findings else takeFirst top r.findings).map (·.row)

/-- The lines on the files a report was written to, by the names of their formats. -/
def pathLines (paths : List (String × String)) : List String :=
  let path (format : String) := (paths.lookup format).getD "None"
  ["", "Saved reports:",
    "- JSON:     " ++ path "json",
    "- CSV:      " ++ path "csv",
    "- HTML:     " ++ path "html",
    "- Markdown: " ++ path "markdown", ""]

/-- What is shown of a report. -/
def console (r : Report) (paths : List (String × String)) (top : Int) (full : Bool) :
    List ConsoleItem :=
  [consoleText r.summaryLines] ++
  (if r.findings.isEmpty then [] else [.table (r.table top full)]) ++
  (if paths.isEmpty then [] else [consoleText (pathLines paths)])

end Report

/-- The table of rules. -/
def ruleTable (rules : List RuleInfo) : Table where
  columns := ["Id", "Severity", "Category", "Gas", "SWC", "Title"]
  rows := rules.map fun r => [.plain r.id, r.severity.cell, .plain r.category.name,
    .plain r.gasImpact.name, .plain (r.swc.getD ""), .plain r.title]

end ContractAudit
