import ContractAudit.Report.Basic

/-!
# Reports in Markdown

A page with the numbers, notes on how the scan went, and a section for each finding
(`Report.markdownPage`). A snippet stands between fences that are longer than any run of
backticks in it. There is no page if a number on it is too long (`Report.markdown`).
-/

namespace ContractAudit

/-! ## Fences -/

/-- The longest run of backticks : `run` is the length of the one under way and `best` that of
the longest so far. -/
def longestTicks (run best : Nat) : List Char → Nat
  | [] => best
  | c :: later =>
    if c == '`' then longestTicks (run + 1) (max best (run + 1)) later
    else longestTicks 0 best later

/-- The fence around a snippet. -/
def fence (snippet : String) : String :=
  String.ofList (List.replicate (max 3 (longestTicks 0 0 snippet.toList + 1)) '`')

/-! ## Sections -/

namespace Finding

/-- The heading of the `n`-th finding. -/
def heading (n : Nat) (f : Finding) : String :=
  s!"### Finding {n}: {f.rule.title}"

/-- The line on the entry in the weakness registry, if there is one. -/
def registryLines (f : Finding) : List String :=
  match f.rule.swc with
  | some swc => if swc.isEmpty then [] else [s!"- **SWC:** {swc}"]
  | none => []

/-- The line that says from where to where a finding reaches. -/
def whereabouts (f : Finding) : String :=
  s!"- **Location:** line {f.first.line}, column {f.first.column} to " ++
    s!"line {f.last.line}, column {f.last.column}"

/-- The lines between the heading and the snippet. -/
def facts (f : Finding) : List String :=
  ["", s!"- **Rule:** `{f.rule.id}`", s!"- **Category:** {f.rule.category.name}",
    s!"- **Severity:** {f.rule.severity.label}", s!"- **Gas impact:** {f.rule.gasImpact.name}"] ++
  f.registryLines ++ [f.whereabouts, ""]

/-- The lines on the evidence, if there is any. -/
def evidenceLines (f : Finding) : List String :=
  match f.evidence with
  | some evidence => if evidence.isEmpty then [] else [s!"**Evidence:** {evidence}", ""]
  | none => []

/-- The lines between the snippet and the remedy. -/
def remarks (f : Finding) : List String :=
  [""] ++ f.evidenceLines ++ [s!"**Description:** {f.rule.description}", ""]

/-- The last line that is not empty. -/
def remedy (f : Finding) : String :=
  s!"**Remediation:** {f.rule.remediation}"

/-- The lines up to the remedy. -/
def beforeRemedy (n : Nat) (f : Finding) : List String :=
  f.heading n :: f.facts ++ [fence f.snippet ++ "solidity", f.snippet, fence f.snippet] ++ f.remarks

/-- The lines on the `n`-th finding. -/
def markdown (n : Nat) (f : Finding) : List String :=
  f.beforeRemedy n ++ [f.remedy, ""]

end Finding

/-- The notes on how a scan went. -/
def Metadata.notes (m : Metadata) : List String :=
  (if m.cancelled then
    [s!"- Scan was cancelled after {m.rulesEvaluated} of {m.rulesTotal} rules; " ++
      "results are partial."]
    else []) ++
  (if m.budgetExceeded then
    [s!"- Evaluation budget exhausted after {m.rulesEvaluated} of {m.rulesTotal} rules; " ++
      "results are partial."]
    else []) ++
  m.ruleErrors.map (fun e => s!"- Rule `{e.ruleId}` failed and was skipped: {e.message}") ++
  m.unparsable.map (fun u =>
    s!"- Could not structure {u.kind} `{u.name}` at line {u.line} ({u.reason}).") ++
  m.warnings.map fun w => s!"- Source warning: {w}"

/-- The numbers in the notes. -/
def Metadata.notedNumbers (m : Metadata) : List Int :=
  (if m.isPartial then [m.rulesEvaluated, m.rulesTotal] else []) ++ m.unparsable.map (·.line)

/-- The number under a name, or zero. -/
def Tally.count (t : Tally) (name : String) : Int :=
  (t.lookup name).getD 0

/-- Numbers the sections of the findings from `n` on. -/
def findingSections (n : Nat) : List Finding → List (List String)
  | [] => []
  | f :: later => f.markdown n :: findingSections (n + 1) later

namespace Report

/-- The lines of a page in front of the findings. -/
def preface (r : Report) : List String :=
  ["# Smart Contract Security Report", "",
    s!"**Overall risk:** {r.riskLabel}", "",
    s!"**Score:** {r.score}", "",
    s!"**Findings:** {r.findings.length}", "",
    "## Summary by Category", "", "| Category | Findings |", "| --- | ---: |"] ++
  Category.all.map (fun c => s!"| {c.name} | {Tally.count r.categories c.name} |") ++
  ["", "## Summary by Severity", "", "| Severity | Findings |", "| --- | ---: |"] ++
  Severity.all.map (fun s => s!"| {s.label} | {Tally.count r.severities s.name} |") ++
  [""] ++
  (if r.metadata.notes.isEmpty then [] else ["## Scan Notes", ""] ++ r.metadata.notes ++ [""]) ++
  ["## Findings", ""]

/-- The lines on the findings. -/
def findingLines (r : Report) : List String :=
  (if r.findings.isEmpty then ["No issues detected.", ""] else []) ++
    (findingSections 1 r.findings).flatten

/-- The lines of a page. -/
def markdownLines (r : Report) : List String :=
  r.preface ++ r.findingLines

/-- The page in Markdown, which ends with one newline. -/
def markdownPage (r : Report) : String :=
  String.ofList (trimRight ("\n".intercalate r.markdownLines).toList) ++ "\n"

/-- The numbers on the page, but for those that count the findings. -/
def markdownNumbers (r : Report) : List Int :=
  r.score :: Category.all.map (fun c => Tally.count r.categories c.name) ++
    Severity.all.map (fun s => Tally.count r.severities s.name) ++
    r.metadata.notedNumbers ++ r.findings.flatMap (·.placeNumbers)

/-- The page in Markdown, unless a number on it is too long. -/
def markdown (r : Report) : Except DigitFault String :=
  if r.markdownNumbers.all isWritable then pure r.markdownPage else throw .unwritten

end Report

end ContractAudit
