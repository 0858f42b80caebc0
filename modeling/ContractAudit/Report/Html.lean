import ContractAudit.Report.Basic

/-!
# Reports in HTML

A page with the numbers for the categories and a table of the findings (`Report.htmlPage`). Every
text that is not part of the page itself is escaped (`htmlEscaped`). There is no page if a number
on it is too long (`Report.html`).
-/

namespace ContractAudit

/-- A character as text of a page. -/
def htmlChar (c : Char) : List Char :=
  if c == '&' then "&amp;".toList
  else if c == '<' then "&lt;".toList
  else if c == '>' then "&gt;".toList
  else if c == '"' then "&quot;".toList
  else if c == '\'' then "&#x27;".toList
  else [c]

/-- A text as text of a page. -/
def htmlEscaped (s : String) : String :=
  String.ofList (s.toList.flatMap htmlChar)

/-- The rules of style of a page. -/
def styleRules : String :=
  "body\x7bfont-family:Arial,Helvetica,sans-serif;margin:20px\x7d" ++
  "table\x7bborder-collapse:collapse;width:100%\x7d" ++
  "th,td\x7bborder:1px solid #ddd;padding:8px\x7d" ++
  "th\x7bbackground:#f2f2f2;text-align:left\x7d" ++
  "tr:nth-child(even)\x7bbackground:#fafafa\x7d" ++
  "pre\x7bwhite-space:pre-wrap;word-wrap:break-word\x7d"

/-- The line on the style of a page. -/
def htmlStyle : String :=
  "<style>" ++ styleRules ++ "</style>"

/-- The row of a finding. -/
def Finding.html (f : Finding) : String :=
  "<tr><td>" ++ htmlEscaped f.rule.severity.label ++ "</td><td>" ++ htmlEscaped f.rule.id ++
  "</td><td>" ++ htmlEscaped f.rule.category.name ++
  s!"</td><td>{f.first.line}:{f.first.column}</td><td><pre>" ++ htmlEscaped f.snippet ++
  "</pre></td><td>" ++ htmlEscaped f.rule.remediation ++ "</td></tr>"

/-- The item on a category and its number of findings. -/
def categoryItem (entry : String × Int) : String :=
  "<li>" ++ htmlEscaped entry.1 ++ s!": {entry.2}</li>"

namespace Report

/-- The first line of a page. -/
def doctypeLine : String :=
  "<!doctype html>"

/-- The lines in front of the categories, the first one apart. -/
def frontLines (sourceName time : String) (r : Report) : List String :=
  ["<html><head><meta charset='utf-8'><title>Smart Contract Scan Report</title>",
    htmlStyle,
    "</head><body>",
    "<h2>Scan Report - " ++ htmlEscaped time ++ " - " ++ htmlEscaped sourceName ++ "</h2>",
    "<p>Overall risk: <strong id='risk-label'>" ++ htmlEscaped r.riskLabel ++
      s!"</strong> (score {r.score})</p>",
    s!"<p>Total findings: {r.findings.length}</p>",
    "<div><strong>Categories:</strong><ul>"]

/-- The lines between the categories and the findings. -/
def tableLines : List String :=
  ["</ul></div>",
    "<table><thead><tr><th>Severity</th><th>Rule</th><th>Category</th><th>Location</th>" ++
    "<th>Snippet</th><th>Remediation</th></tr></thead><tbody>"]

/-- The line behind the findings. -/
def endLine : String :=
  "</tbody></table></body></html>"

/-- The lines of a page. -/
def htmlLines (sourceName time : String) (r : Report) : List String :=
  doctypeLine :: (r.frontLines sourceName time ++ r.categories.map categoryItem ++ tableLines ++
    r.findings.map (·.html) ++ [endLine])

/-- The page in HTML on the source of the given name at the given time. -/
def htmlPage (sourceName time : String) (r : Report) : String :=
  "\n".intercalate (r.htmlLines sourceName time)

/-- The numbers on the page, but for that of the findings. -/
def htmlNumbers (r : Report) : List Int :=
  r.score :: r.categories.map (·.2) ++ r.findings.flatMap fun f => [f.first.line, f.first.column]

/-- The page in HTML, unless a number on it is too long. -/
def html (sourceName time : String) (r : Report) : Except DigitFault String :=
  if r.htmlNumbers.all isWritable then pure (r.htmlPage sourceName time) else throw .unwritten

end Report

end ContractAudit
