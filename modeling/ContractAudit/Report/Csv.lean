import ContractAudit.Report.Basic

/-!
# Reports as CSV

A table with one record a finding (`Report.csvTable`). Records end with a carriage return and a
newline, and a field is quoted if it holds a comma, a quote or a line end. There is no table if
a number in it is too long (`Report.csv`).
-/

namespace ContractAudit

/-- A field of a record, whose quotes are doubled if it is quoted. -/
def csvField (s : String) : String :=
  let cs := s.toList
  if cs.any fun c => c == ',' || c == '"' || c == '\r' || c == '\n' then
    String.ofList ('"' :: cs.flatMap (fun c => if c == '"' then ['"', '"'] else [c]) ++ ['"'])
  else s

/-- A line of the file; lines end in a carriage return and a line feed. -/
def csvRecord (fields : List String) : String :=
  ",".intercalate (fields.map csvField) ++ "\r\n"

/-- The titles of the columns. -/
def csvColumns : List String :=
  ["rule_id", "title", "category", "severity", "gas_impact", "start_line", "start_column",
    "end_line", "end_column", "swc", "evidence", "snippet"]

/-- The fields of a finding, where what is missing is empty. -/
def Finding.csvFields (f : Finding) : List String :=
  [f.rule.id, f.rule.title, f.rule.category.name, f.rule.severity.name, f.rule.gasImpact.name,
    toString f.first.line, toString f.first.column, toString f.last.line, toString f.last.column,
    f.rule.swc.getD "", f.evidence.getD "", f.snippet]

/-- The table of the findings. -/
def Report.csvTable (r : Report) : String :=
  String.join (csvRecord csvColumns :: r.findings.map fun f => csvRecord f.csvFields)

/-- The table of the findings, unless a number in it is too long. -/
def Report.csv (r : Report) : Except DigitFault String :=
  if (r.findings.flatMap (·.placeNumbers)).all isWritable then pure r.csvTable
  else throw .unwritten

end ContractAudit
