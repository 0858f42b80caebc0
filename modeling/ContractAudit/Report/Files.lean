import ContractAudit.Report.Csv
import ContractAudit.Report.Html
import ContractAudit.Report.Json
import ContractAudit.Report.Markdown

/-!
# Reports as files

A report is written in four formats. The files are named for the time and for the source
(`baseName`), so that two sources of one stem share their files if they are written within
one second.
-/

namespace ContractAudit

/-! ## Times -/

/-- A time of the day on a date, in universal time. -/
structure Moment where
  year : Nat
  month : Nat
  day : Nat
  hour : Nat
  minute : Nat
  second : Nat
  deriving DecidableEq, Repr

/-- A number with zeros in front up to the given width. -/
def padded (width n : Nat) : String :=
  let digits := (toString n).toList
  String.ofList (List.replicate (width - digits.length) '0' ++ digits)

/-- The moment in a report, to the second. -/
def Moment.text (m : Moment) : String :=
  padded 4 m.year ++ "-" ++ padded 2 m.month ++ "-" ++ padded 2 m.day ++ "T" ++
    padded 2 m.hour ++ ":" ++ padded 2 m.minute ++ ":" ++ padded 2 m.second ++ "Z"

/-! ## Names -/

/-- What stands behind the last slash. -/
def fileName (path : List Char) : List Char :=
  (path.reverse.takeWhile (· != '/')).reverse

/-- A file name up to its last dot, where dots at its start do not count. -/
def withoutExtension (name : List Char) : List Char :=
  let rest := name.dropWhile (· == '.')
  if rest.contains '.' then
    name.takeWhile (· == '.') ++ ((rest.reverse.dropWhile (· != '.')).drop 1).reverse
  else name

/-- The name that the files of a report share. -/
def baseName (sourceName time : String) : String :=
  let stem := withoutExtension (fileName sourceName.toList)
  let stamp := time.toList.map fun c => if c == ':' then '-' else c
  String.ofList ("scan-".toList ++ stamp ++ ['-'] ++
    (if stem.isEmpty then "source".toList else stem))

/-- A name in a directory. -/
def inDirectory (directory name : String) : String :=
  if directory.isEmpty || directory.toList.getLast? == some '/' then directory ++ name
  else directory ++ "/" ++ name

/-! ## Formats -/

/-- The formats a report is saved in. -/
inductive Format where
  | json
  | csv
  | html
  | markdown
  deriving DecidableEq, Repr

namespace Format

/-- In the order in which they are written. -/
def all : List Format :=
  [json, csv, html, markdown]

/-- The format as a user names it. -/
def name : Format → String
  | json => "json"
  | csv => "csv"
  | html => "html"
  | markdown => "markdown"

/-- What the name of a file in the format ends in. -/
def extension : Format → String
  | json => ".json"
  | csv => ".csv"
  | html => ".html"
  | markdown => ".md"

/-- The file for a format. -/
def path (format : Format) (directory sourceName time : String) : String :=
  inDirectory directory (baseName sourceName time) ++ format.extension

end Format

/-- The files of a report, by the names of their formats. -/
def reportPaths (directory sourceName time : String) : List (String × String) :=
  Format.all.map fun format => (format.name, format.path directory sourceName time)

/-- What is written in a format. -/
def Report.contents (r : Report) (sourceName time : String) :
    Format → Except DigitFault String
  | .json => (JsonValue.obj ([("scan_time", .str time), ("source_file", .str sourceName)] ++
      r.fields)).write 2
  | .csv => r.csv
  | .html => r.html sourceName time
  | .markdown => r.markdown

end ContractAudit
