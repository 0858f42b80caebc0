import ContractAudit.Command.Run
import Std.Time.DateTime

/-!
# The command line

Runs the words of the command line on the disk, the clock and the environment of the
process. Tables are drawn with their cells one below the other.
-/

namespace ContractAudit

/-- The disk of the process. -/
def processDisk : Disk IO where
  node? path := do
    let place := (← IO.currentDir) / path
    if path.isEmpty then return none
    else if ← place.isDir then return some .directory
    else if ← place.pathExists then return some (.file (← IO.FS.readBinFile place).toList)
    else return none
  makeDirectories path := do
    if path.isEmpty then return .error ⟨.notFound, path⟩
    IO.FS.createDirAll path
    return .ok ()
  write path contents := do
    IO.FS.writeFile path contents
    return .ok ()

/-! ## Drawing -/

/-- The text of a cell, without its style. -/
def Cell.contents : Cell → String
  | plain s => s
  | styled s _ => s

/-- A row whose cells are filled up with blanks to the given widths. -/
def drawRow (widths : List Nat) (cells : List String) : String :=
  "  ".intercalate ((widths.zip cells).map fun (width, cell) =>
    cell ++ String.ofList (List.replicate (width - cell.length) ' ')) ++ "\n"

/-- The table as lines, each column as wide as its widest cell. -/
def Table.draw (t : Table) : String :=
  let rows := t.columns :: t.rows.map (·.map (·.contents))
  let widths := rows.foldl (fun widths row =>
    (widths.zip row).map fun (width, cell) => max width cell.length) (t.columns.map fun _ => 0)
  String.join (rows.map (drawRow widths))

/-- What is printed for an item. -/
def ConsoleItem.draw : ConsoleItem → String
  | text s => s
  | table t => t.draw

/-! ## The process -/

/-- How to call the command, in short. -/
def usage : String :=
  "usage: [-h] [--report-dir DIR] [--print-table] [--max-input-size N] [--budget N]\n" ++
  "       [--list-rules] [--no-save] [--fail-on SEVERITY] [files ...]\n"

/-- The time in universal time. -/
def processNow : IO Moment := do
  let t := Std.Time.DateTime.ofTimestamp (← Std.Time.Timestamp.now) Std.Time.TimeZone.ZoneRules.UTC
  return ⟨t.year.toInt.toNat, t.month.val.toNat, t.day.val.toNat, t.hour.val.toNat,
    t.minute.val.toNat, t.second.val.toNat⟩

/-- The host that is the running process : its disk, its terminal and its clock. -/
def processHost : Host IO where
  disk := processDisk
  display item := IO.print item.draw
  now := processNow

/-- The settings in the environment of the process. -/
def processEnvironment : IO Environment :=
  [sizeVariable, budgetVariable].filterMapM fun name => do
    return (← IO.getEnv name).map fun value => (name, value)

end ContractAudit

open ContractAudit in
/-- Runs the command on the words it was given and tells how the run ended. -/
def main (words : List String) : IO UInt32 := do
  let ending ← run processHost (← processEnvironment) words
  match ending with
  | .finished | .failing => pure ()
  | .helped => IO.print usage
  | .stopped message => IO.eprintln message
  | .misused e => IO.eprintln (usage ++ "error: " ++ e.message)
  | .diskFailed e => IO.eprintln e.message
  | .unsaved fault => IO.eprintln fault.message
  | .emptied option => IO.eprintln option.emptiedMessage
  return ending.status.toUInt32
