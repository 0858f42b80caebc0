import ContractAudit.Command.Arguments
import ContractAudit.Command.Disk
import ContractAudit.Report.Console
import ContractAudit.Report.Files
import ContractAudit.Text.Utf8

/-!
# Runs

A run reads the command line, scans the files one after the other, writes and shows the
reports, and ends with an `Ending`. It acts through a `Host`; `runOnTree` runs it on a tree of
files at a fixed time.
-/

namespace ContractAudit

/-! ## Hosts -/

/-- What a run acts through. -/
structure Host (m : Type → Type) where
  disk : Disk m
  display : ConsoleItem → m Unit
  now : m Moment

/-- Why a source could not be read. -/
inductive LoadError where
  | missing (path : String)
  | isADirectory (path : String)
  | notUtf8 (path : String) (error : Utf8Error)
  deriving DecidableEq, Repr

/-- What the user is told. -/
def LoadError.message : LoadError → String
  | missing path => "Source file not found: " ++ path ++ "."
  | isADirectory path => DiskError.message ⟨.isADirectory, path⟩
  | notUtf8 path e =>
    "Source file " ++ path ++ s!" is not valid UTF-8: {e.fault.reason} (byte {e.offset})"

/-- Why a report was not saved. -/
inductive SaveError where
  | disk (error : DiskError)
  /-- A number in the report is too long. -/
  | overlong (fault : DigitFault)
  deriving DecidableEq, Repr

/-- How a run ends. -/
inductive Ending where
  | finished
  /-- Help was asked for. -/
  | helped
  /-- A finding is as grave as the one to fail on. -/
  | failing
  | stopped (message : String)
  | misused (error : UsageError)
  | diskFailed (error : DiskError)
  | unsaved (fault : DigitFault)
  /-- An option was needed that is set to nothing. -/
  | emptied (option : Switch)
  deriving DecidableEq, Repr

/-- The status that a run leaves behind. -/
def Ending.status : Ending → Nat
  | finished | helped => 0
  | failing | stopped _ | diskFailed _ | unsaved _ | emptied _ => 1
  | misused _ => 2

/-- What is said when an option is needed that is set to nothing. -/
def Switch.emptiedMessage : Switch → String
  | reportDir => "expected str, bytes or os.PathLike object, not list"
  | _ => "'>' not supported between instances of 'int' and 'list'"

variable {m : Type → Type} [Monad m]

/-! ## Sources and reports -/

/-- The text of a file. -/
def loadSource (disk : Disk m) (path : String) : m (Except LoadError String) := do
  match ← disk.node? path with
  | none => return .error (.missing path)
  | some .directory => return .error (.isADirectory path)
  | some (.file bytes) =>
    match decodeFile bytes with
    | .ok text => return .ok (String.ofList text)
    | .error e => return .error (.notUtf8 path e)

/-- Writes a report in the given formats. A file is there before its text is known, and stays
empty if there is none. -/
def writeFormats (disk : Disk m) (r : Report) (directory sourceName time : String) :
    List Format → m (Except SaveError Unit)
  | [] => return .ok ()
  | format :: later => do
    let contents := r.contents sourceName time format
    match ← disk.write (format.path directory sourceName time) (contents.toOption.getD "") with
    | .error e => return .error (.disk e)
    | .ok () =>
      match contents with
      | .error fault => return .error (.overlong fault)
      | .ok _ => writeFormats disk r directory sourceName time later

/-- Writes a report in all formats and gives the paths of the files. -/
def saveReport (host : Host m) (r : Report) (directory sourceName : String) :
    m (Except SaveError (List (String × String))) := do
  match ← host.disk.makeDirectories directory with
  | .error e => return .error (.disk e)
  | .ok () =>
    let time := (← host.now).text
    match ← writeFormats host.disk r directory sourceName time Format.all with
    | .error e => return .error e
    | .ok () => return .ok (reportPaths directory sourceName time)

/-! ## The run -/

/-- How many findings are shown unless all are asked for. -/
def shownFindings : Int := 5

/-- Where reports go unless a directory is named. -/
def defaultReportDir : String := "reports"

/-- The report on a text, for which both limits are needed. -/
def scanText (limits : Limits) (path text : String) : Except Ending Report :=
  if limits.maxInputSize == .emptied then throw (.emptied .maxInputSize)
  else
    match scan limits.options Catalog.builtin none [] text with
    | .error e => throw (.stopped (path ++ ": " ++ e.message))
    | .ok (r, _) => if limits.budget == .emptied then throw (.emptied .budget) else pure r

/-- Saves the report on a file in the directory asked for, unless none is to be saved. -/
def saveFor (host : Host m) (a : Arguments) (path : String) (r : Report) :
    m (Except Ending (List (String × String))) := do
  if a.noSave then return .ok []
  else if a.reportDir == .emptied then return .error (.emptied .reportDir)
  else
    match ← saveReport host r (a.reportDir.toOption.getD defaultReportDir) path with
    | .error (.disk e) => return .error (.diskFailed e)
    | .error (.overlong fault) => return .error (.unsaved fault)
    | .ok paths => return .ok paths

/-- Scans one file. -/
def runFile (host : Host m) (limits : Limits) (a : Arguments) (path : String) :
    m (Except Ending Report) := do
  match ← loadSource host.disk path with
  | .error (.isADirectory path) => return .error (.diskFailed ⟨.isADirectory, path⟩)
  | .error e => return .error (.stopped e.message)
  | .ok text =>
    match scanText limits path text with
    | .error e => return .error e
    | .ok r =>
      match ← saveFor host a path r with
      | .error e => return .error e
      | .ok paths =>
        (r.console paths shownFindings a.printTable).forM host.display
        return .ok r

/-- Scans one file after the other. -/
def runFiles (host : Host m) (limits : Limits) (a : Arguments) :
    List String → m (Except Ending (List Report))
  | [] => return .ok []
  | path :: later => do
    match ← runFile host limits a path with
    | .error e => return .error e
    | .ok r =>
      match ← runFiles host limits a later with
      | .error e => return .error e
      | .ok rs => return .ok (r :: rs)

/-- Has a report a finding at least as grave? -/
def reaches (severity : Severity) (r : Report) : Bool :=
  r.findings.any fun f => severity.rank ≤ f.rule.severity.rank

/-- Does what the arguments ask for. -/
def runArguments (host : Host m) (env : Environment) (a : Arguments) : m Ending := do
  if a.listRules then
    host.display (.table (ruleTable (Catalog.builtin.rules.map (·.toRuleInfo))))
    return .finished
  else if a.files.isEmpty then return .stopped "no source files given (or use --list-rules)"
  else
    match a.limits.resolve env with
    | .error e => return .stopped e.message
    | .ok limits =>
      match ← runFiles host limits a a.files with
      | .error e => return e
      | .ok rs => return if a.failOn.any (fun s => rs.any (reaches s)) then .failing else .finished

/-- Runs a command line. -/
def run (host : Host m) (env : Environment) (words : List String) : m Ending :=
  match Arguments.parse words with
  | .error e => return .misused e
  | .ok none => return .helped
  | .ok (some a) => runArguments host env a

/-! ## Runs on trees -/

/-- A tree of files and what has been shown. -/
structure Desk where
  tree : FileTree
  shown : List ConsoleItem
  deriving Repr

namespace Desk

/-- Acts on the tree of a desk. -/
def onTree {α : Type} (act : StateM FileTree α) : StateM Desk α :=
  fun d =>
    let (a, tree) := act d.tree
    (a, { d with tree })

/-- A desk as a host, at a fixed time. -/
def host (now : Moment) : Host (StateM Desk) where
  disk :=
    { node? := fun path => onTree (FileTree.disk.node? path)
      makeDirectories := fun path => onTree (FileTree.disk.makeDirectories path)
      write := fun path contents => onTree (FileTree.disk.write path contents) }
  display item := modify fun d => { d with shown := showItem d.shown item }
  now := pure now

end Desk

/-- Runs a command line on a tree of files, where nothing has been shown. -/
def runOnTree (tree : FileTree) (now : Moment) (env : Environment) (words : List String) :
    Ending × Desk :=
  (run (Desk.host now) env words).run ⟨tree, []⟩

end ContractAudit
