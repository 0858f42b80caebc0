import ContractAudit.Command.Settings

/-!
# Arguments

The words of a command line : options, which may be shortened as long as one option alone
starts so, and files. The files are the first words that stand together and belong to no
option; words behind `--` are no options. A value `--` that is joined to its option is dropped,
and the option is then set to nothing. `Arguments.parse` reads the words from left to right and
stops at the first error.
-/

namespace ContractAudit

/-! ## Options -/

/-- The options of the command. -/
inductive Switch where
  | help
  | reportDir
  | printTable
  | maxInputSize
  | budget
  | listRules
  | noSave
  | failOn
  deriving DecidableEq, Repr

namespace Switch

/-- How an option is spelled. -/
def spellings : Switch → List String
  | help => ["-h", "--help"]
  | reportDir => ["--report-dir"]
  | printTable => ["--print-table"]
  | maxInputSize => ["--max-input-size"]
  | budget => ["--budget"]
  | listRules => ["--list-rules"]
  | noSave => ["--no-save"]
  | failOn => ["--fail-on"]

/-- How messages call an option. -/
def title (s : Switch) : String :=
  "/".intercalate s.spellings

/-- Does the option come with a value? -/
def takesValue : Switch → Bool
  | reportDir | maxInputSize | budget | failOn => true
  | help | printTable | listRules | noSave => false

/-- The options, in the order the help lists them. -/
def all : List Switch :=
  [help, reportDir, printTable, maxInputSize, budget, listRules, noSave, failOn]

/-- All spellings with their options. -/
def table : List (String × Switch) :=
  all.flatMap fun s => s.spellings.map fun spelling => (spelling, s)

end Switch

/-- Why the words of a command cannot be read. -/
inductive UsageError where
  | ambiguous (word : String) (spellings : List String)
  | missingValue (option : Switch)
  | needlessValue (option : Switch) (value : String)
  | notAnInteger (option : Switch) (value : String)
  | notAChoice (option : Switch) (value : String)
  | unrecognized (words : List String)
  deriving DecidableEq, Repr

/-- What the user is told. -/
def UsageError.message : UsageError → String
  | ambiguous word spellings =>
    "ambiguous option: " ++ word ++ " could match " ++ ", ".intercalate spellings
  | missingValue option => "argument " ++ option.title ++ ": expected one argument"
  | needlessValue option value =>
    "argument " ++ option.title ++ ": ignored explicit argument " ++ quoted value
  | notAnInteger option value =>
    "argument " ++ option.title ++ ": invalid int value: " ++ quoted value
  | notAChoice option value =>
    "argument " ++ option.title ++ ": invalid choice: " ++ quoted value ++ " (choose from " ++
      ", ".intercalate (Severity.all.map fun s => quoted s.name) ++ ")"
  | unrecognized words => "unrecognized arguments: " ++ " ".intercalate words

/-! ## Words -/

/-- A value that is part of the word of its option. -/
inductive Joined where
  /-- Behind an equals sign. -/
  | equals (value : String)
  /-- Behind a short option, with an equals sign or without. -/
  | cluster (letters : String)
  deriving DecidableEq, Repr

/-- What a word of the command line is. -/
inductive Word where
  | plain
  | option (switch : Switch) (value : Option Joined)
  | unknownOption
  deriving DecidableEq, Repr

/-- `-1`, `-2.5` or `-.5`, also before a last newline. -/
def looksNegative (cs : List Char) : Bool :=
  match cs with
  | '-' :: number =>
    let number := if number.getLast? == some '\n' then number.dropLast else number
    match splitAt (· == '.') number with
    | [digits] => !digits.isEmpty && digits.all isDecimalDigit
    | [whole, fraction] => whole.all isDecimalDigit && !fraction.isEmpty &&
        fraction.all isDecimalDigit
    | _ => false
  | _ => false

/-- The parts of a word before and behind its first equals sign. -/
def splitEquals (word : String) : String × Option String :=
  let cs := word.toList
  match cs.dropWhile (· != '=') with
  | [] => (word, none)
  | _ :: value => (String.ofList (cs.takeWhile (· != '=')), some (String.ofList value))

/-- The options that a word with at least two characters may stand for : those that start with
it if it starts with two dashes, and else the short option it starts with. -/
def candidates (word : String) : List (String × Switch × Option Joined) :=
  match word.toList with
  | '-' :: '-' :: _ =>
    let (start, value) := splitEquals word
    (Switch.table.filter fun (spelling, _) => start.toList.isPrefixOf spelling.toList).map
      fun (spelling, s) => (spelling, s, value.map .equals)
  | dash :: letter :: letters =>
    (Switch.table.filter fun (spelling, _) => spelling.toList == [dash, letter]).map
      fun (spelling, s) => (spelling, s, some (.cluster (String.ofList letters)))
  | _ => []

/-- What a word is that does not stand behind `--`. -/
def Word.of (word : String) : Except UsageError Word :=
  let cs := word.toList
  if cs.head? != some '-' then pure plain
  else
    match Switch.table.lookup word with
    | some s => pure (option s none)
    | none =>
      if cs.length == 1 then pure plain
      else
        let (start, value) := splitEquals word
        match value, Switch.table.lookup start with
        | some value, some s =>
          pure (option s (some (if start.length == 2 then .cluster value else .equals value)))
        | _, _ =>
          match candidates word with
          | [] => pure (if looksNegative cs || cs.contains ' ' then plain else unknownOption)
          | [(_, s, value)] => pure (option s value)
          | several => throw (.ambiguous word (several.map (·.1)))

/-- What each word of a command line is. -/
def classifyWords : List String → Except UsageError (List (String × Word))
  | [] => pure []
  | word :: later =>
    if word == "--" then pure ((word :: later).map fun w => (w, .plain))
    else do
      let kind ← Word.of word
      return (word, kind) :: (← classifyWords later)

/-! ## Reading the words -/

/-- What a command line asks for. -/
structure Arguments where
  files : List String
  reportDir : Given String
  printTable : Bool
  limits : Limits
  listRules : Bool
  noSave : Bool
  failOn : Option Severity
  deriving DecidableEq, Repr

namespace Arguments

/-- What an empty command line asks for. -/
def unset : Arguments :=
  ⟨[], .unset, false, ⟨.unset, .unset⟩, false, false, none⟩

/-- Sets an option that takes no value. -/
def raise (a : Arguments) : Switch → Arguments
  | .printTable => { a with printTable := true }
  | .listRules => { a with listRules := true }
  | .noSave => { a with noSave := true }
  | _ => a

/-- Sets an option to a value. -/
def assign (a : Arguments) (option : Switch) (value : String) : Except UsageError Arguments :=
  let integer : Except UsageError Int :=
    match readInteger? value with
    | some n => pure n
    | none => throw (.notAnInteger option value)
  match option with
  | .reportDir => pure { a with reportDir := .value value }
  | .maxInputSize => do
    return { a with limits := { a.limits with maxInputSize := .value (← integer) } }
  | .budget => do return { a with limits := { a.limits with budget := .value (← integer) } }
  | .failOn =>
    match Severity.ofName value with
    | .ok s => pure { a with failOn := some s }
    | .error _ => throw (.notAChoice option value)
  | _ => pure a

/-- Sets an option to nothing. -/
def clear (a : Arguments) : Switch → Arguments
  | .reportDir => { a with reportDir := .emptied }
  | .maxInputSize => { a with limits := { a.limits with maxInputSize := .emptied } }
  | .budget => { a with limits := { a.limits with budget := .emptied } }
  | .failOn => { a with failOn := none }
  | _ => a

/-- Sets an option to a value that is joined to it. -/
def assignJoined (a : Arguments) (option : Switch) (value : String) :
    Except UsageError Arguments :=
  if value == "--" then pure (a.clear option) else a.assign option value

/-- Looks at what is joined to a short option that takes no value : each letter is a further
option, of which `h` alone is known, and what starts with none of them is a needless value. -/
def checkCluster (option : Switch) : List Char → Except UsageError Unit
  | ['h'] => pure ()
  | 'h' :: letters => checkCluster option letters
  | letters => throw (.needlessValue option (String.ofList letters))

/-- Where the reading of the files stands : they are still to come, under way, or over. -/
inductive Stage where
  | before
  | within
  | behind
  deriving DecidableEq, Repr

/-- The stage behind a word that is an option. -/
def Stage.close : Stage → Stage
  | before => before
  | _ => behind

/-- What is known once some words have been read. -/
structure Reading where
  arguments : Arguments
  stage : Stage
  /-- Words that nothing was made of. -/
  extra : List String

/-- Takes a word that belongs to no option. -/
def Reading.take (r : Reading) (word : String) : Reading :=
  match r.stage with
  | .behind => { r with extra := r.extra ++ [word] }
  | _ =>
    { r with
      arguments := { r.arguments with files := r.arguments.files ++ [word] }
      stage := .within }

/-- Reads the words from left to right; there is no result if help is asked for. -/
def read (r : Reading) : List (String × Word) → Except UsageError (Option Reading)
  | [] => pure (some r)
  | (word, .plain) :: later => read (r.take word) later
  | (word, .unknownOption) :: later =>
    read { r with stage := r.stage.close, extra := r.extra ++ [word] } later
  | (_, .option switch none) :: later =>
    let r := { r with stage := r.stage.close }
    if switch.takesValue then
      match later with
      | (value, .plain) :: later =>
        if value == "--" then throw (.missingValue switch)
        else do read { r with arguments := ← r.arguments.assign switch value } later
      | _ => throw (.missingValue switch)
    else if switch == .help then pure none
    else read { r with arguments := r.arguments.raise switch } later
  | (_, .option switch (some joined)) :: later =>
    let r := { r with stage := r.stage.close }
    match joined with
    | .equals value =>
      if switch.takesValue then do
        read { r with arguments := ← r.arguments.assignJoined switch value } later
      else throw (.needlessValue switch value)
    | .cluster letters => do
      checkCluster switch letters.toList
      pure none

/-- What the words of a command line ask for; nothing if they ask for help. -/
def parse (words : List String) : Except UsageError (Option Arguments) := do
  match ← read ⟨unset, .before, []⟩ (← classifyWords words) with
  | none => return none
  | some r =>
    if r.extra.isEmpty then
      return some { r.arguments with files := r.arguments.files.erase "--" }
    else throw (.unrecognized r.extra)

end Arguments

end ContractAudit
