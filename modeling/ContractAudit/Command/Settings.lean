import ContractAudit.Scan

/-!
# Settings

The size limit and the budget of a scan come from the command line, else from the
environment, else they are not set (`Limits.resolve`). On the command line an option may also be
set to nothing, which is not the same as leaving it out.
-/

namespace ContractAudit

/-- What is known of a setting. -/
inductive Given (α : Type) where
  | unset
  /-- Set to nothing. -/
  | emptied
  | value (a : α)
  deriving DecidableEq, Repr

/-- A value that may be absent and is never given empty. -/
def Given.ofOption {α : Type} : Option α → Given α
  | none => unset
  | some a => value a

/-- The value, where one was given. -/
def Given.toOption {α : Type} : Given α → Option α
  | value a => some a
  | unset | emptied => none

/-- A variable of the environment that should hold an integer and does not. -/
structure BadSetting where
  name : String
  value : String
  deriving DecidableEq, Repr

/-- What the user is told. -/
def BadSetting.message (e : BadSetting) : String :=
  e.name ++ " must be an integer, got " ++ quoted e.value

/-- The variables of an environment. -/
abbrev Environment := List (String × String)

/-- The variable that holds the size limit. -/
def sizeVariable : String :=
  "CONTRACT_SCANNER_MAX_INPUT_SIZE"

/-- The variable that holds the budget. -/
def budgetVariable : String :=
  "CONTRACT_SCANNER_BUDGET"

/-- The integer given, or else the one in a variable, of which a blank value counts as none. -/
def integerSetting (given : Given Int) (env : Environment) (name : String) :
    Except BadSetting (Given Int) :=
  match given, env.lookup name with
  | .unset, some text =>
    if (trim text.toList).isEmpty then pure .unset
    else
      match readInteger? text with
      | some n => pure (.value n)
      | none => throw ⟨name, text⟩
  | given, _ => pure given

/-- What is set for the scans of a run. -/
structure Limits where
  maxInputSize : Given Int
  budget : Given Int
  deriving DecidableEq, Repr

/-- The limits given, or else those that the environment sets. -/
def Limits.resolve (given : Limits) (env : Environment) : Except BadSetting Limits := do
  let maxInputSize ← integerSetting given.maxInputSize env sizeVariable
  let budget ← integerSetting given.budget env budgetVariable
  return { maxInputSize, budget }

/-- The options of a scan with these limits. -/
def Limits.options (l : Limits) : ScanOptions :=
  ⟨l.maxInputSize.toOption, l.budget.toOption⟩

end ContractAudit
