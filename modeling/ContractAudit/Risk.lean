import ContractAudit.Finding

/-!
# Risk

Findings add up to a score, to numbers for each category and severity, and to a risk level
that goes by the numbers for the severities (`RiskLevel.judge`).
-/

namespace ContractAudit

/-- How bad the findings of a scan are, taken together. -/
inductive RiskLevel where
  | clear
  | low
  | medium
  | high
  | critical
  deriving DecidableEq, Repr

/-- A label that no risk level goes by. -/
structure UnknownLabel where
  label : String
  deriving DecidableEq, Repr

/-- What the one who asks for the level is told. -/
def UnknownLabel.message (e : UnknownLabel) : String :=
  quoted e.label ++ " is not in list"

/-- A name under which no number is given. -/
structure MissingCount where
  name : String
  deriving DecidableEq, Repr

/-- What the one who counts is told : the name, quoted. -/
def MissingCount.message (e : MissingCount) : String :=
  quoted e.name

/-- Numbers by name. -/
abbrev Tally := List (String × Int)

namespace RiskLevel

/-- The levels, from the mildest on. -/
def all : List RiskLevel :=
  [clear, low, medium, high, critical]

/-- The level in a report. -/
def label : RiskLevel → String
  | clear => "No Issues Detected"
  | low => "Low Risk"
  | medium => "Medium Risk"
  | high => "High Risk"
  | critical => "Critical Risk"

/-- The place of a level among all of them, the mildest first. -/
def rank : RiskLevel → Nat
  | clear => 0
  | low => 1
  | medium => 2
  | high => 3
  | critical => 4

/-- The level of a label; any other text is an error. -/
def ofLabel (label : String) : Except UnknownLabel RiskLevel :=
  match all.find? (·.label == label) with
  | some l => pure l
  | none => throw ⟨label⟩

/-- The level for the numbers of findings : they are looked up from the gravest severity on, as
far as needed, and `anything` says whether any number is not zero. -/
def judge {m : Type → Type} [Monad m] (count : Severity → m Int) (anything : Bool) :
    m RiskLevel := do
  if 0 < (← count .critical) then return critical
  let grave ← count .high
  if 3 ≤ grave then return high
  if 1 ≤ grave then return medium
  if 5 ≤ (← count .medium) then return medium
  return if anything then low else clear

/-- The level for numbers given by the names of the severities. -/
def ofTally (t : Tally) : Except MissingCount RiskLevel :=
  judge (fun s => match t.lookup s.name with
    | some n => pure n
    | none => throw ⟨s.name⟩) (t.any fun (_, n) => n != 0)

end RiskLevel

/-- What findings add up to. -/
structure Summary where
  score : Int
  level : RiskLevel
  /-- All categories, also those without findings. -/
  categories : Tally
  /-- All severities, also those without findings. -/
  severities : Tally
  deriving DecidableEq, Repr

namespace Summary

/-- How many findings have a severity. -/
def severityCount (fs : List Finding) (s : Severity) : Nat :=
  fs.countP fun f => f.rule.severity == s

/-- How many findings have a category. -/
def categoryCount (fs : List Finding) (c : Category) : Nat :=
  fs.countP fun f => f.rule.category == c

/-- The summary of a list of findings, with a count for every category and severity. -/
def of (fs : List Finding) : Summary where
  score := (fs.foldl (fun n f => n + f.rule.severity.weight) 0 : Nat)
  level := Id.run (RiskLevel.judge (fun s => pure (severityCount fs s)) (!fs.isEmpty))
  categories := Category.all.map fun c => (c.name, (categoryCount fs c : Int))
  severities := Severity.all.map fun s => (s.name, (severityCount fs s : Int))

end Summary

end ContractAudit
