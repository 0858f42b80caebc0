import ContractAudit.Catalog
import ContractAudit.Overlap
import ContractAudit.Report.Basic

/-!
# Scans

A scan asks the rules of a catalog one after the other and reports what they find. Each rule
costs the same (`Scan.cost`); before it is asked, the scan stops if its token is cancelled, or
else if the budget does not cover the cost. A rule that fails is noted and passed over.
-/

namespace ContractAudit

/-- What may be set for a scan. -/
structure ScanOptions where
  maxInputSize : Option Int
  budget : Option Int
  deriving DecidableEq, Repr

namespace ScanOptions

/-- Nothing set. -/
def unset : ScanOptions :=
  ⟨none, none⟩

/-- How many characters a source may have. -/
def sizeLimit (o : ScanOptions) : Int :=
  o.maxInputSize.getD 200000

/-- How much a scan of a source of the given length may cost. -/
def budgetFor (o : ScanOptions) (length : Int) : Int :=
  o.budget.getD (10000 + 64 * length)

end ScanOptions

namespace Scan

/-- What asking one rule costs. -/
def cost (source : Source) (blocks : List Block) : Nat :=
  let statements := (blocks.filter (·.isParsed)).foldl (fun n b => n + b.statements.length) 0
  1 + statements + source.length / 64

/-- Why no further rule is asked. -/
inductive Ending where
  | complete
  | cancelled
  | overBudget
  deriving DecidableEq, Repr

/-- What is known once some rules have been asked. -/
structure Progress where
  evaluated : Nat
  used : Int
  findings : List Finding
  errors : List RuleError
  /-- The tokens that are cancelled. -/
  cancelled : List Token

/-- Notes what a rule answers. -/
def Progress.ask (p : Progress) (source : Source) (blocks : List Block) (rule : Rule) : Progress :=
  let e := rule.evaluate source blocks
  let p := { p with
    evaluated := p.evaluated + 1
    used := p.used + cost source blocks
    cancelled := p.cancelled ++ e.cancels }
  match e.outcome.matches with
  | .error failure => { p with errors := p.errors ++ [⟨rule.id, failure.text⟩] }
  | .ok ms =>
    let own := ms.map fun m => { m with ruleId := rule.id }
    { p with
      findings := p.findings ++ (dropOverlaps own).map (Finding.ofMatch rule.toRuleInfo source) }

/-- Asks one rule after the other. -/
def askAll (source : Source) (blocks : List Block) (budget : Int) (token : Option Token) :
    List Rule → Progress → Progress × Ending
  | [], p => (p, .complete)
  | rule :: later, p =>
    if token.any p.cancelled.contains then (p, .cancelled)
    else if budget < p.used + cost source blocks then (p, .overBudget)
    else askAll source blocks budget token later (p.ask source blocks rule)

/-- The members that could not be taken apart. -/
def unparsable (source : Source) (outline : Outline) : List Unparsable :=
  outline.blocks.filterMap fun b => b.fault.map fun fault =>
    ⟨b.displayName, b.kind.label, source.lineOf b.start, fault.reason⟩

/-- The report on a source, and the tokens that are cancelled once it is made. -/
def ofSource (options : ScanOptions) (catalog : Catalog) (token : Option Token)
    (cancelled : List Token) (source : Source) : Report × List Token :=
  let outline := source.outline
  let budget := options.budgetFor source.length
  let (p, ending) :=
    askAll source outline.blocks budget token catalog.rules ⟨0, 0, [], [], cancelled⟩
  let metadata : Metadata :=
    { inputLength := source.length
      blockCount := outline.blocks.length
      contractCount := outline.contracts.length
      rulesTotal := catalog.size
      rulesEvaluated := p.evaluated
      budgetLimit := budget
      budgetUsed := p.used
      budgetExceeded := ending == .overBudget
      cancelled := ending == .cancelled
      ruleErrors := p.errors.mergeSort fun a b => decide (a.ruleId ≤ b.ruleId)
      unparsable := unparsable source outline
      warnings := (source.warnings.map (·.label)).mergeSort fun a b => decide (a ≤ b) }
  (Report.of p.findings metadata, p.cancelled)

end Scan

/-- Scans a text by a catalog, unless the text is too large. The scan goes by the given token,
and `cancelled` holds the tokens that are cancelled already. -/
def scan (options : ScanOptions) (catalog : Catalog) (token : Option Token)
    (cancelled : List Token) (text : String) : Except TooLarge (Report × List Token) := do
  let source ← Source.of? options.sizeLimit text
  return Scan.ofSource options catalog token cancelled source

end ContractAudit
