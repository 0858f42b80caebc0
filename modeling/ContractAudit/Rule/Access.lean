import ContractAudit.Rule.Sign

/-!
# Rules on access

Who may write privileged variables, destroy the contract or change its configuration, and
on whose word.
-/

namespace ContractAudit

open Pattern

namespace Detector

/-- A write to a privileged variable in a function that anyone can call. -/
def unprotectedStateChange : Detector :=
  eachEntryPoint fun _ b => pure <|
    if b.kind != .function || b.hasAccessControl then []
    else b.privilegedWrites.map fun (s, target) =>
      s.matched "unprotected-state-change"
        s!"anyone can call {b.displayName} and overwrite `{target}`"

/-- A destruction of the contract that anyone can cause. -/
def unprotectedSelfdestruct : Detector :=
  eachEntryPoint fun _ b => pure <|
    if b.hasAccessControl then []
    else (b.statements.filter (·.shows Sign.selfDestruct)).map
      (·.matched "unprotected-selfdestruct" s!"anyone can destroy the contract via {b.displayName}")

/-! ## Origin of the transaction -/

/-- Words and the dots between them. -/
def dottedRun : Pattern :=
  stretch1 fun c => isWordChar c || c == '.'

/-- A comparison of `tx.origin` with something, on either side. -/
def originComparison : Pattern :=
  oneOf ["tx.origin" ++ blanks ++ Sign.equality ++ blanks ++ named "other" dottedRun,
    named "other" dottedRun ++ blanks ++ Sign.equality ++ blanks ++ "tx.origin"]

/-- The comparisons of the origin with something else than the sender, each with its
evidence. -/
def originComparisons (c : Cursor) : List (Hit × String) :=
  (findAllWith "tx.origin" originComparison c).filterMap fun h =>
    let other := String.ofList (h.part "other")
    if other == "msg.sender" then none else some (h, s!"tx.origin compared with `{other}`")

/-- An authorization by the origin of the transaction. In a member that could not be read,
the comparison alone is marked. -/
def txOriginAuth : Detector :=
  eachBlock fun src b => pure <|
    if b.isParsed then
      b.statements.flatMap fun s =>
        (originComparisons (Cursor.start s.chars)).map fun (_, evidence) =>
          s.matched "tx-origin-auth" evidence
    else
      (originComparisons (Cursor.start (src.slice b.start b.stop))).map fun (h, evidence) =>
        ⟨"tx-origin-auth", b.start + h.start.offset, b.start + h.stop.offset, some evidence⟩

/-! ## Administration -/

/-- The start of the name of an administrative function. -/
def adminName : Pattern :=
  oneOf ["set", "update", "change", "configure", "emergency", "pause", "unpause", "mint", "upgrade",
    "grant", "revoke", "rescue", "sweep", "withdrawAll", "withdrawFees", "kill", "destroy",
    "enable", "disable"]

/-- For each contract, the first access modifier that one of its members has. -/
def accessModifiers (bs : List Block) : List (String × String) :=
  bs.foldl (fun known b =>
    match b.modifiers.find? fun m => Sign.accessName.occursIn m.toList with
    | some m => if (known.lookup b.contractName).isSome then known else
        known ++ [(b.contractName, m)]
    | none => known) []

/-- An administrative function without access control; functions that write privileged
variables or destroy the contract have rules of their own. -/
def missingAccessModifier : Detector :=
  fun src bs => pure <|
    let entries := bs.filter fun b => b.isParsed && b.isEntryPoint && !b.isView
    let known := accessModifiers entries
    entries.filterMap fun b =>
      if b.kind != .function || !adminName.starts b.name.toList || b.hasAccessControl ||
          !b.privilegedWrites.isEmpty || b.statements.any (·.shows Sign.selfDestruct) then none
      else
        some (b.headerMatched src "missing-access-modifier"
          (match known.lookup b.contractName with
            | some m => s!"{b.displayName} lacks the `{m}` modifier used elsewhere"
            | none => s!"{b.displayName} changes configuration with no access check"))

end Detector

end ContractAudit
