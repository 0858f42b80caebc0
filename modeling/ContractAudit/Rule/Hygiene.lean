import ContractAudit.Rule.Arithmetic

/-!
# Rules on hygiene

Changes without events, names that hide others, equality with a balance that anyone can
change, compilers that are not fixed, and packed values whose borders are lost.
-/

namespace ContractAudit

open Pattern

namespace Detector

/-! ## Events -/

/-- The start of the name of a function that sets something. -/
def setterName : Pattern :=
  oneOf ["set", "update", "change", "configure", "enable", "disable", "pause", "unpause",
    "transferOwnership", "renounceOwnership", "grant", "revoke"]

/-- A setter or a privileged change without an event. -/
def missingEventEmission : Detector :=
  eachEntryPoint fun src b => pure <|
    match b.statements.filterMap (·.target) with
    | [] => []
    | target :: targets =>
      if b.kind != .function || b.statements.any (·.kind == .eventEmit) then []
      else if setterName.starts b.name.toList ||
          (target :: targets).any (fun t => Sign.privilegedName.occursIn t.toList) then
        [b.headerMatched src "missing-event-emission"
          s!"{b.displayName} updates `{target}` without emitting an event"]
      else []

/-! ## Shadowing -/

/-- A parameter or a local variable with the name of a state variable. -/
def stateVariableShadowing : Detector :=
  eachParsed fun src b => pure <|
    match b.contract with
    | none => []
    | some c =>
      let names := c.variableNames
      (match b.paramNames.find? names.contains with
        | some param => [b.headerMatched src "state-variable-shadowing"
            s!"parameter `{param}` shadows a state variable"]
        | none => []) ++
      b.statements.filterMap fun s =>
        match localDeclaration? s.chars with
        | some d =>
          if names.contains d.name then
            some (s.matched "state-variable-shadowing"
              s!"local `{d.name}` shadows a state variable")
          else none
        | none => none

/-! ## Balances -/

/-- The contract's own ether. -/
def ownEther : Pattern :=
  Sign.ownAddress ++ blanks ++ "." ++ blanks ++ "balance"

/-- A comparison with the contract's own ether or tokens, on either side. -/
def strictBalance : Pattern :=
  oneOf [oneOf [ownEther, Sign.ownTokens] ++ blanks ++ Sign.equality,
    Sign.equality ++ blanks ++ oneOf [ownEther,
      stretch (fun c => isWordChar c || c == '.' || isParen c) ++ Sign.ownTokens]]

/-- The statements that compare a balance of the contract exactly. -/
def strictBalanceEquality : Detector :=
  eachParsed fun _ b => pure <|
    (b.statements.filter (·.shows strictBalance)).map
      (·.matched "strict-balance-equality" "strict equality on the contract's balance")

/-! ## Compilers -/

/-- A version pragma that admits later compilers without an upper bound. -/
def floatingPragma : Detector :=
  fun src _ => pure <|
    (versionPragma.allIn src.text.toList).filterMap fun h =>
      let versions := h.part "versions"
      if versions.any (fun c => c == '^' || c == '~' || c == '>' || c == '*') &&
        !versions.contains '<'
      then
        let shown := String.ofList (trim versions)
        some ⟨"floating-pragma", h.start.offset, h.stop.offset,
          some s!"compiler version `{shown}` is not pinned"⟩
      else none

/-! ## Packed values -/

/-- A call that joins values without padding. -/
def encodePacked : Pattern :=
  edge ++ "abi" ++ blanks ++ "." ++ blanks ++ "encodePacked" ++ blanks ++ "("

/-- Is the argument a number or an empty literal? -/
def isConstant (arg : List Char) : Bool :=
  (oneOf [stretch1 isDecimalDigit, "\"" ++ blanks ++ "\"", "'" ++ blanks ++ "'"]).fits arg

/-- Two or more values packed side by side. -/
def encodePackedCollision : Detector :=
  fun src _ => do
    let text := src.text.toList
    let parens := Pairs.parens text
    let found ← (encodePacked.allIn text).mapM fun h => do
      let args := (← callArguments parens h.stop).getD []
      return if (args.filter (!isConstant ·)).length ≥ 2 then
        some ⟨"encode-packed-collision", h.start.offset, (h.stop.offset - 1 : Nat),
          some s!"{args.length} values packed without padding"⟩
      else none
    return found.filterMap id

end Detector

end ContractAudit
