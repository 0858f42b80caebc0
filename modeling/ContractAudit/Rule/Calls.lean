import ContractAudit.Rule.Sign

/-!
# Rules on external calls

Calls made before the state is settled, calls whose result is dropped, calls with a fixed
amount of gas, and code of others run on the contract's own storage.
-/

namespace ContractAudit

open Pattern

namespace Detector

/-! ## Reentrancy -/

/-- An external call that leaves its callee gas to call back. -/
def canReenter (s : Statement) : Except DetectorFault Bool :=
  if s.isExternalCall then do
    let fixed ← isFixedGasSend s.chars
    return !(fixed && !s.shows Scope.lowLevelCall)
  else pure false

/-- The first statement that can be reentered, and those behind it. -/
def firstReentrance : List Statement → Except DetectorFault (Option (Statement × List Statement))
  | [] => pure none
  | s :: later => do
    if ← canReenter s then return some (s, later) else firstReentrance later

/-- The first of the statements that writes, with what it writes. Any target counts, for no outline
has an empty one. -/
def firstWrite : List Statement → Option (Statement × String)
  | [] => none
  | s :: later =>
    match s.target with
    | some t => some (s, t)
    | none => firstWrite later

/-- An external call with a write behind it, in an entry point without a guard. -/
def reentrancy : Detector :=
  eachEntryPoint fun src b => do
    if b.isGuarded then return []
    match ← firstReentrance b.statements with
    | none => return []
    | some (call, later) =>
      match firstWrite later with
      | none => return []
      | some (write, target) =>
        let line := src.lineOf write.start
        return [call.matched "reentrancy"
          s!"external call in {b.displayName} precedes write to `{target}` at line {line}"]

/-! ## Delegate calls -/

/-- A call that runs foreign code on the contract's own storage. -/
def delegateCall : Pattern :=
  "." ++ blanks ++ "delegatecall" ++ blanks ++ "("

/-- The path in front of a call, which may end in an index. -/
def calleePattern : Pattern :=
  named "callee" dotted ++ blanks ++ maybe ("[" ++ stretch (· != ']') ++ "]" ++ blanks) ++
    Pattern.atEnd

/-- How far before the call its target is looked for. -/
def calleeReach : Nat := 128

/-- The variable whose code a statement runs on the contract's storage. -/
def delegateBase? (text : List Char) : Option String := do
  let call ← delegateCall.findIn? text
  let stop := call.start.offset
  let start := stop - calleeReach
  let callee ← calleePattern.findIn? ((text.drop start).take (stop - start))
  return String.ofList ((callee.part "callee").takeWhile (· != '.'))

/-- A delegate call to a target from the caller, or one that anyone can make. -/
def delegatecallUntrusted : Detector :=
  eachParsed fun _ b => pure <| b.statements.filterMap fun s => do
    let base ← delegateBase? s.chars
    if b.paramNames.contains base then
      some (s.matched "delegatecall-untrusted"
        s!"delegatecall target `{base}` is supplied by the caller")
    else if b.kind == .function && b.isEntryPoint && !b.hasAccessControl then
      some (s.matched "delegatecall-untrusted"
        s!"{b.displayName} delegatecalls without access control")
    else none

/-! ## Results that nobody reads -/

/-- A call that answers whether it succeeded. -/
def returningCall : Pattern :=
  "." ++ blanks ++ named "method" (oneOf ["send", "transfer", "transferFrom", "approve"]) ++
    blanks ++ "("

/-- The method whose result a statement drops. A transfer with one argument sends ether and
has no result. -/
def droppedResult? (text : List Char) : Except DetectorFault (Option String) :=
  match returningCall.findIn? text with
  | none => pure none
  | some h => do
    let method := String.ofList (h.part "method")
    let args := (← callArguments (Pairs.parens text) h.stop).getD []
    return if method == "transfer" && args.length < 2 then none else some method

/-- A call of `send` or of a token method whose result is dropped. -/
def uncheckedCallReturn : Detector :=
  eachParsed fun _ b => do
    let found ← b.statements.mapM fun s => do
      if !s.isExternalCall then return none
      let text := s.chars
      if Sign.wrapped.starts text || Sign.captured.starts text || text.head? == some '(' then
        return none
      return (← droppedResult? text).map fun method =>
        s.matched "unchecked-call-return" s!"return value of {method}() is ignored"
    return found.filterMap id

/-- What is wrong with the success flag of a low-level call, if the words `later` stand in
the statements behind it. -/
def flagProblem? (later : List String) (text : List Char) : Option String := do
  let call ← Scope.lowLevelCall.findIn? text
  if Sign.wrapped.starts text then none
  else
    match Sign.captured.startOf? text with
    | none =>
      let method := String.ofList (call.part "method")
      some s!"result of low-level {method} is discarded"
    | some h =>
      let flag := String.ofList (h.part "flag")
      if later.contains flag then none
      else some s!"success flag `{flag}` is never checked"

/-- One statement, going backwards : the words of the statements behind it and the matches
in them. -/
def flagStep (s : Statement) (behind : List String × List Match) : List String × List Match :=
  let (later, found) := behind
  let text := s.chars
  let found := match flagProblem? later text with
    | some evidence => s.matched "unchecked-low-level-call" evidence :: found
    | none => found
  (Sign.wordsOf text ++ later, found)

/-- A low-level call whose success flag is dropped or not read later on. -/
def uncheckedLowLevelCall : Detector :=
  eachParsed fun _ b => pure (b.statements.foldr flagStep ([], [])).2

/-! ## Fixed gas -/

/-- A transfer that passes on a fixed amount of gas. -/
def transferFixedGas : Detector :=
  eachParsed fun _ b => do
    let found ← b.statements.filterM fun s =>
      if s.isExternalCall then isFixedGasSend s.chars else pure false
    return found.map (·.matched "transfer-fixed-gas" "forwards a fixed 2300 gas stipend")

end Detector

end ContractAudit
