import ContractAudit.Rule.Sign

/-!
# Rules on the order of transactions

Prices, votes and payouts that whoever orders the transactions, or moves much money within
one, can turn to account; and signatures that can be used again.
-/

namespace ContractAudit

open Pattern

namespace Detector

/-! ## Flash loans -/

/-- A price read from a pool as it is now. -/
def spotPrice : Pattern :=
  oneOf ["." ++ blanks ++ "getReserves" ++ blanks ++ "(", "." ++ blanks ++ "slot0" ++ blanks ++ "("]

/-- A part of the name of a function that counts votes, in any case. -/
def voteName : Pattern :=
  oneOfAnyCase ["vote", "propos", "delegate"]

/-- A name that belongs to balances of the past, in any case. -/
def snapshot : Pattern :=
  oneOfAnyCase ["getPastVotes", "getPriorVotes", "balanceOfAt", "snapshot", "checkpoint",
    "getVotes"]

/-- A price, share or vote read from what one transaction can move. -/
def flashloanManipulation : Detector :=
  eachParsed fun src b => pure <|
    let voting := voteName.occursIn b.name.toList && !snapshot.occursIn (src.slice b.start b.stop)
    b.statements.filterMap fun s =>
      let at_ (evidence : String) := some (s.matched "flashloan-price-manipulation" evidence)
      if s.shows spotPrice then at_ "price derived from instantaneous pool reserves"
      else if s.shows Sign.ownTokens && (s.chars.contains '/' || s.chars.contains '*') then
        at_ "ratio computed from the contract's own token balance"
      else if voting && s.shows "balanceOf" then
        at_ s!"voting power in {b.displayName} read from current balance"
      else none

/-! ## Front-running -/

/-- A call of a pool's swap. -/
def swapCall : Pattern :=
  "." ++ blanks ++ named "method" ("swap" ++ stretch isWordChar) ++ blanks ++ "("

/-- A least output of zero, given by name. -/
def zeroMinimum : Pattern :=
  "amountOutMin" ++ stretch isWordChar ++ blanks ++ ":" ++ blanks ++ "0" ++ edge

/-- The functions that hash. -/
def hashName : Pattern :=
  oneOf ["keccak256", "sha256"]

/-- A comparison with a hash, on either side. -/
def hashCheck : Pattern :=
  oneOf [hashName ++ blanks ++ "(" ++ Scope.shallowInside ++ ")" ++ blanks ++ "==",
    "==" ++ blanks ++ hashName ++ blanks ++ "("]

/-- A comparison with zero. -/
def zeroCheck : Pattern :=
  Sign.equality ++ blanks ++ "0" ++ edge

/-- The swap of a statement whose second argument, the least it asks for, is zero. -/
def greedySwap? (text : List Char) : Except DetectorFault (Option String) :=
  match swapCall.findIn? text with
  | none => pure none
  | some h => do
    let args := (← callArguments (Pairs.parens text) h.stop).getD []
    return if args[1]? == some ['0'] then some (String.ofList (h.part "method")) else none

/-- Why a statement is prone to be front-run, if one behind it `pays` or not. -/
def frontRunning? (pays : Bool) (text : List Char) : Except DetectorFault (Option String) := do
  if zeroMinimum.occursIn text then return some "swap accepts zero minimum output"
  match ← greedySwap? text with
  | some method => return some s!"{method}() called with zero minimum output"
  | none =>
    return if pays && hashCheck.occursIn text then
      some "payout depends on a publicly submitted answer" else none

/-- Each statement with whether one behind it moves value out. -/
def withPayouts (statements : List Statement) : List (Statement × Bool) :=
  (statements.foldr (fun s (done, pays) => ((s, pays) :: done, pays || s.shows Sign.valueOut))
    ([], false)).1

/-- The first write to an allowance in an approval that does not ask for a reset. -/
def allowanceOverwrite (b : Block) : List Match :=
  if b.name == "approve" && b.isEntryPoint && !b.statements.any (·.shows zeroCheck) then
    match b.statements.find? fun s => s.target.any fun t => (anyCase "allow").occursIn t.toList with
    | some s =>
      [s.matched "front-running" "allowance overwritten without requiring a reset to zero"]
    | none => []
  else []

/-- A check whose outcome others can foresee and forestall. -/
def frontRunning : Detector :=
  eachParsed fun _ b => do
    let found ← (withPayouts b.statements).mapM fun (s, pays) => do
      return (← frontRunning? pays s.chars).map (s.matched "front-running")
    return found.filterMap id ++ allowanceOverwrite b

/-! ## Signatures -/

/-- A call that recovers the signer of a message. -/
def recovery : Pattern :=
  oneOf [edge ++ "ecrecover" ++ blanks ++ "(",
    "." ++ blanks ++ oneOf ["recover", "tryRecover"] ++ blanks ++ "("]

/-- A name that belongs to a record of what was used, in any case. -/
def nonceSign : Pattern :=
  oneOfAnyCase ["nonce", "used", "executed", "consumed", "claimed"]

/-- A name that binds a signature to one contract on one chain. -/
def domainSign : Pattern :=
  oneOf ["DOMAIN_SEPARATOR", "domainSeparator", "_hashTypedDataV4", "EIP712", "block.chainid",
    "chainid" ++ blanks ++ "("]

/-- A signature that nothing ties to one use in one place. -/
def signatureReplay : Detector :=
  fun src bs =>
    let hasDomain := domainSign.occursIn src.text.toList
    eachParsed (fun src b => pure <|
      let hasNonce := nonceSign.occursIn (src.slice b.start b.stop)
      if hasNonce && hasDomain then []
      else
        let missing := " and ".intercalate
          ((if hasNonce then [] else ["nonce"]) ++ (if hasDomain then [] else ["domain separator"]))
        match b.statements.find? (·.shows recovery) with
        | some s => [s.matched "signature-replay" s!"signature checked without a {missing}"]
        | none => []) src bs

end Detector

end ContractAudit
