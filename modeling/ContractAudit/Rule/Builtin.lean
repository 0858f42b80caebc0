import ContractAudit.Rule.Access
import ContractAudit.Rule.Availability
import ContractAudit.Rule.Calls
import ContractAudit.Rule.Entropy
import ContractAudit.Rule.Hygiene
import ContractAudit.Rule.Ordering
import ContractAudit.Rule.Validation

/-!
# The built-in rules

What is said about each of them, and the detector behind it. `Rule.builtin` lists them in
the order in which they are asked.
-/

namespace ContractAudit

namespace Rule

/-- A call ahead of a write to the storage, without a guard. -/
def reentrancy : Rule where
  id := "reentrancy"
  title := "External call before state update"
  category := .reentrancy
  severity := .critical
  gasImpact := .medium
  description :=
    "An external call is made before the function updates its own storage, and no reentrancy " ++
    "guard is present. The callee can re-enter and act on stale state, e.g. withdraw the same " ++
    "balance repeatedly."
  remediation :=
    "Apply checks-effects-interactions: update balances before the call, or add a " ++
    "nonReentrant guard."
  swc := some "SWC-107"
  evaluate := Detector.reentrancy.evaluate

/-- A price or a weight that one transaction can move. -/
def flashloanManipulation : Rule where
  id := "flashloan-price-manipulation"
  title := "Flash-loan manipulable price or voting power"
  category := .mev
  severity := .critical
  gasImpact := .absent
  description :=
    "A price, share ratio or voting weight is read from state that can be moved within a " ++
    "single transaction (pool reserves, the contract's own balance, a live token balance)."
  remediation :=
    "Use a TWAP or an external oracle for prices, and snapshot balances (getPastVotes) for " ++
    "governance."
  swc := none
  evaluate := Detector.flashloanManipulation.evaluate

/-- Foreign code that runs on the contract's own storage. -/
def delegatecallUntrusted : Rule where
  id := "delegatecall-untrusted"
  title := "Delegatecall to untrusted target"
  category := .externalCalls
  severity := .critical
  gasImpact := .low
  description :=
    "delegatecall runs foreign code against this contract's storage. The target is " ++
    "caller-controlled or the function is reachable by anyone."
  remediation :=
    "Delegate only to fixed, trusted implementations and restrict who can change or trigger them."
  swc := some "SWC-112"
  evaluate := Detector.delegatecallUntrusted.evaluate

/-- A write to a privileged variable that anyone can make. -/
def unprotectedStateChange : Rule where
  id := "unprotected-state-change"
  title := "Unprotected privileged state change"
  category := .accessControl
  severity := .critical
  gasImpact := .absent
  description :=
    "A public function without any access check writes a privileged variable such as the " ++
    "owner, admin or implementation address."
  remediation :=
    "Restrict the function with an access-control modifier (onlyOwner, onlyRole) or an " ++
    "explicit msg.sender check."
  swc := some "SWC-105"
  evaluate := Detector.unprotectedStateChange.evaluate

/-- An end of the contract that anyone can bring about. -/
def unprotectedSelfdestruct : Rule where
  id := "unprotected-selfdestruct"
  title := "Unprotected selfdestruct"
  category := .accessControl
  severity := .critical
  gasImpact := .absent
  description :=
    "selfdestruct is reachable without an access check, letting anyone disable the contract " ++
    "and sweep its ether."
  remediation :=
    "Remove selfdestruct or guard it behind a restricted, time-locked function."
  swc := some "SWC-106"
  evaluate := Detector.unprotectedSelfdestruct.evaluate

/-- An authorization by the origin of the transaction. -/
def txOriginAuth : Rule where
  id := "tx-origin-auth"
  title := "tx.origin used for authorization"
  category := .accessControl
  severity := .high
  gasImpact := .absent
  description :=
    "Authorization compares tx.origin. A malicious contract the owner interacts with can pass " ++
    "the check."
  remediation :=
    "Use msg.sender for authorization."
  swc := some "SWC-115"
  evaluate := Detector.txOriginAuth.evaluate

/-- A result of a transfer that is not looked at. -/
def uncheckedCallReturn : Rule where
  id := "unchecked-call-return"
  title := "Unchecked external call return value"
  category := .externalCalls
  severity := .high
  gasImpact := .absent
  description :=
    "send() or an ERC-20 transfer/transferFrom/approve returns false on failure, and the " ++
    "result is ignored."
  remediation :=
    "Check the returned boolean or use SafeERC20 / Address.sendValue."
  swc := some "SWC-104"
  evaluate := Detector.uncheckedCallReturn.evaluate

/-- A flag of a low-level call that is not looked at. -/
def uncheckedLowLevelCall : Rule where
  id := "unchecked-low-level-call"
  title := "Low-level call without success check"
  category := .externalCalls
  severity := .high
  gasImpact := .absent
  description :=
    "A low-level call, delegatecall or staticcall does not revert on failure, and its success " ++
    "flag is dropped or never read."
  remediation :=
    "Capture the success flag and require it, e.g. `(bool ok, ) = to.call\x7bvalue: " ++
    "v\x7d(\"\"); require(ok);`."
  swc := some "SWC-104"
  evaluate := Detector.uncheckedLowLevelCall.evaluate

/-- Arithmetic that can overflow. -/
def uncheckedArithmetic : Rule where
  id := "unchecked-arithmetic"
  title := "Arithmetic without overflow protection"
  category := .arithmeticSafety
  severity := .high
  gasImpact := .low
  description :=
    "Arithmetic runs without overflow checks, either under a pre-0.8 compiler without " ++
    "SafeMath or inside an unchecked block."
  remediation :=
    "Compile with Solidity >= 0.8, use SafeMath on older compilers, and keep unchecked blocks " ++
    "to proven-safe counters."
  swc := some "SWC-101"
  evaluate := Detector.uncheckedArithmetic.evaluate

/-- An outcome that depends on the order of transactions. -/
def frontRunning : Rule where
  id := "front-running"
  title := "Front-running prone check-then-act"
  category := .mev
  severity := .high
  gasImpact := .absent
  description :=
    "The outcome depends on transaction ordering. Examples are a swap with no minimum output, " ++
    "a payout for a publicly revealed answer, and an allowance overwrite."
  remediation :=
    "Add slippage limits and deadlines, use commit-reveal, and require allowances to be reset " ++
    "to zero first."
  swc := some "SWC-114"
  evaluate := Detector.frontRunning.evaluate

/-- A signature that can be used twice. -/
def signatureReplay : Rule where
  id := "signature-replay"
  title := "Replayable signature verification"
  category := .accessControl
  severity := .high
  gasImpact := .absent
  description :=
    "A recovered signature is accepted without a nonce or domain separator, so it can be " ++
    "replayed."
  remediation :=
    "Bind signatures to a per-signer nonce and an EIP-712 domain separator that includes " ++
    "chainid and the contract address."
  swc := some "SWC-121"
  evaluate := Detector.signatureReplay.evaluate

/-- A random value that validators can influence. -/
def weakRandomness : Rule where
  id := "weak-randomness"
  title := "Randomness from block properties"
  category := .randomness
  severity := .high
  gasImpact := .absent
  description :=
    "A random outcome is derived from block.timestamp, prevrandao, blockhash or similar " ++
    "values that validators can influence and anyone can read."
  remediation :=
    "Use a verifiable randomness source (e.g. Chainlink VRF) or a commit-reveal scheme."
  swc := some "SWC-120"
  evaluate := Detector.weakRandomness.evaluate

/-- A branch on the time of the block. -/
def timestampDependence : Rule where
  id := "timestamp-dependence"
  title := "Timestamp-dependent branching"
  category := .timestamp
  severity := .medium
  gasImpact := .absent
  description :=
    "A condition depends on block.timestamp, which the block proposer can shift by several " ++
    "seconds."
  remediation :=
    "Allow for timestamp drift in comparisons and avoid tight time windows for value-bearing " ++
    "decisions."
  swc := some "SWC-116"
  evaluate := Detector.timestampDependence.evaluate

/-- An address that is stored without a check for zero. -/
def missingZeroAddressCheck : Rule where
  id := "missing-zero-address-check"
  title := "Missing zero-address validation"
  category := .other
  severity := .low
  gasImpact := .absent
  description :=
    "An address parameter is stored without rejecting address(0), which can brick roles or " ++
    "burn funds."
  remediation :=
    "Add `require(addr != address(0))` before storing the address."
  swc := none
  evaluate := Detector.missingZeroAddressCheck.evaluate

/-- An administrative function without a modifier that guards it. -/
def missingAccessModifier : Rule where
  id := "missing-access-modifier"
  title := "Missing or inconsistent access-control modifier"
  category := .accessControl
  severity := .medium
  gasImpact := .absent
  description :=
    "An administrative function has no access-control modifier. Often other functions in the " ++
    "same contract are protected."
  remediation :=
    "Apply the contract's access-control modifier consistently to every administrative function."
  swc := some "SWC-105"
  evaluate := Detector.missingAccessModifier.evaluate

/-- An amount that leaves before it is checked. -/
def missingAmountValidation : Rule where
  id := "missing-amount-validation"
  title := "Missing balance or amount validation"
  category := .other
  severity := .medium
  gasImpact := .absent
  description :=
    "An amount parameter is subtracted from a balance or sent out before any bounds or " ++
    "balance check."
  remediation :=
    "Validate amounts up front, e.g. `require(amount > 0 && balances[msg.sender] >= amount)`."
  swc := none
  evaluate := Detector.missingAmountValidation.evaluate

/-- A loop over a growing array that calls out in each round. -/
def unboundedLoopExternalCall : Rule where
  id := "unbounded-loop-external-call"
  title := "Unbounded loop with external calls"
  category := .availability
  severity := .medium
  gasImpact := .high
  description :=
    "A loop runs over a growing storage array and makes an external call on each iteration. " ++
    "Gas exhaustion or one failing callee can block the function permanently."
  remediation :=
    "Bound iterations, paginate, or switch to a pull-payment pattern."
  swc := some "SWC-128"
  evaluate := Detector.unboundedLoopExternalCall.evaluate

/-- A critical function in the hands of one key. -/
def singleOwnerCritical : Rule where
  id := "single-owner-critical"
  title := "Single-owner critical function"
  category := .centralization
  severity := .medium
  gasImpact := .absent
  description :=
    "A single privileged key controls a critical operation without a timelock, multisig or " ++
    "two-step handover."
  remediation :=
    "Put critical operations behind a timelock or multisig and use two-step ownership transfer."
  swc := none
  evaluate := Detector.singleOwnerCritical.evaluate

/-- A function that moves funds and cannot be paused. -/
def missingPauseGuard : Rule where
  id := "missing-pause-guard"
  title := "No pause guard on fund-moving function"
  category := .availability
  severity := .low
  gasImpact := .low
  description :=
    "Funds can leave the contract through this function, and the contract has no pause or " ++
    "circuit-breaker mechanism."
  remediation :=
    "Inherit Pausable (or equivalent) and guard fund-moving functions with whenNotPaused."
  swc := none
  evaluate := Detector.missingPauseGuard.evaluate

/-- A setter that tells nobody. -/
def missingEventEmission : Rule where
  id := "missing-event-emission"
  title := "State change without event"
  category := .other
  severity := .low
  gasImpact := .low
  description :=
    "A setter or privileged state change emits no event, so off-chain monitoring cannot track it."
  remediation :=
    "Emit an event describing the change."
  swc := none
  evaluate := Detector.missingEventEmission.evaluate

/-- A local name that hides a state variable. -/
def stateVariableShadowing : Rule where
  id := "state-variable-shadowing"
  title := "Local variable shadows state variable"
  category := .other
  severity := .low
  gasImpact := .absent
  description :=
    "A parameter or local variable has the same name as a state variable, hiding it inside " ++
    "the function."
  remediation :=
    "Rename the local (e.g. prefix with an underscore)."
  swc := some "SWC-119"
  evaluate := Detector.stateVariableShadowing.evaluate

/-- An exact comparison with the balance of the contract. -/
def strictBalanceEquality : Rule where
  id := "strict-balance-equality"
  title := "Strict equality on contract balance"
  category := .other
  severity := .medium
  gasImpact := .absent
  description :=
    "Logic depends on the contract balance being exactly a value. Forced ether or token " ++
    "donations break it."
  remediation :=
    "Use >= / <= comparisons or track deposits in an internal accounting variable."
  swc := some "SWC-132"
  evaluate := Detector.strictBalanceEquality.evaluate

/-- A payment that leaves little gas to the receiver. -/
def transferFixedGas : Rule where
  id := "transfer-fixed-gas"
  title := "transfer/send with fixed gas stipend"
  category := .externalCalls
  severity := .low
  gasImpact := .low
  description :=
    "transfer() and send() forward only 2300 gas. Smart-contract wallets can fail to receive, " ++
    "and gas repricing can break them."
  remediation :=
    "Use a checked low-level call (or Address.sendValue) together with a reentrancy guard."
  swc := some "SWC-134"
  evaluate := Detector.transferFixedGas.evaluate

/-- A range of compiler versions. -/
def floatingPragma : Rule where
  id := "floating-pragma"
  title := "Floating compiler pragma"
  category := .other
  severity := .low
  gasImpact := .absent
  description :=
    "The pragma accepts a range of compiler versions, so deployed bytecode may differ from " ++
    "the tested build."
  remediation :=
    "Pin the exact compiler version used for testing and audit."
  swc := some "SWC-103"
  evaluate := Detector.floatingPragma.evaluate

/-- A hash of values whose borders are lost. -/
def encodePackedCollision : Rule where
  id := "encode-packed-collision"
  title := "abi.encodePacked hash collision"
  category := .other
  severity := .low
  gasImpact := .absent
  description :=
    "abi.encodePacked concatenates values without padding, so different dynamic inputs can " ++
    "hash identically."
  remediation :=
    "Use abi.encode, or make sure at most one argument is dynamically sized."
  swc := some "SWC-133"
  evaluate := Detector.encodePackedCollision.evaluate

/-- All of them, in order. -/
def builtin : List Rule :=
  [reentrancy, flashloanManipulation, delegatecallUntrusted, unprotectedStateChange,
    unprotectedSelfdestruct, txOriginAuth, uncheckedCallReturn, uncheckedLowLevelCall,
    uncheckedArithmetic, frontRunning, signatureReplay, weakRandomness, timestampDependence,
    missingZeroAddressCheck, missingAccessModifier, missingAmountValidation,
    unboundedLoopExternalCall, singleOwnerCritical, missingPauseGuard, missingEventEmission,
    stateVariableShadowing, strictBalanceEquality, transferFixedGas, floatingPragma,
    encodePackedCollision]

end Rule

end ContractAudit
