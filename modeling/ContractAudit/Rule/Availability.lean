import ContractAudit.Rule.Sign

/-!
# Rules on availability and control

Loops that grow with the state and call out, funds that move without a pause switch, and
critical functions in a single hand. Whether a contract has a switch or a delay is looked up
once for each contract.
-/

namespace ContractAudit

open Pattern

namespace Detector

/-! ## Loops -/

/-- A word that opens a loop. -/
def loopWord : Pattern :=
  oneOf ["for", "while"] ++ edge

/-- The type is a dynamic array. -/
def dynamicArray : Pattern :=
  "[" ++ blanks ++ "]" ++ Pattern.atEnd

/-- The names of the state variables that are dynamic arrays. -/
def arrays (c : Contract) : List String :=
  (c.stateVars.filter fun v => dynamicArray.occursIn v.typeText.toList).map (·.name)

/-- The length of one of the arrays. -/
def lengthOf (names : List String) : Pattern :=
  edge ++ named "array" (oneOf (names.map text)) ++ blanks ++ "." ++ blanks ++ "length" ++ edge

/-- The header of a loop. -/
def isLoop (s : Statement) : Bool :=
  s.isControlFlow && loopWord.starts s.chars

/-- One statement with its index, going backwards : the first external call from it on is the
statement itself, or the one from the next place on. -/
def nextCallStep (s : Statement × Nat) (table : List Nat) : List Nat :=
  (if s.1.isExternalCall then s.2 else table.headD s.2) :: table

/-- For each of the statements, and for the end, the index of the first external call from
there on, or else the number of the statements. -/
def nextCalls (ss : List Statement) : List Nat :=
  ss.zipIdx.foldr nextCallStep [ss.length]

/-- A loop by its header and the index of it. -/
structure OpenLoop where
  header : Statement
  index : Nat
  deriving DecidableEq, Repr

/-- A loop and the index behind its body. -/
structure ClosedLoop extends OpenLoop where
  stop : Nat
  deriving DecidableEq, Repr

/-- The loops met on the way through the statements. -/
structure LoopNest where
  /-- Those whose body goes on, the innermost first. -/
  unclosed : List OpenLoop
  /-- Those whose body has ended, the latest first. -/
  closed : List ClosedLoop
  deriving DecidableEq, Repr

/-- Closes the loops whose body a statement with the given depth and index does not belong
to. -/
def closeLoops (depth index : Nat) (closed : List ClosedLoop) : List OpenLoop → LoopNest
  | [] => ⟨[], closed⟩
  | loop :: outer =>
    if depth ≤ loop.header.loopDepth then
      closeLoops depth index (⟨loop, index⟩ :: closed) outer
    else ⟨loop :: outer, closed⟩

/-- One statement with its index : it ends loops, and may be the header of one. -/
def nestStep (nest : LoopNest) (s : Statement × Nat) : LoopNest :=
  let nest := closeLoops s.1.loopDepth s.2 nest.closed nest.unclosed
  if isLoop s.1 then { nest with unclosed := ⟨s.1, s.2⟩ :: nest.unclosed } else nest

/-- The loops among the statements, in the order of their headers. The loops that are open
at the end go on up to there. -/
def closedLoops (ss : List Statement) : List ClosedLoop :=
  let nest := ss.zipIdx.foldl nestStep ⟨[], []⟩
  (nest.closed ++ nest.unclosed.map (ClosedLoop.mk · ss.length)).mergeSort fun l k =>
    l.index ≤ k.index

/-- The evidence against a loop, with the line of the call in it. -/
def loopEvidence (array : String) (line : Int) : String :=
  s!"loop over storage array `{array}` makes an external call at line {line}"

/-- The match on a loop over one of the arrays, if the next call stands in its body. -/
def loopMatch? (src : Source) (length : Pattern) (calls : Array Nat) (ss : Array Statement)
    (loop : ClosedLoop) : Option Match := do
  let i ← calls[loop.index + 1]?
  if loop.stop ≤ i then none
  else
    let h ← length.findIn? loop.header.chars
    let call ← ss[i]?
    some (loop.header.matched "unbounded-loop-external-call"
      (loopEvidence (String.ofList (h.part "array")) (src.lineOf call.start)))

/-- The loops over one of the arrays that call out. -/
def loopMatches (src : Source) (length : Pattern) (ss : List Statement) : List Match :=
  let calls := (nextCalls ss).toArray
  let statements := ss.toArray
  (closedLoops ss).filterMap (loopMatch? src length calls statements)

/-- A loop over an array of the state that calls another contract. -/
def unboundedLoopExternalCall : Detector :=
  eachParsed fun src b => pure <|
    match b.contract with
    | none => []
    | some c =>
      let names := arrays c
      if names.isEmpty then [] else loopMatches src (lengthOf names) b.statements

/-! ## What a contract mentions -/

/-- Does the pattern occur in the text of a contract or in its bases? -/
def mentions (p : Pattern) (src : Source) (c : Contract) : Bool :=
  p.occursIn (src.slice c.start c.stop) || c.bases.any fun base => p.occursIn base.toList

/-- The answers known for contracts, by their ranges. -/
abbrev Mentions := List ((Nat × Nat) × Bool)

/-- `mentions` with the answers that are known already. -/
def recallMentions (p : Pattern) (src : Source) (c : Contract) (known : Mentions) :
    Bool × Mentions :=
  match known.lookup (c.start, c.stop) with
  | some answer => (answer, known)
  | none =>
    let answer := mentions p src c
    (answer, ((c.start, c.stop), answer) :: known)

/-- One member : the matches found so far, the latest first, and what is known of contracts. The
contract of a member that is asked about is looked up first, and only then the member is looked
at. -/
def mentionStep (p : Pattern) (asks : Block → Bool) (f : Source → Block → Option Match)
    (src : Source) (run : List Match × Mentions) (b : Block) : List Match × Mentions :=
  match b.contract with
  | none => run
  | some c =>
    if asks b then
      let (answer, known) := recallMentions p src c run.2
      (if answer then run.1 else (f src b).toList ++ run.1, known)
    else run

/-- Collects the matches of the members that are asked about, inside contracts that do not mention
the pattern. -/
def unlessMentioned (p : Pattern) (asks : Block → Bool) (f : Source → Block → Option Match) :
    Detector :=
  fun src bs => pure (bs.foldl (mentionStep p asks f src) ([], [])).1.reverse

/-! ## Pause switches -/

/-- A name that belongs to a mechanism to pause the contract, in any case. -/
def pauseSign : Pattern :=
  oneOf [anyCase "whenNotPaused", anyCase "whenPaused", edge ++ anyCase "paused" ++ edge,
    anyCase "Pausable", anyCase "_pause" ++ edge, anyCase "circuitBreaker", anyCase "emergencyStop",
    edge ++ anyCase "stopped" ++ edge]

/-- Funds move in a contract that cannot be paused. -/
def missingPauseGuard : Detector :=
  unlessMentioned pauseSign (fun b => b.isParsed && b.isEntryPoint && !b.isView) fun src b =>
    if b.statements.any (·.shows Sign.valueOut) then
      some (b.headerMatched src "missing-pause-guard"
        s!"{b.displayName} moves funds with no pause switch")
    else none

/-! ## Single owners -/

/-- A modifier that lets a single role in. -/
def singleOwner : Pattern :=
  "only" ++ oneOf ["Owner", "Admin", "Operator", "Governance", "Governor", "Manager", "Dev",
    "Deployer"] ++ Pattern.atEnd

/-- A name that belongs to a delay, to a handover in two steps or to shared keys. -/
def delaySign : Pattern :=
  oneOfAnyCase ["timelock", "delay", "pendingOwner", "acceptOwnership", "Ownable2Step", "multisig",
    "Gnosis"]

/-- A name of something that one key should not control alone. -/
def criticalName : Pattern :=
  oneOfAnyCase ["upgrade", "withdraw", "mint", "pause", "transferOwnership", "kill", "destroy",
    "drain", "rescue", "sweep", "emergency", "implementation", "fee", "rate", "price", "oracle"]

/-- The member does something its callers depend on. -/
def isCritical (b : Block) : Bool :=
  criticalName.occursIn b.name.toList ||
    b.statements.any fun s => s.shows Sign.valueOut || s.shows Sign.selfDestruct

/-- The modifier that leaves a member to a single owner. -/
def ownerModifier? (b : Block) : Option String :=
  b.modifiers.find? fun m => singleOwner.starts m.toList

/-- One key alone controls a critical function. -/
def singleOwnerCritical : Detector :=
  unlessMentioned delaySign (fun b => b.isParsed && (ownerModifier? b).isSome) fun src b =>
    if isCritical b then
      (ownerModifier? b).map fun m => b.headerMatched src "single-owner-critical"
        s!"`{m}` alone controls {b.displayName}; no timelock or two-step handover"
    else none

end Detector

end ContractAudit
