import ContractAudit.Rule.Sign

/-!
# Rules on randomness and time

Values of the block as a source of randomness, or as a clock that branches hang on.
-/

namespace ContractAudit

open Pattern

namespace Detector

/-- A value that the block decides. -/
def blockValue : Pattern :=
  oneOf [edge ++ "block" ++ blanks ++ "." ++ blanks ++
    oneOf ["timestamp", "difficulty", "prevrandao", "number", "coinbase", "gaslimit"] ++ edge,
    edge ++ "blockhash" ++ blanks ++ "(", edge ++ "now" ++ edge]

/-- What turns a value into a random one : a hash or a remainder. -/
def randomUse : Pattern :=
  oneOf [edge ++ "keccak256" ++ blanks ++ "(", edge ++ "sha256" ++ blanks ++ "(", "%"]

/-- A name of something that is meant to be random, in any case. -/
def randomName : Pattern :=
  oneOfAnyCase ["random", "seed", "lucky", "winner", "dice", "lottery"]

/-- The time of the block. -/
def timestamp : Pattern :=
  oneOf [edge ++ "block" ++ blanks ++ "." ++ blanks ++ "timestamp" ++ edge, edge ++ "now" ++ edge]

/-- The statement draws a random value from the block. -/
def isRandomness (s : Statement) : Bool :=
  s.shows blockValue && (s.shows randomUse || s.shows randomName)

/-- The statements that make a random value of what the block decides. -/
def weakRandomness : Detector :=
  eachParsed fun _ b => pure <|
    (b.statements.filter isRandomness).map
      (·.matched "weak-randomness" "random value derived from block properties")

/-- The branches that compare the time of the block, those on random values apart. -/
def timestampDependence : Detector :=
  eachParsed fun _ b => pure <|
    (b.statements.filter fun s =>
      s.isBranching && s.shows timestamp && s.shows Sign.comparison && !isRandomness s).map
      (·.matched "timestamp-dependence" "control flow depends on block.timestamp")

end Detector

end ContractAudit
