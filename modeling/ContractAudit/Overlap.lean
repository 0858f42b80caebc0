import ContractAudit.Rule.Basic

/-!
# Overlapping matches

Of the matches of one rule that overlap, a report keeps the widest; of two that are equally
wide, the one that starts first. `dropOverlaps` takes the matches of a rule from the widest to
the narrowest and keeps those that meet none of the kept ones. The kept ones lie apart, so the
one to compare with is found by halving.
-/

namespace ContractAudit

namespace Match

/-- The offset behind a match : an empty or reversed one takes one character. -/
def behind (m : Match) : Int :=
  max m.stop (m.start + 1)

/-- How many characters a match covers. -/
def width (m : Match) : Int :=
  m.behind - m.start

/-- From the widest to the narrowest, then by start and end. -/
def compareWidth : Match → Match → Ordering :=
  compareLex (compareOn fun m => -m.width)
    (compareLex (compareOn fun m => m.start) (compareOn fun m => m.stop))

end Match

/-- How many of the matches, which stand by increasing start, start below `x`. -/
def startingBelow (kept : Array Match) (x : Int) : Nat :=
  firstFailing (fun i => kept[i]?.any (·.start < x)) kept.size

/-- Does a match meet the last one of the kept ones that start before its end? -/
def meetsKept (kept : Array Match) (m : Match) : Bool :=
  match startingBelow kept m.behind with
  | 0 => false
  | n + 1 => kept[n]?.any fun k => m.start < k.behind

/-- Puts a match in its place among the kept ones, unless it meets one of them. -/
def keep (kept : Array Match) (m : Match) : Array Match :=
  if meetsKept kept m then kept
  else kept.insertIdxIfInBounds (startingBelow kept m.start) m

/-- The matches to keep of one rule, by increasing start. -/
def keepWidest (ms : List Match) : List Match :=
  ((ms.mergeSort fun a b => (a.compareWidth b).isLE).foldl keep #[]).toList

/-- The matches to keep : rule by rule in order of first appearance. -/
def dropOverlaps (ms : List Match) : List Match :=
  (ms.map (·.ruleId)).eraseDups.flatMap fun id =>
    keepWidest (ms.filter fun m => m.ruleId == id)

end ContractAudit
