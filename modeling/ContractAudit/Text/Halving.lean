/-!
# Search by halving

`firstFailing holds n` looks for the end of the stretch `0, 1, …` below `n` on which
`holds` is true, by halving the interval it may lie in. On a `holds` that never turns
true again it is the number of indices below `n` at which `holds` is true.
-/

namespace ContractAudit

/-- One halving after another of the interval from `lo` to `hi`. -/
def halve (holds : Nat → Bool) : Nat → Nat → Nat → Nat
  | 0, lo, _ => lo
  | fuel + 1, lo, hi =>
    if lo < hi then
      let mid := (lo + hi) / 2
      if holds mid then halve holds fuel (mid + 1) hi else halve holds fuel lo mid
    else lo

/-- The first index at which `holds` fails, or `n` if it holds below `n`. -/
def firstFailing (holds : Nat → Bool) (n : Nat) : Nat :=
  halve holds n 0 n

/-- How many entries of the sorted array `a` are at most `x`. -/
def countAtMost (a : Array Nat) (x : Nat) : Nat :=
  firstFailing (fun i => a[i]?.any (· ≤ x)) a.size

end ContractAudit
