import ContractAudit.Text.Pattern
import ContractAudit.Text.Trim

/-!
# Brackets

`Pairs.of` matches the opening and closing brackets of one kind in a text, whatever else
is unbalanced in it. `splitTopLevel` splits a text at the separators that no round or
square bracket encloses, and `stripGroups` removes the groups in round brackets.
-/

namespace ContractAudit

/-! ## Pairs -/

/-- The brackets of one kind in a text : for each offset, that of the closing bracket if
a matched opening bracket is there. -/
structure Pairs where
  closers : Array (Option Nat)
  deriving DecidableEq, Repr

namespace Pairs

/-- The offset of the bracket that closes the one at `i`. -/
def close? (ps : Pairs) (i : Nat) : Option Nat :=
  ps.closers[i]?.join

/-- The matched brackets, in the order of the opening ones. -/
def toList (ps : Pairs) : List (Nat × Nat) :=
  ps.closers.toList.zipIdx.filterMap fun (close, i) => close.map (i, ·)

/-- Pairs the brackets of the text, which goes on at offset `i`, with the opening brackets
`stack` still unmatched, the latest first. A closing bracket without one is passed over. -/
def pairFrom (opener closer : Char) (i : Nat) (stack : List Nat) (done : Array (Option Nat)) :
    List Char → Array (Option Nat)
  | [] => done
  | c :: cs =>
    if c == opener then pairFrom opener closer (i + 1) (i :: stack) done cs
    else if c == closer then
      match stack with
      | [] => pairFrom opener closer (i + 1) [] done cs
      | o :: stack => pairFrom opener closer (i + 1) stack (done.setIfInBounds o (some i)) cs
    else pairFrom opener closer (i + 1) stack done cs

/-- The pairs of a text. -/
def of (opener closer : Char) (text : List Char) : Pairs :=
  ⟨pairFrom opener closer 0 [] (Array.replicate text.length none) text⟩

/-- The braces of a text, each with its partner. -/
def braces (text : List Char) : Pairs :=
  of '{' '}' text

/-- The parentheses of a text, each with its partner. -/
def parens (text : List Char) : Pairs :=
  of '(' ')' text

end Pairs

/-! ## Splitting outside brackets -/

/-- A character that opens a group. -/
def isOpening (c : Char) : Bool :=
  c == '(' || c == '['

/-- A character that closes a group. -/
def isClosing (c : Char) : Bool :=
  c == ')' || c == ']'

/-- The depth behind a character : brackets of both kinds count, and it may go below zero. -/
def depthAfter (depth : Int) (c : Char) : Int :=
  if isOpening c then depth + 1 else if isClosing c then depth - 1 else depth

/-- The pieces of the text between separators at depth zero, from the given depth on, the
first piece continuing `piece` (kept reversed), after the pieces `done` (kept reversed). -/
def topLevelFrom (sep : Char) (done : List (List Char)) (piece : List Char) (depth : Int) :
    List Char → List (List Char)
  | [] => (piece.reverse :: done).reverse
  | c :: cs =>
    let depth := depthAfter depth c
    if c == sep && depth == 0 then topLevelFrom sep (piece.reverse :: done) [] depth cs
    else topLevelFrom sep done (c :: piece) depth cs

/-- The pieces between the separators outside all brackets, trimmed, without the empty
ones. -/
def splitTopLevel (sep : Char) (text : List Char) : List (List Char) :=
  trimmedPieces (topLevelFrom sep [] [] 0 text)

/-! ## Groups -/

/-- A parenthesis of either side. -/
def isParen (c : Char) : Bool :=
  c == '(' || c == ')'

/-- A group in round brackets without another one inside. -/
def flatGroup : Pattern :=
  "(" ++ .stretch (!isParen ·) ++ ")"

/-- Replaces the innermost groups by a space, `fuel` times at most or until none is left. -/
def stripGroupsFor : Nat → List Char → List Char
  | 0, text => text
  | fuel + 1, text =>
    let next := flatGroup.replaceIn [' '] text
    if next == text then text else stripGroupsFor fuel next

/-- The text with its groups in round brackets replaced by a space each, the innermost
first. Every round makes the text shorter, so there are fewer rounds than characters. -/
def stripGroups (text : List Char) : List Char :=
  stripGroupsFor text.length text

end ContractAudit
