import ContractAudit.Rule.Sign

/-!
# Rules on arithmetic

Overflow is unchecked under compilers before 0.8 unless a library checks it, and inside
`unchecked` blocks of later ones.
-/

namespace ContractAudit

open Pattern

/-! ## Compiler versions -/

/-- A version pragma; the constraint is kept. -/
def versionPragma : Pattern :=
  edge ++ "pragma" ++ blanks1 ++ "solidity" ++ blanks1 ++ named "versions" (stretch1 (· != ';')) ++
    ";"

/-- A major and a minor version number. -/
def versionNumber : Pattern :=
  named "major" (stretch1 isDecimalDigit) ++ "." ++ named "minor" (stretch1 isDecimalDigit)

/-- The versions a constraint names, as major and minor numbers. -/
def versionsIn (constraint : List Char) : Except DigitFault (List (Nat × Nat)) :=
  (allInWith "." versionNumber constraint).mapM fun h => do
    return (← readNumber (h.part "major"), ← readNumber (h.part "minor"))

/-- Does the first version pragma name a version before 0.8? -/
def isLegacy (text : List Char) : Except DigitFault Bool :=
  match versionPragma.findIn? text with
  | some h => do
    let versions ← versionsIn (h.part "versions")
    return versions.any fun (major, minor) => major == 0 && minor < 8
  | none => pure false

namespace Detector

/-- A sum, a difference, a product or a step. -/
def arithmetic : Pattern :=
  oneOf [among "+-*" ++ "=", "++", "--",
    char isWordChar ++ blanks ++ among "+*" ++ blanks ++ char (fun c => isWordChar c || c == '('),
    char isWordChar ++ blanks ++ "-" ++ blanks ++ char (fun c => isWordChar c || c == '(')]

/-- A step of a counter, which does no harm. -/
def counterStep : Pattern :=
  oneOf ["++" ++ blanks ++ Sign.wholeWord, Sign.wholeWord ++ blanks ++ "++",
    "--" ++ blanks ++ Sign.wholeWord, Sign.wholeWord ++ blanks ++ "--"]

/-- The start of a block in which arithmetic is not checked. -/
def uncheckedBlock : Pattern :=
  edge ++ "unchecked" ++ blanks ++ "\x7b"

/-- A use of the library that checks arithmetic. -/
def safeMath : Pattern :=
  oneOf [edge ++ "using" ++ blanks1 ++ "SafeMath" ++ edge, edge ++ "SafeMath" ++ blanks ++ "."]

/-- The matches in the given `unchecked` blocks of a body that ends at `stop`, behind those
already `found` (kept reversed). Blocks before the offset `covered` lie in one already seen. -/
def uncheckedBlocks (src : Source) (braces : Pairs) (stop : Nat) (found : List Match)
    (covered : Nat) : List Hit → List Match
  | [] => found.reverse
  | h :: hs =>
    if h.start.offset < covered then uncheckedBlocks src braces stop found covered hs
    else
      let close := min ((braces.close? (h.stop.offset - 1)).getD (stop - 1)) (stop - 1)
      let inner :=
        replaceInWith (oneOf ["++", "--"]) counterStep [' '] (src.slice h.stop.offset close)
      let found :=
        if arithmetic.occursIn inner then
          ⟨"unchecked-arithmetic", h.start.offset, (close + 1 : Nat),
            some "arithmetic inside an unchecked block"⟩ :: found
        else found
      uncheckedBlocks src braces stop found (close + 1) hs

/-- Arithmetic on the state without a check for overflow. Any target counts as a part of the state,
for no outline has an empty one. -/
def uncheckedArithmetic : Detector :=
  fun src bs => do
    let text := src.text.toList
    let legacy := (← (isLegacy text).mapError .overlong) && !safeMath.occursIn text
    let braces := Pairs.braces text
    eachParsed (fun src b => pure <|
      (if legacy then
        (b.statements.filter fun s => s.target.isSome && s.shows arithmetic).map
          (·.matched "unchecked-arithmetic"
            "arithmetic on storage under a pre-0.8 compiler without SafeMath")
      else []) ++
      (match b.body with
        | some (start, stop) =>
          uncheckedBlocks src braces stop [] start (uncheckedBlock.findAll (src.window start stop))
        | none => [])) src bs

end Detector

end ContractAudit
