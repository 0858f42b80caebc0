import ContractAudit.Text.Decimal
import ContractAudit.Text.Halving
import ContractAudit.Text.Unicode

/-!
# Classes of characters

Blanks, words, identifiers and decimal digits as the patterns read them, and the case
folding under which names are compared. Identifiers start with an ASCII letter or an
underscore; every other class covers all of Unicode.
-/

namespace ContractAudit

/-- White space : what separates words and is trimmed from the ends of a text. -/
def isBlank (c : Char) : Bool :=
  let n := c.toNat
  if n < 0x80 then (0x9 ≤ n && n ≤ 0xD) || (0x1C ≤ n && n ≤ 0x20)
  else n == 0x85 || n == 0xA0 || n == 0x1680 || (0x2000 ≤ n && n ≤ 0x200A) || n == 0x2028 ||
    n == 0x2029 || n == 0x202F || n == 0x205F || n == 0x3000

/-- A letter from `a` to `z`, of either case. -/
def isAsciiLetter (c : Char) : Bool :=
  ('a' ≤ c && c ≤ 'z') || ('A' ≤ c && c ≤ 'Z')

/-- A letter from `A` to `Z`. -/
def isAsciiUpper (c : Char) : Bool :=
  'A' ≤ c && c ≤ 'Z'

/-- The first character of an identifier. -/
def isIdentStart (c : Char) : Bool :=
  isAsciiLetter c || c == '_'

/-- A character of a word : alphanumeric, or an underscore. -/
def isWordChar (c : Char) : Bool :=
  let n := c.toNat
  if n < 0x80 then isAsciiLetter c || ('0' ≤ c && c ≤ '9') || c == '_'
  else countAtMost alphanumericChanges n % 2 == 1

/-- The value of a decimal digit of any script. -/
def digitValue? (c : Char) : Option Nat :=
  let n := c.toNat
  match decimalZeros[countAtMost decimalZeros n - 1]? with
  | some first => if first ≤ n && n < first + 10 then some (n - first) else none
  | none => none

/-- A decimal digit of any script. -/
def isDecimalDigit (c : Char) : Bool :=
  (digitValue? c).isSome

/-- A character that a quoted text shows as it is. -/
def isPrintable (c : Char) : Bool :=
  let n := c.toNat
  if n < 0x80 then 0x20 ≤ n && n < 0x7F else countAtMost printableChanges n % 2 == 1

/-- The character that stands for `c` where case does not count : the lower-case letter
of an ASCII letter, and of the four other characters that pair with one (the long s, the
Kelvin sign, the dotted capital and the dotless small i). -/
def foldCase (c : Char) : Char :=
  if isAsciiUpper c then Char.ofNat (c.toNat + 32)
  else match c.toNat with
    | 0x17F => 's'
    | 0x212A => 'k'
    | 0x130 => 'i'
    | 0x131 => 'i'
    | _ => c

/-- A condition on the characters of a list is decided along the list, rather than for every
character there is. -/
instance (priority := 2000) decidableForallMem (p : Char → Prop) [DecidablePred p]
    (cs : List Char) : Decidable (∀ c, c ∈ cs → p c) :=
  List.decidableBAll p cs

end ContractAudit
