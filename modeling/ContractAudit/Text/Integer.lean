import ContractAudit.Text.Trim

/-!
# Integers as texts

`readInteger?` reads an integer : blanks around it, a sign, and decimal digits of any script
that single underscores may divide. A number of more than `digitLimit` digits is neither read
(`readNumber`) nor written (`isWritable`), and an index is a number that fits into 64 bits.
-/

namespace ContractAudit

/-- The value of decimal digits. -/
def decimalValue (digits : List Char) : Nat :=
  digits.foldl (fun n c => 10 * n + (digitValue? c).getD 0) 0

/-- A blank that may stand around a number : the four separators of ASCII may not. -/
def isNumberBlank (c : Char) : Bool :=
  isBlank c && !(0x1C ≤ c.toNat && c.toNat ≤ 0x1F)

/-! ## Long numbers -/

/-- The most digits of a number that is read or written. -/
def digitLimit : Nat := 4300

/-- Why a number has no text, or a text no number : there are too many digits. -/
inductive DigitFault where
  /-- A text with that many digits is not read. -/
  | unread (digits : Nat)
  /-- A number is not written. -/
  | unwritten
  deriving DecidableEq, Repr

/-- What the one who reads or writes the number is told. -/
def DigitFault.message : DigitFault → String
  | unread digits =>
    s!"Exceeds the limit ({digitLimit} digits) for integer string conversion: " ++
      s!"value has {digits} digits; use sys.set_int_max_str_digits() to increase the limit"
  | unwritten =>
    s!"Exceeds the limit ({digitLimit} digits) for integer string conversion; " ++
      "use sys.set_int_max_str_digits() to increase the limit"

/-- The number that decimal digits stand for, unless there are too many; zeros in front count. -/
def readNumber (digits : List Char) : Except DigitFault Nat :=
  if digitLimit < digits.length then throw (.unread digits.length) else pure (decimalValue digits)

/-- The least number that has too many digits. -/
def writtenBound : Nat :=
  Nat.pow 10 digitLimit

/-- Has a number few enough digits to be written? The sign does not count. -/
def isWritable (n : Int) : Bool :=
  n.natAbs < writtenBound

/-! ## Indices -/

/-- Does a number fit into an index, which has 64 bits and a sign? -/
def isIndex (n : Int) : Bool :=
  -9223372036854775808 ≤ n && n ≤ 9223372036854775807

/-- What is said of a number that does not. -/
def noIndexMessage : String :=
  "cannot fit 'int' into an index-sized integer"

/-! ## Reading -/

/-- Digits in groups that single underscores divide. -/
def readDigits? (cs : List Char) : Option Nat :=
  let groups := splitAt (· == '_') cs
  let digits := groups.flatten
  if groups.all fun g => !g.isEmpty && g.all isDecimalDigit then (readNumber digits).toOption
  else none

/-- The integer a text stands for. -/
def readInteger? (s : String) : Option Int :=
  let bare := (((s.toList.dropWhile isNumberBlank).reverse).dropWhile isNumberBlank).reverse
  match bare with
  | '-' :: digits => (readDigits? digits).map fun n => -(n : Int)
  | '+' :: digits => (readDigits? digits).map fun n => (n : Int)
  | digits => (readDigits? digits).map fun n => (n : Int)

end ContractAudit
