/-!
# UTF-8

`decodeUtf8` reads bytes as UTF-8, one byte at a time : between characters a byte is a
character or starts one (`Lead.of?`), and inside of one the next byte has to lie in a range.
`decodeFile` does so for the bytes of a file, without the mark that may stand at its start.
-/

namespace ContractAudit

/-- What is wrong with bytes that are no UTF-8. -/
inductive Utf8Fault where
  | badStart
  | badContinuation
  | truncated
  deriving DecidableEq, Repr

/-- The fault in a message. -/
def Utf8Fault.reason : Utf8Fault → String
  | badStart => "invalid start byte"
  | badContinuation => "invalid continuation byte"
  | truncated => "unexpected end of data"

/-- A fault, and where the faulty sequence starts. -/
structure Utf8Error where
  fault : Utf8Fault
  offset : Nat
  deriving DecidableEq, Repr

/-- A character of which some bytes are still to come. -/
structure Lead where
  /-- What the bytes so far say. -/
  value : Nat
  /-- The least next byte. -/
  low : Nat
  /-- The greatest next byte. -/
  high : Nat
  /-- How many bytes are to come. -/
  missing : Nat
  deriving DecidableEq, Repr

/-- The character that a byte starts. Forms that are longer than needed, surrogates and what
lies above the last character are ruled out by the range of the second byte. -/
def Lead.of? (b : Nat) : Option Lead :=
  if b < 0xC2 then none
  else if b < 0xE0 then some ⟨b - 0xC0, 0x80, 0xBF, 1⟩
  else if b < 0xF0 then
    some ⟨b - 0xE0, if b == 0xE0 then 0xA0 else 0x80, if b == 0xED then 0x9F else 0xBF, 2⟩
  else if b < 0xF5 then
    some ⟨b - 0xF0, if b == 0xF0 then 0x90 else 0x80, if b == 0xF4 then 0x8F else 0xBF, 3⟩
  else none

/-- Decodes the bytes from `offset` on, behind the characters already `found` (kept
reversed) : `lead` is the character under way, with the offset it starts at. -/
def decodeFrom (offset : Nat) (lead : Option (Nat × Lead)) (found : List Char) :
    List UInt8 → Except Utf8Error (List Char)
  | [] =>
    match lead with
    | none => .ok found.reverse
    | some (start, _) => .error ⟨.truncated, start⟩
  | byte :: later =>
    let b := byte.toNat
    match lead with
    | none =>
      if b < 0x80 then decodeFrom (offset + 1) none (Char.ofNat b :: found) later
      else
        match Lead.of? b with
        | some l => decodeFrom (offset + 1) (some (offset, l)) found later
        | none => .error ⟨.badStart, offset⟩
    | some (start, l) =>
      if l.low ≤ b && b ≤ l.high then
        let value := 64 * l.value + (b - 0x80)
        if l.missing ≤ 1 then decodeFrom (offset + 1) none (Char.ofNat value :: found) later
        else decodeFrom (offset + 1) (some (start, ⟨value, 0x80, 0xBF, l.missing - 1⟩)) found later
      else .error ⟨.badContinuation, start⟩

/-- The text that bytes stand for. -/
def decodeUtf8 (bytes : List UInt8) : Except Utf8Error (List Char) :=
  decodeFrom 0 none [] bytes

/-- The mark that may stand before a text. -/
def byteOrderMark : List UInt8 :=
  [0xEF, 0xBB, 0xBF]

/-- The text of a file : behind one mark, if it starts with one, and empty if it is only the
start of one. -/
def decodeFile (bytes : List UInt8) : Except Utf8Error (List Char) :=
  if byteOrderMark.isPrefixOf bytes then decodeUtf8 (bytes.drop 3)
  else if bytes.isPrefixOf byteOrderMark then .ok []
  else decodeUtf8 bytes

end ContractAudit
