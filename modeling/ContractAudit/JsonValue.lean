import ContractAudit.Text.Integer
import ContractAudit.Text.Quoted

/-!
# JSON

`JsonValue` is a JSON value whose numbers are integers and whose objects keep the order of
their fields. `JsonValue.text` is its text in ASCII, one item a line; `JsonValue.write` gives
that text if every number in the value can be written.
-/

namespace ContractAudit

/-- A value of a JSON document. Its numbers are integers, and its fields keep their order. -/
inductive JsonValue where
  | null
  | bool (b : Bool)
  | num (n : Int)
  | str (s : String)
  | arr (items : List JsonValue)
  | obj (fields : List (String × JsonValue))
  deriving Repr

namespace JsonValue

/-- A text that may be absent, in which case it is written as `null`. -/
def ofOption (s : Option String) : JsonValue :=
  match s with
  | some s => str s
  | none => null

/-- An array of texts. -/
def ofStrings (ss : List String) : JsonValue :=
  arr (ss.map str)

/-! ## Strings -/

/-- One unit of UTF-16 by its number. -/
def unitEscape (n : Nat) : List Char :=
  '\\' :: 'u' :: hex 4 n

/-- How a character stands in a string : ASCII only, and two units above U+FFFF. -/
def escaped (c : Char) : List Char :=
  if c == '"' then ['\\', '"']
  else if c == '\\' then ['\\', '\\']
  else if c == '\n' then ['\\', 'n']
  else if c == '\r' then ['\\', 'r']
  else if c == '\t' then ['\\', 't']
  else if c == '\x08' then ['\\', 'b']
  else if c == '\x0c' then ['\\', 'f']
  else if ' ' ≤ c ∧ c ≤ '~' then [c]
  else
    let n := c.toNat
    if n < 0x10000 then unitEscape n
    else
      let above := n - 0x10000
      unitEscape (0xD800 + above / 0x400) ++ unitEscape (0xDC00 + above % 0x400)

/-- A string with its quotes, each character escaped as needed. -/
def writeString (s : String) : List Char :=
  '"' :: s.toList.flatMap escaped ++ ['"']

/-! ## Values -/

/-- The start of a line at the given depth. -/
def newLine (indent depth : Nat) : List Char :=
  '\n' :: List.replicate (indent * depth) ' '

/-- The written items of an array or an object, between its brackets. -/
def writeGroup (indent depth : Nat) (opening closing : Char) (items : List (List Char)) :
    List Char :=
  if items.isEmpty then [opening, closing]
  else
    opening :: newLine indent (depth + 1) ++
      (',' :: newLine indent (depth + 1)).intercalate items ++
      newLine indent depth ++ [closing]

mutual

/-- A value at the given depth, each depth being indented by `indent` blanks more. -/
def writeAt (indent depth : Nat) : JsonValue → List Char
  | null => "null".toList
  | bool b => if b then "true".toList else "false".toList
  | num n => (toString n).toList
  | str s => writeString s
  | arr items => writeGroup indent depth '[' ']' (writeItems indent (depth + 1) items)
  | obj fields => writeGroup indent depth '{' '}' (writeFields indent (depth + 1) fields)

/-- The items of an array, each written at the given depth. -/
def writeItems (indent depth : Nat) : List JsonValue → List (List Char)
  | [] => []
  | item :: later => writeAt indent depth item :: writeItems indent depth later

/-- The fields of an object, each with its name in front of the value. -/
def writeFields (indent depth : Nat) : List (String × JsonValue) → List (List Char)
  | [] => []
  | (name, value) :: later =>
    (writeString name ++ ": ".toList ++ writeAt indent depth value) ::
      writeFields indent depth later

end

/-- The text of a value. -/
def text (indent : Nat) (v : JsonValue) : String :=
  String.ofList (writeAt indent 0 v)

/-! ## Numbers -/

mutual

/-- Can every number in a value be written? -/
def fits : JsonValue → Bool
  | num n => isWritable n
  | arr items => itemsFit items
  | obj fields => fieldsFit fields
  | null | bool _ | str _ => true

/-- Every item fits. -/
def itemsFit : List JsonValue → Bool
  | [] => true
  | item :: later => item.fits && itemsFit later

/-- Every value fits; names are texts and always do. -/
def fieldsFit : List (String × JsonValue) → Bool
  | [] => true
  | (_, value) :: later => value.fits && fieldsFit later

end

/-- The text of a value, unless a number in it is too long. -/
def write (indent : Nat) (v : JsonValue) : Except DigitFault String :=
  if v.fits then pure (v.text indent) else throw .unwritten

end JsonValue

end ContractAudit
