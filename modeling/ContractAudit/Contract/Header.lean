import ContractAudit.Contract.Declaration

/-!
# Headers

`parseHeader` reads the header of a member : its name, its parameters, and the words
behind them, which give visibility, mutability and modifiers.
-/

namespace ContractAudit

open Pattern

namespace BlockKind

/-- The kind of member that a keyword opens. -/
def ofKeyword? : String → Option BlockKind
  | "function" => some function
  | "modifier" => some modifier
  | "constructor" => some constructor
  | "fallback" => some fallback
  | "receive" => some receive
  | _ => none

/-- Members of this kind go by their keyword. -/
def isNamedByKeyword : BlockKind → Bool
  | constructor | fallback | receive => true
  | function | modifier => false

end BlockKind

/-- The visibility a word of a header stands for. -/
def Visibility.ofKeyword? : String → Option Visibility
  | "public" => some everyone
  | "external" => some outside
  | "internal" => some family
  | "private" => some self
  | _ => none

/-- The mutability a word of a header stands for; `constant` is the older word for `view`. -/
def Mutability.ofKeyword? : String → Option Mutability
  | "view" => some view
  | "constant" => some view
  | "pure" => some pure
  | "payable" => some payable
  | "nonpayable" => some nonpayable
  | _ => none

/-- Words of a header that are no modifier. -/
def headerWords : List String :=
  ["virtual", "override", "returns"]

/-- The text of a group and what comes behind it, from behind its opening bracket on at
the given depth, after the text `inner` (kept reversed). -/
def groupFrom (inner : List Char) (depth : Nat) : List Char → Option (List Char × List Char)
  | [] => none
  | '(' :: cs => groupFrom ('(' :: inner) (depth + 1) cs
  | ')' :: cs => if depth == 1 then some (inner.reverse, cs) else
      groupFrom (')' :: inner) (depth - 1) cs
  | c :: cs => groupFrom (c :: inner) depth cs

/-- The text of the group in round brackets that comes first, blanks aside, and what comes
behind it. -/
def leadingGroup? (text : List Char) : Option (List Char × List Char) :=
  match trimLeft text with
  | '(' :: cs => groupFrom [] 1 cs
  | _ => none

/-- A header with one more of the words behind the parameters : the last visibility
counts, and a modifier is listed once. -/
def Header.addWord (h : Header) (w : String) : Header :=
  match Visibility.ofKeyword? w with
  | some v => { h with visibility := some v }
  | none =>
    match Mutability.ofKeyword? w with
    | some m => { h with mutability := h.mutability ++ [m] }
    | none =>
      if headerWords.contains w || h.modifiers.contains w then h
      else { h with modifiers := h.modifiers ++ [w] }

/-- The words of a header outside its groups. -/
def attributeWords (text : List Char) : List String :=
  (dotted.allIn (stripGroups text)).map fun h => String.ofList h.text

/-- The name at the start of the text and what comes behind it. -/
def leadingName? (text : List Char) : Option (String × List Char) :=
  ((blanks1 ++ named "name" ident).startOf? text).map fun h =>
    (String.ofList (h.part "name"), h.stop.rest)

/-- The header of a member of the given kind, from the text behind its keyword. A function
without a name is the fallback function. -/
def parseHeader (kind : BlockKind) (text : List Char) : Header :=
  let (kind, name, rest) :=
    if kind.isNamedByKeyword then (kind, kind.label, text)
    else
      match leadingName? text with
      | some (name, rest) => (kind, name, rest)
      | none => (if kind == .function then .fallback else kind, "", text)
  let (params, rest) :=
    match leadingGroup? rest with
    | some (inner, rest) => (parseParams inner, rest)
    | none => ([], rest)
  (attributeWords rest).foldl Header.addWord ⟨kind, name, params, none, [], []⟩

end ContractAudit
