import ContractAudit.Contract.Body
import ContractAudit.Contract.Header
import ContractAudit.Source.Basic

/-!
# The outline of a source

`Source.outline` finds the contracts and their members in one pass over the neutral text.
A member is looked up to `headerLimit` characters ahead for its body. A member whose body
is missing or not closed, or in whose body another declaration begins, is kept with its
fault, and the search goes on inside it.
-/

namespace ContractAudit

open Pattern

/-! ## Patterns of declarations -/

/-- The words a contract is declared with. -/
def contractWord : Pattern :=
  oneOf [maybe ("abstract" ++ blanks1) ++ "contract", "interface", "library"]

/-- The words a block of code is declared with. -/
def memberWord : Pattern :=
  oneOf ["function", "modifier", "constructor", "fallback", "receive"]

/-- A contract with its name, or the keyword of a member. -/
def declaration : Pattern :=
  edge ++ oneOf [named "contract" contractWord ++ blanks1 ++ named "name" ident,
    named "member" memberWord ++ edge]

/-- A declaration that cannot stand inside the body of a member. -/
def nestedDeclaration : Pattern :=
  oneOf [edge ++ "function" ++ blanks1 ++ ident ++ blanks ++ "(",
    edge ++ "modifier" ++ blanks1 ++ ident,
    edge ++ "constructor" ++ blanks ++ "(",
    edge ++ oneOf ["contract", "interface", "library"] ++ blanks1 ++ ident ++ blanks ++
      oneOf ["is" ++ edge, "\x7b"]]

/-- A declaration of a struct, an enum or a value type : a type that is no contract. -/
def valueTypeDeclaration : Pattern :=
  oneOf [edge ++ oneOf ["struct", "enum"] ++ blanks1 ++ named "name" ident,
    edge ++ "type" ++ blanks1 ++ named "name" ident ++ blanks1 ++ "is" ++ edge]

/-- The names of the structs, enums and value types declared anywhere in a text. -/
def valueTypes (text : List Char) : List String :=
  (valueTypeDeclaration.allIn text).map fun h => String.ofList (h.part "name")

/-! ## Headers -/

/-- How far ahead the body of a declaration is looked for. -/
def headerLimit : Nat := 4096

/-- The first brace or semicolon from `c` on that is not in round brackets, before the
offset `limit`. -/
def bodyMarkFrom? (parens : Pairs) (limit : Nat) : Nat → Cursor → Option (Cursor × Char)
  | 0, _ => none
  | fuel + 1, c =>
    if c.offset < limit then
      match c.peek with
      | none => none
      | some '(' =>
        match parens.close? c.offset with
        | some close =>
          if close < limit then bodyMarkFrom? parens limit fuel (c.advanceTo (close + 1)) else none
        | none => none
      | some a =>
        if a == '{' || a == ';' || a == '}' then some (c, a)
        else bodyMarkFrom? parens limit fuel (c.advance 1)
    else none

/-- The brace or semicolon that ends a header. -/
def bodyMark? (parens : Pairs) (c : Cursor) : Option (Cursor × Char) :=
  bodyMarkFrom? parens (c.offset + headerLimit) headerLimit c

/-- The bases in the header of a contract : what follows the word `is`, without the
arguments. -/
def parseBases (header : List Char) : List String :=
  match (edge ++ "is" ++ edge).findIn? header with
  | some h => (trimmedPieces (splitAt (· == ',') (stripGroups h.stop.rest))).map String.ofList
  | none => []

/-- The kind of contract that a keyword opens. -/
def ContractKind.ofKeyword (text : List Char) : ContractKind :=
  match text.head? with
  | some 'a' => abstractContract
  | some 'i' => interface
  | some 'l' => library
  | _ => contract

/-! ## The pass over the source -/

/-- What has been found so far. -/
structure Draft where
  /-- The contracts, the latest first. -/
  contracts : List Contract
  /-- The contracts that may still be open, the innermost first. -/
  around : List Contract
  /-- The members, the latest first. -/
  blocks : List Block
  deriving DecidableEq, Repr

namespace Draft

/-- The open contracts at an offset, the innermost first : those on top that ended before
it are dropped. -/
def openAt (offset : Nat) : List Contract → List Contract
  | [] => []
  | c :: cs => if c.stop ≤ offset then openAt offset cs else c :: cs

/-- A contract whose name has been read : where the search goes on, and what is known
then. A declaration without a body is none. -/
def addContract (env : Surroundings) (length : Nat) (hit : Hit) (d : Draft) : Draft × Cursor :=
  match bodyMark? env.parens hit.stop with
  | some (brace, '{') =>
    let close := env.braces.close? brace.offset
    let inside := brace.advance 1
    let contract : Contract :=
      { name := String.ofList (hit.part "name")
        kind := .ofKeyword (hit.part "contract")
        start := hit.start.offset
        stop := match close with
          | some k => k + 1
          | none => length
        bases := parseBases (hit.stop.textTo brace)
        stateVars := stateVariables env.braces inside (close.getD length)
        unparsable := close.isNone }
    ({ d with contracts := contract :: d.contracts, around := contract :: d.around }, inside)
  | _ => (d, hit.stop)

/-- A function with the name of its contract is its constructor. -/
def asMember (contract : Option Contract) (h : Header) : Header :=
  match contract with
  | some c => if h.kind == .function && h.name == c.name then { h with kind := .constructor } else h
  | none => h

/-- The end of a header without a body : the next declaration, or the limit. -/
def bareHeaderEnd (length : Nat) (hit : Hit) : Nat :=
  let limit := min length (hit.start.offset + headerLimit)
  let window : Cursor := { hit.stop with rest := hit.stop.rest.take (limit - hit.stop.offset) }
  match declaration.find? window with
  | some following => following.start.offset
  | none => limit

/-- A member whose keyword has been read : where the search goes on, and what is known
then. A declaration that ends with a semicolon is none. -/
def addMember (env : Surroundings) (length : Nat) (kind : BlockKind) (hit : Hit) (d : Draft) :
    Draft × Cursor :=
  let around := openAt hit.start.offset d.around
  let contract := around.head?
  let d := { d with around := around }
  let mark := bodyMark? env.parens hit.stop
  if mark.any (·.2 == ';') then
    (d, match mark with
      | some (c, _) => c.advance 1
      | none => hit.stop)
  else
    let headerEnd := match mark with
      | some (c, _) => c.offset
      | none => bareHeaderEnd length hit
    let header := asMember contract
      (parseHeader kind (hit.stop.rest.take (headerEnd - hit.stop.offset)))
    let faulty (fault : Fault) (stop : Nat) (body : Option (Nat × Nat)) : Draft :=
      { d with blocks :=
        { header with
          start := hit.start.offset, stop := stop, contract := contract, body := body,
          statements := [], fault := some fault } :: d.blocks }
    match mark with
    | some (brace, '{') =>
      let inside := brace.advance 1
      let close := env.braces.close? brace.offset
      let nested := nestedDeclaration.findBefore? (close.getD length - inside.offset) inside
      match close, nested with
      | some close, none =>
        let scope := Scope.initial env.valueTypes
          (match contract with
            | some c => c.stateVars
            | none => []) header.params
        ({ d with blocks :=
            { header with
              start := hit.start.offset, stop := close + 1, contract := contract,
              body := some (inside.offset, close),
              statements := Body.statements env scope inside close, fault := none } :: d.blocks },
          brace.advanceTo (close + 1))
      | _, nested =>
        let stop := match nested with
          | some h => h.start.offset
          | none => length
        (faulty .unbalancedBraces stop (some (inside.offset, stop)), inside)
    | _ => (faulty .missingBody headerEnd none, hit.stop)

/-- Fallback and receive functions are told from other uses of the words by the bracket
that follows at most this far behind. -/
def bracketLimit : Nat := 64

/-- One declaration : where the search goes on, and what is known then. -/
def add (env : Surroundings) (length : Nat) (hit : Hit) (d : Draft) : Draft × Cursor :=
  if (hit.part? "contract").isSome then d.addContract env length hit
  else
    match BlockKind.ofKeyword? (String.ofList (hit.part "member")) with
    | none => (d, hit.stop)
    | some kind =>
      if (kind == .fallback || kind == .receive) &&
          !(blanks ++ "(").starts (hit.stop.rest.take bracketLimit) then (d, hit.stop)
      else d.addMember env length kind hit

/-- Adds the declarations from `c` on. Every round moves on by a character, so `fuel` need
not exceed their number. -/
def addAll (env : Surroundings) (length : Nat) : Nat → Draft → Cursor → Draft
  | 0, d, _ => d
  | fuel + 1, d, c =>
    match declaration.find? c with
    | some hit =>
      let (d, c) := d.add env length hit
      addAll env length fuel d c
    | none => d

end Draft

/-- The outline of a neutral text. -/
def Outline.of (text : List Char) : Outline :=
  let env : Surroundings := ⟨Pairs.braces text, Pairs.parens text, ContractAudit.valueTypes text⟩
  let length := text.length
  let d := Draft.addAll env length length ⟨[], [], []⟩ (Cursor.start text)
  ⟨d.contracts.reverse, d.blocks.reverse⟩

/-- The contracts and members of a source. -/
def Source.outline (s : Source) : Outline :=
  Outline.of s.text.toList

end ContractAudit
