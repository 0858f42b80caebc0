import ContractAudit.Rule.Basic

/-!
# Arguments of calls

`callArguments` splits the argument list of a call at the commas that belong to it. The
brackets of the text are paired beforehand; a nested call is passed over as a whole.
-/

namespace ContractAudit

open Pattern

/-- The arguments from the place `c` on, up to the offset `close`, the argument at `c` having
begun at `arg`, behind those already `found` (kept reversed). Commas in square brackets do
not count. -/
def argumentsFrom (parens : Pairs) (close : Nat) (found : List (List Char)) (arg : Cursor)
    (squares : Int) : Nat → Cursor → Except DetectorFault (List (List Char))
  | 0, _ => pure ((arg.rest.take (close - arg.offset) :: found).reverse)
  | fuel + 1, c =>
    if c.offset < close then
      match c.peek with
      | none => pure ((arg.rest.take (close - arg.offset) :: found).reverse)
      | some '(' =>
        match parens.close? c.offset with
        | some k => argumentsFrom parens close found arg squares fuel (c.advanceTo (k + 1))
        | none => throw (.unpaired c.offset)
      | some '[' => argumentsFrom parens close found arg (squares + 1) fuel (c.advance 1)
      | some ']' => argumentsFrom parens close found arg (squares - 1) fuel (c.advance 1)
      | some ',' =>
        let next := c.advance 1
        if squares ≤ 0 then
          argumentsFrom parens close (arg.textTo c :: found) next squares fuel next
        else argumentsFrom parens close found arg squares fuel next
      | some _ => argumentsFrom parens close found arg squares fuel (c.advance 1)
    else pure ((arg.rest.take (close - arg.offset) :: found).reverse)

/-- The arguments, trimmed and without empty ones, of the call whose opening bracket stands
just before the place; none if that bracket is not closed. -/
def callArguments (parens : Pairs) (first : Cursor) :
    Except DetectorFault (Option (List (List Char))) :=
  match parens.close? (first.offset - 1) with
  | none => pure none
  | some close => do
    let args ← argumentsFrom parens close [] first 0 (close - first.offset + 1) first
    return some (trimmedPieces args)

/-- The arguments of the call whose opening bracket has the given offset in a text. -/
def argumentsIn (text : List Char) (opening : Nat) :
    Except DetectorFault (Option (List (List Char))) :=
  callArguments (Pairs.parens text) ((Cursor.start text).advance (opening + 1))

/-- Is there a call `.transfer(x)` or `.send(x)` with one argument, which passes on a fixed
amount of gas? -/
def isFixedGasSend (text : List Char) : Except DetectorFault Bool :=
  let parens := Pairs.parens text
  (Scope.etherSend.allIn text).anyM fun h => do
    let args ← callArguments parens h.stop
    return args.any (·.length == 1)

end ContractAudit
