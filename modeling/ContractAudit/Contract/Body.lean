import ContractAudit.Contract.Scope

/-!
# Bodies

`Body.statements` splits the body of a member into its statements. Headers of `if`, `for`
and `while` are statements of their own, braces and the words `else` and `do` belong to
none, and an `assembly` block is one statement. The depth of a statement is the number of
loops around it : loop headers wait in `pending` until their body starts, and a brace
takes them over until it is closed.
-/

namespace ContractAudit

open Pattern

/-- What the splitting of bodies knows of the source : its brackets and its value types. -/
structure Surroundings where
  braces : Pairs
  parens : Pairs
  valueTypes : List String
  deriving DecidableEq, Repr

/-- Where the splitting of a body stands. -/
structure Splitting where
  scope : Scope
  /-- For each open brace, the loops whose body it is, the innermost brace first. -/
  frames : List Nat
  /-- The loops whose body is a brace that is open here. -/
  depth : Nat
  /-- The loop headers whose body has not started. -/
  pending : Nat
  /-- The statements found, the latest first. -/
  found : List Statement
  deriving DecidableEq, Repr

namespace Body

/-- A word that opens a branch or a loop. -/
def controlWord : Pattern :=
  named "word" (oneOf ["if", "for", "while", "else", "do"]) ++ edge

/-- The start of the options of a call : a brace and the name of an option. -/
def callOptions : Pattern :=
  "\x7b" ++ blanks ++ oneOf ["value", "gas", "salt"] ++ blanks ++ ":"

/-- The word in front of a block of assembly. -/
def assemblyWord : Pattern :=
  "assembly" ++ edge

/-- A call in assembly. -/
def assemblyCall : Pattern :=
  edge ++ oneOf ["call", "delegatecall", "staticcall", "callcode"] ++ blanks ++ "("

/-- A write to the storage in assembly. -/
def assemblyWrite : Pattern :=
  edge ++ "sstore" ++ blanks ++ "("

/-- The place where a statement ends, and the character that ends it : a semicolon or a
brace, not counting those in round brackets or in call options, or nothing if the body
ends first. -/
def statementEnd (env : Surroundings) (stop : Nat) : Nat → Cursor → Cursor × Option Char
  | 0, c => (c, none)
  | fuel + 1, c =>
    /- Behind the bracket that closes the one here, if there is one in the body. -/
    let behind (close : Option Nat) : Option Cursor :=
      match close with
      | some k => if k < stop then some (c.advanceTo (k + 1)) else none
      | none => none
    if c.offset < stop then
      match c.peek with
      | none => (c, none)
      | some ';' => (c, some ';')
      | some '}' => (c, some '}')
      | some '(' =>
        match behind (env.parens.close? c.offset) with
        | some d => statementEnd env stop fuel d
        | none => (c.advanceTo stop, none)
      | some '{' =>
        if (callOptions.at? c).isSome then
          match behind (env.braces.close? c.offset) with
          | some d => statementEnd env stop fuel d
          | none => (c.advanceTo stop, none)
        else (c, some '{')
      | some _ => statementEnd env stop fuel (c.advance 1)
    else (c, none)

/-- The statement between two places, without the blanks at its end. -/
def statement (kind : StatementKind) (c d : Cursor) (depth : Nat) (target : Option String) :
    Statement :=
  let text := trimRight (c.textTo d)
  ⟨kind, c.offset, c.offset + text.length, String.ofList text, depth, target⟩

/-- What the header of a `for` declares : the first part between its brackets. -/
def loopStart (header : List Char) : List Char :=
  match header.dropWhile (· != '(') with
  | [] => []
  | _ :: inside => trim (inside.takeWhile (· != ';'))

/-- The end of the header whose word has been matched : behind the group that follows the
word, if there is one in the body. -/
def headerEnd (env : Surroundings) (stop : Nat) (hit : Hit) : Cursor :=
  let group := hit.stop.skipBlanks
  if group.offset < stop && group.peek == some '(' then
    match env.parens.close? group.offset with
    | some close => if close < stop then hit.stop.advanceTo (close + 1) else hit.stop
    | none => hit.stop
  else hit.stop

namespace Step

/-- An `if`, `for` or `while` with its condition. -/
def header (env : Surroundings) (stop : Nat) (hit : Hit) (s : Splitting) : Splitting × Cursor :=
  let behind := headerEnd env stop hit
  let isFor := hit.part "word" == "for".toList
  let isLoop := isFor || hit.part "word" == "while".toList
  let text := hit.start.textTo behind
  ({ s with
      scope := if isFor then s.scope.record (loopStart text) else s.scope
      pending := if isLoop then s.pending + 1 else s.pending
      found := statement .controlFlow hit.start behind (s.depth + s.pending) none :: s.found },
    behind)

/-- An `assembly` block that starts at `c` and whose brace is at `brace`. -/
def assembly (env : Surroundings) (stop : Nat) (c brace : Cursor) (s : Splitting) :
    Splitting × Cursor :=
  let close := match env.braces.close? brace.offset with
    | some k => if k < stop then k else stop - 1
    | none => stop - 1
  let behind := brace.advanceTo (close + 1)
  let code := brace.textTo behind
  let kind := if assemblyCall.occursIn code then .externalCall
    else if assemblyWrite.occursIn code then .stateWrite
    else .other
  ({ s with
      pending := 0
      found := statement kind c behind (s.depth + s.pending) none :: s.found },
    behind)

/-- Any other statement, from `c` to `d`. -/
def plain (c d : Cursor) (s : Splitting) : Splitting :=
  let (kind, target, scope) := s.scope.classify (trimRight (c.textTo d))
  { s with
    scope := scope
    found := statement kind c d (s.depth + s.pending) target :: s.found }

end Step

/-- Splits the rest of a body, which ends at the offset `stop`. Every round moves on by a
character, so `fuel` need not exceed their number. -/
def split (env : Surroundings) (stop : Nat) : Nat → Splitting → Cursor → Splitting
  | 0, s, _ => s
  | fuel + 1, s, c =>
    let c := c.skipBlanks
    if c.offset < stop then
      match c.peek with
      | none => s
      | some '{' =>
        split env stop fuel
          { s with frames := s.pending :: s.frames, depth := s.depth + s.pending, pending := 0 }
          (c.advance 1)
      | some '}' =>
        let s := match s.frames with
          | [] => s
          | loops :: frames => { s with frames := frames, depth := s.depth - loops }
        split env stop fuel s (c.advance 1)
      | some ';' => split env stop fuel { s with pending := 0 } (c.advance 1)
      | some _ =>
        match controlWord.at? c with
        | some hit =>
          if hit.part "word" == "else".toList then split env stop fuel s hit.stop
          else if hit.part "word" == "do".toList then
            split env stop fuel { s with pending := s.pending + 1 } hit.stop
          else
            let (s, d) := Step.header env stop hit s
            split env stop fuel s d
        | none =>
          let (d, ending) := statementEnd env stop (stop - c.offset) c
          if ending == some '{' && (assemblyWord.at? c).isSome then
            let (s, d) := Step.assembly env stop c d s
            split env stop fuel s d
          else
            let s := Step.plain c d s
            match ending with
            | some ';' => split env stop fuel { s with pending := 0 } (d.advance 1)
            | some '}' => split env stop fuel { s with pending := 0 } d
            | some _ => split env stop fuel s d
            | none => s
    else s

/-- The statements of the body that starts at `c` and ends at the offset `stop`. -/
def statements (env : Surroundings) (scope : Scope) (c : Cursor) (stop : Nat) : List Statement :=
  (split env stop (stop - c.offset) ⟨scope, [], 0, 0, []⟩ c).found.reverse

end Body

end ContractAudit
