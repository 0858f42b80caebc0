import ContractAudit.Proofs.Written.Basic

/-!
# Written bodies with branches and loops

A body is a sequence of statements (`Written.Sequence`) : simple statements, blocks, branches and
loops. A loop may have a simple statement, a block or another loop for its body (`Written.Part`), a
branch may go on with `else` (`Written.Alternative`). Statements and headers are what is told of a
body : `Sequence.marks` lists them with the number of loops around each.

A body is written as a row of symbols (`Sequence.symbols`), with any blanks between them
(`Written.Spelled`). What the symbols do to open loops (`Loops.step`) is followed here over the
trees : each part of a body leaves the loops as it finds them, and in it every statement and header
stands at its own depth (`Sequence.runs`).
-/

namespace ContractAudit

namespace Written

/-! ## Statements and headers -/

/-- A statement without a semicolon and braces that is trimmed and whose brackets are balanced. It
does not start with a control word. -/
def isPlain (cs : List Char) : Bool :=
  !cs.isEmpty && trim cs == cs && level '(' ')' 0 cs == some 0 &&
    cs.all (fun a => !(['{', '}', ';'].contains a)) && !controlWords.any (startsWithWord cs)

/-- The text of a plain statement. -/
structure Plain where
  chars : List Char
  isPlain_chars : isPlain chars
  deriving DecidableEq

/-- What stands in the brackets behind a control word. -/
structure Condition where
  chars : List Char
  balanced : level '(' ')' 0 chars = some 0
  deriving DecidableEq

/-- The words that open a loop. -/
inductive LoopWord where
  | forWord
  | whileWord
  deriving DecidableEq

/-- The word as it is written. -/
def LoopWord.text : LoopWord → String
  | forWord => "for"
  | whileWord => "while"

/-- A control word with its condition. -/
inductive ControlHeader where
  | branch (condition : Condition)
  | loop (word : LoopWord) (condition : Condition)
  deriving DecidableEq

namespace ControlHeader

/-- The word the header starts with. -/
def word : ControlHeader → String
  | branch _ => "if"
  | loop w _ => w.text

/-- What stands in the parentheses of the header. -/
def condition : ControlHeader → Condition
  | branch c | loop _ c => c

/-- The header is that of a loop. -/
def isLoop : ControlHeader → Bool
  | branch _ => false
  | loop _ _ => true

end ControlHeader

/-- What a statement of an outline stands for. -/
inductive Item where
  | plain (s : Plain)
  | header (h : ControlHeader)
  deriving DecidableEq

/-- An item with the number of loops whose body it is in. -/
structure Mark where
  item : Item
  depth : Nat
  deriving DecidableEq

/-! ## Trees -/

mutual

/-- A statement that can be the body of a loop without further braces. -/
inductive Part where
  | plain (s : Plain)
  | block (inside : Sequence)
  /-- A `for` or `while` loop. -/
  | loop (word : LoopWord) (condition : Condition) (body : Part)

/-- What follows the block of a branch. -/
inductive Alternative where
  | nothing
  | block (inside : Sequence)
  | branch (condition : Condition) (inside : Sequence) (other : Alternative)

/-- Statements one behind the other. -/
inductive Sequence where
  | done
  | part (p : Part) (rest : Sequence)
  | branch (condition : Condition) (inside : Sequence) (other : Alternative) (rest : Sequence)
  /-- A `do` loop, with the condition behind its block. -/
  | doLoop (inside : Sequence) (condition : Condition) (rest : Sequence)

end

/-! ## Depths

A loop has its body one deeper than itself. Its header, and the condition behind a `do` loop, are
outside. -/

mutual

/-- The statements and headers of a part, each with the number of loops around it. -/
def Part.marks (depth : Nat) : Part → List Mark
  | .plain s => [⟨.plain s, depth⟩]
  | .block inside => inside.marks depth
  | .loop w c body => ⟨.header (.loop w c), depth⟩ :: body.marks (depth + 1)

/-- The statements and headers behind an `else`, each with the number of loops around it. -/
def Alternative.marks (depth : Nat) : Alternative → List Mark
  | .nothing => []
  | .block inside => inside.marks depth
  | .branch c inside other =>
    ⟨.header (.branch c), depth⟩ :: (inside.marks depth ++ other.marks depth)

/-- The statements and headers in order, each with the number of loops around it. -/
def Sequence.marks (depth : Nat) : Sequence → List Mark
  | .done => []
  | .part p rest => p.marks depth ++ rest.marks depth
  | .branch c inside other rest =>
    ⟨.header (.branch c), depth⟩ :: (inside.marks depth ++ (other.marks depth ++ rest.marks depth))
  | .doLoop inside c rest =>
    inside.marks (depth + 1) ++ ⟨.header (.loop .whileWord c), depth⟩ :: rest.marks depth

end

/-! ## Symbols -/

/-- What the text of a tree is made of, up to the blanks between. -/
inductive Symbol where
  | opening
  | closing
  | semicolon
  | elseWord
  | doWord
  /-- A header, or a simple statement with its semicolon. -/
  | item (i : Item)
  deriving DecidableEq

/-- Symbols between braces. -/
def braced (xs : List Symbol) : List Symbol :=
  .opening :: (xs ++ [.closing])

mutual

/-- The symbols of a part, in order. -/
def Part.symbols : Part → List Symbol
  | .plain s => [.item (.plain s)]
  | .block inside => braced inside.symbols
  | .loop w c body => .item (.header (.loop w c)) :: body.symbols

/-- The symbols of what stands behind a branch, in order. -/
def Alternative.symbols : Alternative → List Symbol
  | .nothing => []
  | .block inside => .elseWord :: braced inside.symbols
  | .branch c inside other =>
    .elseWord :: .item (.header (.branch c)) :: (braced inside.symbols ++ other.symbols)

/-- The symbols of a sequence, in order. -/
def Sequence.symbols : Sequence → List Symbol
  | .done => []
  | .part p rest => p.symbols ++ rest.symbols
  | .branch c inside other rest =>
    .item (.header (.branch c)) :: (braced inside.symbols ++ (other.symbols ++ rest.symbols))
  | .doLoop inside c rest =>
    .doWord :: (braced inside.symbols ++ .item (.header (.loop .whileWord c)) :: .semicolon ::
      rest.symbols)

end

/-- The text is that of the item. Between a control word and its bracket there may be blanks. -/
def Item.Spells (cs : List Char) : Item → Prop
  | plain s => cs = s.chars
  | header h => ∃ gap, (∀ a ∈ gap, isBlank a) ∧
      cs = h.word.toList ++ (gap ++ '(' :: (h.condition.chars ++ [')']))

/-- What is written behind an item. -/
def Item.ending : Item → List Char
  | plain _ => [';']
  | header _ => []

/-- The symbol may be written so. -/
def Symbol.Spells (cs : List Char) : Symbol → Prop
  | opening => cs = ['{']
  | closing => cs = ['}']
  | semicolon => cs = [';']
  | elseWord => cs = "else".toList
  | doWord => cs = "do".toList
  | item i => ∃ w, i.Spells w ∧ cs = w ++ i.ending

/-- Is the symbol a word without anything behind it? -/
def Symbol.isWord : Symbol → Bool
  | elseWord | doWord => true
  | _ => false

/-- The text spells the symbols, with blanks in front of each and behind the last one. A word goes
no further than it should. -/
inductive Spelled : List Symbol → List Char → Prop
  | nil {gap : List Char} (blank : ∀ a ∈ gap, isBlank a) : Spelled [] gap
  | cons {x : Symbol} {xs : List Symbol} {gap w text : List Char} (blank : ∀ a ∈ gap, isBlank a)
    (spells : x.Spells w) (apart : x.isWord → text.head?.any isWordChar = false)
    (later : Spelled xs text) :
    Spelled (x :: xs) (gap ++ (w ++ text))

/-! ## The usual spelling -/

/-- One way to write an item, with a space behind the word of a header. -/
def Item.chars : Item → List Char
  | plain s => s.chars
  | header h => h.word.toList ++ ' ' :: '(' :: (h.condition.chars ++ [')'])

/-- One way to write a symbol. -/
def Symbol.chars : Symbol → List Char
  | opening => ['{']
  | closing => ['}']
  | semicolon => [';']
  | elseWord => "else".toList
  | doWord => "do".toList
  | item i => i.chars ++ i.ending

/-- The symbols with a space in front of each. -/
def spell (xs : List Symbol) : List Char :=
  xs.flatMap fun x => ' ' :: x.chars

theorem Item.spells_chars : ∀ i : Item, i.Spells i.chars
  | plain _ => rfl
  | header _ => ⟨[' '], by decide, rfl⟩

theorem Symbol.spells_chars : ∀ x : Symbol, x.Spells x.chars
  | opening | closing | semicolon | elseWord | doWord => rfl
  | item i => ⟨i.chars, i.spells_chars, rfl⟩

theorem spelled_spell : ∀ xs : List Symbol, Spelled xs (spell xs)
  | [] => .nil (List.forall_mem_nil _)
  | x :: xs => by
    have hapart : x.isWord → (spell xs).head?.any isWordChar = false := by
      intro _
      cases xs with
      | nil => rfl
      | cons y ys => exact (by decide : isWordChar ' ' = false)
    have hgap : ∀ a ∈ [' '], isBlank a := by decide
    exact .cons hgap x.spells_chars hapart (spelled_spell xs)

/-! ## Open loops -/

/-- The loops at a place of a body. -/
structure Loops where
  /-- For each open brace, the loops whose body it is, the innermost brace first. -/
  frames : List Nat
  /-- The loops whose body is a brace that is open here. -/
  depth : Nat
  /-- The loop headers whose body has not started. -/
  pending : Nat
  deriving DecidableEq

namespace Loops

/-- The loops behind a symbol. -/
def step (n : Loops) : Symbol → Loops
  | .opening => ⟨n.pending :: n.frames, n.depth + n.pending, 0⟩
  | .closing => ⟨n.frames.tail, n.depth - n.frames.head?.getD 0, n.pending⟩
  | .semicolon | .item (.plain _) => { n with pending := 0 }
  | .elseWord => n
  | .doWord => { n with pending := n.pending + 1 }
  | .item (.header h) => { n with pending := if h.isLoop then n.pending + 1 else n.pending }

/-- The item of a symbol, in all loops that are open or wait for their body. -/
def mark (n : Loops) : Symbol → List Mark
  | .item i => [⟨i, n.depth + n.pending⟩]
  | .opening | .closing | .semicolon | .elseWord | .doWord => []

/-- The loops behind symbols. -/
def after (n : Loops) (xs : List Symbol) : Loops :=
  xs.foldl step n

/-- The items of symbols. -/
def marks (n : Loops) : List Symbol → List Mark
  | [] => []
  | x :: xs => n.mark x ++ (n.step x).marks xs

theorem after_append (xs ys : List Symbol) (n : Loops) :
    n.after (xs ++ ys) = (n.after xs).after ys :=
  List.foldl_append

theorem marks_append : ∀ (xs ys : List Symbol) (n : Loops),
    n.marks (xs ++ ys) = n.marks xs ++ (n.after xs).marks ys
  | [], _, _ => rfl
  | x :: xs, ys, n => by
    rw [List.cons_append, marks, marks_append xs, marks, List.append_assoc]
    rfl

/-- The symbols have the given items, and lead from the loops `n` to the loops `m`. -/
structure Runs (n : Loops) (xs : List Symbol) (ms : List Mark) (m : Loops) : Prop where
  marks_eq : n.marks xs = ms
  after_eq : n.after xs = m

namespace Runs

variable {n m k : Loops} {x : Symbol} {xs ys : List Symbol} {ms ms' : List Mark}

theorem nil (n : Loops) : n.Runs [] [] n :=
  ⟨rfl, rfl⟩

theorem cons (h : (n.step x).Runs xs ms m) : n.Runs (x :: xs) (n.mark x ++ ms) m :=
  ⟨congrArg _ h.marks_eq, h.after_eq⟩

theorem append (h : n.Runs xs ms m) (h' : m.Runs ys ms' k) : n.Runs (xs ++ ys) (ms ++ ms') k where
  marks_eq := by rw [marks_append, h.marks_eq, h.after_eq, h'.marks_eq]
  after_eq := by rw [after_append, h.after_eq, h'.after_eq]

/-- A brace takes over the loops that wait for their body, until it is closed. -/
theorem braced {frames : List Nat} {depth pending : Nat}
    (h : Runs ⟨pending :: frames, depth + pending, 0⟩ xs ms
      ⟨pending :: frames, depth + pending, 0⟩) :
    Runs ⟨frames, depth, pending⟩ (braced xs) ms ⟨frames, depth, 0⟩ := by
  have hclose : Runs ⟨pending :: frames, depth + pending, 0⟩ [.closing] [] ⟨frames, depth, 0⟩ := by
    refine ⟨rfl, ?_⟩
    show (⟨frames, depth + pending - pending, 0⟩ : Loops) = _
    rw [Nat.add_sub_cancel]
  have hall := h.append hclose
  rw [List.append_nil] at hall
  exact cons hall

end Runs

end Loops

/-! ## Trees keep the loops -/

mutual

/-- The loops that wait have the part for their body. -/
theorem Part.runs : ∀ (p : Part) (frames : List Nat) (depth pending : Nat),
    Loops.Runs ⟨frames, depth, pending⟩ p.symbols (p.marks (depth + pending)) ⟨frames, depth, 0⟩
  | .plain _, _, _, _ => .cons (.nil _)
  | .block inside, frames, depth, pending =>
    .braced (inside.runs (pending :: frames) (depth + pending))
  | .loop _ _ body, frames, depth, pending => .cons (body.runs frames depth (pending + 1))

theorem Alternative.runs : ∀ (a : Alternative) (frames : List Nat) (depth : Nat),
    Loops.Runs ⟨frames, depth, 0⟩ a.symbols (a.marks depth) ⟨frames, depth, 0⟩
  | .nothing, _, _ => .nil _
  | .block inside, frames, depth => .cons (.braced (inside.runs (0 :: frames) depth))
  | .branch _ inside other, frames, depth =>
    .cons (.cons ((Loops.Runs.braced (inside.runs (0 :: frames) depth)).append
      (other.runs frames depth)))

theorem Sequence.runs : ∀ (b : Sequence) (frames : List Nat) (depth : Nat),
    Loops.Runs ⟨frames, depth, 0⟩ b.symbols (b.marks depth) ⟨frames, depth, 0⟩
  | .done, _, _ => .nil _
  | .part p rest, frames, depth => (p.runs frames depth 0).append (rest.runs frames depth)
  | .branch _ inside other rest, frames, depth =>
    .cons ((Loops.Runs.braced (inside.runs (0 :: frames) depth)).append
      ((other.runs frames depth).append (rest.runs frames depth)))
  | .doLoop inside _ rest, frames, depth =>
    -- The loop waits from `do` to its brace, and then again from its condition to the semicolon.
    .cons ((Loops.Runs.braced (inside.runs (1 :: frames) (depth + 1))).append
      (.cons (.cons (rest.runs frames depth))))

end

end Written

end ContractAudit
