import ContractAudit.Proofs.Written.Loops

/-!
# Loops over a branch without braces

The body of a loop may be a branch that goes on with `else`, without braces around it
(`Written.Fork`). Loops wait for their body only up to the end of the first arm : the second arm is
taken for a statement behind the loop, and behind all loops whose headers stand directly in front of
it. All other statements of the body, those of the first arm among them, have the depth they should
have (`statements_forked`).
-/

namespace ContractAudit

namespace Written

open Body Cursor

/-- A loop whose body is a branch with an alternative, and no braces around the branch. -/
structure Fork where
  word : LoopWord
  header : Condition
  condition : Condition
  first : Part
  second : Part

namespace Fork

/-- The symbols of the loop with the branch for its body. -/
def symbols (f : Fork) : List Symbol :=
  .item (.header (.loop f.word f.header)) :: .item (.header (.branch f.condition)) ::
    (f.first.symbols ++ .elseWord :: f.second.symbols)

/-- The items of a loop at the given depth whose second arm is at the depth `other`. -/
def marks (depth other : Nat) (f : Fork) : List Mark :=
  ⟨.header (.loop f.word f.header), depth⟩ :: ⟨.header (.branch f.condition), depth + 1⟩ ::
    (f.first.marks (depth + 1) ++ f.second.marks other)

/-- Behind the first arm no loop waits any more. -/
theorem runs (f : Fork) (frames : List Nat) (depth pending : Nat) :
    Loops.Runs ⟨frames, depth, pending⟩ f.symbols (f.marks (depth + pending) depth)
      ⟨frames, depth, 0⟩ := by
  have hfirst := f.first.runs frames depth (pending + 1)
  have hsecond :
      Loops.Runs ⟨frames, depth, 0⟩ (.elseWord :: f.second.symbols) (f.second.marks depth)
      ⟨frames, depth, 0⟩ :=
    .cons (f.second.runs frames depth 0)
  exact .cons (.cons (hfirst.append hsecond))

end Fork

/-! ## Loop headers in front of a statement -/

/-- The loop headers at the end of the symbols, if `n` stand in front of them. -/
def waitingFrom (n : Nat) (xs : List Symbol) : Nat :=
  xs.foldl (fun k x => match x with
    | .item (.header (.loop _ _)) => k + 1
    | _ => 0) n

/-- The loop headers that stand one behind the other at the end of the symbols. -/
def waiting (xs : List Symbol) : Nat :=
  waitingFrom 0 xs

namespace Loops

/-- Wherever a simple statement stands in the symbols, and behind them, the loops that wait are
those whose headers stand directly in front. -/
structure Paced (n : Loops) (xs : List Symbol) : Prop where
  at_plain : ∀ pre s post, xs = pre ++ .item (.plain s) :: post →
    (n.after pre).pending = waitingFrom n.pending pre
  behind : (n.after xs).pending = waitingFrom n.pending xs

namespace Paced

variable {n m : Loops} {xs ys : List Symbol} {ms : List Mark} {frames : List Nat}
    {depth pending : Nat}

theorem append (h : n.Paced xs) (hruns : n.Runs xs ms m) (h' : m.Paced ys) :
    n.Paced (xs ++ ys) := by
  obtain rfl := hruns.after_eq
  have hwaiting : ∀ zs, waitingFrom n.pending (xs ++ zs) = waitingFrom (n.after xs).pending zs := by
    intro zs
    rw [h.behind, waitingFrom, List.foldl_append]
    rfl
  constructor
  · intro pre s post heq
    rcases List.append_eq_append_iff.1 heq with ⟨zs, rfl, hys⟩ | ⟨zs, hxs, hpost⟩
    · rw [after_append, hwaiting, h'.at_plain zs s post hys]
    · cases zs with
      | nil =>
        rw [List.append_nil] at hxs
        rw [← hxs, h.behind]
      | cons z zs =>
        obtain ⟨rfl, -⟩ := List.cons.inj hpost
        exact h.at_plain pre s zs hxs
  · rw [after_append, hwaiting, h'.behind]

/-- Where no simple statement is among the symbols, they only have to leave the right loops
waiting. -/
theorem of_items (hitems : ∀ s, .item (.plain s) ∉ xs)
    (hbehind : (n.after xs).pending = waitingFrom n.pending xs) : n.Paced xs where
  at_plain pre s post heq := absurd (heq ▸ by simp) (hitems s)
  behind := hbehind

theorem cons {x : Symbol} (hx : ∀ s, .item (.plain s) ≠ x)
    (hbehind : (n.step x).pending = waitingFrom n.pending [x]) (h : (n.step x).Paced xs) :
    n.Paced (x :: xs) := by
  have hone : n.Paced [x] := of_items (fun s => by simpa using hx s) hbehind
  exact hone.append ⟨rfl, rfl⟩ h

theorem plain (n : Loops) (s : Plain) : n.Paced [.item (.plain s)] where
  at_plain pre t post heq := by
    cases pre with
    | nil => rfl
    | cons x pre => simp at heq
  behind := rfl

theorem nil (n : Loops) : n.Paced [] :=
  of_items (by simp) rfl

/-- Behind the statements in a block no loop waits. -/
theorem closed (h : n.Paced xs) (hruns : n.Runs xs ms ⟨frames, depth, 0⟩) :
    n.Paced (xs ++ [.closing]) :=
  h.append hruns (.cons (by simp) rfl (.nil _))

theorem braced (h : Paced ⟨pending :: frames, depth + pending, 0⟩ xs)
    (hruns : Runs ⟨pending :: frames, depth + pending, 0⟩ xs ms
      ⟨pending :: frames, depth + pending, 0⟩) :
    Paced ⟨frames, depth, pending⟩ (braced xs) :=
  .cons (by simp) rfl (h.closed hruns)

end Paced

end Loops

mutual

theorem Part.paced : ∀ (p : Part) (frames : List Nat) (depth pending : Nat),
    Loops.Paced ⟨frames, depth, pending⟩ p.symbols
  | .plain s, _, _, _ => .plain _ s
  | .block inside, frames, depth, pending =>
    .braced (inside.paced (pending :: frames) (depth + pending)) (inside.runs _ _)
  | .loop _ _ body, frames, depth, pending =>
    .cons (by simp) rfl (body.paced frames depth (pending + 1))

theorem Alternative.paced : ∀ (a : Alternative) (frames : List Nat) (depth : Nat),
    Loops.Paced ⟨frames, depth, 0⟩ a.symbols
  | .nothing, _, _ => .nil _
  | .block inside, frames, depth =>
    .cons (by simp) rfl (.braced (inside.paced (0 :: frames) depth) (inside.runs _ _))
  | .branch _ inside other, frames, depth =>
    .cons (by simp) rfl (.cons (by simp) rfl
      ((Loops.Paced.braced (inside.paced (0 :: frames) depth) (inside.runs _ _)).append
        (.braced (inside.runs _ _)) (other.paced frames depth)))

theorem Sequence.paced : ∀ (b : Sequence) (frames : List Nat) (depth : Nat),
    Loops.Paced ⟨frames, depth, 0⟩ b.symbols
  | .done, _, _ => .nil _
  | .part p rest, frames, depth =>
    (p.paced frames depth 0).append (p.runs frames depth 0) (rest.paced frames depth)
  | .branch _ inside other rest, frames, depth =>
    .cons (by simp) rfl
      ((Loops.Paced.braced (inside.paced (0 :: frames) depth) (inside.runs _ _)).append
        (.braced (inside.runs _ _))
        ((other.paced frames depth).append (other.runs frames depth) (rest.paced frames depth)))
  | .doLoop inside c rest, frames, depth => by
    -- The word `do` is no loop header, but the brace that follows takes the loop over at once.
    have hopening : Loops.Paced ⟨frames, depth, 0⟩ [.doWord, .opening] := .of_items (by simp) rfl
    have hinside :=
      (inside.paced (1 :: frames) (depth + 1)).closed (inside.runs (1 :: frames) (depth + 1))
    have hclosed : Loops.after ⟨1 :: frames, depth + 1, 0⟩ (inside.symbols ++ [.closing]) =
        ⟨frames, depth, 0⟩ :=
      (Loops.Runs.braced (inside.runs (1 :: frames) (depth + 1))).after_eq
    have hbehind : Loops.Paced ⟨frames, depth, 0⟩
        (.item (.header (.loop .whileWord c)) :: .semicolon :: rest.symbols) :=
      .cons (by simp) rfl (.cons (by simp) rfl (rest.paced frames depth))
    exact hopening.append ⟨rfl, rfl⟩ (hinside.append ⟨rfl, hclosed⟩ hbehind)

end

/-! ## The loop in place of a statement -/

variable {env : Surroundings} {front rest : List Char}

/-- Is the symbol a statement or a header? -/
def Symbol.isItem : Symbol → Bool
  | item _ => true
  | _ => false

theorem Loops.length_marks : ∀ (xs : List Symbol) (n : Loops),
    (n.marks xs).length = xs.countP Symbol.isItem
  | [], _ => rfl
  | x :: xs, n => by
    rw [marks, List.length_append, length_marks xs, List.countP_cons, Nat.add_comm]
    cases x <;> rfl

/-- Take any body and one of its simple statements, with `held + waiting before` loops around it,
and put a loop over a branch in its place. Then the loop itself and its first arm are where they
should be, and so is every other statement of the body. But the second arm is only inside the `held`
loops whose braces are open, neither inside the loop nor inside those whose headers stand directly
in front of it. -/
theorem statements_forked {body : Sequence} {before after : List Symbol} {s : Plain}
    (hbody : body.symbols = before ++ .item (.plain s) :: after) (fork : Fork) {text : List Char}
    (hspelled : Spelled (before ++ (fork.symbols ++ after)) text)
    (henv : env.OfText (front ++ '{' :: (text ++ '}' :: rest))) (scope : Scope) :
    ∃ ms held ms', body.marks 0 = ms ++ ⟨.plain s, held + waiting before⟩ :: ms' ∧
      ms.length = before.countP Symbol.isItem ∧
      List.Forall₂ Mark.ShownBy (ms ++ (fork.marks (held + waiting before) held ++ ms'))
        (statements env scope (between (front ++ ['{']) (text ++ '}' :: rest))
          (front.length + 1 + text.length)) := by
  obtain ⟨start, hstart⟩ : ∃ start : Loops, start = ⟨[], 0, 0⟩ := ⟨_, rfl⟩
  obtain ⟨⟨frames, held, pending⟩, hbefore⟩ : ∃ n, start.after before = n := ⟨_, rfl⟩
  have hpending : pending = waiting before := by
    have hpaced := (body.paced [] 0).at_plain before s after hbody
    rwa [← hstart, hbefore, hstart] at hpaced
  refine ⟨start.marks before, held, Loops.marks ⟨frames, held, 0⟩ after, ?_, Loops.length_marks _ _,
    ?_⟩
  · rw [← (body.runs [] 0).marks_eq, ← hstart, hbody, Loops.marks_append, hbefore, ← hpending]
    rfl
  · have hshown := shownBy_statements hspelled henv scope
    have hfork := fork.runs frames held pending
    rw [← hstart, Loops.marks_append, Loops.marks_append, hbefore, hfork.marks_eq, hfork.after_eq,
      hpending] at hshown
    exact hshown

/-- A header that counts the lanes. -/
def everyLane : Condition :=
  ⟨"uint lane; lane < lanes; lane++".toList, by decide⟩

/-- A statement that the loop repeats. -/
def raiseBar : Plain :=
  ⟨"raise(lane)".toList, by decide⟩

/-- A statement that writes to the state. -/
def shutGate : Plain :=
  ⟨"gate = 0".toList, by decide⟩

/-- A loop over one statement, and a statement behind it. -/
def gateBody : Sequence :=
  .part (.loop .forWord everyLane (.plain raiseBar)) (.part (.plain shutGate) .done)

/-- A loop over a branch whose second arm is a block. -/
def tollLoop : Fork where
  word := .whileWord
  header := ⟨"queued(lane)".toList, by decide⟩
  condition := ⟨"late(lane)".toList, by decide⟩
  first := .plain ⟨"fines += 1".toList, by decide⟩
  second := .block (.part (.plain ⟨"tolls += 1".toList, by decide⟩) .done)

/-- The symbols of the body with the loop over a branch in place of its first statement. -/
def tollSymbols : List Symbol :=
  [.item (.header (.loop .forWord everyLane))] ++ (tollLoop.symbols ++ [.item (.plain shutGate)])

/-- The text of a member with these symbols for its body. -/
def tollText : List Char :=
  "function toll() external ".toList ++ '{' :: (spell tollSymbols ++ ['}'])

/-- Two loops are around the branch, and none of them around its second arm. -/
theorem statements_forked_toll :
    gateBody.symbols = [.item (.header (.loop .forWord everyLane))] ++
        .item (.plain raiseBar) :: [.item (.plain shutGate)] ∧
      Spelled tollSymbols (spell tollSymbols) ∧
      Surroundings.OfText tollText ⟨Pairs.braces tollText, Pairs.parens tollText, []⟩ ∧
      (statements ⟨Pairs.braces tollText, Pairs.parens tollText, []⟩ (.initial [] [] [])
        (between ("function toll() external ".toList ++ ['{']) (spell tollSymbols ++ ['}']))
        ("function toll() external ".toList.length + 1 + (spell tollSymbols).length)).map
    (·.loopDepth) = [0, 1, 2, 2, 0, 0] := by
  have hbody : gateBody.symbols = [.item (.header (.loop .forWord everyLane))] ++
      .item (.plain raiseBar) :: [.item (.plain shutGate)] := rfl
  have hspelled := spelled_spell tollSymbols
  have henv : Surroundings.OfText tollText ⟨Pairs.braces tollText, Pairs.parens tollText, []⟩ :=
    ⟨rfl, rfl⟩
  refine ⟨hbody, hspelled, henv, ?_⟩
  obtain ⟨ms, held, ms', hmarks, hlen, hshown⟩ := statements_forked hbody tollLoop hspelled henv _
  -- The one mark in front of the statement is that of the outer loop.
  obtain ⟨m, rfl⟩ := List.length_eq_one_iff.1 hlen
  obtain ⟨rfl, hrest⟩ := List.cons.inj hmarks
  obtain ⟨hmark, rfl⟩ := List.cons.inj hrest
  obtain rfl : held = 0 := (Nat.succ.inj (congrArg Mark.depth hmark)).symm
  exact Mark.map_depth hshown

/-- The second arm of an unbraced branch does not count as part of the loop. -/
theorem loopDepth_unbraced_else :
    (Source.ofChars ("contract C \x7b function f() public \x7b " ++
        "for (uint i; i < n; i++) if (a) x = 1; else y = 2; \x7d \x7d").toList).outline.blocks.map
      (fun b => b.statements.map fun s => (s.text, s.loopDepth)) =
        [[("for (uint i; i < n; i++)", 0), ("if (a)", 1), ("x = 1", 1), ("y = 2", 0)]] := by
  decide +kernel

end Written

end ContractAudit
