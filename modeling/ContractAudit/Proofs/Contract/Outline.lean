import ContractAudit.Contract.Outline
import ContractAudit.Proofs.Contract.Body

/-!
# Members of an outline

The pass over a source adds at most one member for each declaration it finds. `Block.Origin` says
how a member came about : it has a fault, or its body lies between two matched braces and its
statements were split from there. `Block.Spans` says where it lies : from the declaration up to the
place where the search goes on. What each declaration keeps holds of the whole outline
(`Outline.of_induction`), so all its members come from a declaration of the text in this way
(`Outline.declared_of_mem`). The statements of a parsed member account for its body
(`Source.parsed_statements_account`).
-/

namespace ContractAudit

open Pattern

variable {text : List Char} {env : Surroundings} {hit : Hit} {b : Block}

/-- The brace or semicolon that ends a header stands behind the start of the header. -/
theorem in_bodyMarkFrom? {parens : Pairs} (hp : parens = Pairs.parens text) {limit : Nat} :
    ∀ (fuel : Nat) {c d : Cursor} {a : Char}, c.In text →
      bodyMarkFrom? parens limit fuel c = some (d, a) →
        d.In text ∧ c.offset ≤ d.offset ∧ d.peek = some a
  | 0, c, d, a, hc, h => by simp [bodyMarkFrom?] at h
  | fuel + 1, c, d, a, hc, h => by
    have hgo : ∀ e : Cursor, e.In text → c.offset ≤ e.offset →
        bodyMarkFrom? parens limit fuel e = some (d, a) →
        d.In text ∧ c.offset ≤ d.offset ∧ d.peek = some a := by
      intro e he hle h
      obtain ⟨hd, hed, hpeek⟩ := in_bodyMarkFrom? hp fuel he h
      exact ⟨hd, Nat.le_trans hle hed, hpeek⟩
    simp only [bodyMarkFrom?] at h
    split at h
    · split at h
      · simp at h
      · split at h
        · rename_i k hk
          rw [hp] at hk
          obtain ⟨hin, hoff, hlt, -⟩ := Body.in_advanceTo_close hc hk
          split at h
          · exact hgo _ hin (by omega) h
          · simp at h
        · simp at h
      · rename_i x hne hpeek
        split at h
        · obtain ⟨rfl, rfl⟩ : c = d ∧ x = a := by simpa using h
          exact ⟨hc, Nat.le_refl _, hpeek⟩
        · have hoff := hc.offset_advance_one hpeek
          exact hgo _ (hc.advance 1) (by omega) h
    · simp at h

theorem in_bodyMark? (henv : env.OfText text) {c d : Cursor} {a : Char} (hc : c.In text)
    (h : bodyMark? env.parens c = some (d, a)) :
      d.In text ∧ c.offset ≤ d.offset ∧ d.peek = some a :=
  in_bodyMarkFrom? henv.parens_eq _ hc h

/-- How a member came about. -/
inductive Block.Origin (text : List Char) (env : Surroundings) (b : Block) : Prop where
  | faulty (h : b.isParsed = false)
  /-- Its body starts behind `brace` and ends at the brace that closes it. -/
  | parsed {brace : Cursor} {close : Nat} (scope : Scope) (hin : brace.In text)
    (hpeek : brace.peek = some '{') (hclose : env.braces.close? brace.offset = some close)
    (hbody : b.body = some ((brace.advance 1).offset, close))
    (hstatements : b.statements = Body.statements env scope (brace.advance 1) close)

/-- The declaration `hit` makes the member : it starts there, and if its body could be read, this
lies behind the keyword and before the place where the search goes on. -/
structure Block.Spans (hit : Hit) (next : Cursor) (b : Block) : Prop where
  start_eq : b.start = hit.start.offset
  inside : b.isParsed → ∀ lo hi, b.body = some (lo, hi) → hit.stop.offset < lo ∧ hi < next.offset

/-- A declaration of the text makes the member. -/
def Block.Declared (text : List Char) (env : Surroundings) (b : Block) : Prop :=
  ∃ (hit : Hit) (next : Cursor), hit.start.In text ∧
    declaration.Reads hit.start [] hit.stop hit.parts ∧ next.In text ∧ b.Origin text env ∧
      b.Spans hit next

theorem Block.spans_of_faulty {next : Cursor} (hstart : b.start = hit.start.offset)
    (hfault : b.isParsed = false) : b.Spans hit next :=
  ⟨hstart, fun h => absurd h (by simp [hfault])⟩

namespace Draft

/-- A declaration adds at most one member, and the search goes on behind its keyword. -/
structure Extends (text : List Char) (env : Surroundings) (hit : Hit) (d : Draft)
    (r : Draft × Cursor) : Prop where
  in_text : r.2.In text
  le : hit.stop.offset ≤ r.2.offset
  blocks : r.1.blocks = d.blocks ∨
    ∃ b, r.1.blocks = b :: d.blocks ∧ b.Origin text env ∧ b.Spans hit r.2

theorem Extends.mem_blocks {d : Draft} {r : Draft × Cursor} (h : Extends text env hit d r)
    (hb : b ∈ r.1.blocks) : b ∈ d.blocks ∨ b.Origin text env ∧ b.Spans hit r.2 := by
  rcases h.blocks with heq | ⟨b', heq, hnew⟩
  · exact Or.inl (heq ▸ hb)
  · rw [heq] at hb
    rcases List.mem_cons.1 hb with rfl | hb
    · exact Or.inr hnew
    · exact Or.inl hb

/-- The place behind the mark that ends a header. -/
theorem in_advance_bodyMark? (henv : env.OfText text) (hs : hit.stop.In text) {c : Cursor}
    {a : Char} (h : bodyMark? env.parens hit.stop = some (c, a)) :
    (c.advance 1).In text ∧ hit.stop.offset ≤ (c.advance 1).offset := by
  obtain ⟨hin, hle, hpeek⟩ := in_bodyMark? henv hs h
  have hoff := hin.offset_advance_one hpeek
  exact ⟨hin.advance 1, by omega⟩

theorem extends_addContract (henv : env.OfText text) (hs : hit.stop.In text) (length : Nat)
    (d : Draft) : Extends text env hit d (d.addContract env length hit) := by
  unfold addContract
  split
  · rename_i brace hmark
    obtain ⟨hin, hle⟩ := in_advance_bodyMark? henv hs hmark
    exact ⟨hin, hle, Or.inl rfl⟩
  · exact ⟨hs, Nat.le_refl _, Or.inl rfl⟩

theorem extends_addMember (henv : env.OfText text) (hs : hit.stop.In text) (length : Nat)
    (kind : BlockKind) (d : Draft) : Extends text env hit d (d.addMember env length kind hit) := by
  simp only [addMember]
  split
  · cases hmark : bodyMark? env.parens hit.stop with
    | none => exact ⟨hs, Nat.le_refl _, Or.inl rfl⟩
    | some m =>
      obtain ⟨hin, hle⟩ := in_advance_bodyMark? henv hs hmark
      exact ⟨hin, hle, Or.inl rfl⟩
  · split
    · rename_i brace hmark
      obtain ⟨hin, hle⟩ := in_advance_bodyMark? henv hs hmark
      split
      · rename_i close hclose hnested
        obtain ⟨hbrace, hle', hpeek⟩ := in_bodyMark? henv hs hmark
        obtain ⟨hin', hoff, hlt, -⟩ := Body.in_advanceTo_close hbrace (henv.braces_eq ▸ hclose)
        have hinside := hbrace.offset_advance_one hpeek
        refine ⟨hin', ?_, Or.inr ⟨_, rfl, .parsed _ hbrace hpeek hclose rfl rfl, rfl, ?_⟩⟩
        · show hit.stop.offset ≤ (brace.advanceTo (close + 1)).offset
          omega
        · intro _ lo hi hbody
          obtain ⟨rfl, rfl⟩ := Prod.mk.inj (Option.some.inj hbody)
          show hit.stop.offset < (brace.advance 1).offset ∧
            close < (brace.advanceTo (close + 1)).offset
          omega
      · exact ⟨hin, hle, Or.inr ⟨_, rfl, .faulty rfl, Block.spans_of_faulty rfl rfl⟩⟩
    · exact ⟨hs, Nat.le_refl _, Or.inr ⟨_, rfl, .faulty rfl, Block.spans_of_faulty rfl rfl⟩⟩

theorem extends_add (henv : env.OfText text) (hs : hit.stop.In text) (length : Nat) (d : Draft) :
    Extends text env hit d (d.add env length hit) := by
  have hpass : Extends text env hit d (d, hit.stop) :=
    ⟨hs, Nat.le_refl _, Or.inl rfl⟩
  unfold add
  split
  · exact extends_addContract henv hs length d
  · split
    · exact hpass
    · split
      · exact hpass
      · exact extends_addMember henv hs length _ d

/-- What each declaration found keeps holds at the end of the pass if it holds at its start. The
offset is that of the place reached. -/
theorem addAll_induction {P : Nat → Draft → Prop} (henv : env.OfText text) (length : Nat)
    (hstep : ∀ (hit : Hit) (o : Nat) (d : Draft), hit.start.In text →
      declaration.Reads hit.start [] hit.stop hit.parts → o ≤ hit.start.offset →
      Extends text env hit d (d.add env length hit) → P o d →
        P (d.add env length hit).2.offset (d.add env length hit).1) :
    ∀ (fuel : Nat) (d : Draft) (c : Cursor), c.In text → P c.offset d →
      ∃ o ≤ text.length, P o (addAll env length fuel d c)
  | 0, _, _, hc, h => ⟨_, hc.offset_le, h⟩
  | fuel + 1, d, c, hc, h => by
    cases hfind : declaration.find? c with
    | none => exact ⟨_, hc.offset_le, by simpa [addAll, hfind] using h⟩
    | some hit =>
      obtain ⟨hstart, hle, hreads⟩ := reads_of_find? hc hfind
      have hext := extends_add henv (hreads.in hstart).1 length d
      simpa [addAll, hfind] using addAll_induction henv length hstep fuel _ _ hext.in_text
        (hstep hit _ d hstart hreads hle hext h)

end Draft

/-- The outline of a text is what the pass has found at its end, in order. -/
theorem Outline.of_induction {P : Nat → Draft → Prop} (text : List Char) (hstart : P 0 ⟨[], [], []⟩)
    (hstep : ∀ (env : Surroundings) (hit : Hit) (o : Nat) (d : Draft), env.OfText text →
      hit.start.In text → declaration.Reads hit.start [] hit.stop hit.parts → o ≤ hit.start.offset →
      Draft.Extends text env hit d (d.add env text.length hit) → P o d →
        P (d.add env text.length hit).2.offset (d.add env text.length hit).1) :
    ∃ d, ∃ o ≤ text.length, P o d ∧ Outline.of text = ⟨d.contracts.reverse, d.blocks.reverse⟩ := by
  have henv : Surroundings.OfText text
      ⟨Pairs.braces text, Pairs.parens text, valueTypes text⟩ := ⟨rfl, rfl⟩
  obtain ⟨o, ho, h⟩ := Draft.addAll_induction henv text.length
    (fun hit o d hin hreads => hstep _ hit o d henv hin hreads)
    text.length ⟨[], [], []⟩ (Cursor.start text) (Cursor.in_start text) hstart
  exact ⟨_, o, ho, h, rfl⟩

theorem Outline.declared_of_mem (hb : b ∈ (Outline.of text).blocks) :
    ∃ env : Surroundings, env.OfText text ∧ b.Declared text env := by
  obtain ⟨d, -, -, hd, heq⟩ := Outline.of_induction
    (P := fun _ d => ∀ b ∈ d.blocks, ∃ env : Surroundings, env.OfText text ∧ b.Declared text env)
      text
    (List.forall_mem_nil _) (fun env hit _ d henv hstart hreads _ hext hd b hb => by
      rcases hext.mem_blocks hb with hb | ⟨horigin, hspans⟩
      · exact hd b hb
      · exact ⟨env, henv, hit, _, hstart, hreads, hext.in_text, horigin, hspans⟩)
  rw [heq] at hb
  exact hd b (List.mem_reverse.1 hb)

theorem Outline.origin_of_mem (hb : b ∈ (Outline.of text).blocks) :
    ∃ env : Surroundings, env.OfText text ∧ b.Origin text env := by
  obtain ⟨env, henv, -, -, -, -, -, horigin, -⟩ := declared_of_mem hb
  exact ⟨env, henv, horigin⟩

/-- A parsed member lies between matched braces, and its statements account for what stands between
them. -/
theorem Block.Origin.accounts (h : b.Origin text env) (henv : env.OfText text)
    (hb : b.isParsed) :
    ∃ lo hi, b.body = some (lo, hi) ∧ Body.Accounts text lo hi b.statements := by
  cases h with
  | faulty hf => simp [hf] at hb
  | @parsed brace close scope hin hpeek hclose hbody hstatements =>
    have hj := Pairs.joins_of_close? (henv.braces_eq ▸ hclose)
    have hoff := hin.offset_advance_one hpeek
    have hbefore := (hin.advance 1).before_of_offset_eq (hin.peek_eq ▸ hpeek) hoff
    have hlt := hj.lt
    refine ⟨_, _, hbody, ?_⟩
    rw [hstatements]
    exact Body.accounts_statements henv hj.closes scope (hin.advance 1) (by omega)
      (.of_before hbefore (by decide))

/-- The statements of a parsed member of any source account for its body : they stand in order and
apart inside it, each shows its own stretch of the text, and what belongs to none is blank, a brace,
a semicolon, or a word `else` or `do` that was skipped. -/
theorem Source.parsed_statements_account (source : Source) {b : Block}
    (hb : b ∈ source.outline.blocks) (hparsed : b.isParsed) :
    ∃ lo hi, b.body = some (lo, hi) ∧ Body.Accounts source.text.toList lo hi b.statements := by
  obtain ⟨env, henv, horigin⟩ := Outline.origin_of_mem hb
  exact horigin.accounts henv hparsed

/-- A source with skipped words, unbraced branches and a bracket that is not closed. -/
def Source.unclosedCall : Source :=
  Source.ofChars "function f()\x7bdo\x7bx++;\x7dwhile(a);if(b)c=1;else d(;\x7d".toList

theorem Source.unclosedCall_account :
    ∃ b ∈ unclosedCall.outline.blocks, b.isParsed ∧
      b.statements.map (·.text) = ["x++", "while(a)", "if(b)", "c=1", "d(;"] ∧
      ∃ lo hi, b.body = some (lo, hi) ∧
        Body.Accounts unclosedCall.text.toList lo hi b.statements := by
  have hblocks : (true, ["x++", "while(a)", "if(b)", "c=1", "d(;"]) ∈
      unclosedCall.outline.blocks.map fun b => (b.isParsed, b.statements.map (·.text)) := by
    decide +kernel
  obtain ⟨b, hb, heq⟩ := List.mem_map.1 hblocks
  obtain ⟨hparsed, htexts⟩ := Prod.mk.inj heq
  exact ⟨b, hb, hparsed, htexts, parsed_statements_account _ hb hparsed⟩

end ContractAudit
