import ContractAudit.Proofs.Contract.Outline

/-!
# How many statements a text has

Statements are not empty and stand apart, so a body has no more of them than characters
(`Body.Accounts.length_le`). The pass over a text goes on behind the body of a member that it could
read. So the statements found so far are never more than the characters passed
(`Draft.Extends.statementCount_le`), whatever members lie inside each other or are cut off.
-/

namespace ContractAudit

open Pattern

variable {text : List Char} {env : Surroundings} {hit : Hit}

theorem Body.Accounts.length_le {lo hi : Nat} {ss : List Statement}
    (h : Accounts text lo hi ss) : lo + ss.length ≤ hi := by
  have hspan : ∀ s ∈ ss, s.start < s.stop ∧ s.stop ≤ hi := fun s hs =>
    ⟨(h.shows s hs).start_lt_stop, (h.inside s hs).2⟩
  have hlo : ∀ s ∈ ss, lo ≤ s.start := fun s hs => (h.inside s hs).1
  have hle := h.le
  have hordered := h.ordered
  clear h
  -- The first statement ends where the others may start.
  induction ss generalizing lo with
  | nil => exact hle
  | cons s ss ih =>
    obtain ⟨hbehind, hordered⟩ := List.pairwise_cons.1 hordered
    obtain ⟨hlt, hstop⟩ := hspan s List.mem_cons_self
    have hstart := hlo s List.mem_cons_self
    have hrest := ih (fun t ht => hspan t (List.mem_cons_of_mem _ ht)) hbehind hstop hordered
    rw [List.length_cons]
    omega

/-- How many statements the parsed ones of the members have together. -/
def statementCount : List Block → Nat
  | [] => 0
  | b :: bs => (if b.isParsed then b.statements.length else 0) + statementCount bs

theorem statementCount_append : ∀ bs cs : List Block,
    statementCount (bs ++ cs) = statementCount bs + statementCount cs
  | [], cs => (Nat.zero_add _).symm
  | b :: bs, cs => by
    rw [List.cons_append, statementCount, statementCount_append bs cs, statementCount,
      Nat.add_assoc]

theorem statementCount_reverse : ∀ bs : List Block, statementCount bs.reverse = statementCount bs
  | [] => rfl
  | b :: bs => by
    rw [List.reverse_cons, statementCount_append, statementCount_reverse bs, Nat.add_comm]
    rfl

theorem foldl_statements_eq : ∀ (bs : List Block) (n : Nat),
    (bs.filter (·.isParsed)).foldl (fun n b => n + b.statements.length) n = n + statementCount bs
  | [], n => rfl
  | b :: bs, n => by
    by_cases hb : b.isParsed
    · rw [List.filter_cons_of_pos hb, List.foldl_cons, foldl_statements_eq bs, statementCount,
        if_pos hb, Nat.add_assoc]
    · rw [List.filter_cons_of_neg hb, foldl_statements_eq bs, statementCount, if_neg hb,
        Nat.zero_add]

/-- The statements of a parsed member fit between the keyword and the place where the search goes
on. -/
theorem Block.Spans.length_le {next : Cursor} {b : Block} (h : b.Spans hit next)
    (henv : env.OfText text) (horigin : b.Origin text env) (hb : b.isParsed) :
    hit.stop.offset + b.statements.length ≤ next.offset := by
  obtain ⟨lo, hi, hbody, haccounts⟩ := horigin.accounts henv hb
  obtain ⟨hlo, hhi⟩ := h.inside hb lo hi hbody
  have hle := haccounts.length_le
  omega

namespace Draft

theorem Extends.statementCount_le {d : Draft} {r : Draft × Cursor} (h : Extends text env hit d r)
    (henv : env.OfText text) (hd : statementCount d.blocks ≤ hit.stop.offset) :
    statementCount r.1.blocks ≤ r.2.offset := by
  rcases h.blocks with heq | ⟨b, heq, horigin, hspans⟩
  · rw [heq]
    exact Nat.le_trans hd h.le
  · rw [heq, statementCount]
    split
    next hb =>
      have hle := hspans.length_le henv horigin hb
      omega
    next =>
      have hle := h.le
      omega

end Draft

/-- The parsed members of a text have together no more statements than the text has characters. -/
theorem Outline.statementCount_le (text : List Char) :
    statementCount (Outline.of text).blocks ≤ text.length := by
  obtain ⟨d, o, ho, hd, heq⟩ :=
    Outline.of_induction (P := fun o d => statementCount d.blocks ≤ o) text
    (Nat.le_refl _) fun env hit o d henv hstart hreads hle hext hd =>
      hext.statementCount_le henv (Nat.le_trans hd (Nat.le_trans hle (hreads.in hstart).2))
  rw [heq, statementCount_reverse]
  exact Nat.le_trans hd ho

end ContractAudit
