import ContractAudit.Proofs.Contract.Order

/-!
# The contract around a member

The pass over a source keeps the contracts that may still be open on a stack, and drops those that
have ended only when a member asks for the contract around it. At every place that is still to come,
the first contract on the stack that has not ended there is the latest one found that has not
(`Draft.Tracks`), whatever has been dropped and however the contracts lie to each other. So a member
belongs to the last contract of the outline that reaches over its start
(`Source.outline_attributed`).
-/

namespace ContractAudit

open Pattern

variable {text : List Char} {env : Surroundings} {hit : Hit} {b : Block} {o k : Nat}

/-- Does the contract reach over the offset? -/
def Contract.reachesOver (c : Contract) (k : Nat) : Bool :=
  c.start ≤ k && k < c.stop

namespace Draft

variable {d : Draft}

/-! ## The stack of contracts -/

theorem head?_openAt (k : Nat) : ∀ cs : List Contract, (openAt k cs).head? = cs.find? (k < ·.stop)
  | [] => rfl
  | c :: cs => by
    rw [openAt]
    by_cases hc : c.stop ≤ k
    · rw [if_pos hc, List.find?_cons_of_neg (by simpa using hc)]
      exact head?_openAt k cs
    · rw [if_neg hc, List.find?_cons_of_pos (by simpa using hc)]
      rfl

/-- What is dropped at an offset has ended at every later one. -/
theorem find?_openAt {m : Nat} (hle : k ≤ m) : ∀ cs : List Contract,
    (openAt k cs).find? (m < ·.stop) = cs.find? (m < ·.stop)
  | [] => rfl
  | c :: cs => by
    rw [openAt]
    by_cases hc : c.stop ≤ k
    · have hended : ¬m < c.stop := by omega
      rw [if_pos hc, List.find?_cons_of_neg (by simpa using hended)]
      exact find?_openAt hle cs
    · rw [if_neg hc]

/-- The contracts and members found so far start before the offset `o`, the contracts in order, the
latest first. From there on the stack tells the latest contract that has not ended, and every member
has the latest contract that reaches over its start. -/
structure Tracks (o : Nat) (d : Draft) : Prop where
  ordered : d.contracts.Pairwise fun c a => a.start < c.start
  contracts_behind : ∀ c ∈ d.contracts, c.start < o
  blocks_behind : ∀ b ∈ d.blocks, b.start < o
  around : ∀ k, o ≤ k → d.around.find? (k < ·.stop) = d.contracts.find? (k < ·.stop)
  innermost : ∀ b ∈ d.blocks, b.contract = d.contracts.find? (·.reachesOver b.start)

namespace Tracks

theorem mono (h : Tracks o d) (hle : o ≤ k) : Tracks k d where
  ordered := h.ordered
  contracts_behind c hc := Nat.lt_of_lt_of_le (h.contracts_behind c hc) hle
  blocks_behind b hb := Nat.lt_of_lt_of_le (h.blocks_behind b hb) hle
  around m hm := h.around m (Nat.le_trans hle hm)
  innermost := h.innermost

/-- Dropping what has ended changes nothing. -/
theorem openAt (h : Tracks o d) (hle : o ≤ k) :
    Tracks k { d with around := Draft.openAt k d.around } where
  ordered := h.ordered
  contracts_behind := (h.mono hle).contracts_behind
  blocks_behind := (h.mono hle).blocks_behind
  around m hm := by rw [find?_openAt hm, h.around m (Nat.le_trans hle hm)]
  innermost := h.innermost

/-- Where nothing has been found yet, the contracts that have not ended are those that reach over
the place. -/
theorem head?_openAt_eq (h : Tracks o d) (hle : o ≤ k) :
    (Draft.openAt k d.around).head? = d.contracts.find? (·.reachesOver k) := by
  have hreaches : ∀ c ∈ d.contracts, decide (k < c.stop) = c.reachesOver k := by
    intro c hc
    have hstart : c.start ≤ k := Nat.le_of_lt (Nat.lt_of_lt_of_le (h.contracts_behind c hc) hle)
    rw [Contract.reachesOver, decide_eq_true hstart, Bool.true_and]
  rw [head?_openAt, h.around k hle, ← List.head?_filter, ← List.head?_filter,
    List.filter_congr hreaches]

/-- A contract goes on top of the stack. It starts behind the members found before. -/
theorem addContract (h : Tracks o d) (hle : o ≤ k) {c : Contract} (hstart : c.start = k) :
    Tracks (k + 1) { d with contracts := c :: d.contracts, around := c :: d.around } where
  ordered := List.pairwise_cons.2 ⟨hstart ▸ (h.mono hle).contracts_behind, h.ordered⟩
  contracts_behind := List.forall_mem_cons.2
    ⟨by omega, (h.mono (Nat.le_succ_of_le hle)).contracts_behind⟩
  blocks_behind := (h.mono (Nat.le_succ_of_le hle)).blocks_behind
  around m hm := by rw [List.find?_cons, List.find?_cons, h.around m (by omega)]
  innermost b hb := by
    have hbehind : ¬c.start ≤ b.start := by
      have hlt := h.blocks_behind b hb
      omega
    rw [List.find?_cons_of_neg (by simp [Contract.reachesOver, hbehind])]
    exact h.innermost b hb

/-- A member takes its contract from the top of the stack. -/
theorem addBlock (h : Tracks o d) (hle : o ≤ k) (hstart : b.start = k)
    (hcontract : b.contract = (Draft.openAt k d.around).head?) :
    Tracks (k + 1) { d with around := Draft.openAt k d.around, blocks := b :: d.blocks } where
  ordered := h.ordered
  contracts_behind := (h.mono (Nat.le_succ_of_le hle)).contracts_behind
  blocks_behind := List.forall_mem_cons.2
    ⟨by omega, (h.mono (Nat.le_succ_of_le hle)).blocks_behind⟩
  around := ((h.openAt hle).mono (Nat.le_succ _)).around
  innermost := by
    refine List.forall_mem_cons.2 ⟨?_, h.innermost⟩
    rw [hcontract, hstart]
    exact h.head?_openAt_eq hle

end Tracks

/-! ## The pass over a text -/

theorem tracks_addContract (h : Tracks o d) (ho : o ≤ hit.start.offset) (length : Nat) :
    Tracks (hit.start.offset + 1) (d.addContract env length hit).1 := by
  unfold addContract
  split
  · exact h.addContract ho rfl
  · exact h.mono (Nat.le_succ_of_le ho)

theorem tracks_addMember (h : Tracks o d) (ho : o ≤ hit.start.offset) (length : Nat)
    (kind : BlockKind) : Tracks (hit.start.offset + 1) (d.addMember env length kind hit).1 := by
  simp only [addMember]
  split
  · exact (h.openAt ho).mono (Nat.le_succ _)
  · split
    · split
      · exact h.addBlock ho rfl rfl
      · exact h.addBlock ho rfl rfl
    · exact h.addBlock ho rfl rfl

theorem tracks_add (h : Tracks o d) (ho : o ≤ hit.start.offset) (length : Nat) :
    Tracks (hit.start.offset + 1) (d.add env length hit).1 := by
  have hpass : Tracks (hit.start.offset + 1) d := h.mono (Nat.le_succ_of_le ho)
  unfold add
  split
  · exact tracks_addContract h ho length
  · split
    · exact hpass
    · split
      · exact hpass
      · exact tracks_addMember h ho length _

end Draft

/-! ## All members of a text -/

/-- The outline is what has been found at the end of the text. -/
theorem Outline.exists_tracks (text : List Char) :
    ∃ d o, Draft.Tracks o d ∧ Outline.of text = ⟨d.contracts.reverse, d.blocks.reverse⟩ := by
  obtain ⟨d, o, -, hd, heq⟩ := Outline.of_induction (P := Draft.Tracks) text
    ⟨.nil, by simp, by simp, fun _ _ => rfl, by simp⟩
      fun env hit o d _ hstart hreads hle hext hd => by
      have hlt := (opens_declaration _ _ _ _ _ hstart hreads).2
      exact (Draft.tracks_add hd hle _).mono (Nat.le_trans hlt hext.le)
  exact ⟨d, o, hd, heq⟩

section Outline

variable {source : Source} {c c' : Contract}

theorem mem_contracts_of_mem_blocks (hb : b ∈ source.outline.blocks) (hc : b.contract = some c) :
    c ∈ source.outline.contracts := by
  obtain ⟨d, o, hd, heq⟩ := Outline.exists_tracks source.text.toList
  rw [Source.outline, heq] at hb ⊢
  rw [hd.innermost b (List.mem_reverse.1 hb)] at hc
  exact List.mem_reverse.2 (List.mem_of_find?_eq_some hc)

/-- No two contracts start at one place. -/
theorem contract_eq_of_start_eq (hc : c ∈ source.outline.contracts)
    (hc' : c' ∈ source.outline.contracts) (hstart : c.start = c'.start) : c = c' := by
  obtain ⟨d, o, hd, heq⟩ := Outline.exists_tracks source.text.toList
  rw [Source.outline, heq] at hc hc'
  have hsame :=
    List.Pairwise.forall_of_forall_of_flip (R := fun a c : Contract => a.start = c.start → a = c)
    (fun _ _ _ => rfl) (hd.ordered.imp fun hlt h => absurd h (Nat.ne_of_gt hlt))
    (hd.ordered.imp fun hlt h => absurd h (Nat.ne_of_lt hlt))
  exact hsame (List.mem_reverse.1 hc) (List.mem_reverse.1 hc') hstart

end Outline

/-- The contracts stand in the order of their starts, and each member belongs to the last of them
that reaches over its start, if there is one. -/
structure Outline.Attributed (o : Outline) : Prop where
  ordered : o.contracts.Pairwise fun a c => a.start < c.start
  innermost : ∀ b ∈ o.blocks, b.contract = (o.contracts.filter (·.reachesOver b.start)).getLast?

/-- In the outline of any source, members belong to the innermost contract around them. -/
theorem Source.outline_attributed (source : Source) : source.outline.Attributed := by
  obtain ⟨d, _, hd, heq⟩ := Outline.exists_tracks source.text.toList
  rw [Source.outline, heq]
  constructor
  · exact List.pairwise_reverse.2 hd.ordered
  · intro b hb
    rw [hd.innermost b (List.mem_reverse.1 hb), List.filter_reverse, List.getLast?_reverse,
      List.head?_filter]

-- The inner contract starts before the outer one ends, whose brace stands in a bracket, and ends
-- behind it.
example : (Source.ofChars
    ("contract A\x7bcontract B(\x7d)\x7bfunction f()\x7b\x7d\x7d" ++
      "function g()\x7b\x7d").toList).outline.blocks.map (fun b => (b.name, b.contractName)) =
    [("f", "B"), ("g", "")] := by
  decide +kernel

end ContractAudit
