import Mathlib.Data.List.Forall2
import ContractAudit.Proofs.Rule.Answers

/-!
# What the rule on reentrancy marks

The rule marks the first statement of an entry point that can be reentered (`Statement.reenters`),
if some statement behind it writes : one match, and none for what follows
(`Detector.exists_reentrancy_eq`). No call with a write behind it is lost by that : the rule has a
match for each member in which some call stands before some write (`Detector.reentrancy_finds`).
-/

namespace ContractAudit

namespace Statement

/-- A call of `transfer` or `send` that passes on a fixed amount of gas, and no other low-level
call. Both are what the patterns of `isFixedGasSend` and `Scope.lowLevelCall` recognise. -/
def isPlainSend (s : Statement) : Bool :=
  (isFixedGasSend s.chars).toOption == some true && !s.shows Scope.lowLevelCall

/-- An external call other than a plain send. -/
def reenters (s : Statement) : Bool :=
  s.isExternalCall && !s.isPlainSend

theorem reenters_of_lowLevelCall {s : Statement} (hcall : s.isExternalCall)
    (hlow : s.shows Scope.lowLevelCall) : s.reenters := by
  simp [reenters, isPlainSend, hcall, hlow]

end Statement

namespace Block

/-- The body of the member could be read, it can be called from outside, may write and has no
guard. -/
def isExposed (b : Block) : Bool :=
  b.isParsed && (b.isEntryPoint && !b.isView) && !b.isGuarded

/-- What is said of a call in the member that has a write behind it. -/
def reentrancyEvidence (b : Block) (target : String) (line : Int) : String :=
  s!"external call in {b.displayName} precedes write to `{target}` at line {line}"

end Block

namespace Detector

open Statement

/-! ## The first call and the first write -/

theorem canReenter_eq (s : Statement) : canReenter s = .ok s.reenters := by
  obtain ⟨fixed, hfixed⟩ := answers_isFixedGasSend s.chars
  cases hcall : s.isExternalCall
  · rw [canReenter, reenters, hcall, if_neg Bool.false_ne_true]
    rfl
  · rw [canReenter, reenters, isPlainSend, hcall, hfixed, if_pos rfl]
    cases fixed <;> rfl

theorem firstReentrance_append {call : Statement} (hcall : call.reenters) (later : List Statement) :
    ∀ {earlier : List Statement}, (∀ s ∈ earlier, s.reenters = false) →
      firstReentrance (earlier ++ call :: later) = .ok (some (call, later))
  | [], _ => by
    rw [List.nil_append, firstReentrance, canReenter_eq, hcall]
    rfl
  | s :: earlier, hearlier => by
    rw [List.cons_append, firstReentrance, canReenter_eq, hearlier s List.mem_cons_self]
    exact firstReentrance_append hcall later fun t ht => hearlier t (List.mem_cons_of_mem s ht)

theorem firstReentrance_eq_none : ∀ {ss : List Statement}, (∀ s ∈ ss, s.reenters = false) →
    firstReentrance ss = .ok none
  | [], _ => rfl
  | s :: ss, h => by
    rw [firstReentrance, canReenter_eq, h s List.mem_cons_self]
    exact firstReentrance_eq_none fun t ht => h t (List.mem_cons_of_mem s ht)

theorem firstWrite_append {write : Statement} {target : String}
    (hwrite : write.target = some target)
    (later : List Statement) : ∀ {mid : List Statement}, (∀ s ∈ mid, s.target = none) →
      firstWrite (mid ++ write :: later) = some (write, target)
  | [], _ => by rw [List.nil_append, firstWrite, hwrite]
  | s :: mid, hmid => by
    rw [List.cons_append, firstWrite, hmid s List.mem_cons_self]
    exact firstWrite_append hwrite later fun t ht => hmid t (List.mem_cons_of_mem s ht)

theorem firstWrite_eq_none : ∀ {ss : List Statement}, (∀ s ∈ ss, s.target = none) →
    firstWrite ss = none
  | [], _ => rfl
  | s :: ss, h => by
    rw [firstWrite, h s List.mem_cons_self]
    exact firstWrite_eq_none fun t ht => h t (List.mem_cons_of_mem s ht)

theorem exists_firstWrite_eq {write : Statement} (hwrite : write.target.isSome) :
    ∀ {ss : List Statement}, write ∈ ss → ∃ found, firstWrite ss = some found
  | s :: ss, hmem => by
    rw [firstWrite]
    cases hs : s.target with
    | some t => exact ⟨_, rfl⟩
    | none =>
      rcases List.mem_cons.1 hmem with rfl | hmem
      · simp [hs] at hwrite
      · exact exists_firstWrite_eq hwrite hmem

/-! ## One member -/

variable {b : Block}

theorem reentrancy_of_not_isExposed (source : Source) (h : b.isExposed = false) :
    reentrancy source [b] = .ok [] := by
  simp only [reentrancy, eachEntryPoint, eachParsed, eachBlock, List.mapM_cons, List.mapM_nil]
  cases hparsed : b.isParsed
  · rfl
  cases hentry : b.isEntryPoint && !b.isView
  · rfl
  have hguarded : b.isGuarded := by simpa [Block.isExposed, hparsed, hentry] using h
  rw [hguarded]
  rfl

/-- The answer on a member in which a first call has been looked for. -/
theorem reentrancy_of_isExposed (source : Source) (h : b.isExposed)
    {found : Option (Statement × List Statement)}
    (hfound : firstReentrance b.statements = .ok found) :
    reentrancy source [b] = .ok (found.bind fun c => (firstWrite c.2).map fun w =>
      c.1.matched "reentrancy" (b.reentrancyEvidence w.2 (source.lineOf w.1.start))).toList := by
  simp only [Block.isExposed, Bool.and_eq_true, Bool.not_eq_true'] at h
  obtain ⟨⟨hparsed, hentry, hview⟩, hguarded⟩ := h
  simp only [reentrancy, eachEntryPoint, eachParsed, eachBlock, List.mapM_cons, List.mapM_nil,
    hparsed, hentry, hview, hguarded, hfound, Bool.not_false, Bool.and_self, if_true,
    if_neg Bool.false_ne_true]
  cases found with
  | none => simp [bind, Except.bind, pure, Except.pure]
  | some c =>
    obtain ⟨call, later⟩ := c
    cases hwrite : firstWrite later with
    | none =>
      simp only [bind, Except.bind, pure, Except.pure, Option.bind_some, hwrite, Option.map_none,
        Option.toList_none, List.flatten_cons, List.flatten_nil, List.append_nil]
    | some w =>
      simp only [bind, Except.bind, pure, Except.pure, Option.bind_some, hwrite, Option.map_some,
        Option.toList_some, List.flatten_cons, List.flatten_nil, List.append_nil]
      rfl

/-- The rule marks the first statement that can be reentered, if it is one of the first `n` and one
behind these writes. -/
theorem exists_reentrancy_eq (source : Source) (hexposed : b.isExposed) {n : Nat}
    {call write : Statement} (hcall : (b.statements.take n).find? (·.reenters) = some call)
    (hmem : write ∈ b.statements.drop n) (hwrite : write.target.isSome) :
    ∃ evidence, reentrancy source [b] = .ok [call.matched "reentrancy" evidence] := by
  obtain ⟨hreenters, earlier, mid, htake, hearlier⟩ := List.find?_eq_some_iff_append.1 hcall
  have hstatements : b.statements = earlier ++ call :: (mid ++ b.statements.drop n) := by
    rw [← List.cons_append, ← List.append_assoc, ← htake, List.take_append_drop]
  have hfound := firstReentrance_append hreenters (mid ++ b.statements.drop n)
    fun s hs => by simpa using hearlier s hs
  rw [← hstatements] at hfound
  obtain ⟨first, hfirst⟩ := exists_firstWrite_eq hwrite (List.mem_append_right mid hmem)
  refine ⟨b.reentrancyEvidence first.2 (source.lineOf first.1.start), ?_⟩
  rw [reentrancy_of_isExposed source hexposed hfound, Option.bind_some, hfirst]
  rfl

end Detector

/-! ## Any members -/

namespace Block

variable {b : Block}

/-- A statement of the member can be reentered, and one behind it writes. -/
def CallsThenWrites (b : Block) : Prop :=
  ∃ j < b.statements.length, ∃ i < j,
    b.statements[i]?.any (·.reenters) ∧ b.statements[j]?.any (·.target.isSome)

instance : DecidablePred CallsThenWrites :=
  fun b => inferInstanceAs (Decidable (∃ j < b.statements.length, ∃ i < j,
    b.statements[i]?.any (·.reenters) ∧ b.statements[j]?.any (·.target.isSome)))

/-- The match marks the first statement of the member that can be reentered, and names what is
written by the first statement behind it that writes. -/
def Reentered (source : Source) (b : Block) (m : Match) : Prop :=
  ∃ earlier call mid write target later, b.statements = earlier ++ call :: (mid ++ write :: later) ∧
    call.reenters ∧ (∀ s ∈ earlier, s.reenters = false) ∧
    write.target = some target ∧ (∀ s ∈ mid, s.target = none) ∧
    m = call.matched "reentrancy" (b.reentrancyEvidence target (source.lineOf write.start))

theorem callsThenWrites_of_mem {earlier later : List Statement} {call s : Statement}
    (hstatements : b.statements = earlier ++ call :: later) (hcall : call.reenters) (hs : s ∈ later)
    (htarget : s.target.isSome) : b.CallsThenWrites := by
  obtain ⟨k, hk⟩ := List.mem_iff_getElem?.1 hs
  have hlt := (List.getElem?_eq_some_iff.1 hk).1
  refine ⟨earlier.length + (k + 1), ?_, earlier.length, by omega, ?_, ?_⟩
  · rw [hstatements, List.length_append, List.length_cons]
    omega
  · rw [hstatements, List.getElem?_append_right (Nat.le_refl _), Nat.sub_self]
    exact hcall
  · rw [hstatements, List.getElem?_append_right (Nat.le_add_right _ _), Nat.add_sub_cancel_left,
      List.getElem?_cons_succ, hk]
    exact htarget

/-- Where a call stands before a write, so does the first call. -/
theorem callsThenWrites_iff {earlier later : List Statement} {call : Statement}
    (hstatements : b.statements = earlier ++ call :: later) (hcall : call.reenters)
    (hearlier : ∀ s ∈ earlier, s.reenters = false) :
    b.CallsThenWrites ↔ ∃ s ∈ later, s.target.isSome := by
  constructor
  · rintro ⟨j, hj, i, hij, hi, hwrite⟩
    rw [hstatements] at hi hwrite
    -- The call at `i` is none of those before the first one.
    have hle : earlier.length ≤ i := by
      refine Nat.le_of_not_lt fun hlt => ?_
      rw [List.getElem?_append_left hlt, List.getElem?_eq_getElem hlt, Option.any_some,
        hearlier _ (List.getElem_mem hlt)] at hi
      cases hi
    obtain ⟨k, rfl⟩ : ∃ k, j = earlier.length + (k + 1) := ⟨j - earlier.length - 1, by omega⟩
    rw [List.getElem?_append_right (Nat.le_add_right _ _), Nat.add_sub_cancel_left,
      List.getElem?_cons_succ, Option.any_eq_true] at hwrite
    obtain ⟨s, hs, htarget⟩ := hwrite
    exact ⟨s, List.mem_of_getElem? hs, htarget⟩
  · rintro ⟨s, hs, htarget⟩
    exact callsThenWrites_of_mem hstatements hcall hs htarget

theorem not_callsThenWrites (h : ∀ s ∈ b.statements, s.reenters = false) : ¬b.CallsThenWrites := by
  rintro ⟨-, -, i, -, hi, -⟩
  obtain ⟨s, hs, hreenters⟩ := (Option.any_eq_true _ _).1 hi
  rw [h s (List.mem_of_getElem? hs)] at hreenters
  cases hreenters

end Block

namespace Detector

/-- A member has one match if a call in it stands before a write, and else none. -/
theorem exists_reentrancy_singleton (source : Source) (b : Block) :
    ∃ ms, reentrancy source [b] = .ok ms ∧
      ((b.isExposed ∧ b.CallsThenWrites) ∧ (∃ m, ms = [m] ∧ b.Reentered source m) ∨
        ¬(b.isExposed ∧ b.CallsThenWrites) ∧ ms = []) := by
  cases hexposed : b.isExposed with
  | false =>
    exact ⟨[], reentrancy_of_not_isExposed source hexposed, Or.inr ⟨fun h => by simp at h, rfl⟩⟩
  | true =>
    cases hcall : b.statements.find? (·.reenters) with
    | none =>
      have hnone : ∀ s ∈ b.statements, s.reenters = false := by simpa using hcall
      refine ⟨[], ?_, Or.inr ⟨fun h => Block.not_callsThenWrites hnone h.2, rfl⟩⟩
      rw [reentrancy_of_isExposed source hexposed (firstReentrance_eq_none hnone)]
      rfl
    | some call =>
      obtain ⟨hreenters, earlier, later, hstatements, hearlier⟩ :=
        List.find?_eq_some_iff_append.1 hcall
      have hfree : ∀ s ∈ earlier, s.reenters = false := by simpa using hearlier
      have hiff := Block.callsThenWrites_iff hstatements hreenters hfree
      have hanswer := reentrancy_of_isExposed source hexposed
        (hstatements ▸ firstReentrance_append hreenters later hfree)
      rw [Option.bind_some] at hanswer
      cases hwrite : later.find? (·.target.isSome) with
      | none =>
        have hnone : ∀ s ∈ later, s.target = none := by simpa using hwrite
        refine ⟨[], ?_, Or.inr ⟨fun h => ?_, rfl⟩⟩
        · rw [hanswer, firstWrite_eq_none hnone]
          rfl
        · obtain ⟨s, hs, htarget⟩ := hiff.1 h.2
          simp [hnone s hs] at htarget
      | some write =>
        obtain ⟨htarget, mid, behind, hlater, hmid⟩ := List.find?_eq_some_iff_append.1 hwrite
        obtain ⟨target, hsome⟩ := Option.isSome_iff_exists.1 htarget
        have hquiet : ∀ s ∈ mid, s.target = none := by simpa using hmid
        rw [hlater, firstWrite_append hsome behind hquiet] at hanswer
        refine ⟨_, hanswer, Or.inl ⟨⟨rfl, hiff.2 ⟨write, by simp [hlater], htarget⟩⟩, _, rfl, ?_⟩⟩
        exact ⟨earlier, call, mid, write, target, behind, hlater ▸ hstatements, hreenters, hfree,
          hsome, hquiet,
          rfl⟩

/-- The rule finds one match, in the order of the members, for each one that is exposed and in which
a call stands before a write, and no others. -/
theorem reentrancy_finds (source : Source) (bs : List Block) :
    ∃ ms, reentrancy source bs = .ok ms ∧
      List.Forall₂ (Block.Reentered source)
        (bs.filter fun b => b.isExposed ∧ b.CallsThenWrites) ms := by
  have hlocal : ∀ {b bs ms ms'}, reentrancy source [b] = .ok ms → reentrancy source bs = .ok ms' →
      reentrancy source (b :: bs) = .ok (ms ++ ms') := by
    unfold reentrancy eachEntryPoint eachParsed
    exact eachBlock_cons
  induction bs with
  | nil => exact ⟨[], rfl, .nil⟩
  | cons b bs ih =>
    obtain ⟨ms', hbs, hall⟩ := ih
    obtain ⟨ms, hb, ⟨hcalls, m, rfl, hm⟩ | ⟨hcalls, rfl⟩⟩ := exists_reentrancy_singleton source b
    · refine ⟨m :: ms', hlocal hb hbs, ?_⟩
      rw [List.filter_cons, if_pos (decide_eq_true hcalls)]
      exact .cons hm hall
    · refine ⟨ms', hlocal hb hbs, ?_⟩
      rw [List.filter_cons, if_neg (by simpa using hcalls)]
      exact hall

end Detector

end ContractAudit
