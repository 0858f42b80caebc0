import ContractAudit.Proofs.Contract.Scope
import ContractAudit.Proofs.Rule.Reentrancy
import ContractAudit.Proofs.Rule.Sign

/-!
# State writes behind a call

The rule on reentrancy asks a statement for the variable it writes. A state write that splitting a
body finds in a plain statement names the variable, but one it finds in an `assembly` block does not
(`Statement.TellsWrite`, `Body.tellsWrite_statements`). So a low-level call of an exposed member
that has state writes behind it is marked, unless all of these are `assembly` blocks
(`Source.reentrancy_marks_or_assembly`).
-/

namespace ContractAudit

open Pattern

/-! ## The word at the start of a block -/

theorem Cursor.offset_le_advance : ∀ (n : Nat) (c : Cursor), c.offset ≤ (c.advance n).offset
  | 0, _ => Nat.le_refl _
  | _ + 1, ⟨_, _, []⟩ => Nat.le_refl _
  | n + 1, ⟨i, _, a :: r⟩ => Nat.le_trans (Nat.le_succ i) (offset_le_advance n ⟨i + 1, some a, r⟩)

namespace Body

section StatementEnd

variable {env : Surroundings} {stop : Nat}

theorem offset_le_statementEnd :
    ∀ (fuel : Nat) (c : Cursor), c.offset ≤ (statementEnd env stop fuel c).1.offset
  | 0, _ => Nat.le_refl _
  | fuel + 1, c => by
    have hgo : ∀ n, c.offset ≤ (statementEnd env stop fuel (c.advance n)).1.offset := fun n =>
      Nat.le_trans (c.offset_le_advance n) (offset_le_statementEnd fuel _)
    have hend : c.offset ≤ (c.advanceTo stop).offset := c.offset_le_advance _
    have hjump : ∀ k, c.offset ≤ (statementEnd env stop fuel (c.advanceTo (k + 1))).1.offset :=
      fun k => hgo _
    simp only [statementEnd]
    split
    · split
      · exact Nat.le_refl _
      · exact Nat.le_refl _
      · exact Nat.le_refl _
      · cases env.parens.close? c.offset with
        | none => exact hend
        | some k => by_cases hks : k < stop <;> simp [hks, hjump, hend]
      · split
        · cases env.braces.close? c.offset with
          | none => exact hend
          | some k => by_cases hks : k < stop <;> simp [hks, hjump, hend]
        · exact Nat.le_refl _
      · exact hgo 1
    · exact Nat.le_refl _

/-- A statement goes on over a word. -/
theorem add_length_le_statementEnd {r : List Char} :
    ∀ {w : List Char} {fuel i : Nat} {b : Option Char},
    (∀ a ∈ w, isWordChar a) → (statementEnd env stop fuel ⟨i, b, w ++ r⟩).2.isSome →
      i + w.length ≤ (statementEnd env stop fuel ⟨i, b, w ++ r⟩).1.offset
  | [], fuel, i, b, _, _ => offset_le_statementEnd fuel ⟨i, b, r⟩
  | a :: w, 0, i, b, _, hsome => by simp [statementEnd] at hsome
  | a :: w, fuel + 1, i, b, hw, hsome => by
    obtain ⟨ha, hw⟩ := List.forall_mem_cons.1 hw
    have hmark : ∀ m, isWordChar m = false → ¬m = a := fun m hm heq => by simp [← heq, hm] at ha
    have hstep : (Cursor.mk i b (a :: w ++ r)).offset < stop →
        statementEnd env stop (fuel + 1) ⟨i, b, a :: w ++ r⟩ =
        statementEnd env stop fuel ⟨i + 1, some a, w ++ r⟩ := by
      intro hlt
      rw [statementEnd, if_pos hlt]
      split
      next h => simp [Cursor.peek] at h
      next h => exact absurd (Option.some.inj h).symm (hmark ';' (by decide))
      next h => exact absurd (Option.some.inj h).symm (hmark '}' (by decide))
      next h => exact absurd (Option.some.inj h).symm (hmark '(' (by decide))
      next h => exact absurd (Option.some.inj h).symm (hmark '{' (by decide))
      next => rfl
    by_cases hlt : i < stop
    · rw [hstep hlt] at hsome ⊢
      have hle := add_length_le_statementEnd hw hsome
      rw [List.length_cons]
      omega
    · rw [statementEnd, if_neg hlt] at hsome
      simp at hsome

end StatementEnd

theorem exists_rest_of_assemblyWord {c : Cursor} (h : (assemblyWord.at? c).isSome) :
    ∃ r, c.rest = "assembly".toList ++ r ∧ r.head?.any isWordChar = false := by
  obtain ⟨hit, hat⟩ := Option.isSome_iff_exists.1 h
  obtain ⟨e, rs, ⟨hpast, -⟩, hedge, -, -⟩ := (reads_of_at? hat).2
  obtain ⟨i, b, cs⟩ := c
  have hword := Cursor.take_of_past? _ hpast
  obtain ⟨r, rfl⟩ : ∃ r, cs = "assembly".toList ++ r :=
    ⟨cs.drop 8, (List.take_append_drop 8 cs).symm.trans (congrArg (· ++ _) hword)⟩
  obtain rfl : (⟨i + 8, some 'y', r⟩ : Cursor) = e := Option.some.inj hpast
  refine ⟨r, rfl, ?_⟩
  cases hnext : r.head?.any isWordChar with
  | false => rfl
  | true =>
    have hedge : (isWordChar 'y' != r.head?.any isWordChar) = true := hedge
    rw [hnext] at hedge
    exact absurd hedge (by decide)

end Body

/-- A word at the start of a text is not touched by blanks that are cut off at the end. -/
theorem startsWithWord_trimRight {w : String} (hw : isIdentifier w.toList) {r : List Char}
    (hr : r.head?.any isWordChar = false) :
      Written.startsWithWord (trimRight (w.toList ++ r)) w := by
  obtain ⟨bs, happend, hbs⟩ := exists_trimRight_append (w.toList ++ r)
  rcases List.append_eq_append_iff.1 happend with ⟨as, htrim, rfl⟩ | ⟨as, hword, rfl⟩
  · refine Written.startsWithWord_iff.2 ⟨as, htrim, ?_⟩
    cases as with
    | nil => rfl
    | cons a as => exact hr
  · cases as with
    | nil =>
      rw [List.append_nil] at hword
      exact Written.startsWithWord_iff.2 ⟨[], hword.symm.trans (List.append_nil _).symm, rfl⟩
    | cons a as =>
      have hmem : a ∈ w.toList := hword ▸ List.mem_append_right _ List.mem_cons_self
      have hchar := isWordChar_of_isIdentifier hw a hmem
      have hblank := isWordChar_of_isBlank (hbs a (List.mem_append_left _ List.mem_cons_self))
      exact absurd (hblank.symm.trans hchar) Bool.false_ne_true

/-! ## Writes without a variable -/

/-- A state write without the variable that is written is an `assembly` block. -/
def Statement.TellsWrite (s : Statement) : Prop :=
  s.kind = .stateWrite → s.target = none → Written.startsWithWord s.chars "assembly"

namespace Body

variable {env : Surroundings} {stop : Nat}

theorem tellsWrite_assembly {c : Cursor} {fuel : Nat} (hword : (assemblyWord.at? c).isSome)
    (hend : (statementEnd env stop fuel c).2.isSome) {kind : StatementKind} {n depth : Nat} :
    (statement kind c ((statementEnd env stop fuel c).1.advanceTo n) depth none).TellsWrite := by
  intro _ _
  obtain ⟨r, hrest, hr⟩ := exists_rest_of_assemblyWord hword
  obtain ⟨i, b, cs⟩ := c
  obtain rfl : cs = "assembly".toList ++ r := hrest
  have hle := add_length_le_statementEnd (by decide) hend
  generalize (statementEnd env stop fuel ⟨i, b, "assembly".toList ++ r⟩).1 = d at hle
  have hbehind := d.offset_le_advance (n - d.offset)
  have hchars : (statement kind ⟨i, b, "assembly".toList ++ r⟩ (d.advanceTo n) depth none).chars =
      trimRight ("assembly".toList ++
        r.take ((d.advanceTo n).offset - i - "assembly".toList.length)) := by
    rw [Statement.chars, statement]
    dsimp only
    rw [String.toList_ofList, Cursor.textTo, List.take_append, List.take_of_length_le]
    show _ ≤ (d.advance (n - d.offset)).offset - i
    omega
  rw [hchars]
  refine startsWithWord_trimRight (by decide) ?_
  rw [List.head?_take]
  split
  · rfl
  · exact hr

theorem tellsWrite_statements (env : Surroundings) (scope : Scope) (c : Cursor) (stop : Nat) :
    ∀ s ∈ statements env scope c stop, s.TellsWrite := by
  intro s hs
  cases made_statements env scope c stop s hs with
  | header => exact fun hkind => by cases hkind
  | assembly hword hend => exact tellsWrite_assembly hword hend
  | plain scope c d =>
    intro hkind htarget
    have hsome : (scope.classify (trimRight (c.textTo d))).2.1.isSome :=
      Scope.isSome_target_classify hkind
    have hnone : (scope.classify (trimRight (c.textTo d))).2.1 = none := htarget
    simp [hnone] at hsome

end Body

/-- In the members of a source, only `assembly` blocks write without a variable. -/
theorem Outline.tellsWrite_of_mem {text : List Char} {b : Block} (hb : b ∈ (Outline.of text).blocks)
    (hparsed : b.isParsed) : ∀ s ∈ b.statements, s.TellsWrite := by
  obtain ⟨env, -, horigin⟩ := origin_of_mem hb
  cases horigin with
  | faulty hfault => simp [hfault] at hparsed
  | parsed scope _ _ _ _ hstatements =>
    rw [hstatements]
    exact Body.tellsWrite_statements env scope _ _

/-! ## Calls with writes behind them -/

namespace Detector

/-- What the rule finds in a member is among what it finds in all of them. -/
theorem exists_reentrancy_superset (source : Source) : ∀ bs : List Block,
    ∃ ms, reentrancy source bs = .ok ms ∧
      ∀ b ∈ bs, ∀ own, reentrancy source [b] = .ok own → ∀ m ∈ own, m ∈ ms
  | [] => ⟨[], rfl, List.forall_mem_nil _⟩
  | b :: bs => by
    obtain ⟨ms, hms, hsub⟩ := exists_reentrancy_superset source bs
    obtain ⟨own, hown, -⟩ := exists_reentrancy_singleton source b
    have hboth : reentrancy source (b :: bs) = .ok (own ++ ms) := by
      unfold reentrancy eachEntryPoint eachParsed at hown hms ⊢
      exact eachBlock_cons hown hms
    refine ⟨own ++ ms, hboth, fun b' hb' own' hown' m hm => ?_⟩
    rcases List.mem_cons.1 hb' with rfl | hb'
    · obtain rfl := Except.ok.inj (hown.symm.trans hown')
      exact List.mem_append_left _ hm
    · exact List.mem_append_right _ (hsub b' hb' own' hown' m hm)

end Detector

/-- A low-level call of an exposed member is marked, or else nothing is marked in the member, no
statement behind the call names a variable that it writes, and the state writes among them are
`assembly` blocks. -/
theorem Source.reentrancy_marks_or_assembly (source : Source) {b : Block}
    (hb : b ∈ source.outline.blocks)
    (hexposed : b.isExposed) {earlier later : List Statement} {call : Statement}
    (hstatements : b.statements = earlier ++ call :: later) (hcall : call.isExternalCall)
    (hlow : call.shows Scope.lowLevelCall) :
    ∃ ms, Detector.reentrancy source source.outline.blocks = .ok ms ∧
      ((∃ m ∈ ms, b.Reentered source m) ∨ Detector.reentrancy source [b] = .ok [] ∧
        ∀ s ∈ later, s.target = none ∧
          (s.kind = .stateWrite → Written.startsWithWord s.chars "assembly")) := by
  have hparsed : b.isParsed := by
    simp only [Block.isExposed, Bool.and_eq_true] at hexposed
    exact hexposed.1.1
  have htells := Outline.tellsWrite_of_mem hb hparsed
  obtain ⟨ms, hms, hsub⟩ := Detector.exists_reentrancy_superset source source.outline.blocks
  obtain ⟨own, hown, hcases⟩ := Detector.exists_reentrancy_singleton source b
  refine ⟨ms, hms, ?_⟩
  rcases hcases with ⟨-, m, rfl, hm⟩ | ⟨hnone, rfl⟩
  · exact Or.inl ⟨m, hsub b hb _ hown m (List.mem_singleton_self m), hm⟩
  · refine Or.inr ⟨hown, fun s hs => ?_⟩
    have htarget : s.target = none := by
      cases htarget : s.target with
      | none => rfl
      | some t =>
        have hreenters := Statement.reenters_of_lowLevelCall hcall hlow
        have hsome : s.target.isSome := Option.isSome_of_mem htarget
        exact absurd ⟨hexposed, Block.callsThenWrites_of_mem hstatements hreenters hs hsome⟩ hnone
    exact ⟨htarget, fun hkind => htells s (by simp [hstatements, hs]) hkind htarget⟩

namespace Source

/-- Behind the call of this source stand two writes, and the first of them is an `assembly`
block. -/
def settlingTwice : Source :=
  Source.ofChars
    ("contract C\x7buint y;function f(A a)public\x7ba.call(x);" ++
      "assembly\x7bsstore(0,1)\x7dy=1;\x7d\x7d").toList

/-- The statements of `settlingTwice`. -/
def twiceSettled : List Statement :=
  [⟨.externalCall, 40, 49, "a.call(x)", 0, none⟩,
    ⟨.stateWrite, 50, 71, "assembly\x7bsstore(0,1)\x7d", 0, none⟩,
    ⟨.stateWrite, 71, 74, "y=1", 0, some "y"⟩]

theorem reentrancy_marks_settlingTwice :
    ∃ b ∈ settlingTwice.outline.blocks, b.isExposed ∧ b.statements = twiceSettled ∧
      ∃ ms, Detector.reentrancy settlingTwice settlingTwice.outline.blocks = .ok ms ∧
        ∃ m ∈ ms, b.Reentered settlingTwice m := by
  have hblocks : (true, twiceSettled) ∈ settlingTwice.outline.blocks.map fun b =>
      (b.isExposed, b.statements) := by
    decide +kernel
  obtain ⟨b, hb, heq⟩ := List.mem_map.1 hblocks
  obtain ⟨hexposed, hstatements⟩ := Prod.mk.inj heq
  have happend : b.statements = [] ++ _ :: _ := hstatements
  obtain ⟨ms, hms, hmarked | ⟨-, hlater⟩⟩ :=
    reentrancy_marks_or_assembly settlingTwice hb hexposed happend rfl (by decide)
  · exact ⟨b, hb, hexposed, hstatements, ms, hms, hmarked⟩
  · obtain ⟨htarget, -⟩ := hlater ⟨.stateWrite, 71, 74, "y=1", 0, some "y"⟩ (by decide)
    cases htarget

/-- The only write behind the call of this source is an `assembly` block. -/
def settlingByAssembly : Source :=
  Source.ofChars
    "contract C\x7bfunction f(A a)public\x7ba.call(x);assembly\x7bsstore(0,1)\x7d\x7d\x7d".toList

/-- A state write behind a call does not make a match. -/
theorem reentrancy_passes_assembly :
    settlingByAssembly.outline.blocks.map (fun b =>
      (b.isExposed, b.statements.map fun s => (s.kind, s.text))) =
      [(true, [(.externalCall, "a.call(x)"), (.stateWrite, "assembly\x7bsstore(0,1)\x7d")])] ∧
    Detector.reentrancy settlingByAssembly settlingByAssembly.outline.blocks = .ok [] := by
  decide +kernel

end Source

end ContractAudit
