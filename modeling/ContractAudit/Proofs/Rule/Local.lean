import ContractAudit.Proofs.Contract.Enclosing
import ContractAudit.Proofs.Rule.Unchecked
import ContractAudit.Proofs.Written.Version

/-!
# Rules that look at one member after the other

Most built-in rules are local : what they find in the members of a source is what they find in each
member alone, one after the other, and all but one of them pass over members that could not be read
(`Rule.LocalIn`). Two of them keep in a table which contracts mention a word. Contracts of a source
are known by where they stand, so what the table says is what would be found afresh
(`Detector.Recalls`, `Detector.recalls_mentionRun`).
-/

namespace ContractAudit

variable {source : Source} {b : Block} {c : Contract}

namespace Detector

/-! ## What is remembered of contracts -/

section Memory

variable {p : Pattern} {asks : Block → Bool} {f : Source → Block → Option Match} {known : Mentions}
  {bs : List Block}

/-- The run over members from the start on. -/
def mentionRun (p : Pattern) (asks : Block → Bool) (f : Source → Block → Option Match)
    (source : Source) (bs : List Block) : List Match × Mentions :=
  bs.foldl (mentionStep p asks f source) ([], [])

/-- The match on a member that is asked about, if its contract does not mention the pattern. -/
def afresh (p : Pattern) (asks : Block → Bool) (f : Source → Block → Option Match) (source : Source)
    (b : Block) : Option Match :=
  match b.contract with
  | none => none
  | some c => if asks b && !mentions p source c then f source b else none

theorem afresh_eq_none (h : asks b = false) : afresh p asks f source b = none := by
  unfold afresh
  split
  · rfl
  · rw [h, Bool.false_and, if_neg Bool.false_ne_true]

theorem unlessMentioned_eq :
    unlessMentioned p asks f source bs = .ok (mentionRun p asks f source bs).1.reverse :=
  rfl

/-- What is known of the contracts of the source is right. -/
def Recalls (p : Pattern) (source : Source) (known : Mentions) : Prop :=
  ∀ c ∈ source.outline.contracts, ∀ answer, known.lookup (c.start, c.stop) = some answer →
    answer = mentions p source c

theorem recalls_nil : Recalls p source [] := by
  intro c hc answer hlookup
  cases hlookup

theorem recalls_recallMentions (h : Recalls p source known) (hc : c ∈ source.outline.contracts) :
    (recallMentions p source c known).1 = mentions p source c ∧
      Recalls p source (recallMentions p source c known).2 := by
  unfold recallMentions
  split
  next answer hlookup => exact ⟨h c hc answer hlookup, h⟩
  next =>
    refine ⟨rfl, fun c' hc' answer hlookup => ?_⟩
    by_cases hkey : (c'.start, c'.stop) = (c.start, c.stop)
    · obtain rfl := contract_eq_of_start_eq hc' hc (congrArg Prod.fst hkey)
      rw [List.lookup_cons_self] at hlookup
      exact (Option.some.inj hlookup).symm
    · rw [List.lookup_cons, beq_false_of_ne hkey] at hlookup
      exact h c' hc' answer hlookup

theorem mentionStep_eq {run : List Match × Mentions} (h : Recalls p source run.2)
    (hb : b ∈ source.outline.blocks) :
    (mentionStep p asks f source run b).1 = (afresh p asks f source b).toList ++ run.1 ∧
      Recalls p source (mentionStep p asks f source run b).2 := by
  unfold mentionStep afresh
  cases hc : b.contract with
  | none => exact ⟨rfl, h⟩
  | some c =>
    obtain ⟨hanswer, hknown⟩ := recalls_recallMentions h (mem_contracts_of_mem_blocks hb hc)
    dsimp only
    cases asks b with
    | false => exact ⟨rfl, h⟩
    | true =>
      rw [if_pos rfl, Bool.true_and, hanswer]
      refine ⟨?_, hknown⟩
      cases mentions p source c <;> rfl

theorem foldl_mentionStep : ∀ {bs : List Block} {run : List Match × Mentions},
    bs ⊆ source.outline.blocks → Recalls p source run.2 →
      (bs.foldl (mentionStep p asks f source) run).1.reverse =
        run.1.reverse ++ bs.filterMap (afresh p asks f source) ∧
        Recalls p source (bs.foldl (mentionStep p asks f source) run).2
  | [], run, _, h => ⟨(List.append_nil _).symm, h⟩
  | b :: bs, run, hbs, h => by
    obtain ⟨hb, hbs⟩ := List.cons_subset.1 hbs
    obtain ⟨hfound, hknown⟩ : (mentionStep p asks f source run b).1 = _ ∧ _ := mentionStep_eq h hb
    obtain ⟨hrest, hknown'⟩ := foldl_mentionStep hbs hknown
    refine ⟨?_, hknown'⟩
    rw [List.foldl_cons, hrest, hfound, List.filterMap_cons]
    cases afresh p asks f source b with
    | none => rfl
    | some m => simp

/-- At every member, what is known of contracts is right. -/
theorem recalls_mentionRun (hbs : bs ⊆ source.outline.blocks) :
    Recalls p source (mentionRun p asks f source bs).2 :=
  (foldl_mentionStep hbs recalls_nil).2

theorem unlessMentioned_eq_filterMap (hbs : bs ⊆ source.outline.blocks) :
    unlessMentioned p asks f source bs = .ok (bs.filterMap (afresh p asks f source)) := by
  rw [unlessMentioned_eq, mentionRun, (foldl_mentionStep hbs recalls_nil).1]
  rfl

end Memory

/-! ## Detectors that look at one member after the other -/

/-- What the detector finds in members of the source is what it finds in each alone, one after the
other. -/
def FindsEach (detect : Detector) (source : Source) (own : Block → List Match) : Prop :=
  ∀ bs, bs ⊆ source.outline.blocks → detect source bs = .ok (bs.flatMap own)

/-- The detector looks at one member after the other, and passes over those that could not be
read. -/
def IsLocal (detect : Detector) (source : Source) : Prop :=
  ∃ own, detect.FindsEach source own ∧ ∀ b, b.isParsed = false → own b = []

section FindsEach

variable {f : Source → Block → Except DetectorFault (List Match)}

/-- A detector that answers finds the same in each member, whatever the others are. -/
theorem exists_eachBlock_eq (h : (eachBlock f).Total) (source : Source) :
    ∃ own, (∀ b, eachBlock f source [b] = .ok (own b)) ∧
      ∀ bs, eachBlock f source bs = .ok (bs.flatMap own) := by
  choose own hown using fun b => h source [b]
  refine ⟨own, hown, fun bs => ?_⟩
  induction bs with
  | nil => rfl
  | cons b bs ih =>
    rw [List.flatMap_cons]
    exact eachBlock_cons (hown b) ih

theorem isLocal_eachParsed (h : (eachParsed f).Total) (source : Source) :
    (eachParsed f).IsLocal source := by
  obtain ⟨own, hown, heach⟩ := exists_eachBlock_eq h source
  refine ⟨own, fun bs _ => heach bs, fun b hb => ?_⟩
  have hnone : eachParsed f source [b] = .ok [] := by
    simp [eachParsed, eachBlock, hb]
    rfl
  exact Except.ok.inj ((hown b).symm.trans hnone)

theorem isLocal_pure (own : Source → Block → List Match) (source : Source) :
    (eachParsed fun s b => pure (own s b)).IsLocal source :=
  isLocal_eachParsed (total_eachParsed fun _ _ => answers_pure _) source

theorem isLocal_entryPoints (h : (eachEntryPoint f).Total) (source : Source) :
    (eachEntryPoint f).IsLocal source :=
  isLocal_eachParsed h source

theorem isLocal_entryPoints_pure (own : Source → Block → List Match) (source : Source) :
    (eachEntryPoint fun s b => pure (own s b)).IsLocal source :=
  isLocal_entryPoints (total_eachEntryPoint fun _ _ => answers_pure _) source

end FindsEach

theorem IsLocal.congr {detect detect' : Detector} (h : detect'.IsLocal source)
    (heq : ∀ bs, detect source bs = detect' source bs) : detect.IsLocal source := by
  obtain ⟨own, heach, hparsed⟩ := h
  exact ⟨own, fun bs hbs => (heq bs).trans (heach bs hbs), hparsed⟩

theorem isLocal_unlessMentioned {p : Pattern} {asks : Block → Bool}
    {f : Source → Block → Option Match} (hasks : ∀ b, b.isParsed = false → asks b = false) :
      (unlessMentioned p asks f).IsLocal source := by
  refine ⟨fun b => (afresh p asks f source b).toList, fun bs hbs => ?_, fun b hb => ?_⟩
  · rw [unlessMentioned_eq_filterMap hbs, List.filterMap_eq_flatMap_toList]
  · show (afresh p asks f source b).toList = []
    rw [afresh_eq_none (hasks b hb)]
    rfl

theorem isLocal_signatureReplay (source : Source) : signatureReplay.IsLocal source :=
  (isLocal_pure _ source).congr fun _ => rfl

theorem isLocal_uncheckedArithmetic {old : Bool} (hold : isLegacy source.text.toList = .ok old) :
    uncheckedArithmetic.IsLocal source := by
  refine (isLocal_pure (arithmeticIn inOutermost (old && !safeMath.occursIn source.text.toList))
    source).congr ?_
  intro bs
  rw [uncheckedArithmetic_eq, arithmeticWith, hold]

theorem isLocal_missingPauseGuard (source : Source) : missingPauseGuard.IsLocal source :=
  isLocal_unlessMentioned fun b hb => by simp [hb]

theorem isLocal_singleOwnerCritical (source : Source) : singleOwnerCritical.IsLocal source :=
  isLocal_unlessMentioned fun b hb => by simp [hb]

end Detector

/-! ## The built-in rules -/

/-- The answer that consists of the given matches. -/
def Evaluation.found (ms : List Match) : Evaluation :=
  ⟨.items (ms.map .found), []⟩

/-- In the members of the source the rule finds what it finds in each member alone, one after the
other : in the member `b` the matches `own b`. Unless it looks at the text of members that could not
be read, these may as well be left out. -/
structure Rule.LocalIn (r : Rule) (source : Source) (own : Block → List Match) : Prop where
  members : r.evaluate source source.outline.blocks = .found (source.outline.blocks.flatMap own)
  member : ∀ b ∈ source.outline.blocks, r.evaluate source [b] = .found (own b)
  unparsed : r.id ≠ "tx-origin-auth" → ∀ b ∈ source.outline.blocks, b.isParsed = false →
    r.evaluate source [b] = .found []
  parsed : r.id ≠ "tx-origin-auth" →
    r.evaluate source (source.outline.blocks.filter (·.isParsed)) =
      r.evaluate source source.outline.blocks

namespace Detector

variable {detect : Detector} {own : Block → List Match}

theorem FindsEach.evaluate (h : detect.FindsEach source own) {bs : List Block}
    (hbs : bs ⊆ source.outline.blocks) : detect.evaluate source bs = .found (bs.flatMap own) := by
  rw [Detector.evaluate, h bs hbs]
  rfl

theorem FindsEach.evaluate_singleton (h : detect.FindsEach source own)
    (hb : b ∈ source.outline.blocks) : detect.evaluate source [b] = .found (own b) := by
  rw [h.evaluate (List.cons_subset.2 ⟨hb, List.nil_subset _⟩), List.flatMap_singleton]

/-- Members in which nothing is found may be left out. -/
theorem flatMap_filter_isParsed (hown : ∀ b, b.isParsed = false → own b = []) : ∀ bs : List Block,
    (bs.filter (·.isParsed)).flatMap own = bs.flatMap own
  | [] => rfl
  | b :: bs => by
    cases hb : b.isParsed with
    | true =>
      rw [List.filter_cons_of_pos hb, List.flatMap_cons, List.flatMap_cons,
        flatMap_filter_isParsed hown bs]
    | false =>
      rw [List.filter_cons_of_neg (by simp [hb]), List.flatMap_cons, hown b hb,
        flatMap_filter_isParsed hown bs]
      rfl

theorem IsLocal.localIn (h : detect.IsLocal source) {r : Rule} (hr : r.evaluate = detect.evaluate) :
    ∃ own, r.LocalIn source own := by
  obtain ⟨own, heach, hown⟩ := h
  refine ⟨own, ?_, fun b hb => ?_, fun _ b hb hparsed => ?_, fun _ => ?_⟩
  · rw [hr, heach.evaluate (List.Subset.refl _)]
  · rw [hr, heach.evaluate_singleton hb]
  · rw [hr, heach.evaluate_singleton hb, hown b hparsed]
  · rw [hr, heach.evaluate (List.filter_subset_self _), heach.evaluate (List.Subset.refl _),
      flatMap_filter_isParsed hown]

/-- The rule that also looks at the text of members that could not be read. -/
theorem exists_localIn_txOriginAuth (source : Source) :
    ∃ own, Rule.txOriginAuth.LocalIn source own := by
  obtain ⟨own, -, heach⟩ := exists_eachBlock_eq
    (show txOriginAuth.Total from total_eachBlock fun _ _ => answers_pure _) source
  have hfinds : txOriginAuth.FindsEach source own := fun bs _ => heach bs
  exact ⟨own, hfinds.evaluate (List.Subset.refl _), fun b hb => hfinds.evaluate_singleton hb,
    fun hid => absurd rfl hid, fun hid => absurd rfl hid⟩

end Detector

/-- The built-in rules that do not look at one member after the other. -/
def Rule.acrossMembers : List String :=
  ["missing-access-modifier", "floating-pragma", "encode-packed-collision"]

/-- The rule fails alike on all members, since a version of the compiler has too many digits. -/
def Rule.FailsOnVersion (r : Rule) (source : Source) : Prop :=
  r.id = "unchecked-arithmetic" ∧ ∃ fault, isLegacy source.text.toList = .error fault ∧
    ∀ bs, r.evaluate source bs = ⟨.failed "ValueError" fault.message, []⟩

theorem Rule.failsOnVersion_uncheckedArithmetic {fault : DigitFault}
    (h : isLegacy source.text.toList = .error fault) (bs : List Block) :
    Rule.uncheckedArithmetic.evaluate source bs = ⟨.failed "ValueError" fault.message, []⟩ := by
  show Detector.uncheckedArithmetic.evaluate source bs = _
  rw [Detector.evaluate, Detector.uncheckedArithmetic_eq, Detector.arithmeticWith, h]
  rfl

theorem Rule.uncheckedArithmetic_cases (source : Source) :
    (∃ own, Rule.uncheckedArithmetic.LocalIn source own) ∨
    Rule.uncheckedArithmetic.FailsOnVersion source := by
  cases h : isLegacy source.text.toList with
  | ok old => exact Or.inl ((Detector.isLocal_uncheckedArithmetic h).localIn rfl)
  | error fault => exact Or.inr ⟨rfl, fault, h, Rule.failsOnVersion_uncheckedArithmetic h⟩

open Detector in
theorem Rule.localIn_of_mem_builtin (source : Source) :
    ∀ r ∈ Rule.builtin, r.id ∈ Rule.acrossMembers ∨
    (∃ own, r.LocalIn source own) ∨ r.FailsOnVersion source := by
  have hlocal {detect : Detector} {r : Rule} (h : detect.IsLocal source)
      (hr : r.evaluate = detect.evaluate) :
      r.id ∈ Rule.acrossMembers ∨ (∃ own, r.LocalIn source own) ∨ r.FailsOnVersion source :=
    Or.inr (Or.inl (h.localIn hr))
  simp only [Rule.builtin, List.forall_mem_cons]
  refine ⟨hlocal (isLocal_entryPoints total_reentrancy source) rfl,
    hlocal (isLocal_pure _ source) rfl,
    hlocal (isLocal_pure _ source) rfl,
    hlocal (isLocal_entryPoints_pure _ source) rfl,
    hlocal (isLocal_entryPoints_pure _ source) rfl,
    Or.inr (Or.inl (exists_localIn_txOriginAuth source)),
    hlocal (isLocal_eachParsed total_uncheckedCallReturn source) rfl,
    hlocal (isLocal_pure _ source) rfl,
    Or.inr (Rule.uncheckedArithmetic_cases source),
    hlocal (isLocal_eachParsed total_frontRunning source) rfl,
    hlocal (isLocal_signatureReplay source) rfl,
    hlocal (isLocal_pure _ source) rfl,
    hlocal (isLocal_pure _ source) rfl,
    hlocal (isLocal_pure _ source) rfl,
    Or.inl (by decide),
    hlocal (isLocal_entryPoints_pure _ source) rfl,
    hlocal (isLocal_pure _ source) rfl,
    hlocal (isLocal_singleOwnerCritical source) rfl,
    hlocal (isLocal_missingPauseGuard source) rfl,
    hlocal (isLocal_entryPoints_pure _ source) rfl,
    hlocal (isLocal_pure _ source) rfl,
    hlocal (isLocal_pure _ source) rfl,
    hlocal (isLocal_eachParsed total_transferFixedGas source) rfl,
    Or.inl (by decide),
    Or.inl (by decide),
    fun r hr => absurd hr List.not_mem_nil⟩

/-- While the rule goes through the members of the source, what it remembers of contracts is what it
would find afresh, and so are its matches. -/
structure Detector.RemembersRightly (p : Pattern) (asks : Block → Bool)
    (f : Source → Block → Option Match) (source : Source) : Prop where
  answers : ∀ front b back c, source.outline.blocks = front ++ b :: back → b.contract = some c →
    (recallMentions p source c (mentionRun p asks f source front).2).1 = mentions p source c
  found : unlessMentioned p asks f source source.outline.blocks =
    .ok (source.outline.blocks.filterMap (afresh p asks f source))

theorem Detector.remembersRightly (p : Pattern) (asks : Block → Bool)
    (f : Source → Block → Option Match) (source : Source) : RemembersRightly p asks f source := by
  refine ⟨fun front b back c hblocks hc => ?_, unlessMentioned_eq_filterMap (List.Subset.refl _)⟩
  have hfront : front ⊆ source.outline.blocks := hblocks ▸ List.subset_append_left front (b :: back)
  have hb : b ∈ source.outline.blocks := hblocks ▸ List.mem_append_right front List.mem_cons_self
  exact (recalls_recallMentions (recalls_mentionRun hfront) (mem_contracts_of_mem_blocks hb hc)).1

/-- Each built-in rule but the three that look across members is local, or fails alike on all
members. -/
theorem Rule.localIn_or_failsOnVersion (source : Source) {r : Rule} (hr : r ∈ Rule.builtin)
    (hid : r.id ∉ Rule.acrossMembers) :
    ((∃ own, r.LocalIn source own) ∨ r.FailsOnVersion source) ∧
      ∀ p asks f, Detector.RemembersRightly p asks f source :=
  ⟨(Rule.localIn_of_mem_builtin source r hr).resolve_left hid,
    fun p asks f => Detector.remembersRightly p asks f source⟩

/-- Two members of a contract that send, and one without a body. -/
def Source.payouts : Source :=
  .ofChars
    ("contract C\x7bfunction f()public\x7ba.transfer(1);\x7d" ++
      "function g()public\x7ba.transfer(2);\x7dfunction h()public\x7d").toList

theorem Rule.localIn_payouts : Rule.missingPauseGuard ∈ Rule.builtin ∧
    Rule.missingPauseGuard.id ∉ Rule.acrossMembers ∧
    Source.payouts.outline.blocks.map (·.isParsed) = [true, true, false] ∧
    ((∃ own, Rule.missingPauseGuard.LocalIn Source.payouts own) ∨
      Rule.missingPauseGuard.FailsOnVersion Source.payouts) ∧
    ∀ p asks f, Detector.RemembersRightly p asks f Source.payouts := by
  have hmem : Rule.missingPauseGuard ∈ Rule.builtin := by simp [Rule.builtin]
  have hid : Rule.missingPauseGuard.id ∉ Rule.acrossMembers := by decide
  exact ⟨hmem, hid, by decide +kernel, Rule.localIn_or_failsOnVersion Source.payouts hmem hid⟩

/-- A version with more digits than can be read. -/
def Written.Version.overlong : Version :=
  ⟨.zeros 0, .zeros digitLimit⟩

theorem Written.Version.isLegacy_overlong :
    isLegacy (Source.ofChars Version.overlong.pragma).text.toList = .error (.unread 4301) := by
  have hmajor : readNumber Version.overlong.major.chars = .ok 0 := by decide
  have hminor : readNumber Version.overlong.minor.chars = .error (.unread 4301) := by
    have hlength : Version.overlong.minor.chars.length = 4301 :=
      Numeral.length_chars_zeros digitLimit
    rw [readNumber, hlength]
    rfl
  rw [Version.overlong.stable_pragma.toList_text, Version.isLegacy_pragma, hmajor, hminor]
  rfl

/-- Without members there is nothing to look at, and the rule fails all the same. -/
theorem Rule.not_localIn_overlong :
    (Source.ofChars Written.Version.overlong.pragma).outline.blocks = [] ∧
      Rule.uncheckedArithmetic.evaluate (.ofChars Written.Version.overlong.pragma) [] =
        ⟨.failed "ValueError" (DigitFault.unread 4301).message, []⟩ ∧
      ¬∃ own, Rule.uncheckedArithmetic.LocalIn (.ofChars Written.Version.overlong.pragma) own := by
  have hfails := Rule.failsOnVersion_uncheckedArithmetic Written.Version.isLegacy_overlong
  refine ⟨?_, hfails [], ?_⟩
  · rw [Source.outline, Written.Version.overlong.stable_pragma.toList_text,
      Written.Version.outline_pragma]
  · rintro ⟨own, hlocal⟩
    have hmembers := congrArg Evaluation.outcome (hlocal.members.symm.trans (hfails _))
    cases hmembers

end ContractAudit
