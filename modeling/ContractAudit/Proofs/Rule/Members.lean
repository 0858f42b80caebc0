import ContractAudit.Proofs.Rule.Evidence
import ContractAudit.Proofs.Rule.LoopNest

/-!
# Detectors that mark members

Each of these detectors marks statements or headers of parsed members only, whatever members it is
given, and shows evidence on one line if the members go by names (`Detector.Reports`). Those that go
through the statements with something in hand (what was found behind or before) keep that every
match so far is such a one (`Block.Reports`). All built-in rules but four have such a detector
(`Rule.exists_reports_of_mem_builtin`).
-/

namespace ContractAudit

/-- The match marks a statement of the member or its header, and its evidence stands on one line if
the member goes by names. -/
structure Block.Reports (source : Source) (b : Block) (m : Match) : Prop where
  marks : b.Marks source m
  terse : b.Named → m.Terse

namespace Block

variable {source : Source} {b : Block} {m : Match} {evidence : String}

theorem Reports.statement {s : Statement} (hs : s ∈ b.statements) (h : b.Named → OneLine evidence)
    (id : String) : b.Reports source (s.matched id evidence) :=
  ⟨.statement hs id evidence, fun hb => Match.terse_mk (h hb) _ _ _⟩

theorem Reports.header (h : b.Named → OneLine evidence) (id : String) :
    b.Reports source (b.headerMatched source id evidence) :=
  ⟨.header id evidence, fun hb => Match.terse_mk (h hb) _ _ _⟩

theorem reports_of_mem_map_matched {ss : List Statement} {id : String}
    (hss : ∀ s ∈ ss, s ∈ b.statements) (h : OneLine evidence)
    (hm : m ∈ ss.map (·.matched id evidence)) : b.Reports source m :=
  ⟨marks_of_mem_map_matched hss hm, fun _ => Match.terse_of_mem_map_matched h hm⟩

end Block

namespace Detector

/-- All matches mark a statement or the header of a parsed member, and all evidence stands on one
line if the members go by names. -/
def Reports (detect : Detector) : Prop :=
  ∀ source bs, Yields (fun ms => ∀ m ∈ ms, (∃ b ∈ bs, b.isParsed ∧ b.Marks source m) ∧
    ((∀ b ∈ bs, b.Named) → m.Terse)) (detect source bs)

theorem Reports.marksMembers {detect : Detector} (h : detect.Reports) : detect.MarksMembers :=
  fun source bs ms hms m hm => (h source bs ms hms m hm).1

theorem Reports.terse {detect : Detector} (h : detect.Reports) : detect.Terse :=
  fun source bs hbs ms hms m hm => (h source bs ms hms m hm).2 hbs

section OneByOne

variable {f : Source → Block → Except DetectorFault (List Match)}

theorem reports_eachParsed
    (hf : ∀ source b, Yields (fun ms => ∀ m ∈ ms, b.Reports source m) (f source b)) :
    (eachParsed f).Reports := by
  intro source bs ms hms m hm
  have hyields : Yields (fun ms => ∀ m ∈ ms, ∃ b ∈ bs, b.isParsed ∧ b.Reports source m)
      (eachParsed f source bs) := by
    refine yields_eachBlock fun b _ => ?_
    split
    next hparsed => exact fun ms hms m hm => ⟨hparsed, hf source b ms hms m hm⟩
    next => exact yields_pure_nil
  obtain ⟨b, hb, hparsed, hreports⟩ := hyields ms hms m hm
  exact ⟨⟨b, hb, hparsed, hreports.marks⟩, fun hbs => hreports.terse (hbs b hb)⟩

theorem reports_eachEntryPoint
    (hf : ∀ source b, Yields (fun ms => ∀ m ∈ ms, b.Reports source m) (f source b)) :
    (eachEntryPoint f).Reports := by
  refine reports_eachParsed fun source b => ?_
  split
  · exact hf source b
  · exact yields_pure_nil

end OneByOne

variable {source : Source} {b : Block} {m : Match}

/-! ## Access -/

theorem reports_unprotectedStateChange : unprotectedStateChange.Reports := by
  refine reports_eachEntryPoint fun source b => yields_pure fun m hm => ?_
  split at hm
  · exact absurd hm List.not_mem_nil
  · obtain ⟨⟨s, target⟩, hs, rfl⟩ := List.mem_map.1 hm
    obtain ⟨hmem, htarget⟩ := Block.mem_of_mem_privilegedWrites hs
    refine .statement hmem (fun hb => ?_) _
    have hworded := hb.targets s hmem target htarget
    exact ((hb.displayName.oneLine.between (by decide)).append hworded.oneLine).append
      (.literal (by decide))

theorem reports_unprotectedSelfdestruct : unprotectedSelfdestruct.Reports := by
  refine reports_eachEntryPoint fun source b => yields_pure fun m hm => ?_
  split at hm
  · exact absurd hm List.not_mem_nil
  · obtain ⟨s, hs, rfl⟩ := List.mem_map.1 hm
    exact .statement (List.mem_filter.1 hs).1
      (fun hb => .append (.literal (by decide)) hb.displayName.oneLine) _

/-- The modifier that is shown may be one of another member. -/
theorem reports_missingAccessModifier : missingAccessModifier.Reports := by
  intro source bs
  refine yields_pure fun m hm => ?_
  obtain ⟨b, hb, hmatch⟩ := List.mem_filterMap.1 hm
  obtain ⟨hmem, hentry⟩ := List.mem_filter.1 hb
  simp only [Bool.and_eq_true] at hentry
  split at hmatch
  · cases hmatch
  · obtain rfl := Option.some.inj hmatch
    refine ⟨⟨b, hmem, hentry.1.1, .header _ _⟩, fun hbs => Match.terse_mk ?_ _ _ _⟩
    have hname := (hbs b hmem).displayName.oneLine
    split
    next modifier hlookup =>
      have hmodifier := worded_of_mem_accessModifiers (fun b hb => hbs b (List.mem_filter.1 hb).1) _
        (mem_of_lookup_eq_some hlookup)
      exact ((hname.append (.literal (by decide))).append hmodifier.oneLine).append
        (.literal (by decide))
    next => exact hname.append (.literal (by decide))

/-! ## Calls -/

/-- The statement that can be reentered is one of the list, and so are those behind it. -/
theorem yields_firstReentrance : ∀ ss : List Statement,
    Yields (fun found => ∀ call later, found = some (call, later) → call ∈ ss ∧ ∀ s ∈ later, s ∈ ss)
      (firstReentrance ss)
  | [] => yields_pure (by simp)
  | s :: ss => by
    refine yields_bind (yields_true _) fun reenters _ => ?_
    split
    · refine yields_pure fun call later h => ?_
      obtain ⟨rfl, rfl⟩ := Prod.mk.inj (Option.some.inj h)
      exact ⟨List.mem_cons_self, fun s' hs' => List.mem_cons_of_mem _ hs'⟩
    · intro found hfound call later h
      obtain ⟨hcall, hlater⟩ := yields_firstReentrance ss found hfound call later h
      exact ⟨List.mem_cons_of_mem _ hcall, fun s' hs' => List.mem_cons_of_mem _ (hlater s' hs')⟩

theorem mem_of_firstWrite {write : Statement} {target : String} : ∀ {ss : List Statement},
    firstWrite ss = some (write, target) → write ∈ ss ∧ write.target = some target
  | [], h => by cases h
  | s :: ss, h => by
    unfold firstWrite at h
    split at h
    next t ht =>
      obtain ⟨rfl, rfl⟩ := Prod.mk.inj (Option.some.inj h)
      exact ⟨List.mem_cons_self, ht⟩
    next =>
      obtain ⟨hmem, htarget⟩ := mem_of_firstWrite h
      exact ⟨List.mem_cons_of_mem _ hmem, htarget⟩

theorem reports_reentrancy : reentrancy.Reports := by
  refine reports_eachEntryPoint fun source b => ?_
  split
  · exact yields_pure_nil
  · refine yields_bind (yields_firstReentrance b.statements) fun found hfound => ?_
    split
    · exact yields_pure_nil
    next call later =>
      obtain ⟨hcall, hlater⟩ := hfound call later rfl
      split
      · exact yields_pure_nil
      next write target hwrite =>
        refine yields_pure fun m hm => ?_
        obtain rfl := List.mem_singleton.1 hm
        refine .statement hcall (fun hb => ?_) _
        obtain ⟨hmem, htarget⟩ := mem_of_firstWrite hwrite
        have hworded := hb.targets write (hlater write hmem) target htarget
        exact (((hb.displayName.oneLine.between (by decide)).append hworded.oneLine).append
          (.literal (by decide))).append (.ofInt _)

theorem reports_delegatecallUntrusted : delegatecallUntrusted.Reports := by
  refine reports_eachParsed fun source b => yields_pure fun m hm => ?_
  obtain ⟨s, hmem, hs⟩ := List.mem_filterMap.1 hm
  obtain ⟨base, hbase, hs⟩ := Option.bind_eq_some_iff.1 hs
  split at hs
  · obtain rfl := Option.some.inj hs
    exact .statement hmem (fun _ => (oneLine_delegateBase? hbase).between (by decide)) _
  · split at hs
    · obtain rfl := Option.some.inj hs
      exact .statement hmem (fun hb => hb.displayName.oneLine.append (.literal (by decide))) _
    · cases hs

theorem reports_uncheckedCallReturn : uncheckedCallReturn.Reports := by
  refine reports_eachParsed fun source b => ?_
  refine yields_bind (yields_mapM_filterMap fun s hs => ?_) fun found hfound => yields_pure hfound
  split
  · exact yields_pure (by simp)
  · dsimp only
    split
    · exact yields_pure (by simp)
    · refine yields_bind (yields_droppedResult? _) fun dropped hdropped =>
        yields_pure fun m hm => ?_
      obtain ⟨method, hmethod, rfl⟩ := Option.map_eq_some_iff.1 hm
      exact .statement hs (fun _ => (hdropped method hmethod).between (by decide)) _

/-- Going backwards through statements, every match is on one of them. -/
theorem reports_of_mem_foldr_flagStep : ∀ {ss : List Statement}, (∀ s ∈ ss, s ∈ b.statements) →
    m ∈ (ss.foldr flagStep ([], [])).2 → b.Reports source m
  | [], _, hm => absurd hm List.not_mem_nil
  | s :: ss, hss, hm => by
    have hlater : m ∈ (ss.foldr flagStep ([], [])).2 → b.Reports source m :=
      reports_of_mem_foldr_flagStep fun s' hs' => hss s' (List.mem_cons_of_mem _ hs')
    simp only [List.foldr_cons, flagStep] at hm
    split at hm
    next evidence hevidence =>
      rcases List.mem_cons.1 hm with rfl | hm
      · exact .statement (hss s List.mem_cons_self) (fun _ => oneLine_flagProblem? hevidence) _
      · exact hlater hm
    next => exact hlater hm

theorem reports_uncheckedLowLevelCall : uncheckedLowLevelCall.Reports :=
  reports_eachParsed fun _ _ => yields_pure fun _ hm =>
    reports_of_mem_foldr_flagStep (fun _ hs => hs) hm

theorem reports_transferFixedGas : transferFixedGas.Reports := by
  refine reports_eachParsed fun source b => ?_
  refine yields_bind (yields_filterM b.statements) fun found hfound => yields_pure fun m hm => ?_
  exact Block.reports_of_mem_map_matched hfound (.literal (by decide)) hm

/-! ## Order of transactions -/

theorem reports_flashloanManipulation : flashloanManipulation.Reports := by
  refine reports_eachParsed fun source b => yields_pure fun m hm => ?_
  obtain ⟨s, hmem, hs⟩ := List.mem_filterMap.1 hm
  dsimp only at hs
  split at hs
  · obtain rfl := Option.some.inj hs
    exact .statement hmem (fun _ => .literal (by decide)) _
  · split at hs
    · obtain rfl := Option.some.inj hs
      exact .statement hmem (fun _ => .literal (by decide)) _
    · split at hs
      · obtain rfl := Option.some.inj hs
        exact .statement hmem (fun hb => hb.displayName.oneLine.between (by decide)) _
      · cases hs

theorem mem_of_mem_withPayouts {s : Statement} {pays : Bool} : ∀ {ss : List Statement},
    (s, pays) ∈ withPayouts ss → s ∈ ss
  | [], h => absurd h List.not_mem_nil
  | t :: ss, h => by
    rcases List.mem_cons.1 h with heq | h
    · obtain ⟨rfl, -⟩ := Prod.mk.inj heq
      exact List.mem_cons_self
    · exact List.mem_cons_of_mem _ (mem_of_mem_withPayouts h)

theorem reports_of_mem_allowanceOverwrite (hm : m ∈ allowanceOverwrite b) : b.Reports source m := by
  unfold allowanceOverwrite at hm
  split at hm
  · split at hm
    next s hfind =>
      obtain rfl := List.mem_singleton.1 hm
      exact .statement (List.mem_of_find?_eq_some hfind) (fun _ => .literal (by decide)) _
    next => exact absurd hm List.not_mem_nil
  · exact absurd hm List.not_mem_nil

theorem reports_frontRunning : frontRunning.Reports := by
  refine reports_eachParsed fun source b => ?_
  refine yields_bind (yields_mapM_filterMap (P := b.Reports source) fun p hp => ?_)
    fun found hfound => yields_pure fun m hm => ?_
  · refine yields_bind (yields_frontRunning? _ _) fun reason hreason => yields_pure fun m hm => ?_
    obtain ⟨evidence, hevidence, rfl⟩ := Option.map_eq_some_iff.1 hm
    exact .statement (mem_of_mem_withPayouts hp) (fun _ => hreason evidence hevidence) _
  · rcases List.mem_append.1 hm with hm | hm
    · exact hfound m hm
    · exact reports_of_mem_allowanceOverwrite hm

theorem reports_signatureReplay : signatureReplay.Reports := by
  intro source bs
  refine reports_eachParsed (fun source b => yields_pure fun m hm => ?_) source bs
  dsimp only at hm
  split at hm
  · exact absurd hm List.not_mem_nil
  · split at hm
    next s hfind =>
      obtain rfl := List.mem_singleton.1 hm
      exact .statement (List.mem_of_find?_eq_some hfind)
        (fun _ => .append (.literal (by decide)) (oneLine_missing _ _)) _
    next => exact absurd hm List.not_mem_nil

/-! ## Randomness and time -/

theorem reports_weakRandomness : weakRandomness.Reports :=
  reports_eachParsed fun _ _ => yields_pure fun _ hm =>
    Block.reports_of_mem_map_matched (fun _ hs => (List.mem_filter.1 hs).1)
      (.literal (by decide)) hm

theorem reports_timestampDependence : timestampDependence.Reports :=
  reports_eachParsed fun _ _ => yields_pure fun _ hm =>
    Block.reports_of_mem_map_matched (fun _ hs => (List.mem_filter.1 hs).1)
      (.literal (by decide)) hm

/-! ## Validation -/

theorem reports_missingZeroAddressCheck : missingZeroAddressCheck.Reports := by
  refine reports_eachParsed fun source b => yields_pure fun m hm => ?_
  dsimp only at hm
  split at hm
  · exact absurd hm List.not_mem_nil
  · obtain ⟨s, hmem, hs⟩ := List.mem_filterMap.1 hm
    split at hs
    · cases hs
    · split at hs
      · cases hs
      next h hstart =>
        split at hs
        · obtain rfl := Option.some.inj hs
          have hkept := keeps_assignedParam.part_of_startOf? hstart
          exact .statement hmem (fun _ => (oneLine_ofList hkept).between (by decide)) _
        · cases hs

/-- Every match found so far, or found later, is on a statement and shows a pending amount. -/
theorem reports_of_mem_amountsFrom :
    ∀ {ss : List Statement} {found : List Match} {pending : List String},
    (∀ s ∈ ss, s ∈ b.statements) → (b.Named → ∀ n ∈ pending, Worded n) →
      (∀ m ∈ found, b.Reports source m) → ∀ m ∈ amountsFrom found pending ss, b.Reports source m
  | [], _, _, _, _, hfound, m, hm => hfound m (List.mem_reverse.1 hm)
  | s :: ss, found, pending, hss, hpending, hfound, m, hm => by
    have hlater : ∀ s' ∈ ss, s' ∈ b.statements := fun s' hs' => hss s' (List.mem_cons_of_mem _ hs')
    have hfewer : ∀ keep : String → Bool, b.Named → ∀ n ∈ pending.filter keep, Worded n :=
      fun keep hb n hn => hpending hb n (List.mem_filter.1 hn).1
    unfold amountsFrom at hm
    dsimp only at hm
    split at hm
    · exact hfound m (List.mem_reverse.1 hm)
    · split at hm
      · exact reports_of_mem_amountsFrom hlater hpending hfound m hm
      · split at hm
        · exact reports_of_mem_amountsFrom hlater (hfewer _) hfound m hm
        · refine reports_of_mem_amountsFrom hlater (hfewer _) (fun m' hm' => ?_) m hm
          rcases List.mem_append.1 hm' with hm' | hm'
          · obtain ⟨n, hn, rfl⟩ := List.mem_map.1 (List.mem_reverse.1 hm')
            refine .statement (hss s List.mem_cons_self) (fun hb => ?_) _
            exact (hfewer _ hb n (List.mem_filter.1 hn).1).oneLine.between (by decide)
          · exact hfound m' hm'

theorem reports_missingAmountValidation : missingAmountValidation.Reports :=
  reports_eachEntryPoint fun _ _ => yields_pure
    (reports_of_mem_amountsFrom (fun _ hs => hs) (fun hb _ => worded_of_mem_amounts hb)
      (List.forall_mem_nil _))

/-! ## Availability -/

theorem reports_of_mem_loopMatches {length : Pattern}
    (h : b.Named → length.Keeps "array" isNameChar)
    (hm : m ∈ loopMatches source length b.statements) : b.Reports source m := by
  rw [loopMatches_eq] at hm
  obtain ⟨i, -, hi⟩ := List.mem_filterMap.1 hm
  obtain ⟨s, hs, hi⟩ := Option.bind_eq_some_iff.1 hi
  split at hi
  · obtain ⟨hit, hfind, hi⟩ := Option.bind_eq_some_iff.1 hi
    obtain ⟨call, -, hi⟩ := Option.bind_eq_some_iff.1 hi
    obtain rfl := Option.some.inj hi
    refine .statement (List.mem_of_getElem? hs) (fun hb => ?_) _
    have harray := oneLine_ofList ((h hb).part_of_findIn? hfind)
    exact (harray.between (by decide)).append (.ofNat _)
  · cases hi

theorem reports_unboundedLoopExternalCall : unboundedLoopExternalCall.Reports := by
  refine reports_eachParsed fun source b => yields_pure fun m hm => ?_
  split at hm
  · exact absurd hm List.not_mem_nil
  next c hc =>
    dsimp only at hm
    split at hm
    · exact absurd hm List.not_mem_nil
    · refine reports_of_mem_loopMatches (fun hb => keeps_lengthOf fun n hn => ?_) hm
      obtain ⟨v, hv, rfl⟩ := List.mem_map.1 hn
      exact (hb.contract c hc).stateVars v (List.mem_filter.1 hv).1

/-- What is collected was made of one of the members that are asked about. -/
theorem yields_unlessMentioned (p : Pattern) (asks : Block → Bool)
    (f : Source → Block → Option Match) (source : Source) (bs : List Block) :
    Yields (fun ms => ∀ m ∈ ms, ∃ b ∈ bs, asks b ∧ f source b = some m)
      (unlessMentioned p asks f source bs) := by
  refine yields_pure fun m hm => ?_
  rw [List.mem_reverse] at hm
  revert m
  refine List.foldlRecOn (motive := fun (run : List Match × Mentions) =>
    ∀ m ∈ run.1, ∃ b ∈ bs, asks b ∧ f source b = some m) bs _ (by simp) fun run hrun b hb => ?_
  unfold mentionStep
  split
  · exact hrun
  · split
    next hasks =>
      intro m hm
      dsimp only at hm
      split at hm
      · exact hrun m hm
      · rcases List.mem_append.1 hm with hm | hm
        · exact ⟨b, hb, hasks, Option.mem_toList.1 hm⟩
        · exact hrun m hm
    next => exact hrun

theorem reports_unlessMentioned {p : Pattern} {asks : Block → Bool}
    {f : Source → Block → Option Match} (hasks : ∀ b, asks b → b.isParsed)
    (hf : ∀ source b m, f source b = some m → b.Reports source m) :
    (unlessMentioned p asks f).Reports := by
  intro source bs ms hms m hm
  obtain ⟨b, hb, hask, hfb⟩ := yields_unlessMentioned p asks f source bs ms hms m hm
  have hreports := hf source b m hfb
  exact ⟨⟨b, hb, hasks b hask, hreports.marks⟩, fun hbs => hreports.terse (hbs b hb)⟩

theorem reports_missingPauseGuard : missingPauseGuard.Reports := by
  refine reports_unlessMentioned (fun b h => ?_) fun source b m h => ?_
  · simp only [Bool.and_eq_true] at h
    exact h.1.1
  · split at h
    next =>
      obtain rfl := Option.some.inj h
      exact .header (fun hb => hb.displayName.oneLine.append (.literal (by decide))) _
    next => cases h

theorem reports_singleOwnerCritical : singleOwnerCritical.Reports := by
  refine reports_unlessMentioned (fun b h => (Bool.and_eq_true_iff.1 h).1) fun source b m h => ?_
  split at h
  next =>
    obtain ⟨owner, hfind, rfl⟩ := Option.map_eq_some_iff.1 h
    refine .header (fun hb => ?_) _
    have howner := hb.header.modifiers owner (List.mem_of_find?_eq_some hfind)
    exact ((howner.oneLine.between (by decide)).append hb.displayName.oneLine).append
      (.literal (by decide))
  next => cases h

/-! ## Hygiene -/

theorem reports_missingEventEmission : missingEventEmission.Reports := by
  refine reports_eachEntryPoint fun source b => yields_pure fun m hm => ?_
  split at hm
  · exact absurd hm List.not_mem_nil
  next target targets htargets =>
    split at hm
    · exact absurd hm List.not_mem_nil
    · split at hm
      · obtain rfl := List.mem_singleton.1 hm
        refine .header (fun hb => ?_) _
        obtain ⟨s, hs, htarget⟩ := List.mem_filterMap.1 (htargets ▸ List.mem_cons_self)
        have hworded := hb.targets s hs target htarget
        exact ((hb.displayName.oneLine.append (.literal (by decide))).append hworded.oneLine).append
          (.literal (by decide))
      · exact absurd hm List.not_mem_nil

theorem reports_stateVariableShadowing : stateVariableShadowing.Reports := by
  refine reports_eachParsed fun source b => yields_pure fun m hm => ?_
  split at hm
  · exact absurd hm List.not_mem_nil
  · rcases List.mem_append.1 hm with hm | hm
    · split at hm
      next param hfind =>
        obtain rfl := List.mem_singleton.1 hm
        obtain ⟨p, hp, hname⟩ := List.mem_filterMap.1 (List.mem_of_find?_eq_some hfind)
        exact .header (fun hb => (hb.header.params p hp param hname).oneLine.between (by decide)) _
      next => exact absurd hm List.not_mem_nil
    · obtain ⟨s, hmem, hs⟩ := List.mem_filterMap.1 hm
      split at hs
      next d hd =>
        split at hs
        · obtain rfl := Option.some.inj hs
          exact .statement hmem (fun _ => (worded_localDeclaration? hd).oneLine.between (by decide))
            _
        · cases hs
      next => cases hs

theorem reports_strictBalanceEquality : strictBalanceEquality.Reports :=
  reports_eachParsed fun _ _ => yields_pure fun _ hm =>
    Block.reports_of_mem_map_matched (fun _ hs => (List.mem_filter.1 hs).1)
      (.literal (by decide)) hm

end Detector

/-! ## The built-in rules -/

namespace Rule

open Detector

/-- The built-in rules report statements and headers, but for four of them. -/
theorem exists_reports_of_mem_builtin : ∀ r ∈ builtin, ∃ detect : Detector,
    r.evaluate = detect.evaluate ∧ (detect.Reports ∨ detect ∈
      [Detector.txOriginAuth, Detector.uncheckedArithmetic, Detector.floatingPragma,
        Detector.encodePackedCollision]) := by
  simp only [builtin, List.forall_mem_cons]
  refine ⟨⟨_, rfl, .inl reports_reentrancy⟩, ⟨_, rfl, .inl reports_flashloanManipulation⟩,
    ⟨_, rfl, .inl reports_delegatecallUntrusted⟩, ⟨_, rfl, .inl reports_unprotectedStateChange⟩,
    ⟨_, rfl, .inl reports_unprotectedSelfdestruct⟩, ⟨Detector.txOriginAuth, rfl, .inr (by simp)⟩,
    ⟨_, rfl, .inl reports_uncheckedCallReturn⟩, ⟨_, rfl, .inl reports_uncheckedLowLevelCall⟩,
    ⟨Detector.uncheckedArithmetic, rfl, .inr (by simp)⟩, ⟨_, rfl, .inl reports_frontRunning⟩,
    ⟨_, rfl, .inl reports_signatureReplay⟩, ⟨_, rfl, .inl reports_weakRandomness⟩,
    ⟨_, rfl, .inl reports_timestampDependence⟩, ⟨_, rfl, .inl reports_missingZeroAddressCheck⟩,
    ⟨_, rfl, .inl reports_missingAccessModifier⟩, ⟨_, rfl, .inl reports_missingAmountValidation⟩,
    ⟨_, rfl, .inl reports_unboundedLoopExternalCall⟩, ⟨_, rfl, .inl reports_singleOwnerCritical⟩,
    ⟨_, rfl, .inl reports_missingPauseGuard⟩, ⟨_, rfl, .inl reports_missingEventEmission⟩,
    ⟨_, rfl, .inl reports_stateVariableShadowing⟩, ⟨_, rfl, .inl reports_strictBalanceEquality⟩,
    ⟨_, rfl, .inl reports_transferFixedGas⟩, ⟨Detector.floatingPragma, rfl, .inr (by simp)⟩,
    ⟨Detector.encodePackedCollision, rfl, .inr (by simp)⟩, fun r hr => absurd hr List.not_mem_nil⟩

/-- The evidence of the built-in rules stands on one line, but for one of them. -/
theorem exists_terse_of_mem_builtin : ∀ r ∈ builtin, ∃ detect : Detector,
    r.evaluate = detect.evaluate ∧ (detect.Terse ∨ detect = Detector.floatingPragma) := by
  intro r hr
  obtain ⟨detect, heval, hdetect⟩ := exists_reports_of_mem_builtin r hr
  refine ⟨detect, heval, ?_⟩
  simp only [List.mem_cons, List.not_mem_nil, or_false] at hdetect
  rcases hdetect with hreports | rfl | rfl | rfl | rfl
  · exact .inl hreports.terse
  · exact .inl terse_txOriginAuth
  · exact .inl terse_uncheckedArithmetic
  · exact .inr rfl
  · exact .inl terse_encodePackedCollision

end Rule

end ContractAudit
