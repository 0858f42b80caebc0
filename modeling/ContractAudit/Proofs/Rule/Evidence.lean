import ContractAudit.Proofs.Contract.Names
import ContractAudit.Proofs.Report.Markdown
import ContractAudit.Proofs.Rule.Marks
import ContractAudit.Rule.Builtin

/-!
# Evidence on one line

What a rule shows as evidence is a fixed text around names, numbers and parts of matches. Names
consist of word characters and dots, and so do the parts that are shown, so the evidence stands on
one line (`Match.Terse`, `Detector.Terse`). One rule shows a text as it stands in the source : the
version that a pragma asks for may go over several lines (`Detector.mem_floatingVersions`).
-/

namespace ContractAudit

open Pattern

theorem Worded.oneLine {s : String} (h : Worded s) : OneLine s := by
  intro hmem
  have hnewline := h '\n' hmem
  rw [show isNameChar '\n' = false by decide] at hnewline
  cases hnewline

theorem oneLine_ofList {cs : List Char} (h : ∀ a ∈ cs, isNameChar a) : OneLine (String.ofList cs) :=
  (worded_ofList h).oneLine

theorem OneLine.append_iff {s t : String} : OneLine (s ++ t) ↔ OneLine s ∧ OneLine t := by
  rw [OneLine, String.toList_append, List.mem_append, not_or]
  rfl

theorem OneLine.between {x : String} {as bs : List Char} (hx : OneLine x) (h : '\n' ∉ as ++ bs) :
    OneLine (String.ofList as ++ x ++ String.ofList bs) := by
  obtain ⟨has, hbs⟩ := not_or.1 fun hor => h (List.mem_append.2 hor)
  exact ((literal has).append hx).append (literal hbs)

/-- The evidence of the match, if there is any, stands on one line. -/
def Match.Terse (m : Match) : Prop :=
  ∀ e ∈ m.evidence, OneLine e

variable {evidence : String}

theorem Match.terse_mk (h : OneLine evidence) (id : String) (start stop : Int) :
    Match.Terse ⟨id, start, stop, some evidence⟩ := by
  intro e he
  obtain rfl := Option.some.inj he
  exact h

theorem Match.terse_of_mem_map_matched {ss : List Statement} {id evidence : String} {m : Match}
    (h : OneLine evidence) (hm : m ∈ ss.map (·.matched id evidence)) : m.Terse := by
  obtain ⟨s, -, rfl⟩ := List.mem_map.1 hm
  exact terse_mk h _ _ _

namespace Detector

/-- All evidence stands on one line, if what the members are called by are names. -/
def Terse (detect : Detector) : Prop :=
  ∀ source bs, (∀ b ∈ bs, b.Named) → Yields (fun ms => ∀ m ∈ ms, m.Terse) (detect source bs)

section OneByOne

variable {f : Source → Block → Except DetectorFault (List Match)}

theorem terse_eachBlock
    (hf : ∀ source b, b.Named → Yields (fun ms => ∀ m ∈ ms, m.Terse) (f source b)) :
    (eachBlock f).Terse := by
  intro source bs hbs ms hms m hm
  obtain ⟨b, hb, hterse⟩ :=
    yields_eachBlock (Q := fun _ m => m.Terse) (fun b hb => hf source b (hbs b hb)) ms hms m hm
  exact hterse

theorem terse_eachParsed
    (hf : ∀ source b, b.Named → Yields (fun ms => ∀ m ∈ ms, m.Terse) (f source b)) :
    (eachParsed f).Terse := by
  refine terse_eachBlock fun source b hb => ?_
  split
  · exact hf source b hb
  · exact yields_pure_nil

end OneByOne

/-! ## Access -/

theorem keeps_originComparison : originComparison.Keeps "other" isNameChar := by
  have hother : (named "other" dottedRun).Keeps "other" isNameChar :=
    (spells_stretch1 fun _ h => h).keeps rfl
  refine keeps_oneOf fun p hp => ?_
  rcases List.mem_cons.1 hp with rfl | hp
  · exact hother.append_left rfl
  · obtain rfl := List.mem_singleton.1 hp
    exact (((hother.append_right rfl).append_right rfl).append_right rfl).append_right rfl

theorem oneLine_of_mem_originComparisons {cs : List Char} {h : Hit}
    (hh : (h, evidence) ∈ originComparisons (Cursor.start cs)) : OneLine evidence := by
  obtain ⟨g, hg, heq⟩ := List.mem_filterMap.1 hh
  dsimp only at heq
  split at heq
  · cases heq
  · obtain ⟨rfl, rfl⟩ := Prod.mk.inj (Option.some.inj heq)
    have hother := keeps_originComparison.part_of_mem_allIn (mem_findAll_of_mem_findAllWith hg)
    exact (oneLine_ofList hother).between (by decide)

theorem worded_of_mem_accessModifiers {bs : List Block} (hbs : ∀ b ∈ bs, b.Named) :
    ∀ known ∈ accessModifiers bs, Worded known.2 := by
  refine List.foldlRecOn (motive := fun (known : List (String × String)) =>
    ∀ k ∈ known, Worded k.2) bs _ (List.forall_mem_nil _)
    fun known hknown b hb => ?_
  split
  next m hfind =>
    split
    · exact hknown
    · refine List.forall_mem_append.2 ⟨hknown, List.forall_mem_singleton.2 ?_⟩
      exact (hbs b hb).header.modifiers m (List.mem_of_find?_eq_some hfind)
  next => exact hknown

/-! ## Calls -/

theorem keeps_calleePattern : calleePattern.Keeps "callee" isNameChar :=
  (((spells_dotted.keeps rfl).append_right rfl).append_right rfl).append_right rfl

theorem oneLine_delegateBase? {text : List Char} {base : String}
    (h : delegateBase? text = some base) : OneLine base := by
  obtain ⟨call, -, h⟩ := Option.bind_eq_some_iff.1 h
  obtain ⟨callee, hcallee, h⟩ := Option.bind_eq_some_iff.1 h
  obtain rfl := Option.some.inj h
  exact oneLine_ofList fun a ha =>
    keeps_calleePattern.part_of_findIn? hcallee a (List.takeWhile_subset _ ha)

theorem keeps_returningCall : returningCall.Keeps "method" isNameChar := by
  have hmethods :=
    spells_words ["send", "transfer", "transferFrom", "approve"] (by decide : ∀ w ∈ _, Worded w)
  exact (((hmethods.keeps rfl).append_left rfl).append_right rfl).append_right rfl

theorem yields_droppedResult? (text : List Char) :
    Yields (fun dropped => ∀ method, dropped = some method → OneLine method)
      (droppedResult? text) := by
  unfold droppedResult?
  split
  · exact yields_pure fun method h => by cases h
  next h hfind =>
    refine yields_bind (yields_true _) fun args _ => yields_pure fun method hmethod => ?_
    split at hmethod
    · cases hmethod
    · obtain rfl := Option.some.inj hmethod
      exact oneLine_ofList (keeps_returningCall.part_of_findIn? hfind)

theorem keeps_lowLevelCall : Scope.lowLevelCall.Keeps "method" isNameChar := by
  have hmethods :=
    spells_words ["call", "delegatecall", "staticcall"] (by decide : ∀ w ∈ _, Worded w)
  exact ((((hmethods.keeps rfl).append_left rfl).append_right rfl).append_right rfl).append_right
    rfl

theorem keeps_captured : Sign.captured.Keeps "flag" isNameChar := by
  have hflag : (named "flag" (stretch1 isWordChar)).Keeps "flag" isNameChar :=
    (spells_stretch1 fun _ => isNameChar_of_isWordChar).keeps rfl
  refine keeps_oneOf fun p hp => ?_
  simp only [List.mem_cons, List.not_mem_nil, or_false] at hp
  rcases hp with rfl | rfl | rfl
  · exact hflag.append_left rfl
  · exact (((hflag.append_left rfl).append_right rfl).append_right rfl).append_right rfl
  · exact ((hflag.append_right rfl).append_right rfl).append_right rfl

theorem oneLine_flagProblem? {later : List String} {text : List Char}
    (h : flagProblem? later text = some evidence) : OneLine evidence := by
  obtain ⟨call, hcall, h⟩ := Option.bind_eq_some_iff.1 h
  split at h
  · cases h
  · split at h
    · obtain rfl := Option.some.inj h
      exact (oneLine_ofList (keeps_lowLevelCall.part_of_findIn? hcall)).between (by decide)
    next hit hstart =>
      dsimp only at h
      split at h
      · cases h
      · obtain rfl := Option.some.inj h
        exact (oneLine_ofList (keeps_captured.part_of_startOf? hstart)).between (by decide)

/-! ## Order of transactions -/

theorem keeps_swapCall : swapCall.Keeps "method" isNameChar := by
  have hmethod : ("swap" ++ stretch isWordChar : Pattern).Spells isNameChar :=
    ⟨spells_text (by decide), fun _ => isNameChar_of_isWordChar⟩
  exact (((hmethod.keeps rfl).append_left rfl).append_right rfl).append_right rfl

theorem yields_greedySwap? (text : List Char) :
    Yields (fun swap => ∀ method, swap = some method → OneLine method) (greedySwap? text) := by
  unfold greedySwap?
  split
  · exact yields_pure fun method h => by cases h
  next h hfind =>
    refine yields_bind (yields_true _) fun args _ => yields_pure fun method hmethod => ?_
    split at hmethod
    · obtain rfl := Option.some.inj hmethod
      exact oneLine_ofList (keeps_swapCall.part_of_findIn? hfind)
    · cases hmethod

theorem yields_frontRunning? (pays : Bool) (text : List Char) :
    Yields (fun reason => ∀ evidence, reason = some evidence → OneLine evidence)
      (frontRunning? pays text) := by
  have hliteral : ∀ {cs : List Char}, '\n' ∉ cs →
      ∀ evidence, some (String.ofList cs) = some evidence → OneLine evidence := by
    rintro cs hcs _ h
    obtain rfl := Option.some.inj h
    exact .literal hcs
  unfold frontRunning?
  split
  · exact yields_pure (hliteral (by decide))
  · refine yields_bind (yields_greedySwap? text) fun swap hswap => ?_
    split
    next method =>
      refine yields_pure fun evidence h => ?_
      obtain rfl := Option.some.inj h
      exact (hswap method rfl).append (.literal (by decide))
    next =>
      refine yields_pure ?_
      split
      · exact hliteral (by decide)
      · exact fun evidence h => by cases h

/-- What is missing is one of two fixed texts, or both. -/
theorem oneLine_missing : ∀ hasNonce hasDomain : Bool, OneLine (" and ".intercalate
    ((if hasNonce then [] else ["nonce"]) ++
      (if hasDomain then [] else ["domain separator"]))) := by
  decide

/-! ## Validation and availability -/

theorem keeps_assignedParam : assignedParam.Keeps "param" isNameChar :=
  (((((spells_ident.keeps rfl).append_left rfl).append_right rfl).append_right rfl).append_right
    rfl).append_right rfl

theorem worded_of_mem_amounts {b : Block} (hb : b.Named) {n : String} (hn : n ∈ amounts b) :
    Worded n := by
  have hn := (List.mem_filter.1 (List.mem_eraseDups.1 (List.mem_mergeSort.1 hn))).1
  obtain ⟨p, hp, heq⟩ := List.mem_filterMap.1 hn
  split at heq
  · exact hb.header.params p hp n heq
  · cases heq

theorem keeps_lengthOf {names : List String} (h : ∀ n ∈ names, Worded n) :
    (lengthOf names).Keeps "array" isNameChar :=
  (((((((spells_words names h).keeps (keepsNothing_words names)).append_left rfl).append_right
    rfl).append_right rfl).append_right rfl).append_right rfl).append_right rfl

/-! ## What is not said of members -/

theorem terse_txOriginAuth : txOriginAuth.Terse := by
  refine terse_eachBlock fun source b _ => yields_pure fun m hm => ?_
  split at hm
  · obtain ⟨s, -, hm⟩ := List.mem_flatMap.1 hm
    obtain ⟨⟨h, evidence⟩, hh, rfl⟩ := List.mem_map.1 hm
    exact Match.terse_mk (oneLine_of_mem_originComparisons hh) _ _ _
  · obtain ⟨⟨h, evidence⟩, hh, rfl⟩ := List.mem_map.1 hm
    exact Match.terse_mk (oneLine_of_mem_originComparisons hh) _ _ _

theorem terse_of_mem_uncheckedBlocks {source : Source} {braces : Pairs} {stop : Nat} :
    ∀ {hs : List Hit} {found : List Match} {covered : Nat}, (∀ m ∈ found, m.Terse) →
      ∀ m ∈ uncheckedBlocks source braces stop found covered hs, m.Terse
  | [], _, _, hfound, m, hm => hfound m (List.mem_reverse.1 hm)
  | h :: hs, found, covered, hfound, m, hm => by
    unfold uncheckedBlocks at hm
    dsimp only at hm
    split at hm
    · exact terse_of_mem_uncheckedBlocks hfound m hm
    · refine terse_of_mem_uncheckedBlocks (fun m' hm' => ?_) m hm
      split at hm'
      · rcases List.mem_cons.1 hm' with rfl | hm'
        · exact Match.terse_mk (.literal (by decide)) _ _ _
        · exact hfound m' hm'
      · exact hfound m' hm'

theorem terse_uncheckedArithmetic : uncheckedArithmetic.Terse := by
  intro source bs hbs
  refine yields_bind (yields_true _) fun legacy _ => ?_
  refine terse_eachParsed (fun source b _ => yields_pure fun m hm => ?_) source bs hbs
  rcases List.mem_append.1 hm with hm | hm
  · split at hm
    · exact Match.terse_of_mem_map_matched (.literal (by decide)) hm
    · exact absurd hm List.not_mem_nil
  · split at hm
    · exact terse_of_mem_uncheckedBlocks (List.forall_mem_nil _) m hm
    · exact absurd hm List.not_mem_nil

theorem terse_encodePackedCollision : encodePackedCollision.Terse := by
  intro source bs _
  refine yields_bind (yields_mapM_filterMap fun h _ => ?_) fun found hfound => yields_pure hfound
  refine yields_bind (yields_true _) fun args _ => yields_pure fun m hm => ?_
  split at hm
  · obtain rfl := Option.some.inj hm
    exact Match.terse_mk (.append (.ofNat _) (.literal (by decide))) _ _ _
  · cases hm

/-- The versions, as they stand in the pragmas of the text, that are shown as not pinned. -/
def floatingVersions (text : List Char) : List String :=
  (versionPragma.allIn text).filterMap fun h =>
    let versions := h.part "versions"
    if versions.any (fun c => c == '^' || c == '~' || c == '>' || c == '*') &&
      !versions.contains '<' then
      some (String.ofList (trim versions))
    else none

/-- What is said of such a version. -/
def unpinned (version : String) : String :=
  s!"compiler version `{version}` is not pinned"

theorem mem_floatingVersions (source : Source) (bs : List Block) :
    Yields (fun ms => ∀ m ∈ ms, ∃ version ∈ floatingVersions source.text.toList,
      m.evidence = some (unpinned version)) (floatingPragma source bs) := by
  refine yields_pure fun m hm => ?_
  obtain ⟨h, hh, heq⟩ := List.mem_filterMap.1 hm
  dsimp only at heq
  split at heq
  next hfloats =>
    obtain rfl := Option.some.inj heq
    exact ⟨_, List.mem_filterMap.2 ⟨h, hh, if_pos hfloats⟩, rfl⟩
  next => cases heq

end Detector

/-- What is said about the built-in rules stands on one line. -/
theorem Rule.oneLine_of_mem_builtin : ∀ r ∈ Rule.builtin, ∀ s ∈ r.toRuleInfo.labels, OneLine s := by
  simp only [builtin, reentrancy, flashloanManipulation, delegatecallUntrusted,
    unprotectedStateChange, unprotectedSelfdestruct, txOriginAuth, uncheckedCallReturn,
    uncheckedLowLevelCall, uncheckedArithmetic, frontRunning, signatureReplay, weakRandomness,
    timestampDependence,
    missingZeroAddressCheck, missingAccessModifier, missingAmountValidation,
    unboundedLoopExternalCall, singleOwnerCritical, missingPauseGuard, missingEventEmission,
    stateVariableShadowing, strictBalanceEquality, transferFixedGas, floatingPragma,
    encodePackedCollision, RuleInfo.labels, List.forall_mem_append, List.forall_mem_cons,
    Option.toList, OneLine.append_iff]
  and_intros
  all_goals first | exact .literal (by decide) | exact List.forall_mem_nil _

end ContractAudit
