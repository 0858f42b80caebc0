import ContractAudit.Proofs.Rule.Answers
import ContractAudit.Proofs.Rule.Gap

/-!
# The built-in detectors behind a gap

Every built-in detector carries over a gap (`Rule.exists_carries_of_mem_builtin`). Most look at the
statements of one member. Some run through them and keep what they came by (`amountsFrom_moved`),
look for the loops among them (`loopMatches_moved`), or remember which contracts mention a word
(`recallMentions_moved`); what they keep moves along. Those that search the whole text look for
something that starts with no blank, and so find it behind the gap (`carries_floatingPragma`,
`carries_encodePackedCollision`).
-/

namespace ContractAudit

open Pattern

variable {gap : List Char} {s t : Source} {n : Nat}

namespace Detector

/-! ## Marked statements -/

theorem carries_weakRandomness : weakRandomness.Carries :=
  carries_eachParsed fun _ b _ _ => agree_pure (moves_map_matched (fun _ => rfl) b.statements ..)

theorem carries_timestampDependence : timestampDependence.Carries :=
  carries_eachParsed fun _ b _ _ => agree_pure (moves_map_matched (fun _ => rfl) b.statements ..)

theorem carries_strictBalanceEquality : strictBalanceEquality.Carries :=
  carries_eachParsed fun _ b _ _ => agree_pure (moves_map_matched (fun _ => rfl) b.statements ..)

theorem carries_unprotectedSelfdestruct : unprotectedSelfdestruct.Carries := by
  refine carries_eachEntryPoint fun {gap s t} _ b _ _ => agree_pure ?_
  rw [Block.hasAccessControl_moved]
  split
  · exact moves_nil _
  · exact moves_map_matched (fun _ => rfl) b.statements ..

theorem carries_unprotectedStateChange : unprotectedStateChange.Carries := by
  refine carries_eachEntryPoint fun {gap s t} _ b _ _ => agree_pure ?_
  rw [Block.hasAccessControl_moved, Block.privilegedWrites_moved, Block.toHeader_moved]
  split
  · exact moves_nil _
  · simp only [Moves, List.map_map]
    exact List.map_congr_left fun write _ => write.1.matched_moved ..

theorem carries_delegatecallUntrusted : delegatecallUntrusted.Carries := by
  refine carries_eachParsed fun {gap s t} _ b _ _ => agree_pure ?_
  refine moves_filterMap (fun x => ?_) b.statements
  simp only [Statement.chars_moved, Block.paramNames_moved, Block.toHeader_moved,
    Block.isEntryPoint_moved, Block.hasAccessControl_moved]
  cases delegateBase? x.chars with
  | none => rfl
  | some base =>
    simp only [Option.bind_eq_bind, Option.bind_some]
    split
    · exact x.some_matched_moved ..
    · split
      · exact x.some_matched_moved ..
      · rfl

theorem zeroChecked_moved (b : Block) : zeroChecked (b.moved n) = zeroChecked b := by
  rw [zeroChecked, Block.statements_moved, List.flatMap_map]
  rfl

theorem carries_missingZeroAddressCheck : missingZeroAddressCheck.Carries := by
  refine carries_eachParsed fun {gap s t} _ b _ _ => agree_pure ?_
  have haddresses : paramsOfType (b.moved gap.length) "address" = paramsOfType b "address" := rfl
  simp only [Block.isEntryPoint_moved, Block.toHeader_moved, Block.isView_moved, haddresses,
    zeroChecked_moved]
  split
  · exact moves_nil _
  · refine moves_filterMap (fun x => ?_) b.statements
    have htarget : (x.moved gap.length).target.isNone = x.target.isNone := rfl
    rw [htarget, Statement.chars_moved]
    split
    · rfl
    · split
      · rfl
      · split
        · exact x.some_matched_moved ..
        · rfl

theorem carries_flashloanManipulation : flashloanManipulation.Carries := by
  refine carries_eachParsed fun {gap s t} h b _ _ => agree_pure ?_
  refine moves_filterMap (fun x => ?_) b.statements
  simp only [h.slice_member, Block.toHeader_moved, Statement.shows_moved, Statement.chars_moved]
  split
  · exact x.some_matched_moved ..
  · split
    · exact x.some_matched_moved ..
    · split
      · exact x.some_matched_moved ..
      · rfl

theorem opens_domainSign : domainSign.Opens (!isBlank ·) := by
  refine opens_oneOf fun p hp => ?_
  simp only [List.mem_cons, List.not_mem_nil, or_false] at hp
  rcases hp with rfl | rfl | rfl | rfl | rfl | rfl
  · exact opens_text rfl rfl
  · exact opens_text rfl rfl
  · exact opens_text rfl rfl
  · exact opens_text rfl rfl
  · exact opens_text rfl rfl
  · exact ((opens_text rfl rfl).append _).append _

theorem steady_domainSign : domainSign.Steady gap := by
  simp [domainSign, blanks]

theorem carries_signatureReplay : signatureReplay.Carries := by
  intro gap s t h
  have hdomain : domainSign.occursIn t.text.toList = domainSign.occursIn s.text.toList := by
    rw [h.text_eq, occursIn_append h.blank opens_domainSign steady_domainSign]
  unfold signatureReplay
  rw [hdomain]
  refine carries_eachParsed (fun {gap s' t'} h b _ _ => agree_pure ?_) h
  rw [h.slice_member, Block.statements_moved, b.find?_statements_moved fun _ => rfl]
  dsimp only
  split
  · exact moves_nil _
  · cases b.statements.find? fun x => x.shows recovery with
    | none => exact moves_nil _
    | some x => exact moves_cons (x.matched_moved ..) (moves_nil _)

/-! ## Marked headers -/

theorem carries_missingEventEmission : missingEventEmission.Carries := by
  refine carries_eachEntryPoint fun {gap s t} h b _ _ => agree_pure ?_
  have htargets : (b.moved gap.length).statements.filterMap (·.target) =
      b.statements.filterMap (·.target) := by
    rw [Block.statements_moved, List.filterMap_map]
    rfl
  rw [htargets, Block.statements_moved, b.any_statements_moved fun _ => rfl, Block.toHeader_moved]
  split
  · exact moves_nil _
  · split
    · exact moves_nil _
    · split
      · exact moves_cons (b.headerMatched_moved h ..) (moves_nil _)
      · exact moves_nil _

theorem carries_stateVariableShadowing : stateVariableShadowing.Carries := by
  refine carries_eachParsed fun {gap s t} h b _ _ => agree_pure ?_
  rw [Block.contract_moved, Block.paramNames_moved]
  cases b.contract with
  | none => exact moves_nil _
  | some c =>
    have hnames : (c.moved gap.length).variableNames = c.variableNames := rfl
    simp only [Option.map_some, hnames]
    refine Moves.append ?_ (moves_filterMap (fun x => ?_) b.statements)
    · cases b.paramNames.find? fun x => c.variableNames.contains x with
      | none => exact moves_nil _
      | some param => exact moves_cons (b.headerMatched_moved h ..) (moves_nil _)
    · rw [Statement.chars_moved]
      split
      · split
        · exact x.some_matched_moved ..
        · rfl
      · rfl

theorem carries_missingAccessModifier : missingAccessModifier.Carries := by
  intro gap s t h
  refine agree_pure ?_
  rw [h.outline_eq]
  simp only [Outline.moved, List.filter_map]
  refine moves_filterMap (fun b => ?_) _
  have hwrites : (b.moved gap.length).privilegedWrites.isEmpty = b.privilegedWrites.isEmpty := by
    rw [Block.privilegedWrites_moved, List.isEmpty_map]
  rw [Block.toHeader_moved, Block.hasAccessControl_moved, hwrites, Block.statements_moved,
    b.any_statements_moved fun _ => rfl]
  split
  · rfl
  · exact congrArg some (b.headerMatched_moved h ..)

/-! ## Runs through the statements -/

theorem foldr_flagStep_moved (ss : List Statement) :
    ((ss.map (.moved n)).foldr flagStep ([], [])).1 = (ss.foldr flagStep ([], [])).1 ∧
      Moves n (ss.foldr flagStep ([], [])).2 ((ss.map (.moved n)).foldr flagStep ([], [])).2 := by
  induction ss with
  | nil => exact ⟨rfl, moves_nil n⟩
  | cons x ss ih =>
    obtain ⟨hwords, hfound⟩ := ih
    rw [List.map_cons, List.foldr_cons, List.foldr_cons]
    simp only [flagStep, Statement.chars_moved, hwords]
    refine ⟨trivial, ?_⟩
    split
    · exact moves_cons (x.matched_moved ..) hfound
    · exact hfound

theorem carries_uncheckedLowLevelCall : uncheckedLowLevelCall.Carries :=
  carries_eachParsed fun _ b _ _ => agree_pure (foldr_flagStep_moved b.statements).2

theorem amountsFrom_moved : ∀ (ss : List Statement) (pending : List String)
    {found found' : List Match}, Moves n found found' →
      Moves n (amountsFrom found pending ss) (amountsFrom found' pending (ss.map (.moved n)))
  | [], _, _, _, hfound => hfound.reverse
  | x :: later, pending, found, found', hfound => by
    have hcomparing : isComparing (x.moved n) = isComparing x := rfl
    have hmoves : moves (x.moved n) = moves x := rfl
    rw [List.map_cons]
    unfold amountsFrom
    simp only [Statement.chars_moved, hcomparing, hmoves]
    split
    · exact hfound.reverse
    · split
      · exact amountsFrom_moved later _ hfound
      · split
        · exact amountsFrom_moved later _ hfound
        · refine amountsFrom_moved later _ (Moves.append (Moves.reverse ?_) hfound)
          rw [Moves, List.map_map, List.map_map]
          exact List.map_congr_left fun _ _ => x.matched_moved ..

theorem carries_missingAmountValidation : missingAmountValidation.Carries :=
  carries_eachEntryPoint fun _ b _ _ =>
    agree_pure (amountsFrom_moved b.statements (amounts b) (moves_nil _))

theorem callInLoop?_moved (ss : List Statement) (depth i : Nat) :
    callInLoop? (ss.map (.moved n)) depth i = (callInLoop? ss depth i).map (.moved n) := by
  rw [callInLoop?, loopBody, ← List.map_drop, List.takeWhile_map, List.find?_map]
  rfl

theorem callingLoop?_moved (s t : Source) (length : Pattern) (ss : List Statement) (i : Nat) :
    (callingLoop? t length (ss.map (.moved n)) i).map (Match.moved 0) =
      (callingLoop? s length ss i).map (Match.moved n) := by
  rw [callingLoop?, callingLoop?, List.getElem?_map]
  cases ss[i]? with
  | none => simp only [Option.map_none, Option.bind_eq_bind, Option.bind_none]
  | some x =>
    have hloop : isLoop (x.moved n) = isLoop x := rfl
    simp only [Option.map_some, Option.bind_eq_bind, Option.bind_some, hloop, Statement.chars_moved,
      Statement.loopDepth_moved, callInLoop?_moved]
    split
    · cases length.findIn? x.chars with
      | none => simp only [Option.bind_none, Option.map_none]
      | some h =>
        cases callInLoop? ss x.loopDepth (i + 1) with
        | none => simp only [Option.bind_some, Option.map_none, Option.bind_none]
        | some call => exact x.some_matched_moved ..
    · simp only [Option.map_none]

theorem loopMatches_moved (s t : Source) (length : Pattern) (ss : List Statement) :
    Moves n (loopMatches s length ss) (loopMatches t length (ss.map (.moved n))) := by
  rw [loopMatches_eq, loopMatches_eq, List.length_map, Moves, List.map_filterMap,
    List.map_filterMap]
  exact congrArg (List.filterMap · _) (funext (callingLoop?_moved s t length ss))

theorem carries_unboundedLoopExternalCall : unboundedLoopExternalCall.Carries := by
  refine carries_eachParsed fun {gap s t} _ b _ _ => agree_pure ?_
  rw [Block.contract_moved]
  cases b.contract with
  | none => exact moves_nil _
  | some c =>
    have hnames : arrays (c.moved gap.length) = arrays c := rfl
    simp only [Option.map_some, hnames]
    split
    · exact moves_nil _
    · exact loopMatches_moved s t _ b.statements

/-! ## Calls and what follows them -/

theorem agree_firstReentrance : ∀ ss : List Statement,
    Agree (fun found found' => found' = found.map fun (x, later) =>
      (x.moved n, later.map (.moved n)))
      (firstReentrance ss) (firstReentrance (ss.map (.moved n)))
  | [] => agree_pure rfl
  | x :: ss => by
    have hreenter : canReenter (x.moved n) = canReenter x := rfl
    rw [List.map_cons]
    unfold firstReentrance
    rw [hreenter]
    refine agree_bind_same (canReenter x) fun reenters => ?_
    split
    · exact agree_pure rfl
    · exact agree_firstReentrance ss

theorem firstWrite_moved : ∀ ss : List Statement,
    firstWrite (ss.map (.moved n)) = (firstWrite ss).map fun (x, target) => (x.moved n, target)
  | [] => rfl
  | x :: ss => by
    rw [List.map_cons]
    unfold firstWrite
    rw [Statement.target_moved]
    cases x.target with
    | none => exact firstWrite_moved ss
    | some target => rfl

theorem carries_reentrancy : reentrancy.Carries := by
  refine carries_eachEntryPoint fun {gap s t} _ b _ _ => ?_
  have hguarded : (b.moved gap.length).isGuarded = b.isGuarded := rfl
  rw [hguarded, Block.statements_moved]
  split
  · exact agree_pure (moves_nil _)
  · refine agree_bind (agree_firstReentrance b.statements) fun found found' heq => ?_
    subst heq
    cases found with
    | none => exact agree_pure (moves_nil _)
    | some found =>
      obtain ⟨call, later⟩ := found
      simp only [Option.map_some, firstWrite_moved]
      cases firstWrite later with
      | none => exact agree_pure (moves_nil _)
      | some write => exact agree_pure (moves_cons (call.matched_moved ..) (moves_nil _))

theorem carries_uncheckedCallReturn : uncheckedCallReturn.Carries := by
  refine carries_eachParsed fun {gap s t} _ b _ _ => ?_
  refine agree_bind (agree_mapM_filterMap (Statement.moved gap.length) fun x _ => ?_) fun _ _ =>
    agree_pure
  rw [Statement.isExternalCall_moved]
  split
  · exact agree_pure rfl
  · dsimp only
    rw [Statement.chars_moved]
    split
    · exact agree_pure rfl
    · refine agree_bind_same (droppedResult? x.chars) fun method => ?_
      refine agree_pure ?_
      cases method with
      | none => rfl
      | some method => exact x.some_matched_moved ..

theorem carries_transferFixedGas : transferFixedGas.Carries := by
  refine carries_eachParsed fun {gap s t} _ b _ _ => ?_
  refine agree_bind (agree_filterM (Statement.moved gap.length) (fun _ => by rfl) b.statements)
    fun found found' heq => agree_pure ?_
  rw [heq, Moves, List.map_map, List.map_map, List.map_map]
  exact List.map_congr_left fun x _ => x.matched_moved ..

/-- What is carried backwards through the statements is whether one of them pays. -/
theorem foldr_payouts_snd (ss : List Statement) :
    (ss.foldr (fun x (done, pays) => ((x, pays) :: done, pays || x.shows Sign.valueOut))
      (([] : List (Statement × Bool)), false)).2 = ss.any (·.shows Sign.valueOut) := by
  induction ss with
  | nil => rfl
  | cons x ss ih => rw [List.any_cons, Bool.or_comm, ← ih, List.foldr_cons]

theorem withPayouts_cons (x : Statement) (ss : List Statement) :
    withPayouts (x :: ss) = (x, ss.any (·.shows Sign.valueOut)) :: withPayouts ss := by
  rw [← foldr_payouts_snd ss]
  rfl

theorem withPayouts_moved : ∀ ss : List Statement,
    withPayouts (ss.map (.moved n)) = (withPayouts ss).map (Prod.map (.moved n) id)
  | [] => rfl
  | x :: ss => by
    rw [List.map_cons, withPayouts_cons, withPayouts_cons, withPayouts_moved ss, List.any_map]
    rfl

theorem allowanceOverwrite_moved (b : Block) :
    Moves n (allowanceOverwrite b) (allowanceOverwrite (b.moved n)) := by
  unfold allowanceOverwrite
  rw [Block.isEntryPoint_moved, Block.toHeader_moved, Block.statements_moved,
    b.any_statements_moved fun _ => rfl, b.find?_statements_moved fun _ => rfl]
  split
  · cases b.statements.find? fun x => x.target.any fun t => (anyCase "allow").occursIn t.toList with
    | none => exact moves_nil n
    | some x => exact moves_cons (x.matched_moved ..) (moves_nil n)
  · exact moves_nil n

theorem carries_frontRunning : frontRunning.Carries := by
  refine carries_eachParsed fun {gap s t} _ b _ _ => ?_
  rw [Block.statements_moved, withPayouts_moved]
  refine agree_bind (agree_mapM_filterMap _ fun y _ => ?_) fun found found' hfound =>
    agree_pure (hfound.append (allowanceOverwrite_moved b))
  obtain ⟨x, pays⟩ := y
  refine agree_bind_same (frontRunning? pays x.chars) fun reason => ?_
  refine agree_pure ?_
  cases reason with
  | none => rfl
  | some reason => exact x.some_matched_moved ..

/-! ## Marked texts -/

theorem carries_txOriginAuth : txOriginAuth.Carries := by
  intro gap s t h
  refine agree_eachBlock h fun b hb => agree_pure ?_
  rw [Block.isParsed_moved, Block.statements_moved]
  split
  · refine moves_flatMap (fun x => ?_) b.statements
    rw [Statement.chars_moved, Moves, List.map_map, List.map_map]
    exact List.map_congr_left fun _ _ => x.matched_moved ..
  · rw [h.slice_member, Moves, List.map_map, List.map_map]
    refine List.map_congr_left fun found _ => ?_
    obtain ⟨hit, evidence⟩ := found
    simp [Match.moved, Block.moved, Int.add_assoc]

theorem steady_versionPragma (hgap : ∀ a ∈ gap, isBlank a) : versionPragma.Steady gap := by
  simp [versionPragma, blanks1, stretch1, steady_edge hgap]

theorem carries_floatingPragma : floatingPragma.Carries := by
  intro gap s t h
  refine agree_pure ?_
  rw [h.text_eq, allIn_append h.blank opens_versionPragma (steady_versionPragma h.blank)]
  refine moves_filterMap (fun hit => ?_) _
  simp only [Hit.part_behind]
  split
  · simp [Match.moved]
  · rfl

/-! ## Unchecked blocks -/

theorem opens_safeMath : safeMath.Opens (!isBlank ·) := by
  refine opens_oneOf fun p hp => ?_
  simp only [List.mem_cons, List.not_mem_nil, or_false] at hp
  rcases hp with rfl | rfl
  · exact ((((opens_text rfl rfl).check_append _).append _).append _).append _
  · exact (((opens_text rfl rfl).check_append _).append _).append _

theorem steady_safeMath (hgap : ∀ a ∈ gap, isBlank a) : safeMath.Steady gap := by
  simp [safeMath, blanks, blanks1, stretch1, steady_edge hgap]

theorem steady_uncheckedBlock (hgap : ∀ a ∈ gap, isBlank a) : uncheckedBlock.Steady gap := by
  simp [uncheckedBlock, blanks, steady_edge hgap]

theorem isLegacy_append (hgap : ∀ a ∈ gap, isBlank a) (text : List Char) :
    isLegacy (gap ++ text) = isLegacy text := by
  unfold isLegacy
  rw [findIn?_append hgap opens_versionPragma (steady_versionPragma hgap)]
  cases versionPragma.findIn? text with
  | none => rfl
  | some hit => simp only [Option.map_some, Hit.part_behind]

/-- A part of the text that does not start it is searched as before. -/
theorem window_behind (h : s.Follows gap t) {lo : Nat} (hpos : 0 < lo) (hlo : lo ≤ s.text.size)
    (hi : Nat) :
    t.window (gap.length + lo) (gap.length + hi) = (s.window lo hi).behind gap := by
  have hlast : t.text[gap.length + lo - 1]? = s.text[lo - 1]? := by
    rw [← Array.getElem?_toList, ← Array.getElem?_toList, h.text_eq, Nat.add_sub_assoc hpos,
      List.getElem?_append_right (Nat.le_add_right _ _), Nat.add_sub_cancel_left]
  have hsome : s.text[lo - 1]?.or gap.getLast? = s.text[lo - 1]? := by
    rw [Array.getElem?_eq_getElem (by omega), Option.some_or]
  rw [Source.window, Source.window, Cursor.behind, h.slice_eq, hlast, if_neg (by omega),
    if_neg (by omega), hsome]

theorem uncheckedBlocks_behind (h : s.Follows gap t) {stop : Nat} (hstop : 0 < stop) :
    ∀ (hits : List Hit) {found found' : List Match} (covered : Nat),
      (∀ hit ∈ hits, 0 < hit.stop.offset) → Moves gap.length found found' →
      Moves gap.length
        (uncheckedBlocks s (.braces s.text.toList) stop found covered hits)
        (uncheckedBlocks t (.braces t.text.toList) (gap.length + stop) found'
          (gap.length + covered) (hits.map (.behind gap)))
  | [], _, _, _, _, hfound => hfound.reverse
  | hit :: hits, found, found', covered, hpos, hfound => by
    -- The brace is the last character of the match, so it has an offset of its own.
    have hopening := hpos hit List.mem_cons_self
    have hlater := fun hit' hhit' => hpos hit' (List.mem_cons_of_mem _ hhit')
    have hclose : min (((Pairs.braces t.text.toList).close?
          (gap.length + hit.stop.offset - 1)).getD (gap.length + stop - 1))
          (gap.length + stop - 1) =
        gap.length + min (((Pairs.braces s.text.toList).close?
          (hit.stop.offset - 1)).getD (stop - 1)) (stop - 1) := by
      rw [Nat.add_sub_assoc hopening, Nat.add_sub_assoc hstop, h.text_eq, Pairs.braces,
        Pairs.close?_append rfl rfl h.blank, Pairs.braces]
      cases (Pairs.of '\x7b' '\x7d' s.text.toList).close? (hit.stop.offset - 1) with
      | none => simp
      | some k => simp [Nat.add_min_add_left]
    rw [List.map_cons]
    unfold uncheckedBlocks
    simp only [Hit.start_behind, Hit.stop_behind, Cursor.offset_behind, Nat.add_lt_add_iff_left,
      hclose, h.slice_eq, Nat.add_assoc]
    split
    · exact uncheckedBlocks_behind h hstop hits covered hlater hfound
    · refine uncheckedBlocks_behind h hstop hits _ hlater ?_
      split
      · refine moves_cons ?_ hfound
        simp [Match.moved]
      · exact hfound

theorem carries_uncheckedArithmetic : uncheckedArithmetic.Carries := by
  intro gap s t h
  have hlegacy : isLegacy t.text.toList = isLegacy s.text.toList := by
    rw [h.text_eq, isLegacy_append h.blank]
  have hsafe : safeMath.occursIn t.text.toList = safeMath.occursIn s.text.toList := by
    rw [h.text_eq, occursIn_append h.blank opens_safeMath (steady_safeMath h.blank)]
  unfold uncheckedArithmetic
  dsimp only
  rw [hlegacy, hsafe]
  refine agree_bind_same _ fun legacy => ?_
  refine agree_eachParsed h fun b hb hparsed => agree_pure (Moves.append ?_ ?_)
  · split
    · exact moves_map_matched (fun _ => rfl) b.statements ..
    · exact moves_nil _
  · obtain ⟨lo, hi, hlies⟩ := Outline.exists_liesIn hb hparsed
    have hheader := hlies.header
    have hle := hlies.accounts.le
    have hhi : hi ≤ s.text.size := Nat.le_of_lt (Array.length_toList ▸ hlies.stop_lt)
    have hbody : (b.moved gap.length).body = some (gap.length + lo, gap.length + hi) := by
      simp [Block.moved, hlies.body_eq]
    rw [hbody, hlies.body_eq]
    dsimp only
    rw [window_behind h (by omega) (by omega), findAll_behind (steady_uncheckedBlock h.blank)]
    refine uncheckedBlocks_behind h (by omega) _ lo (fun hit hhit => ?_) (moves_nil _)
    obtain ⟨-, hlt, -⟩ := opens_uncheckedBlock.lt_of_mem_findAll (in_window hle hhi) hhit
    omega

/-! ## What a contract mentions -/

theorem mentions_moved (h : s.Follows gap t) (p : Pattern) (c : Contract) :
    mentions p t (c.moved gap.length) = mentions p s c := by
  rw [mentions, mentions, ← h.slice_eq c.start c.stop]
  rfl

/-- The known answers, about contracts `n` characters on. -/
def Mentions.moved (n : Nat) (known : Mentions) : Mentions :=
  known.map fun ((i, j), answer) => ((n + i, n + j), answer)

theorem Mentions.lookup_moved (i j : Nat) : ∀ known : Mentions,
    (known.moved n).lookup (n + i, n + j) = known.lookup (i, j)
  | [] => rfl
  | ((i', j'), answer) :: known => by
    have hkey : ((n + i, n + j) == (n + i', n + j')) = ((i, j) == (i', j')) := by
      rw [Bool.eq_iff_iff]
      simp
    show List.lookup (n + i, n + j) (((n + i', n + j'), answer) :: Mentions.moved n known) = _
    rw [List.lookup_cons, List.lookup_cons, hkey, lookup_moved i j known]

theorem recallMentions_moved (h : s.Follows gap t) (p : Pattern) (c : Contract) (known : Mentions) :
    recallMentions p t (c.moved gap.length) (known.moved gap.length) =
      ((recallMentions p s c known).1,
        Mentions.moved gap.length (recallMentions p s c known).2) := by
  have hlookup : (known.moved gap.length).lookup
      ((c.moved gap.length).start, (c.moved gap.length).stop) = known.lookup (c.start, c.stop) :=
    Mentions.lookup_moved c.start c.stop known
  unfold recallMentions
  rw [hlookup, mentions_moved h]
  cases known.lookup (c.start, c.stop) <;> rfl

theorem carries_unlessMentioned (p : Pattern) {asks : Block → Bool}
    {f : Source → Block → Option Match} (hasks : ∀ (n : Nat) (b : Block), asks (b.moved n) = asks b)
    (hf : ∀ {gap : List Char} {s t : Source}, s.Follows gap t → ∀ b : Block,
      (f t (b.moved gap.length)).map (Match.moved 0) = (f s b).map (Match.moved gap.length)) :
    (unlessMentioned p asks f).Carries := by
  intro gap s t h
  refine agree_pure (Moves.reverse ?_)
  rw [h.outline_eq, Outline.moved, List.foldl_map]
  -- The answers known so far are the same, about contracts further on.
  refine (List.foldl_rel (r := fun (x x' : List Match × Mentions) =>
    Moves gap.length x.1 x'.1 ∧ x'.2 = x.2.moved gap.length) ⟨moves_nil _, rfl⟩
    fun b _ x x' hrel => ?_).1
  obtain ⟨found, known⟩ := x
  obtain ⟨found', known'⟩ := x'
  obtain ⟨hfound, hknown⟩ := hrel
  dsimp only at hfound hknown
  have hb := hf h b
  unfold mentionStep
  rw [hknown, Block.contract_moved, hasks]
  cases b.contract with
  | none => exact ⟨hfound, rfl⟩
  | some c =>
    dsimp only [Option.map_some]
    split
    next =>
      rw [recallMentions_moved h]
      refine ⟨?_, rfl⟩
      dsimp only
      split
      · exact hfound
      · cases hm : f s b with
        | none =>
          rw [Option.map_eq_none_iff.1 (hb.trans (congrArg _ hm))]
          exact hfound
        | some m =>
          obtain ⟨m', hm', heq⟩ := Option.map_eq_some_iff.1 (hb.trans (congrArg _ hm))
          rw [hm']
          exact moves_cons heq hfound
    next => exact ⟨hfound, rfl⟩

theorem carries_missingPauseGuard : missingPauseGuard.Carries := by
  refine carries_unlessMentioned _ (fun n b => ?_) fun {gap s t} h b => ?_
  · rw [Block.isParsed_moved, Block.isEntryPoint_moved, Block.isView_moved]
  · rw [Block.statements_moved, b.any_statements_moved fun _ => rfl]
    split
    · exact congrArg some (b.headerMatched_moved h ..)
    · rfl

theorem isCritical_moved (b : Block) : isCritical (b.moved n) = isCritical b := by
  rw [isCritical, Block.statements_moved, b.any_statements_moved fun _ => rfl]
  rfl

theorem ownerModifier?_moved (b : Block) : ownerModifier? (b.moved n) = ownerModifier? b := by
  rw [ownerModifier?, Block.toHeader_moved]
  rfl

theorem carries_singleOwnerCritical : singleOwnerCritical.Carries := by
  refine carries_unlessMentioned _ (fun n b => ?_) fun {gap s t} h b => ?_
  · rw [Block.isParsed_moved, ownerModifier?_moved]
  · rw [isCritical_moved, ownerModifier?_moved]
    split
    · cases ownerModifier? b with
      | none => rfl
      | some m => exact congrArg some (b.headerMatched_moved h ..)
    · rfl

/-! ## Packed values -/

/-- Arguments that are read are read behind a gap too. A failure would name the offset of a bracket,
which is another one there. -/
theorem argumentsFrom_behind {parens parens' : Pairs} (h : parens.Behind gap parens') (close : Nat)
    (args : List (List Char)) : ∀ (fuel : Nat) (found : List (List Char)) (arg : Cursor)
    (squares : Int) (c : Cursor),
      argumentsFrom parens close found arg squares fuel c = .ok args →
        argumentsFrom parens' (gap.length + close) found (arg.behind gap) squares fuel
          (c.behind gap) = .ok args
  | 0, found, arg, squares, c => by
    unfold argumentsFrom
    rw [Cursor.rest_behind, Cursor.offset_behind, Nat.add_sub_add_left]
    exact id
  | fuel + 1, found, arg, squares, c => by
    have hgo := argumentsFrom_behind h close args fuel
    unfold argumentsFrom
    simp only [Cursor.offset_behind, Nat.add_lt_add_iff_left, Cursor.peek_behind, h c.offset,
      Cursor.advance_behind, Cursor.textTo_behind, Cursor.rest_behind, Nat.add_sub_add_left]
    split
    · split
      · exact id
      · cases parens.close? c.offset with
        | none =>
          intro hargs
          cases hargs
        | some k =>
          have hnext := hgo found arg squares (c.advanceTo (k + 1))
          rwa [← Cursor.advanceTo_behind] at hnext
      · exact hgo found arg (squares + 1) (c.advance 1)
      · exact hgo found arg (squares - 1) (c.advance 1)
      · split
        · exact hgo _ (c.advance 1) squares (c.advance 1)
        · exact hgo found arg squares (c.advance 1)
      · exact hgo found arg squares (c.advance 1)
    · exact id

/-- The arguments of a call are read, and are the same behind a gap. -/
theorem callArguments_append (hgap : ∀ a ∈ gap, isBlank a) {text : List Char} {first : Cursor}
    (hfirst : first.In text) (hpos : 0 < first.offset) :
    callArguments (.parens (gap ++ text)) (first.behind gap) =
      callArguments (.parens text) first := by
  have hparens : (Pairs.parens text).Behind gap (.parens (gap ++ text)) :=
    Pairs.close?_append rfl rfl hgap text
  unfold callArguments
  rw [Cursor.offset_behind, Nat.add_sub_assoc hpos, hparens]
  cases hclose : (Pairs.parens text).close? (first.offset - 1) with
  | none => rfl
  | some close =>
    obtain ⟨args, hargs⟩ := answers_argumentsFrom hclose (close - first.offset + 1) [] first 0 first
      hfirst (Nat.sub_le _ _)
    have hargs' := argumentsFrom_behind hparens close args _ _ _ _ _ hargs
    simp only [Option.map_some, Nat.add_sub_add_left, hargs, hargs']

theorem steady_encodePacked (hgap : ∀ a ∈ gap, isBlank a) : encodePacked.Steady gap := by
  simp [encodePacked, blanks, steady_edge hgap]

theorem opens_encodePacked : encodePacked.Opens (!isBlank ·) :=
  (((((((opens_text rfl rfl).check_append _).append _).append _).append _).append _).append _)
    |>.append _

theorem carries_encodePackedCollision : encodePackedCollision.Carries := by
  intro gap s t h
  unfold encodePackedCollision
  dsimp only
  rw [h.text_eq, allIn_append h.blank opens_encodePacked (steady_encodePacked h.blank)]
  refine agree_bind (agree_mapM_filterMap (Hit.behind gap) fun hit hhit => ?_) fun _ _ => agree_pure
  have hpos : 0 < hit.stop.offset := Nat.zero_lt_of_lt
    (Nat.lt_of_lt_of_le (lt_of_mem_encodePacked hhit).1 (Nat.sub_le _ 1))
  have hstop : gap.length + hit.stop.offset - 1 = gap.length + (hit.stop.offset - 1) :=
    Nat.add_sub_assoc hpos _
  rw [Hit.stop_behind, callArguments_append h.blank (in_stop_of_mem_allIn hhit) hpos]
  refine agree_bind_same _ fun args => ?_
  refine agree_pure ?_
  split
  · simp [Match.moved, hstop]
  · rfl

end Detector

/-! ## The built-in rules -/

open Detector in
theorem Rule.exists_carries_of_mem_builtin : ∀ r ∈ Rule.builtin, ∃ detect : Detector,
    r.evaluate = detect.evaluate ∧ detect.Carries := by
  simp only [Rule.builtin, List.forall_mem_cons]
  refine ⟨⟨_, rfl, carries_reentrancy⟩, ⟨_, rfl, carries_flashloanManipulation⟩,
    ⟨_, rfl, carries_delegatecallUntrusted⟩, ⟨_, rfl, carries_unprotectedStateChange⟩,
    ⟨_, rfl, carries_unprotectedSelfdestruct⟩, ⟨_, rfl, carries_txOriginAuth⟩,
    ⟨_, rfl, carries_uncheckedCallReturn⟩, ⟨_, rfl, carries_uncheckedLowLevelCall⟩,
    ⟨_, rfl, carries_uncheckedArithmetic⟩, ⟨_, rfl, carries_frontRunning⟩,
    ⟨_, rfl, carries_signatureReplay⟩, ⟨_, rfl, carries_weakRandomness⟩,
    ⟨_, rfl, carries_timestampDependence⟩, ⟨_, rfl, carries_missingZeroAddressCheck⟩,
    ⟨_, rfl, carries_missingAccessModifier⟩, ⟨_, rfl, carries_missingAmountValidation⟩,
    ⟨_, rfl, carries_unboundedLoopExternalCall⟩, ⟨_, rfl, carries_singleOwnerCritical⟩,
    ⟨_, rfl, carries_missingPauseGuard⟩, ⟨_, rfl, carries_missingEventEmission⟩,
    ⟨_, rfl, carries_stateVariableShadowing⟩, ⟨_, rfl, carries_strictBalanceEquality⟩,
    ⟨_, rfl, carries_transferFixedGas⟩, ⟨_, rfl, carries_floatingPragma⟩,
    ⟨_, rfl, carries_encodePackedCollision⟩, fun r hr => absurd hr List.not_mem_nil⟩

end ContractAudit
