import ContractAudit.Proofs.Rule.Members

/-!
# Matches of the built-in rules

No built-in rule marks anything outside the source, and each match has at least one character
(`Rule.exists_detector_of_mem_builtin`). For the detectors that mark statements and headers this is
where these lie (`Detector.MarksMembers.staysInside`). The others mark what a pattern matches, in
the whole text or in a part of it, and their patterns take at least one character (`Pattern.Opens`).
-/

namespace ContractAudit

open Pattern

namespace Detector

/-- All matches in the source lie inside its text and are not empty. -/
def StaysInside (source : Source) (detect : Detector) : Prop :=
  Yields (fun ms => ∀ m ∈ ms, m.Inside source.text.size) (detect source source.outline.blocks)

variable {source : Source}

theorem inside_of_marks {b : Block} (hb : b ∈ source.outline.blocks) (hparsed : b.isParsed)
    {m : Match} (hm : b.Marks source m) : m.Inside source.text.size := by
  obtain ⟨lo, hi, hlies⟩ := Outline.exists_liesIn hb hparsed
  exact hlies.inside_of_marks hm

theorem MarksMembers.staysInside {detect : Detector} (h : detect.MarksMembers) (source : Source) :
    detect.StaysInside source := by
  intro ms hms m hm
  obtain ⟨b, hb, hparsed, hmarks⟩ := h source source.outline.blocks ms hms m hm
  exact inside_of_marks hb hparsed hmarks

theorem staysInside_eachBlock {f : Source → Block → Except DetectorFault (List Match)}
    (hf : ∀ b ∈ source.outline.blocks,
      Yields (fun ms => ∀ m ∈ ms, m.Inside source.text.size) (f source b)) :
    (eachBlock f).StaysInside source := by
  intro ms hms m hm
  obtain ⟨b, -, hinside⟩ :=
    yields_eachBlock (Q := fun _ m => m.Inside source.text.size) hf ms hms m hm
  exact hinside

/-! ## Origin of the transaction -/

theorem opens_originComparison :
    originComparison.Opens fun c => isWordChar c || c == '.' := by
  refine opens_oneOf fun p hp => ?_
  simp only [List.mem_cons, List.not_mem_nil, or_false] at hp
  rcases hp with rfl | rfl
  · exact ((((opens_text rfl (by decide)).append _).append _).append _).append _
  · exact ((((((opens_char _).append _).named _).append _).append _).append _).append _

theorem lt_of_mem_originComparisons {cs : List Char} {h : Hit} {evidence : String}
    (hh : (h, evidence) ∈ originComparisons (Cursor.start cs)) :
    h.start.offset < h.stop.offset ∧ h.stop.offset ≤ cs.length := by
  obtain ⟨g, hg, heq⟩ := List.mem_filterMap.1 hh
  dsimp only at heq
  split at heq
  · cases heq
  · obtain ⟨rfl, -⟩ := Prod.mk.inj (Option.some.inj heq)
    exact (opens_originComparison.lt_of_mem_findAll (Cursor.in_start cs)
      (mem_findAll_of_mem_findAllWith hg)).2

theorem staysInside_txOriginAuth (source : Source) : txOriginAuth.StaysInside source := by
  refine staysInside_eachBlock fun b hb => yields_pure fun m hm => ?_
  split at hm
  next hparsed =>
    obtain ⟨s, hs, hm⟩ := List.mem_flatMap.1 hm
    obtain ⟨⟨h, evidence⟩, -, rfl⟩ := List.mem_map.1 hm
    exact inside_of_marks hb hparsed (.statement hs _ _)
  next =>
    -- The comparison is found in the text of the member, which starts at its own offset.
    obtain ⟨⟨h, evidence⟩, hh, rfl⟩ := List.mem_map.1 hm
    obtain ⟨hlt, hle⟩ := lt_of_mem_originComparisons hh
    rw [Source.slice, Array.length_toList, Array.size_extract] at hle
    refine ⟨?_, ?_, ?_⟩ <;> dsimp only <;> omega

/-! ## Unchecked blocks -/

theorem opens_uncheckedBlock : uncheckedBlock.Opens (!isBlank ·) :=
  (((opens_text rfl rfl).check_append _).append _).append _

/-- A part of the text is searched as a text that ends where the part does. -/
theorem in_window {lo hi : Nat} (hlo : lo ≤ hi) (hhi : hi ≤ source.text.size) :
    (source.window lo hi).In (source.text.toList.take hi) := by
  refine ⟨?_, ?_, ?_⟩
  · show lo ≤ (source.text.toList.take hi).length
    rw [List.length_take, Array.length_toList]
    omega
  · show source.slice lo hi = (source.text.toList.take hi).drop lo
    rw [Source.slice, Array.toList_extract, List.extract_eq_take_drop, List.drop_take]
  · show (if lo = 0 then none else source.text[lo - 1]?) =
      ((source.text.toList.take hi).take lo).getLast?
    rw [List.take_take, Nat.min_eq_left hlo, List.getLast?_take, Array.getElem?_toList]
    split
    next => rfl
    next hpos => rw [Array.getElem?_eq_getElem (by omega), Option.some_or]

/-- The matches found so far, and those found later, lie inside. -/
theorem inside_of_mem_uncheckedBlocks {stop : Nat} (hstop : stop ≤ source.text.size) :
    ∀ {hs : List Hit} {found : List Match} {covered : Nat},
      (∀ h ∈ hs, h.start.offset < h.stop.offset ∧ h.stop.offset ≤ stop) →
      (∀ m ∈ found, m.Inside source.text.size) →
      ∀ m ∈ uncheckedBlocks source (Pairs.braces source.text.toList) stop found covered hs,
        m.Inside source.text.size
  | [], found, covered, _, hfound, m, hm => hfound m (List.mem_reverse.1 hm)
  | h :: hs, found, covered, hhits, hfound, m, hm => by
    have hlater := fun h' hh' => hhits h' (List.mem_cons_of_mem _ hh')
    obtain ⟨hlt, hle⟩ := hhits h List.mem_cons_self
    unfold uncheckedBlocks at hm
    split at hm
    · exact inside_of_mem_uncheckedBlocks hstop hlater hfound m hm
    · refine inside_of_mem_uncheckedBlocks hstop hlater (fun m' hm' => ?_) m hm
      split at hm'
      · rcases List.mem_cons.1 hm' with rfl | hm'
        · refine Match.inside_mk ?_ ?_ _ _
          · cases hclose : (Pairs.braces source.text.toList).close? (h.stop.offset - 1) with
            | none =>
              rw [Option.getD_none]
              omega
            | some k =>
              have hk := (Pairs.joins_of_close? hclose).lt
              rw [Option.getD_some]
              omega
          · omega
        · exact hfound m' hm'
      · exact hfound m' hm'

theorem staysInside_uncheckedArithmetic (source : Source) :
    uncheckedArithmetic.StaysInside source := by
  refine yields_bind (yields_true _) fun legacy _ => ?_
  refine staysInside_eachBlock fun b hb => ?_
  split
  next hparsed =>
    obtain ⟨lo, hi, hlies⟩ := Outline.exists_liesIn hb hparsed
    have hhi : hi ≤ source.text.size := Nat.le_of_lt (Array.length_toList ▸ hlies.stop_lt)
    refine yields_pure fun m hm => ?_
    rcases List.mem_append.1 hm with hm | hm
    · split at hm
      · exact inside_of_marks hb hparsed
          (Block.marks_of_mem_map_matched (fun s hs => (List.mem_filter.1 hs).1) hm)
      · exact absurd hm List.not_mem_nil
    · rw [hlies.body_eq] at hm
      refine inside_of_mem_uncheckedBlocks hhi (fun h hh => ?_) (by simp) m hm
      obtain ⟨-, hlt, hle⟩ :=
        opens_uncheckedBlock.lt_of_mem_findAll (in_window hlies.accounts.le hhi) hh
      rw [List.length_take] at hle
      omega
  next => exact yields_pure_nil

/-! ## The whole text -/

theorem opens_versionPragma : versionPragma.Opens (!isBlank ·) :=
  ((((((opens_text rfl rfl).check_append _).append _).append _).append _).append _).append _

theorem staysInside_floatingPragma (source : Source) : floatingPragma.StaysInside source := by
  refine yields_pure fun m hm => ?_
  obtain ⟨h, hh, hmatch⟩ := List.mem_filterMap.1 hm
  obtain ⟨-, hlt, hle⟩ :=
    opens_versionPragma.lt_of_mem_findAll (Cursor.in_start source.text.toList) hh
  dsimp only at hmatch
  split at hmatch
  · obtain rfl := Option.some.inj hmatch
    exact Match.inside_mk hlt (by rwa [Array.length_toList] at hle) _ _
  · cases hmatch

/-- The match ends with the opening bracket, which is not marked. -/
theorem lt_of_mem_encodePacked {cs : List Char} {h : Hit} (hh : h ∈ encodePacked.allIn cs) :
    h.start.offset < h.stop.offset - 1 ∧ h.stop.offset ≤ cs.length := by
  obtain ⟨hin, -, hreads⟩ := reads_of_mem_findAll (Cursor.in_start cs) hh
  have hopens : (edge ++ "abi" ++ blanks ++ "." ++ blanks ++ "encodePacked" ++ blanks).Opens
      (!isBlank ·) :=
    ((((((opens_text rfl rfl).check_append _).append _).append _).append _).append _).append _
  obtain ⟨e, rs, hpart, hpast, -⟩ := hreads
  obtain ⟨-, hlt⟩ := hopens cs _ _ _ _ hin hpart
  obtain ⟨hstop, hoff⟩ := Cursor.in_past? _ (hpart.in hin).1 hpast
  refine ⟨?_, hstop.offset_le⟩
  have hone : "(".toList.length = 1 := rfl
  omega

theorem staysInside_encodePackedCollision (source : Source) :
    encodePackedCollision.StaysInside source := by
  refine yields_bind (yields_mapM_filterMap fun h hh => ?_) fun found hfound => yields_pure hfound
  obtain ⟨hlt, hle⟩ := lt_of_mem_encodePacked hh
  rw [Array.length_toList] at hle
  refine yields_bind (yields_true _) fun args _ => yields_pure fun m hm => ?_
  split at hm
  · obtain rfl := Option.some.inj hm
    exact Match.inside_mk hlt (by omega) _ _
  · cases hm

end Detector

/-! ## The built-in rules -/

open Detector in
theorem Rule.exists_detector_of_mem_builtin : ∀ r ∈ Rule.builtin, ∃ detect : Detector,
    r.evaluate = detect.evaluate ∧ ∀ source, detect.StaysInside source := by
  intro r hr
  obtain ⟨detect, heval, hdetect⟩ := exists_reports_of_mem_builtin r hr
  refine ⟨detect, heval, ?_⟩
  simp only [List.mem_cons, List.not_mem_nil, or_false] at hdetect
  rcases hdetect with hreports | rfl | rfl | rfl | rfl
  · exact hreports.marksMembers.staysInside
  · exact staysInside_txOriginAuth
  · exact staysInside_uncheckedArithmetic
  · exact staysInside_floatingPragma
  · exact staysInside_encodePackedCollision

end ContractAudit
