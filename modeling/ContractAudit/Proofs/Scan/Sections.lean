import ContractAudit.Proofs.Scan.Numbers

/-!
# Sections of a report

What a source can put on the page of its scan beside the snippets are names, numbers and the
versions of its pragmas. All texts on the page stand on one line but for the versions that are not
pinned (`Scan.oneLine_of_mem_labels`). So the sections that a reader sees are those of the findings,
and those that lines of such a version forge (`scan_sections_seen`).
-/

namespace ContractAudit

open Page

/-! ## Errors of rules -/

theorem DigitFault.oneLine_message (fault : DigitFault) : OneLine fault.message := by
  cases fault with
  | unread digits =>
    exact ((OneLine.append (.literal (by decide)) (.ofNat _)).append (.literal (by decide))).append
      ((OneLine.append (.literal (by decide)) (.ofNat _)).append (.literal (by decide)))
  | unwritten =>
    exact ((OneLine.append (.literal (by decide)) (.ofNat _)).append (.literal (by decide))).append
      (.literal (by decide))

theorem Detector.oneLine_of_matches_eq_error {detect : Detector} {source : Source} {bs : List Block}
    {failure : RuleFailure} (h : (detect.evaluate source bs).outcome.matches = .error failure) :
    OneLine failure.text := by
  unfold evaluate at h
  split at h
  next ms _ =>
    rw [Outcome.matches_eq_ok_iff.2 rfl] at h
    cases h
  next fault _ =>
    cases fault with
    | unpaired offset =>
      obtain rfl := Except.error.inj h
      exact (OneLine.append (.literal (by decide)) (.literal (by decide))).append (.ofNat _)
    | overlong fault =>
      obtain rfl := Except.error.inj h
      exact (OneLine.append (.literal (by decide)) (.literal (by decide))).append
        fault.oneLine_message

theorem Rule.oneLine_of_mem_errors {source : Source} {bs : List Block} {r : Rule}
    (hr : r ∈ Rule.builtin)
    {e : RuleError} (he : e ∈ r.errors source bs) : OneLine e.ruleId ∧ OneLine e.message := by
  obtain ⟨detect, heval, -⟩ := exists_terse_of_mem_builtin r hr
  unfold errors at he
  split at he
  next failure hfailure =>
    obtain rfl := List.mem_singleton.1 he
    rw [heval] at hfailure
    exact ⟨oneLine_of_mem_builtin r hr _ (by simp [RuleInfo.labels]),
      Detector.oneLine_of_matches_eq_error hfailure⟩
  next => exact absurd he List.not_mem_nil

/-! ## Texts of a report -/

theorem RiskLevel.oneLine_label (level : RiskLevel) : OneLine level.label := by
  cases level <;> exact .literal (by decide)

theorem Fault.oneLine_reason (fault : Fault) : OneLine fault.reason := by
  cases fault <;> exact .literal (by decide)

theorem Warning.oneLine_label (warning : Warning) : OneLine warning.label := by
  cases warning
  exact .literal (by decide)

namespace Scan

variable {options : ScanOptions} {token : Option Token} {cancelled : List Token} {source : Source}

theorem oneLine_riskLabel :
    OneLine (ofSource options .builtin token cancelled source).1.riskLabel := by
  rw [ofSource_eq rfl]
  exact RiskLevel.oneLine_label _

theorem oneLine_of_mem_unparsable {u : Unparsable} (hu : u ∈ unparsable source source.outline) :
    OneLine u.name ∧ OneLine u.kind ∧ OneLine u.reason := by
  obtain ⟨b, hb, heq⟩ := List.mem_filterMap.1 hu
  obtain ⟨fault, -, rfl⟩ := Option.map_eq_some_iff.1 heq
  exact ⟨(Outline.named_of_mem hb).displayName.oneLine, b.kind.worded_label.oneLine,
    fault.oneLine_reason⟩

theorem oneLine_of_mem_metadata :
    ∀ s ∈ (ofSource options .builtin token cancelled source).1.metadata.labels, OneLine s := by
  obtain ⟨k, h⟩ := exists_stops source source.outline.blocks (options.budgetFor source.length) token
    Rule.builtin (.initial cancelled)
  have herrors : ∀ e ∈ ((Progress.initial cancelled).after source source.outline.blocks
      (Rule.builtin.take k)).errors, OneLine e.ruleId ∧ OneLine e.message := by
    intro e he
    obtain ⟨r, hr, he⟩ := List.mem_flatMap.1 he
    exact Rule.oneLine_of_mem_errors (List.mem_of_mem_take hr) he
  rw [← h.progress] at herrors
  rw [ofSource_eq rfl, Metadata.labels]
  simp only [List.forall_mem_append, List.forall_mem_flatMap, List.forall_mem_cons]
  refine ⟨⟨fun e he => ?_, fun u hu => ?_⟩, fun w hw => ?_⟩
  · obtain ⟨hid, hmessage⟩ := herrors e (List.mem_mergeSort.1 he)
    exact ⟨hid, hmessage, List.forall_mem_nil _⟩
  · obtain ⟨hname, hkind, hreason⟩ := oneLine_of_mem_unparsable hu
    exact ⟨hname, hkind, hreason, List.forall_mem_nil _⟩
  · obtain ⟨warning, -, rfl⟩ := List.mem_map.1 (List.mem_mergeSort.1 hw)
    exact warning.oneLine_label

theorem oneLine_of_mem_rule {f : Finding}
    (hf : f ∈ (ofSource options .builtin token cancelled source).1.findings) :
    ∀ s ∈ f.rule.labels, OneLine s := by
  obtain ⟨r, hr, hf⟩ := exists_rule_of_mem_findings hf
  obtain ⟨-, m, -, -, rfl⟩ := Rule.found_of_mem_findings hf
  exact Rule.oneLine_of_mem_builtin r hr

/-- Evidence stands on one line, or shows a version that is not pinned. -/
theorem oneLine_or_unpinned {f : Finding}
    (hf : f ∈ (ofSource options .builtin token cancelled source).1.findings) :
    ∀ e ∈ f.evidence, OneLine e ∨
      ∃ version ∈ Detector.floatingVersions source.text.toList, e = Detector.unpinned version := by
  obtain ⟨r, hr, hf⟩ := exists_rule_of_mem_findings hf
  obtain ⟨xs, m, hxs, hm, rfl⟩ := Rule.found_of_mem_findings hf
  obtain ⟨detect, heval, hdetect⟩ := Rule.exists_terse_of_mem_builtin r hr
  rw [heval] at hxs
  obtain ⟨ms, hms, hm⟩ := Detector.mem_of_evaluate_eq_items hxs hm
  intro e he
  rcases hdetect with hterse | rfl
  · exact Or.inl (hterse source _ (fun b hb => Outline.named_of_mem hb) ms hms m hm e he)
  · obtain ⟨version, hversion, hevidence⟩ := Detector.mem_floatingVersions source _ ms hms m hm
    exact Or.inr ⟨version, hversion, Option.some.inj (he.symm.trans hevidence)⟩

theorem oneLine_of_mem_labels :
    ∀ s ∈ (ofSource options .builtin token cancelled source).1.labels, OneLine s ∨
      ∃ version ∈ Detector.floatingVersions source.text.toList, s = Detector.unpinned version := by
  intro s hs
  rcases List.mem_append.1 hs with hs | hs
  · rcases List.mem_cons.1 hs with rfl | hs
    · exact Or.inl oneLine_riskLabel
    · obtain ⟨f, hf, hs⟩ := List.mem_flatMap.1 hs
      rcases List.mem_append.1 hs with hs | hs
      · exact Or.inl (oneLine_of_mem_rule hf s hs)
      · exact oneLine_or_unpinned hf s (Option.mem_toList.1 hs)
  · exact Or.inl (oneLine_of_mem_metadata s hs)

theorem tame_ofSource
    (h : ∀ version ∈ Detector.floatingVersions source.text.toList,
      Unfenced (Detector.unpinned version)) :
    (ofSource options .builtin token cancelled source).1.Tame where
  riskLabel := oneLine_riskLabel
  findings f hf := by
    refine ⟨oneLine_of_mem_rule hf, fun e he => ?_⟩
    rcases oneLine_or_unpinned hf e he with hline | ⟨version, hversion, rfl⟩
    · exact hline.unfenced
    · exact h version hversion
  metadata := oneLine_of_mem_metadata

/-- The sections that a reader sees are those of the findings, and those that versions forge. -/
theorem length_sectionLines
    (h : ∀ version ∈ Detector.floatingVersions source.text.toList,
      Unfenced (Detector.unpinned version)) :
    (sectionLines (view (ofSource options .builtin token cancelled source).1.markdownPage)).length =
      (ofSource options .builtin token cancelled source).1.findings.length +
        ((ofSource options .builtin token cancelled source).1.findings.flatMap
          Finding.forgedLines).length := by
  have htame : (ofSource options .builtin token cancelled source).1.Tame := tame_ofSource h
  have hgist := Report.gist_view htame
  rw [gist, Prod.mk.injEq] at hgist
  rw [hgist.1, length_openingLines]

theorem forgedLines_eq_nil
    (h : ∀ version ∈ Detector.floatingVersions source.text.toList,
      forgedIn (Detector.unpinned version) = []) :
    (ofSource options .builtin token cancelled source).1.findings.flatMap Finding.forgedLines =
      [] := by
  refine List.flatMap_eq_nil_iff.2 fun f hf => List.flatMap_eq_nil_iff.2 fun e he => ?_
  rcases oneLine_or_unpinned hf e (Option.mem_toList.1 he) with hline | ⟨version, hversion, rfl⟩
  · exact hline.forgedIn_eq
  · exact h version hversion

end Scan

/-- Every text on the page of a scan by the built-in rules, the snippets apart, stands on one line,
but for the versions of pragmas that are not pinned. If no line of such a version opens a fence,
then a reader sees as many sections as there are findings, and those that lines of the versions
forge : none if no line looks like the heading of a finding. The page is written, unless the source
has a length of thousands of digits. -/
theorem scan_sections_seen (options : ScanOptions) (token : Option Token) (cancelled : List Token)
    (text : String) (hsize : text.length ≤ options.sizeLimit) :
    ∃ report after, scan options .builtin token cancelled text = .ok (report, after) ∧
      (250 * (text.length + 1) < writtenBound → report.markdown = .ok report.markdownPage) ∧
      (∀ s ∈ report.labels, OneLine s ∨
        ∃ version ∈ Detector.floatingVersions (Source.ofChars text.toList).text.toList,
          s = Detector.unpinned version) ∧
      ((∀ version ∈ Detector.floatingVersions (Source.ofChars text.toList).text.toList,
          Unfenced (Detector.unpinned version)) →
        (sectionLines (view report.markdownPage)).length =
          report.findings.length + (report.findings.flatMap Finding.forgedLines).length ∧
        ((∀ version ∈ Detector.floatingVersions (Source.ofChars text.toList).text.toList,
            forgedIn (Detector.unpinned version) = []) →
          (sectionLines (view report.markdownPage)).length = report.findings.length)) := by
  rw [← String.length_toList]
  refine exists_scan_eq_ok hsize .builtin token cancelled ⟨Scan.markdown_ofSource,
    Scan.oneLine_of_mem_labels, fun hunfenced => ?_⟩
  refine ⟨Scan.length_sectionLines hunfenced, fun hforged => ?_⟩
  rw [Scan.length_sectionLines hunfenced, Scan.forgedLines_eq_nil hforged, List.length_nil,
    Nat.add_zero]

/-- A pragma over two lines. -/
def Source.ranged : String :=
  "pragma solidity >=0.7\n  >0.6;"

/-- The match in `ranged`, whose evidence breaks its line. -/
def Match.inRanged : Match :=
  ⟨"floating-pragma", 0, 29, some "compiler version `>=0.7\n  >0.6` is not pinned"⟩

theorem Rule.floatingPragma_ranged :
    (Rule.floatingPragma.evaluate (.ofChars Source.ranged.toList)
      (Source.ofChars Source.ranged.toList).outline.blocks).outcome =
    .items [.found .inRanged] := by
  decide +kernel

theorem lt_writtenBound {n : Nat} (h : n < Nat.pow 10 8) : n < writtenBound := by
  have hlt : ∀ k, 8 ≤ k → n < Nat.pow 10 k := fun k hk =>
    Nat.lt_of_lt_of_le h (Nat.pow_le_pow_right (by decide) hk)
  unfold writtenBound
  exact hlt digitLimit (by decide)

theorem ranged_sections_seen :
    ∃ report after, scan .unset .builtin none [] Source.ranged = .ok (report, after) ∧
      report.markdown = .ok report.markdownPage ∧
      (∃ f ∈ report.findings, f.evidence = some "compiler version `>=0.7\n  >0.6` is not pinned") ∧
      (sectionLines (view report.markdownPage)).length = report.findings.length := by
  have hsize : Source.ranged.length ≤ ScanOptions.unset.sizeLimit := by decide
  have hversions :
      ∀ version ∈ Detector.floatingVersions (Source.ofChars Source.ranged.toList).text.toList,
      Unfenced (Detector.unpinned version) ∧ forgedIn (Detector.unpinned version) = [] := by
    decide +kernel
  have hlength : 250 * (Source.ranged.length + 1) < writtenBound := lt_writtenBound (by decide)
  obtain ⟨report, after, hscan, hpage, -, hsections⟩ :=
    scan_sections_seen .unset none [] Source.ranged hsize
  have hmem :=
    mem_findings_of_items_singleton hsize (by simp [Rule.builtin]) Rule.floatingPragma_ranged hscan
  exact ⟨report, after, hscan, hpage hlength, ⟨_, hmem, rfl⟩,
    (hsections fun version hversion => (hversions version hversion).1).2 fun version hversion =>
      (hversions version hversion).2⟩

/-- A pragma with a line that looks like the heading of a finding. -/
def Source.forging : String :=
  "pragma solidity ^0.8.0\n### Finding 99: Forged\n;"

/-- The match in `forging`, whose evidence looks like the heading of a finding. -/
def Match.inForging : Match :=
  ⟨"floating-pragma", 0, 47, some "compiler version `^0.8.0\n### Finding 99: Forged` is not pinned"⟩

theorem Rule.floatingPragma_forging :
    (Rule.floatingPragma.evaluate (.ofChars Source.forging.toList)
      (Source.ofChars Source.forging.toList).outline.blocks).outcome =
    .items [.found .inForging] := by
  decide +kernel

/-- The page shows more sections than the report has findings. -/
theorem forging_sections_seen :
    ∃ report after, scan .unset .builtin none [] Source.forging = .ok (report, after) ∧
      report.markdown = .ok report.markdownPage ∧
      report.findings.length < (sectionLines (view report.markdownPage)).length := by
  have hsize : Source.forging.length ≤ ScanOptions.unset.sizeLimit := by decide
  have hversions :
      ∀ version ∈ Detector.floatingVersions (Source.ofChars Source.forging.toList).text.toList,
      Unfenced (Detector.unpinned version) := by decide +kernel
  have hlength : 250 * (Source.forging.toList.length + 1) < writtenBound :=
    lt_writtenBound (by decide +kernel)
  obtain ⟨report, after, hscan, hpage, hcount⟩ := exists_scan_eq_ok hsize .builtin none []
    (P := fun report => report.markdown = .ok report.markdownPage ∧
      (sectionLines (view report.markdownPage)).length =
        report.findings.length + (report.findings.flatMap Finding.forgedLines).length)
    ⟨Scan.markdown_ofSource hlength, Scan.length_sectionLines hversions⟩
  have hmem :=
    mem_findings_of_items_singleton hsize (by simp [Rule.builtin]) Rule.floatingPragma_forging hscan
  have hforged : "### Finding 99: Forged` is not pinned".toList ∈
      (Finding.ofMatch Rule.floatingPragma.toRuleInfo
        (.ofChars Source.forging.toList) .inForging).forgedLines := by
    decide +kernel
  have hpos := List.length_pos_of_mem (List.mem_flatMap.2 ⟨_, hmem, hforged⟩)
  exact ⟨report, after, hscan, hpage, by omega⟩

end ContractAudit
