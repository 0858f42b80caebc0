import ContractAudit.Proofs.Rule.Bounds
import ContractAudit.Proofs.Scan.Budget
import ContractAudit.Proofs.Scan.Overlap

/-!
# Findings of the built-in rules

The matches of the built-in rules lie inside the source (`Rule.staysInside_of_mem_builtin`). So the
offsets of a finding are those of its match, nothing is moved, and its snippet is not empty
(`Finding.unmoved_of_inside`). Findings of one rule share no character, as findings of any rule.
-/

namespace ContractAudit

/-- All matches of the rule lie inside the source and are not empty. -/
def Rule.StaysInside (source : Source) (r : Rule) : Prop :=
  ∀ (xs : List Item) (m : Match),
    (r.evaluate source source.outline.blocks).outcome = .items xs → .found m ∈ xs →
      m.Inside source.length

variable {source : Source} {m : Match}

theorem Detector.mem_of_evaluate_eq_items {detect : Detector} {bs : List Block} {xs : List Item}
    (h : (detect.evaluate source bs).outcome = .items xs) (hm : .found m ∈ xs) :
    ∃ ms, detect source bs = .ok ms ∧ m ∈ ms := by
  unfold evaluate at h
  split at h
  next ms hms =>
    obtain rfl : ms.map .found = xs := Outcome.items.inj h
    exact ⟨ms, hms, by simpa using hm⟩
  next fault _ => cases fault <;> cases h

variable {r : Rule}

theorem Rule.staysInside_of_mem_builtin (hr : r ∈ Rule.builtin) (cs : List Char) :
    r.StaysInside (.ofChars cs) := by
  obtain ⟨detect, heval, hinside⟩ := exists_detector_of_mem_builtin r hr
  intro xs m hxs hm
  rw [heval] at hxs
  obtain ⟨ms, hms, hm⟩ := Detector.mem_of_evaluate_eq_items hxs hm
  have hsize : (Source.ofChars cs).text.size = (Source.ofChars cs).length := by
    rw [← Array.length_toList, Source.length_text_ofChars, Source.length_ofChars]
  exact hsize ▸ hinside (.ofChars cs) ms hms m hm

/-- The finding has the offsets of a match that its rule made, and shows something. -/
structure Finding.Unmoved (source : Source) (r : Rule) (f : Finding) : Prop where
  exists_match : ∃ xs m, (r.evaluate source source.outline.blocks).outcome = .items xs ∧
    .found m ∈ xs ∧ f.start = m.start ∧ f.stop = m.stop
  snippet_ne : f.snippet ≠ ""

theorem Source.snippet_ne_empty {start stop : Nat} (hlt : start < stop) (hle : stop ≤ source.length)
    : source.snippet start stop ≠ "" := by
  intro hempty
  have hlength := congrArg String.length hempty
  rw [snippet, String.length_ofList, Array.length_toList, Array.size_extract] at hlength
  unfold length at hle
  rw [String.length_empty] at hlength
  omega

theorem Finding.unmoved_of_inside {f : Finding} (hr : r.StaysInside source) (hf : r.Found source f)
    : f.Unmoved source r := by
  obtain ⟨xs, m, hxs, hm, rfl⟩ := hf
  obtain ⟨hnonneg, hlt, hle⟩ := hr xs m hxs hm
  have hstart : (source.clamp m.start : Int) = m.start := by
    rw [Source.clamp]
    omega
  have hstop : (source.clamp m.stop : Int) = m.stop := by
    rw [Source.clamp]
    omega
  refine ⟨⟨xs, m, hxs, hm, hstart, ?_⟩, Source.snippet_ne_empty ?_ ?_⟩
  · show ((max (source.clamp m.start) (source.clamp m.stop) : Nat) : Int) = m.stop
    omega
  · omega
  · omega

/-- Every match of a built-in rule lies inside the source and is not empty. So in a scan by the
built-in rules no offset is moved, every snippet shows something, and findings of one rule share no
character. -/
theorem builtin_matches_stay_inside (text : String) :
    (∀ r ∈ Rule.builtin, r.StaysInside (.ofChars text.toList)) ∧
      ∀ (options : ScanOptions) (token : Option Token) (cancelled : List Token),
        text.length ≤ options.sizeLimit →
        ∃ report after, scan options .builtin token cancelled text = .ok (report, after) ∧
          (∀ f ∈ report.findings, ∃ r ∈ Rule.builtin, f.rule = r.toRuleInfo ∧
            f.Unmoved (.ofChars text.toList) r) ∧
          report.findings.Pairwise fun f g => f.rule.id = g.rule.id → f.Apart g := by
  have hinside : ∀ r ∈ Rule.builtin, r.StaysInside (.ofChars text.toList) := fun r hr =>
    Rule.staysInside_of_mem_builtin hr text.toList
  refine ⟨hinside, fun options token cancelled hsize => exists_scan_eq_ok hsize _ _ _ ⟨?_, ?_⟩⟩
  · intro f hf
    obtain ⟨r, hr, hf⟩ := Scan.exists_rule_of_mem_findings hf
    have hfound := Rule.found_of_mem_findings hf
    have hrule : f.rule = r.toRuleInfo := by
      obtain ⟨-, m, -, -, rfl⟩ := hfound
      rfl
    exact ⟨r, hr, hrule, Finding.unmoved_of_inside (hinside r hr) hfound⟩
  · refine Scan.pairwise_ofSource_findings (fun f g h => h.symm) options token cancelled
      (by decide) fun r _ => ?_
    exact (Rule.pairwise_findings _ r).imp fun h => h.1

/-- The finding of a rule that makes one match. -/
theorem Rule.findings_of_items_singleton
    (h : (r.evaluate source source.outline.blocks).outcome = .items [.found m]) :
    r.findings source source.outline.blocks = [.ofMatch r.toRuleInfo source m] := by
  have hmatches : (r.evaluate source source.outline.blocks).outcome.matches = .ok [m] :=
    Outcome.matches_eq_ok_iff.2 h
  rw [findings, hmatches]
  show (dropOverlaps [{ m with ruleId := r.id }]).map (Finding.ofMatch r.toRuleInfo source) = _
  rw [dropOverlaps_singleton]
  rfl

/-- A scan by the built-in rules reports it. -/
theorem mem_findings_of_items_singleton {text : String} {report : Report} {after : List Token}
    (hsize : text.length ≤ ScanOptions.unset.sizeLimit) (hr : r ∈ Rule.builtin)
    (h : (r.evaluate (.ofChars text.toList) (Source.ofChars text.toList).outline.blocks).outcome =
      .items [.found m]) (hscan : scan .unset .builtin none [] text = .ok (report, after)) :
    .ofMatch r.toRuleInfo (.ofChars text.toList) m ∈ report.findings := by
  rw [scan_eq_ofSource hsize] at hscan
  obtain rfl : (Scan.ofSource .unset .builtin none [] (.ofChars text.toList)).1 = report :=
    congrArg Prod.fst (Except.ok.inj hscan)
  rw [Scan.ofSource_of_affords (Scan.uncancelled_none ..) (Scan.affords_builtin rfl _)]
  refine List.mem_mergeSort.2 (List.mem_flatMap.2 ⟨r, hr, ?_⟩)
  rw [Rule.findings_of_items_singleton h]
  exact List.mem_singleton_self _

/-- A member without a body, in which the origin is compared. -/
def Source.halfWritten : String :=
  "pragma solidity ^0.8.0;function f(\x7btx.origin==a"

/-- The match of that comparison. -/
def Match.inHalfWritten : Match :=
  ⟨"tx-origin-auth", 35, 47, some "tx.origin compared with `a`"⟩

theorem Rule.txOriginAuth_halfWritten :
    (Rule.txOriginAuth.evaluate (.ofChars Source.halfWritten.toList)
      (Source.ofChars Source.halfWritten.toList).outline.blocks).outcome =
        .items [.found .inHalfWritten] := by
  decide +kernel

theorem halfWritten_matches_stay_inside :
    Rule.txOriginAuth.StaysInside (.ofChars Source.halfWritten.toList) ∧
      ∃ report after, scan .unset .builtin none [] Source.halfWritten = .ok (report, after) ∧
        (∃ f ∈ report.findings, f.start = 35 ∧ f.stop = 47 ∧ f.snippet ≠ "") ∧
        report.findings.Pairwise fun f g => f.rule.id = g.rule.id → f.Apart g := by
  have hsize : Source.halfWritten.length ≤ ScanOptions.unset.sizeLimit := by decide
  have hmem : Rule.txOriginAuth ∈ Rule.builtin := by simp [Rule.builtin]
  obtain ⟨hinside, hscan⟩ := builtin_matches_stay_inside Source.halfWritten
  obtain ⟨report, after, hok, hunmoved, hapart⟩ := hscan .unset none [] hsize
  refine ⟨hinside _ hmem, report, after, hok, ?_, hapart⟩
  have hf := mem_findings_of_items_singleton hsize hmem Rule.txOriginAuth_halfWritten hok
  obtain ⟨r, -, -, hshown⟩ := hunmoved _ hf
  exact ⟨_, hf, by decide +kernel, by decide +kernel, hshown.snippet_ne⟩

end ContractAudit
