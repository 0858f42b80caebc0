import ContractAudit.Proofs.Scan.Isolation
import ContractAudit.Proofs.Source.Location

/-!
# Where findings are

A finding points at its own snippet (`Finding.PointsAt`), whatever offsets its match has : they are
moved into the source, and the line and column of an offset of the source lead back to it.
-/

namespace ContractAudit

/-! ## Rules with a fixed answer -/

/-- The findings of a rule that gives the same matches on every source, from the widest on. -/
theorem Rule.findings_constant (source : Source) (blocks : List Block) {id : String}
    {severity : Severity} {ms : List Match} {cancels : List Token} (hid : ∀ m ∈ ms, m.ruleId = id)
    (hwidth : ms.Pairwise fun a b => (a.compareWidth b).isLE) :
    (Rule.constant id severity ⟨.items (ms.map .found), cancels⟩).findings source blocks =
      (ms.foldl keep #[]).toList.map (Finding.ofMatch
        (Rule.constant id severity ⟨.items (ms.map .found), cancels⟩).toRuleInfo source) := by
  have hmatches : (Outcome.items (ms.map .found)).matches = .ok ms :=
    Outcome.matches_eq_ok_iff.2 rfl
  have hown : (ms.map fun m => { m with ruleId := id }) = ms := by
    refine (List.map_congr_left fun m hm => ?_).trans (List.map_id ms)
    rw [← hid m hm]
    rfl
  simp only [Rule.findings, Rule.constant, hmatches, hown]
  rw [dropOverlaps_of_ruleId hid, keepWidest, List.mergeSort_of_pairwise hwidth]

/-- The findings of a scan by such a rule. -/
theorem Scan.findings_constant {options : ScanOptions} {source : Source} (cancelled : List Token)
    {id : String} (severity : Severity) {ms : List Match}
    (hbudget : Scan.Affords options source 1) (hid : ∀ m ∈ ms, m.ruleId = id)
    (hwidth : ms.Pairwise fun a b => (a.compareWidth b).isLE) :
    (Scan.ofSource options ⟨[.constant id severity ⟨.items (ms.map .found), []⟩]⟩ none cancelled
        source).1.findings =
      Finding.sort ((ms.foldl keep #[]).toList.map (Finding.ofMatch
        (Rule.constant id severity ⟨.items (ms.map .found), []⟩).toRuleInfo source)) := by
  rw [(Scan.ofSource_singleton (Scan.uncancelled_none ..) hbudget).1,
    Rule.findings_constant source _ hid hwidth]

/-! ## Findings -/

/-- The part of a text between two offsets. -/
def textBetween (text : String) (lo hi : Int) : String :=
  String.ofList (text.toList.extract lo.toNat hi.toNat)

theorem snippet_ofChars (text : String) (i j : Nat) :
    (Source.ofChars text.toList).snippet i j = textBetween text i j := by
  rw [Source.snippet, Array.toList_extract, textBetween, Int.toNat_natCast, Int.toNat_natCast]
  rfl

/-- The finding lies inside the text, shows what stands there, and its two places lead back to its
offsets. -/
structure Finding.PointsAt (text : String) (f : Finding) : Prop where
  nonneg : 0 ≤ f.start
  ordered : f.start ≤ f.stop
  inside : f.stop ≤ text.length
  snippet_eq : f.snippet = textBetween text f.start f.stop
  first_eq : (LineIndex.of text.toList).offset f.first = .ok f.start
  last_eq : (LineIndex.of text.toList).offset f.last = .ok f.stop

theorem Finding.pointsAt_ofMatch (rule : RuleInfo) (text : String) (m : Match) :
    (Finding.ofMatch rule (.ofChars text.toList) m).PointsAt text := by
  have hlength : (Source.ofChars text.toList).length = text.length := by
    rw [Source.length_ofChars, String.length_toList]
  have hstart := Source.clamp_le (.ofChars text.toList) m.start
  have hstop := Source.clamp_le (.ofChars text.toList) m.stop
  have hmax : max ((Source.ofChars text.toList).clamp m.start)
      ((Source.ofChars text.toList).clamp m.stop) ≤ text.length := by omega
  refine ⟨Int.natCast_nonneg _, ?_, Int.ofNat_le.2 hmax, ?_, ?_, ?_⟩
  · exact Int.ofNat_le.2 (Nat.le_max_left _ _)
  · exact snippet_ofChars text _ _
  · exact Source.offset_location_ofChars _ (by rw [String.length_toList]; omega)
  · exact Source.offset_location_ofChars _ (by rw [String.length_toList]; omega)

/-- Every finding of a scan by any rules points at its own snippet, so the text between its two
places is the snippet. -/
theorem scan_findings_point_at (options : ScanOptions) (catalog : Catalog) (token : Option Token)
    (cancelled : List Token) (text : String) (hsize : text.length ≤ options.sizeLimit) :
    ∃ report after, scan options catalog token cancelled text = .ok (report, after) ∧
      ∀ f ∈ report.findings, f.PointsAt text ∧
        ∃ lo hi, (LineIndex.of text.toList).offset f.first = .ok lo ∧
          (LineIndex.of text.toList).offset f.last = .ok hi ∧
          textBetween text lo hi = f.snippet := by
  refine ⟨_, _, scan_eq_ofSource hsize .., fun f hf => ?_⟩
  obtain ⟨r, -, hf⟩ := Scan.exists_rule_of_mem_findings hf
  obtain ⟨-, m, -, -, rfl⟩ := Rule.found_of_mem_findings hf
  have h := Finding.pointsAt_ofMatch r.toRuleInfo text m
  exact ⟨h, _, _, h.first_eq, h.last_eq, h.snippet_eq.symm⟩

/-- Matches that end behind the source, start before it, and end before they start. -/
def Match.astray : List Match :=
  [⟨"astray", 4, 99, none⟩, ⟨"astray", -4, 2, none⟩, ⟨"astray", 3, 1, none⟩,
    ⟨"astray", 100, 7, none⟩]

/-- A rule whose matches are `Match.astray`. -/
def Rule.astray : Rule :=
  .constant "astray" .low ⟨.items (Match.astray.map .found), []⟩

/-- The findings point at a line, at an empty text, at the last newline and at the end. -/
theorem scan_astray_points_at :
    ∃ report after, scan .unset ⟨[Rule.astray]⟩ none [] "a\n\nb\n" = .ok (report, after) ∧
      report.findings.map (·.snippet) = ["a\n", "", "\n", ""] ∧
      ∀ f ∈ report.findings, f.PointsAt "a\n\nb\n" ∧
        ∃ lo hi, (LineIndex.of "a\n\nb\n".toList).offset f.first = .ok lo ∧
          (LineIndex.of "a\n\nb\n".toList).offset f.last = .ok hi ∧
          textBetween "a\n\nb\n" lo hi = f.snippet := by
  obtain ⟨report, after, hscan, hpoints⟩ :=
    scan_findings_point_at .unset ⟨[Rule.astray]⟩ none [] "a\n\nb\n" (by decide)
  refine ⟨report, after, hscan, ?_, hpoints⟩
  have hbudget : Scan.Affords .unset (.ofChars "a\n\nb\n".toList) 1 := by decide +kernel
  have hid : ∀ m ∈ Match.astray, m.ruleId = "astray" := by decide
  rw [scan_eq_ofSource (by decide)] at hscan
  have hreport := congrArg Prod.fst (Except.ok.inj hscan)
  dsimp only at hreport
  rw [← hreport, Rule.astray, Scan.findings_constant [] .low hbudget hid (by decide), Finding.sort,
    List.mergeSort_of_pairwise (by decide +kernel)]
  decide +kernel

end ContractAudit
