import ContractAudit.Proofs.Scan.Location

/-!
# Findings of one rule

The matches that a rule keeps stand one behind the other, and moving their offsets into the source
does not let them overlap (`Finding.apart_ofMatch`). It can make them alike : matches outside the
source all end up as the empty range at its start or at its end. So findings of one rule share no
character of the source, but they can have the same range (`scan_findings_coincide`), though only
there (`scan_findings_apart`).
-/

namespace ContractAudit

namespace Finding

/-- No character lies in both ranges. -/
def Apart (f g : Finding) : Prop :=
  f.stop ≤ g.start ∨ g.stop ≤ f.start

/-- The two findings have the same range. -/
def Coincides (f g : Finding) : Prop :=
  f.start = g.start ∧ f.stop = g.stop

instance (f g : Finding) : Decidable (f.Coincides g) :=
  inferInstanceAs (Decidable (_ ∧ _))

/-- The range is the empty one at the start or at the end of a text of the given length. -/
def AtEdge (length : Nat) (f : Finding) : Prop :=
  f.start = f.stop ∧ (f.start = 0 ∨ f.start = length)

variable {rule : RuleInfo} {source : Source} {a b : Match}

/-- A match behind another makes a finding behind the other. -/
theorem apart_ofMatch (h : a.behind ≤ b.start) :
    (ofMatch rule source a).Apart (ofMatch rule source b) := by
  have hstart := a.start_lt_behind
  have hstop := a.stop_le_behind
  refine Or.inl ?_
  simp only [ofMatch, Source.clamp]
  omega

/-- If it makes the same range, both were moved to one end of the source. -/
theorem atEdge_of_coincides_ofMatch (h : a.behind ≤ b.start)
    (hsame : (ofMatch rule source a).Coincides (ofMatch rule source b)) :
    (ofMatch rule source a).AtEdge source.length := by
  have hstart := a.start_lt_behind
  have hstop := a.stop_le_behind
  simp only [Coincides, AtEdge, ofMatch, Source.clamp] at hsame ⊢
  omega

/-- Matches that start inside the source do not make the same range. -/
theorem not_coincides_ofMatch (h : a.behind ≤ b.start) (ha : 0 ≤ a.start)
    (hb : b.start ≤ source.length) :
    ¬ (ofMatch rule source a).Coincides (ofMatch rule source b) := by
  have hstart := a.start_lt_behind
  simp only [Coincides, ofMatch, Source.clamp]
  omega

end Finding

namespace Rule

variable {source : Source} {r : Rule}

/-- Every match of the rule starts inside the source, or at its end. -/
def StartsInside (source : Source) (r : Rule) : Prop :=
  ∀ (xs : List Item) (m : Match),
    (r.evaluate source source.outline.blocks).outcome = .items xs → .found m ∈ xs →
      0 ≤ m.start ∧ m.start ≤ source.length

/-- The findings of one rule come from matches one behind the other. -/
theorem exists_findings_eq_map (source : Source) (r : Rule) :
    ∃ ms : List Match,
      r.findings source source.outline.blocks = ms.map (Finding.ofMatch r.toRuleInfo source) ∧
      ms.Pairwise (fun a b => a.behind ≤ b.start) ∧
      (r.StartsInside source → ∀ m ∈ ms, 0 ≤ m.start ∧ m.start ≤ source.length) := by
  unfold findings
  split
  · exact ⟨[], rfl, .nil, by simp⟩
  next ms hms =>
    refine ⟨_, rfl, ?_, fun hinside m hm => ?_⟩
    · have hid : ∀ m ∈ ms.map fun m => { m with ruleId := r.id }, m.ruleId = r.id := by simp
      rw [dropOverlaps_of_ruleId hid]
      exact apart_keepWidest _
    · obtain ⟨m', hm', rfl⟩ := List.mem_map.1 (mem_of_mem_dropOverlaps hm)
      exact hinside _ m' (Outcome.matches_eq_ok_iff.1 hms) (List.mem_map_of_mem hm')

theorem pairwise_findings (source : Source) (r : Rule) :
    (r.findings source source.outline.blocks).Pairwise fun f g =>
      f.Apart g ∧ (f.Coincides g → f.AtEdge source.length) := by
  obtain ⟨ms, hms, hapart, -⟩ := exists_findings_eq_map source r
  rw [hms, List.pairwise_map]
  exact hapart.imp fun h => ⟨Finding.apart_ofMatch h, Finding.atEdge_of_coincides_ofMatch h⟩

theorem pairwise_findings_of_startsInside (h : r.StartsInside source) :
    (r.findings source source.outline.blocks).Pairwise fun f g => ¬ f.Coincides g := by
  obtain ⟨ms, hms, hapart, hinside⟩ := exists_findings_eq_map source r
  rw [hms, List.pairwise_map]
  refine hapart.imp_of_mem fun ha hb hab => ?_
  exact Finding.not_coincides_ofMatch hab (hinside h _ ha).1 (hinside h _ hb).2

end Rule

namespace Scan

/-- What holds of any two findings of each rule holds of any two findings of a report that belong to
one rule. -/
theorem pairwise_ofSource_findings {R : Finding → Finding → Prop} (hsymm : ∀ f g, R f g → R g f)
    (options : ScanOptions) (token : Option Token) (cancelled : List Token) {source : Source}
    {rules : List Rule} (hids : (rules.map (·.id)).Nodup)
    (h : ∀ r ∈ rules, (r.findings source source.outline.blocks).Pairwise R) :
    (ofSource options ⟨rules⟩ token cancelled source).1.findings.Pairwise fun f g =>
      f.rule.id = g.rule.id → R f g := by
  obtain ⟨k, hperm⟩ := exists_findings_perm options ⟨rules⟩ token cancelled source
  refine (hperm.pairwise_iff fun hfg heq => hsymm _ _ (hfg heq.symm)).2 ?_
  refine List.pairwise_flatMap.2 ⟨fun r hr => ?_, ?_⟩
  · refine (h r (List.mem_of_mem_take hr)).imp fun {f g} hfg (_ : f.rule.id = g.rule.id) => hfg
  · have hdistinct : (rules.take k).Pairwise fun r s => r.id ≠ s.id :=
      (List.pairwise_map.1 hids).sublist (List.take_sublist k rules)
    refine hdistinct.imp fun hne f hf g hg heq => ?_
    rw [Rule.id_eq_of_mem_findings _ f hf, Rule.id_eq_of_mem_findings _ g hg] at heq
    exact absurd heq hne

end Scan

/-- Findings of one rule share no character of the source. They have the same range only if this is
the empty one at the start or at the end of the source, and never if all matches start inside. -/
theorem scan_findings_apart (options : ScanOptions) (token : Option Token) (cancelled : List Token)
    (text : String) {rules : List Rule} {catalog : Catalog}
    (hcatalog : Catalog.ofRules rules = .ok catalog) (hsize : text.length ≤ options.sizeLimit) :
    ∃ report after, scan options catalog token cancelled text = .ok (report, after) ∧
      report.findings.Pairwise (fun f g => f.rule.id = g.rule.id →
        f.Apart g ∧ (f.Coincides g → f.AtEdge text.length)) ∧
      ((∀ r ∈ catalog.rules, r.StartsInside (.ofChars text.toList)) →
        report.findings.Pairwise fun f g => f.rule.id = g.rule.id → ¬ f.Coincides g) := by
  obtain ⟨hids, rfl⟩ := Catalog.ofRules_eq_ok_iff.1 hcatalog
  refine ⟨_, _, scan_eq_ofSource hsize .., ?_, fun hinside => ?_⟩
  · refine Scan.pairwise_ofSource_findings ?_ options token cancelled hids fun r _ => ?_
    · rintro f g ⟨hapart, hends⟩
      refine ⟨hapart.symm, fun hsame => ?_⟩
      have hends' := hends ⟨hsame.1.symm, hsame.2.symm⟩
      rwa [Finding.AtEdge, ← hsame.1, ← hsame.2] at hends'
    · have hlength : (Source.ofChars text.toList).length = text.length := by
        rw [Source.length_ofChars, String.length_toList]
      simpa only [hlength] using Rule.pairwise_findings (.ofChars text.toList) r
  · refine Scan.pairwise_ofSource_findings ?_ options token cancelled hids fun r hr => ?_
    · exact fun f g h hsame => h ⟨hsame.1.symm, hsame.2.symm⟩
    · exact Rule.pairwise_findings_of_startsInside (hinside r hr)

/-- The matches of the rule that gives the same matches on every source. -/
theorem Rule.startsInside_constant {source : Source} {id : String} {severity : Severity}
    {ms : List Match} {cancels : List Token}
    (h : ∀ m ∈ ms, 0 ≤ m.start ∧ m.start ≤ source.length) :
    (Rule.constant id severity ⟨.items (ms.map .found), cancels⟩).StartsInside source := by
  intro xs m hxs hm
  obtain rfl : ms.map .found = xs := Outcome.items.inj hxs
  exact h m (by simpa using hm)

/-- A match at the end of a text of eleven characters, a reversed one and an empty one. -/
def Match.bordering : List Match :=
  [⟨"bordering", 11, 20, none⟩, ⟨"bordering", 3, 1, none⟩, ⟨"bordering", 4, 4, none⟩]

/-- A rule whose matches are `Match.bordering`. -/
def Rule.bordering : Rule :=
  .constant "bordering" .low ⟨.items (Match.bordering.map .found), []⟩

theorem scan_bordering_findings_apart :
    ∃ report after, scan .unset ⟨[Rule.bordering]⟩ none [] "contract C;" = .ok (report, after) ∧
      report.findings.Pairwise (fun f g => f.rule.id = g.rule.id →
        f.Apart g ∧ (f.Coincides g → f.AtEdge "contract C;".length)) ∧
      report.findings.Pairwise fun f g => f.rule.id = g.rule.id → ¬ f.Coincides g := by
  have hcatalog : Catalog.ofRules [Rule.bordering] = .ok ⟨[Rule.bordering]⟩ :=
    Catalog.ofRules_eq_ok_iff.2 ⟨by simp, rfl⟩
  have hinside : ∀ r ∈ [Rule.bordering], r.StartsInside (.ofChars "contract C;".toList) := by
    intro r hr
    rw [List.mem_singleton.1 hr]
    exact Rule.startsInside_constant (by decide +kernel)
  obtain ⟨report, after, hscan, hapart, hdistinct⟩ :=
    scan_findings_apart .unset none [] "contract C;" hcatalog (by decide)
  exact ⟨report, after, hscan, hapart, hdistinct hinside⟩

/-- Two matches before the source. -/
def Match.ahead : List Match :=
  [⟨"ahead", -5, -3, none⟩, ⟨"ahead", -2, -1, none⟩]

/-- A rule whose matches are `Match.ahead`. -/
def Rule.ahead : Rule :=
  .constant "ahead" .low ⟨.items (Match.ahead.map .found), []⟩

/-- Two findings of one rule can have the same range. -/
theorem scan_findings_coincide :
    ∃ report after, scan .unset ⟨[Rule.ahead]⟩ none [] "contract C;" = .ok (report, after) ∧
      ¬ report.findings.Pairwise fun f g => f.rule.id = g.rule.id → ¬ f.Coincides g := by
  have hsize : "contract C;".length ≤ ScanOptions.unset.sizeLimit := by decide
  have hbudget : Scan.Affords .unset (.ofChars "contract C;".toList) 1 := by decide +kernel
  have hid : ∀ m ∈ Match.ahead, m.ruleId = "ahead" := by decide
  have hfindings := Scan.findings_constant [] .low hbudget hid (by decide)
  rw [Finding.sort, List.mergeSort_of_pairwise (by decide +kernel)] at hfindings
  rw [scan_eq_ofSource hsize, Rule.ahead]
  generalize Scan.ofSource .unset _ none [] (.ofChars "contract C;".toList) = result at hfindings ⊢
  refine ⟨result.1, result.2, rfl, ?_⟩
  rw [hfindings]
  decide +kernel

end ContractAudit
