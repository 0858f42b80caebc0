import ContractAudit.Proofs.Overlap
import ContractAudit.Proofs.Scan.Order

/-!
# Rules side by side

What a report says of one rule is what a scan by this rule alone reports (`Report.Isolates`). An
answer that is no list of matches (`Outcome.Fails`), whatever matches stand in it, gives one error
and no finding. A finding bears the data of the rule that was asked, whatever rule the match names
(`Rule.Found`).
-/

namespace ContractAudit

/-! ## Answers -/

theorem matchesOnly_cons_found (m : Match) (xs : List Item) :
    matchesOnly (.found m :: xs) = (matchesOnly xs).map (m :: ·) := by
  unfold matchesOnly
  rw [List.mapM_cons]
  cases List.mapM (m := Except String) _ xs <;> rfl

/-- A list that holds matches only is the list of these matches. -/
theorem matchesOnly_eq_ok_iff : ∀ {xs : List Item} {ms : List Match},
    matchesOnly xs = .ok ms ↔ xs = ms.map .found
  | [], ms => by
    simp [matchesOnly, pure, Except.pure, eq_comm]
  | .alien typeName :: xs, ms => by
    have herror : matchesOnly (.alien typeName :: xs) = .error typeName := by
      unfold matchesOnly
      rw [List.mapM_cons]
      rfl
    cases ms <;> simp [herror]
  | .found m :: xs, [] => by
    rw [matchesOnly_cons_found]
    cases matchesOnly xs <;> simp [Except.map]
  | .found m :: xs, n :: ms => by
    have ih : matchesOnly xs = .ok ms ↔ xs = ms.map .found := matchesOnly_eq_ok_iff
    rw [matchesOnly_cons_found, List.map_cons, List.cons.injEq, Item.found.injEq, ← ih]
    cases matchesOnly xs <;> simp [Except.map]

theorem exists_matchesOnly : ∀ {xs : List Item}, (∀ typeName, .alien typeName ∉ xs) →
    ∃ ms, matchesOnly xs = .ok ms
  | [], _ => ⟨[], rfl⟩
  | .alien typeName :: xs, h => absurd List.mem_cons_self (h typeName)
  | .found m :: xs, h => by
    have hxs : ∀ typeName, .alien typeName ∉ xs := fun typeName hin =>
      h typeName (List.mem_cons_of_mem _ hin)
    obtain ⟨ms, hms⟩ := exists_matchesOnly hxs
    exact ⟨m :: ms, by rw [matchesOnly_cons_found, hms]; rfl⟩

namespace Outcome

/-- Is an answer anything but a list of matches? -/
def Fails : Outcome → Prop
  | items xs => ∃ typeName, .alien typeName ∈ xs
  | notAList _ => True
  | failed _ _ => True

theorem matches_eq_ok_iff {o : Outcome} {ms : List Match} :
    o.matches = .ok ms ↔ o = .items (ms.map .found) := by
  cases o with
  | items xs =>
    rw [items.injEq, ← matchesOnly_eq_ok_iff, Outcome.matches]
    cases matchesOnly xs <;> simp [pure, Except.pure, throw, throwThe, MonadExceptOf.throw]
  | notAList typeName => simp [Outcome.matches, throw, throwThe, MonadExceptOf.throw]
  | failed kind message => simp [Outcome.matches, throw, throwThe, MonadExceptOf.throw]

theorem not_fails_items_found (ms : List Match) : ¬ (items (ms.map .found)).Fails := by
  rintro ⟨typeName, h⟩
  simp at h

theorem exists_matches_of_not_fails {o : Outcome} (h : ¬ o.Fails) : ∃ ms, o.matches = .ok ms := by
  cases o with
  | items xs =>
    obtain ⟨ms, hms⟩ := exists_matchesOnly fun typeName hin => h ⟨typeName, hin⟩
    exact ⟨ms, matches_eq_ok_iff.2 (congrArg items (matchesOnly_eq_ok_iff.1 hms))⟩
  | notAList typeName => exact absurd trivial h
  | failed kind message => exact absurd trivial h

end Outcome

/-! ## What a rule adds -/

namespace Rule

variable {source : Source} {blocks : List Block} {r : Rule}

/-- The answer of a rule holds a match that makes the finding. -/
def Found (source : Source) (r : Rule) (f : Finding) : Prop :=
  ∃ xs m, (r.evaluate source source.outline.blocks).outcome = .items xs ∧ .found m ∈ xs ∧
    f = .ofMatch r.toRuleInfo source m

theorem found_of_mem_findings {f : Finding} (h : f ∈ r.findings source source.outline.blocks) :
    r.Found source f := by
  unfold findings at h
  split at h
  · cases h
  next ms hms =>
    obtain ⟨m, hm, rfl⟩ := List.mem_map.1 h
    obtain ⟨m, hin, rfl⟩ := List.mem_map.1 (mem_of_mem_dropOverlaps hm)
    exact ⟨_, m, Outcome.matches_eq_ok_iff.1 hms, List.mem_map_of_mem hin, rfl⟩

/-- A failing rule adds one error and no finding. -/
theorem adds_of_fails (h : (r.evaluate source blocks).outcome.Fails) :
    r.findings source blocks = [] ∧ ∃ message, r.errors source blocks = [⟨r.id, message⟩] := by
  unfold findings errors
  split
  next failure _ => exact ⟨rfl, failure.text, rfl⟩
  next ms hms =>
    rw [Outcome.matches_eq_ok_iff.1 hms] at h
    exact absurd h (Outcome.not_fails_items_found ms)

/-- A rule that does not fail adds no error. -/
theorem errors_eq_nil_of_not_fails (h : ¬ (r.evaluate source blocks).outcome.Fails) :
    r.errors source blocks = [] := by
  obtain ⟨ms, hms⟩ := Outcome.exists_matches_of_not_fails h
  simp [errors, hms]

end Rule

/-! ## Reports -/

/-- What a report says of a rule is what the report `alone` of a scan by this rule says. -/
structure Report.Isolates (report alone : Report) (source : Source) (r : Rule) : Prop where
  findings : report.findings.filter (·.rule.id == r.id) = alone.findings
  errors : report.metadata.ruleErrors.filter (·.ruleId == r.id) = alone.metadata.ruleErrors
  /-- A failing rule has one error and no finding. -/
  failing : (r.evaluate source source.outline.blocks).outcome.Fails →
    report.findings.filter (·.rule.id == r.id) = [] ∧
      ∃ message, report.metadata.ruleErrors.filter (·.ruleId == r.id) = [⟨r.id, message⟩]
  succeeding : ¬ (r.evaluate source source.outline.blocks).outcome.Fails →
    report.metadata.ruleErrors.filter (·.ruleId == r.id) = []

namespace Scan

variable {options : ScanOptions} {source : Source} {token : Option Token} {cancelled : List Token}
  {rules : List Rule} {r : Rule}

theorem findings_filter_eq (hids : (rules.map (·.id)).Nodup) (hr : r ∈ rules)
    (hfree : Uncancelled token cancelled source rules)
    (hbudget : Affords options source rules.length) :
    (ofSource options ⟨rules⟩ token cancelled source).1.findings.filter (·.rule.id == r.id) =
      Finding.sort (r.findings source source.outline.blocks) := by
  rw [ofSource_of_affords hfree hbudget]
  exact filter_mergeSort_flatMap Finding.before_trans Finding.before_total
    Rule.id_eq_of_mem_findings hids hr

theorem ruleErrors_filter_eq (hids : (rules.map (·.id)).Nodup) (hr : r ∈ rules)
    (hfree : Uncancelled token cancelled source rules)
    (hbudget : Affords options source rules.length) :
    (ofSource options ⟨rules⟩ token cancelled source).1.metadata.ruleErrors.filter
        (·.ruleId == r.id) =
      (r.errors source source.outline.blocks).mergeSort RuleError.before := by
  rw [ofSource_of_affords hfree hbudget]
  exact filter_mergeSort_flatMap RuleError.before_trans RuleError.before_total
    Rule.ruleId_eq_of_mem_errors hids hr

theorem ofSource_singleton (hfree : Uncancelled token cancelled source [r])
    (hbudget : Affords options source 1) :
    (ofSource options ⟨[r]⟩ token cancelled source).1.findings =
        Finding.sort (r.findings source source.outline.blocks) ∧
      (ofSource options ⟨[r]⟩ token cancelled source).1.metadata.ruleErrors =
        (r.errors source source.outline.blocks).mergeSort RuleError.before := by
  rw [ofSource_of_affords hfree hbudget]
  simp only [Report.of, metadata, Progress.after, Progress.initial, List.flatMap_singleton,
    List.nil_append, true_and]
  rfl

/-- A scan by all rules isolates each of them. -/
theorem ofSource_isolates (hids : (rules.map (·.id)).Nodup) (hr : r ∈ rules)
    (hfree : Uncancelled token cancelled source rules)
    (hbudget : Affords options source rules.length) :
    (ofSource options ⟨rules⟩ token cancelled source).1.Isolates
      (ofSource options ⟨[r]⟩ token cancelled source).1 source r := by
  have hfindings := findings_filter_eq hids hr hfree hbudget
  have herrors := ruleErrors_filter_eq hids hr hfree hbudget
  have hfree' : Uncancelled token cancelled source [r] := hfree.mono (by simpa using hr)
  obtain ⟨hfindings', herrors'⟩ :=
    ofSource_singleton hfree' (hbudget.mono (List.length_pos_of_mem hr))
  refine ⟨hfindings.trans hfindings'.symm, herrors.trans herrors'.symm, fun h => ?_, fun h => ?_⟩
  · obtain ⟨hnone, message, hone⟩ := Rule.adds_of_fails h
    rw [hfindings, herrors, hnone, hone]
    exact ⟨List.mergeSort_nil, message, List.mergeSort_singleton _⟩
  · rw [herrors, Rule.errors_eq_nil_of_not_fails h, List.mergeSort_nil]

theorem found_of_mem_ofSource (hfree : Uncancelled token cancelled source rules)
    (hbudget : Affords options source rules.length) {f : Finding}
    (hf : f ∈ (ofSource options ⟨rules⟩ token cancelled source).1.findings) :
    ∃ r ∈ rules, f.rule = r.toRuleInfo ∧ r.Found source f := by
  rw [ofSource_of_affords hfree hbudget] at hf
  obtain ⟨r, hr, hf⟩ := List.mem_flatMap.1 (List.mem_mergeSort.1 hf)
  exact ⟨r, hr, Rule.rule_eq_of_mem_findings hf, Rule.found_of_mem_findings hf⟩

end Scan

/-- Rules are isolated from each other : in a scan by registered rules that is not cancelled and has
the budget for all of them, each rule gets the findings and the errors that it gets alone, and each
finding bears the data of the rule that found it. -/
theorem scan_isolates_rules (options : ScanOptions) (token : Option Token) (cancelled : List Token)
    (text : String) {rules : List Rule} {catalog : Catalog}
    (hcatalog : Catalog.ofRules rules = .ok catalog)
    (hsize : text.length ≤ options.sizeLimit)
    (hfree : Scan.Uncancelled token cancelled (.ofChars text.toList) catalog.rules)
    (hbudget : Scan.Affords options (.ofChars text.toList) catalog.size) :
    ∃ report after, scan options catalog token cancelled text = .ok (report, after) ∧
      (∀ r ∈ catalog.rules, ∃ alone after',
        scan options ⟨[r]⟩ token cancelled text = .ok (alone, after') ∧
          report.Isolates alone (.ofChars text.toList) r) ∧
      ∀ f ∈ report.findings, ∃ r ∈ catalog.rules,
        f.rule = r.toRuleInfo ∧ r.Found (.ofChars text.toList) f := by
  obtain ⟨hids, rfl⟩ := Catalog.ofRules_eq_ok_iff.1 hcatalog
  refine ⟨_, _, scan_eq_ofSource hsize .., fun r hr => ?_, fun f hf => ?_⟩
  · exact ⟨_, _, scan_eq_ofSource hsize .., Scan.ofSource_isolates hids hr hfree hbudget⟩
  · exact Scan.found_of_mem_ofSource hfree hbudget hf

theorem Rule.uncancelled_onOneLine (source : Source) :
    Scan.Uncancelled (some ⟨0⟩) [] source Rule.onOneLine := by
  refine ⟨rfl, fun r hr => ?_⟩
  simp only [Rule.onOneLine, List.mem_cons, List.not_mem_nil, or_false] at hr
  rcases hr with rfl | rfl | rfl <;> rfl

/-- Three rules that speak of one line are isolated, one of them failing. -/
theorem scan_isolates_onOneLine :
    ∃ report after,
      scan .unset ⟨Rule.onOneLine⟩ (some ⟨0⟩) [] "contract C;" = .ok (report, after) ∧
      (∀ r ∈ Rule.onOneLine, ∃ alone after',
        scan .unset ⟨[r]⟩ (some ⟨0⟩) [] "contract C;" = .ok (alone, after') ∧
          report.Isolates alone (.ofChars "contract C;".toList) r) ∧
      ∀ f ∈ report.findings, ∃ r ∈ Rule.onOneLine,
        f.rule = r.toRuleInfo ∧ r.Found (.ofChars "contract C;".toList) f :=
  scan_isolates_rules .unset (some ⟨0⟩) [] "contract C;" Catalog.ofRules_onOneLine (by decide)
    (Rule.uncancelled_onOneLine _) Scan.affords_onOneLine

end ContractAudit
