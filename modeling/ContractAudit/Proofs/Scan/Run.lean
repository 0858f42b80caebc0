import ContractAudit.Scan

/-!
# Runs of a scan

A rule that is asked adds its own findings, or its own error (`Rule.findings`, `Rule.errors`),
whatever was found before it. `Scan.Progress.after` is the progress once given rules have been
asked. A scan asks the rules of its catalog up to some number and stops there for a reason
(`Scan.Stops`, `Scan.exists_stops`); if nothing stops it before, it asks all of them
(`Scan.askAll_eq_after`). The report then holds what the rules add, in the order of reports
(`Scan.ofSource_of_affords`).
-/

namespace ContractAudit

namespace Rule

/-- The findings that a rule adds to a scan. -/
def findings (source : Source) (blocks : List Block) (rule : Rule) : List Finding :=
  match (rule.evaluate source blocks).outcome.matches with
  | .error _ => []
  | .ok ms =>
    (dropOverlaps (ms.map fun m => { m with ruleId := rule.id })).map
      (Finding.ofMatch rule.toRuleInfo source)

/-- The errors that a rule adds to a scan : none or one. -/
def errors (source : Source) (blocks : List Block) (rule : Rule) : List RuleError :=
  match (rule.evaluate source blocks).outcome.matches with
  | .error failure => [⟨rule.id, failure.text⟩]
  | .ok _ => []

/-- Is the token cancelled while the rule is asked? -/
def cancels (token : Option Token) (source : Source) (blocks : List Block) (rule : Rule) : Bool :=
  token.any (rule.evaluate source blocks).cancels.contains

/-- The rule that gives the same answer on every source. -/
def constant (id : String) (severity : Severity) (answer : Evaluation) : Rule where
  id
  title := id
  category := .other
  severity
  gasImpact := .absent
  description := ""
  remediation := ""
  swc := none
  evaluate _ _ := answer

end Rule

variable {options : ScanOptions}

namespace Scan

variable {source : Source} {blocks : List Block} {budget : Int} {token : Option Token}

/-! ## Asking rules -/

namespace Progress

/-- The start of a scan. -/
def initial (cancelled : List Token) : Progress :=
  ⟨0, 0, [], [], cancelled⟩

/-- The progress once all of the given rules have been asked. -/
def after (p : Progress) (source : Source) (blocks : List Block) (rules : List Rule) :
    Progress where
  evaluated := p.evaluated + rules.length
  used := p.used + rules.length * cost source blocks
  findings := p.findings ++ rules.flatMap (Rule.findings source blocks)
  errors := p.errors ++ rules.flatMap (Rule.errors source blocks)
  cancelled := p.cancelled ++ rules.flatMap fun r => (r.evaluate source blocks).cancels

theorem after_nil (p : Progress) : p.after source blocks [] = p := by
  simp [after]

theorem ask_eq_after (p : Progress) (rule : Rule) :
    p.ask source blocks rule = p.after source blocks [rule] := by
  unfold ask after Rule.findings Rule.errors
  cases hm : (rule.evaluate source blocks).outcome.matches <;> simp [hm]

theorem after_append (p : Progress) (rs rs' : List Rule) :
    p.after source blocks (rs ++ rs') = (p.after source blocks rs).after source blocks rs' := by
  simp only [after, List.length_append, List.flatMap_append, List.append_assoc, Nat.add_assoc,
    Int.natCast_add, Int.add_mul, Int.add_assoc]

theorem after_ask (p : Progress) (rule : Rule) (later : List Rule) :
    (p.ask source blocks rule).after source blocks later =
      p.after source blocks (rule :: later) := by
  rw [ask_eq_after, ← after_append, List.singleton_append]

theorem any_cancelled_after (p : Progress) (rules : List Rule) :
    token.any (p.after source blocks rules).cancelled.contains =
      (token.any p.cancelled.contains || rules.any (Rule.cancels token source blocks)) := by
  rw [Bool.eq_iff_iff]
  cases token with
  | none => simp [Rule.cancels]
  | some t => simp [after, Rule.cancels]

end Progress

/-! ## Where a scan stops -/

/-- The rules are asked up to the `k`-th, from the progress `p` on, with the result `r`. -/
structure Stops (source : Source) (blocks : List Block) (budget : Int) (token : Option Token)
    (rules : List Rule) (p : Progress) (k : Nat) (r : Progress × Ending) : Prop where
  le : k ≤ rules.length
  progress : r.1 = p.after source blocks (rules.take k)
  /-- Each rule that is asked is reached uncancelled and within the budget. -/
  reached : ∀ j < k,
    token.any (p.after source blocks (rules.take j)).cancelled.contains = false ∧
      p.used + (j + 1 : Nat) * cost source blocks ≤ budget
  ending : r.2 = if k = rules.length then .complete
    else if token.any r.1.cancelled.contains then .cancelled else .overBudget
  stopped : k < rules.length →
    token.any r.1.cancelled.contains ∨ budget < p.used + (k + 1 : Nat) * cost source blocks

/-- A scan stops after some number of rules. -/
theorem exists_stops (source : Source) (blocks : List Block) (budget : Int)
    (token : Option Token) : ∀ (rules : List Rule) (p : Progress),
    ∃ k, Stops source blocks budget token rules p k (askAll source blocks budget token rules p)
  | [], p => by
    refine ⟨0, Nat.le_refl _, ?_, by simp, ?_, by simp⟩ <;> simp [askAll, Progress.after_nil]
  | rule :: later, p => by
    by_cases hc : token.any p.cancelled.contains
    · refine ⟨0, Nat.zero_le _, ?_, by simp, ?_, ?_⟩ <;> simp [askAll, hc, Progress.after_nil]
    · by_cases hb : budget < p.used + cost source blocks
      · refine ⟨0, Nat.zero_le _, ?_, by simp, ?_, ?_⟩ <;>
          simp [askAll, hc, hb, Progress.after_nil]
      · obtain ⟨k, h⟩ := exists_stops source blocks budget token later (p.ask source blocks rule)
        have hask : askAll source blocks budget token (rule :: later) p =
            askAll source blocks budget token later (p.ask source blocks rule) := by
          simp [askAll, hc, hb]
        have hused : ∀ j : Nat,
            (p.ask source blocks rule).used + (j + 1 : Nat) * cost source blocks =
            p.used + (j + 1 + 1 : Nat) * cost source blocks := by
          intro j
          rw [Progress.ask_eq_after, Int.natCast_add (j + 1) 1, Int.add_mul]
          simp only [Progress.after, List.length_singleton]
          omega
        rw [hask]
        refine ⟨k + 1, Nat.succ_le_succ h.le, ?_, fun j hj => ?_, ?_, fun hk => ?_⟩
        · rw [h.progress, Progress.after_ask, List.take_succ_cons]
        · cases j with
          | zero =>
            rw [List.take_zero, Progress.after_nil]
            exact ⟨by simpa using hc, by simp; omega⟩
          | succ j =>
            rw [List.take_succ_cons, ← Progress.after_ask, ← hused]
            exact h.reached j (Nat.lt_of_succ_lt_succ hj)
        · rw [h.ending, List.length_cons]
          simp
        · rw [← hused]
          exact h.stopped (Nat.lt_of_succ_lt_succ hk)

/-- A scan that is not cancelled and has the budget for all rules asks all of them. -/
theorem askAll_eq_after {rules : List Rule} {p : Progress}
    (hfree : token.any p.cancelled.contains = false)
    (hcancel : ∀ r ∈ rules, r.cancels token source blocks = false)
    (hbudget : p.used + rules.length * cost source blocks ≤ budget) :
    askAll source blocks budget token rules p = (p.after source blocks rules, .complete) := by
  obtain ⟨k, h⟩ := exists_stops source blocks budget token rules p
  have hk : k = rules.length := by
    refine Nat.le_antisymm h.le (Nat.le_of_not_lt fun hlt => ?_)
    rcases h.stopped hlt with hs | hs
    · rw [h.progress, Progress.any_cancelled_after, hfree, Bool.false_or, List.any_eq_true] at hs
      obtain ⟨r, hr, hrc⟩ := hs
      rw [hcancel r (List.mem_of_mem_take hr)] at hrc
      exact Bool.false_ne_true hrc
    · have hle : (k + 1 : Nat) * (cost source blocks : Int) ≤ rules.length * cost source blocks :=
        Int.mul_le_mul_of_nonneg_right (by omega) (by omega)
      omega
  refine Prod.ext ?_ ?_
  · rw [h.progress, hk, List.take_length]
  · rw [h.ending, if_pos hk]

/-! ## Reports -/

/-- Is the token never cancelled, neither beforehand nor by one of the rules? -/
def Uncancelled (token : Option Token) (cancelled : List Token) (source : Source)
    (rules : List Rule) : Prop :=
  token.any cancelled.contains = false ∧
    ∀ r ∈ rules, r.cancels token source source.outline.blocks = false

theorem uncancelled_none (cancelled : List Token) (source : Source) (rules : List Rule) :
    Uncancelled none cancelled source rules := by
  simp [Uncancelled, Rule.cancels]

variable {cancelled : List Token}

theorem Uncancelled.mono {rules rules' : List Rule} (h : Uncancelled token cancelled source rules)
    (hsub : ∀ r ∈ rules', r ∈ rules) : Uncancelled token cancelled source rules' :=
  ⟨h.1, fun r hr => h.2 r (hsub r hr)⟩

/-- Does the budget cover `n` rules? -/
def Affords (options : ScanOptions) (source : Source) (n : Nat) : Prop :=
  n * cost source source.outline.blocks ≤ options.budgetFor source.length

instance (options : ScanOptions) (source : Source) (n : Nat) :
    Decidable (Affords options source n) :=
  inferInstanceAs (Decidable (_ ≤ _))

theorem Affords.mono {m n : Nat} (h : Affords options source n) (hmn : m ≤ n) :
    Affords options source m := by
  have hle : (m : Int) * cost source source.outline.blocks ≤
      n * cost source source.outline.blocks :=
    Int.mul_le_mul_of_nonneg_right (by omega) (by omega)
  exact Int.le_trans hle h

/-- What a report says on a scan by `total` rules that came to the progress `p`. -/
def metadata (options : ScanOptions) (total : Nat) (source : Source) (p : Progress)
    (ending : Ending) : Metadata where
  inputLength := source.length
  blockCount := source.outline.blocks.length
  contractCount := source.outline.contracts.length
  rulesTotal := total
  rulesEvaluated := p.evaluated
  budgetLimit := options.budgetFor source.length
  budgetUsed := p.used
  budgetExceeded := ending == .overBudget
  cancelled := ending == .cancelled
  ruleErrors := p.errors.mergeSort fun a b => decide (a.ruleId ≤ b.ruleId)
  unparsable := unparsable source source.outline
  warnings := (source.warnings.map (·.label)).mergeSort fun a b => decide (a ≤ b)

variable {catalog : Catalog}

theorem ofSource_eq {p : Progress} {ending : Ending}
    (h : askAll source source.outline.blocks (options.budgetFor source.length) token catalog.rules
      (.initial cancelled) = (p, ending)) : ofSource options catalog token cancelled source =
      (Report.of p.findings (metadata options catalog.size source p ending), p.cancelled) := by
  unfold Progress.initial at h
  simp only [ofSource, h, metadata]

/-- A report holds the findings of the rules up to some number, in the order of reports. -/
theorem exists_findings_perm (options : ScanOptions) (catalog : Catalog) (token : Option Token)
    (cancelled : List Token) (source : Source) :
    ∃ k, (ofSource options catalog token cancelled source).1.findings.Perm
      ((catalog.rules.take k).flatMap (Rule.findings source source.outline.blocks)) := by
  obtain ⟨k, h⟩ := exists_stops source source.outline.blocks (options.budgetFor source.length) token
    catalog.rules (.initial cancelled)
  refine ⟨k, ?_⟩
  rw [ofSource_eq rfl, h.progress]
  exact List.mergeSort_perm _ _

theorem exists_rule_of_mem_findings {f : Finding}
    (hf : f ∈ (ofSource options catalog token cancelled source).1.findings) :
    ∃ r ∈ catalog.rules, f ∈ r.findings source source.outline.blocks := by
  obtain ⟨k, hperm⟩ := exists_findings_perm options catalog token cancelled source
  obtain ⟨r, hr, hf⟩ := List.mem_flatMap.1 (hperm.mem_iff.1 hf)
  exact ⟨r, List.mem_of_mem_take hr, hf⟩

/-- The report on a source that all rules are asked about. -/
theorem ofSource_of_affords (hfree : Uncancelled token cancelled source catalog.rules)
    (hbudget : Affords options source catalog.size) :
    (ofSource options catalog token cancelled source).1 =
      Report.of (catalog.rules.flatMap (Rule.findings source source.outline.blocks))
        (metadata options catalog.size source
          ((Progress.initial cancelled).after source source.outline.blocks catalog.rules)
          .complete) := by
  have hused : (Progress.initial cancelled).used +
      catalog.rules.length * cost source source.outline.blocks ≤
        options.budgetFor source.length := by
    simpa [Progress.initial, Affords, Catalog.size] using hbudget
  rw [ofSource_eq (askAll_eq_after hfree.1 hfree.2 hused)]
  simp [Progress.after, Progress.initial]

end Scan

variable {text : String}

/-- A text within the limit is scanned. -/
theorem scan_eq_ofSource (h : text.length ≤ options.sizeLimit) (catalog : Catalog)
    (token : Option Token) (cancelled : List Token) : scan options catalog token cancelled text =
      .ok (Scan.ofSource options catalog token cancelled (.ofChars text.toList)) := by
  simp only [scan, Source.of?, String.length_toList, if_neg (Int.not_lt.2 h)]
  rfl

/-- What holds of the report on a source holds of what a scan of its text answers. -/
theorem exists_scan_eq_ok (h : text.length ≤ options.sizeLimit) (catalog : Catalog)
    (token : Option Token) (cancelled : List Token) {P : Report → Prop}
    (hreport : P (Scan.ofSource options catalog token cancelled (.ofChars text.toList)).1) :
    ∃ report after, scan options catalog token cancelled text = .ok (report, after) ∧ P report :=
  ⟨_, _, scan_eq_ofSource h .., hreport⟩

/-- A longer text is refused, whatever the catalog. -/
theorem scan_eq_error (h : options.sizeLimit < text.length) (catalog : Catalog)
    (token : Option Token) (cancelled : List Token) :
    scan options catalog token cancelled text = .error ⟨text.length, options.sizeLimit⟩ := by
  simp only [scan, Source.of?, String.length_toList, if_pos h]
  rfl

end ContractAudit
