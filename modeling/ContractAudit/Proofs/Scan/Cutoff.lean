import ContractAudit.Proofs.Scan.Run

/-!
# Scans that stop early

A scan stops at a rule that the budget no longer covers, or once its token is seen to be cancelled,
whatever comes first. So the number of rules that it asks can be told from the budget and from the
first rule that cancels (`Scan.Stops.count_eq`), and what it reports goes by this number
(`Report.StopsAt`).
-/

namespace ContractAudit

namespace Scan

variable {source : Source} {blocks : List Block} {budget : Int} {token : Option Token}
  {cancelled : List Token} {rules : List Rule} {k : Nat} {r : Progress × Ending}

theorem cost_pos (source : Source) (blocks : List Block) : 0 < cost source blocks := by
  simp only [cost]
  omega

/-- How many rules can be asked until the token is seen to be cancelled : none if it is cancelled
beforehand, or else those up to the first that cancels it. -/
def untilCancelled (token : Option Token) (cancelled : List Token) (source : Source)
    (blocks : List Block) (rules : List Rule) : Nat :=
  if token.any cancelled.contains then 0
  else match rules.findIdx? (Rule.cancels token source blocks) with
    | some i => i + 1
    | none => rules.length

theorem any_cancels_take (token : Option Token) (source : Source) (blocks : List Block)
    (rules : List Rule) (j : Nat) :
    (rules.take j).any (Rule.cancels token source blocks) =
      ((rules.findIdx? (Rule.cancels token source blocks)).any (· < j)) := by
  rw [← List.findIdx?_isSome, List.findIdx?_take]
  cases rules.findIdx? (Rule.cancels token source blocks) with
  | none => rfl
  | some i => by_cases h : i < j <;> simp [Option.guard, h]

/-- The token is seen to be cancelled from that rule on. -/
theorem any_cancelled_take_iff {j : Nat} (hj : j < rules.length) :
    token.any ((Progress.initial cancelled).after source blocks (rules.take j)).cancelled.contains ↔
      untilCancelled token cancelled source blocks rules ≤ j := by
  rw [Progress.any_cancelled_after, any_cancels_take]
  unfold untilCancelled Progress.initial
  split
  next h => simp [h]
  next h =>
    simp only [Bool.not_eq_true] at h
    cases rules.findIdx? (Rule.cancels token source blocks) with
    | none => simpa [h] using hj
    | some i =>
      simp only [h, Bool.false_or, Option.any_some, decide_eq_true_eq]
      exact Nat.lt_iff_add_one_le

namespace Stops

theorem used_le (h : Stops source blocks budget token rules (.initial cancelled) k r) :
    k * cost source blocks ≤ max budget 0 := by
  cases k with
  | zero =>
    rw [Int.natCast_zero, Int.zero_mul]
    exact Int.le_max_right _ _
  | succ k =>
    have hlast := (h.reached k (Nat.lt_succ_self k)).2
    simp only [Progress.initial, Int.zero_add] at hlast
    omega

/-- The number of rules that are asked. -/
theorem count_eq (h : Stops source blocks budget token rules (.initial cancelled) k r) :
    (k : Int) = min (min (rules.length : Int) (max budget 0 / cost source blocks))
      (untilCancelled token cancelled source blocks rules) := by
  have hcost : (0 : Int) < cost source blocks := Int.natCast_pos.2 (cost_pos source blocks)
  have hle := h.le
  have hcovered : (k : Int) ≤ max budget 0 / cost source blocks :=
    (Int.le_ediv_iff_mul_le hcost).2 h.used_le
  have huncancelled : k ≤ untilCancelled token cancelled source blocks rules := by
    cases k with
    | zero => exact Nat.zero_le _
    | succ j =>
      have hfree := (h.reached j (Nat.lt_succ_self j)).1
      refine Nat.lt_of_not_le fun hle' => ?_
      rw [(any_cancelled_take_iff hle).2 hle'] at hfree
      exact Bool.noConfusion hfree
  rcases Nat.eq_or_lt_of_le hle with hk | hk
  · omega
  · rcases h.stopped hk with hs | hs
    · rw [h.progress, any_cancelled_take_iff hk] at hs
      omega
    · -- One more rule is not covered.
      have hdiv : max budget 0 / cost source blocks < (k + 1 : Nat) := by
        refine Int.ediv_lt_of_lt_mul hcost ?_
        simp only [Progress.initial, Int.zero_add] at hs
        have hpos : (0 : Int) < (k + 1 : Nat) * cost source blocks := Int.mul_pos (by omega) hcost
        omega
      omega

/-- As long as nothing is cancelled, the budget alone counts. -/
theorem count_eq_of_uncancelled
    (h : Stops source source.outline.blocks budget token rules (.initial cancelled) k r)
    (hfree : Uncancelled token cancelled source (rules.take k)) :
    (k : Int) = min (rules.length : Int) (max budget 0 / cost source source.outline.blocks) := by
  have hcount := h.count_eq
  have hlater : k < rules.length →
      k < untilCancelled token cancelled source source.outline.blocks rules := by
    intro hk
    refine Nat.lt_of_not_le fun hle => ?_
    have hseen : token.any ((Progress.initial cancelled).after source source.outline.blocks
        (rules.take k)).cancelled.contains := (any_cancelled_take_iff hk).2 hle
    rw [Progress.any_cancelled_after, Progress.initial, hfree.1, Bool.false_or,
      List.any_eq_true] at hseen
    obtain ⟨rule, hin, hcancels⟩ := hseen
    rw [hfree.2 rule hin] at hcancels
    exact Bool.noConfusion hcancels
  have hle := h.le
  omega

theorem ending_eq (h : Stops source blocks budget token rules (.initial cancelled) k r) :
    k < rules.length ↔ r.2 = .cancelled ∨ r.2 = .overBudget := by
  have hle := h.le
  rw [h.ending]
  split
  next hk => simp [hk]
  next hk =>
    have hlt : k < rules.length := by omega
    split <;> simp [hlt]

end Stops

end Scan

/-! ## Reports -/

/-- A report accounts for a scan by the first `k` rules of a catalog. -/
structure Report.StopsAt (report : Report) (options : ScanOptions) (catalog : Catalog)
    (token : Option Token) (cancelled : List Token) (source : Source) (k : Nat) : Prop where
  evaluated : report.metadata.rulesEvaluated = k
  used : report.metadata.budgetUsed = k * Scan.cost source source.outline.blocks
  covered : report.metadata.budgetUsed ≤ max (options.budgetFor source.length) 0
  /-- At most one reason is given. -/
  exclusive : ¬ (report.metadata.budgetExceeded ∧ report.metadata.cancelled)
  isPartial_iff : report.metadata.isPartial ↔ k < catalog.size
  /-- The rules that the budget covers are asked, up to the one that cancels. -/
  count : (k : Int) = min
    (min (catalog.size : Int)
      (max (options.budgetFor source.length) 0 / Scan.cost source source.outline.blocks))
    (Scan.untilCancelled token cancelled source source.outline.blocks catalog.rules)
  uncancelled : Scan.Uncancelled token cancelled source (catalog.rules.take k) →
    (k : Int) = min (catalog.size : Int)
      (max (options.budgetFor source.length) 0 / Scan.cost source source.outline.blocks)

namespace Scan

variable {options : ScanOptions} {catalog : Catalog} {token : Option Token}
  {cancelled : List Token} {source : Source} {k : Nat} {r : Progress × Ending}

theorem Stops.stopsAt
    (h : Stops source source.outline.blocks (options.budgetFor source.length) token
    catalog.rules (.initial cancelled) k r) :
    (Report.of r.1.findings (metadata options catalog.size source r.1 r.2)).StopsAt options catalog
      token cancelled source k := by
  have hlength : (catalog.rules.take k).length = k := by
    rw [List.length_take, Nat.min_eq_left h.le]
  have hused : r.1.used = k * cost source source.outline.blocks := by
    rw [h.progress]
    simp [Progress.after, Progress.initial, hlength]
  have hevaluated : r.1.evaluated = k := by
    rw [h.progress]
    simp [Progress.after, Progress.initial, hlength]
  refine ⟨congrArg _ hevaluated, hused, ?_, ?_, ?_, h.count_eq, h.count_eq_of_uncancelled⟩
  · exact Int.le_trans (Int.le_of_eq hused) h.used_le
  · rintro ⟨hover, hcancelled⟩
    simp only [Report.of, metadata, beq_iff_eq] at hover hcancelled
    rw [hover] at hcancelled
    exact Ending.noConfusion hcancelled
  · rw [Catalog.size, h.ending_eq]
    simp [Report.of, metadata, Metadata.isPartial, or_comm]

/-- A scan that stops after `k` rules finds what any complete scan by these rules finds. -/
theorem Stops.ofSource_take (h : Stops source source.outline.blocks
    (options.budgetFor source.length) token catalog.rules (.initial cancelled) k r)
    {options' : ScanOptions} {token' : Option Token} {cancelled' : List Token}
    (hbudget : Affords options' source k)
    (hfree : Uncancelled token' cancelled' source (catalog.rules.take k)) :
    let whole := (ofSource options' ⟨catalog.rules.take k⟩ token' cancelled' source).1
    let report := Report.of r.1.findings (metadata options catalog.size source r.1 r.2)
    whole.findings = report.findings ∧ whole.metadata.ruleErrors = report.metadata.ruleErrors := by
  have hbudget' : Affords options' source (Catalog.size ⟨catalog.rules.take k⟩) := by
    rwa [Catalog.size, List.length_take, Nat.min_eq_left h.le]
  simp only [ofSource_of_affords hfree hbudget', h.progress]
  exact ⟨rfl, rfl⟩

end Scan

/-- Scans that stop early are exact : the report accounts for the rules that were asked, how many
they are can be told beforehand, and any complete scan by these rules finds the same. -/
theorem scan_stops_exactly (options : ScanOptions) (catalog : Catalog) (token : Option Token)
    (cancelled : List Token) (text : String) (hsize : text.length ≤ options.sizeLimit) :
    ∃ report after k, scan options catalog token cancelled text = .ok (report, after) ∧
      report.StopsAt options catalog token cancelled (.ofChars text.toList) k ∧
      ∀ (options' : ScanOptions) token' cancelled', text.length ≤ options'.sizeLimit →
        Scan.Affords options' (.ofChars text.toList) k →
        Scan.Uncancelled token' cancelled' (.ofChars text.toList) (catalog.rules.take k) →
        ∃ whole after',
          scan options' ⟨catalog.rules.take k⟩ token' cancelled' text = .ok (whole, after') ∧
          whole.findings = report.findings ∧
          whole.metadata.ruleErrors = report.metadata.ruleErrors := by
  let source := Source.ofChars text.toList
  obtain ⟨k, h⟩ := Scan.exists_stops source source.outline.blocks (options.budgetFor source.length)
    token catalog.rules (.initial cancelled)
  have hscan := scan_eq_ofSource hsize catalog token cancelled
  rw [Scan.ofSource_eq rfl] at hscan
  refine ⟨_, _, k, hscan, h.stopsAt, ?_⟩
  intro options' token' cancelled' hsize' hbudget hfree
  exact ⟨_, _, scan_eq_ofSource hsize' .., h.ofSource_take hbudget hfree⟩

/-- Four rules : the second fails, and the third cancels a token. -/
def Rule.cancellingThird : List Rule :=
  [.constant "first" .low ⟨.items [.found ⟨"first", 0, 8, none⟩], []⟩,
    .constant "second" .high ⟨.failed "ValueError" "no answer", []⟩,
    .constant "third" .high ⟨.items [.found ⟨"third", 9, 10, none⟩], [⟨0⟩]⟩,
    .constant "fourth" .low ⟨.items [.found ⟨"fourth", 0, 8, none⟩], []⟩]

/-- The third rule cancels the token when the budget is used up. -/
theorem scan_stops_at_third :
    ∃ report after, scan ⟨none, some 3⟩ ⟨Rule.cancellingThird⟩ (some ⟨0⟩) [] "contract C;" =
        .ok (report, after) ∧
      report.StopsAt ⟨none, some 3⟩ ⟨Rule.cancellingThird⟩ (some ⟨0⟩) []
        (.ofChars "contract C;".toList) 3 := by
  obtain ⟨report, after, k, hscan, hstops, -⟩ := scan_stops_exactly ⟨none, some 3⟩
    ⟨Rule.cancellingThird⟩ (some ⟨0⟩) [] "contract C;" (by decide)
  have hthree : (k : Int) = 3 := hstops.count.trans (by decide +kernel)
  obtain rfl : k = 3 := by omega
  exact ⟨report, after, hscan, hstops⟩

end ContractAudit
