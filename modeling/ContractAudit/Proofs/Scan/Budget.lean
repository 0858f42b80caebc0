import ContractAudit.Proofs.Contract.Count
import ContractAudit.Proofs.Scan.Location
import ContractAudit.Proofs.Source.Neutral

/-!
# The default budget

Asking one rule costs no more than `1 + n + n / 64` on a source of `n` characters, for it has at
most `n` statements (`Source.statementCount_outline_le`). The budget that a scan has unless it is
given another grows by 64 for each character, so it covers the 25 built-in rules on every source
(`Scan.affords_builtin`).
-/

namespace ContractAudit

theorem Source.statementCount_outline_le (cs : List Char) :
    statementCount (ofChars cs).outline.blocks ≤ cs.length := by
  have hle := Outline.statementCount_le (ofChars cs).text.toList
  rwa [length_text_ofChars] at hle

namespace Scan

theorem cost_eq (source : Source) (blocks : List Block) :
    cost source blocks = 1 + statementCount blocks + source.length / 64 := by
  rw [cost, foldl_statements_eq, Nat.zero_add]

theorem cost_ofChars_le (cs : List Char) :
    cost (.ofChars cs) (Source.ofChars cs).outline.blocks ≤ 1 + cs.length + cs.length / 64 := by
  have hle := Source.statementCount_outline_le cs
  rw [cost_eq, Source.length_ofChars]
  omega

theorem affords_builtin {options : ScanOptions} (hbudget : options.budget = none)
    (cs : List Char) : Affords options (.ofChars cs) Catalog.builtin.size := by
  have hcost := cost_ofChars_le cs
  have hsize : Catalog.builtin.size = 25 := rfl
  rw [Affords, ScanOptions.budgetFor, hbudget, Option.getD_none, hsize, Source.length_ofChars]
  omega

end Scan

/-- Without a budget of its own and without a token, a scan asks all built-in rules, on every source
within the size limit : its statements never outnumber its characters. What it reports are the
findings of all of them. -/
theorem scan_builtin_complete (options : ScanOptions) (cancelled : List Token) (text : String)
    (hbudget : options.budget = none) (hsize : text.length ≤ options.sizeLimit) :
    statementCount (Source.ofChars text.toList).outline.blocks ≤ text.length ∧
      ∃ report after, scan options .builtin none cancelled text = .ok (report, after) ∧
        report.metadata.rulesTotal = 25 ∧ report.metadata.rulesEvaluated = 25 ∧
        report.metadata.budgetExceeded = false ∧ report.metadata.isPartial = false ∧
        report.findings.Perm (Rule.builtin.flatMap fun r =>
          r.findings (.ofChars text.toList) (Source.ofChars text.toList).outline.blocks) := by
  refine ⟨?_, exists_scan_eq_ok hsize .builtin none cancelled ?_⟩
  · rw [← String.length_toList]
    exact Source.statementCount_outline_le text.toList
  · rw [Scan.ofSource_of_affords (Scan.uncancelled_none ..) (Scan.affords_builtin hbudget _)]
    exact ⟨rfl, rfl, rfl, rfl, List.mergeSort_perm _ _⟩

/-- A member inside the body of another, one that is cut off, and statements of one character. -/
def Source.crowded : String :=
  "contract C\x7bfunction f()\x7bfunction g()\x7ba;b;c;d\x7d\x7dfunction h(\x7be;f;\x7d"

theorem scan_crowded_complete :
    statementCount (Source.ofChars Source.crowded.toList).outline.blocks = 4 ∧
      ∃ report after, scan .unset .builtin none [] Source.crowded = .ok (report, after) ∧
        report.metadata.rulesTotal = 25 ∧ report.metadata.rulesEvaluated = 25 ∧
        report.metadata.budgetExceeded = false ∧ report.metadata.isPartial = false ∧
        report.findings.Perm (Rule.builtin.flatMap fun r =>
          r.findings (.ofChars Source.crowded.toList)
            (Source.ofChars Source.crowded.toList).outline.blocks) :=
  ⟨by decide +kernel, (scan_builtin_complete .unset [] Source.crowded rfl (by decide)).2⟩

end ContractAudit
