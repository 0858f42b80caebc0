import ContractAudit.Proofs.Rule.Answers
import ContractAudit.Proofs.Scan.Isolation

/-!
# Scans without errors

A rule whose detector answers does not fail (`Rule.not_fails_of_answers`), and the detectors of the
built-in rules answer on every source, one of them if the numbers of the source can be read
(`Rule.not_fails_of_mem_builtin`). So a scan by the built-in rules reports no error, wherever it
stops.
-/

namespace ContractAudit

variable {source : Source} {bs : List Block}

theorem Rule.not_fails_of_answers {detect : Detector} (h : Answers (detect source bs)) :
    ¬(detect.evaluate source bs).outcome.Fails := by
  obtain ⟨ms, hms⟩ := h
  simp only [Detector.evaluate, hms]
  exact Outcome.not_fails_items_found ms

open Detector in
/-- A built-in rule does not fail, if it can read the numbers it may have to read. -/
theorem Rule.not_fails_of_mem_builtin : ∀ r ∈ Rule.builtin, ∀ (source : Source) (bs : List Block),
    (r.id = "unchecked-arithmetic" → source.Readable) → ¬(r.evaluate source bs).outcome.Fails := by
  have hsure : ∀ {r : Rule} {detect : Detector}, r.evaluate = detect.evaluate → detect.Total →
      ∀ (source : Source) (bs : List Block),
        (r.id = "unchecked-arithmetic" → source.Readable) →
          ¬(r.evaluate source bs).outcome.Fails := by
    intro r detect heval htotal source bs _
    rw [heval]
    exact not_fails_of_answers (htotal source bs)
  simp only [Rule.builtin, List.forall_mem_cons]
  refine ⟨hsure rfl total_reentrancy,
    hsure rfl (total_eachParsed fun _ _ => answers_pure _),
    hsure rfl (total_eachParsed fun _ _ => answers_pure _),
    hsure rfl (total_eachEntryPoint fun _ _ => answers_pure _),
    hsure rfl (total_eachEntryPoint fun _ _ => answers_pure _),
    hsure rfl (total_eachBlock fun _ _ => answers_pure _),
    hsure rfl total_uncheckedCallReturn,
    hsure rfl (total_eachParsed fun _ _ => answers_pure _), ?_,
    hsure rfl total_frontRunning,
    hsure rfl fun source bs => total_eachParsed (fun _ _ => answers_pure _) source bs,
    hsure rfl (total_eachParsed fun _ _ => answers_pure _),
    hsure rfl (total_eachParsed fun _ _ => answers_pure _),
    hsure rfl (total_eachParsed fun _ _ => answers_pure _),
    hsure rfl fun _ _ => answers_pure _,
    hsure rfl (total_eachEntryPoint fun _ _ => answers_pure _),
    hsure rfl (total_eachParsed fun _ _ => answers_pure _),
    hsure rfl fun _ _ => answers_pure _,
    hsure rfl fun _ _ => answers_pure _,
    hsure rfl (total_eachEntryPoint fun _ _ => answers_pure _),
    hsure rfl (total_eachParsed fun _ _ => answers_pure _),
    hsure rfl (total_eachParsed fun _ _ => answers_pure _),
    hsure rfl total_transferFixedGas,
    hsure rfl fun _ _ => answers_pure _,
    hsure rfl total_encodePackedCollision,
    fun r hr => absurd hr List.not_mem_nil⟩
  -- The rule on arithmetic reads version numbers.
  intro source bs hreadable
  exact not_fails_of_answers (answers_uncheckedArithmetic (hreadable rfl) bs)

/-- A scan by rules that do not fail reports no error, wherever it stops. -/
theorem Scan.ruleErrors_eq_nil {options : ScanOptions} {catalog : Catalog} {token : Option Token}
    {cancelled : List Token}
    (h : ∀ r ∈ catalog.rules, ¬(r.evaluate source source.outline.blocks).outcome.Fails) :
    (ofSource options catalog token cancelled source).1.metadata.ruleErrors = [] := by
  obtain ⟨k, hstops⟩ := exists_stops source source.outline.blocks
    (options.budgetFor source.length) token catalog.rules (.initial cancelled)
  have herrors : (catalog.rules.take k).flatMap (Rule.errors source source.outline.blocks) = [] :=
    List.flatMap_eq_nil_iff.2 fun r hr =>
      Rule.errors_eq_nil_of_not_fails (h r (List.mem_of_mem_take hr))
  rw [ofSource_eq rfl, hstops.progress]
  simp [Report.of, metadata, Progress.after, Progress.initial, herrors]

/-- A source that is not longer than the longest number can be read. -/
theorem Source.readable_of_size_le (h : source.text.size ≤ digitLimit) : source.Readable := by
  intro digits hdigits _
  have hle : digits.length ≤ source.text.size := hdigits.length_le
  exact ⟨decimalValue digits, if_neg (by omega)⟩

/-- No built-in rule fails, on any source : every bracket looked up in an argument list has its
partner inside the list, and the one rule that reads numbers fails only on a number with too many
digits. So a scan by the built-in rules reports no error. -/
theorem builtin_rules_answer (text : String) :
    (∀ r ∈ Rule.builtin,
      (r.id = "unchecked-arithmetic" → (Source.ofChars text.toList).Readable) →
        ¬(r.evaluate (.ofChars text.toList)
          (Source.ofChars text.toList).outline.blocks).outcome.Fails) ∧
    ((Source.ofChars text.toList).Readable →
      ∀ (options : ScanOptions) (token : Option Token) (cancelled : List Token),
        text.length ≤ options.sizeLimit →
        ∃ report after, scan options .builtin token cancelled text = .ok (report, after) ∧
          report.metadata.ruleErrors = []) ∧
    ∀ (cs : List Char) (o : Nat), Answers (argumentsIn cs o) ∧
      ∀ close i, (Pairs.parens cs).close? o = some close → o < i → i < close → cs[i]? = some '(' →
        ∃ k, (Pairs.parens cs).close? i = some k ∧ i < k ∧ k < close := by
  have hfails := fun r hr hreadable => Rule.not_fails_of_mem_builtin r hr (.ofChars text.toList)
    (Source.ofChars text.toList).outline.blocks hreadable
  refine ⟨hfails, fun hreadable options token cancelled hsize => ?_, fun cs o => ⟨?_, ?_⟩⟩
  · refine exists_scan_eq_ok hsize .builtin token cancelled (Scan.ruleErrors_eq_nil fun r hr => ?_)
    exact hfails r hr fun _ => hreadable
  · exact answers_callArguments ((Cursor.in_start cs).advance _)
  · intro close i hclose hoi hi hopen
    exact Pairs.exists_close?_inside hclose hoi hi hopen

/-- Calls inside calls, brackets that are not closed or not opened, and a version to be read. -/
def Source.tangled : String :=
  "pragma solidity ^0.4.24;function f()\x7ba.transfer(g(b,h(c)),[d);\x7d" ++
    "function k()\x7be.send(m((;\x7d))"

theorem tangled_rules_answer :
    (Source.ofChars Source.tangled.toList).Readable ∧
      (∀ r ∈ Rule.builtin, ¬(r.evaluate (.ofChars Source.tangled.toList)
        (Source.ofChars Source.tangled.toList).outline.blocks).outcome.Fails) ∧
      (∃ report after, scan .unset .builtin none [] Source.tangled = .ok (report, after) ∧
        report.metadata.ruleErrors = []) ∧
      (Pairs.parens Source.tangled.toList).close? 47 = some 60 ∧
      ∃ k, (Pairs.parens Source.tangled.toList).close? 49 = some k ∧ 49 < k ∧ k < 60 := by
  have hreadable : (Source.ofChars Source.tangled.toList).Readable :=
    Source.readable_of_size_le (by decide +kernel)
  obtain ⟨hfails, hscan, hargs⟩ := builtin_rules_answer Source.tangled
  refine ⟨hreadable, fun r hr => hfails r hr fun _ => hreadable,
    hscan hreadable .unset none [] (by decide), ?_, ?_⟩
  · decide +kernel
  · exact (hargs Source.tangled.toList 47).2 60 49 (by decide +kernel) (by decide) (by decide)
      (by decide +kernel)

end ContractAudit
