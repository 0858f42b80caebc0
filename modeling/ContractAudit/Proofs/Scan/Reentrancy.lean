import ContractAudit.Proofs.Risk
import ContractAudit.Proofs.Scan.Bounds
import ContractAudit.Proofs.Written.Ledger

/-!
# Reentrancy in ledgers

A scan of a ledger reports the first call of its function that can be reentered, once and as
critical, whatever the other statements are, as long as none of them declares the mapping as a local
variable or is misread so, and the signature of the function is not too long
(`scan_reports_reentrancy`).
-/

namespace ContractAudit

variable {cs : List Char}

/-- A built-in rule that makes one match has one finding in a scan, with the offsets of the
match. -/
theorem Scan.exists_filter_findings_eq {r : Rule} {m : Match} (hr : r ∈ Rule.builtin)
    (h : (r.evaluate (.ofChars cs) (Source.ofChars cs).outline.blocks).outcome =
      .items [.found m]) :
    ∃ f, (ofSource .unset .builtin none [] (.ofChars cs)).1.findings.filter (·.rule.id == r.id) =
      [f] ∧ f.rule = r.toRuleInfo ∧ f.start = m.start ∧ f.stop = m.stop := by
  have hfindings := Rule.findings_of_items_singleton h
  have hunmoved := Finding.unmoved_of_inside (Rule.staysInside_of_mem_builtin hr cs)
    (Rule.found_of_mem_findings (hfindings ▸ List.mem_singleton_self _))
  obtain ⟨xs, m', hxs, hm', hstart, hstop⟩ := hunmoved.exists_match
  obtain rfl : m' = m := by
    rw [h] at hxs
    rw [← Outcome.items.inj hxs] at hm'
    exact Item.found.inj (List.mem_singleton.1 hm')
  refine ⟨_, ?_, rfl, hstart, hstop⟩
  rw [Catalog.builtin,
    findings_filter_eq (by decide) hr (uncancelled_none ..) (affords_builtin rfl _), hfindings]
  exact List.mergeSort_singleton _

/-- A built-in rule that makes no match has no finding in a scan. -/
theorem Scan.filter_findings_eq_nil {r : Rule} (hr : r ∈ Rule.builtin)
    (h : (r.evaluate (.ofChars cs) (Source.ofChars cs).outline.blocks).outcome = .items []) :
    (ofSource .unset .builtin none [] (.ofChars cs)).1.findings.filter (·.rule.id == r.id) =
      [] := by
  have hmatches : (r.evaluate (.ofChars cs) (Source.ofChars cs).outline.blocks).outcome.matches =
      .ok [] :=
    Outcome.matches_eq_ok_iff.2 h
  have hfindings : r.findings (.ofChars cs) (Source.ofChars cs).outline.blocks = [] := by
    rw [Rule.findings, hmatches]
    rfl
  rw [Catalog.builtin,
    findings_filter_eq (by decide) hr (uncancelled_none ..) (affords_builtin rfl _), hfindings]
  exact List.mergeSort_nil

/-- The match of the rule in the only member of a source is its finding. -/
theorem Scan.exists_filter_reentrancy_eq {b : Block} {m : Match}
    (houtline : (Source.ofChars cs).outline.blocks = [b])
    (h : Detector.reentrancy (.ofChars cs) [b] = .ok [m]) :
    ∃ f, (ofSource .unset .builtin none [] (.ofChars cs)).1.findings.filter
      (·.rule.id == "reentrancy") = [f] ∧
      f.rule.severity = .critical ∧ f.start = m.start ∧ f.stop = m.stop := by
  have houtcome :
      (Rule.reentrancy.evaluate (.ofChars cs) (Source.ofChars cs).outline.blocks).outcome =
      .items [.found m] := by
    simp only [Rule.reentrancy, Detector.evaluate, houtline, h, List.map_cons, List.map_nil]
  obtain ⟨f, hfilter, hrule, hstart, hstop⟩ :=
    exists_filter_findings_eq (show Rule.reentrancy ∈ Rule.builtin from List.mem_cons_self) houtcome
  exact ⟨f, hfilter, by rw [hrule]; rfl, hstart, hstop⟩

/-- Without a call before a write in a member that can be called from outside, nothing is
reported. -/
theorem Scan.filter_reentrancy_eq_nil
    (h : ∀ b ∈ (Source.ofChars cs).outline.blocks, ¬(b.isExposed ∧ b.CallsThenWrites)) :
    (ofSource .unset .builtin none [] (.ofChars cs)).1.findings.filter (·.rule.id == "reentrancy") =
      [] := by
  obtain ⟨ms, hms, hall⟩ :=
    Detector.reentrancy_finds (.ofChars cs) (Source.ofChars cs).outline.blocks
  rw [List.filter_eq_nil_iff.2 fun b hb => by simpa using h b hb, List.forall₂_nil_left_iff] at hall
  refine filter_findings_eq_nil (show Rule.reentrancy ∈ Rule.builtin from List.mem_cons_self) ?_
  simp only [Rule.reentrancy, Detector.evaluate, hms, hall, List.map_nil]

open Written in
/-- The function of a ledger with a short signature is read statement by statement. A statement up
to the payment can be reentered, and the withdrawal writes to storage unless the mapping is
hidden. -/
theorem Written.Ledger.exists_block (l : Ledger) (layout : Layout)
    {earlier mid : List Written.Statement}
    (hdeclares : ∀ s ∈ earlier ++ mid, ¬s.Declares l.balances)
    (hshort : l.signature.length < headerLimit) (later : List Written.Statement) :
    ∃ b call write,
      (Source.ofChars (l.chars layout (l.body earlier mid later))).outline.blocks = [b] ∧
      b.isExposed ∧
      b.statements.map (·.text) = (l.body earlier mid later).map (fun s => String.ofList s.chars) ∧
      (b.statements.take (earlier.length + 1)).find? (·.reenters) = some call ∧
      b.statements[earlier.length + 1 + mid.length]? = some write ∧
      (write.target.isSome ↔ ¬l.Hidden (earlier ++ mid)) := by
  obtain ⟨ss, hss⟩ : ∃ ss, ss = l.body earlier mid later := ⟨_, rfl⟩
  rw [← hss]
  obtain ⟨types, k, hk, hblocks⟩ := l.exists_blocks_eq layout ss hshort
  obtain ⟨b, hb⟩ : ∃ b, b = (l.member ss hshort).block layout types k (l.front layout).length :=
    ⟨_, rfl⟩
  obtain ⟨hlocal, hrefs⟩ := l.not_mem_initial ss types hk hshort
  obtain ⟨⟨call, hcall⟩, write, hwrite, htarget⟩ :=
    l.exists_call layout hlocal hrefs hdeclares later _ b.statements (by rw [hb, ← hss]; rfl)
  refine ⟨b, call, write, ?_, l.exposed_block layout ss types hk hshort _ hb, ?_, hcall, hwrite,
    htarget⟩
  · rw [Source.outline, (l.stable_chars layout ss).toList_text, hblocks, hb]
  · rw [hb]
    exact text_records layout ss _ _

open Written in
/-- A payment in front of a withdrawal is reported unless a statement before the withdrawal is
misread as a declaration of the mapping : the only finding on reentrancy is critical and marks the
first statement that can be reentered, which stands at the payment or before it. Where one is
misread, the withdrawal counts for no write, and nothing is reported but for the sake of another
one. -/
theorem scan_reports_reentrancy (l : Ledger) (layout : Layout)
    (earlier mid later : List Written.Statement)
    (hdeclares : ∀ s ∈ earlier ++ mid, ¬s.Declares l.balances)
    (hshort : l.signature.length < headerLimit)
    (hsize : ((l.chars layout (l.body earlier mid later)).length : Int) ≤
      ScanOptions.unset.sizeLimit) :
    ∃ report after b call write,
      scan .unset .builtin none [] (String.ofList (l.chars layout (l.body earlier mid later))) =
        .ok (report, after) ∧
      (Source.ofChars (l.chars layout (l.body earlier mid later))).outline.blocks = [b] ∧
      b.statements.map (·.text) = (l.body earlier mid later).map (fun s => String.ofList s.chars) ∧
      (b.statements.take (earlier.length + 1)).find? (·.reenters) = some call ∧
      b.statements[earlier.length + 1 + mid.length]? = some write ∧
      (¬l.Hidden (earlier ++ mid) → ∃ f, report.findings.filter (·.rule.id == "reentrancy") = [f] ∧
        f.rule.severity = .critical ∧ f.start = call.start ∧ f.stop = call.stop ∧
        report.riskLabel = "Critical Risk") ∧
      (l.Hidden (earlier ++ mid) → write.target = none ∧
        (report.findings.filter (·.rule.id == "reentrancy") = [] ↔ ¬b.CallsThenWrites)) := by
  obtain ⟨b, call, write, houtline, hexposed, htexts, hcall, hwrite, htarget⟩ :=
    l.exists_block layout hdeclares hshort later
  obtain ⟨cs, hcs⟩ : ∃ cs, cs = l.chars layout (l.body earlier mid later) := ⟨_, rfl⟩
  rw [← hcs] at hsize houtline ⊢
  have hscan := scan_eq_ofSource (show (String.ofList cs).length ≤ ScanOptions.unset.sizeLimit by
    rwa [String.length_ofList]) .builtin none []
  rw [String.toList_ofList] at hscan
  refine ⟨_, _, b, call, write, hscan, houtline, htexts, hcall, hwrite, fun hhidden => ?_,
    fun hhidden => ?_⟩
  · have hmem : write ∈ b.statements.drop (earlier.length + 1) :=
      List.mem_of_getElem? (by rw [List.getElem?_drop, hwrite])
    obtain ⟨evidence, hmatch⟩ := Detector.exists_reentrancy_eq (.ofChars cs) hexposed hcall hmem
      (htarget.2 hhidden)
    obtain ⟨f, hfilter, hcritical, hstart, hstop⟩ :=
      Scan.exists_filter_reentrancy_eq houtline hmatch
    have hf : f ∈ (Scan.ofSource .unset .builtin none [] (.ofChars cs)).1.findings :=
      (List.mem_filter.1 (hfilter ▸ List.mem_singleton_self f)).1
    exact ⟨f, hfilter, hcritical, hstart, hstop,
      congrArg RiskLevel.label (Summary.level_of_critical hf hcritical)⟩
  · refine ⟨Option.not_isSome_iff_eq_none.1 fun h => htarget.1 h hhidden, fun hnil hcalls => ?_,
      fun hcalls => Scan.filter_reentrancy_eq_nil fun b' hb' h => ?_⟩
    · obtain ⟨ms, hmatch, ⟨-, m, rfl, -⟩ | ⟨hnot, -⟩⟩ :=
        Detector.exists_reentrancy_singleton (.ofChars cs) b
      · obtain ⟨f, hfilter, -⟩ := Scan.exists_filter_reentrancy_eq houtline hmatch
        exact List.cons_ne_nil f [] (hfilter.symm.trans hnil)
      · exact hnot ⟨hexposed, hcalls⟩
    · rw [houtline, List.mem_singleton] at hb'
      exact hcalls (hb' ▸ h.2)

open Written in
/-- Nothing is reported in a function whose name is too long. -/
theorem exists_scan_of_long (l : Ledger) (layout : Layout) (ss : List Written.Statement)
    (hlong : headerLimit ≤ l.function.chars.length)
    (hsize : ((l.chars layout ss).length : Int) ≤ ScanOptions.unset.sizeLimit) :
    ∃ report after, scan .unset .builtin none [] (String.ofList (l.chars layout ss)) =
      .ok (report, after) ∧ report.findings.filter (·.rule.id == "reentrancy") = [] := by
  obtain ⟨b, hparsed, hblocks⟩ := l.exists_bare layout ss hlong
  have houtline : (Source.ofChars (l.chars layout ss)).outline.blocks = [b] := by
    rw [Source.outline, (l.stable_chars layout ss).toList_text, hblocks]
  refine exists_scan_eq_ok (by rwa [String.length_ofList]) .builtin none [] ?_
  rw [String.toList_ofList]
  refine Scan.filter_reentrancy_eq_nil fun b' hb' => ?_
  rw [houtline, List.mem_singleton] at hb'
  simp [hb', Block.isExposed, hparsed]

namespace Written

/-- A ledger that checks the amount first and counts the withdrawals. -/
def bank : Ledger where
  contract := name "Bank"
  balances := name "balances"
  function := name "withdraw"
  amount := name "amount"
  function_ne := by decide +kernel
  balances_ne := by decide +kernel
  text_ne := by decide +kernel
  text_not_mem := by decide +kernel

/-- A check of the amount, ahead of the call. -/
def check : Statement :=
  .simple "require(amount > 0)".toList (by decide +kernel)

/-- A write to another state variable, behind the withdrawal. -/
def count : Statement :=
  .simple "withdrawals += 1".toList (by decide +kernel)

example : String.ofList (bank.chars spaced (bank.body [check] [] [count])) =
    "contract Bank \x7b mapping(address => uint256) balances; " ++
      "function withdraw(uint256 amount) external \x7b require(amount > 0); " ++
      "(bool ok, ) = msg.sender.call\x7bvalue: amount\x7d(\"\"); " ++
      "balances[msg.sender] -= amount; withdrawals += 1; \x7d \x7d\n" := by
  decide +kernel

/-- A ledger with short names. -/
def brief : Ledger where
  contract := ⟨['C'], by decide⟩
  balances := ⟨['m'], by decide⟩
  function := ⟨['f'], by decide⟩
  amount := ⟨['a'], by decide⟩
  function_ne := by decide +kernel
  balances_ne := by decide +kernel
  text_ne := by decide +kernel
  text_not_mem := by decide +kernel

/-- An assignment to a member, with a blank behind the dot. -/
def assign : Statement :=
  .simple "s. m = 1".toList (by decide +kernel)

/-- A ledger whose function has a name that is longer than a header may be. -/
def overlong : Ledger where
  contract := ⟨['C'], by decide⟩
  balances := ⟨['m'], by decide⟩
  function := ⟨List.replicate (headerLimit + 1) 'A', isName_replicate headerLimit⟩
  amount := ⟨['a'], by decide⟩
  function_ne := by decide +kernel
  balances_ne := by decide +kernel
  text_ne := by decide +kernel
  text_not_mem := by decide +kernel

end Written

open Written in
theorem scan_reports_bank :
    (∀ s ∈ [check] ++ [], ¬s.Declares bank.balances) ∧ bank.signature.length < headerLimit ∧
      ((bank.chars spaced (bank.body [check] [] [count])).length : Int) ≤
        ScanOptions.unset.sizeLimit ∧
      ¬bank.Hidden ([check] ++ []) ∧ ∃ report after b call f,
        scan .unset .builtin none []
          (String.ofList (bank.chars spaced (bank.body [check] [] [count]))) = .ok (report, after) ∧
        (Source.ofChars (bank.chars spaced (bank.body [check] [] [count]))).outline.blocks = [b] ∧
        b.statements.map (·.text) =
          (bank.body [check] [] [count]).map (fun s => String.ofList s.chars) ∧
        (b.statements.take 2).find? (·.reenters) = some call ∧
        report.findings.filter (·.rule.id == "reentrancy") = [f] ∧ f.rule.severity = .critical ∧
        f.start = call.start ∧ f.stop = call.stop ∧ report.riskLabel = "Critical Risk" := by
  have hdeclares : ∀ s ∈ [check] ++ [], ¬s.Declares bank.balances := fun s hs h => by
    obtain rfl : s = check := by simpa using hs
    exact absurd h.standsBehindType (by decide +kernel)
  have hhidden : ¬bank.Hidden ([check] ++ []) := by
    rintro ⟨⟨s, hs, hlocal, -⟩, -⟩
    obtain rfl : s = check := by simpa using hs
    exact absurd hlocal (by decide +kernel)
  have hshort : bank.signature.length < headerLimit := by decide +kernel
  have hsize : ((bank.chars spaced (bank.body [check] [] [count])).length : Int) ≤
      ScanOptions.unset.sizeLimit := by decide +kernel
  obtain ⟨report, after, b, call, write, hscan, hblocks, htexts, hcall, -, hreports, -⟩ :=
    scan_reports_reentrancy bank spaced [check] [] [count] hdeclares hshort hsize
  obtain ⟨f, hf⟩ := hreports hhidden
  exact ⟨hdeclares, hshort, hsize, hhidden, report, after, b, call, f, hscan, hblocks, htexts,
    hcall, hf⟩

open Written in
/-- A statement that only assigns to a member can be misread as the declaration of a variable, and
then nothing is reported. Nor is anything in a function whose name is too long. -/
theorem scan_misses_hidden :
    (assign.Misread brief.balances ∧ ∃ report after,
      scan .unset .builtin none []
        (String.ofList (brief.chars spaced (brief.body [assign] [] []))) = .ok (report, after) ∧
      report.findings.filter (·.rule.id == "reentrancy") = []) ∧
    ((overlong.chars spaced (overlong.body [] [] [])).length : Int) ≤ ScanOptions.unset.sizeLimit ∧
      ∃ report after,
        scan .unset .builtin none []
          (String.ofList (overlong.chars spaced (overlong.body [] [] []))) = .ok (report, after) ∧
        report.findings.filter (·.rule.id == "reentrancy") = [] := by
  have hname : overlong.function.chars.length = headerLimit + 1 := List.length_replicate
  have hsize : ((overlong.chars spaced (overlong.body [] [] [])).length : Int) ≤
      ScanOptions.unset.sizeLimit := by
    simp only [Ledger.chars, Ledger.head, Ledger.signature_eq, List.length_append, List.length_cons,
      hname]
    decide +kernel
  have hmisread : assign.Misread brief.balances :=
    ⟨by decide +kernel, fun h => absurd h.standsBehindType (by decide +kernel)⟩
  refine ⟨⟨hmisread, ?_⟩, hsize,
    exists_scan_of_long overlong spaced _ (hname ▸ Nat.le_succ _) hsize⟩
  refine exists_scan_eq_ok (by rw [String.length_ofList]; decide +kernel) .builtin none [] ?_
  rw [String.toList_ofList]
  refine Scan.filter_reentrancy_eq_nil fun b hb h => ?_
  have hnone :
      ∀ b ∈ (Source.ofChars (brief.chars spaced (brief.body [assign] [] []))).outline.blocks,
      ¬b.CallsThenWrites := by decide +kernel
  exact hnone b hb h.2

end ContractAudit
