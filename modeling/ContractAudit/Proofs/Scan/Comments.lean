import ContractAudit.Proofs.Scan.Bounds

/-!
# Comments and literals

What stands in comments and literals is blanked out before a source is analysed. Two sources with
the same neutral text have the same length and the same lines (`Source.alike_ofChars`), and no
built-in rule looks at anything else (`Rule.heeds_of_mem_builtin`). So two scans of them go in
lockstep (`Scan.unquoted_askAll`), and their reports differ only in what they quote from the sources
(`scan_ignores_comments`).
-/

namespace ContractAudit

/-- The sources are the same apart from what was blanked out. -/
structure Source.Alike (s t : Source) : Prop where
  text_eq : s.text = t.text
  lines_eq : s.lines = t.lines
  length_eq : s.length = t.length

namespace Source

theorem alike_ofChars {cs ds : List Char} (h : (neutralize cs).text = (neutralize ds).text) :
    (ofChars cs).Alike (ofChars ds) := by
  have htext : (ofChars cs).text = (ofChars ds).text := h
  refine ⟨htext, ?_, ?_⟩
  · rw [lines_ofChars, lines_ofChars, htext]
  · rw [length_ofChars, length_ofChars, ← length_text_ofChars cs, htext, length_text_ofChars]

namespace Alike

variable {s t : Source}

theorem location_eq (h : s.Alike t) : s.location = t.location := by
  ext o : 1
  rw [location, location, clamp, clamp, h.lines_eq, h.length_eq]

theorem lineOf_eq (h : s.Alike t) : s.lineOf = t.lineOf := by
  ext o : 1
  rw [lineOf, lineOf, h.location_eq]

theorem slice_eq (h : s.Alike t) : s.slice = t.slice := by
  ext start stop : 2
  rw [slice, slice, h.text_eq]

theorem window_eq (h : s.Alike t) : s.window = t.window := by
  ext start stop : 2
  rw [window, window, h.text_eq, h.slice_eq]

theorem outline_eq (h : s.Alike t) : s.outline = t.outline := by
  rw [outline, outline, h.text_eq]

end Alike

end Source

/-! ## Rules -/

namespace Detector

/-- The detector heeds the code and not what was blanked out. -/
def Heeds (detect : Detector) : Prop :=
  ∀ {s t : Source}, s.Alike t → detect s = detect t

theorem heeds_reentrancy : reentrancy.Heeds := by
  intro s t h
  ext bs : 1
  simp only [reentrancy, eachEntryPoint, eachParsed, eachBlock, h.lineOf_eq]

theorem heeds_unboundedLoopExternalCall : unboundedLoopExternalCall.Heeds := by
  intro s t h
  have hloop : ∀ length ss, callingLoop? s length ss = callingLoop? t length ss := by
    intro length ss
    funext i
    simp only [callingLoop?, h.lineOf_eq]
  ext bs : 1
  simp only [unboundedLoopExternalCall, eachParsed, eachBlock, loopMatches_eq, hloop]

theorem uncheckedBlocks_eq {s t : Source} (h : s.Alike t) (braces : Pairs) (stop : Nat) :
    ∀ (hits : List Hit) (found : List Match) (covered : Nat),
      uncheckedBlocks s braces stop found covered hits =
        uncheckedBlocks t braces stop found covered hits
  | [], _, _ => rfl
  | hit :: hits, found, covered => by
    rw [uncheckedBlocks, uncheckedBlocks, h.slice_eq]
    simp only [uncheckedBlocks_eq h braces stop hits]

theorem heeds_uncheckedArithmetic : uncheckedArithmetic.Heeds := by
  intro s t h
  ext bs : 1
  simp only [uncheckedArithmetic, eachParsed, eachBlock, h.window_eq, h.text_eq,
    uncheckedBlocks_eq h]

end Detector

/-- A rule that looks neither at the raw text nor at the warnings. -/
theorem Rule.heeds_of_text {r : Rule}
    (h : ∀ (raw raw' text : Array Char) (lines : LineIndex) (ws ws' : List Warning),
      r.evaluate ⟨raw, text, lines, ws⟩ = r.evaluate ⟨raw', text, lines, ws'⟩) {s t : Source}
    (hst : s.Alike t) : r.evaluate s = r.evaluate t := by
  obtain ⟨raw, text, lines, ws⟩ := s
  obtain ⟨raw', text', lines', ws'⟩ := t
  obtain rfl : text = text' := hst.text_eq
  obtain rfl : lines = lines' := hst.lines_eq
  exact h raw raw' text lines ws ws'

/-- A built-in rule answers the same on sources that differ in what was blanked out. -/
theorem Rule.heeds_of_mem_builtin : ∀ r ∈ Rule.builtin, ∀ {s t : Source}, s.Alike t →
    r.evaluate s = r.evaluate t := by
  have hheeds : ∀ {r : Rule} {detect : Detector}, r.evaluate = detect.evaluate → detect.Heeds →
      ∀ {s t : Source}, s.Alike t → r.evaluate s = r.evaluate t := by
    intro r detect heval hdetect s t h
    ext bs : 1
    rw [heval, Detector.evaluate, hdetect h, Detector.evaluate]
  simp only [Rule.builtin, List.forall_mem_cons]
  refine ⟨hheeds rfl Detector.heeds_reentrancy, ?_, ?_, ?_, ?_, ?_, ?_, ?_,
    hheeds rfl Detector.heeds_uncheckedArithmetic, ?_, ?_, ?_, ?_, ?_, ?_, ?_,
    hheeds rfl Detector.heeds_unboundedLoopExternalCall, ?_, ?_, ?_, ?_, ?_, ?_, ?_, ?_,
    fun r hr => absurd hr List.not_mem_nil⟩
  -- The others have no way to the raw text.
  all_goals exact heeds_of_text fun _ _ _ _ _ _ => rfl

/-! ## Reports -/

/-- The finding without what it quotes from the source. -/
def Finding.unquoted (f : Finding) : Finding :=
  { f with snippet := "" }

/-- What the scan has come to, without what it quotes from the source. -/
def Scan.Progress.unquoted (p : Progress) : Progress :=
  { p with findings := p.findings.map .unquoted }

/-- The report without what it quotes from the source and without its warnings. -/
def Report.unquoted (r : Report) : Report :=
  { r with
    findings := r.findings.map .unquoted
    metadata := { r.metadata with warnings := [] } }

namespace Finding

theorem unquoted_ofMatch {s t : Source} (h : s.Alike t) (rule : RuleInfo) (m : Match) :
    (ofMatch rule s m).unquoted = (ofMatch rule t m).unquoted := by
  simp only [ofMatch, unquoted, Source.clamp, h.length_eq, h.location_eq]

theorem map_unquoted_sort (fs : List Finding) :
    (sort fs).map unquoted = sort (fs.map unquoted) :=
  List.map_mergeSort fun _ _ _ _ => rfl

end Finding

/-- What findings add up to depends on their rules only. -/
theorem Summary.of_map {f : Finding → Finding} (hf : ∀ x, (f x).rule = x.rule)
    (fs : List Finding) : Summary.of (fs.map f) = Summary.of fs := by
  simp only [Summary.of, severityCount, categoryCount, List.foldl_map, List.countP_map,
    List.isEmpty_map, Function.comp_def, hf]

theorem Summary.of_eq_of_map_eq {f g : Finding → Finding} {fs gs : List Finding}
    (h : fs.map f = gs.map g) (hf : ∀ x, (f x).rule = x.rule) (hg : ∀ x, (g x).rule = x.rule) :
    Summary.of fs = Summary.of gs := by
  rw [← Summary.of_map hf fs, h, Summary.of_map hg]

theorem Report.unquoted_of {fs gs : List Finding} {m m' : Metadata}
    (hfs : fs.map Finding.unquoted = gs.map Finding.unquoted)
    (hm : { m with warnings := [] } = { m' with warnings := [] }) :
    (Report.of fs m).unquoted = (Report.of gs m').unquoted := by
  have hsort : (Finding.sort fs).map Finding.unquoted = (Finding.sort gs).map Finding.unquoted := by
    rw [Finding.map_unquoted_sort, hfs, Finding.map_unquoted_sort]
  have hsummary := Summary.of_eq_of_map_eq hsort (fun _ => rfl) fun _ => rfl
  simp only [Report.of, unquoted, hsort, hsummary, hm]

/-! ## Two scans in lockstep -/

namespace Rule

variable {s t : Source} {r : Rule}

theorem unquoted_findings (h : s.Alike t) (hr : r.evaluate s = r.evaluate t) (blocks : List Block) :
    (r.findings s blocks).map Finding.unquoted = (r.findings t blocks).map Finding.unquoted := by
  unfold findings
  rw [hr]
  split
  · rfl
  · simp only [List.map_map]
    exact List.map_congr_left fun m _ => Finding.unquoted_ofMatch h _ m

theorem errors_eq (hr : r.evaluate s = r.evaluate t) (blocks : List Block) :
    r.errors s blocks = r.errors t blocks := by
  rw [errors, hr, errors]

end Rule

namespace Scan

variable {s t : Source}

theorem cost_eq_of_alike (h : s.Alike t) (blocks : List Block) : cost s blocks = cost t blocks := by
  rw [cost, cost, h.length_eq]

theorem Progress.unquoted_ask (h : s.Alike t) {r : Rule} (hr : r.evaluate s = r.evaluate t)
    (blocks : List Block) {p q : Progress} (hpq : p.unquoted = q.unquoted) :
    (p.ask s blocks r).unquoted = (q.ask t blocks r).unquoted := by
  obtain ⟨hevaluated, hused, hfindings, herrors, hcancelled⟩ := Progress.mk.inj hpq
  rw [ask_eq_after, ask_eq_after]
  simp only [unquoted, after, List.flatMap_singleton, List.map_append, hevaluated, hused, hfindings,
    herrors, hcancelled, hr, cost_eq_of_alike h, Rule.unquoted_findings h hr, Rule.errors_eq hr]

/-- Two scans of sources that differ in what was blanked out stop at the same rule, with the same
progress apart from what they quote. -/
theorem unquoted_askAll (h : s.Alike t) (blocks : List Block) (budget : Int)
    (token : Option Token) : ∀ (rules : List Rule), (∀ r ∈ rules, r.evaluate s = r.evaluate t) →
    ∀ {p q : Progress}, p.unquoted = q.unquoted →
      (askAll s blocks budget token rules p).1.unquoted =
          (askAll t blocks budget token rules q).1.unquoted ∧
        (askAll s blocks budget token rules p).2 = (askAll t blocks budget token rules q).2
  | [], _, _, _, hpq => ⟨hpq, rfl⟩
  | r :: later, hrules, p, q, hpq => by
    obtain ⟨-, hused, -, -, hcancelled⟩ := Progress.mk.inj hpq
    have hask := Progress.unquoted_ask h (hrules r List.mem_cons_self) blocks hpq
    have hlater := unquoted_askAll h blocks budget token later
      (fun r' hr' => hrules r' (List.mem_cons_of_mem _ hr')) hask
    simp only [askAll, hused, hcancelled, cost_eq_of_alike h]
    split
    · exact ⟨hpq, rfl⟩
    · split
      · exact ⟨hpq, rfl⟩
      · exact hlater

theorem unquoted_ofSource (h : s.Alike t) (catalog : Catalog)
    (hrules : ∀ r ∈ catalog.rules, r.evaluate s = r.evaluate t) (options : ScanOptions)
    (token : Option Token) (cancelled : List Token) :
    (ofSource options catalog token cancelled s).1.unquoted =
        (ofSource options catalog token cancelled t).1.unquoted ∧
      (ofSource options catalog token cancelled s).2 =
        (ofSource options catalog token cancelled t).2 := by
  have hask := unquoted_askAll h s.outline.blocks (options.budgetFor s.length) token catalog.rules
    hrules (p := .initial cancelled) rfl
  have hunparsable : unparsable s s.outline = unparsable t s.outline := by
    simp only [unparsable, h.lineOf_eq]
  rw [ofSource_eq rfl, ofSource_eq rfl, ← h.outline_eq, ← h.length_eq]
  obtain ⟨hprogress, hending⟩ := hask
  obtain ⟨hevaluated, hused, hfindings, herrors, hcancelled⟩ := Progress.mk.inj hprogress
  refine ⟨Report.unquoted_of hfindings ?_, hcancelled⟩
  simp only [metadata, ← h.outline_eq, ← h.length_eq, hevaluated, hused, herrors, hending,
    hunparsable]

end Scan

/-- What stands in comments and literals has no influence on a scan : two sources with the same
neutral text get the same report by the built-in rules, apart from the snippets, which quote the
sources, and the warnings. -/
theorem scan_ignores_comments (options : ScanOptions) (token : Option Token)
    (cancelled : List Token) (a b : String)
    (h : (neutralize a.toList).text = (neutralize b.toList).text)
    (hsize : a.length ≤ options.sizeLimit) :
    ∃ report report' after, scan options .builtin token cancelled a = .ok (report, after) ∧
      scan options .builtin token cancelled b = .ok (report', after) ∧
      report.unquoted = report'.unquoted := by
  have halike := Source.alike_ofChars h
  have hlength : a.length = b.length := by
    have heq := halike.length_eq
    rwa [Source.length_ofChars, Source.length_ofChars, String.length_toList,
      String.length_toList] at heq
  obtain ⟨hreport, hafter⟩ := Scan.unquoted_ofSource halike .builtin
    (fun r hr => Rule.heeds_of_mem_builtin r hr halike) options token cancelled
  refine ⟨_, _, _, scan_eq_ofSource hsize .., ?_, hreport⟩
  exact (scan_eq_ofSource (hlength ▸ hsize) ..).trans
    (congrArg Except.ok (Prod.ext rfl hafter.symm))

/-- A call with a literal, and a comment. -/
def Source.remarked : String :=
  "function f(A a)\x7ba.call(\"one\");/*x*/y=1;\x7d"

/-- Another literal and another comment, which would be code elsewhere. -/
def Source.remarkedAnew : String :=
  "function f(A a)\x7ba.call(\"t/*\");/*;*/y=1;\x7d"

/-- The match in `remarked`. -/
def Match.inRemarked : Match :=
  ⟨"reentrancy", 16, 29, some "external call in f precedes write to `y` at line 1"⟩

theorem Rule.reentrancy_remarked :
    (Rule.reentrancy.evaluate (.ofChars Source.remarked.toList)
      (Source.ofChars Source.remarked.toList).outline.blocks).outcome =
        .items [.found .inRemarked] := by
  decide +kernel

theorem Rule.reentrancy_remarkedAnew :
    (Rule.reentrancy.evaluate (.ofChars Source.remarkedAnew.toList)
      (Source.ofChars Source.remarkedAnew.toList).outline.blocks).outcome =
        .items [.found .inRemarked] := by
  decide +kernel

theorem scan_ignores_remarks :
    ∃ report report' after, scan .unset .builtin none [] Source.remarked = .ok (report, after) ∧
      scan .unset .builtin none [] Source.remarkedAnew = .ok (report', after) ∧
      report.unquoted = report'.unquoted ∧
      (∃ f ∈ report.findings, f.snippet = "a.call(\"one\")") ∧
      ∃ f ∈ report'.findings, f.snippet = "a.call(\"t/*\")" := by
  have hmem : Rule.reentrancy ∈ Rule.builtin := List.mem_cons_self
  obtain ⟨report, report', after, hscan, hscan', heq⟩ := scan_ignores_comments .unset none []
    Source.remarked Source.remarkedAnew (by decide +kernel) (by decide)
  refine ⟨report, report', after, hscan, hscan', heq, ?_, ?_⟩
  · have hf := mem_findings_of_items_singleton (by decide) hmem Rule.reentrancy_remarked hscan
    exact ⟨_, hf, by decide +kernel⟩
  · have hf := mem_findings_of_items_singleton (by decide) hmem Rule.reentrancy_remarkedAnew hscan'
    exact ⟨_, hf, by decide +kernel⟩

end ContractAudit
