import Mathlib.Data.List.Forall2
import ContractAudit.Proofs.Overlap.Greedy
import ContractAudit.Proofs.Rule.Carries
import ContractAudit.Proofs.Scan.Comments

/-!
# Scans behind a gap

Blanks and closed comments in front of a text are a gap in the neutral text
(`Source.follows_ofChars`). Each built-in rule then makes the same matches further on, and of these
the same are kept (`keepWidest_moved`). They become findings with the same snippets, as many lines
on as the gap has newlines (`Finding.moved_ofMatch`). The order of reports goes by how offsets and
lines compare, so it stays (`Finding.sort_moved`), and so does what the findings add up to. Main
statement : `scan_behind_gap`.
-/

namespace ContractAudit

variable {n : Nat}

/-! ## Kept matches -/

/-- Of moved matches the same are kept. -/
theorem keepWidest_moved (ms : List Match) :
    keepWidest (ms.map (Match.moved n)) = (keepWidest ms).map (Match.moved n) :=
  keepWidest_map (fun _ => rfl) (fun _ => rfl) ms

theorem Moves.dropOverlaps {ms ms' : List Match} (h : Moves n ms ms') (id : String) :
    Moves n (dropOverlaps (ms.map fun m => { m with ruleId := id }))
      (dropOverlaps (ms'.map fun m => { m with ruleId := id })) := by
  have hid : ∀ ls : List Match, ∀ m ∈ ls.map fun m => { m with ruleId := id }, m.ruleId = id := by
    intro ls m hm
    obtain ⟨l, -, rfl⟩ := List.mem_map.1 hm
    rfl
  have hown : Moves n (ms.map fun m => { m with ruleId := id })
      (ms'.map fun m => { m with ruleId := id }) := by
    have hset := congrArg (List.map fun m : Match => { m with ruleId := id }) h
    rw [List.map_map, List.map_map] at hset
    rw [Moves, List.map_map, List.map_map]
    exact hset
  rw [dropOverlaps_of_ruleId (hid ms), dropOverlaps_of_ruleId (hid ms'), Moves, ← keepWidest_moved,
    hown, keepWidest_moved]

/-! ## Places -/

namespace Source

variable (ds cs : List Char)

theorem follows_ofChars {ds : List Char} (hblank : ∀ a ∈ neutralChars .code ds, isBlank a)
    (hcode : Region.code.after ds = .code) (cs : List Char) :
    (ofChars cs).Follows (neutralChars .code ds) (ofChars (ds ++ cs)) := by
  refine ⟨hblank, ?_⟩
  rw [toList_text_ofChars, toList_text_ofChars, neutralChars_append cs ds hblank hcode]

theorem snippet_append (i j : Nat) :
    (ofChars (ds ++ cs)).snippet (ds.length + i) (ds.length + j) = (ofChars cs).snippet i j := by
  simp only [snippet, ofChars, Array.toList_extract, List.extract_eq_take_drop,
    Nat.add_sub_add_left]
  simp

theorem clamp_append (o : Nat) :
    (ofChars (ds ++ cs)).clamp (ds.length + o : Nat) = ds.length + (ofChars cs).clamp o := by
  rw [clamp, clamp, length_ofChars, length_ofChars, List.length_append]
  omega

theorem lineOf_append (o : Nat) :
    (ofChars (ds ++ cs)).lineOf (ds.length + o : Nat) = ds.count '\n' + (ofChars cs).lineOf o := by
  rw [lineOf, location, clamp_append, lineOf, location]
  show ((LineIndex.of (ds ++ cs)).location _).line =
    ds.count '\n' + ((LineIndex.of cs).location _).line
  rw [LineIndex.line_location, LineIndex.line_location, List.take_length_add_append,
    List.count_append]
  omega

end Source

/-! ## Findings -/

/-- The finding `n` characters and `k` lines on, without its columns and its evidence. -/
def Finding.moved (n k : Nat) (f : Finding) : Finding :=
  { f with
    start := n + f.start
    stop := n + f.stop
    first := ⟨k + f.first.line, 0⟩
    last := ⟨k + f.last.line, 0⟩
    evidence := none }

theorem compare_add_left (a b c : Int) : compare (a + b) (a + c) = compare b c := by
  simp [compare, compareOfLessAndEq]

namespace Finding

variable {k : Nat}

theorem compare_moved (f g : Finding) : (f.moved n k).compare (g.moved n k) = f.compare g := by
  simp only [Finding.compare, compareLex, compareOn, moved, compare_add_left]

theorem sort_moved (fs : List Finding) :
    sort (fs.map (Finding.moved n k)) = (sort fs).map (Finding.moved n k) :=
  (List.map_mergeSort fun f _ g _ => by rw [compare_moved]).symm

theorem moved_ofMatch (rule : RuleInfo) (ds cs : List Char) {m : Match} (hm : m.Inside cs.length) :
    (ofMatch rule (.ofChars (ds ++ cs)) (m.moved ds.length)).moved 0 0 =
      (ofMatch rule (.ofChars cs) m).moved ds.length (ds.count '\n') := by
  obtain ⟨id, start, stop, evidence⟩ := m
  obtain ⟨hnonneg, hlt, hle⟩ := hm
  obtain ⟨i, rfl⟩ := Int.eq_ofNat_of_zero_le hnonneg
  obtain ⟨j, rfl⟩ := Int.eq_ofNat_of_zero_le (Int.le_of_lt (Int.lt_of_le_of_lt hnonneg hlt))
  have hij : i < j := Int.ofNat_lt.1 hlt
  have hj : j ≤ (Source.ofChars cs).length := by
    rw [Source.length_ofChars]
    exact Int.ofNat_le.1 hle
  have hclamp : ∀ o : Nat, o ≤ (Source.ofChars cs).length →
      (Source.ofChars (ds ++ cs)).clamp (ds.length + (o : Int)) = ds.length + o := by
    intro o ho
    rw [← Int.natCast_add, Source.clamp_append, Source.clamp_natCast _ ho]
  have hline : ∀ o : Nat, ((Source.ofChars (ds ++ cs)).location (ds.length + o : Nat)).line =
      ds.count '\n' + ((Source.ofChars cs).location o).line := Source.lineOf_append ds cs
  have hmax : max (ds.length + i) (ds.length + j) = ds.length + j := by omega
  simp only [ofMatch, moved, Match.start_moved, Match.stop_moved, hclamp i (by omega), hclamp j hj,
    Source.clamp_natCast _ hj, Source.clamp_natCast _ (Nat.le_of_lt (Nat.lt_of_lt_of_le hij hj)),
    Nat.max_eq_right (Nat.le_of_lt hij), hmax, hline, Source.snippet_append]
  simp

/-- Moved matches become moved findings. -/
theorem map_moved_ofMatch (rule : RuleInfo) {ds cs : List Char} {ms ms' : List Match}
    (h : Moves ds.length ms ms') (hinside : ∀ m ∈ ms, m.Inside cs.length) :
    (ms'.map (ofMatch rule (.ofChars (ds ++ cs)))).map (Finding.moved 0 0) =
      (ms.map (ofMatch rule (.ofChars cs))).map (Finding.moved ds.length (ds.count '\n')) := by
  -- Evidence does not count, so a match can be stripped of it before.
  have hstrip : ∀ m : Match, (ofMatch rule (.ofChars (ds ++ cs)) (m.moved 0)).moved 0 0 =
      (ofMatch rule (.ofChars (ds ++ cs)) m).moved 0 0 := by
    intro m
    simp [ofMatch, moved, Match.moved]
  calc (ms'.map (ofMatch rule (.ofChars (ds ++ cs)))).map (Finding.moved 0 0)
      = (ms'.map (Match.moved 0)).map
          fun m => (ofMatch rule (.ofChars (ds ++ cs)) m).moved 0 0 := by
        rw [List.map_map, List.map_map]
        exact List.map_congr_left fun m _ => (hstrip m).symm
    _ = (ms.map (Match.moved ds.length)).map
          fun m => (ofMatch rule (.ofChars (ds ++ cs)) m).moved 0 0 := by
        rw [h]
    _ = (ms.map (ofMatch rule (.ofChars cs))).map (Finding.moved ds.length (ds.count '\n')) := by
        rw [List.map_map, List.map_map]
        exact List.map_congr_left fun m hm => moved_ofMatch rule ds cs (hinside m hm)

end Finding

/-! ## Reports -/

/-- The second finding shows what the first shows, `n` characters and `k` lines on. -/
structure Finding.MovedTo (n k : Nat) (f g : Finding) : Prop where
  rule_eq : g.rule = f.rule
  start_eq : g.start = n + f.start
  stop_eq : g.stop = n + f.stop
  firstLine_eq : g.first.line = k + f.first.line
  lastLine_eq : g.last.line = k + f.last.line
  snippet_eq : g.snippet = f.snippet

/-- The second report says what the first says, of places `n` characters and `k` lines on. -/
structure Report.MovedTo (n k : Nat) (r r' : Report) : Prop where
  findings : List.Forall₂ (Finding.MovedTo n k) r.findings r'.findings
  score_eq : r'.score = r.score
  riskLabel_eq : r'.riskLabel = r.riskLabel
  categories_eq : r'.categories = r.categories
  severities_eq : r'.severities = r.severities
  blockCount_eq : r'.metadata.blockCount = r.metadata.blockCount
  contractCount_eq : r'.metadata.contractCount = r.metadata.contractCount
  ruleErrors_eq : r'.metadata.ruleErrors = r.metadata.ruleErrors
  unparsable_eq : r'.metadata.unparsable =
    r.metadata.unparsable.map fun u => { u with line := k + u.line }

theorem Finding.movedTo_of_moved_eq {k : Nat} {f g : Finding} (h : f.moved n k = g.moved 0 0) :
    f.MovedTo n k g := by
  obtain ⟨hrule, hstart, hstop, hfirst, hlast, hsnippet, -⟩ := Finding.mk.inj h
  obtain ⟨hfirst, -⟩ := Location.mk.inj hfirst
  obtain ⟨hlast, -⟩ := Location.mk.inj hlast
  exact ⟨hrule.symm, by omega, by omega, by omega, by omega, hsnippet.symm⟩

theorem Report.movedTo_of {k : Nat} {fs gs : List Finding} {m m' : Metadata}
    (hfs : gs.map (Finding.moved 0 0) = fs.map (Finding.moved n k))
    (hblocks : m'.blockCount = m.blockCount) (hcontracts : m'.contractCount = m.contractCount)
    (herrors : m'.ruleErrors = m.ruleErrors)
    (hunparsable : m'.unparsable = m.unparsable.map fun u => { u with line := k + u.line }) :
    (Report.of fs m).MovedTo n k (Report.of gs m') := by
  have hsort : (Finding.sort fs).map (Finding.moved n k) =
      (Finding.sort gs).map (Finding.moved 0 0) := by
    rw [← Finding.sort_moved, ← hfs, Finding.sort_moved]
  have hsummary := Summary.of_eq_of_map_eq hsort.symm (fun _ => rfl) fun _ => rfl
  refine ⟨?_, congrArg Summary.score hsummary, congrArg (·.level.label) hsummary,
    congrArg Summary.categories hsummary, congrArg Summary.severities hsummary, hblocks, hcontracts,
    herrors, hunparsable⟩
  rw [← List.forall₂_eq_eq_eq, List.forall₂_map_left_iff, List.forall₂_map_right_iff] at hsort
  exact hsort.imp fun f g hfg => Finding.movedTo_of_moved_eq hfg

/-! ## Rules -/

theorem Detector.agree_matches {detect : Detector} {s t : Source} {bs bs' : List Block}
    {R : List Match → List Match → Prop} (h : Agree R (detect s bs) (detect t bs')) :
    Agree R (detect.evaluate s bs).outcome.matches (detect.evaluate t bs').outcome.matches := by
  unfold evaluate
  generalize detect s bs = x at h
  generalize detect t bs' = y at h
  cases h with
  | ok h =>
    rw [Outcome.matches_eq_ok_iff.2 rfl, Outcome.matches_eq_ok_iff.2 rfl]
    exact .ok h
  | error fault => cases fault <;> exact .error _

section Gap

variable {ds : List Char} (hblank : ∀ a ∈ neutralChars .code ds, isBlank a)
  (hcode : Region.code.after ds = .code) (cs : List Char)

include hblank hcode

/-- A built-in rule finds behind a gap what it finds without it, or fails as it does without it. -/
theorem Rule.moved_findings {r : Rule} (hr : r ∈ Rule.builtin) :
    (r.findings (.ofChars (ds ++ cs)) (Source.ofChars (ds ++ cs)).outline.blocks).map
        (Finding.moved 0 0) =
      (r.findings (.ofChars cs) (Source.ofChars cs).outline.blocks).map
        (Finding.moved ds.length (ds.count '\n')) ∧
    r.errors (.ofChars (ds ++ cs)) (Source.ofChars (ds ++ cs)).outline.blocks =
      r.errors (.ofChars cs) (Source.ofChars cs).outline.blocks := by
  obtain ⟨detect, heval, hcarries⟩ := exists_carries_of_mem_builtin r hr
  have hagree := Detector.agree_matches (hcarries (Source.follows_ofChars hblank hcode cs))
  rw [length_neutralChars, ← heval] at hagree
  unfold findings errors
  generalize hx : (r.evaluate (.ofChars cs) (Source.ofChars cs).outline.blocks).outcome.matches = x
    at hagree ⊢
  generalize (r.evaluate (.ofChars (ds ++ cs))
    (Source.ofChars (ds ++ cs)).outline.blocks).outcome.matches = y at hagree ⊢
  cases hagree with
  | error failure => exact ⟨rfl, rfl⟩
  | @ok ms ms' hmoves =>
    refine ⟨?_, rfl⟩
    have hinside : ∀ m ∈ dropOverlaps (ms.map fun m => { m with ruleId := r.id }),
        m.Inside cs.length := by
      intro m hm
      obtain ⟨m', hm', rfl⟩ := List.mem_map.1 (mem_of_mem_dropOverlaps hm)
      obtain ⟨hnonneg, hlt, hle⟩ := staysInside_of_mem_builtin hr cs _ m'
        (Outcome.matches_eq_ok_iff.1 hx) (List.mem_map_of_mem hm')
      rw [Source.length_ofChars] at hle
      exact ⟨hnonneg, hlt, hle⟩
    exact Finding.map_moved_ofMatch _ (hmoves.dropOverlaps r.id) hinside

theorem moved_unparsable :
    Scan.unparsable (.ofChars (ds ++ cs)) (Source.ofChars (ds ++ cs)).outline =
      (Scan.unparsable (.ofChars cs) (Source.ofChars cs).outline).map fun u =>
        { u with line := ds.count '\n' + u.line } := by
  rw [(Source.follows_ofChars hblank hcode cs).outline_eq, length_neutralChars]
  unfold Scan.unparsable
  rw [Outline.moved, List.filterMap_map, List.map_filterMap]
  refine congrArg (List.filterMap · _) (funext fun b => ?_)
  have hline : (Source.ofChars (ds ++ cs)).lineOf (b.moved ds.length).start =
      ds.count '\n' + (Source.ofChars cs).lineOf b.start := Source.lineOf_append ds cs b.start
  rw [Function.comp_apply, hline, Block.displayName_moved, Option.map_map]
  rfl

/-- Both scans ask every rule, and the one behind the gap reports the same, further on. -/
theorem Scan.movedTo_ofSource {options : ScanOptions} (hbudget : options.budget = none)
    (cancelled : List Token) :
    (ofSource options .builtin none cancelled (.ofChars cs)).1.MovedTo ds.length (ds.count '\n')
      (ofSource options .builtin none cancelled (.ofChars (ds ++ cs))).1 := by
  have houtline := (Source.follows_ofChars hblank hcode cs).outline_eq
  rw [length_neutralChars] at houtline
  have hfindings : (Catalog.builtin.rules.flatMap (Rule.findings (.ofChars (ds ++ cs))
        (Source.ofChars (ds ++ cs)).outline.blocks)).map (Finding.moved 0 0) =
      (Catalog.builtin.rules.flatMap (Rule.findings (.ofChars cs)
        (Source.ofChars cs).outline.blocks)).map (Finding.moved ds.length (ds.count '\n')) := by
    rw [List.map_flatMap, List.map_flatMap, List.flatMap_def, List.flatMap_def]
    exact congrArg List.flatten
      (List.map_congr_left fun r hr => (Rule.moved_findings hblank hcode cs hr).1)
  have herrors : Catalog.builtin.rules.flatMap (Rule.errors (.ofChars (ds ++ cs))
        (Source.ofChars (ds ++ cs)).outline.blocks) =
      Catalog.builtin.rules.flatMap (Rule.errors (.ofChars cs)
        (Source.ofChars cs).outline.blocks) := by
    rw [List.flatMap_def, List.flatMap_def]
    exact congrArg List.flatten
      (List.map_congr_left fun r hr => (Rule.moved_findings hblank hcode cs hr).2)
  rw [ofSource_of_affords (uncancelled_none ..) (affords_builtin hbudget _),
    ofSource_of_affords (uncancelled_none ..) (affords_builtin hbudget _)]
  refine Report.movedTo_of hfindings ?_ ?_ ?_ (moved_unparsable hblank hcode cs)
  · simp only [metadata, houtline, Outline.moved, List.length_map]
  · simp only [metadata, houtline, Outline.moved, List.length_map]
  · simp only [metadata, Progress.after, herrors]

end Gap

/-- A gap of blanks and closed comments in front of a text only moves what is found in it : the
built-in rules find the same, as many characters on as the gap has and as many lines on as it has
newlines, and the contracts and members are the same, further on. -/
theorem scan_behind_gap (options : ScanOptions) (cancelled : List Token) (gap text : String)
    (hblank : ∀ a ∈ (neutralize gap.toList).text.toList, isBlank a)
    (hcode : Region.code.after gap.toList = .code) (hbudget : options.budget = none)
    (hsize : (gap ++ text).length ≤ options.sizeLimit) :
    (Source.ofChars (gap ++ text).toList).outline =
        (Source.ofChars text.toList).outline.moved gap.length ∧
      ∃ report report' after after',
        scan options .builtin none cancelled text = .ok (report, after) ∧
        scan options .builtin none cancelled (gap ++ text) = .ok (report', after') ∧
        report.MovedTo gap.length (gap.toList.count '\n') report' := by
  have hneutral : ∀ a ∈ neutralChars .code gap.toList, isBlank a := by
    rw [← Source.toList_text_ofChars]
    exact hblank
  have hsize' : text.length ≤ options.sizeLimit := by
    rw [String.length_append] at hsize
    omega
  have houtline := (Source.follows_ofChars hneutral hcode text.toList).outline_eq
  have hmoved := Scan.movedTo_ofSource hneutral hcode text.toList hbudget cancelled
  rw [← String.toList_append, String.length_toList] at hmoved
  rw [← String.toList_append, length_neutralChars, String.length_toList] at houtline
  exact ⟨houtline, _, _, _, _, scan_eq_ofSource hsize' .., scan_eq_ofSource hsize .., hmoved⟩

/-- A block comment, a line comment and an empty line. -/
def Source.heading : String :=
  "/* a\n */ // b;\n\n"

theorem Source.isBlank_heading :
    ∀ a ∈ (neutralize Source.heading.toList).text.toList, isBlank a :=
  List.all_eq_true.1 (by decide +kernel)

theorem scan_behind_heading :
    (Source.ofChars (Source.heading ++ Source.remarked).toList).outline =
        (Source.ofChars Source.remarked.toList).outline.moved 16 ∧
      ∃ report report' after after',
        scan .unset .builtin none [] Source.remarked = .ok (report, after) ∧
        scan .unset .builtin none [] (Source.heading ++ Source.remarked) = .ok (report', after') ∧
        report.MovedTo 16 3 report' ∧
        ∃ f ∈ report.findings, f.start = 16 ∧ f.stop = 29 ∧ f.first.line = 1 := by
  have hlength : Source.heading.length = 16 := by decide
  have hlines : Source.heading.toList.count '\n' = 3 := by decide
  obtain ⟨houtline, report, report', after, after', hscan, hscan', hmoved⟩ :=
    scan_behind_gap .unset [] Source.heading Source.remarked Source.isBlank_heading
      (by decide +kernel) rfl (by decide)
  rw [hlength] at houtline hmoved
  rw [hlines] at hmoved
  refine ⟨houtline, report, report', after, after', hscan, hscan', hmoved, ?_⟩
  have hf := mem_findings_of_items_singleton (by decide) List.mem_cons_self
    Rule.reentrancy_remarked hscan
  exact ⟨_, hf, by decide +kernel, by decide +kernel, by decide +kernel⟩

end ContractAudit
