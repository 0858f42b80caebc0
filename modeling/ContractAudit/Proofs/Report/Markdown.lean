import ContractAudit.Proofs.Report.Page
import ContractAudit.Report.Markdown

/-!
# What a page in Markdown shows

Of a page written from a report a reader sees the headings of the findings, numbered from one on,
and between the fences their snippets (`Report.markdown_reads_back`), whatever the snippets hold : a
fence is longer than every run of backticks in its snippet (`ne_ticks_of_infix`), and no other line
of the page looks like a fence or like a heading (`Page.Plain`). The evidence of a finding may have
several lines. If none behind the first opens a fence, those of them that look like headings are all
that is seen beside the headings (`Finding.forgedLines`, `Report.gist_view`).
-/

namespace ContractAudit

open Page

/-! ## Fences -/

theorem le_longestTicks : ∀ (cs : List Char) (run best : Nat), best ≤ longestTicks run best cs
  | [], _, _ => Nat.le_refl _
  | c :: cs, run, best => by
    unfold longestTicks
    split
    · exact Nat.le_trans (Nat.le_max_left _ _) (le_longestTicks cs _ _)
    · exact le_longestTicks cs 0 best

/-- A run of backticks does not go over another character. -/
theorem infix_of_ticks_infix {k : Nat} {c : Char} (hc : c ≠ '`') {l r : List Char}
    (h : List.replicate k '`' <:+: l ++ c :: r) :
    List.replicate k '`' <:+: l ∨ List.replicate k '`' <:+: r := by
  have hnil : ∀ ts : List Char, (∀ t ∈ ts, t = '`') → ts <+: c :: r → ts = [] := by
    intro ts hts hpre
    cases ts with
    | nil => rfl
    | cons t ts => exact absurd ((List.cons_prefix_cons.1 hpre).1 ▸ hts t List.mem_cons_self) hc
  rw [List.infix_append_iff, List.infix_cons_iff] at h
  rcases h with h | (h | h) | ⟨ts, us, heq, hsuf, hpre⟩
  · exact Or.inl h
  · rw [hnil _ (fun t ht => List.eq_of_mem_replicate ht) h]
    exact Or.inl (List.nil_infix)
  · exact Or.inr h
  · have hus : us = [] := hnil us (fun t ht =>
      List.eq_of_mem_replicate (heq ▸ List.mem_append_right ts ht)) hpre
    rw [heq, hus, List.append_nil]
    exact Or.inl hsuf.isInfix

/-- No run of backticks is longer than the longest one : `run` backticks were read before. -/
theorem le_longestTicks_of_infix : ∀ (cs : List Char) {run best k : Nat}, run ≤ best →
    List.replicate k '`' <:+: List.replicate run '`' ++ cs → k ≤ longestTicks run best cs
  | [], run, best, k, hrun, h => by
    have hle := h.length_le
    simp only [List.append_nil, List.length_replicate] at hle
    exact Nat.le_trans hle hrun
  | c :: cs, run, best, k, hrun, h => by
    unfold longestTicks
    split
    next hc =>
      rw [beq_iff_eq.1 hc, List.append_cons, ← List.replicate_succ'] at h
      exact le_longestTicks_of_infix cs (Nat.le_max_right _ _) h
    next hc =>
      rcases infix_of_ticks_infix (by simpa using hc) h with h | h
      · have hle := h.length_le
        simp only [List.length_replicate] at hle
        exact Nat.le_trans (Nat.le_trans hle hrun) (le_longestTicks cs 0 best)
      · exact le_longestTicks_of_infix cs (Nat.zero_le _) h

/-- A text within the snippet is no line of a fence around it. -/
theorem ne_ticks_of_infix {snippet : String} {l : List Char} (h : l <:+: snippet.toList) :
    l ≠ (fence snippet).toList := by
  intro heq
  rw [heq, fence, String.toList_ofList] at h
  have hle := le_longestTicks_of_infix snippet.toList (Nat.zero_le 0) h
  omega

theorem toList_fence (snippet : String) :
    (fence snippet).toList =
      List.replicate (max 3 (longestTicks 0 0 snippet.toList + 1)) '`' :=
  String.toList_ofList

/-! ## Sections -/

/-- The texts of what is said about a rule. -/
def RuleInfo.labels (r : RuleInfo) : List String :=
  [r.title, r.id, r.description, r.remediation] ++ r.swc.toList

/-- The texts of a finding beside its snippet. -/
def Finding.labels (f : Finding) : List String :=
  f.rule.labels ++ f.evidence.toList

/-- The texts on how a scan went. -/
def Metadata.labels (m : Metadata) : List String :=
  m.ruleErrors.flatMap (fun e => [e.ruleId, e.message]) ++
    m.unparsable.flatMap (fun u => [u.name, u.kind, u.reason]) ++ m.warnings

/-- The texts of a report but for the snippets. -/
def Report.labels (r : Report) : List String :=
  r.riskLabel :: r.findings.flatMap Finding.labels ++ r.metadata.labels

namespace Finding

/-- All texts on the finding stand on one line, but for the evidence, which opens no fence. -/
structure Tame (f : Finding) : Prop where
  rule : ∀ s ∈ f.rule.labels, OneLine s
  evidence : ∀ e ∈ f.evidence, Unfenced e

theorem tame_of_oneLine {f : Finding} (h : ∀ s ∈ f.labels, OneLine s) : f.Tame where
  rule s hs := h s (List.mem_append_left _ hs)
  evidence e he := (h e (List.mem_append_right _ (Option.mem_toList.2 he))).unfenced

variable {f : Finding} (h : f.Tame)

theorem heading?_heading (n : Nat) (f : Finding) :
    heading? (f.heading n).toList = some ((toString n).toList, f.rule.title.toList) := by
  have hdigits : ∀ c ∈ (toString n).toList, c.isDigit := fun c hc =>
    Nat.isDigit_of_mem_toDigits (by decide) (by decide) (Nat.toList_repr (n := n) ▸ hc)
  have hne : (toString n).toList ≠ [] := by
    intro hnil
    exact Nat.toDigits_ne_nil (Nat.toList_repr (n := n) ▸ hnil)
  have heq : (f.heading n).toList =
      "### Finding ".toList ++ (toString n).toList ++ ": ".toList ++ f.rule.title.toList := by
    have happend : f.heading n = "### Finding " ++ toString n ++ ": " ++ f.rule.title := rfl
    rw [happend, String.toList_append, String.toList_append, String.toList_append]
  rw [heq]
  exact heading?_eq hne hdigits _

include h in
theorem oneLine_heading (n : Nat) : OneLine (f.heading n) :=
  ((OneLine.append (.literal (by decide)) (OneLine.ofNat n)).append (.literal (by decide))).append
    (h.rule f.rule.title (by simp [RuleInfo.labels]))

theorem oneLine_category : ∀ c : Category, OneLine c.name := by
  intro c
  cases c <;> exact .literal (by decide)

theorem oneLine_severity : ∀ s : Severity, OneLine s.label := by
  intro s
  cases s <;> exact .literal (by decide)

theorem oneLine_gasImpact : ∀ g : GasImpact, OneLine g.name := by
  intro g
  cases g <;> exact .literal (by decide)

theorem entry_whereabouts (f : Finding) : Entry f.whereabouts := by
  have hfrom : Entry s!"- **Location:** line {f.first.line}, column {f.first.column} to " :=
    (((Entry.append (.literal (by decide)) (.ofInt _)).append (.literal (by decide))).append
      (.ofInt _)).append
      (.literal (by decide))
  have hto : OneLine s!"line {f.last.line}, column {f.last.column}" :=
    ((OneLine.append (.literal (by decide)) (.ofInt _)).append (.literal (by decide))).append
      (.ofInt _)
  exact hfrom.append hto

include h in
theorem idle_facts : ∀ s ∈ f.facts, Idle s := by
  have hrule : Entry s!"- **Rule:** `{f.rule.id}`" :=
    (Entry.append (.literal (by decide)) (h.rule f.rule.id (by simp [RuleInfo.labels]))).append
      (.literal (by decide))
  have hcategory : Entry s!"- **Category:** {f.rule.category.name}" :=
    .append (.literal (by decide)) (oneLine_category _)
  have hseverity : Entry s!"- **Severity:** {f.rule.severity.label}" :=
    .append (.literal (by decide)) (oneLine_severity _)
  have hgas : Entry s!"- **Gas impact:** {f.rule.gasImpact.name}" :=
    .append (.literal (by decide)) (oneLine_gasImpact _)
  have hswc : ∀ swc ∈ f.rule.swc, Entry s!"- **SWC:** {swc}" := fun swc hswc =>
    .append (.literal (by decide)) (h.rule swc (by simp [RuleInfo.labels, Option.mem_def.1 hswc]))
  rw [facts, List.forall_mem_append, List.forall_mem_append]
  simp only [List.forall_mem_cons]
  refine ⟨⟨⟨idle_empty, hrule.idle, hcategory.idle, hseverity.idle, hgas.idle,
    List.forall_mem_nil _⟩, ?_⟩, f.entry_whereabouts.idle, idle_empty, List.forall_mem_nil _⟩
  unfold registryLines
  cases hopt : f.rule.swc with
  | none => exact List.forall_mem_nil _
  | some swc =>
    show ∀ s ∈ if swc.isEmpty then [] else [s!"- **SWC:** {swc}"], Idle s
    split
    · exact List.forall_mem_nil _
    · exact List.forall_mem_singleton.2 (hswc swc hopt).idle

/-- The lines of the evidence behind the first that look like they open the section of a finding. -/
def forgedLines (f : Finding) : List (List Char) :=
  f.evidence.toList.flatMap forgedIn

include h in
theorem shows_evidenceLines : Shows (linesOf f.evidenceLines) f.forgedLines [] := by
  unfold evidenceLines forgedLines
  cases hopt : f.evidence with
  | none => exact shows_nil
  | some e =>
    show Shows (linesOf (if e.isEmpty then [] else [s!"**Evidence:** {e}", ""]))
      ([e].flatMap forgedIn) []
    rw [List.flatMap_singleton]
    split
    next hempty =>
      rw [String.isEmpty_iff.1 hempty]
      exact shows_nil
    next =>
      have hshows :=
        Entry.shows_append (s := "**Evidence:** ") (.literal (by decide)) (h.evidence e hopt)
      have hlines := hshows.append shows_empty
      rwa [List.append_nil] at hlines

include h in
theorem shows_remarks : Shows (linesOf f.remarks) f.forgedLines [] := by
  have hdescription : Entry s!"**Description:** {f.rule.description}" :=
    .append (.literal (by decide)) (h.rule f.rule.description (by simp [RuleInfo.labels]))
  have hbehind : ∀ s ∈ [s!"**Description:** {f.rule.description}", ""], Idle s := by
    simp [hdescription.idle, idle_empty]
  have hshows := (shows_empty.append (shows_evidenceLines h)).append (shows_idle hbehind)
  rwa [List.nil_append, List.append_nil, ← linesOf_append, ← linesOf_append] at hshows

/-- Of the lines up to the remedy a reader sees the heading, the snippet and what the evidence
forges. -/
theorem shows_beforeRemedy (h : f.Tame) (n : Nat) :
    Shows (linesOf (f.beforeRemedy n)) ((f.heading n).toList :: f.forgedLines)
      [f.snippet.toList] := by
  have hfence : ∀ l ∈ lines f.snippet.toList, l ≠ (fence f.snippet).toList := fun l hl =>
    ne_ticks_of_infix (infix_of_mem_splitAt hl)
  have hticks : OneLine (fence f.snippet) := by
    intro hmem
    rw [toList_fence] at hmem
    exact absurd (List.eq_of_mem_replicate hmem) (by decide)
  have hlines : linesOf (f.beforeRemedy n) = [(f.heading n).toList] ++ linesOf f.facts ++
      (((fence f.snippet).toList ++ "solidity".toList) :: lines f.snippet.toList ++
        [(fence f.snippet).toList]) ++ linesOf f.remarks := by
    have hopen := lines_oneLine (hticks.append (t := "solidity") (.literal (by decide)))
    rw [String.toList_append] at hopen
    simp only [linesOf, beforeRemedy, List.flatMap_append, List.flatMap_cons,
      lines_oneLine (oneLine_heading h n), lines_oneLine hticks, String.toList_append, hopen,
      List.append_assoc, List.cons_append, List.nil_append]
  rw [toList_fence] at hlines hfence
  rw [hlines]
  exact (((shows_heading (heading?_heading n f)).append (shows_idle (idle_facts h))).append
    (shows_fenced (Nat.le_max_left _ _) hfence)).append (shows_remarks h)

end Finding

/-- The number and the title of each finding, the first one being the `n`-th. -/
def numberedTitles (n : Nat) (fs : List Finding) : List (List Char × List Char) :=
  (fs.zipIdx n).map fun (f, i) => ((toString i).toList, f.rule.title.toList)

/-- The lines that open the sections of findings, or look like it, the first finding being the
`n`-th. -/
def openingLines (n : Nat) (fs : List Finding) : List (List Char) :=
  (fs.zipIdx n).flatMap fun (f, i) => (f.heading i).toList :: f.forgedLines

theorem openingLines_cons (n : Nat) (f : Finding) (fs : List Finding) :
    openingLines n (f :: fs) = (f.heading n).toList :: (f.forgedLines ++ openingLines (n + 1) fs) :=
  rfl

theorem length_openingLines : ∀ (n : Nat) (fs : List Finding),
    (openingLines n fs).length = fs.length + (fs.flatMap Finding.forgedLines).length
  | _, [] => rfl
  | n, f :: fs => by
    rw [openingLines_cons, List.length_cons, List.length_append, length_openingLines (n + 1) fs,
      List.flatMap_cons, List.length_append, List.length_cons]
    omega

/-- Without forged lines these are the headings. -/
theorem filterMap_openingLines : ∀ (n : Nat) {fs : List Finding}, (∀ f ∈ fs, f.forgedLines = []) →
    (openingLines n fs).filterMap heading? = numberedTitles n fs
  | _, [], _ => rfl
  | n, f :: fs, h => by
    obtain ⟨hf, hfs⟩ := List.forall_mem_cons.1 h
    rw [openingLines_cons, hf, List.nil_append,
      List.filterMap_cons_some (Finding.heading?_heading n f), filterMap_openingLines (n + 1) hfs]
    rfl

/-- Of the sections of findings a reader sees the headings and the snippets. -/
theorem shows_findingSections : ∀ {fs : List Finding} (n : Nat), (∀ f ∈ fs, f.Tame) →
    Shows (linesOf (findingSections n fs).flatten) (openingLines n fs) (fs.map (·.snippet.toList))
  | [], _, _ => shows_nil
  | f :: fs, n, h => by
    have hf := h f List.mem_cons_self
    have hremedy : Entry f.remedy :=
      .append (.literal (by decide)) (hf.rule f.rule.remediation (by simp [RuleInfo.labels]))
    have hidle : ∀ s ∈ [f.remedy, ""], Idle s := by simp [hremedy.idle, idle_empty]
    have hsection := (Finding.shows_beforeRemedy hf n).append (shows_idle hidle)
    have hlater := shows_findingSections (n + 1) fun f' hf' => h f' (List.mem_cons_of_mem _ hf')
    rw [findingSections, List.flatten_cons, Finding.markdown, linesOf_append, linesOf_append]
    simpa [openingLines] using hsection.append hlater

/-! ## Pages -/

theorem intercalate_concat (sep : List Char) (x : List Char) : ∀ ls : List (List Char),
    sep.intercalate (ls ++ [x]) = ls.flatMap (· ++ sep) ++ x
  | [] => by simp
  | [l] => by simp [List.intercalate_cons_cons]
  | l :: l' :: ls => by
    have ih := intercalate_concat sep x (l' :: ls)
    rw [List.cons_append] at ih
    rw [List.cons_append, List.cons_append, List.intercalate_cons_cons, ih,
      List.flatMap_cons (x := l), List.append_assoc (l ++ sep)]

/-- Trimming stops at a line that is not blank. -/
theorem trimRight_append {cs ds : List Char} (h : trimRight ds ≠ []) :
    trimRight (cs ++ ds) = cs ++ trimRight ds := by
  have hne : (ds.reverse.dropWhile isBlank).isEmpty = false := by
    simpa [trimRight] using h
  simp only [trimRight, List.reverse_append, List.dropWhile_append, hne]
  simp

/-- The lines of a page : trimming the page only trims the last of its lines that is not empty. -/
theorem lines_markdownPage {r : Report} {ss : List String} {s : String}
    (h : r.markdownLines = ss ++ [s, ""]) (hs : OneLine s) (hne : trimRight s.toList ≠ []) :
    lines r.markdownPage.toList = linesOf ss ++ [trimRight s.toList, []] := by
  have hjoin : ∀ x : List Char, ['\n'].intercalate (ss.map String.toList ++ [x, []]) =
      (ss.map String.toList).flatMap (· ++ ['\n']) ++ x ++ ['\n'] := by
    intro x
    rw [List.append_cons, intercalate_concat, List.flatMap_append, List.flatMap_singleton,
      List.append_nil, List.append_assoc]
  have hpage : r.markdownPage.toList =
      ['\n'].intercalate (ss.map String.toList ++ [trimRight s.toList, []]) := by
    have hlines : r.markdownLines.map String.toList = ss.map String.toList ++ [s.toList, []] := by
      rw [h, List.map_append]
      rfl
    have hnewline : ∀ a ∈ ['\n'], isBlank a := by decide
    rw [Report.markdownPage, String.toList_append, String.toList_ofList, String.toList_intercalate,
      hlines, show "\n".toList = ['\n'] from rfl, hjoin, hjoin, trimRight_append_blanks hnewline,
      trimRight_append hne]
  have htrim : lines (trimRight s.toList) = [trimRight s.toList] := by
    obtain ⟨bs, hbs, -⟩ := exists_trimRight_append s.toList
    refine splitAt_eq_singleton fun c hc => beq_false_of_ne ?_
    rintro rfl
    exact hs (hbs ▸ List.mem_append_left bs hc)
  have hempty : lines [] = [[]] := rfl
  rw [hpage, lines, splitAt_intercalate rfl (by simp), List.flatMap_append, List.flatMap_map]
  change linesOf ss ++ [trimRight s.toList, []].flatMap lines = _
  rw [List.flatMap_cons, List.flatMap_singleton, htrim, hempty, List.singleton_append]

/-- A page is read as its lines up to the last two, and plain ones behind them. -/
theorem exists_view_markdownPage {r : Report} {ss : List String} {s : String}
    (h : r.markdownLines = ss ++ [s, ""]) (hs : Entry s) :
    ∃ later, (∀ l ∈ later, Plain l) ∧
      view r.markdownPage = readFrom none (linesOf ss ++ later) := by
  obtain ⟨a, -, cs, -, hcs, htick, hsharp⟩ := hs.exists_head
  refine ⟨[trimRight s.toList, []], ?_, ?_⟩
  · have hplain : Plain (trimRight s.toList) := hcs ▸ plain_of_cons htick hsharp
    simpa using ⟨hplain, plain_nil⟩
  · rw [view, lines_markdownPage h hs.oneLine (by simp [hcs])]

namespace Metadata

variable {m : Metadata}

theorem idle_notes (h : ∀ s ∈ m.labels, OneLine s) : ∀ s ∈ m.notes, Idle s := by
  rw [labels, List.forall_mem_append, List.forall_mem_append, List.forall_mem_flatMap,
    List.forall_mem_flatMap] at h
  obtain ⟨⟨herrors, hunparsable⟩, hwarnings⟩ := h
  rw [notes, List.forall_mem_append, List.forall_mem_append, List.forall_mem_append,
    List.forall_mem_append, List.forall_mem_map, List.forall_mem_map, List.forall_mem_map]
  refine ⟨⟨⟨⟨?_, ?_⟩, fun e he => ?_⟩, fun u hu => ?_⟩, fun w hw => ?_⟩
  · split
    · exact List.forall_mem_singleton.2 (((((Entry.append (.literal (by decide)) (.ofInt _)).append
        (.literal (by decide))).append (.ofInt _)).append (.literal (by decide))).append
        (.literal (by decide))).idle
    · exact List.forall_mem_nil _
  · split
    · exact List.forall_mem_singleton.2 (((((Entry.append (.literal (by decide)) (.ofInt _)).append
        (.literal (by decide))).append (.ofInt _)).append (.literal (by decide))).append
        (.literal (by decide))).idle
    · exact List.forall_mem_nil _
  · have hid : OneLine e.ruleId := herrors e he _ (by simp)
    have hmessage : OneLine e.message := herrors e he _ (by simp)
    exact (((Entry.append (.literal (by decide)) hid).append (.literal (by decide))).append
      hmessage).idle
  · have hname : OneLine u.name := hunparsable u hu _ (by simp)
    have hkind : OneLine u.kind := hunparsable u hu _ (by simp)
    have hreason : OneLine u.reason := hunparsable u hu _ (by simp)
    exact ((((((((Entry.append (.literal (by decide)) hkind).append (.literal (by decide))).append
      hname).append (.literal (by decide))).append (.ofInt _)).append (.literal (by decide))).append
      hreason).append (.literal (by decide))).idle
  · exact (Entry.append (.literal (by decide)) (hwarnings w hw)).idle

end Metadata

namespace Report

variable {r : Report}

/-- All texts of the report stand on one line, but for evidence that opens no fence. -/
structure Tame (r : Report) : Prop where
  riskLabel : OneLine r.riskLabel
  findings : ∀ f ∈ r.findings, f.Tame
  metadata : ∀ s ∈ r.metadata.labels, OneLine s

theorem tame_of_oneLine (h : ∀ s ∈ r.labels, OneLine s) : r.Tame where
  riskLabel := h r.riskLabel (by simp [labels])
  findings f hf := Finding.tame_of_oneLine fun s hs =>
    h s (List.mem_append_left _ (List.mem_cons_of_mem _ (List.mem_flatMap.2 ⟨f, hf, hs⟩)))
  metadata s hs := h s (List.mem_append_right _ hs)

theorem idle_preface (h : r.Tame) : ∀ s ∈ r.preface, Idle s := by
  have hrisk : Entry s!"**Overall risk:** {r.riskLabel}" :=
    .append (.literal (by decide)) h.riskLabel
  have hscore : Entry s!"**Score:** {r.score}" := .append (.literal (by decide)) (.ofInt _)
  have hcount : Entry s!"**Findings:** {r.findings.length}" :=
    .append (.literal (by decide)) (.ofNat _)
  have hcategory : ∀ c : Category, Entry s!"| {c.name} | {Tally.count r.categories c.name} |" :=
    fun c => (((Entry.append (.literal (by decide)) (Finding.oneLine_category c)).append
      (.literal (by decide))).append (.ofInt _)).append (.literal (by decide))
  have hseverity : ∀ s : Severity, Entry s!"| {s.label} | {Tally.count r.severities s.name} |" :=
    fun s => (((Entry.append (.literal (by decide)) (Finding.oneLine_severity s)).append
      (.literal (by decide))).append (.ofInt _)).append (.literal (by decide))
  have hnotes : ∀ s ∈ if r.metadata.notes.isEmpty then []
      else ["## Scan Notes", ""] ++ r.metadata.notes ++ [""], Idle s := by
    split
    · exact List.forall_mem_nil _
    · simp only [List.forall_mem_append, List.forall_mem_cons]
      exact ⟨⟨⟨.literal (by decide), idle_empty, List.forall_mem_nil _⟩,
        Metadata.idle_notes h.metadata⟩, idle_empty, List.forall_mem_nil _⟩
  rw [preface]
  simp only [List.forall_mem_append, List.forall_mem_cons, List.forall_mem_map]
  exact ⟨⟨⟨⟨⟨⟨⟨.literal (by decide), idle_empty, hrisk.idle, idle_empty, hscore.idle, idle_empty,
    hcount.idle, idle_empty, .literal (by decide), idle_empty, .literal (by decide),
    .literal (by decide),
    List.forall_mem_nil _⟩, fun c _ => (hcategory c).idle⟩, idle_empty, .literal (by decide),
    idle_empty, .literal (by decide), .literal (by decide), List.forall_mem_nil _⟩,
    fun s _ => (hseverity s).idle⟩, idle_empty, List.forall_mem_nil _⟩,
    hnotes⟩, .literal (by decide), idle_empty, List.forall_mem_nil _⟩

/-- The sections of all findings but the last, and of the last one. -/
theorem findingSections_concat (f : Finding) : ∀ (fs : List Finding) (n : Nat),
    (findingSections n (fs ++ [f])).flatten =
      (findingSections n fs).flatten ++ f.markdown (n + fs.length)
  | [], n => by simp [findingSections]
  | g :: fs, n => by
    have hlength : n + 1 + fs.length = n + (g :: fs).length := by
      rw [List.length_cons]
      omega
    rw [List.cons_append, findingSections, List.flatten_cons, findingSections_concat f fs (n + 1),
      hlength, findingSections, List.flatten_cons, List.append_assoc]

/-- What a reader sees of the page written from a report. -/
theorem gist_view (h : r.Tame) :
    gist (view r.markdownPage) =
      (openingLines 1 r.findings, r.findings.map (·.snippet.toList)) := by
  have hlines : r.markdownLines = r.preface ++ r.findingLines := rfl
  have hpreface := shows_idle (idle_preface h)
  rw [findingLines] at hlines
  rcases List.eq_nil_or_concat r.findings with hnil | ⟨fs, f, hfs⟩
  · -- Without findings the last line says so.
    rw [hnil] at hlines ⊢
    obtain ⟨later, hlater, hview⟩ := exists_view_markdownPage hlines (.literal (by decide))
    rw [hview]
    exact (hpreface.append (shows_plain hlater)).gist_eq
  · -- The last line is on the remedy of the last finding.
    rw [List.concat_eq_append] at hfs
    have hf := h.findings f (by simp [hfs])
    have hremedy : Entry f.remedy :=
      Entry.append (.literal (by decide)) (hf.rule f.rule.remediation (by simp [RuleInfo.labels]))
    rw [hfs, List.isEmpty_eq_false_iff.2 (by simp), if_neg Bool.false_ne_true, List.nil_append,
      findingSections_concat, Finding.markdown, ← List.append_assoc, ← List.append_assoc] at hlines
    obtain ⟨later, hlater, hview⟩ := exists_view_markdownPage hlines hremedy
    have hfs' : ∀ f' ∈ fs, f'.Tame := fun f' hf' => h.findings f' (by simp [hfs, hf'])
    have hshows :=
      ((hpreface.append (shows_findingSections 1 hfs')).append
        (Finding.shows_beforeRemedy hf (1 + fs.length))).append
      (shows_plain hlater)
    rw [hview, linesOf_append, linesOf_append, hshows.gist_eq, hfs]
    simp [openingLines, List.zipIdx_append]

theorem known_view (h : ∀ s ∈ r.labels, OneLine s) :
    known (view r.markdownPage) =
      (numberedTitles 1 r.findings, r.findings.map (·.snippet.toList)) := by
  have hgist := gist_view (tame_of_oneLine h)
  rw [gist, Prod.mk.injEq] at hgist
  rw [known, headings_eq, hgist.1, hgist.2]
  refine Prod.ext (filterMap_openingLines 1 fun f hf => ?_) rfl
  exact List.flatMap_eq_nil_iff.2 fun e he => (h e (List.mem_append_left _ (List.mem_cons_of_mem _
    (List.mem_flatMap.2 ⟨f, hf, List.mem_append_right _ he⟩)))).forgedIn_eq

/-- Of the page written from a report a reader sees the headings of the findings, numbered from one
on and with their titles, and between the fences their snippets, whatever these hold. The page is
written unless a number on it has too many digits, which is an error. -/
theorem markdown_reads_back (r : Report) (h : ∀ s ∈ r.labels, OneLine s) :
    ((∀ n ∈ r.markdownNumbers, isWritable n) ∧ r.markdown = .ok r.markdownPage ∨
        (∃ n ∈ r.markdownNumbers, isWritable n = false) ∧ r.markdown = .error .unwritten) ∧
      headings (view r.markdownPage) = numberedTitles 1 r.findings ∧
      fencedTexts (view r.markdownPage) = r.findings.map (·.snippet.toList) := by
  have hknown := known_view h
  rw [known, Prod.mk.injEq] at hknown
  refine ⟨?_, hknown⟩
  unfold markdown
  cases hall : r.markdownNumbers.all isWritable with
  | true => exact Or.inl ⟨List.all_eq_true.1 hall, rfl⟩
  | false =>
    exact Or.inr ⟨List.all_eq_false.1 hall |>.imp fun n hn => ⟨hn.1, by simpa using hn.2⟩, rfl⟩

/-- A report on two snippets that hold fences, a heading and an empty line at the end. -/
def forged : Report where
  findings :=
    [⟨⟨"r", "First", .other, .low, .absent, "d", "e", none⟩, 0, 9, ⟨1, 1⟩, ⟨2, 5⟩,
        "```\n### Finding 2: x\n````solidity\n", none⟩,
      ⟨⟨"s", "Second", .mev, .high, .low, "", " ", some "1"⟩, -3, 4, ⟨3, 1⟩, ⟨3, 8⟩, "`````",
        some "```"⟩]
  score := 6
  riskLabel := "Medium Risk"
  categories := []
  severities := []
  metadata :=
    ⟨0, 0, 0, 2, 1, 0, 0, false, true, [⟨"q", "no"⟩], [⟨"C.f", "function", 1, "no body"⟩], []⟩

theorem forged_reads_back :
    (∀ s ∈ forged.labels, OneLine s) ∧ forged.markdown = .ok forged.markdownPage ∧
      headings (view forged.markdownPage) = [(['1'], "First".toList), (['2'], "Second".toList)] ∧
      fencedTexts (view forged.markdownPage) =
        ["```\n### Finding 2: x\n````solidity\n".toList, "`````".toList] := by
  have hlabels : ∀ s ∈ forged.labels, OneLine s := by decide +kernel
  have hnumbers : ∀ n ∈ forged.markdownNumbers, isWritable n := by decide +kernel
  obtain ⟨⟨-, hwritten⟩ | ⟨⟨n, hn, hlong⟩, -⟩, hheadings, hfenced⟩ :=
    markdown_reads_back forged hlabels
  · exact ⟨hlabels, hwritten, hheadings, hfenced⟩
  · simp [hnumbers n hn] at hlong

end Report

end ContractAudit
