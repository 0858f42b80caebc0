import ContractAudit.Proofs.Report.Markdown
import ContractAudit.Report.Html

/-!
# Reading a page in HTML

`Html.tags` takes a page apart at its tags, each from a `<` to the next `>`, with the text in front
of it. The page written from a report consists of fixed tags with escaped texts between them
(`Report.markup`), and an escaped text holds no bracket (`Html.avoids_escaped`). So the reader finds
just these tags (`Report.tags_htmlPage`) : which ones depends on the number of findings and of
categories alone (`Report.map_text_markup`), and between the tags of a `<pre>` element it finds the
snippet, escaped.
-/

namespace ContractAudit

namespace Html

/-! ## The reader -/

/-- A tag with its brackets, and the text between the tag before it and this one. -/
structure Tag where
  before : List Char
  text : List Char
  deriving DecidableEq, Repr

/-- Reads on behind the text `before` (kept reversed), or inside a tag whose beginning is kept
reversed. A tag that is not closed is none. -/
def tagsFrom (before : List Char) : Option (List Char) → List Char → List Tag
  | _, [] => []
  | none, c :: cs => if c == '<' then tagsFrom before (some ['<']) cs else
      tagsFrom (c :: before) none cs
  | some tag, c :: cs =>
    if c == '>' then ⟨before.reverse, ('>' :: tag).reverse⟩ :: tagsFrom [] none cs
    else tagsFrom before (some (c :: tag)) cs

/-- The tags of a page. -/
def tags (page : String) : List Tag :=
  tagsFrom [] none page.toList

/-- The tags from the start of the body of a table to its end. -/
def bodyOf (ts : List Tag) : List Tag :=
  (ts.dropWhile (·.text != "<tbody>".toList)).takeWhile (·.text != "</tbody>".toList)

/-- The number of rows in the body of a table. -/
def bodyRows (ts : List Tag) : Nat :=
  (bodyOf ts).countP (·.text == "<tr>".toList)

/-- The contents of the `<pre>` elements, from outside of them or behind the text `inside` of
one. -/
def preTextsFrom : Option (List Char) → List Tag → List (List Char)
  | _, [] => []
  | none, t :: later =>
    if t.text == "<pre>".toList then preTextsFrom (some []) later else preTextsFrom none later
  | some inside, t :: later =>
    if t.text == "</pre>".toList then (inside ++ t.before) :: preTextsFrom none later
    else preTextsFrom (some (inside ++ t.before ++ t.text)) later

/-- The contents of the `<pre>` elements of a page. -/
def preTexts (ts : List Tag) : List (List Char) :=
  preTextsFrom none ts

/-- The references to characters that pages are written with. -/
def references : List (List Char × Char) :=
  [("&amp;".toList, '&'), ("&lt;".toList, '<'), ("&gt;".toList, '>'), ("&quot;".toList, '"'),
    ("&#x27;".toList, '\'')]

/-- Reads references as the characters they stand for, once `skip` characters are passed over. -/
def unescapeFrom : Nat → List Char → List Char
  | _, [] => []
  | skip + 1, _ :: cs => unescapeFrom skip cs
  | 0, c :: cs =>
    match references.find? fun r => r.1.isPrefixOf (c :: cs) with
    | some (reference, d) => d :: unescapeFrom (reference.length - 1) cs
    | none => c :: unescapeFrom 0 cs

/-- A text of a page with the characters its references stand for. -/
def unescape (cs : List Char) : List Char :=
  unescapeFrom 0 cs

/-! ## Escaped texts -/

/-- One of the five characters that are escaped, or another. -/
theorem htmlChar_cases (c : Char) :
    (∃ reference, (reference, c) ∈ references ∧ htmlChar c = reference) ∨
      c ≠ '&' ∧ c ≠ '<' ∧ htmlChar c = [c] := by
  unfold htmlChar
  split
  next h => exact Or.inl ⟨_, by simp [references, beq_iff_eq.1 h], rfl⟩
  next hamp =>
    split
    next h => exact Or.inl ⟨_, by simp [references, beq_iff_eq.1 h], rfl⟩
    next hlt =>
      split
      next h => exact Or.inl ⟨_, by simp [references, beq_iff_eq.1 h], rfl⟩
      next =>
        split
        next h => exact Or.inl ⟨_, by simp [references, beq_iff_eq.1 h], rfl⟩
        next =>
          split
          next h => exact Or.inl ⟨_, by simp [references, beq_iff_eq.1 h], rfl⟩
          next => exact Or.inr ⟨by simpa using hamp, by simpa using hlt, rfl⟩

theorem avoids_escaped (s : String) : Avoids '<' (htmlEscaped s) := by
  intro h
  rw [htmlEscaped, String.toList_ofList] at h
  obtain ⟨c, -, hc⟩ := List.mem_flatMap.1 h
  have hreferences : ∀ r ∈ references, '<' ∉ r.1 := by decide
  rcases htmlChar_cases c with ⟨reference, hmem, heq⟩ | ⟨-, hlt, heq⟩
  · exact hreferences _ hmem (heq ▸ hc)
  · rw [heq, List.mem_singleton] at hc
    exact hlt hc.symm

/-- A reference is read as its character, whatever follows. -/
theorem unescapeFrom_reference {reference : List Char} {c : Char} (h : (reference, c) ∈ references)
    (cs : List Char) : unescapeFrom 0 (reference ++ cs) = c :: unescapeFrom 0 cs := by
  simp only [references, List.mem_cons, Prod.mk.injEq, List.not_mem_nil, or_false] at h
  rcases h with ⟨rfl, rfl⟩ | ⟨rfl, rfl⟩ | ⟨rfl, rfl⟩ | ⟨rfl, rfl⟩ | ⟨rfl, rfl⟩ <;>
    simp [unescapeFrom, references]

theorem unescapeFrom_htmlChar (c : Char) (cs : List Char) :
    unescapeFrom 0 (htmlChar c ++ cs) = c :: unescapeFrom 0 cs := by
  rcases htmlChar_cases c with ⟨reference, hmem, heq⟩ | ⟨hamp, -, heq⟩
  · rw [heq, unescapeFrom_reference hmem]
  · simp [heq, unescapeFrom, references, hamp.symm]

/-- An escaped text is read as the text. -/
theorem unescape_escaped (s : String) : unescape (htmlEscaped s).toList = s.toList := by
  rw [htmlEscaped, String.toList_ofList, unescape]
  induction s.toList with
  | nil => rfl
  | cons c cs ih => rw [List.flatMap_cons, unescapeFrom_htmlChar, ih]

/-! ## Tags with texts between them -/

/-- The text in front of a tag, and the tag. -/
def Tag.chars (t : Tag) : List Char :=
  t.before ++ t.text

/-- A reader finds the tag where it stands. -/
structure Tag.Sound (t : Tag) : Prop where
  before : '<' ∉ t.before
  text : ∃ name, t.text = '<' :: name ++ ['>'] ∧ '>' ∉ name

theorem tagsFrom_before {cs : List Char} (h : '<' ∉ cs) (before rest : List Char) :
    tagsFrom before none (cs ++ rest) = tagsFrom (cs.reverse ++ before) none rest := by
  induction cs generalizing before with
  | nil => rfl
  | cons c cs ih =>
    obtain ⟨hc, hcs⟩ := not_or.1 (mt List.mem_cons.2 h)
    simp [tagsFrom, Ne.symm hc, ih hcs]

theorem tagsFrom_name {name : List Char} (h : '>' ∉ name) (before tag rest : List Char) :
    tagsFrom before (some tag) (name ++ '>' :: rest) =
      ⟨before.reverse, ('>' :: (name.reverse ++ tag)).reverse⟩ :: tagsFrom [] none rest := by
  induction name generalizing tag with
  | nil => rfl
  | cons c name ih =>
    obtain ⟨hc, hname⟩ := not_or.1 (mt List.mem_cons.2 h)
    simp [tagsFrom, Ne.symm hc, ih hname]

theorem tagsFrom_chars {t : Tag} (h : t.Sound) (rest : List Char) :
    tagsFrom [] none (t.chars ++ rest) = t :: tagsFrom [] none rest := by
  obtain ⟨before, text⟩ := t
  obtain ⟨hbefore, name, rfl, hname⟩ := h
  have hopen : ∀ before cs, tagsFrom before none ('<' :: cs) = tagsFrom before (some ['<']) cs :=
    fun _ _ => rfl
  rw [Tag.chars, List.append_assoc, tagsFrom_before hbefore, List.append_nil, List.cons_append,
    List.cons_append, hopen, List.append_assoc, List.singleton_append, tagsFrom_name hname]
  simp

/-- The tags of a text made of tags are these. -/
theorem tagsFrom_flatMap {ts : List Tag} (h : ∀ t ∈ ts, t.Sound) :
    tagsFrom [] none (ts.flatMap Tag.chars) = ts := by
  induction ts with
  | nil => rfl
  | cons t ts ih =>
    rw [List.flatMap_cons, tagsFrom_chars (h t List.mem_cons_self),
      ih fun t' ht' => h t' (List.mem_cons_of_mem _ ht')]

/-- Where no `<pre>` element begins, there is nothing to read. -/
theorem preTextsFrom_append {ts : List Tag} (h : ∀ t ∈ ts, t.text ≠ "<pre>".toList)
    (later : List Tag) : preTextsFrom none (ts ++ later) = preTextsFrom none later := by
  induction ts with
  | nil => rfl
  | cons t ts ih =>
    have ht : (t.text == "<pre>".toList) = false := beq_false_of_ne (h t List.mem_cons_self)
    rw [List.cons_append, preTextsFrom, ht, if_neg Bool.false_ne_true,
      ih fun t' ht' => h t' (List.mem_cons_of_mem _ ht')]

end Html

open Html

/-! ## Texts between tags -/

/-- A tag with nothing in front of it. -/
def bare (tag : String) : Tag :=
  ⟨[], tag.toList⟩

/-- A tag at the start of a line. -/
def onNewLine (tag : String) : Tag :=
  ⟨['\n'], tag.toList⟩

/-- A tag behind a text. -/
def behind (text tag : String) : Tag :=
  ⟨text.toList, tag.toList⟩

/-- A literal that is written in two parts. -/
theorem literal_append {l cs ds : List Char} (h : l = cs ++ ds) :
    (String.ofList l).toList = (String.ofList cs).toList ++ (String.ofList ds).toList := by
  simp only [String.toList_ofList, h]

/-- The characters of a tag, with one `>` at their end. -/
def isTag (cs : List Char) : Bool :=
  cs.head? == some '<' && cs.tail.getLast? == some '>' && !cs.tail.dropLast.contains '>'

theorem exists_name_of_isTag {cs : List Char} (h : isTag cs) :
    ∃ name, cs = '<' :: name ++ ['>'] ∧ '>' ∉ name := by
  simp only [isTag, Bool.and_eq_true, beq_iff_eq, Bool.not_eq_true', List.contains_eq_mem,
    decide_eq_false_iff_not] at h
  obtain ⟨⟨hopen, hclose⟩, hname⟩ := h
  obtain ⟨rest, rfl⟩ := List.head?_eq_some_iff.1 hopen
  obtain ⟨name, rfl⟩ := List.getLast?_eq_some_iff.1 hclose
  exact ⟨name, rfl, by simpa using hname⟩

theorem sound_bare {tag : String} (h : isTag tag.toList) : (bare tag).Sound :=
  ⟨List.not_mem_nil, exists_name_of_isTag h⟩

theorem sound_onNewLine {tag : String} (h : isTag tag.toList) : (onNewLine tag).Sound :=
  ⟨by simp [onNewLine], exists_name_of_isTag h⟩

theorem sound_behind_iff {text tag : String} (h : isTag tag.toList) :
    (behind text tag).Sound ↔ Avoids '<' text :=
  ⟨fun hs => hs.before, fun ht => ⟨ht, exists_name_of_isTag h⟩⟩

/-! ## Rows and items -/

/-- The row of a finding. -/
def Finding.markup (f : Finding) : List Tag :=
  [onNewLine "<tr>", bare "<td>", behind (htmlEscaped f.rule.severity.label) "</td>",
    bare "<td>", behind (htmlEscaped f.rule.id) "</td>",
    bare "<td>", behind (htmlEscaped f.rule.category.name) "</td>",
    bare "<td>", behind s!"{f.first.line}:{f.first.column}" "</td>",
    bare "<td>", bare "<pre>", behind (htmlEscaped f.snippet) "</pre>", bare "</td>",
    bare "<td>", behind (htmlEscaped f.rule.remediation) "</td>", bare "</tr>"]

theorem Finding.html_eq (f : Finding) : '\n' :: f.html.toList = f.markup.flatMap Tag.chars := by
  have hrow : "<tr><td>".toList = "<tr>".toList ++ "<td>".toList := literal_append rfl
  have hcell : "</td><td>".toList = "</td>".toList ++ "<td>".toList := literal_append rfl
  have hpre : "</td><td><pre>".toList = "</td><td>".toList ++ "<pre>".toList := literal_append rfl
  have hlast : "</pre></td><td>".toList = "</pre>".toList ++ "</td><td>".toList :=
    literal_append rfl
  have hend : "</td></tr>".toList = "</td>".toList ++ "</tr>".toList := literal_append rfl
  have hliteral : ∀ s : String, toString s = s := fun _ => rfl
  unfold Finding.html
  simp only [Finding.markup, bare, onNewLine, behind, Tag.chars, hliteral, String.toList_append,
    List.flatMap_cons, List.flatMap_nil, hrow, hcell, hpre, hlast, hend, List.append_assoc,
    List.nil_append, List.append_nil, List.cons_append]

theorem Finding.sound_markup (f : Finding) : ∀ t ∈ f.markup, t.Sound := by
  have hplace : Avoids '<' s!"{f.first.line}:{f.first.column}" :=
    ((Avoids.ofInt (by decide) (by decide) _).append (.literal (by decide))).append
      (.ofInt (by decide) (by decide) _)
  simpa (disch := decide) [Finding.markup, sound_bare, sound_onNewLine, sound_behind_iff,
    avoids_escaped] using hplace

/-- The item on a category. -/
def categoryMarkup (entry : String × Int) : List Tag :=
  [onNewLine "<li>", behind (htmlEscaped entry.1 ++ s!": {entry.2}") "</li>"]

theorem categoryMarkup_eq (entry : String × Int) :
    '\n' :: (categoryItem entry).toList = (categoryMarkup entry).flatMap Tag.chars := by
  have hliteral : ∀ s : String, toString s = s := fun _ => rfl
  simp only [categoryItem, categoryMarkup, onNewLine, behind, Tag.chars, hliteral,
    String.toList_append, List.flatMap_cons, List.flatMap_nil, List.append_assoc, List.nil_append,
    List.append_nil, List.cons_append]

theorem sound_categoryMarkup (entry : String × Int) : ∀ t ∈ categoryMarkup entry, t.Sound := by
  have htext : Avoids '<' (htmlEscaped entry.1 ++ s!": {entry.2}") :=
    Avoids.append (avoids_escaped _)
      (Avoids.append (.literal (by decide)) (.ofInt (by decide) (by decide) _))
  simpa (disch := decide) [categoryMarkup, sound_onNewLine, sound_behind_iff] using htext

/-! ## Pages -/

theorem avoids_styleRules : Avoids '<' styleRules :=
  ((((Avoids.append (.literal (by decide)) (.literal (by decide))).append
    (.literal (by decide))).append
    (.literal (by decide))).append (.literal (by decide))).append (.literal (by decide))

theorem flatMap_const_eq {α β γ : Type} {l : List α} {l' : List β} (h : l.length = l'.length)
    (c : List γ) : l.flatMap (fun _ => c) = l'.flatMap (fun _ => c) := by
  rw [List.flatMap_def, List.flatMap_def, List.map_const', List.map_const', h]

namespace Report

/-- The tags in front of the categories. -/
def frontMarkup (sourceName time : String) (r : Report) : List Tag :=
  [bare "<!doctype html>", onNewLine "<html>", bare "<head>", bare "<meta charset='utf-8'>",
    bare "<title>", behind "Smart Contract Scan Report" "</title>",
    onNewLine "<style>", behind styleRules "</style>", onNewLine "</head>", bare "<body>",
    onNewLine "<h2>",
    behind ("Scan Report - " ++ htmlEscaped time ++ " - " ++ htmlEscaped sourceName) "</h2>",
    onNewLine "<p>", behind "Overall risk: " "<strong id='risk-label'>",
    behind (htmlEscaped r.riskLabel) "</strong>", behind s!" (score {r.score})" "</p>",
    onNewLine "<p>", behind s!"Total findings: {r.findings.length}" "</p>",
    onNewLine "<div>", bare "<strong>", behind "Categories:" "</strong>", bare "<ul>"]

/-- The tags between the categories and the findings. -/
def tableMarkup : List Tag :=
  [onNewLine "</ul>", bare "</div>", onNewLine "<table>", bare "<thead>", bare "<tr>",
    bare "<th>", behind "Severity" "</th>", bare "<th>", behind "Rule" "</th>",
    bare "<th>", behind "Category" "</th>", bare "<th>", behind "Location" "</th>",
    bare "<th>", behind "Snippet" "</th>", bare "<th>", behind "Remediation" "</th>",
    bare "</tr>", bare "</thead>", bare "<tbody>"]

/-- The tags behind the findings. -/
def endMarkup : List Tag :=
  [onNewLine "</tbody>", bare "</table>", bare "</body>", bare "</html>"]

/-- The tags of the page. -/
def markup (sourceName time : String) (r : Report) : List Tag :=
  r.frontMarkup sourceName time ++ r.categories.flatMap categoryMarkup ++ tableMarkup ++
    r.findings.flatMap Finding.markup ++ endMarkup

theorem sound_frontMarkup (sourceName time : String) (r : Report) :
    ∀ t ∈ r.frontMarkup sourceName time, t.Sound := by
  have htitle :
      Avoids '<' ("Scan Report - " ++ htmlEscaped time ++ " - " ++ htmlEscaped sourceName) :=
    ((Avoids.append (.literal (by decide)) (avoids_escaped _)).append
      (.literal (by decide))).append (avoids_escaped _)
  have hscore : Avoids '<' s!" (score {r.score})" :=
    (Avoids.append (.literal (by decide)) (.ofInt (by decide) (by decide) _)).append
      (.literal (by decide))
  have hcount : Avoids '<' s!"Total findings: {r.findings.length}" :=
    Avoids.append (.literal (by decide)) (.ofNat (by decide) _)
  have hliterals : ∀ s ∈ ["Smart Contract Scan Report", "Overall risk: ", "Categories:"],
      Avoids '<' s := by
    simp [Avoids]
  simpa (disch := decide) [frontMarkup, sound_bare, sound_onNewLine, sound_behind_iff,
    avoids_escaped, avoids_styleRules, htitle, hliterals] using ⟨hscore, hcount⟩

theorem sound_tableMarkup : ∀ t ∈ tableMarkup, t.Sound := by
  have hliterals : ∀ s ∈ ["Severity", "Rule", "Category", "Location", "Snippet", "Remediation"],
      Avoids '<' s := by
    simp [Avoids]
  simp (disch := decide) [tableMarkup, sound_bare, sound_onNewLine, sound_behind_iff, hliterals]

theorem sound_endMarkup : ∀ t ∈ endMarkup, t.Sound := by
  simp (disch := decide) [endMarkup, sound_bare, sound_onNewLine]

theorem sound_markup (sourceName time : String) (r : Report) :
    ∀ t ∈ r.markup sourceName time, t.Sound := by
  simp only [markup, List.forall_mem_append, List.forall_mem_flatMap]
  exact ⟨⟨⟨⟨sound_frontMarkup _ _ _, fun entry _ => sound_categoryMarkup entry⟩, sound_tableMarkup⟩,
    fun f _ => f.sound_markup⟩, sound_endMarkup⟩

theorem frontMarkup_eq (sourceName time : String) (r : Report) :
    doctypeLine.toList ++ (r.frontLines sourceName time).flatMap ('\n' :: ·.toList) =
      (r.frontMarkup sourceName time).flatMap Tag.chars := by
  have hhead :
      "<html><head><meta charset='utf-8'><title>Smart Contract Scan Report</title>".toList =
      "<html>".toList ++
        ("<head>".toList ++ ("<meta charset='utf-8'>".toList ++ ("<title>".toList ++
        ("Smart Contract Scan Report".toList ++ "</title>".toList)))) := by
    repeat rw [String.toList_ofList]
    rfl
  have hbody : "</head><body>".toList = "</head>".toList ++ "<body>".toList := literal_append rfl
  have hheading : "<h2>Scan Report - ".toList = "<h2>".toList ++ "Scan Report - ".toList :=
    literal_append rfl
  have hrisk : "<p>Overall risk: <strong id='risk-label'>".toList =
      "<p>".toList ++ ("Overall risk: ".toList ++ "<strong id='risk-label'>".toList) := by
    repeat rw [String.toList_ofList]
    rfl
  have hscore : "</strong> (score ".toList = "</strong>".toList ++ " (score ".toList :=
    literal_append rfl
  have hscored : ")</p>".toList = ")".toList ++ "</p>".toList := literal_append rfl
  have hcount : "<p>Total findings: ".toList = "<p>".toList ++ "Total findings: ".toList :=
    literal_append rfl
  have hlist : "<div><strong>Categories:</strong><ul>".toList =
      "<div>".toList ++ ("<strong>".toList ++
      ("Categories:".toList ++ ("</strong>".toList ++ "<ul>".toList))) := by
    repeat rw [String.toList_ofList]
    rfl
  have hliteral : ∀ s : String, toString s = s := fun _ => rfl
  simp only [doctypeLine, frontLines, frontMarkup, bare, onNewLine, behind, Tag.chars, htmlStyle,
    hliteral, String.toList_append, List.flatMap_cons, List.flatMap_nil, hhead, hbody, hheading,
    hrisk, hscore, hscored, hcount, hlist, List.append_assoc, List.nil_append, List.append_nil,
    List.cons_append]

theorem tableMarkup_eq :
    tableLines.flatMap ('\n' :: ·.toList) = tableMarkup.flatMap Tag.chars := by
  simp only [tableLines, tableMarkup, bare, onNewLine, behind, Tag.chars, String.toList_append,
    List.flatMap_cons, List.flatMap_nil]
  repeat rw [String.toList_ofList]
  rfl

theorem endMarkup_eq : '\n' :: endLine.toList = endMarkup.flatMap Tag.chars := by
  simp only [endLine, endMarkup, bare, onNewLine, Tag.chars, List.flatMap_cons, List.flatMap_nil]
  repeat rw [String.toList_ofList]
  rfl

/-- The page is its tags with the texts in front of them. -/
theorem htmlPage_eq (sourceName time : String) (r : Report) :
    (r.htmlPage sourceName time).toList = (r.markup sourceName time).flatMap Tag.chars := by
  have hsep : "\n".toList = ['\n'] := rfl
  rw [htmlPage, String.toList_intercalate, htmlLines, hsep, List.map_cons, intercalate_cons_eq,
    List.flatMap_map, markup]
  simp only [List.singleton_append, List.flatMap_append, List.flatMap_map, List.flatMap_assoc,
    ← frontMarkup_eq, ← categoryMarkup_eq, ← tableMarkup_eq, ← Finding.html_eq, ← endMarkup_eq,
    List.append_assoc, List.flatMap_singleton]

theorem tags_htmlPage (sourceName time : String) (r : Report) :
    tags (r.htmlPage sourceName time) = r.markup sourceName time := by
  rw [tags, htmlPage_eq, tagsFrom_flatMap (sound_markup _ _ _)]

/-- There is a page just if every number on it is short enough. -/
theorem html_eq_ok_iff {sourceName time page : String} {r : Report} :
    r.html sourceName time = .ok page ↔
      (∀ n ∈ r.htmlNumbers, isWritable n) ∧ page = r.htmlPage sourceName time := by
  rw [← List.all_eq_true, html]
  split
  next hall => exact ⟨fun h => ⟨hall, (Except.ok.inj h).symm⟩, fun h => congrArg _ h.2.symm⟩
  next hall => exact ⟨fun h => (by cases h), fun h => absurd h.1 hall⟩

/-! ## What a page shows -/

/-- Which tags a page has depends on the numbers of categories and findings alone. -/
theorem map_text_markup {r r' : Report} (hcategories : r.categories.length = r'.categories.length)
    (hfindings : r.findings.length = r'.findings.length)
    (sourceName time sourceName' time' : String) :
    (r.markup sourceName time).map (·.text) = (r'.markup sourceName' time').map (·.text) := by
  simp only [markup, frontMarkup, categoryMarkup, Finding.markup, List.map_append, List.map_flatMap,
    List.map_cons, List.map_nil, bare, onNewLine, behind, flatMap_const_eq hcategories,
    flatMap_const_eq hfindings]

/-- The tags in front of the body of the table. -/
def beforeBody (sourceName time : String) (r : Report) : List Tag :=
  r.frontMarkup sourceName time ++ r.categories.flatMap categoryMarkup ++ tableMarkup.dropLast

theorem markup_eq (sourceName time : String) (r : Report) :
    r.markup sourceName time = r.beforeBody sourceName time ++
      bare "<tbody>" :: (r.findings.flatMap Finding.markup ++ endMarkup) := by
  have htable : tableMarkup = tableMarkup.dropLast ++ [bare "<tbody>"] := rfl
  rw [markup, htable, beforeBody]
  simp only [List.append_assoc, List.cons_append, List.nil_append]

theorem text_beforeBody (sourceName time : String) (r : Report) :
    ∀ t ∈ r.beforeBody sourceName time, t.text ≠ "<tbody>".toList ∧ t.text ≠ "<pre>".toList := by
  have hitem : ∀ entry, ∀ t ∈ categoryMarkup entry,
      t.text ≠ "<tbody>".toList ∧ t.text ≠ "<pre>".toList := by
    simp [categoryMarkup, onNewLine, behind]
  simp only [beforeBody, List.forall_mem_append, List.forall_mem_flatMap]
  refine ⟨⟨?_, fun entry _ => hitem entry⟩, ?_⟩
  · simp [frontMarkup, bare, onNewLine, behind]
  · simp [tableMarkup, bare, onNewLine, behind]

theorem bodyOf_markup (sourceName time : String) (r : Report) :
    bodyOf (r.markup sourceName time) = bare "<tbody>" :: r.findings.flatMap Finding.markup := by
  have hbefore : ∀ t ∈ r.beforeBody sourceName time, t.text != "<tbody>".toList := fun t ht =>
    bne_iff_ne.2 (text_beforeBody sourceName time r t ht).1
  have hrow : ∀ f : Finding, ∀ t ∈ f.markup, t.text != "</tbody>".toList := by
    simp [Finding.markup, bare, onNewLine, behind]
  have hrows : ∀ t ∈ r.findings.flatMap Finding.markup, t.text != "</tbody>".toList :=
    List.forall_mem_flatMap.2 fun f _ => hrow f
  rw [bodyOf, markup_eq, List.dropWhile_append_of_pos hbefore,
    List.dropWhile_cons_of_neg (by simp [bare]), List.takeWhile_cons_of_pos (by simp [bare]),
    List.takeWhile_append_of_pos hrows, endMarkup, List.takeWhile_cons_of_neg (by simp [onNewLine]),
    List.append_nil]

theorem bodyRows_markup (sourceName time : String) (r : Report) :
    bodyRows (r.markup sourceName time) = r.findings.length := by
  have hrow : ∀ f : Finding, f.markup.countP (·.text == "<tr>".toList) = 1 := by
    simp [Finding.markup, bare, onNewLine, behind]
  rw [bodyRows, bodyOf_markup, List.countP_cons_of_neg (by simp [bare]), List.countP_flatMap]
  simp only [Function.comp_def, hrow, List.map_const', List.sum_replicate_nat, Nat.mul_one]

theorem preTextsFrom_row (f : Finding) (later : List Tag) :
    preTextsFrom none (f.markup ++ later) =
      (htmlEscaped f.snippet).toList :: preTextsFrom none later := by
  simp [Finding.markup, preTextsFrom, bare, onNewLine, behind]

theorem preTexts_markup (sourceName time : String) (r : Report) :
    preTexts (r.markup sourceName time) = r.findings.map fun f =>
      (htmlEscaped f.snippet).toList := by
  have hrows : ∀ fs : List Finding, preTextsFrom none (fs.flatMap Finding.markup ++ endMarkup) =
      fs.map fun f => (htmlEscaped f.snippet).toList := by
    intro fs
    induction fs with
    | nil => simp [endMarkup, preTextsFrom, bare, onNewLine]
    | cons f fs ih => rw [List.flatMap_cons, List.append_assoc, preTextsFrom_row, ih, List.map_cons]
  rw [preTexts, markup_eq, preTextsFrom_append fun t ht => (text_beforeBody _ _ _ t ht).2,
    preTextsFrom, if_neg (by simp [bare]), hrows]

/-- A page in HTML is written just if no number on it has too many digits. The tags of the page are
the same for any two reports with as many findings and as many categories, whatever their texts
hold. The body of its table has one row for each finding, and its `<pre>` elements hold the
snippets, escaped. -/
theorem html_tags_fixed (r r' : Report) (sourceName time sourceName' time' : String)
    (hfindings : r.findings.length = r'.findings.length)
    (hcategories : r.categories.length = r'.categories.length) :
    ((∃ page, r.html sourceName time = .ok page) ↔ ∀ n ∈ r.htmlNumbers, isWritable n) ∧
      ∀ page, r.html sourceName time = .ok page →
        (∀ page', r'.html sourceName' time' = .ok page' →
            (tags page).map (·.text) = (tags page').map (·.text)) ∧
          bodyRows (tags page) = r.findings.length ∧
          (preTexts (tags page)).map unescape = r.findings.map (·.snippet.toList) := by
  refine ⟨⟨fun ⟨page, h⟩ => (html_eq_ok_iff.1 h).1, fun h => ⟨_, html_eq_ok_iff.2 ⟨h, rfl⟩⟩⟩, ?_⟩
  intro page h
  obtain ⟨-, rfl⟩ := html_eq_ok_iff.1 h
  rw [tags_htmlPage]
  refine ⟨fun page' h' => ?_, bodyRows_markup .., ?_⟩
  · obtain ⟨-, rfl⟩ := html_eq_ok_iff.1 h'
    rw [tags_htmlPage]
    exact map_text_markup hcategories hfindings ..
  · simp only [preTexts_markup, List.map_map, Function.comp_def, unescape_escaped]

/-- A report with one finding and one category, in which the text `s` stands wherever a text can. -/
def showing (s : String) : Report where
  findings := [⟨⟨s, s, .other, .low, .absent, s, s, some s⟩, 0, 9, ⟨1, 1⟩, ⟨2, 5⟩, s, some s⟩]
  score := 1
  riskLabel := s
  categories := [(s, 1)]
  severities := []
  metadata := ⟨0, 0, 0, 1, 1, 0, 0, false, false, [], [], []⟩

theorem showing_tags_fixed : ∃ page page',
    (showing "</pre><tr>&lt;'\"").html "</h2><p>" ">" = .ok page ∧
    (showing "").html "" "" = .ok page' ∧
      (tags page).map (·.text) = (tags page').map (·.text) ∧ bodyRows (tags page) = 1 ∧
      (preTexts (tags page)).map unescape = ["</pre><tr>&lt;'\"".toList] := by
  obtain ⟨hwritten, hshown⟩ :=
    html_tags_fixed (showing "</pre><tr>&lt;'\"") (showing "") "</h2><p>" ">" "" "" rfl rfl
  obtain ⟨page, hpage⟩ := hwritten.2 (by decide +kernel)
  obtain ⟨hsame, hrows, hsnippets⟩ := hshown page hpage
  have hpage' : (showing "").html "" "" = .ok ((showing "").htmlPage "" "") :=
    html_eq_ok_iff.2 ⟨by decide +kernel, rfl⟩
  exact ⟨page, _, hpage, hpage', hsame _ hpage', hrows, hsnippets⟩

end Report

end ContractAudit
