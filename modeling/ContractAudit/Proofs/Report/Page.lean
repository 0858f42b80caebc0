import ContractAudit.Proofs.Text.Split
import ContractAudit.Proofs.Text.Trim

/-!
# Reading a page in Markdown

`Page.view` reads the lines of a page as the rules of fenced code have it : a line of three or more
backticks and the word `solidity` opens a fence, which the next line of exactly that many backticks
closes. `Page.Shows` says what a reader sees of some lines, whatever follows them : nothing of plain
lines (`Page.shows_plain`), the line of a heading (`Page.shows_heading`), and of a fence the text
inside, if no line of that closes it (`Page.shows_fenced`).
-/

namespace ContractAudit

/-! ## The reader -/

variable {cs : List Char}

namespace Page

/-- What a reader sees. -/
inductive Sight where
  | line (text : List Char)
  | fenced (text : List Char)
  deriving DecidableEq, Repr

/-- The number of backticks of a line that opens a fence. -/
def opening? (line : List Char) : Option Nat :=
  let ticks := line.takeWhile (· == '`')
  if 3 ≤ ticks.length && line.drop ticks.length == "solidity".toList then some ticks.length
  else none

/-- Reads lines outside of fences, or behind the lines `inside` (kept reversed) of a fence of the
given number of backticks. A fence that is not closed reaches to the end. -/
def readFrom : Option (Nat × List (List Char)) → List (List Char) → List Sight
  | none, [] => []
  | some (_, inside), [] => [.fenced (['\n'].intercalate inside.reverse)]
  | none, line :: later =>
    match opening? line with
    | some k => readFrom (some (k, [])) later
    | none => .line line :: readFrom none later
  | some (k, inside), line :: later =>
    if line == List.replicate k '`' then
      .fenced (['\n'].intercalate inside.reverse) :: readFrom none later
    else readFrom (some (k, line :: inside)) later

/-- The lines of a text. -/
def lines (text : List Char) : List (List Char) :=
  splitAt (· == '\n') text

/-- What a reader sees of a page. -/
def view (page : String) : List Sight :=
  readFrom none (lines page.toList)

/-- The number and the title in a line `### Finding <number>: <title>`. -/
def heading? (line : List Char) : Option (List Char × List Char) :=
  if "### Finding ".toList.isPrefixOf line then
    let rest := line.drop "### Finding ".toList.length
    let number := rest.takeWhile (·.isDigit)
    match rest.drop number.length with
    | ':' :: ' ' :: title => if number.isEmpty then none else some (number, title)
    | _ => none
  else none

/-- Does the line start with `### Finding <number>:`? -/
def opensSection (line : List Char) : Bool :=
  if "### Finding ".toList.isPrefixOf line then
    let rest := line.drop "### Finding ".toList.length
    let number := rest.takeWhile (·.isDigit)
    !number.isEmpty && (rest.drop number.length).head? == some ':'
  else false

/-- The lines outside the fences that open the section of a finding. -/
def sectionLines (seen : List Sight) : List (List Char) :=
  seen.filterMap fun
    | .line text => if opensSection text then some text else none
    | .fenced _ => none

/-- The headings of findings outside the fences. -/
def headings (seen : List Sight) : List (List Char × List Char) :=
  seen.filterMap fun
    | .line text => heading? text
    | .fenced _ => none

/-- The texts between the fences. -/
def fencedTexts (seen : List Sight) : List (List Char) :=
  seen.filterMap fun
    | .line _ => none
    | .fenced text => some text

/-! ## Lines without meaning -/

theorem opensSection_of_heading? {line number title : List Char}
    (h : heading? line = some (number, title)) : opensSection line := by
  unfold heading? at h
  unfold opensSection
  split at h
  next hstart =>
    rw [if_pos hstart]
    dsimp only at h ⊢
    split at h
    next hrest =>
      split at h
      · cases h
      next hne =>
        rw [hrest]
        simpa using hne
    next => cases h
  next => cases h

/-- The line opens neither a fence nor the section of a finding. -/
structure Plain (line : List Char) : Prop where
  opening : opening? line = none
  apart : opensSection line = false

instance (line : List Char) : Decidable (Plain line) :=
  decidable_of_iff (opening? line = none ∧ opensSection line = false)
    ⟨fun h => ⟨h.1, h.2⟩, fun h => ⟨h.opening, h.apart⟩⟩

/-- A line that starts neither with a backtick nor with a number sign. -/
theorem plain_of_cons {a : Char} (htick : a ≠ '`') (hsharp : a ≠ '#') : Plain (a :: cs) where
  opening := by simp [opening?, htick]
  apart := by simp [opensSection, Ne.symm hsharp]

/-- What a reader knows of a page : the headings and the texts between fences. -/
def known (seen : List Sight) : List (List Char × List Char) × List (List Char) :=
  (headings seen, fencedTexts seen)

/-- The same with all lines that open sections. -/
def gist (seen : List Sight) : List (List Char) × List (List Char) :=
  (sectionLines seen, fencedTexts seen)

/-- The headings are among the lines that open sections. -/
theorem headings_eq (seen : List Sight) :
    headings seen = (sectionLines seen).filterMap heading? := by
  rw [headings, sectionLines, List.filterMap_filterMap]
  congr 1
  funext sight
  cases sight with
  | fenced text => rfl
  | line text =>
    show heading? text = (if opensSection text then some text else none).bind heading?
    cases hheading : heading? text with
    | some heading => rw [if_pos (opensSection_of_heading? hheading), Option.bind_some, hheading]
    | none =>
      split
      · rw [Option.bind_some, hheading]
      · rfl

/-- A reader of the lines outside of fences sees the sections that `openers` open and the texts
`fenced` between fences, and is outside of fences behind them. -/
def Shows (ls openers fenced : List (List Char)) : Prop :=
  ∀ later, gist (readFrom none (ls ++ later)) =
    (openers ++ (gist (readFrom none later)).1, fenced ++ (gist (readFrom none later)).2)

section Shows

variable {ls ls' openers openers' fenced fenced' : List (List Char)}

theorem shows_nil : Shows [] [] [] := fun _ => rfl

theorem Shows.append (h : Shows ls openers fenced) (h' : Shows ls' openers' fenced') :
    Shows (ls ++ ls') (openers ++ openers') (fenced ++ fenced') := by
  intro later
  rw [List.append_assoc, h, h', List.append_assoc, List.append_assoc]

theorem Shows.gist_eq (h : Shows ls openers fenced) :
    gist (readFrom none ls) = (openers, fenced) := by
  rw [← List.append_nil ls, h, readFrom]
  simp [gist, sectionLines, fencedTexts]

/-- Where no fence is opened, every line that looks like it opens a section. -/
theorem shows_unfenced (h : ∀ l ∈ ls, opening? l = none) :
    Shows ls (ls.filter opensSection) [] := by
  induction ls with
  | nil => exact shows_nil
  | cons l ls ih =>
    obtain ⟨hl, hls⟩ := List.forall_mem_cons.1 h
    intro later
    have hread : gist (readFrom none (l :: (ls ++ later))) =
        ([l].filter opensSection ++ (gist (readFrom none (ls ++ later))).1,
          (gist (readFrom none (ls ++ later))).2) := by
      rw [readFrom, hl]
      cases hopens : opensSection l <;> simp [gist, sectionLines, fencedTexts, hopens]
    rw [List.cons_append, hread, ih hls, ← List.singleton_append (l := ls), List.filter_append,
      List.append_assoc]

theorem shows_plain (h : ∀ l ∈ ls, Plain l) : Shows ls [] [] := by
  have hnone : ls.filter opensSection = [] :=
    List.filter_eq_nil_iff.2 fun l hl => by rw [(h l hl).apart]; exact Bool.false_ne_true
  exact hnone ▸ shows_unfenced fun l hl => (h l hl).opening

end Shows

/-! ## Headings and fences -/

/-- A line that is the heading of a finding. -/
theorem shows_heading {line number title : List Char} (h : heading? line = some (number, title)) :
    Shows [line] [line] [] := by
  have hopen : opening? line = none := by
    cases line with
    | nil => rfl
    | cons a cs =>
      by_cases ha : a = '`'
      · subst ha
        simp [heading?] at h
      · simp [opening?, ha]
  have hline : [line].filter opensSection = [line] := by
    rw [List.filter_cons_of_pos (opensSection_of_heading? h), List.filter_nil]
  have hshows := shows_unfenced (List.forall_mem_singleton.2 hopen)
  rwa [hline] at hshows

theorem heading?_eq {number : List Char} (hne : number ≠ []) (hdigits : ∀ c ∈ number, c.isDigit)
    (title : List Char) :
    heading? ("### Finding ".toList ++ number ++ ": ".toList ++ title) = some (number, title) := by
  have htake : (number ++ ':' :: ' ' :: title).takeWhile (·.isDigit) = number := by
    rw [List.takeWhile_append_of_pos hdigits]
    simp
  have hdrop : (number ++ ':' :: ' ' :: title).drop number.length = ':' :: ' ' :: title :=
    List.drop_left
  simp [heading?, htake, hdrop, hne]

variable {k : Nat}

/-- The lines of a fence are those up to the next line of backticks. -/
theorem readFrom_inside (later : List (List Char)) : ∀ (ls inside : List (List Char)),
    (∀ l ∈ ls, l ≠ List.replicate k '`') →
      readFrom (some (k, inside)) (ls ++ List.replicate k '`' :: later) =
        .fenced (['\n'].intercalate (inside.reverse ++ ls)) :: readFrom none later
  | [], inside, _ => by simp [readFrom]
  | l :: ls, inside, h => by
    have hl : (l == List.replicate k '`') = false := beq_false_of_ne (h l List.mem_cons_self)
    rw [List.cons_append, readFrom, hl, if_neg Bool.false_ne_true,
      readFrom_inside later ls (l :: inside) fun l' hl' => h l' (List.mem_cons_of_mem _ hl'),
      List.reverse_cons, List.append_assoc, List.singleton_append]

theorem opening?_ticks (hk : 3 ≤ k) :
    opening? (List.replicate k '`' ++ "solidity".toList) = some k := by
  have htake : (List.replicate k '`' ++ "solidity".toList).takeWhile (· == '`') =
      List.replicate k '`' := by
    rw [List.takeWhile_append_of_pos (by simp)]
    simp
  simp only [opening?, htake, List.length_replicate, List.drop_left', beq_self_eq_true, hk]
  rfl

/-- A text between two fences that no line of it can close. -/
theorem shows_fenced (hk : 3 ≤ k) {text : List Char}
    (htext : ∀ l ∈ lines text, l ≠ List.replicate k '`') :
    Shows ((List.replicate k '`' ++ "solidity".toList) :: lines text ++ [List.replicate k '`']) []
      [text] := by
  intro later
  have hjoin : ['\n'].intercalate (lines text) = text := intercalate_splitAt '\n' text
  rw [List.append_assoc, List.singleton_append, List.cons_append, readFrom, opening?_ticks hk]
  simp [readFrom_inside later _ _ htext, hjoin, gist, sectionLines, fencedTexts]

end Page

/-! ## Texts on one line -/

open Page

/-- The text stands on one line. -/
def OneLine (s : String) : Prop :=
  '\n' ∉ s.toList

instance (s : String) : Decidable (OneLine s) :=
  inferInstanceAs (Decidable (_ ∉ _))

variable {s t : String}

namespace OneLine

/-- For a literal, which is written as the list of its characters. -/
theorem literal (h : '\n' ∉ cs) : OneLine (String.ofList cs) :=
  Avoids.literal h

theorem append (hs : OneLine s) (ht : OneLine t) : OneLine (s ++ t) :=
  Avoids.append hs ht

theorem ofNat (n : Nat) : OneLine (toString n) :=
  Avoids.ofNat (by decide) n

theorem ofInt (n : Int) : OneLine (toString n) :=
  Avoids.ofInt (by decide) (by decide) n

end OneLine

/-- May a line without meaning start with the character? -/
def isEntryStart (a : Char) : Bool :=
  a != '`' && a != '#' && !isBlank a

/-- A line of a page that starts with some character other than a blank, a backtick or a number
sign. -/
structure Entry (s : String) : Prop where
  oneLine : OneLine s
  head : s.toList.head?.any isEntryStart

namespace Entry

variable {s t : String}

theorem literal (h : '\n' ∉ cs ∧ cs.head?.any isEntryStart) : Entry (String.ofList cs) :=
  ⟨.literal h.1, by rw [String.toList_ofList]; exact h.2⟩

theorem append (hs : Entry s) (ht : OneLine t) : Entry (s ++ t) where
  oneLine := hs.oneLine.append ht
  head := by
    obtain ⟨a, ha, hok⟩ := (Option.any_eq_true _ _).1 hs.head
    rw [String.toList_append, List.head?_append, ha]
    exact hok

/-- The first character, which trimming the line keeps. -/
theorem exists_head (h : Entry s) :
    ∃ a cs ds, s.toList = a :: cs ∧ trimRight s.toList = a :: ds ∧ a ≠ '`' ∧ a ≠ '#' := by
  obtain ⟨a, ha, hok⟩ := (Option.any_eq_true _ _).1 h.head
  obtain ⟨htick, hsharp, hsolid⟩ : a ≠ '`' ∧ a ≠ '#' ∧ isBlank a = false := by
    simpa [isEntryStart, and_assoc] using hok
  obtain ⟨cs, hcs⟩ := List.head?_eq_some_iff.1 ha
  obtain ⟨ds, hds⟩ := List.head?_eq_some_iff.1 (head?_trimRight ha hsolid)
  exact ⟨a, cs, ds, hcs, hds, htick, hsharp⟩

end Entry

/-- The lines of a list of texts. -/
def linesOf (ss : List String) : List (List Char) :=
  ss.flatMap fun s => lines s.toList

theorem linesOf_append (ss ts : List String) : linesOf (ss ++ ts) = linesOf ss ++ linesOf ts :=
  List.flatMap_append

variable {s : String}

theorem lines_oneLine (h : OneLine s) : lines s.toList = [s.toList] :=
  splitAt_eq_singleton fun _ hc => beq_false_of_ne fun heq => h (heq ▸ hc)

/-- No line of the text has a meaning to the reader. -/
def Idle (s : String) : Prop :=
  ∀ l ∈ lines s.toList, Plain l

theorem OneLine.idle (h : OneLine s) (hplain : Plain s.toList) : Idle s := by
  rw [Idle, lines_oneLine h]
  exact List.forall_mem_singleton.2 hplain

theorem Entry.idle (h : Entry s) : Idle s := by
  obtain ⟨a, cs, -, hcs, -, htick, hsharp⟩ := h.exists_head
  exact h.oneLine.idle (hcs ▸ plain_of_cons htick hsharp)

theorem Idle.literal (h : '\n' ∉ cs ∧ Plain cs) : Idle (String.ofList cs) :=
  (OneLine.literal h.1).idle (by rw [String.toList_ofList]; exact h.2)

theorem plain_nil : Plain [] := by
  decide

theorem idle_empty : Idle "" :=
  .literal ⟨List.not_mem_nil, plain_nil⟩

theorem shows_idle {ss : List String} (h : ∀ s ∈ ss, Idle s) : Shows (linesOf ss) [] [] := by
  refine shows_plain fun l hl => ?_
  obtain ⟨s, hs, hl⟩ := List.mem_flatMap.1 hl
  exact h s hs l hl

theorem shows_empty : Shows (linesOf [""]) [] [] :=
  shows_idle (List.forall_mem_singleton.2 idle_empty)

/-! ## Texts of several lines -/

/-- No line of the text behind the first opens a fence. -/
def Unfenced (s : String) : Prop :=
  ∀ l ∈ (lines s.toList).tail, opening? l = none

instance (s : String) : Decidable (Unfenced s) :=
  inferInstanceAs (Decidable (∀ l ∈ (lines s.toList).tail, opening? l = none))

/-- The lines behind the first that look like they open the section of a finding. -/
def forgedIn (s : String) : List (List Char) :=
  (lines s.toList).tail.filter opensSection

theorem OneLine.unfenced (h : OneLine s) : Unfenced s := by
  rw [Unfenced, lines_oneLine h]
  exact List.forall_mem_nil _

theorem OneLine.forgedIn_eq (h : OneLine s) : forgedIn s = [] := by
  rw [forgedIn, lines_oneLine h]
  rfl

/-- A text behind one of a single line goes on in the line of that. -/
theorem exists_lines_append (hs : OneLine s) :
    ∃ l, lines (s ++ t).toList = (s.toList ++ l) :: (lines t.toList).tail := by
  rw [String.toList_append]
  by_cases ht : '\n' ∈ t.toList
  · obtain ⟨l, r, hsplit, hl⟩ := List.eq_append_cons_of_mem ht
    have hline : ∀ cs : List Char, '\n' ∉ cs →
        lines (cs ++ '\n' :: r) = cs :: lines r := fun cs hcs => by
      have hone : lines cs = [cs] :=
        splitAt_eq_singleton fun c hc => beq_false_of_ne fun heq => hcs (heq ▸ hc)
      rw [lines, splitAt_append_cons rfl]
      exact congrArg (· ++ lines r) hone
    refine ⟨l, ?_⟩
    rw [hsplit, hline l hl, ← List.append_assoc,
      hline _ (by simp [hl, show '\n' ∉ s.toList from hs])]
    rfl
  · refine ⟨t.toList, ?_⟩
    rw [lines_oneLine ht, ← String.toList_append, lines_oneLine (hs.append ht),
      String.toList_append]
    rfl

/-- A text behind the start of an entry. -/
theorem Entry.shows_append (hs : Entry s) (ht : Unfenced t) :
    Shows (lines (s ++ t).toList) (forgedIn t) [] := by
  obtain ⟨a, cs, -, hcs, -, htick, hsharp⟩ := hs.exists_head
  obtain ⟨l, hlines⟩ := exists_lines_append (t := t) hs.oneLine
  have hfirst : Shows [s.toList ++ l] [] [] := by
    rw [hcs, List.cons_append]
    exact shows_plain (List.forall_mem_singleton.2 (plain_of_cons htick hsharp))
  rw [hlines]
  exact hfirst.append (shows_unfenced ht)

end ContractAudit
