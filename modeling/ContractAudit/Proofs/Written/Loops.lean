import Mathlib.Data.List.Forall2
import ContractAudit.Proofs.Contract.Scope
import ContractAudit.Proofs.Written.Body
import ContractAudit.Proofs.Written.Tree

/-!
# The depth of statements is the nesting of loops

The splitting of a body passes over each symbol in one round, which changes its loops as the symbol
does (`split_symbol`), so along a text that spells symbols it finds their items, each at its depth
(`split_spelled`). Where the symbols are those of a tree, the depth of a statement is the number of
loops of the tree around it (`statements_nested`).
-/

namespace ContractAudit

namespace Written

open Pattern Cursor Body

variable {env : Surroundings} {stop : Nat} {front rest gap : List Char}

/-! ## Control words -/

variable {w : String}

theorem exists_head_controlWord (hw : w ∈ controlWords) :
    ∃ a r, w.toList = a :: r ∧ isWordChar a := by
  have hident := isIdentifier_controlWords w hw
  cases hchars : w.toList with
  | nil => simp [hchars, isIdentifier] at hident
  | cons a r => exact ⟨a, r, rfl, isWordChar_of_isIdentifier hident a (by simp [hchars])⟩

/-- A control word is found where it stands. -/
theorem exists_controlWord (hw : w ∈ controlWords) (hrest : rest.head?.any isWordChar = false)
    (front : List Char) : ∃ hit, controlWord.at? (between front (w.toList ++ rest)) = some hit ∧
      hit.start = between front (w.toList ++ rest) ∧ hit.stop = between (front ++ w.toList) rest ∧
      hit.part "word" = w.toList := by
  have hident := isIdentifier_controlWords
  have hreads : (Pattern.text w).Reads (between front (w.toList ++ rest)) []
      (between (front ++ w.toList) rest) [] := reads_text_iff.2 ⟨rest, rfl, rfl, rfl⟩
  have hword : (oneOf (controlWords.map Pattern.text)).Reads (between front (w.toList ++ rest)) []
      (between (front ++ w.toList) rest) [] :=
    reads_oneOf_iff.2 ⟨_, List.mem_map_of_mem hw, hreads⟩
  refine ⟨_, at?_of_unique ((hword.named "word").append
    (takes_edge_behind front (hident w hw) hrest _).reads) ?_, rfl, rfl, ?_⟩
  · -- Another match would be another word up to the same edge.
    rintro e rs ⟨d, qs, hnamed, hedge⟩
    obtain ⟨ps, hone, rfl⟩ := reads_named_iff.1 hnamed
    obtain ⟨p, hp, hp'⟩ := reads_oneOf_iff.1 hone
    obtain ⟨v, hv, rfl⟩ : ∃ v ∈ controlWords, Pattern.text v = p := List.mem_map.1 hp
    obtain ⟨r, hr, rfl, rfl⟩ := reads_text_iff.1 hp'
    have hnonword := nonword_of_reads_edge (getLast?_append_identifier front (hident v hv)) hedge
    obtain ⟨hvw, rfl⟩ := eq_of_run_append (isWordChar_of_isIdentifier (hident w hw))
      (isWordChar_of_isIdentifier (hident v hv)) hrest hnonword hr
    obtain ⟨-, rfl, rfl⟩ := reads_check_iff.1 hedge
    rw [hvw]
    exact ⟨rfl, rfl⟩
  · rw [Hit.part_cons_self, textTo_between]

/-- A header ends behind the brackets that follow its word. -/
theorem headerEnd_between {hit : Hit} {inner : List Char}
    (hhit : hit.stop = between front (gap ++ '(' :: (inner ++ ')' :: rest)))
    (hgap : ∀ a ∈ gap, isBlank a)
    (henv : env.OfText (front ++ (gap ++ '(' :: (inner ++ ')' :: rest))))
    (hstop : front.length + (gap ++ '(' :: (inner ++ [')'])).length ≤ stop)
    (hinner : level '(' ')' 0 inner = some 0) :
    headerEnd env stop hit = between (front ++ (gap ++ '(' :: (inner ++ [')']))) rest := by
  have hskip : hit.stop.skipBlanks = between (front ++ gap) ('(' :: (inner ++ ')' :: rest)) := by
    rw [hhit]
    exact skipBlanks_between hgap rfl
  have hclose : env.parens.close? (front ++ gap).length =
      some ((front ++ gap).length + 1 + inner.length) := by
    rw [henv.parens_eq, ← List.append_assoc]
    exact Pairs.close?_of_level (by decide) hinner
  simp only [List.length_append, List.length_cons, List.length_nil] at hstop hclose
  have hlt : front.length + gap.length < stop := by omega
  have hinside : front.length + gap.length + 1 + inner.length < stop := by omega
  have hmove : (between front ((gap ++ '(' :: (inner ++ [')'])) ++ rest)).advanceTo
      (front.length + gap.length + 1 + inner.length + 1) =
        between (front ++ (gap ++ '(' :: (inner ++ [')']))) rest := by
    refine advanceTo_between ?_
    simp only [List.length_append, List.length_cons, List.length_nil]
    omega
  simp only [headerEnd, hskip, offset_between, peek_between, List.head?_cons, List.length_append,
    hclose, decide_eq_true hlt, beq_self_eq_true, Bool.and_self, if_pos hinside, if_true]
  rw [hhit, ← hmove]
  simp

/-! ## Rounds of the splitting -/

theorem split_opening (hstop : front.length < stop) (fuel : Nat) (s : Splitting) :
    split env stop (fuel + 1) s (between front ('{' :: rest)) =
      split env stop fuel
        { s with frames := s.pending :: s.frames, depth := s.depth + s.pending, pending := 0 }
        (between (front ++ ['{']) rest) := by
  have hlt : (between front ('{' :: rest)).offset < stop := hstop
  rw [split, skipBlanks_between_self rfl, if_pos hlt, ← advance_one_between]
  rfl

theorem split_semicolon (hstop : front.length < stop) (fuel : Nat) (s : Splitting) :
    split env stop (fuel + 1) s (between front (';' :: rest)) =
      split env stop fuel { s with pending := 0 } (between (front ++ [';']) rest) := by
  have hlt : (between front (';' :: rest)).offset < stop := hstop
  rw [split, skipBlanks_between_self rfl, if_pos hlt, ← advance_one_between]
  rfl

theorem split_closing (hstop : front.length < stop) (fuel : Nat) (s : Splitting) :
    split env stop (fuel + 1) s (between front ('}' :: rest)) =
      split env stop fuel
        { s with frames := s.frames.tail, depth := s.depth - s.frames.head?.getD 0 }
        (between (front ++ ['}']) rest) := by
  have hlt : (between front ('}' :: rest)).offset < stop := hstop
  rw [split, skipBlanks_between_self rfl, if_pos hlt, ← advance_one_between]
  obtain ⟨scope, frames, depth, pending, found⟩ := s
  cases frames <;> rfl

theorem split_control (hw : w ∈ controlWords) {hit : Hit}
    (hat : controlWord.at? (between front (w.toList ++ rest)) = some hit)
    (hstop : front.length < stop) (fuel : Nat) (s : Splitting) :
    split env stop (fuel + 1) s (between front (w.toList ++ rest)) =
      if hit.part "word" == "else".toList then split env stop fuel s hit.stop
      else if hit.part "word" == "do".toList then
        split env stop fuel { s with pending := s.pending + 1 } hit.stop
      else split env stop fuel (Step.header env stop hit s).1 (Step.header env stop hit s).2 := by
  obtain ⟨a, r, hchars, hword⟩ := exists_head_controlWord hw
  have hhead : (w.toList ++ rest).head? = some a := by rw [hchars]; rfl
  have hne : ∀ {b : Char}, isWordChar b = false → a ≠ b := by
    rintro b hb rfl
    simp [hword] at hb
  have hlt : (between front (w.toList ++ rest)).offset < stop := hstop
  have hblank : (w.toList ++ rest).head?.any isBlank = false := by
    rw [hhead]
    exact isBlank_of_isWordChar hword
  rw [split]
  simp only [skipBlanks_between_self hblank, if_pos hlt]
  split
  next hpeek => simp [hhead] at hpeek
  next hpeek => simp [hhead, hne (b := '{') (by decide)] at hpeek
  next hpeek => simp [hhead, hne (b := '}') (by decide)] at hpeek
  next hpeek => simp [hhead, hne (b := ';') (by decide)] at hpeek
  next => simp only [hat]

/-! ## Symbols -/

/-- The loops where a splitting stands. -/
def Loops.of (s : Splitting) : Loops :=
  ⟨s.frames, s.depth, s.pending⟩

/-- The statement of an outline is that of the item, and stands in as many loops. Headers belong to
the control flow, and a simple statement only if it is a `catch`. -/
structure Mark.ShownBy (m : Mark) (s : ContractAudit.Statement) : Prop where
  spells : m.item.Spells s.chars
  depth_eq : s.loopDepth = m.depth
  header_kind : ∀ h, m.item = .header h → s.kind = .controlFlow
  plain_kind : ∀ p, m.item = .plain p → s.kind = .controlFlow → Scope.catchWord.starts p.chars

theorem Mark.map_depth {ms : List Mark} {ss : List ContractAudit.Statement}
    (h : List.Forall₂ Mark.ShownBy ms ss) : ss.map (·.loopDepth) = ms.map Mark.depth := by
  induction h with
  | nil => rfl
  | cons hm _ ih => rw [List.map_cons, List.map_cons, hm.depth_eq, ih]

/-- The splitting goes from `s` to `t` and finds statements that show the marks. -/
def Finds (s : Splitting) (ms : List Mark) (t : Splitting) : Prop :=
  ∃ found, t.found = found.reverse ++ s.found ∧ List.Forall₂ Mark.ShownBy ms found

namespace Finds

variable {s t u : Splitting} {ms ms' : List Mark}

theorem nothing (h : t.found = s.found) : Finds s [] t :=
  ⟨[], h, .nil⟩

theorem one {m : Mark} {found : ContractAudit.Statement} (h : t.found = found :: s.found)
    (hm : m.ShownBy found) : Finds s [m] t :=
  ⟨[found], h, .cons hm .nil⟩

theorem trans (h : Finds s ms t) (h' : Finds t ms' u) : Finds s (ms ++ ms') u := by
  obtain ⟨found, heq, hshown⟩ := h
  obtain ⟨found', heq', hshown'⟩ := h'
  refine ⟨found ++ found', ?_, List.rel_append hshown hshown'⟩
  rw [heq', heq, List.reverse_append, List.append_assoc]

end Finds

theorem Plain.separable (p : Plain) : Separable p.chars := by
  have h := p.isPlain_chars
  simp only [isPlain, Bool.and_eq_true, Bool.not_eq_true', beq_iff_eq, List.all_eq_true,
    List.any_eq_false, List.isEmpty_eq_false_iff, Bool.not_eq_true] at h
  obtain ⟨⟨⟨⟨hne, htrim⟩, hparens⟩, hunmarked⟩, hcontrol⟩ := h
  exact separable_of_level hne (htrim ▸ trimmed_trim p.chars) hparens hunmarked hcontrol

theorem split_plain (p : Plain) (henv : env.OfText (front ++ (p.chars ++ ';' :: rest)))
    (hstop : front.length + p.chars.length < stop) (s : Splitting) :
    ∃ t : Splitting, (∀ fuel, split env stop (fuel + 1) s (between front (p.chars ++ ';' :: rest)) =
        split env stop fuel t (between (front ++ (p.chars ++ [';'])) rest)) ∧
      Loops.of t = (Loops.of s).step (.item (.plain p)) ∧
      Finds s [⟨.plain p, s.depth + s.pending⟩] t := by
  refine ⟨_, fun fuel => p.separable.split_eq henv hstop fuel s, rfl, .one rfl ⟨?_, rfl, ?_, ?_⟩⟩
  · exact String.toList_ofList
  · intro h heq
    cases heq
  · intro q heq hkind
    cases heq
    exact Scope.catchWord_starts_of_classify hkind

/-- The word of a header is a control word, and no word that is skipped. -/
theorem ControlHeader.word_mem (h : ControlHeader) : h.word ∈ controlWords ∧
    (h.word.toList == "else".toList) = false ∧ (h.word.toList == "do".toList) = false := by
  have hwords : ∀ w ∈ ["if", "for", "while"], w ∈ controlWords ∧
      (w.toList == "else".toList) = false ∧ (w.toList == "do".toList) = false := by
    decide
  refine hwords h.word ?_
  cases h with
  | branch c => exact List.mem_cons_self
  | loop w c => cases w <;> simp [word, LoopWord.text]

theorem ControlHeader.isLoop_eq (h : ControlHeader) :
    (h.word.toList == "for".toList || h.word.toList == "while".toList) = h.isLoop := by
  cases h with
  | branch c =>
    exact (by decide : ("if".toList == "for".toList || "if".toList == "while".toList) = false)
  | loop w c =>
    show (w.text.toList == "for".toList || w.text.toList == "while".toList) = true
    cases w <;> decide

theorem trimmed_header (h : ControlHeader) (gap : List Char) :
    Trimmed (h.word.toList ++ (gap ++ '(' :: (h.condition.chars ++ [')']))) where
  head := by
    obtain ⟨a, r, hchars, hword⟩ := exists_head_controlWord h.word_mem.1
    rw [hchars]
    exact isBlank_of_isWordChar hword
  last := by
    have hlast : h.word.toList ++ (gap ++ '(' :: (h.condition.chars ++ [')'])) =
        h.word.toList ++ (gap ++ '(' :: h.condition.chars) ++ [')'] := by simp
    rw [hlast, List.getLast?_concat]
    rfl

theorem split_header (h : ControlHeader) (hgap : ∀ a ∈ gap, isBlank a) {cs : List Char}
    (hcs : cs = h.word.toList ++ (gap ++ '(' :: (h.condition.chars ++ [')'])))
    (henv : env.OfText (front ++ (cs ++ rest))) (hstop : front.length + cs.length ≤ stop)
    (s : Splitting) :
    ∃ t : Splitting, (∀ fuel, split env stop (fuel + 1) s (between front (cs ++ rest)) =
        split env stop fuel t (between (front ++ cs) rest)) ∧
      Loops.of t = (Loops.of s).step (.item (.header h)) ∧
      Finds s [⟨.header h, s.depth + s.pending⟩] t := by
  obtain ⟨hmem, helse, hdo⟩ := h.word_mem
  have htext : cs ++ rest = h.word.toList ++
      (gap ++ '(' :: (h.condition.chars ++ ')' :: rest)) := by
    simp [hcs]
  have hnonword : (gap ++ '(' :: (h.condition.chars ++ ')' :: rest)).head?.any isWordChar =
      false := by
    cases gap with
    | nil => exact (by decide : isWordChar '(' = false)
    | cons a gap => exact isWordChar_of_isBlank (hgap a List.mem_cons_self)
  obtain ⟨hit, hat, hstart, hbehind, hpart⟩ := exists_controlWord hmem hnonword front
  have hlen : cs.length = h.word.toList.length +
      (gap ++ '(' :: (h.condition.chars ++ [')'])).length := by
    rw [hcs, List.length_append]
  have hend : headerEnd env stop hit = between (front ++ cs) rest := by
    rw [headerEnd_between hbehind hgap (by rw [List.append_assoc, ← htext]; exact henv)
      (by rw [List.length_append]; omega) h.condition.balanced, hcs, List.append_assoc]
  have hlt : front.length < stop := by
    simp only [List.length_append, List.length_cons] at hlen
    omega
  refine ⟨(Step.header env stop hit s).1, fun fuel => ?_, ?_,
    .one rfl ⟨?_, rfl, fun _ _ => rfl, ?_⟩⟩
  · rw [htext, split_control hmem hat hlt, hpart, helse, hdo, if_neg Bool.false_ne_true,
      if_neg Bool.false_ne_true]
    show split env stop fuel _ (headerEnd env stop hit) = _
    rw [hend]
  · simp only [Step.header, hpart, h.isLoop_eq]
    cases h <;> rfl
  · refine ⟨gap, hgap, ?_⟩
    have hshown : trimRight (hit.start.textTo (headerEnd env stop hit)) = cs := by
      rw [hend, hstart, ← htext, textTo_between, hcs, (trimmed_header h gap).trimRight_eq]
    show (String.ofList (trimRight (hit.start.textTo (headerEnd env stop hit)))).toList = _
    rw [hshown, String.toList_ofList, hcs]
  · intro p heq
    cases heq

theorem Symbol.Spells.exists_head : ∀ {x : Symbol} {w : List Char}, x.Spells w →
    ∃ a r, w = a :: r ∧ isBlank a = false
  | opening, _, h => ⟨_, _, h, by decide⟩
  | closing, _, h => ⟨_, _, h, by decide⟩
  | semicolon, _, h => ⟨_, _, h, by decide⟩
  | elseWord, _, h => ⟨'e', "lse".toList, h.trans (by decide), by decide⟩
  | doWord, _, h => ⟨'d', "o".toList, h.trans (by decide), by decide⟩
  | item (.plain p), _, ⟨_, hp, h⟩ => by
    obtain ⟨a, r, hchars, -⟩ := p.separable.exists_head
    have hblank := p.separable.trimmed.head
    rw [hchars] at hblank
    exact ⟨a, r ++ [';'], by rw [h, hp, hchars]; rfl, hblank⟩
  | item (.header hd), _, ⟨_, ⟨gap, _, hcs⟩, h⟩ => by
    obtain ⟨a, r, hchars, hword⟩ := exists_head_controlWord hd.word_mem.1
    exact ⟨a, _, by rw [h, hcs, hchars]; rfl, isBlank_of_isWordChar hword⟩

/-- A symbol is passed in one round, which does to the loops what the symbol does. -/
theorem split_symbol {x : Symbol} {w : List Char} (hw : x.Spells w)
    (hapart : x.isWord → rest.head?.any isWordChar = false)
    (henv : env.OfText (front ++ (w ++ rest)))
    (hstop : front.length + w.length ≤ stop) (s : Splitting) :
    ∃ t : Splitting, (∀ fuel, split env stop (fuel + 1) s (between front (w ++ rest)) =
        split env stop fuel t (between (front ++ w) rest)) ∧
      Loops.of t = (Loops.of s).step x ∧ Finds s ((Loops.of s).mark x) t := by
  have hlt : front.length < stop := by
    obtain ⟨a, r, rfl, -⟩ := hw.exists_head
    rw [List.length_cons] at hstop
    omega
  cases x with
  | opening =>
    obtain rfl : w = ['{'] := hw
    exact ⟨_, fun fuel => split_opening hlt fuel s, rfl, .nothing rfl⟩
  | closing =>
    obtain rfl : w = ['}'] := hw
    exact ⟨_, fun fuel => split_closing hlt fuel s, rfl, .nothing rfl⟩
  | semicolon =>
    obtain rfl : w = [';'] := hw
    exact ⟨_, fun fuel => split_semicolon hlt fuel s, rfl, .nothing rfl⟩
  | elseWord =>
    obtain rfl : w = "else".toList := hw
    have hmem : "else" ∈ controlWords := by decide
    obtain ⟨hit, hat, -, hbehind, hpart⟩ := exists_controlWord hmem (hapart rfl) front
    refine ⟨s, fun fuel => ?_, rfl, .nothing rfl⟩
    rw [split_control hmem hat hlt, hpart, if_pos (by decide), hbehind]
  | doWord =>
    obtain rfl : w = "do".toList := hw
    have hmem : "do" ∈ controlWords := by decide
    obtain ⟨hit, hat, -, hbehind, hpart⟩ := exists_controlWord hmem (hapart rfl) front
    refine ⟨{ s with pending := s.pending + 1 }, fun fuel => ?_, rfl, .nothing rfl⟩
    rw [split_control hmem hat hlt, hpart, if_neg (by decide), if_pos (by decide), hbehind]
  | item i =>
    obtain ⟨cs, hcs, rfl⟩ := hw
    cases i with
    | plain p =>
      obtain rfl : cs = p.chars := hcs
      rw [Item.ending, List.append_assoc, List.singleton_append] at henv
      rw [Item.ending, List.length_append, List.length_singleton] at hstop
      rw [Item.ending, List.append_assoc, List.singleton_append]
      exact split_plain p henv (by omega) s
    | header h =>
      obtain ⟨gap, hgap, hcs⟩ := hcs
      rw [Item.ending, List.append_nil] at henv hstop ⊢
      exact split_header h hgap hcs henv hstop s

/-! ## Spelled bodies -/

variable {xs : List Symbol} {text : List Char}

theorem Spelled.length_le (h : Spelled xs text) : xs.length ≤ text.length := by
  induction h with
  | nil _ => exact Nat.zero_le _
  | cons _ spells _ _ ih =>
    obtain ⟨a, r, rfl, -⟩ := spells.exists_head
    simp only [List.length_cons, List.length_append]
    omega

/-- Along a spelled text the splitting finds the items of the symbols. -/
theorem split_spelled (h : Spelled xs text) : ∀ {front : List Char} {fuel : Nat} (s : Splitting),
      env.OfText (front ++ (text ++ '}' :: rest)) →
      stop = front.length + text.length → xs.length ≤ fuel →
        Finds s ((Loops.of s).marks xs)
          (split env stop fuel s (between front (text ++ '}' :: rest))) := by
  induction h with
  | nil blank =>
    intro front fuel s _ hstop _
    rw [split_end blank hstop]
    exact .nothing rfl
  | @cons x xs gap w text blank spells apart later ih =>
    intro front fuel s henv hstop hfuel
    obtain ⟨fuel, rfl⟩ : ∃ k, fuel = k + 1 := ⟨fuel - 1, by simp at hfuel; omega⟩
    have hhead : (w ++ (text ++ '}' :: rest)).head?.any isBlank = false := by
      obtain ⟨a, r, rfl, ha⟩ := spells.exists_head
      exact ha
    have hapart : x.isWord → (text ++ '}' :: rest).head?.any isWordChar = false := by
      intro hx
      cases text with
      | nil => exact (by decide : isWordChar '}' = false)
      | cons a text => exact apart hx
    have hassoc : gap ++ (w ++ text) ++ '}' :: rest = gap ++ (w ++ (text ++ '}' :: rest)) := by simp
    rw [hassoc] at henv ⊢
    rw [List.length_append, List.length_append] at hstop
    have hinside : (front ++ gap).length + w.length ≤ stop := by
      rw [List.length_append]
      omega
    have hbehind : stop = (front ++ gap ++ w).length + text.length := by
      simp only [List.length_append]
      omega
    obtain ⟨t, hround, hloops, hfinds⟩ :=
      split_symbol spells hapart (by rwa [List.append_assoc]) hinside s
    rw [split_gap blank hhead, hround]
    have hlater := ih t (by simpa using henv) hbehind (Nat.le_of_succ_le_succ hfuel)
    rw [hloops] at hlater
    exact hfinds.trans hlater

/-- The statements of a body that spells symbols between braces are the items of the symbols. -/
theorem shownBy_statements (hspelled : Spelled xs text)
    (henv : env.OfText (front ++ '{' :: (text ++ '}' :: rest))) (scope : Scope) :
    List.Forall₂ Mark.ShownBy (Loops.marks ⟨[], 0, 0⟩ xs)
      (statements env scope (between (front ++ ['{']) (text ++ '}' :: rest))
        (front.length + 1 + text.length)) := by
  have hassoc : front ++ '{' :: (text ++ '}' :: rest) =
      front ++ ['{'] ++ (text ++ '}' :: rest) := by simp
  have hlen : (front ++ ['{']).length = front.length + 1 := List.length_append
  rw [hassoc] at henv
  have hstop : front.length + 1 + text.length = (front ++ ['{']).length + text.length := by
    rw [hlen]
  have hfuel : xs.length ≤ front.length + 1 + text.length - (front ++ ['{']).length := by
    have hle := hspelled.length_le
    omega
  obtain ⟨found, hfound, hshown⟩ := split_spelled hspelled ⟨scope, [], 0, 0, []⟩ henv hstop hfuel
  rw [statements, offset_between, hfound, List.append_nil, List.reverse_reverse]
  exact hshown

/-- The statements of a body that spells a tree between braces are the simple statements and the
headers of the tree, in order, and the depth of each is the number of loops of the tree around
it. -/
theorem statements_nested {body : Sequence} {text : List Char}
    (hspelled : Spelled body.symbols text)
    (henv : env.OfText (front ++ '{' :: (text ++ '}' :: rest))) (scope : Scope) :
    List.Forall₂ Mark.ShownBy (body.marks 0)
        (statements env scope (between (front ++ ['{']) (text ++ '}' :: rest))
          (front.length + 1 + text.length)) ∧
      Accounts (front ++ '{' :: (text ++ '}' :: rest)) (front.length + 1)
        (front.length + 1 + text.length)
        (statements env scope (between (front ++ ['{']) (text ++ '}' :: rest))
          (front.length + 1 + text.length)) := by
  have hassoc : front ++ '{' :: (text ++ '}' :: rest) =
      front ++ ['{'] ++ (text ++ '}' :: rest) := by simp
  have hlen : (front ++ ['{']).length = front.length + 1 := List.length_append
  constructor
  · rw [← (body.runs [] 0).marks_eq]
    exact shownBy_statements hspelled henv scope
  · rw [hassoc] at henv ⊢
    have hin := in_between (front ++ ['{']) (text ++ '}' :: rest)
    have hfree : (between (front ++ ['{']) (text ++ '}' :: rest)).Free :=
      .of_before (by rw [before_between, List.getLast?_concat]) (by decide)
    have hclose : (front ++ ['{'] ++ (text ++ '}' :: rest))[front.length + 1 + text.length]? =
        some '}' := by
      rw [← hlen, ← List.append_assoc, ← List.length_append,
        List.getElem?_append_right (Nat.le_refl _), Nat.sub_self]
      rfl
    have hall :=
      accounts_statements henv hclose scope hin (by rw [offset_between, hlen]; omega) hfree
    rwa [offset_between, hlen] at hall

/-- Two loops over one statement, then a `do` loop around a branch with two alternatives, one of
them with a loop of its own. -/
def sweep : Sequence :=
  .part (.loop .forWord ⟨"uint i = 0; i < size(all); i++".toList, by decide⟩
    (.loop .whileWord ⟨"owes(i)".toList, by decide⟩ (.plain ⟨"collect(i)".toList, by decide⟩)))
  (.doLoop
    (.branch ⟨"late".toList, by decide⟩ (.part (.plain ⟨"fine += 1".toList, by decide⟩) .done)
      (.branch ⟨"lost".toList, by decide⟩
        (.part (.loop .forWord ⟨";;".toList, by decide⟩
          (.block (.part (.plain ⟨"search()".toList, by decide⟩) .done))) .done)
        (.block .done))
      .done)
    ⟨"open".toList, by decide⟩
  (.part (.plain ⟨"close()".toList, by decide⟩) .done))

/-- The text of a member with the body. -/
def sweepText : List Char :=
  "function sweep() external ".toList ++ '{' :: (spell sweep.symbols ++ ['}'])

theorem statements_nested_sweep :
    Spelled sweep.symbols (spell sweep.symbols) ∧
      Surroundings.OfText sweepText ⟨Pairs.braces sweepText, Pairs.parens sweepText, []⟩ ∧
      (statements ⟨Pairs.braces sweepText, Pairs.parens sweepText, []⟩ (.initial [] [] [])
        (between ("function sweep() external ".toList ++ ['{']) (spell sweep.symbols ++ ['}']))
        ("function sweep() external ".toList.length + 1 + (spell sweep.symbols).length)).map
    (·.loopDepth) = [0, 1, 2, 1, 1, 1, 1, 2, 0, 0] := by
  have hspelled := spelled_spell sweep.symbols
  have henv : Surroundings.OfText sweepText ⟨Pairs.braces sweepText, Pairs.parens sweepText, []⟩ :=
    ⟨rfl, rfl⟩
  exact ⟨hspelled, henv, Mark.map_depth (statements_nested hspelled henv _).1⟩

end Written

end ContractAudit
