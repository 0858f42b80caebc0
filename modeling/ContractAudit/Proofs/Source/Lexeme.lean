import ContractAudit.Source.Neutral

/-!
# The lexical grammar of sources

A source in which every comment and every literal is closed is a sequence of lexemes (`Lexed`), and
blanking out goes lexeme by lexeme : the reader stands in code in front of each, and again behind it
(`neutralizeFrom_lexeme`). The reader says that something was cut off exactly of the sources that
are no such sequence (`neutralize_lexed`) : if nothing was, then behind the mark that opens a block
comment the closing one can be found (`exists_block_closed`), and behind a quote the closing quote
on the same line (`exists_literal_closed`).
-/

namespace ContractAudit

/-! ## The grammar -/

/-- A part of what stands between the quotes of a literal. -/
inductive Piece where
  | plain (c : Char)
  /-- A backslash and the character behind it. -/
  | escape (c : Char)
  deriving DecidableEq, Repr

namespace Piece

/-- The piece as it is written. -/
def chars : Piece → List Char
  | plain c => [c]
  | escape c => ['\\', c]

/-- May the piece stand between the given quotes? A backslash is always the start of an escape. -/
def Fits (quote : Char) : Piece → Prop
  | plain c => c ≠ '\n' ∧ c ≠ quote ∧ c ≠ '\\'
  | escape c => c ≠ '\n'

end Piece

/-- A piece of a source. -/
inductive Lexeme where
  /-- A character of code. -/
  | code (c : Char)
  /-- Two slashes and the rest of the line. -/
  | lineComment (text : List Char)
  /-- A text between a slash with a star and a star with a slash. -/
  | blockComment (text : List Char)
  /-- A text between two quotes. -/
  | literal (quote : Char) (pieces : List Piece)
  deriving DecidableEq, Repr

/-- A text of blanks with the same newlines. -/
def blanked (cs : List Char) : List Char :=
  cs.map fun c => if c = '\n' then c else ' '

namespace Lexeme

/-- The lexeme as it is written, with its marks or quotes. -/
def chars : Lexeme → List Char
  | code c => [c]
  | lineComment text => '/' :: '/' :: text
  | blockComment text => '/' :: '*' :: text ++ ['*', '/']
  | literal quote pieces => quote :: pieces.flatMap Piece.chars ++ [quote]

/-- What is left of a lexeme : a character of code and the quotes of a literal stay. -/
def neutral : Lexeme → List Char
  | code c => [c]
  | lineComment text => blanked (lineComment text).chars
  | blockComment text => blanked (blockComment text).chars
  | literal quote pieces => quote :: blanked (pieces.flatMap Piece.chars) ++ [quote]

/-- May the lexeme be read in front of the text `rest`? A character of code is not the start of a
comment or of a literal. A line comment reaches to the end of its line, a block comment to the first
closing mark. -/
def Fits (rest : List Char) : Lexeme → Prop
  | code c => c ≠ '"' ∧ c ≠ '\'' ∧ (c = '/' → rest.head? ≠ some '/' ∧ rest.head? ≠ some '*')
  | lineComment text => '\n' ∉ text ∧ ∀ c ∈ rest.head?, c = '\n'
  | blockComment text => ¬ ['*', '/'] <:+: text
  | literal quote pieces => (quote = '"' ∨ quote = '\'') ∧ ∀ p ∈ pieces, p.Fits quote

end Lexeme

/-- The source is read, from left to right, as the given lexemes. -/
inductive Lexed : List Char → List Lexeme → Prop
  | nil : Lexed [] []
  | cons {l : Lexeme} {rest : List Char} {ls : List Lexeme} (fits : l.Fits rest)
      (later : Lexed rest ls) : Lexed (l.chars ++ rest) (l :: ls)

/-! ## Writing -/

/-- More text is written behind what is done. -/
def Neutral.write (done : Neutral) (cs : List Char) : Neutral :=
  { done with text := done.text ++ cs }

@[simp]
theorem Neutral.write_nil (done : Neutral) : done.write [] = done := by
  simp [write]

@[simp]
theorem Neutral.write_write (done : Neutral) (cs ds : List Char) :
    (done.write cs).write ds = done.write (cs ++ ds) := by
  have htext : done.text ++ cs ++ ds = done.text ++ (cs ++ ds) := Array.toList_inj.1 (by simp)
  rw [write, write, write, htext]

variable {c : Char} {cs : List Char}

/-- One character is read that cuts nothing off. -/
theorem neutralizeFrom_step {region : Region} (done : Neutral) (out : Char) (region' : Region)
    (hstep : region.step c cs.head? = (out, region')) (hcut : region.cutBy c = false) :
    neutralizeFrom region done (c :: cs) = neutralizeFrom region' (done.write [out]) cs := by
  rw [neutralizeFrom, hstep, hcut, Bool.or_false]
  simp [Neutral.write]

theorem blanked_cons (c : Char) (cs : List Char) :
    blanked (c :: cs) = (if c = '\n' then c else ' ') :: blanked cs :=
  rfl

theorem blanked_append (cs ds : List Char) : blanked (cs ++ ds) = blanked cs ++ blanked ds :=
  List.map_append

/-! ## Lexemes are blanked out one by one -/

variable {rest : List Char}

theorem neutralizeFrom_line : ∀ {text : List Char} (done : Neutral), '\n' ∉ text →
    neutralizeFrom .line done (text ++ rest) = neutralizeFrom .line (done.write (blanked text)) rest
  | [], done, _ => by simp [blanked]
  | c :: text, done, h => by
    have hc : c ≠ '\n' := fun heq => h (heq ▸ List.mem_cons_self)
    have hstep : Region.line.step c (text ++ rest).head? = (' ', .line) := by simp [Region.step, hc]
    rw [List.cons_append, neutralizeFrom_step done _ _ hstep rfl,
      neutralizeFrom_line _ fun hmem => h (List.mem_cons_of_mem c hmem), Neutral.write_write,
      blanked_cons, if_neg hc, List.singleton_append]

/-- At the end of a line the reader stands in code. -/
theorem neutralizeFrom_lineEnd (h : ∀ c ∈ rest.head?, c = '\n') (done : Neutral) :
    neutralizeFrom .line done rest = neutralizeFrom .code done rest := by
  cases rest with
  | nil => rfl
  | cons c rest =>
    obtain rfl := h c rfl
    rw [neutralizeFrom_step done '\n' .code rfl rfl,
      neutralizeFrom_step done '\n' .code rfl rfl]

/-- A block comment goes on over a character that does not start the closing mark. -/
theorem step_block {next : Option Char} (h : c = '*' → next ≠ some '/') :
    Region.block.step c next = (if c = '\n' then c else ' ', .block) := by
  by_cases hc : c = '\n'
  · simp [Region.step, hc]
  · by_cases hstar : c = '*'
    · simp [Region.step, hstar, h hstar]
    · simp [Region.step, hc, hstar]

/-- A closing mark in front of a text is new, or in the text. -/
theorem closingMark_infix_cons :
    ['*', '/'] <:+: c :: cs ↔ (c = '*' ∧ cs.head? = some '/') ∨ ['*', '/'] <:+: cs := by
  rw [List.infix_cons_iff, List.cons_prefix_cons]
  cases cs with
  | nil => simp
  | cons d cs => simp [eq_comm]

theorem neutralizeFrom_block : ∀ {text : List Char} (done : Neutral), ¬ ['*', '/'] <:+: text →
    neutralizeFrom .block done (text ++ '*' :: '/' :: rest) =
      neutralizeFrom .code (done.write (blanked (text ++ ['*', '/']))) rest
  | [], done, _ => by
    rw [List.nil_append, neutralizeFrom_step done ' ' .blockEnd rfl rfl,
      neutralizeFrom_step _ ' ' .code rfl rfl, Neutral.write_write]
    rfl
  | c :: text, done, h => by
    obtain ⟨hfirst, htext⟩ := not_or.1 (mt closingMark_infix_cons.2 h)
    have hnext : c = '*' → (text ++ '*' :: '/' :: rest).head? ≠ some '/' := by
      intro hc
      cases text with
      | nil => simp
      | cons d text => exact fun hd => hfirst ⟨hc, hd⟩
    rw [List.cons_append, neutralizeFrom_step done _ _ (step_block hnext) rfl,
      neutralizeFrom_block _ htext, Neutral.write_write]
    rfl

variable {quote : Char}

/-- Quotes are neither newlines nor backslashes. -/
theorem quote_cases (h : quote = '"' ∨ quote = '\'') : quote ≠ '\n' ∧ quote ≠ '\\' := by
  rcases h with rfl | rfl <;> decide

theorem neutralizeFrom_piece {p : Piece} (h : p.Fits quote) (done : Neutral) :
    neutralizeFrom (.literal quote) done (p.chars ++ rest) =
      neutralizeFrom (.literal quote) (done.write (blanked p.chars)) rest := by
  cases p with
  | plain c =>
    obtain ⟨hline, hquote, hslash⟩ := h
    have hstep : (Region.literal quote).step c rest.head? = (' ', .literal quote) := by
      simp [Region.step, hline, hquote, hslash]
    rw [Piece.chars, List.singleton_append,
      neutralizeFrom_step done _ _ hstep (by simp [Region.cutBy, hline]), blanked_cons,
      if_neg hline]
    rfl
  | escape c =>
    have hc : c ≠ '\n' := h
    have hstep : (Region.literal quote).step '\\' (c :: rest).head? = (' ', .escaped quote) := by
      simp [Region.step, hc]
    rw [Piece.chars, List.cons_append, List.singleton_append,
      neutralizeFrom_step done _ _ hstep rfl, neutralizeFrom_step _ ' ' (.literal quote) rfl rfl,
      Neutral.write_write, blanked_cons, blanked_cons, if_neg hc]
    rfl

theorem neutralizeFrom_literal (hquote : quote = '"' ∨ quote = '\'') :
    ∀ {pieces : List Piece} (done : Neutral), (∀ p ∈ pieces, p.Fits quote) →
      neutralizeFrom (.literal quote) done (pieces.flatMap Piece.chars ++ quote :: rest) =
        neutralizeFrom .code (done.write (blanked (pieces.flatMap Piece.chars) ++ [quote])) rest
  | [], done, _ => by
    obtain ⟨hline, hslash⟩ := quote_cases hquote
    have hstep : (Region.literal quote).step quote rest.head? = (quote, .code) := by
      simp [Region.step, hline, hslash]
    rw [List.flatMap_nil, List.nil_append,
      neutralizeFrom_step done _ _ hstep (by simp [Region.cutBy, hline])]
    rfl
  | p :: pieces, done, h => by
    obtain ⟨hp, hpieces⟩ := List.forall_mem_cons.1 h
    rw [List.flatMap_cons, List.append_assoc, neutralizeFrom_piece hp,
      neutralizeFrom_literal hquote _ hpieces, Neutral.write_write, blanked_append,
      List.append_assoc]

/-- The reader stands in code behind every lexeme. -/
theorem neutralizeFrom_lexeme {l : Lexeme} (h : l.Fits rest) (done : Neutral) :
    neutralizeFrom .code done (l.chars ++ rest) =
      neutralizeFrom .code (done.write l.neutral) rest := by
  cases l with
  | code c =>
    obtain ⟨hdouble, hsingle, hslash⟩ := h
    have hstep : Region.code.step c rest.head? = (c, .code) := by
      by_cases hc : c = '/'
      · obtain ⟨hline, hblock⟩ := hslash hc
        simp [Region.step, hc, hline, hblock]
      · simp [Region.step, hc, hdouble, hsingle]
    exact neutralizeFrom_step done _ _ hstep rfl
  | lineComment text =>
    obtain ⟨htext, hend⟩ := h
    rw [Lexeme.chars, List.cons_append, List.cons_append,
      neutralizeFrom_step done ' ' .lineMark rfl rfl,
      neutralizeFrom_step _ ' ' .line rfl rfl,
      neutralizeFrom_line _ htext, neutralizeFrom_lineEnd hend, Neutral.write_write,
      Neutral.write_write]
    rfl
  | blockComment text =>
    have hchars : (Lexeme.blockComment text).chars ++ rest =
        '/' :: '*' :: (text ++ '*' :: '/' :: rest) := by
      simp [Lexeme.chars]
    rw [hchars, neutralizeFrom_step done ' ' .blockMark rfl rfl,
      neutralizeFrom_step _ ' ' .block rfl rfl, neutralizeFrom_block _ h,
      Neutral.write_write, Neutral.write_write]
    rfl
  | literal quote pieces =>
    obtain ⟨hquote, hpieces⟩ := h
    have hchars : (Lexeme.literal quote pieces).chars ++ rest =
        quote :: (pieces.flatMap Piece.chars ++ quote :: rest) := by
      simp [Lexeme.chars]
    have hstep : ∀ next, Region.code.step quote next = (quote, .literal quote) := by
      intro next
      rcases hquote with rfl | rfl <;> rfl
    rw [hchars, neutralizeFrom_step done _ _ (hstep _) rfl, neutralizeFrom_literal hquote _ hpieces,
      Neutral.write_write]
    rfl

theorem neutralizeFrom_lexed {source : List Char} {ls : List Lexeme} (h : Lexed source ls)
    (done : Neutral) : neutralizeFrom .code done source =
      done.write (ls.flatMap Lexeme.neutral) := by
  induction h generalizing done with
  | nil => simp [neutralizeFrom, Region.openAtEnd]
  | cons fits _ ih => rw [neutralizeFrom_lexeme fits, ih, Neutral.write_write, List.flatMap_cons]

/-! ## What is not cut off is closed -/

/-- What was cut off before stays so. -/
theorem unterminated_of_neutralizeFrom : ∀ (cs : List Char) {region : Region} {done : Neutral},
    (neutralizeFrom region done cs).unterminated = false → done.unterminated = false
  | [], _, _, h => (Bool.or_eq_false_iff.1 h).1
  | _ :: cs, _, _, h => (Bool.or_eq_false_iff.1 (unterminated_of_neutralizeFrom cs h)).1

theorem exists_block_closed : ∀ (cs : List Char) {done : Neutral},
    (neutralizeFrom .block done cs).unterminated = false →
      ∃ text rest, cs = text ++ '*' :: '/' :: rest ∧ ¬ ['*', '/'] <:+: text
  | [], done, h => by simp [neutralizeFrom, Region.openAtEnd] at h
  | c :: cs, done, h => by
    by_cases hclose : c = '*' ∧ cs.head? = some '/'
    · obtain ⟨rfl, hhead⟩ := hclose
      obtain ⟨rest, rfl⟩ := List.head?_eq_some_iff.1 hhead
      exact ⟨[], rest, rfl, by simp⟩
    · rw [neutralizeFrom_step done _ _ (step_block fun hc hhead => hclose ⟨hc, hhead⟩) rfl] at h
      obtain ⟨text, rest, rfl, htext⟩ := exists_block_closed cs h
      refine ⟨c :: text, rest, rfl, fun hinfix => ?_⟩
      rcases closingMark_infix_cons.1 hinfix with ⟨hc, hhead⟩ | hinfix
      · refine hclose ⟨hc, ?_⟩
        rw [List.head?_append, hhead]
        rfl
      · exact htext hinfix

/-- A literal is cut off at the end of its line. -/
theorem unterminated_literal (h : ∀ c ∈ cs.head?, c = '\n') (quote : Char) (done : Neutral) :
    (neutralizeFrom (.literal quote) done cs).unterminated = true := by
  cases cs with
  | nil => simp [neutralizeFrom, Region.openAtEnd]
  | cons c cs =>
    obtain rfl := h c rfl
    rw [← Bool.not_eq_false]
    intro hopen
    exact Bool.noConfusion (Bool.or_eq_false_iff.1 (unterminated_of_neutralizeFrom cs hopen)).2

/-- Between quotes, what comes next is the closing quote or a piece. -/
theorem literal_cases {done : Neutral}
    (h : (neutralizeFrom (.literal quote) done cs).unterminated = false) :
    (∃ rest, cs = quote :: rest) ∨ ∃ (p : Piece) (rest : List Char), p.Fits quote ∧
      cs = p.chars ++ rest := by
  have hopen : ∀ {cs done}, (∀ c ∈ List.head? cs, c = '\n') →
      (neutralizeFrom (.literal quote) done cs).unterminated ≠ false := fun hend => by
    rw [unterminated_literal hend]
    decide
  cases cs with
  | nil => exact absurd h (hopen (by simp))
  | cons c cs =>
    have hline : c ≠ '\n' := by
      rintro rfl
      exact hopen (by simp) h
    by_cases hquote : c = quote
    · exact Or.inl ⟨cs, by rw [hquote]⟩
    · refine Or.inr ?_
      by_cases hslash : c = '\\'
      · subst hslash
        cases cs with
        | nil =>
          have hstep : (Region.literal quote).step '\\' none = (' ', .literal quote) := by
            simp [Region.step, hquote]
          rw [neutralizeFrom_step done _ _ hstep rfl] at h
          exact absurd h (hopen (by simp))
        | cons d cs =>
          refine ⟨.escape d, cs, ?_, rfl⟩
          rintro rfl
          have hstep : (Region.literal quote).step '\\' (some '\n') = (' ', .literal quote) := by
            simp [Region.step, hquote]
          rw [neutralizeFrom_step done _ _ hstep rfl] at h
          exact hopen (by simp) h
      · exact ⟨.plain c, cs, ⟨hline, hquote, hslash⟩, rfl⟩

theorem Piece.length_chars_pos (p : Piece) : 0 < p.chars.length := by
  cases p <;> simp [chars]

theorem exists_literal_closed (cs : List Char) {done : Neutral}
    (h : (neutralizeFrom (.literal quote) done cs).unterminated = false) :
    ∃ (pieces : List Piece) (rest : List Char),
      cs = pieces.flatMap Piece.chars ++ quote :: rest ∧ ∀ p ∈ pieces, p.Fits quote := by
  rcases literal_cases h with ⟨rest, rfl⟩ | ⟨p, rest, hp, heq⟩
  · exact ⟨[], rest, rfl, List.forall_mem_nil _⟩
  · have hlt : rest.length < cs.length := by
      have hpos := p.length_chars_pos
      rw [heq, List.length_append]
      omega
    rw [heq, neutralizeFrom_piece hp] at h
    obtain ⟨pieces, later, hrest, hpieces⟩ := exists_literal_closed rest h
    refine ⟨p :: pieces, later, ?_, List.forall_mem_cons.2 ⟨hp, hpieces⟩⟩
    rw [heq, hrest, List.flatMap_cons, List.append_assoc]
termination_by cs.length

/-! ## Reading lexemes -/

/-- In code, what comes next is a lexeme, if nothing is cut off. -/
theorem exists_lexeme {done : Neutral}
    (h : (neutralizeFrom .code done (c :: cs)).unterminated = false) :
    ∃ (l : Lexeme) (rest : List Char), c :: cs = l.chars ++ rest ∧ l.Fits rest := by
  by_cases hline : c = '/' ∧ cs.head? = some '/'
  · obtain ⟨rfl, hhead⟩ := hline
    obtain ⟨cs, rfl⟩ := List.head?_eq_some_iff.1 hhead
    refine ⟨.lineComment (cs.takeWhile (· != '\n')), cs.dropWhile (· != '\n'), ?_, ?_, ?_⟩
    · simp [Lexeme.chars]
    · intro hmem
      simpa using List.all_eq_true.1 List.all_takeWhile '\n' hmem
    · intro d hd
      have hstop := List.head?_dropWhile_not (· != '\n') cs
      rw [Option.mem_def.1 hd] at hstop
      simpa using hstop
  · by_cases hblock : c = '/' ∧ cs.head? = some '*'
    · obtain ⟨rfl, hhead⟩ := hblock
      obtain ⟨cs, rfl⟩ := List.head?_eq_some_iff.1 hhead
      rw [neutralizeFrom_step done ' ' .blockMark rfl rfl,
        neutralizeFrom_step _ ' ' .block rfl rfl] at h
      obtain ⟨text, rest, rfl, htext⟩ := exists_block_closed cs h
      exact ⟨.blockComment text, rest, by simp [Lexeme.chars], htext⟩
    · by_cases hquote : c = '"' ∨ c = '\''
      · have hstep : Region.code.step c cs.head? = (c, .literal c) := by
          rcases hquote with rfl | rfl <;> rfl
        rw [neutralizeFrom_step done _ _ hstep rfl] at h
        obtain ⟨pieces, rest, rfl, hpieces⟩ := exists_literal_closed cs h
        exact ⟨.literal c pieces, rest, by simp [Lexeme.chars], hquote, hpieces⟩
      · obtain ⟨hdouble, hsingle⟩ := not_or.1 hquote
        exact ⟨.code c, cs, rfl, hdouble, hsingle, fun hc =>
          ⟨fun hhead => hline ⟨hc, hhead⟩, fun hhead => hblock ⟨hc, hhead⟩⟩⟩

theorem Lexeme.length_chars_pos (l : Lexeme) : 0 < l.chars.length := by
  cases l <;> simp [chars]

theorem exists_lexed (source : List Char) {done : Neutral}
    (h : (neutralizeFrom .code done source).unterminated = false) : ∃ ls, Lexed source ls := by
  cases source with
  | nil => exact ⟨[], .nil⟩
  | cons c cs =>
    obtain ⟨l, rest, heq, hfits⟩ := exists_lexeme h
    have hlt : rest.length < (c :: cs).length := by
      have hpos := l.length_chars_pos
      rw [heq, List.length_append]
      omega
    rw [heq, neutralizeFrom_lexeme hfits] at h
    obtain ⟨ls, hls⟩ := exists_lexed rest h
    exact ⟨l :: ls, heq ▸ .cons hfits hls⟩
termination_by source.length

/-- Nothing is cut off exactly in the sources that can be read as lexemes, and the neutral text of
such a source is that of its lexemes. -/
theorem neutralize_lexed (source : List Char) :
    ((neutralize source).unterminated = false ↔ ∃ ls, Lexed source ls) ∧
      ∀ ls, Lexed source ls → (neutralize source).text.toList = ls.flatMap Lexeme.neutral := by
  refine ⟨⟨exists_lexed source, fun ⟨ls, hls⟩ => ?_⟩, fun ls hls => ?_⟩
  · rw [neutralize, neutralizeFrom_lexed hls]
    rfl
  · rw [neutralize, neutralizeFrom_lexed hls]
    simp [Neutral.write]

end ContractAudit
