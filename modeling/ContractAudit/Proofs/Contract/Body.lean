import ContractAudit.Contract.Body
import ContractAudit.Proofs.Text.Bracket
import ContractAudit.Proofs.Text.Pattern

/-!
# Statements account for their body

`Body.Accounts text lo hi ss` : the statements `ss` stand one behind the other between the offsets
`lo` and `hi`, each shows the text between its own offsets without blanks at the ends, and what lies
in none of them is left over for a reason (`Body.Leftover`) : it is a blank, a brace, a semicolon,
or belongs to one of the words that are skipped.

Splitting a body keeps, round after round, that the statements found so far account for the text up
to the place it has reached (`Body.Standing`). At its end they account for the whole body
(`Body.accounts_statements`). Each of them is made in one of three ways (`Body.Made`).
-/

namespace ContractAudit

variable {text : List Char}

/-! ## What statements account for -/

/-- The word stands at the offset `k` of the text, and no word character next to it. -/
structure WordAt (text : List Char) (k : Nat) (w : List Char) : Prop where
  chars_eq : text.extract k (k + w.length) = w
  free_before : (text.take k).getLast?.any isWordChar = false
  free_behind : text[k + w.length]?.any isWordChar = false

/-- The statement shows the text between its offsets, which neither starts nor ends with a
blank. -/
structure Statement.Shows (text : List Char) (s : Statement) : Prop where
  start_lt_stop : s.start < s.stop
  chars_eq : s.chars = text.extract s.start s.stop
  head_solid : s.chars.head?.any (!isBlank ·)
  last_solid : s.chars.getLast?.any (!isBlank ·)

/-- The brackets are those of the text. -/
structure Surroundings.OfText (text : List Char) (env : Surroundings) : Prop where
  braces_eq : env.braces = Pairs.braces text
  parens_eq : env.parens = Pairs.parens text

namespace Body

/-- Why the character at the offset `o` of a body from `lo` to `hi` is in none of the statements. -/
inductive Leftover (text : List Char) (lo hi : Nat) (ss : List Statement) (o : Nat) : Prop where
  | blank (h : text[o]?.any isBlank)
  | mark {a : Char} (h : text[o]? = some a) (ha : a = '{' ∨ a = '}' ∨ a = ';')
  /-- It belongs to a word of the body that no statement touches. -/
  | word {k : Nat} {w : String} (hw : w = "else" ∨ w = "do") (hat : WordAt text k w.toList)
    (hlo : lo ≤ k) (hhi : k + w.toList.length ≤ hi) (hk : k ≤ o) (ho : o < k + w.toList.length)
    (apart : ∀ s ∈ ss, s.stop ≤ k ∨ k + w.toList.length ≤ s.start)

/-- The statements account for the text between two offsets. -/
structure Accounts (text : List Char) (lo hi : Nat) (ss : List Statement) : Prop where
  le : lo ≤ hi
  shows : ∀ s ∈ ss, s.Shows text
  inside : ∀ s ∈ ss, lo ≤ s.start ∧ s.stop ≤ hi
  ordered : ss.Pairwise fun s t => s.stop ≤ t.start
  covers : ∀ o, lo ≤ o → o < hi →
    (∃ s ∈ ss, s.start ≤ o ∧ o < s.stop) ∨ Leftover text lo hi ss o

/-- What is left over stays so when the text goes on, with a statement behind it or not. -/
theorem Leftover.mono {lo i j o : Nat} {ss : List Statement} (h : Leftover text lo i ss o)
    (hij : i ≤ j) (ts : List Statement) (hts : ∀ s ∈ ts, i ≤ s.start) :
    Leftover text lo j (ss ++ ts) o := by
  cases h with
  | blank h => exact .blank h
  | mark h ha => exact .mark h ha
  | word hw hat hlo hhi hk ho apart =>
    refine .word hw hat hlo (by omega) hk ho fun s hs => ?_
    rcases List.mem_append.1 hs with hs | hs
    · exact apart s hs
    · exact Or.inr (Nat.le_trans hhi (hts s hs))

namespace Accounts

variable {lo i j : Nat} {ss : List Statement}

theorem nil (text : List Char) (lo : Nat) : Accounts text lo lo [] where
  le := Nat.le_refl _
  shows _ hs := absurd hs List.not_mem_nil
  inside _ hs := absurd hs List.not_mem_nil
  ordered := .nil
  covers _ h₁ h₂ := absurd h₂ (Nat.not_lt.2 h₁)

/-- Text that is left over is passed. -/
theorem skip (h : Accounts text lo i ss) (hij : i ≤ j)
    (hgap : ∀ o, i ≤ o → o < j → Leftover text lo j ss o) : Accounts text lo j ss where
  le := Nat.le_trans h.le hij
  shows := h.shows
  inside s hs := ⟨(h.inside s hs).1, Nat.le_trans (h.inside s hs).2 hij⟩
  ordered := h.ordered
  covers o h₁ h₂ := by
    by_cases ho : o < i
    · rcases h.covers o h₁ ho with hs | hl
      · exact Or.inl hs
      · refine Or.inr ?_
        simpa using hl.mono hij [] (by simp)
    · exact Or.inr (hgap o (by omega) h₂)

/-- A statement is added at the place reached. -/
theorem push {s : Statement} (h : Accounts text lo i ss) (hs : s.Shows text) (hi : s.start = i) :
    Accounts text lo s.stop (ss ++ [s]) where
  le := Nat.le_trans h.le (hi ▸ Nat.le_of_lt hs.start_lt_stop)
  shows t ht := by
    rcases List.mem_append.1 ht with ht | ht
    · exact h.shows t ht
    · rw [List.mem_singleton.1 ht]
      exact hs
  inside t ht := by
    have hlt := hs.start_lt_stop
    have hle := h.le
    rcases List.mem_append.1 ht with ht | ht
    · have := h.inside t ht
      omega
    · rw [List.mem_singleton.1 ht]
      omega
  ordered := by
    refine List.pairwise_append.2 ⟨h.ordered, List.pairwise_singleton _ _, fun t ht u hu => ?_⟩
    rw [List.mem_singleton.1 hu, hi]
    exact (h.inside t ht).2
  covers o h₁ h₂ := by
    have hlt := hs.start_lt_stop
    by_cases ho : o < i
    · rcases h.covers o h₁ ho with ⟨t, ht, hto⟩ | hl
      · exact Or.inl ⟨t, List.mem_append_left _ ht, hto⟩
      · exact Or.inr (hl.mono (by omega) [s] (by simp [hi]))
    · exact Or.inl ⟨s, by simp, by omega, h₂⟩

end Accounts

/-! ## Statements and where they end -/

variable {c d : Cursor} {a : Char}

/-- The text between two places, the first one in front of no blank, makes a statement. -/
theorem shows_statement (hc : c.In text) (hcd : c.offset < d.offset) (hd : d.offset ≤ text.length)
    (ha : c.peek = some a) (hsolid : isBlank a = false) (kind : StatementKind) (depth : Nat)
    (target : Option String) : (statement kind c d depth target).Shows text ∧
      (statement kind c d depth target).stop ≤ d.offset ∧
      ∀ o, (statement kind c d depth target).stop ≤ o → o < d.offset → text[o]?.any isBlank := by
  have hhead : (trimRight (c.textTo d)).head? = some a := by
    refine head?_trimRight ?_ hsolid
    rw [Cursor.textTo, List.head?_take, if_neg (by omega)]
    exact ha
  have hlast := @getLast?_trimRight (c.textTo d)
  obtain ⟨bs, hbs, hblank⟩ := exists_trimRight_append (c.textTo d)
  -- the rest of the text is the statement, the blanks cut off, and what follows them
  have hdrop : text.drop c.offset = trimRight (c.textTo d) ++ (bs ++ text.drop d.offset) := by
    have hrest : (text.drop c.offset).drop (d.offset - c.offset) = text.drop d.offset := by
      rw [List.drop_drop, Nat.add_sub_cancel' (Nat.le_of_lt hcd)]
    rw [← List.append_assoc, ← hbs, hc.textTo_eq, List.extract_eq_take_drop, ← hrest,
      List.take_append_drop]
  have hlen : (trimRight (c.textTo d)).length + bs.length = d.offset - c.offset := by
    have := congrArg List.length hdrop
    simp only [List.length_append, List.length_drop] at this
    omega
  simp only [statement]
  generalize trimRight (c.textTo d) = t at *
  have hpos : 0 < t.length := List.length_pos_of_mem (List.mem_of_head? hhead)
  refine ⟨⟨Nat.lt_add_of_pos_right hpos, ?_, ?_, ?_⟩, ?_, fun o h₁ h₂ => ?_⟩
  · simp [Statement.chars, List.extract_eq_take_drop, hdrop]
  · simp [Statement.chars, hhead, hsolid]
  · obtain ⟨b, hb⟩ : ∃ b, t.getLast? = some b :=
      Option.isSome_iff_exists.1 (by simpa using List.ne_nil_of_length_pos hpos)
    simp [Statement.chars, hb, hlast hb]
  · show c.offset + t.length ≤ d.offset
    omega
  · replace h₁ : c.offset + t.length ≤ o := h₁
    have hget : text[o]? = bs[o - (c.offset + t.length)]? := by
      have hsum : o = c.offset + (o - c.offset) := by omega
      rw [hsum, ← List.getElem?_drop, hdrop, List.getElem?_append_right (by omega),
        List.getElem?_append_left (by omega)]
      congr 1
      omega
    obtain ⟨b, hb⟩ : ∃ b, bs[o - (c.offset + t.length)]? = some b :=
      ⟨_, List.getElem?_eq_getElem (by omega)⟩
    simp [hget, hb, hblank b (List.mem_of_getElem? hb)]

variable {env : Surroundings} {lo stop : Nat}

/-- The place behind the bracket that closes the one at `c`. -/
theorem in_advanceTo_close {opener closer : Char} {c : Cursor} {k : Nat} (hc : c.In text)
    (hk : (Pairs.of opener closer text).close? c.offset = some k) :
    (c.advanceTo (k + 1)).In text ∧ (c.advanceTo (k + 1)).offset = k + 1 ∧ c.offset < k ∧
      (c.advanceTo (k + 1)).before = some closer := by
  have hj := Pairs.joins_of_close? hk
  have hoff := hc.offset_advanceTo (Nat.le_succ_of_le (Nat.le_of_lt hj.lt)) hj.lt_length
  exact ⟨hc.advanceTo _, hoff, hj.lt, (hc.advanceTo _).before_of_offset_eq hj.closes hoff⟩

/-- The place `d` ends a statement that starts at `c`, in front of the given mark. -/
structure EndsAt (text : List Char) (stop : Nat) (c d : Cursor) (ending : Option Char) : Prop where
  in_text : d.In text
  le : c.offset ≤ d.offset
  le_stop : d.offset ≤ stop
  of_none : ending = none → d.offset = stop
  of_some : ∀ a, ending = some a → d.offset < stop ∧ d.peek = some a ∧ (a = '{' ∨ a = '}' ∨ a = ';')

theorem endsAt_statementEnd (henv : env.OfText text) (hstop : stop < text.length) :
    ∀ (fuel : Nat) (c : Cursor), c.In text → c.offset ≤ stop → stop ≤ c.offset + fuel →
      EndsAt text stop c (statementEnd env stop fuel c).1 (statementEnd env stop fuel c).2
  | 0, c, hc, hle, hfuel => by
    have heq : c.offset = stop := by omega
    exact ⟨hc, Nat.le_refl _, hle, fun _ => heq, by simp [statementEnd]⟩
  | fuel + 1, c, hc, hle, hfuel => by
    have hmark : ∀ a, c.offset < stop → c.peek = some a → (a = '{' ∨ a = '}' ∨ a = ';') →
        EndsAt text stop c c (some a) := by
      intro a hlt ha hmem
      refine ⟨hc, Nat.le_refl _, hle, by simp, fun b hb => ?_⟩
      obtain rfl : a = b := by simpa using hb
      exact ⟨hlt, ha, hmem⟩
    have hend : EndsAt text stop c (c.advanceTo stop) none := by
      have hoff := hc.offset_advanceTo hle (Nat.le_of_lt hstop)
      exact ⟨hc.advanceTo _, by omega, by omega, fun _ => hoff, by simp⟩
    have hgo : ∀ d : Cursor, d.In text → c.offset < d.offset → d.offset ≤ stop →
        EndsAt text stop c (statementEnd env stop fuel d).1 (statementEnd env stop fuel d).2 := by
      intro d hd hcd hds
      have h := endsAt_statementEnd henv hstop fuel d hd hds (by omega)
      exact { h with le := Nat.le_trans (Nat.le_of_lt hcd) h.le }
    have hjump : ∀ (opener closer : Char) (k : Nat), k < stop →
        (Pairs.of opener closer text).close? c.offset = some k →
        EndsAt text stop c (statementEnd env stop fuel (c.advanceTo (k + 1))).1
          (statementEnd env stop fuel (c.advanceTo (k + 1))).2 := by
      intro opener closer k hks hk
      obtain ⟨hin, hoff, hlt, -⟩ := in_advanceTo_close hc hk
      exact hgo _ hin (by omega) (by omega)
    simp only [statementEnd, henv.parens_eq, henv.braces_eq]
    split
    · rename_i hlt
      split
      · rename_i hnone
        rw [hc.peek_eq, List.getElem?_eq_none_iff] at hnone
        omega
      · exact hmark ';' hlt ‹_› (by simp)
      · exact hmark '}' hlt ‹_› (by simp)
      · cases hk : (Pairs.parens text).close? c.offset with
        | none => exact hend
        | some k =>
          by_cases hks : k < stop
          · simpa [hks] using hjump _ _ k hks hk
          · simpa [hks] using hend
      · split
        · cases hk : (Pairs.braces text).close? c.offset with
          | none => exact hend
          | some k =>
            by_cases hks : k < stop
            · simpa [hks] using hjump _ _ k hks hk
            · simpa [hks] using hend
        · exact hmark '{' hlt ‹_› (by simp)
      · rename_i a hpeek
        have hoff := hc.offset_advance_one hpeek
        exact hgo _ (hc.advance 1) (by omega) (by omega)
    · have heq : c.offset = stop := by omega
      exact ⟨hc, Nat.le_refl _, hle, fun _ => heq, by simp⟩

theorem EndsAt.lt {ending : Option Char} (h : EndsAt text stop c d ending) (hc : c.In text)
    (hlt : c.offset < stop) (ha : c.peek = some a) (hmark : ¬(a = '{' ∨ a = '}' ∨ a = ';')) :
    c.offset < d.offset := by
  refine Nat.lt_of_le_of_ne h.le fun heq => ?_
  obtain rfl := hc.ext h.in_text heq
  cases ending with
  | none => exact absurd (h.of_none rfl) (Nat.ne_of_lt hlt)
  | some b =>
    obtain ⟨-, hb, hmem⟩ := h.of_some b rfl
    obtain rfl : a = b := Option.some.inj (ha.symm.trans hb)
    exact hmark hmem

theorem EndsAt.free {c d : Cursor} {ending : Option Char} (h : EndsAt text stop c d ending)
    (hstop : text[stop]? = some '}') : d.Free := by
  cases ending with
  | none =>
    have hpeek : d.peek = some '}' := by rw [h.in_text.peek_eq, h.of_none rfl, hstop]
    exact .of_peek hpeek (by decide)
  | some b =>
    obtain ⟨-, hb, rfl | rfl | rfl⟩ := h.of_some b rfl
    all_goals exact .of_peek hb (by decide)

/-! ## Headers -/

/-- A control word stands in the text where its match starts, and a word ends behind it. -/
theorem controlWord_at? {c : Cursor} {hit : Hit} (hc : c.In text)
    (h : controlWord.at? c = some hit) :
    hit.start = c ∧ hit.stop.In text ∧ hit.stop.atWordEdge ∧
      ∃ w ∈ ["if", "for", "while", "else", "do"], hit.part "word" = w.toList ∧
        hit.stop.offset = c.offset + w.toList.length ∧
        text.extract c.offset (c.offset + w.toList.length) = w.toList := by
  obtain ⟨hs, hr⟩ := Pattern.reads_of_at? h
  obtain ⟨e, rs, ⟨qs, hw, rfl⟩, hedge, rfl, hparts⟩ := hr
  obtain ⟨p, hp, hpr⟩ := Pattern.reads_oneOf_iff.1 hw
  obtain ⟨w, hmem, hpast⟩ : ∃ w ∈ ["if", "for", "while", "else", "do"],
      c.past? (· == ·) w.toList = some hit.stop := by
    simp only [List.mem_cons, List.not_mem_nil, or_false] at hp
    rcases hp with rfl | rfl | rfl | rfl | rfl
    all_goals exact ⟨_, by simp, hpr.1⟩
  obtain ⟨hin, hoff⟩ := Cursor.in_past? w.toList hc hpast
  have hchars : c.textTo hit.stop = w.toList := by
    rw [Cursor.textTo, hoff, Nat.add_sub_cancel_left]
    exact Cursor.take_of_past? _ hpast
  refine ⟨hs, hin, hedge, w, hmem, ?_, hoff, ?_⟩
  · simp [Hit.part, Hit.part?, hparts, hchars]
  · rw [← hoff, ← hc.textTo_eq, hchars]

variable {w : List Char}

theorem getElem?_of_extract {k i : Nat} (hw : text.extract k (k + w.length) = w) (hi : i < w.length)
    : text[k + i]? = w[i]? := by
  rw [← List.getElem?_drop, ← List.getElem?_take_of_lt hi]
  rw [List.extract_eq_take_drop, Nat.add_sub_cancel_left] at hw
  rw [hw]

/-- A word does not reach over a character that is none of its own. -/
theorem add_length_le_of_not_mem {k o : Nat} (hw : text.extract k (k + w.length) = w) (hk : k ≤ o)
    (ho : text[o]? = some a) (ha : a ∉ w) : k + w.length ≤ o := by
  refine Nat.le_of_not_lt fun hlt => ha (List.mem_of_getElem? (i := o - k) ?_)
  rw [← getElem?_of_extract hw (by omega), Nat.add_sub_cancel' hk, ho]

/-- Word characters between a place that no word goes through and the end of a word are a
word. -/
theorem wordAt_of_free (hc : c.In text) (hfree : c.Free)
    (hchars : text.extract c.offset (c.offset + w.length) = w) (hd : d.In text)
    (hoff : d.offset = c.offset + w.length) (hedge : d.atWordEdge) (hne : 0 < w.length)
    (hall : ∀ a ∈ w, isWordChar a) : WordAt text c.offset w := by
  refine ⟨hchars, ?_, ?_⟩
  · have hget : c.peek = some w[0] := by
      rw [hc.peek_eq, ← List.getElem?_eq_getElem hne, ← getElem?_of_extract hchars hne]
      rfl
    have hword := hall _ (List.getElem_mem hne)
    rw [← hc.before_eq, ← Bool.not_eq_true]
    intro hb
    simpa [hget, hword] using hfree hb
  · have hlt : w.length - 1 < w.length := by omega
    have hget : text[c.offset + (w.length - 1)]? = some w[w.length - 1] := by
      rw [getElem?_of_extract hchars hlt, List.getElem?_eq_getElem hlt]
    have hbefore := hd.before_of_offset_eq hget (by omega)
    have hword := hall _ (List.getElem_mem hlt)
    rw [← hoff, ← hd.peek_eq]
    simpa [Cursor.atWordEdge, hbefore, hword] using hedge

/-- A header ends inside the body and not inside a word. -/
theorem in_headerEnd (henv : env.OfText text) {hit : Hit} (hin : hit.stop.In text)
    (hedge : hit.stop.atWordEdge) (hle : hit.stop.offset ≤ stop) :
    (headerEnd env stop hit).In text ∧ hit.stop.offset ≤ (headerEnd env stop hit).offset ∧
      (headerEnd env stop hit).offset ≤ stop ∧ (headerEnd env stop hit).Free := by
  have hword : hit.stop.In text ∧ hit.stop.offset ≤ hit.stop.offset ∧ hit.stop.offset ≤ stop ∧
      hit.stop.Free :=
    ⟨hin, Nat.le_refl _, hle, .of_atWordEdge hedge⟩
  simp only [headerEnd, henv.parens_eq]
  split
  · cases hk : (Pairs.parens text).close? hit.stop.skipBlanks.offset with
    | none => exact hword
    | some k =>
      by_cases hks : k < stop
      · have hj := Pairs.joins_of_close? hk
        have hskip := hin.offset_le_skipBlanks
        have hlt := hj.lt
        have hoff := hin.offset_advanceTo (k := k + 1) (by omega) hj.lt_length
        have hbefore := (hin.advanceTo (k + 1)).before_of_offset_eq hj.closes hoff
        simp only [hks, if_true]
        exact ⟨hin.advanceTo _, by omega, by omega, .of_before hbefore (by decide)⟩
      · simpa [hks] using hword
  · exact hword

/-- An assembly block ends inside the body, behind its brace. -/
theorem in_assembly (henv : env.OfText text) (hstop : text[stop]? = some '}') {c brace : Cursor}
    {s : Splitting} (hin : brace.In text) (hlt : brace.offset < stop) :
    (Step.assembly env stop c brace s).2.In text ∧
      brace.offset < (Step.assembly env stop c brace s).2.offset ∧
      (Step.assembly env stop c brace s).2.offset ≤ stop ∧
      (Step.assembly env stop c brace s).2.Free := by
  have hlen := (List.getElem?_eq_some_iff.1 hstop).1
  -- a block that is not closed in the body takes all of it
  have hall : (brace.advanceTo (stop - 1 + 1)).In text ∧
      brace.offset < (brace.advanceTo (stop - 1 + 1)).offset ∧
      (brace.advanceTo (stop - 1 + 1)).offset ≤ stop ∧ (brace.advanceTo (stop - 1 + 1)).Free := by
    have hoff := hin.offset_advanceTo (k := stop - 1 + 1) (by omega) (by omega)
    have hpeek : (brace.advanceTo (stop - 1 + 1)).peek = some '}' := by
      rw [(hin.advanceTo _).peek_eq, hoff, Nat.sub_add_cancel (by omega), hstop]
    exact ⟨hin.advanceTo _, by omega, by omega, .of_peek hpeek (by decide)⟩
  simp only [Step.assembly, henv.braces_eq]
  cases hk : (Pairs.braces text).close? brace.offset with
  | none => exact hall
  | some k =>
    by_cases hks : k < stop
    · obtain ⟨hd, hoff, hbk, hbefore⟩ := in_advanceTo_close hin hk
      simp only [hks, if_true]
      exact ⟨hd, by omega, by omega, .of_before hbefore (by decide)⟩
    · simpa [hks] using hall

/-! ## Rounds of the splitting -/

/-- The statements found account for the body up to the place reached, which is inside the body
and not inside a word. -/
structure Standing (text : List Char) (lo stop : Nat) (found : List Statement) (c : Cursor) :
    Prop where
  in_text : c.In text
  le_stop : c.offset ≤ stop
  free : c.Free
  accounts : Accounts text lo c.offset found.reverse

namespace Standing

variable {found : List Statement} {c d : Cursor} {a : Char}

theorem skipBlanks (h : Standing text lo stop found c) (hstop : text[stop]? = some '}') :
    Standing text lo stop found c.skipBlanks where
  in_text := h.in_text.skipBlanks
  le_stop := h.in_text.skipBlanks_offset_le h.le_stop (by simp [hstop, isBlank])
  free := h.free.skipBlanks h.in_text
  accounts := h.accounts.skip h.in_text.offset_le_skipBlanks fun _ h₁ h₂ =>
    .blank (h.in_text.isBlank_of_lt_skipBlanks h₁ h₂)

/-- A brace or a semicolon is passed. -/
theorem mark (h : Standing text lo stop found c) (hlt : c.offset < stop) (ha : c.peek = some a)
    (hmark : a = '{' ∨ a = '}' ∨ a = ';') : Standing text lo stop found (c.advance 1) := by
  have hoff := h.in_text.offset_advance_one ha
  have hget : text[c.offset]? = some a := h.in_text.peek_eq ▸ ha
  have hbefore := (h.in_text.advance 1).before_of_offset_eq hget hoff
  refine ⟨h.in_text.advance 1, by omega, .of_before hbefore ?_, ?_⟩
  · rcases hmark with rfl | rfl | rfl <;> decide
  · refine h.accounts.skip (by omega) fun o h₁ h₂ => ?_
    obtain rfl : o = c.offset := by omega
    exact .mark hget hmark

/-- A word that belongs to no statement is passed. -/
theorem word (h : Standing text lo stop found c) {w : String} (hw : w = "else" ∨ w = "do")
    (hchars : text.extract c.offset (c.offset + w.toList.length) = w.toList) (hd : d.In text)
    (hoff : d.offset = c.offset + w.toList.length) (hle : d.offset ≤ stop)
    (hedge : d.atWordEdge) : Standing text lo stop found d := by
  refine ⟨hd, hle, .of_atWordEdge hedge, h.accounts.skip (by omega) fun o h₁ h₂ => ?_⟩
  have hat : WordAt text c.offset w.toList := by
    refine wordAt_of_free h.in_text h.free hchars hd hoff hedge ?_ ?_
    · rcases hw with rfl | rfl <;> decide
    · rcases hw with rfl | rfl <;> exact List.all_eq_true.1 (by decide)
  refine .word hw hat h.accounts.le (by omega) h₁ (by omega) fun s hs => ?_
  exact Or.inl (h.accounts.inside s hs).2

/-- The text up to a place becomes a statement. -/
theorem add (h : Standing text lo stop found c) (ha : c.peek = some a) (hsolid : isBlank a = false)
    (hd : d.In text) (hcd : c.offset < d.offset) (hle : d.offset ≤ stop) (hfree : d.Free)
    (kind : StatementKind) (depth : Nat) (target : Option String) :
    Standing text lo stop (statement kind c d depth target :: found) d := by
  obtain ⟨hshows, hstop, hblank⟩ :=
    shows_statement h.in_text hcd hd.offset_le ha hsolid kind depth target
  refine ⟨hd, hle, hfree, ?_⟩
  rw [List.reverse_cons]
  exact (h.accounts.push hshows rfl).skip hstop fun o h₁ h₂ => .blank (hblank o h₁ h₂)

/-- A control word is passed, or becomes a statement together with its condition. -/
theorem control (h : Standing text lo stop found c) (henv : env.OfText text)
    (hstop : text[stop]? = some '}') (ha : c.peek = some a) (hsolid : isBlank a = false) {hit : Hit}
    (hat : controlWord.at? c = some hit) :
    c.offset < hit.stop.offset ∧ c.offset < (headerEnd env stop hit).offset ∧
      (hit.part "word" = "else".toList ∨ hit.part "word" = "do".toList →
        Standing text lo stop found hit.stop) ∧
      ∀ kind depth target, Standing text lo stop
        (statement kind hit.start (headerEnd env stop hit) depth target :: found)
        (headerEnd env stop hit) := by
  obtain ⟨hs, hin, hedge, w, hmem, hpart, hoff, hchars⟩ := controlWord_at? h.in_text hat
  have hpos : 0 < w.toList.length ∧ '}' ∉ w.toList := by
    simp only [List.mem_cons, List.not_mem_nil, or_false] at hmem
    rcases hmem with rfl | rfl | rfl | rfl | rfl <;> decide
  have hle : hit.stop.offset ≤ stop :=
    hoff ▸ add_length_le_of_not_mem hchars h.le_stop hstop hpos.2
  obtain ⟨hin', hge, hle', hfree⟩ := in_headerEnd henv hin hedge hle
  refine ⟨by omega, by omega, fun hw => ?_, fun kind depth target => ?_⟩
  · refine h.word ?_ hchars hin hoff hle hedge
    rwa [hpart, String.toList_inj, String.toList_inj] at hw
  · rw [hs]
    exact h.add ha hsolid hin' (by omega) hle' hfree kind depth target

end Standing

/-- Splitting accounts for the rest of the body. -/
theorem accounts_split (henv : env.OfText text) (hstop : text[stop]? = some '}') :
    ∀ (fuel : Nat) (s : Splitting) (c : Cursor), Standing text lo stop s.found c →
      stop ≤ c.offset + fuel → Accounts text lo stop (split env stop fuel s c).found.reverse
  | 0, s, c, h, hfuel => by
    obtain rfl : c.offset = stop := Nat.le_antisymm h.le_stop hfuel
    exact h.accounts
  | fuel + 1, s, c, h₀, hfuel => by
    have hlen := (List.getElem?_eq_some_iff.1 hstop).1
    have h := h₀.skipBlanks hstop
    have hblank := h₀.in_text.peek_skipBlanks
    have hskip := h₀.in_text.offset_le_skipBlanks
    simp only [split]
    generalize c.skipBlanks = c at h hblank hskip ⊢
    split
    · rename_i hlt
      -- every round but the last moves on, so the fuel lasts
      have hgo : ∀ (s' : Splitting) (d : Cursor), Standing text lo stop s'.found d →
          c.offset < d.offset → Accounts text lo stop (split env stop fuel s' d).found.reverse :=
        fun s' d hd hcd => accounts_split henv hstop fuel s' d hd (by omega)
      have hmark : ∀ (s' : Splitting) (a : Char), s'.found = s.found → c.peek = some a →
          (a = '{' ∨ a = '}' ∨ a = ';') →
          Accounts text lo stop (split env stop fuel s' (c.advance 1)).found.reverse := by
        intro s' a hfound hpeek hmem
        have hoff := h.in_text.offset_advance_one hpeek
        refine hgo s' _ ?_ (by omega)
        rw [hfound]
        exact h.mark hlt hpeek hmem
      split
      · rename_i hnone
        rw [h.in_text.peek_eq, List.getElem?_eq_none_iff] at hnone
        omega
      · exact hmark _ '{' rfl ‹_› (by simp)
      · refine hmark _ '}' ?_ ‹_› (by simp)
        split <;> rfl
      · exact hmark _ ';' rfl ‹_› (by simp)
      · rename_i a hne₁ hne₂ hne₃ hpeek
        have hsolid : isBlank a = false := by simpa [hpeek] using hblank
        split
        · rename_i hit hat
          obtain ⟨hlt₁, hlt₂, hword, hheader⟩ := h.control henv hstop hpeek hsolid hat
          split
          · rename_i hw
            exact hgo _ _ (hword (Or.inl (beq_iff_eq.1 hw))) hlt₁
          · split
            · rename_i hw
              exact hgo _ _ (hword (Or.inr (beq_iff_eq.1 hw))) hlt₁
            · exact hgo _ _ (hheader _ _ _) hlt₂
        · have hend :=
            endsAt_statementEnd henv hlen (stop - c.offset) c h.in_text h.le_stop (by omega)
          generalize statementEnd env stop (stop - c.offset) c = r at hend ⊢
          obtain ⟨d, ending⟩ := r
          have hcd := hend.lt h.in_text hlt hpeek (by simp_all)
          split
          · rename_i hasm
            have hbrace : ending = some '{' := by simp_all
            obtain ⟨hin, hge, hle, hfree⟩ := in_assembly (c := c) (s := s) henv hstop hend.in_text
              (hend.of_some _ hbrace).1
            exact hgo _ _ (h.add hpeek hsolid hin (by omega) hle hfree _ _ _) (by omega)
          · have hadd := h.add hpeek hsolid hend.in_text hcd hend.le_stop (hend.free hstop)
              (s.scope.classify (trimRight (c.textTo d))).1 (s.depth + s.pending)
              (s.scope.classify (trimRight (c.textTo d))).2.1
            split
            · obtain ⟨hds, hd, -⟩ := hend.of_some _ ‹_›
              have hoff := hend.in_text.offset_advance_one hd
              exact hgo _ _ (hadd.mark hds hd (by simp)) (by omega)
            · exact hgo _ _ hadd hcd
            · exact hgo _ _ hadd hcd
            · rw [← hend.of_none ‹_›]
              exact hadd.accounts
    · obtain rfl : c.offset = stop := by
        have := h.le_stop
        omega
      exact h.accounts

/-- The statements of a body account for all of it. -/
theorem accounts_statements (henv : env.OfText text) (hstop : text[stop]? = some '}')
    (scope : Scope) {c : Cursor} (hc : c.In text) (hle : c.offset ≤ stop) (hfree : c.Free) :
    Accounts text c.offset stop (statements env scope c stop) :=
  accounts_split henv hstop _ ⟨scope, [], 0, 0, []⟩ c ⟨hc, hle, hfree, .nil text c.offset⟩
    (by omega)

/-! ## Ways to make a statement -/

/-- How a statement of a body is made : of a control header, of an `assembly` block or of any other
text. -/
inductive Made (env : Surroundings) (stop : Nat) : Statement → Prop where
  | header (c d : Cursor) (depth : Nat) : Made env stop (statement .controlFlow c d depth none)
  /-- The word stands at `c`, and the block reaches beyond the brace that ends the text behind
  it. -/
  | assembly {c : Cursor} {fuel : Nat} (hword : (assemblyWord.at? c).isSome)
    (hend : (statementEnd env stop fuel c).2.isSome) (kind : StatementKind) (n depth : Nat) :
    Made env stop (statement kind c ((statementEnd env stop fuel c).1.advanceTo n) depth none)
  | plain (scope : Scope) (c d : Cursor) (depth : Nat) :
    Made env stop (statement (scope.classify (trimRight (c.textTo d))).1 c d depth
      (scope.classify (trimRight (c.textTo d))).2.1)

theorem made_split : ∀ (fuel : Nat) (s : Splitting) (c : Cursor), (∀ x ∈ s.found, Made env stop x) →
    ∀ x ∈ (split env stop fuel s c).found, Made env stop x
  | 0, _, _, h => h
  | fuel + 1, s, c, h => by
    have hgo := made_split fuel
    have hcons : ∀ x : Statement, Made env stop x →
        ∀ y ∈ x :: s.found, Made env stop y := fun x hx =>
      List.forall_mem_cons.2 ⟨hx, h⟩
    simp only [split]
    split
    · split
      · exact h
      · exact hgo _ _ h
      · refine hgo _ _ ?_
        split <;> exact h
      · exact hgo _ _ h
      · split
        · split
          · exact hgo _ _ h
          · split
            · exact hgo _ _ h
            · exact hgo _ _ (hcons _ (.header _ _ _))
        · split
          next hblock =>
            rw [Bool.and_eq_true, beq_iff_eq] at hblock
            exact hgo _ _ (hcons _ (.assembly hblock.2 (Option.isSome_of_mem hblock.1) _ _ _))
          next =>
            have hplain : ∀ d, ∀ x ∈ (Step.plain c.skipBlanks d s).found,
                Made env stop x := fun d =>
              hcons _ (.plain s.scope _ _ _)
            split
            · exact hgo _ _ (hplain _)
            · exact hgo _ _ (hplain _)
            · exact hgo _ _ (hplain _)
            · exact hplain _
    · exact h

theorem made_statements (env : Surroundings) (scope : Scope) (c : Cursor) (stop : Nat) :
    ∀ s ∈ statements env scope c stop, Made env stop s := fun s hs =>
  made_split _ _ _ (List.forall_mem_nil _) s (List.mem_reverse.1 hs)

end Body

end ContractAudit
