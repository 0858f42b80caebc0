import ContractAudit.Proofs.Source.Neutral

/-!
# The layout of neutral text

The neutral text lies over its source (`Overlays`) : at every offset it has the character of the
source or a space, and a newline exactly where the source has one. So the places of its offsets are
those of the source (`neutralize_keeps_layout`).

Blanking out a neutral text changes nothing (`neutralize_neutralize`). The second reader stands in
code where the first one stood in code or in a comment, and in the same literal where the first one
stood in a literal (`Region.settled`) : of a comment only blanks and newlines are left, between
quotes there is no escape any more, and a slash that was kept has none of the characters behind it
that make a mark.
-/

namespace ContractAudit

/-! ## One text over another -/

/-- The text has, at every offset, the character of the source or a space, and its newlines are
those of the source. -/
structure Overlays (source text : List Char) : Prop where
  length_eq : text.length = source.length
  kept : ∀ i : Nat, text[i]? = source[i]? ∨ text[i]? = some ' '
  newline : ∀ i : Nat, text[i]? = some '\n' ↔ source[i]? = some '\n'

/-- The reader writes the character it reads, or a space. -/
theorem Region.written_eq (c : Char) (next : Option Char) : ∀ region : Region,
    (region.step c next).1 = c ∨ (region.step c next).1 = ' '
  | code => by
    simp only [step]
    split
    · exact Or.inr rfl
    · split
      · exact Or.inr rfl
      · split <;> exact Or.inl rfl
  | lineMark | blockMark | blockEnd | escaped _ => Or.inr rfl
  | line => by
    simp only [step]
    split
    · exact Or.inl rfl
    · exact Or.inr rfl
  | block => by
    simp only [step]
    split
    · exact Or.inl rfl
    · split <;> exact Or.inr rfl
  | literal q => by
    simp only [step]
    split
    · exact Or.inl rfl
    · split
      · exact Or.inr rfl
      · split
        · exact Or.inl rfl
        · exact Or.inr rfl

theorem getElem?_neutralChars : ∀ (cs : List Char) (region : Region) (i : Nat),
    (neutralChars region cs)[i]? = cs[i]? ∨ (neutralChars region cs)[i]? = some ' '
  | [], _, _ => Or.inl rfl
  | c :: cs, region, 0 => by
    rcases region.written_eq c cs.head? with h | h
    · exact Or.inl (congrArg some h)
    · exact Or.inr (congrArg some h)
  | c :: cs, region, i + 1 => getElem?_neutralChars cs (region.step c cs.head?).2 i

theorem overlays_neutralChars (cs : List Char) : Overlays cs (neutralChars .code cs) where
  length_eq := length_neutralChars cs .code
  kept := getElem?_neutralChars cs .code
  newline i := by
    have hchar : ∀ o : Option Char, o = some '\n' ↔ o.map (· == '\n') = some true := by
      intro o
      cases o <;> simp
    rw [hchar, hchar, ← List.getElem?_map, ← List.getElem?_map,
      newlines_neutralChars cs .code trivial]

theorem toList_text_neutralize (cs : List Char) :
    (neutralize cs).text.toList = neutralChars .code cs :=
  Source.toList_text_ofChars cs

/-- The neutral text lies over its source, so that its line index is that of the source, and every
offset has the same line and column in both. -/
theorem neutralize_keeps_layout (source : List Char) :
    Overlays source (neutralize source).text.toList ∧
      (Source.ofChars source).lines = LineIndex.of (neutralize source).text.toList ∧
      ∀ offset : Int, (Source.ofChars (neutralize source).text.toList).location offset =
        (Source.ofChars source).location offset := by
  have hover := overlays_neutralChars source
  rw [← toList_text_neutralize] at hover
  have hlines : (Source.ofChars source).lines = LineIndex.of (neutralize source).text.toList :=
    Source.lines_ofChars source
  refine ⟨hover, hlines, fun offset => ?_⟩
  have hclamp : (Source.ofChars (neutralize source).text.toList).clamp offset =
      (Source.ofChars source).clamp offset := by
    simp only [Source.clamp, Source.length, Source.ofChars, List.size_toArray, hover.length_eq]
  rw [Source.location, hclamp, Source.location, hlines]
  rfl

/-! ## Reading a neutral text -/

namespace Region

/-- Where a reader of the neutral text stands when the reader of the source stands in the region. -/
def settled : Region → Region
  | literal q | escaped q => literal q
  | code | lineMark | line | blockMark | block | blockEnd => code

/-- The reader can stand in the region in front of `next` : literals are between quotes, and an
escape has something to escape. -/
def Within (next : Option Char) : Region → Prop
  | literal q => q = '"' ∨ q = '\''
  | escaped q => (q = '"' ∨ q = '\'') ∧ next.any (· != '\n')
  | code | lineMark | line | blockMark | block | blockEnd => True

theorem within_step {c : Char} (next : Option Char) : ∀ {region : Region},
    region.Within (some c) → (region.step c next).2.Within next
  | code, _ => by
    simp only [step]
    split
    · trivial
    · split
      · trivial
      · split
        next h => simpa [Within] using h
        next => trivial
  | lineMark, _ | blockMark, _ | blockEnd, _ => trivial
  | line, _ => by
    simp only [step]
    split <;> trivial
  | block, _ => by
    simp only [step]
    split
    · trivial
    · split <;> trivial
  | literal q, h => by
    simp only [step]
    split
    · trivial
    · split
      next hescape => exact ⟨h, (Bool.and_eq_true_iff.1 hescape).2⟩
      next =>
        split
        · trivial
        · exact h
  | escaped q, h => h.1

/-- A space between quotes is written as a space. -/
theorem step_literal_space {q : Char} (hq : q = '"' ∨ q = '\'') (next : Option Char) :
    (literal q).step ' ' next = (' ', literal q) := by
  rcases hq with rfl | rfl <;> rfl

/-- The reader of the neutral text writes what it reads, and stays where the region settles. What
follows may be blanked out. -/
theorem settled_step {c : Char} {next next' : Option Char}
    (hnext : next' = next ∨ next' = some ' ') : ∀ {region : Region}, region.Within (some c) →
      region.settled.step (region.step c next).1 next' =
        ((region.step c next).1, (region.step c next).2.settled)
  | code, _ => by
    by_cases hline : c = '/' ∧ next = some '/'
    · simp [step, hline, settled]
    · by_cases hblock : c = '/' ∧ next = some '*'
      · simp [step, hblock, settled]
      · by_cases hquote : c = '"' ∨ c = '\''
        · rcases hquote with rfl | rfl <;> rfl
        · -- A slash is kept only in front of a character that makes no mark of it.
          have hstep : ∀ {next}, ¬(c = '/' ∧ next = some '/') → ¬(c = '/' ∧ next = some '*') →
              code.step c next = (c, code) := by
            intro next hline hblock
            simp [step, hline, hblock, hquote]
          rw [hstep hline hblock]
          rcases hnext with rfl | rfl
          · exact hstep hline hblock
          · exact hstep (by simp) (by simp)
  | lineMark, _ | blockMark, _ | blockEnd, _ => rfl
  | line, _ => by
    by_cases hc : c = '\n' <;> simp [step, hc, settled]
  | block, _ => by
    by_cases hc : c = '\n'
    · simp [step, hc, settled]
    · by_cases hclose : c = '*' ∧ next = some '/'
      · simp [step, hclose, settled]
      · simp [step, hc, hclose, settled]
  | literal q, h => by
    by_cases hc : c = '\n'
    · simp [step, hc, settled]
    · by_cases hescape : c = '\\' ∧ next.any (· != '\n')
      · have hwritten : (literal q).step c next = (' ', escaped q) := by simp [step, hescape]
        rw [hwritten]
        exact step_literal_space h next'
      · by_cases hq : c = q
        · subst hq
          rcases h with rfl | rfl <;> rfl
        · have hwritten : (literal q).step c next = (' ', literal q) := by
            simp [step, hc, hescape, hq]
          rw [hwritten]
          exact step_literal_space h next'
  | escaped q, h => step_literal_space h.1 next'

/-- The reader of the neutral text is cut off where the reader of the source is. -/
theorem cutBy_settled (c : Char) (next : Option Char) : ∀ region : Region,
    region.settled.cutBy (region.step c next).1 = region.cutBy c
  | code | lineMark | line | blockMark | block | blockEnd => rfl
  | literal q => @step_eq_newline c next (literal q) trivial
  | escaped _ => rfl

theorem openAtEnd_of_settled : ∀ {region : Region}, region.Within none → region.settled.openAtEnd →
    region.openAtEnd
  | literal _, _, h => h
  | escaped _, h, _ => absurd h.2 (by simp)
  | code, _, h | lineMark, _, h | line, _, h | blockMark, _, h | block, _, h | blockEnd, _, h => by
    simp [settled, openAtEnd] at h

/-- Is a comment or a literal cut off in a text that is read from the region on? -/
def cutsOff (region : Region) : List Char → Bool
  | [] => region.openAtEnd
  | c :: cs => region.cutBy c || cutsOff (region.step c cs.head?).2 cs

end Region

theorem unterminated_neutralizeFrom : ∀ (cs : List Char) (region : Region) (done : Neutral),
    (neutralizeFrom region done cs).unterminated = (done.unterminated || region.cutsOff cs)
  | [], _, _ => rfl
  | c :: cs, region, done => by
    rw [neutralizeFrom, unterminated_neutralizeFrom cs, Bool.or_assoc, Region.cutsOff]

/-- The first character of a neutral text is that of the source, or a space. -/
theorem head?_neutralChars (cs : List Char) (region : Region) :
    (neutralChars region cs).head? = cs.head? ∨ (neutralChars region cs).head? = some ' ' := by
  rw [List.head?_eq_getElem?, List.head?_eq_getElem?]
  exact getElem?_neutralChars cs region 0

theorem neutralChars_settled : ∀ {cs : List Char} {region : Region}, region.Within cs.head? →
    neutralChars region.settled (neutralChars region cs) = neutralChars region cs
  | [], _, _ => rfl
  | c :: cs, region, h => by
    have hstep := Region.settled_step (head?_neutralChars cs (region.step c cs.head?).2) h
    have htail := neutralChars_settled (Region.within_step cs.head? h)
    rw [neutralChars, neutralChars, hstep, htail]

theorem cutsOff_of_settled : ∀ {cs : List Char} {region : Region}, region.Within cs.head? →
    region.settled.cutsOff (neutralChars region cs) → region.cutsOff cs
  | [], _, h, hcut => Region.openAtEnd_of_settled h hcut
  | c :: cs, region, h, hcut => by
    have hstep := Region.settled_step (head?_neutralChars cs (region.step c cs.head?).2) h
    rw [neutralChars, Region.cutsOff, hstep, Region.cutBy_settled, Bool.or_eq_true] at hcut
    rw [Region.cutsOff, Bool.or_eq_true]
    exact hcut.imp_right (cutsOff_of_settled (Region.within_step cs.head? h))

/-- Blanking out a neutral text changes nothing, and finds nothing cut off that was not cut off in
the source. -/
theorem neutralize_neutralize (source : List Char) :
    (neutralize (neutralize source).text.toList).text = (neutralize source).text ∧
      ((neutralize (neutralize source).text.toList).unterminated →
        (neutralize source).unterminated) := by
  have hwithin : Region.code.Within source.head? := trivial
  constructor
  · rw [← Array.toList_inj, toList_text_neutralize, toList_text_neutralize]
    exact neutralChars_settled hwithin
  · rw [toList_text_neutralize, neutralize, neutralize, unterminated_neutralizeFrom,
      unterminated_neutralizeFrom, Bool.false_or, Bool.false_or]
    exact cutsOff_of_settled hwithin

end ContractAudit
