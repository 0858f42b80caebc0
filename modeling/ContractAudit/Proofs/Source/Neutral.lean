import ContractAudit.Proofs.Source.LineIndex
import ContractAudit.Source.Basic

/-!
# The neutral text keeps its offsets

One character is written for each that is read, so the neutral text of a source is as long as the
source (`Source.length_text_ofChars`) and an offset of the one is an offset of the other. The
newlines stay where they are (`newlines_neutralChars`), so the neutral text has the lines of the
source (`Source.lines_ofChars`). A text of which only blanks are left, and behind which the reader
stands in code, has no influence on what follows it (`neutralChars_append`).
-/

namespace ContractAudit

theorem size_neutralizeFrom : ∀ (cs : List Char) (region : Region) (done : Neutral),
    (neutralizeFrom region done cs).text.size = done.text.size + cs.length
  | [], _, _ => rfl
  | c :: cs, region, done => by
    rw [neutralizeFrom, size_neutralizeFrom cs, Array.size_push, List.length_cons]
    omega

theorem Source.length_text_ofChars (cs : List Char) :
    (Source.ofChars cs).text.toList.length = cs.length := by
  rw [Array.length_toList]
  show (neutralize cs).text.size = cs.length
  rw [neutralize, size_neutralizeFrom]
  simp

/-- What is written for a text that is read from the given region on. -/
def neutralChars (region : Region) : List Char → List Char
  | [] => []
  | c :: cs => (region.step c cs.head?).1 :: neutralChars (region.step c cs.head?).2 cs

theorem toList_text_neutralizeFrom : ∀ (cs : List Char) (region : Region) (done : Neutral),
    (neutralizeFrom region done cs).text.toList = done.text.toList ++ neutralChars region cs
  | [], _, _ => (List.append_nil _).symm
  | c :: cs, region, done => by
    rw [neutralizeFrom, toList_text_neutralizeFrom cs, Array.toList_push, List.append_assoc]
    rfl

theorem Source.toList_text_ofChars (cs : List Char) :
    (ofChars cs).text.toList = neutralChars .code cs :=
  toList_text_neutralizeFrom cs .code ⟨#[], false⟩

theorem length_neutralChars : ∀ (cs : List Char) (region : Region),
    (neutralChars region cs).length = cs.length
  | [], _ => rfl
  | _ :: cs, _ => congrArg (· + 1) (length_neutralChars cs _)

/-! ## Newlines -/

namespace Region

/-- The reader does not take a newline for a part of a mark or for an escaped character. -/
def Ready (next : Option Char) : Region → Prop
  | lineMark | blockMark | blockEnd | escaped _ => next ≠ some '\n'
  | _ => True

theorem ready_step (c : Char) (next : Option Char) : ∀ region : Region,
    (region.step c next).2.Ready next
  | code => by
    simp only [step]
    split
    next h => simp_all [Ready]
    next =>
      split
      next h => simp_all [Ready]
      next => split <;> trivial
  | lineMark => trivial
  | line => by
    simp only [step]
    split <;> trivial
  | blockMark => trivial
  | block => by
    simp only [step]
    split
    · trivial
    · split
      next h => simp_all [Ready]
      next => trivial
  | blockEnd => trivial
  | literal q => by
    simp only [step]
    split
    · trivial
    · split
      next h =>
        rintro rfl
        simp at h
      next => split <;> trivial
  | escaped q => trivial

/-- A newline is written for a newline, and for nothing else. -/
theorem step_eq_newline {c : Char} (next : Option Char) : ∀ {region : Region},
    region.Ready (some c) → ((region.step c next).1 == '\n') = (c == '\n')
  | code, _ => by
    simp only [step]
    split
    next h => simp_all
    next =>
      split
      next h => simp_all
      next => split <;> rfl
  | lineMark, h => by simp_all [Ready, step]
  | line, _ => by
    simp only [step]
    split <;> simp_all
  | blockMark, h => by simp_all [Ready, step]
  | block, _ => by
    simp only [step]
    split
    · simp_all
    · split <;> simp_all
  | blockEnd, h => by simp_all [Ready, step]
  | literal q, _ => by
    simp only [step]
    split
    · simp_all
    · split
      · simp_all
      · split <;> simp_all
  | escaped q, h => by simp_all [Ready, step]

end Region

theorem newlines_neutralChars : ∀ (cs : List Char) (region : Region), region.Ready cs.head? →
    (neutralChars region cs).map (· == '\n') = cs.map (· == '\n')
  | [], _, _ => rfl
  | c :: cs, region, h => by
    rw [neutralChars, List.map_cons, List.map_cons, Region.step_eq_newline _ h,
      newlines_neutralChars cs _ (Region.ready_step c _ region)]

/-- The lines of a source are those of its neutral text. -/
theorem Source.lines_ofChars (cs : List Char) :
    (ofChars cs).lines = LineIndex.of (ofChars cs).text.toList := by
  rw [toList_text_ofChars]
  exact LineIndex.of_congr (newlines_neutralChars cs .code trivial).symm

/-! ## One text behind another -/

/-- Where the reader stands behind a text. -/
def Region.after (region : Region) : List Char → Region
  | [] => region
  | c :: cs => Region.after (region.step c cs.head?).2 cs

/-- A character that is written as a blank and behind which the reader stands in code does not
depend on what follows it. -/
theorem Region.step_eq_step_none {c : Char} (next : Option Char) : ∀ {region : Region},
    isBlank (region.step c none).1 → (region.step c none).2 = .code →
      region.step c next = region.step c none
  | code, hblank, _ => by
    have hc : c ≠ '/' := by
      rintro rfl
      exact absurd hblank (by decide)
    simp [step, hc]
  | lineMark, _, _ => rfl
  | line, _, _ => rfl
  | blockMark, _, _ => rfl
  | block, _, hcode => by
    simp only [step] at hcode
    split at hcode
    · cases hcode
    · split at hcode <;> cases hcode
  | blockEnd, _, _ => rfl
  | literal q, hblank, hcode => by
    have hc : c ≠ '\\' := by
      rintro rfl
      by_cases hq : '\\' = q
      · subst hq
        exact absurd hblank (by decide)
      · simp [step, hq] at hcode
    simp [step, hc]
  | escaped _, _, _ => rfl

theorem neutralChars_append (ds : List Char) : ∀ (cs : List Char) {region : Region},
    (∀ a ∈ neutralChars region cs, isBlank a) → region.after cs = .code →
      neutralChars region (cs ++ ds) = neutralChars region cs ++ neutralChars .code ds
  | [], region, _, hcode => by
    obtain rfl : region = .code := hcode
    rfl
  | [c], region, hblank, hcode => by
    have hstep := Region.step_eq_step_none ds.head? (hblank _ List.mem_cons_self) hcode
    have hcode' : (region.step c none).2 = .code := hcode
    show (region.step c ds.head?).1 :: neutralChars (region.step c ds.head?).2 ds = _
    rw [hstep, hcode']
    rfl
  | c :: d :: cs, region, hblank, hcode => by
    have htail := neutralChars_append ds (d :: cs)
      (fun a ha => hblank a (List.mem_cons_of_mem _ ha)) hcode
    exact congrArg _ htail

end ContractAudit
