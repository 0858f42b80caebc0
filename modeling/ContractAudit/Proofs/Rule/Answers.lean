import ContractAudit.Proofs.Rule.Marks
import ContractAudit.Proofs.Text.Nesting
import ContractAudit.Rule.Builtin

/-!
# Detectors that answer

A detector can fail in two ways : it looks up a bracket that has no partner, or it reads a number
with too many digits. The first never happens : the brackets of an argument list are matched inside
it (`Pairs.exists_close?_inside`), so `callArguments` answers on every text. The second can happen
to one detector only, and does not if every number of the source can be read (`Source.Readable`).
-/

namespace ContractAudit

open Pattern

/-! ## Computations that answer -/

/-- The computation does not fail. -/
def Answers {ε α : Type} (x : Except ε α) : Prop :=
  ∃ a, x = .ok a

section Answers

variable {ε α β : Type}

theorem answers_pure (a : α) : Answers (pure a : Except ε α) :=
  ⟨a, rfl⟩

theorem answers_bind {x : Except ε α} {k : α → Except ε β} (hx : Answers x)
    (hk : ∀ a, Answers (k a)) : Answers (x >>= k) := by
  obtain ⟨a, rfl⟩ := hx
  exact hk a

theorem answers_mapM {f : α → Except ε β} : ∀ {xs : List α}, (∀ x ∈ xs, Answers (f x)) →
    Answers (xs.mapM f)
  | [], _ => answers_pure []
  | x :: xs, hf => by
    rw [List.mapM_cons]
    refine answers_bind (hf x List.mem_cons_self) fun y => ?_
    refine answers_bind (answers_mapM fun x' hx' => hf x' (List.mem_cons_of_mem _ hx')) fun ys => ?_
    exact answers_pure _

variable {f : α → Except ε Bool}

theorem answers_anyM : ∀ {xs : List α}, (∀ x ∈ xs, Answers (f x)) →
    Answers (xs.anyM f)
  | [], _ => answers_pure false
  | x :: xs, hf => by
    refine answers_bind (hf x List.mem_cons_self) fun found => ?_
    cases found with
    | true => exact answers_pure true
    | false => exact answers_anyM fun x' hx' => hf x' (List.mem_cons_of_mem _ hx')

theorem answers_filterAuxM : ∀ {xs found : List α},
    (∀ x ∈ xs, Answers (f x)) → Answers (xs.filterAuxM f found)
  | [], found, _ => answers_pure found
  | x :: xs, found, hf => by
    rw [List.filterAuxM]
    refine answers_bind (hf x List.mem_cons_self) fun keep => ?_
    exact answers_filterAuxM fun x' hx' => hf x' (List.mem_cons_of_mem _ hx')

theorem answers_filterM {xs : List α} (hf : ∀ x ∈ xs, Answers (f x)) : Answers (xs.filterM f) := by
  rw [List.filterM]
  exact answers_bind (answers_filterAuxM hf) fun ys => answers_pure _

theorem answers_mapError {δ : Type} {g : ε → δ} {x : Except ε α} (hx : Answers x) :
    Answers (x.mapError g) := by
  obtain ⟨a, rfl⟩ := hx
  exact ⟨a, rfl⟩

end Answers

/-! ## Arguments -/

variable {text : List Char}

/-- Every bracket met on the way through an argument list has a partner. -/
theorem answers_argumentsFrom {o close : Nat} (h : (Pairs.parens text).close? o = some close) :
    ∀ (fuel : Nat) (found : List (List Char)) (arg : Cursor) (squares : Int) (c : Cursor),
      c.In text → o ≤ c.offset →
        Answers (argumentsFrom (Pairs.parens text) close found arg squares fuel c)
  | 0, found, arg, squares, c, _, _ => answers_pure _
  | fuel + 1, found, arg, squares, c, hc, hle => by
    have hnext : o ≤ (c.advance 1).offset := by
      have hoff := (Cursor.in_advance 1 hc).2
      have := hc.offset_le
      omega
    have hgo := fun found arg squares =>
      answers_argumentsFrom h fuel found arg squares (c.advance 1) (hc.advance 1) hnext
    unfold argumentsFrom
    split
    next hlt =>
      split
      · exact answers_pure _
      next hpeek =>
        -- The bracket here is the one before the list, or stands inside the list.
        have hpaired : ∃ k, (Pairs.parens text).close? c.offset = some k := by
          rcases Nat.eq_or_lt_of_le hle with heq | hlt'
          · exact ⟨close, heq ▸ h⟩
          · obtain ⟨k, hk, -, -⟩ :=
              Pairs.exists_close?_inside h hlt' hlt (hc.peek_eq.symm.trans hpeek)
            exact ⟨k, hk⟩
        obtain ⟨k, hk⟩ := hpaired
        obtain ⟨hin, hoff, hlt', -⟩ := Body.in_advanceTo_close hc hk
        rw [hk]
        exact answers_argumentsFrom h fuel found arg squares _ hin (by omega)
      · exact hgo _ _ _
      · exact hgo _ _ _
      · dsimp only
        split
        · exact hgo _ _ _
        · exact hgo _ _ _
      · exact hgo _ _ _
    next => exact answers_pure _

theorem answers_callArguments {first : Cursor} (hfirst : first.In text) :
    Answers (callArguments (Pairs.parens text) first) := by
  unfold callArguments
  split
  · exact answers_pure none
  next close h =>
    refine answers_bind ?_ fun args => answers_pure _
    exact answers_argumentsFrom h _ _ _ _ first hfirst (Nat.sub_le _ _)

variable {h : Hit}

/-- A match in a text ends at a place of the text. -/
theorem Pattern.in_stop_of_mem_allIn {p : Pattern} (hh : h ∈ p.allIn text) : h.stop.In text := by
  obtain ⟨hin, -, hreads⟩ := reads_of_mem_findAll (Cursor.in_start text) hh
  exact (hreads.in hin).1

theorem Pattern.in_stop_of_findIn? {p : Pattern} (hh : p.findIn? text = some h) :
    h.stop.In text := by
  obtain ⟨hin, -, hreads⟩ := reads_of_find? (Cursor.in_start text) hh
  exact (hreads.in hin).1

theorem answers_isFixedGasSend (text : List Char) : Answers (isFixedGasSend text) :=
  answers_anyM fun _ hh =>
    answers_bind (answers_callArguments (in_stop_of_mem_allIn hh)) fun _ => answers_pure _

/-! ## Version numbers -/

/-- Every stretch of decimal digits in the neutral text can be read as a number. -/
def Source.Readable (source : Source) : Prop :=
  ∀ digits : List Char, digits <:+: source.text.toList → (∀ d ∈ digits, isDecimalDigit d) →
    Answers (readNumber digits)

/-- A match of one or more characters of a class keeps nothing. -/
theorem all_of_reads_stretch1 {ok : Char → Bool} {c d : Cursor} {ps qs : Parts}
    (h : (stretch1 ok).Reads c ps d qs) : (∀ a ∈ c.textTo d, ok a) ∧ qs = ps := by
  obtain ⟨e, rs, ⟨a, r, hrest, ha, rfl, rfl⟩, hrun, rfl⟩ := h
  have hall := Cursor.all_of_mem_run hrun
  rw [Cursor.textTo] at hall ⊢
  refine ⟨fun x hx => ?_, rfl⟩
  cases hn : d.offset - c.offset with
  | zero => simp [hn] at hx
  | succ n =>
    have hn' : d.offset - (c.offset + 1) = n := by omega
    rw [hrest, hn, List.take_succ_cons] at hx
    rcases List.mem_cons.1 hx with rfl | hx
    · exact ha
    · exact hall x (hn' ▸ hx)

/-- A version number consists of digits of the constraint. -/
theorem part_versionNumber (hh : h ∈ allInWith "." versionNumber text) {label : String}
    (hlabel : label = "major" ∨ label = "minor") :
    h.part label <:+: text ∧ ∀ d ∈ h.part label, isDecimalDigit d := by
  obtain ⟨hin, -, hreads⟩ :=
    reads_of_mem_findAll (Cursor.in_start text) (mem_findAll_of_mem_findAllWith hh)
  obtain ⟨e, rs, ⟨e', rs', ⟨qs, hmajor, rfl⟩, hdot⟩, ⟨qs', hminor, hparts⟩⟩ := hreads
  have he : e.In text := (hdot.in (hmajor.in hin).1).1
  obtain ⟨hmajors, rfl⟩ := all_of_reads_stretch1 hmajor
  obtain ⟨hminors, rfl⟩ := all_of_reads_stretch1 hminor
  obtain ⟨-, rfl⟩ := hdot
  rcases hlabel with rfl | rfl
  · have hpart : h.part "major" = h.start.textTo e' := by
      simp [Hit.part, Hit.part?, hparts, List.lookup_cons]
    rw [hpart]
    exact ⟨hin.isInfix_textTo, hmajors⟩
  · have hpart : h.part "minor" = e.textTo h.stop := by
      simp [Hit.part, Hit.part?, hparts]
    rw [hpart]
    exact ⟨he.isInfix_textTo, hminors⟩

theorem answers_versionsIn (hread : ∀ digits : List Char, digits <:+: text →
    (∀ d ∈ digits, isDecimalDigit d) → Answers (readNumber digits)) :
    Answers (versionsIn text) := by
  refine answers_mapM fun h hh => ?_
  obtain ⟨hmajor, hmajor'⟩ := part_versionNumber hh (Or.inl rfl)
  obtain ⟨hminor, hminor'⟩ := part_versionNumber hh (Or.inr rfl)
  refine answers_bind (hread _ hmajor hmajor') fun major => ?_
  refine answers_bind (hread _ hminor hminor') fun minor => ?_
  exact answers_pure _

theorem part_versionPragma (hh : versionPragma.findIn? text = some h) :
    h.part "versions" <:+: text := by
  obtain ⟨hin, -, hreads⟩ := reads_of_find? (Cursor.in_start text) hh
  obtain ⟨e, rs, ⟨e', rs', hbefore, ⟨qs, hversions, rfl⟩⟩, ⟨-, hparts⟩⟩ := hreads
  have hpart : h.part "versions" = e'.textTo e := by
    simp [Hit.part, Hit.part?, hparts]
  rw [hpart]
  exact (hbefore.in hin).1.isInfix_textTo

variable {source : Source}

theorem answers_isLegacy (h : source.Readable) : Answers (isLegacy source.text.toList) := by
  unfold isLegacy
  split
  next hit hfind =>
    refine answers_bind (answers_versionsIn fun digits hdigits hall => ?_) fun _ => answers_pure _
    exact h digits (hdigits.trans (part_versionPragma hfind)) hall
  next => exact answers_pure false

/-! ## Detectors -/

namespace Detector

/-- The detector answers, whatever source and members it is given. -/
def Total (detect : Detector) : Prop :=
  ∀ source bs, Answers (detect source bs)

variable {f : Source → Block → Except DetectorFault (List Match)}

/-- The members are looked at one after the other. -/
theorem eachBlock_cons {b : Block} {bs : List Block} {ms ms' : List Match}
    (hb : eachBlock f source [b] = .ok ms) (hbs : eachBlock f source bs = .ok ms') :
    eachBlock f source (b :: bs) = .ok (ms ++ ms') := by
  simp only [eachBlock, List.mapM_cons, List.mapM_nil] at hb hbs ⊢
  cases hf : f source b with
  | error e =>
    rw [hf] at hb
    cases hb
  | ok own =>
    cases hrest : bs.mapM (f source) with
    | error e =>
      rw [hrest] at hbs
      cases hbs
    | ok others =>
      rw [hf] at hb
      rw [hrest] at hbs
      cases hb
      cases hbs
      show Except.ok (own ++ others.flatten) = Except.ok (own ++ [] ++ others.flatten)
      rw [List.append_nil]

theorem total_eachBlock (hf : ∀ source b, Answers (f source b)) : (eachBlock f).Total :=
  fun _ _ => answers_bind (answers_mapM fun b _ => hf _ b) fun _ => answers_pure _

theorem total_eachParsed (hf : ∀ source b, Answers (f source b)) : (eachParsed f).Total := by
  refine total_eachBlock fun source b => ?_
  split
  · exact hf source b
  · exact answers_pure []

theorem total_eachEntryPoint (hf : ∀ source b, Answers (f source b)) :
    (eachEntryPoint f).Total := by
  refine total_eachParsed fun source b => ?_
  split
  · exact hf source b
  · exact answers_pure []

theorem answers_canReenter (s : Statement) : Answers (canReenter s) := by
  unfold canReenter
  split
  · exact answers_bind (answers_isFixedGasSend _) fun _ => answers_pure _
  · exact answers_pure false

theorem answers_firstReentrance : ∀ ss : List Statement, Answers (firstReentrance ss)
  | [] => answers_pure none
  | s :: ss => by
    refine answers_bind (answers_canReenter s) fun reenters => ?_
    split
    · exact answers_pure _
    · exact answers_firstReentrance ss

theorem total_reentrancy : reentrancy.Total := by
  refine total_eachEntryPoint fun source b => ?_
  split
  · exact answers_pure []
  · refine answers_bind (answers_firstReentrance b.statements) fun found => ?_
    split
    · exact answers_pure []
    · split
      · exact answers_pure []
      · exact answers_pure _

theorem answers_droppedResult? (text : List Char) : Answers (droppedResult? text) := by
  unfold droppedResult?
  split
  · exact answers_pure none
  next h hfind =>
    exact answers_bind (answers_callArguments (in_stop_of_findIn? hfind)) fun _ => answers_pure _

theorem total_uncheckedCallReturn : uncheckedCallReturn.Total := by
  refine total_eachParsed fun source b => ?_
  refine answers_bind (answers_mapM fun s _ => ?_) fun _ => answers_pure _
  split
  · exact answers_pure none
  · dsimp only
    split
    · exact answers_pure none
    · exact answers_bind (answers_droppedResult? _) fun _ => answers_pure _

theorem total_transferFixedGas : transferFixedGas.Total := by
  refine total_eachParsed fun source b => ?_
  refine answers_bind (answers_filterM fun s _ => ?_) fun _ => answers_pure _
  split
  · exact answers_isFixedGasSend _
  · exact answers_pure false

theorem answers_greedySwap? (text : List Char) : Answers (greedySwap? text) := by
  unfold greedySwap?
  split
  · exact answers_pure none
  next h hfind =>
    exact answers_bind (answers_callArguments (in_stop_of_findIn? hfind)) fun _ => answers_pure _

theorem answers_frontRunning? (pays : Bool) (text : List Char) :
    Answers (frontRunning? pays text) := by
  unfold frontRunning?
  split
  · exact answers_pure _
  · refine answers_bind (answers_greedySwap? text) fun swap => ?_
    split
    · exact answers_pure _
    · exact answers_pure _

theorem total_frontRunning : frontRunning.Total := by
  refine total_eachParsed fun source b => ?_
  refine answers_bind (answers_mapM fun s _ => ?_) fun _ => answers_pure _
  exact answers_bind (answers_frontRunning? _ _) fun _ => answers_pure _

theorem total_encodePackedCollision : encodePackedCollision.Total := by
  intro source bs
  refine answers_bind (answers_mapM fun h hh => ?_) fun _ => answers_pure _
  exact answers_bind (answers_callArguments (in_stop_of_mem_allIn hh)) fun _ => answers_pure _

/-- The one detector that reads numbers. -/
theorem answers_uncheckedArithmetic (h : source.Readable) (bs : List Block) :
    Answers (uncheckedArithmetic source bs) := by
  refine answers_bind (answers_mapError (answers_isLegacy h)) fun legacy => ?_
  exact total_eachParsed (fun _ _ => answers_pure _) source bs

end Detector

end ContractAudit
