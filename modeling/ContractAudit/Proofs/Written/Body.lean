import ContractAudit.Proofs.Written.Header

/-!
# Bodies of written members

The splitting of a body takes a text for one statement if it runs over it to the semicolon behind it
(`Separable`), and classifies it in the scope that the statements before it leave
(`Separable.split_eq`). Written statements are such texts, call options included
(`Statement.separable`), so the statements of a written body come back one by one
(`Member.statements_inside`).
-/

namespace ContractAudit

namespace Written

open Pattern Cursor Body

variable {env : Surroundings} {stop : Nat} {front rest w : List Char}

/-! ## Up to the semicolon -/

theorem statementEnd_char {a : Char} (ha : isUnmarked a) (hparen : isParen a = false) (fuel : Nat)
    (hstop : front.length < stop) :
    statementEnd env stop (fuel + 1) (between front (a :: rest)) =
      statementEnd env stop fuel (between (front ++ [a]) rest) := by
  simp only [isUnmarked, List.contains_cons, List.contains_nil, Bool.or_false, Bool.not_or,
    Bool.and_eq_true, Bool.not_eq_true', beq_eq_false_iff_ne] at ha
  have hopen : a ≠ '(' := by
    rintro rfl
    exact absurd hparen (by decide)
  have hlt : (between front (a :: rest)).offset < stop := hstop
  rw [statementEnd, if_pos hlt]
  split
  next h => simp at h
  next h => simp [ha] at h
  next h => simp [ha] at h
  next h => simp [hopen] at h
  next h => simp [ha] at h
  next b _ _ _ _ h => rw [advance_one_between]

theorem statementEnd_group {inner : List Char}
    (henv : env.OfText (front ++ '(' :: (inner ++ ')' :: rest)))
    (hstop : front.length + 1 + inner.length < stop) (hinner : level '(' ')' 0 inner = some 0)
    (fuel : Nat) :
      statementEnd env stop (fuel + 1) (between front ('(' :: (inner ++ ')' :: rest))) =
      statementEnd env stop fuel (between (front ++ '(' :: (inner ++ [')'])) rest) := by
  have hclose : env.parens.close? front.length = some (front.length + 1 + inner.length) := by
    rw [henv.parens_eq]
    exact Pairs.close?_of_level (by decide) hinner
  have hlt : (between front ('(' :: (inner ++ ')' :: rest))).offset < stop := by
    simp only [offset_between]
    omega
  rw [statementEnd, if_pos hlt]
  simp only [peek_between, List.head?_cons, offset_between, hclose, if_pos hstop, advanceTo_group]

theorem statementEnd_options {inner : List Char}
    (henv : env.OfText (front ++ '{' :: (inner ++ '}' :: rest)))
    (hstop : front.length + 1 + inner.length < stop) (hinner : level '{' '}' 0 inner = some 0)
    (hoptions : (callOptions.at? (between front ('{' :: (inner ++ '}' :: rest)))).isSome)
    (fuel : Nat) :
      statementEnd env stop (fuel + 1) (between front ('{' :: (inner ++ '}' :: rest))) =
      statementEnd env stop fuel (between (front ++ '{' :: (inner ++ ['}'])) rest) := by
  have hclose : env.braces.close? front.length = some (front.length + 1 + inner.length) := by
    rw [henv.braces_eq]
    exact Pairs.close?_of_level (by decide) hinner
  have hlt : (between front ('{' :: (inner ++ '}' :: rest))).offset < stop := by
    simp only [offset_between]
    omega
  rw [statementEnd, if_pos hlt]
  simp only [peek_between, List.head?_cons, hoptions, offset_between, hclose, if_pos hstop,
    advanceTo_group, if_true]

theorem glides_of_grouped (h : Grouped isUnmarked w) (henv : env.OfText (front ++ (w ++ rest)))
    (hstop : front.length + w.length ≤ stop) :
    Glides (statementEnd env stop) (statementEnd env stop) front w rest := by
  refine h.glides (fun front' a rest' _ hlimit ha hparen fuel => ?_)
    (fun front' inner rest' htext hlimit hinner fuel => ?_) rfl hstop
  · exact statementEnd_char ha hparen fuel hlimit
  · exact statementEnd_group (htext ▸ henv) hlimit hinner fuel

/-! ## Texts that are statements -/

theorem isIdentifier_controlWords : ∀ w ∈ controlWords, isIdentifier w.toList := by
  decide

/-- The splitting takes the text for one statement if a semicolon follows : it opens with no mark
and no control word, and is passed over up to its end. -/
structure Separable (cs : List Char) : Prop where
  exists_head : ∃ a r, cs = a :: r ∧ a ≠ '{' ∧ a ≠ '}' ∧ a ≠ ';'
  trimmed : Trimmed cs
  control : ∀ w ∈ controlWords, startsWithWord cs w = false
  glides : ∀ {env : Surroundings} {stop : Nat} {front rest : List Char},
    env.OfText (front ++ (cs ++ rest)) → front.length + cs.length ≤ stop →
      Glides (statementEnd env stop) (statementEnd env stop) front cs rest

theorem separable_of_level {cs : List Char} (hne : cs ≠ []) (htrimmed : Trimmed cs)
    (hparens : level '(' ')' 0 cs = some 0)
    (hunmarked : ∀ a ∈ cs, ['{', '}', ';'].contains a = false)
    (hcontrol : ∀ w ∈ controlWords, startsWithWord cs w = false) : Separable cs where
  exists_head := by
    obtain ⟨a, r, rfl⟩ := List.exists_cons_of_ne_nil hne
    exact ⟨a, r, rfl, by simpa using hunmarked a List.mem_cons_self⟩
  trimmed := htrimmed
  control := hcontrol
  glides henv hstop := by
    refine glides_of_grouped (grouped_of_level hparens fun a ha _ => ?_) henv hstop
    rw [isUnmarked, hunmarked a ha]
    rfl

namespace Separable

variable {cs : List Char}

theorem statementEnd_eq (h : Separable cs) (henv : env.OfText (front ++ (cs ++ ';' :: rest)))
    (hstop : front.length + cs.length < stop) :
    statementEnd env stop (stop - front.length) (between front (cs ++ ';' :: rest)) =
      (between (front ++ cs) (';' :: rest), some ';') := by
  have hfuel : cs.length < stop - front.length := by omega
  obtain ⟨k, hk⟩ := (h.glides henv (Nat.le_of_lt hstop)).exists_eq hfuel
  have hlt : (between (front ++ cs) (';' :: rest)).offset < stop := by
    simpa using hstop
  rw [hk, statementEnd, if_pos hlt]
  rfl

theorem controlWord_at? (h : Separable cs) (front rest : List Char) :
    controlWord.at? (between front (cs ++ ';' :: rest)) = none := by
  refine Misses.at? ?_
  rintro ps d qs ⟨e, rs, hnamed, hedge⟩
  obtain ⟨rs', hword, rfl⟩ := reads_named_iff.1 hnamed
  obtain ⟨w, hw, r, hr, hnonword⟩ := exists_word_of_reads isIdentifier_controlWords hword hedge
  have hpre : w.toList <+: cs ++ ';' :: rest := ⟨r, hr.symm⟩
  obtain ⟨r', hr'⟩ := prefix_of_prefix_append_cons (by decide)
    (isWordChar_of_isIdentifier (isIdentifier_controlWords w hw)) hpre
  have hbehind : r'.head?.any isWordChar = false := by
    rw [← hr', List.append_assoc, List.append_cancel_left_eq] at hr
    cases r' with
    | nil => rfl
    | cons a r' => rwa [← hr] at hnonword
  have hstarts := h.control w hw
  rw [startsWithWord, ← hr', ← String.length_toList, List.drop_left, hbehind,
    List.isPrefixOf_iff_prefix.2 (List.prefix_append _ _)] at hstarts
  simp at hstarts

/-- The text up to the semicolon becomes a statement. -/
theorem split_eq (h : Separable cs) (henv : env.OfText (front ++ (cs ++ ';' :: rest)))
    (hstop : front.length + cs.length < stop) (fuel : Nat) (s : Splitting) :
    split env stop (fuel + 1) s (between front (cs ++ ';' :: rest)) =
      split env stop fuel
        { s with
          scope := (s.scope.classify cs).2.2
          pending := 0
          found := ⟨(s.scope.classify cs).1, front.length, front.length + cs.length,
            String.ofList cs, s.depth + s.pending, (s.scope.classify cs).2.1⟩ :: s.found }
        (between (front ++ (cs ++ [';'])) rest) := by
  obtain ⟨a, r, hcs, hopen, hclose, hmark⟩ := h.exists_head
  have hhead : (cs ++ ';' :: rest).head? = some a := by rw [hcs]; rfl
  have hblank : (cs ++ ';' :: rest).head?.any isBlank = false := by
    have hfirst := h.trimmed.head
    rw [hcs] at hfirst
    rw [hhead]
    exact hfirst
  have hlt : (between front (cs ++ ';' :: rest)).offset < stop := by
    simp only [offset_between]
    omega
  have hend : statementEnd env stop (stop - (between front (cs ++ ';' :: rest)).offset)
      (between front (cs ++ ';' :: rest)) = (between (front ++ cs) (';' :: rest), some ';') :=
    h.statementEnd_eq henv hstop
  have htext : trimRight ((between front (cs ++ ';' :: rest)).textTo
      (between (front ++ cs) (';' :: rest))) = cs := by
    rw [textTo_between, h.trimmed.trimRight_eq]
  rw [split]
  simp only [skipBlanks_between_self hblank, if_pos hlt]
  split
  next hpeek => simp [hhead] at hpeek
  next hpeek => simp [hhead, hopen] at hpeek
  next hpeek => simp [hhead, hclose] at hpeek
  next hpeek => simp [hhead, hmark] at hpeek
  next =>
    simp only [h.controlWord_at?, hend, Step.plain, statement, htext]
    rw [show (some ';' == some '{') = false by decide, Bool.false_and, if_neg Bool.false_ne_true,
      advance_one_between]
    simp

end Separable

namespace Statement

theorem exists_callOptions (rest : List Char) :
    (callOptions.at? (between front ('{' :: (option ++ rest)))).isSome := by
  have hoption : option = "value".toList ++ [':'] := by decide
  have hbrace := takes_symbol (u := "\x7b") (a := '{') rfl front ("value".toList ++ ':' :: rest) []
  have hword : (oneOf [Pattern.text "value", Pattern.text "gas", Pattern.text "salt"]).Takes
      (between (front ++ ['{']) ("value".toList ++ ':' :: rest)) []
      (between (front ++ ['{'] ++ "value".toList) (':' :: rest)) [] :=
    (takes_text "value" ..).oneOf_head _
  have htakes : callOptions.Takes _ [] _ [] :=
    (((hbrace.append (takes_stretch_nil rfl _ _)).append hword).append
      (takes_stretch_nil rfl _ _)).append (takes_symbol rfl _ rest [])
  rw [hoption, List.append_assoc, List.singleton_append, htakes.at?]
  rfl

theorem glides_payment (amount : Name)
    (henv : env.OfText (front ++ ((payment amount).chars ++ rest)))
    (hstop : front.length + (payment amount).chars.length ≤ stop) :
    Glides (statementEnd env stop) (statementEnd env stop) front (payment amount).chars rest := by
  obtain ⟨inner, hinner⟩ : ∃ inner, inner = option ++ ' ' :: amount.chars := ⟨_, rfl⟩
  have hchars : (payment amount).chars =
      call ++ ('{' :: (inner ++ ['}']) ++ ['(', '"', '"', ')']) := by
    simp [chars, hinner]
  have hlevel : level '{' '}' 0 inner = some 0 := hinner ▸ level_option amount
  have hcall : Grouped isUnmarked call := grouped_of_level (by decide) (by decide +kernel)
  have hargument : Grouped isUnmarked ['(', '"', '"', ')'] :=
    grouped_of_level (by decide) (by decide)
  rw [hchars] at henv hstop ⊢
  simp only [List.length_append, List.length_cons, List.length_nil] at hstop
  have hoptions : Glides (statementEnd env stop) (statementEnd env stop) (front ++ call)
      ('{' :: (inner ++ ['}'])) (['(', '"', '"', ')'] ++ rest) := by
    refine glides_of_round (by simp) fun fuel => ?_
    have henv' :
        env.OfText (front ++ call ++ '{' :: (inner ++ '}' :: (['(', '"', '"', ')'] ++ rest))) := by
      simpa using henv
    have hlimit : (front ++ call).length + 1 + inner.length < stop := by
      simp only [List.length_append]
      omega
    have hround := statementEnd_options henv' hlimit hlevel
      (by rw [hinner, List.append_assoc]; exact exists_callOptions _) fuel
    simpa using hround
  exact (glides_of_grouped hcall (by simpa using henv) (by omega)).append
    (hoptions.append (glides_of_grouped hargument (by simpa using henv) (by simp; omega)))

/-- The splitting takes every written statement for one. -/
theorem separable : ∀ s : Statement, Separable s.chars
  | simple cs h =>
    have hsimple := simple_of_isSimple h
    separable_of_level hsimple.ne_nil hsimple.trimmed hsimple.parens hsimple.unmarked
      hsimple.control
  | payment amount => by
    have hwords : ∀ w ∈ controlWords,
        w.toList.isPrefixOf call = false ∧ call.isPrefixOf w.toList = false := by
      decide
    have hchars : (payment amount).chars = '(' :: (payment amount).chars.tail := by
      have hcall : call = '(' :: call.tail := by decide
      rw [chars, hcall]
      rfl
    refine ⟨⟨'(', _, hchars, by decide⟩, (payment amount).trimmed, fun w hw => ?_,
      glides_payment amount⟩
    have hnot : ¬w.toList <+: (payment amount).chars :=
      not_prefix_append (hwords w hw).1 (hwords w hw).2 _
    rw [← List.isPrefixOf_iff_prefix, Bool.not_eq_true] at hnot
    rw [startsWithWord, hnot, Bool.false_and]

variable (s : Statement)

/-- The statement at the given offset as an outline has it. -/
def record (scope : Scope) (start : Nat) : ContractAudit.Statement :=
  ⟨(scope.classify s.chars).1, start, start + s.chars.length, String.ofList s.chars, 0,
    (scope.classify s.chars).2.1⟩

/-- The scope behind the statement. -/
def scopeBehind (scope : Scope) : Scope :=
  (scope.classify s.chars).2.2

end Statement

/-! ## One by one -/

variable {gap : List Char}

/-- Blanks in front of a text are skipped. -/
theorem split_gap (hgap : ∀ a ∈ gap, isBlank a) (hrest : rest.head?.any isBlank = false)
    (s : Splitting) : ∀ fuel : Nat,
      split env stop fuel s (between front (gap ++ rest)) =
        split env stop fuel s (between (front ++ gap) rest)
  | 0 => rfl
  | fuel + 1 => by
    rw [split, split, skipBlanks_between hgap hrest, skipBlanks_between_self hrest]

theorem split_statement (s : Statement) (hgap : ∀ a ∈ gap, isBlank a)
    (henv : env.OfText (front ++ (gap ++ (s.chars ++ ';' :: rest))))
    (hstop : front.length + gap.length + s.chars.length < stop) (fuel : Nat) (scope : Scope)
    (found : List ContractAudit.Statement) : split env stop (fuel + 1) ⟨scope, [], 0, 0, found⟩
      (between front (gap ++ (s.chars ++ ';' :: rest))) =
      split env stop fuel
        ⟨s.scopeBehind scope, [], 0, 0, s.record scope (front.length + gap.length) :: found⟩
        (between (front ++ (gap ++ (s.chars ++ [';']))) rest) := by
  have hhead : (s.chars ++ ';' :: rest).head?.any isBlank = false := by
    obtain ⟨a, r, hchars, -⟩ := s.separable.exists_head
    have hfirst := s.trimmed.head
    rw [hchars] at hfirst ⊢
    exact hfirst
  rw [split_gap hgap hhead, s.separable.split_eq (by simpa using henv) (by simpa using hstop)]
  simp [Statement.record, Statement.scopeBehind]

/-- Statements from the given offset on, as an outline has them. -/
def records (layout : Layout) : Scope → Nat → List Statement → List ContractAudit.Statement
  | _, _, [] => []
  | scope, start, s :: ss =>
    s.record scope (start + layout.statement.length) :: records layout (s.scopeBehind scope)
      (start + (layout.statement ++ (s.chars ++ [';'])).length) ss

theorem split_statements (layout : Layout) :
    ∀ (ss : List Statement) (front : List Char) (fuel : Nat)
    (scope : Scope) (found : List ContractAudit.Statement),
    env.OfText (front ++ (bodyChars layout ss ++ rest)) →
    front.length + (bodyChars layout ss).length ≤ stop →
      ∃ scope', split env stop (ss.length + fuel) ⟨scope, [], 0, 0, found⟩
          (between front (bodyChars layout ss ++ rest)) =
        split env stop fuel
          ⟨scope', [], 0, 0, (records layout scope front.length ss).reverse ++ found⟩
          (between (front ++ bodyChars layout ss) rest)
  | [], front, fuel, scope, found, _, _ => ⟨scope, by simp [bodyChars, records]⟩
  | s :: ss, front, fuel, scope, found, henv, hstop => by
    have hcons : bodyChars layout (s :: ss) =
        layout.statement ++ (s.chars ++ [';']) ++ bodyChars layout ss := rfl
    rw [hcons] at henv hstop ⊢
    have hlen : front.length + layout.statement.length + s.chars.length < stop := by
      simp only [List.length_append, List.length_singleton] at hstop
      omega
    obtain ⟨scope', hrun⟩ :=
      split_statements layout ss (front ++ (layout.statement ++ (s.chars ++ [';'])))
      fuel (s.scopeBehind scope) (s.record scope (front.length + layout.statement.length) :: found)
      (by simpa using henv) (by rw [List.length_append] at hstop ⊢; omega)
    have henv' : env.OfText (front ++ (layout.statement ++ (s.chars ++ ';' ::
        (bodyChars layout ss ++ rest)))) := by
      simpa using henv
    have hstep :=
      split_statement s layout.isBlank_statement henv' hlen (ss.length + fuel) scope found
    refine ⟨scope', ?_⟩
    rw [List.length_cons, Nat.add_right_comm, records]
    simp only [List.append_assoc, List.cons_append, List.nil_append, List.reverse_cons,
      List.length_append] at hstep hrun ⊢
    rw [hstep, hrun]

theorem length_le_bodyChars (layout : Layout) (ss : List Statement) :
    ss.length ≤ (bodyChars layout ss).length := by
  induction ss with
  | nil => simp
  | cons s ss ih =>
    rw [bodyChars, List.flatMap_cons, ← bodyChars]
    simp
    omega

/-- Behind the last statement there are only blanks. -/
theorem split_end (hgap : ∀ a ∈ gap, isBlank a) (hstop : stop = front.length + gap.length)
    (s : Splitting) : ∀ fuel : Nat,
      split env stop fuel s (between front (gap ++ '}' :: rest)) = s
  | 0 => rfl
  | fuel + 1 => by
    have hskip : (between front (gap ++ '}' :: rest)).skipBlanks =
        between (front ++ gap) ('}' :: rest) :=
      skipBlanks_between hgap rfl
    have hle : ¬(between (front ++ gap) ('}' :: rest)).offset < stop := by simp [hstop]
    rw [split]
    simp only [hskip, if_neg hle]

/-- The statements of a written body come back, each classified behind those before it. -/
theorem Member.statements_inside (m : Member) (layout : Layout) (scope : Scope)
    (henv : env.OfText (front ++ (m.inside layout ++ '}' :: rest))) :
    Body.statements env scope (between front (m.inside layout ++ '}' :: rest))
        (front.length + (m.inside layout).length) =
      records layout scope front.length m.body := by
  obtain ⟨stop, hstop⟩ : ∃ stop, stop = front.length + (m.inside layout).length := ⟨_, rfl⟩
  have hinside : (m.inside layout).length =
      (bodyChars layout m.body).length + layout.member.length :=
    List.length_append
  have hlen := length_le_bodyChars layout m.body
  obtain ⟨fuel, hfuel⟩ : ∃ fuel, stop - front.length = m.body.length + fuel :=
    ⟨stop - front.length - m.body.length, by omega⟩
  rw [inside, List.append_assoc] at henv ⊢
  obtain ⟨scope', hrun⟩ := split_statements layout m.body front fuel scope [] henv
    (show _ ≤ stop by omega)
  rw [← inside, ← hstop, Body.statements, offset_between, hfuel, hrun,
    split_end layout.isBlank_member (by rw [List.length_append]; omega)]
  simp

end Written

end ContractAudit
