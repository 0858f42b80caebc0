import ContractAudit.Proofs.Written.Path

/-!
# The target of a statement

What stands behind a path decides whether a statement writes to it : a sign that assigns, a step or
a call that changes a length (`Scope.writesPath_assigned`, `Scope.not_writesPath_related`). So a
statement that writes to a path has the variable as its target, wherever it stands for storage, and
one that compares the path has none (`Scope.writeTarget_path`).
-/

namespace ContractAudit

open Pattern Cursor

namespace Scope

open Written

/-! ## What stands behind a path -/

/-- Behind blanks, a pattern that starts with no blank is read where the blanks end. -/
theorem reads_of_blanks_append {p : Pattern} {front rest : List Char} {ps qs : Parts} {d : Cursor}
    (gap : Gap) (hp : p.Opens (!isBlank ·)) (hrest : rest.head?.any isBlank = false)
    (h : (blanks ++ p).Reads (between front (gap.chars ++ rest)) ps d qs) :
    p.Reads (between (front ++ gap.chars) rest) ps d qs := by
  obtain ⟨e, rs, hblanks, hread⟩ := h
  obtain ⟨w, r, htext, hw, rfl, rfl⟩ := reads_stretch_iff.1 hblanks
  have hr : r.head?.any isBlank = false := by
    have hpeek := (hp _ _ d rs qs (in_between (front ++ w) r) hread).1
    cases hc : r.head? with
    | none => rfl
    | some c =>
      rw [peek_between, hc] at hpeek
      simpa using hpeek
  obtain ⟨rfl, rfl⟩ := eq_of_run_append gap.isBlank_of_mem hw hrest hr htext
  exact hread

variable {sign : String}

/-- The sign of an assignment without the `=`. -/
theorem reads_assignmentSign (hsign : sign ∈ assignmentSigns) (front rest : List Char) (ps : Parts)
    : (maybe (oneOf [among "-+*/%|&^", "<<", ">>"])).Reads
      (between front (sign.toList ++ rest)) ps (between (front ++ sign.toList) rest) ps := by
  have hchar {a : Char} (ha : "-+*/%|&^".toList.contains a) :
      (maybe (oneOf [among "-+*/%|&^", "<<", ">>"])).Reads (between front (a :: rest)) ps
        (between (front ++ [a]) rest) ps :=
    reads_maybe_iff.2 (Or.inl (reads_oneOf_iff.2 ⟨_, List.mem_cons_self,
      reads_char_iff.2 ⟨a, rest, rfl, ha, rfl, rfl⟩⟩))
  have htext {u : String} (hu : Pattern.text u ∈ [among "-+*/%|&^", "<<", ">>"]) :
      (maybe (oneOf [among "-+*/%|&^", "<<", ">>"])).Reads (between front (u.toList ++ rest)) ps
        (between (front ++ u.toList) rest) ps :=
    reads_maybe_iff.2 (Or.inl (reads_oneOf_iff.2 ⟨_, hu, reads_text_iff.2 ⟨rest, rfl, rfl, rfl⟩⟩))
  simp only [assignmentSigns, List.mem_cons, List.not_mem_nil, or_false] at hsign
  rcases hsign with rfl | rfl | rfl | rfl | rfl | rfl | rfl | rfl | rfl | rfl | rfl
  · exact reads_maybe_iff.2 (Or.inr ⟨by simp, rfl⟩)
  · exact hchar (by decide)
  · exact hchar (by decide)
  · exact hchar (by decide)
  · exact hchar (by decide)
  · exact hchar (by decide)
  · exact hchar (by decide)
  · exact hchar (by decide)
  · exact hchar (by decide)
  · exact htext (List.mem_cons_of_mem _ List.mem_cons_self)
  · exact htext (List.mem_cons_of_mem _ (List.mem_cons_of_mem _ List.mem_cons_self))

variable {value : List Char}

theorem writesPath_assigned (gap : Gap) (hsign : sign ∈ assignmentSigns)
    (hvalue : goesOn value = false) (member front : List Char) :
    writesPath member (between front (gap.chars ++ (sign.toList ++ '=' :: value))) := by
  have hgap : blanks.Reads (between front (gap.chars ++ (sign.toList ++ '=' :: value))) []
      (between (front ++ gap.chars) (sign.toList ++ '=' :: value)) [] :=
    reads_stretch_iff.2 ⟨_, _, rfl, gap.isBlank_of_mem, rfl, rfl⟩
  have hequals :
      (Pattern.text "=").Reads (between (front ++ gap.chars ++ sign.toList) ('=' :: value)) []
      (between (front ++ gap.chars ++ sign.toList ++ ['=']) value) [] :=
    (reads_symbol_iff rfl).2 ⟨value, rfl, rfl, rfl⟩
  have hend : (notBefore "=>").Reads (between (front ++ gap.chars ++ sign.toList ++ ['=']) value) []
      (between (front ++ gap.chars ++ sign.toList ++ ['=']) value) [] := by
    refine reads_check_iff.2 ⟨?_, rfl, rfl⟩
    rw [peek_between]
    cases hc : value.head? with
    | none => rfl
    | some c =>
      rw [goesOn, hc] at hvalue
      simp at hvalue
      simp [hvalue]
  have hreads : assignment.Reads _ [] _ [] :=
    ((hgap.append (reads_assignmentSign hsign _ _ [])).append hequals).append hend
  have hsome :
      (assignment.at? (between front (gap.chars ++ (sign.toList ++ '=' :: value)))).isSome :=
    isSome_read_of_reads assignment hreads rfl
  rw [writesPath, hsome, Bool.true_or, Bool.true_or]

theorem takes_stepSign (hsign : sign ∈ stepSigns) (front rest : List Char) (ps : Parts) :
    (oneOf ["++", "--"]).Takes (between front (sign.toList ++ rest)) ps
      (between (front ++ sign.toList) rest) ps := by
  simp only [stepSigns, List.mem_cons, List.not_mem_nil, or_false] at hsign
  rcases hsign with rfl | rfl
  · exact (takes_text "++" front rest ps).oneOf_head _
  · have hmiss : (Pattern.text "++").Misses (between front ("--".toList ++ rest)) :=
      misses_text (not_prefix_append (by decide) (by decide) rest) front
    exact .oneOf_tail hmiss ((takes_text "--" front rest ps).oneOf_head _)

theorem writesPath_stepped (gap : Gap) (hsign : sign ∈ stepSigns) (member front rest : List Char) :
    writesPath member (between front (gap.chars ++ (sign.toList ++ rest))) := by
  have hgap : blanks.Reads (between front (gap.chars ++ (sign.toList ++ rest))) []
      (between (front ++ gap.chars) (sign.toList ++ rest)) [] :=
    reads_stretch_iff.2 ⟨_, _, rfl, gap.isBlank_of_mem, rfl, rfl⟩
  have hstep : (oneOf ["++", "--"]).Reads (between (front ++ gap.chars) (sign.toList ++ rest)) []
      (between (front ++ gap.chars ++ sign.toList) rest) [] :=
    (takes_stepSign hsign _ rest []).reads
  have hreads : steppedBehind.Reads _ [] _ [] := hgap.append hstep
  have hsome : (steppedBehind.at? (between front (gap.chars ++ (sign.toList ++ rest)))).isSome :=
    isSome_read_of_reads steppedBehind hreads rfl
  rw [writesPath, hsome, Bool.or_true, Bool.true_or]

theorem writesPath_resized (gap : Gap) {word : String} (hword : word ∈ lengthWords)
    (front rest : List Char) :
    writesPath word.toList (between front (gap.chars ++ '(' :: rest)) := by
  have hskip : (between front (gap.chars ++ '(' :: rest)).skipBlanks =
      between (front ++ gap.chars) ('(' :: rest) := skipBlanks_between gap.isBlank_of_mem rfl
  have hmember : (word.toList == "push".toList || word.toList == "pop".toList) = true := by
    simp only [lengthWords, List.mem_cons, List.not_mem_nil, or_false] at hword
    rcases hword with rfl | rfl
    · rfl
    · rfl
  rw [writesPath, hskip, hmember, peek_between]
  simp

theorem opens_stepSign : (oneOf ["++", "--"]).Opens "+-".toList.contains := by
  refine opens_oneOf fun p hp => ?_
  simp only [List.mem_cons, List.not_mem_nil, or_false] at hp
  rcases hp with rfl | rfl
  · exact opens_text rfl rfl
  · exact opens_text rfl rfl

theorem opens_assignment :
    (maybe (oneOf [among "-+*/%|&^", "<<", ">>"]) ++ "=" ++ notBefore "=>").Opens (!isBlank ·) := by
  have hlead : (oneOf [among "-+*/%|&^", "<<", ">>"]).Opens (!isBlank ·) := by
    refine opens_oneOf fun p hp => ?_
    simp only [List.mem_cons, List.not_mem_nil, or_false] at hp
    rcases hp with rfl | rfl | rfl
    · have hsolid : ∀ a ∈ "-+*/%|&^".toList, (!isBlank a) = true := by decide
      exact (opens_char _).mono fun a ha => hsolid a (List.contains_iff_mem.1 ha)
    · exact opens_text rfl rfl
    · exact opens_text rfl rfl
  exact (hlead.maybe_append (opens_text rfl rfl)).append _

/-- How a relation starts : with an equality or an arrow, a `!`, or a sign of order that is no
shift. -/
theorem exists_relation_eq (hsign : sign ∈ relationSigns) (hvalue : goesOn value = false) :
    ∃ a cs, sign.toList ++ value = a :: cs ∧
      (a = '=' ∧ cs.head?.any "=>".toList.contains ∨ a = '!' ∨
        (a = '<' ∨ a = '>') ∧ cs.head?.any "<>".toList.contains = false) := by
  have horder : value.head?.any "<>".toList.contains = false := by
    rw [goesOn] at hvalue
    cases hc : value.head? with
    | none => rfl
    | some c =>
      rw [hc] at hvalue
      simp at hvalue
      simp [hvalue]
  simp only [relationSigns, List.mem_cons, List.not_mem_nil, or_false] at hsign
  rcases hsign with rfl | rfl | rfl | rfl | rfl | rfl | rfl
  · exact ⟨'=', '=' :: value, rfl, Or.inl ⟨rfl, rfl⟩⟩
  · exact ⟨'!', '=' :: value, rfl, Or.inr (Or.inl rfl)⟩
  · exact ⟨'<', value, rfl, Or.inr (Or.inr ⟨Or.inl rfl, horder⟩)⟩
  · exact ⟨'<', '=' :: value, rfl, Or.inr (Or.inr ⟨Or.inl rfl, rfl⟩)⟩
  · exact ⟨'>', value, rfl, Or.inr (Or.inr ⟨Or.inr rfl, horder⟩)⟩
  · exact ⟨'>', '=' :: value, rfl, Or.inr (Or.inr ⟨Or.inr rfl, rfl⟩)⟩
  · exact ⟨'=', '>' :: value, rfl, Or.inl ⟨rfl, rfl⟩⟩

/-- No assignment is read at the sign of a relation. -/
theorem misses_assignment (hsign : sign ∈ relationSigns) (hvalue : goesOn value = false)
    (front : List Char) :
    (maybe (oneOf [among "-+*/%|&^", "<<", ">>"]) ++ "=" ++ notBefore "=>").Misses
      (between front (sign.toList ++ value)) := by
  rintro ps d qs ⟨e, rs, ⟨e', rs', hlead, hequals⟩, hend⟩
  obtain ⟨a, cs, htext, hcases⟩ := exists_relation_eq hsign hvalue
  rw [htext] at hlead
  rcases reads_maybe_iff.1 hlead with hlead | ⟨rfl, rfl⟩
  · obtain ⟨p, hp, hlead⟩ := reads_oneOf_iff.1 hlead
    have hshift {b : Char} {r : List Char} (hb : "<>".toList.contains b)
        (hr : a :: cs = b :: b :: r) : False := by
      obtain ⟨rfl, rfl⟩ := List.cons.inj hr
      rcases hcases with ⟨rfl, -⟩ | rfl | ⟨-, hcs⟩
      · cases hb
      · cases hb
      · rw [List.head?_cons, Option.any_some, hb] at hcs
        cases hcs
    simp only [List.mem_cons, List.not_mem_nil, or_false] at hp
    rcases hp with rfl | rfl | rfl
    · obtain ⟨b, r, hr, hb, -⟩ := reads_char_iff.1 hlead
      obtain ⟨rfl, -⟩ := List.cons.inj hr
      rcases hcases with ⟨rfl, -⟩ | rfl | ⟨rfl | rfl, -⟩
      · cases hb
      · cases hb
      · cases hb
      · cases hb
    · obtain ⟨r, hr, -⟩ := reads_text_iff.1 hlead
      exact hshift (b := '<') rfl hr
    · obtain ⟨r, hr, -⟩ := reads_text_iff.1 hlead
      exact hshift (b := '>') rfl hr
  · obtain ⟨r, hr, rfl, -⟩ := (reads_symbol_iff rfl).1 hequals
    obtain ⟨rfl, rfl⟩ := List.cons.inj hr
    rcases hcases with ⟨-, hcs⟩ | ha | ⟨ha, -⟩
    · have hnot := (reads_check_iff.1 hend).1
      rw [peek_between, hcs] at hnot
      cases hnot
    · cases ha
    · rcases ha with ha | ha
      · cases ha
      · cases ha

theorem not_writesPath_related (gap : Gap) (hsign : sign ∈ relationSigns)
    (hvalue : goesOn value = false) (member front : List Char) :
    writesPath member (between front (gap.chars ++ (sign.toList ++ value))) = false := by
  obtain ⟨a, cs, htext, hcases⟩ := exists_relation_eq hsign hvalue
  have ha : isBlank a = false ∧ a ≠ '(' ∧ "+-".toList.contains a = false := by
    rcases hcases with ⟨rfl, -⟩ | rfl | ⟨rfl | rfl, -⟩
    · decide
    · decide
    · decide
    · decide
  have hblank : (sign.toList ++ value).head?.any isBlank = false := by
    rw [htext]
    exact ha.1
  have hassign : assignment.Misses (between front (gap.chars ++ (sign.toList ++ value))) := by
    rintro ps d qs ⟨e, rs, ⟨e', rs', ⟨e'', rs'', hgap, hlead⟩, hequals⟩, hend⟩
    exact misses_assignment hsign hvalue _ _ _ _
      (reads_of_blanks_append gap opens_assignment hblank
        (hgap.append ((hlead.append hequals).append hend)))
  have hstep : steppedBehind.Misses (between front (gap.chars ++ (sign.toList ++ value))) := by
    intro ps d qs hreads
    have hsolid : ∀ a ∈ "+-".toList, (!isBlank a) = true := by decide
    have hsign :
        (oneOf ["++", "--"]).Reads (between (front ++ gap.chars) (sign.toList ++ value)) ps d qs :=
      reads_of_blanks_append gap
        (opens_stepSign.mono fun a ha => hsolid a (List.contains_iff_mem.1 ha)) hblank hreads
    refine opens_stepSign.misses ?_ _ _ _ _ hsign
    rw [htext]
    exact ha.2.2
  rw [writesPath, hassign.at?, hstep.at?, skipBlanks_between gap.isBlank_of_mem hblank,
    peek_between, htext, List.head?_cons]
  simp [ha.2.1]

/-! ## The target of a statement -/

section WriteTarget

variable (p : Path)

theorem head?_path (rest : List Char) : (p.chars ++ rest).head?.any isIdentStart := by
  rw [Path.chars, List.append_assoc]
  exact head?_identifier p.isIdentifier_base _

theorem nonblank_path (rest : List Char) : (p.chars ++ rest).head?.any isBlank = false := by
  rw [Path.chars, List.append_assoc]
  exact nonblank_of_identifier p.isIdentifier_base _

theorem startOf?_path {tail : List Char} (htail : tail.head?.any isWordChar = false) :
    ident.startOf? (p.chars ++ tail) = some ⟨between [] (p.chars ++ tail),
      between p.base (p.accesses.flatMap Access.chars ++ tail), []⟩ := by
  rw [startOf?, ← between_nil, Path.chars, List.append_assoc]
  exact (takes_ident p.isIdentifier_base (head?_accesses p.accesses htail) [] []).at?

variable {rest : List Char}

theorem pathEnd?_path (gap : Gap) (hrest : rest.head?.any carriesOn = false) :
    pathEnd? [] (p.chars ++ (gap.chars ++ rest))
        (between p.base (p.accesses.flatMap Access.chars ++ (gap.chars ++ rest))) =
      some (between p.chars (gap.chars ++ rest), p.member) := by
  refine pathEnd?_accesses gap hrest p.accesses [] p.base _ ?_
  have hle := length_le_length_accesses p.accesses
  simp only [Path.chars, List.length_append]
  omega

theorem misses_deletion_path (hbase : p.base ≠ "delete".toList) {tail : List Char}
    (htail : tail.head?.any isWordChar = false) :
      deletion.Misses (between [] (p.chars ++ tail)) := by
  rintro ps d qs ⟨_, _, ⟨e, rs, htext, hblanks⟩, -⟩
  obtain ⟨r, hr, rfl, rfl⟩ := reads_text_iff.1 htext
  rw [Path.chars, List.append_assoc] at hr
  exact hbase (eq_of_run_append (isWordChar_of_isIdentifier p.isIdentifier_base) (by decide)
    (head?_accesses p.accesses htail) (nonword_of_reads_blanks1 hblanks) hr).1

theorem misses_steppedAhead_path (tail : List Char) :
    steppedAhead.Misses (between [] (p.chars ++ tail)) := by
  refine (opens_stepSign.append blanks).misses ?_ []
  have hstart := head?_path p tail
  cases hc : (p.chars ++ tail).head? with
  | none => rfl
  | some c =>
    rw [hc] at hstart
    cases hsign : "+-".toList.contains c with
    | false => exact hsign
    | true =>
      have hnot : ∀ a ∈ "+-".toList, isIdentStart a = false := by decide
      rw [Option.any_some, hnot c (List.contains_iff_mem.1 hsign)] at hstart
      cases hstart

theorem textTo_path (front tail : List Char) : (between front (p.chars ++ tail)).textTo
    (between (front ++ p.base) (p.accesses.flatMap Access.chars ++ tail)) = p.base := by
  rw [Path.chars, List.append_assoc]
  exact textTo_between front p.base _

variable {p} (s : Scope)

/-- The target of a statement that starts with a path is told by what stands behind it. -/
theorem writeTarget_unprefixed (hbase : p.base ≠ "delete".toList) (lead gap : Gap)
    (hrest : rest.head?.any carriesOn = false) :
    s.writeTarget (lead.chars ++ (p.chars ++ (gap.chars ++ rest))) =
      if writesPath p.member (between p.chars (gap.chars ++ rest)) then
        if s.isStorage p.text then some p.text else none
      else none := by
  have htail := nonword_of_carriesOn hrest gap
  have htrim : trimLeft (lead.chars ++ (p.chars ++ (gap.chars ++ rest))) =
      p.chars ++ (gap.chars ++ rest) := by
    rw [trimLeft_append lead.isBlank_of_mem, trimLeft_of_head (nonblank_path p _)]
  have hdelete : deletion.startOf? (p.chars ++ (gap.chars ++ rest)) = none :=
    (misses_deletion_path p hbase htail).at?
  have hahead : steppedAhead.startOf? (p.chars ++ (gap.chars ++ rest)) = none :=
    (misses_steppedAhead_path p _).at?
  have hname : (between [] (p.chars ++ (gap.chars ++ rest))).textTo
      (between p.base (p.accesses.flatMap Access.chars ++ (gap.chars ++ rest))) = p.base :=
    textTo_path p [] _
  rw [writeTarget]
  simp only [htrim, hdelete, hahead, startOf?_path p htail, pathEnd?_path p gap hrest,
    Option.isSome_none, Bool.false_or, Hit.text, hname]
  rfl

theorem writeTarget_steppedAhead (lead gap gap' : Gap) (hsign : sign ∈ stepSigns)
    (hrest : rest.head?.any carriesOn = false) : s.writeTarget
      (lead.chars ++ (sign.toList ++ (gap.chars ++ (p.chars ++ (gap'.chars ++ rest))))) =
      if s.isStorage p.text then some p.text else none := by
  obtain ⟨a, hsign', ha⟩ : ∃ a, sign.toList = [a, a] ∧ "+-".toList.contains a := by
    simp only [stepSigns, List.mem_cons, List.not_mem_nil, or_false] at hsign
    rcases hsign with rfl | rfl
    · exact ⟨'+', by decide, by decide⟩
    · exact ⟨'-', by decide, by decide⟩
  have hhead : isBlank a = false ∧ (a == 'd') = false :=
    (by decide : ∀ a ∈ "+-".toList, isBlank a = false ∧ (a == 'd') = false) a
      (List.contains_iff_mem.1 ha)
  have htail := nonword_of_carriesOn hrest gap'
  generalize hstmt : sign.toList ++ (gap.chars ++ (p.chars ++ (gap'.chars ++ rest))) = stmt
  have htrim : trimLeft (lead.chars ++ stmt) = stmt := by
    rw [trimLeft_append lead.isBlank_of_mem, trimLeft_of_head]
    rw [← hstmt, hsign']
    exact hhead.1
  have hdelete : deletion.startOf? stmt = none := by
    have hopens : deletion.Opens (· == 'd') := ((opens_text rfl rfl).append _).append _
    have hmiss : deletion.Misses (between [] stmt) := by
      refine hopens.misses ?_ []
      rw [← hstmt, hsign']
      exact hhead.2
    exact hmiss.at?
  have hahead : steppedAhead.startOf? stmt = some ⟨between [] stmt,
      between (sign.toList ++ gap.chars) (p.chars ++ (gap'.chars ++ rest)), []⟩ := by
    have hgap : blanks.Takes (between sign.toList (gap.chars ++ (p.chars ++ (gap'.chars ++ rest))))
        [] (between (sign.toList ++ gap.chars) (p.chars ++ (gap'.chars ++ rest))) [] :=
      takes_stretch gap.isBlank_of_mem (nonblank_path p _) _ []
    rw [← hstmt]
    exact ((takes_stepSign hsign [] _ []).append hgap).at?
  have hname : (between [] (p.chars ++ (gap'.chars ++ rest))).textTo
      (between p.base (p.accesses.flatMap Access.chars ++ (gap'.chars ++ rest))) = p.base :=
    textTo_path p [] _
  rw [writeTarget]
  simp only [htrim, hdelete, hahead, rest_between, startOf?_path p htail,
    pathEnd?_path p gap' hrest, Option.isSome_some, Bool.true_or, if_true, Hit.text, hname]
  rfl

theorem writeTarget_deleted (lead gap gap' : Gap) (hgap : gap.chars ≠ [])
    (hrest : rest.head?.any carriesOn = false) : s.writeTarget
      (lead.chars ++ ("delete".toList ++ (gap.chars ++ (p.chars ++ (gap'.chars ++ rest))))) =
      if s.isStorage p.text then some p.text else none := by
  have htail := head?_accesses p.accesses (nonword_of_carriesOn hrest gap')
  obtain ⟨a, g, hcons⟩ := List.exists_cons_of_ne_nil hgap
  generalize hstmt : "delete".toList ++ (gap.chars ++ (p.chars ++ (gap'.chars ++ rest))) = stmt
  have htrim : trimLeft (lead.chars ++ stmt) = stmt := by
    rw [trimLeft_append lead.isBlank_of_mem, trimLeft_of_head]
    rw [← hstmt]
    rfl
  have hblanks :
      blanks1.Takes (between "delete".toList (gap.chars ++ (p.chars ++ (gap'.chars ++ rest)))) []
      (between ("delete".toList ++ gap.chars) (p.chars ++ (gap'.chars ++ rest))) [] := by
    have hblank := gap.isBlank_of_mem
    rw [hcons] at hblank ⊢
    exact takes_stretch1 hblank (nonblank_path p _) _ []
  have hname :=
    (takes_ident p.isIdentifier_base htail ("delete".toList ++ gap.chars) []).named "name"
  rw [← List.append_assoc, ← Path.chars] at hname
  have hdelete : deletion.startOf? stmt = _ :=
    hstmt ▸ (((takes_text "delete" [] _ []).append hblanks).append hname).at?
  rw [writeTarget]
  simp only [htrim, hdelete, Hit.part_cons_self, textTo_path]
  rfl

/-- A statement that writes to a path has its variable as the target where this stands for storage,
and none otherwise; one that compares the path has no target. -/
theorem writeTarget_path (p : Path) (hbase : p.base ≠ "delete".toList) (stmt : List Char) :
    (p.Writes stmt → s.writeTarget stmt = if s.isStorage p.text then some p.text else none) ∧
      (p.Relates stmt → s.writeTarget stmt = none) := by
  constructor
  · intro h
    cases h with
    | assigned lead gap hsign hvalue =>
      have hstop : ∀ sign ∈ assignmentSigns, (sign.toList ++ ['=']).head?.any (!carriesOn ·) := by
        decide
      have hrest := stops_append (hstop _ hsign)
      simp only [List.append_assoc, List.singleton_append] at hrest
      rw [writeTarget_unprefixed s hbase lead gap (hrest _),
        if_pos (writesPath_assigned gap hsign hvalue _ _)]
    | stepped lead gap hsign rest =>
      have hstop : ∀ sign ∈ stepSigns, sign.toList.head?.any (!carriesOn ·) := by decide
      rw [writeTarget_unprefixed s hbase lead gap (stops_append (hstop _ hsign) rest),
        if_pos (writesPath_stepped gap hsign _ _ rest)]
    | steppedAhead lead gap gap' hsign hrest =>
      exact writeTarget_steppedAhead s lead gap gap' hsign hrest
    | deleted lead gap gap' hgap hrest => exact writeTarget_deleted s lead gap gap' hgap hrest
    | resized lead gap hword hmember rest =>
      rw [writeTarget_unprefixed s hbase lead gap rfl, hmember,
        if_pos (writesPath_resized gap hword _ rest)]
  · rintro ⟨lead, gap, hsign, hvalue⟩
    have hstop : ∀ sign ∈ relationSigns, sign.toList.head?.any (!carriesOn ·) := by decide
    have hwrites := not_writesPath_related gap hsign hvalue p.member p.chars
    rw [writeTarget_unprefixed s hbase lead gap (stops_append (hstop _ hsign) _), hwrites]
    rfl

end WriteTarget

/-- What is paid to one of the owners. -/
def paidShare : Path where
  base := "shares".toList
  isIdentifier_base := by decide
  accesses := [.index .nothing "owners[i]".toList (by decide),
    .member .space .nothing "paid".toList (by decide)]

/-- The share is written to by a shift and compared by a relation, with `owners` in its index
local. -/
theorem writeTarget_paidShare :
    Scope.writeTarget ⟨[], ["owners"], [], []⟩ "shares[owners[i]] .paid <<= 1".toList =
      some "shares" ∧
      Scope.writeTarget ⟨[], ["owners"], [], []⟩ "shares[owners[i]] .paid <= 1".toList = none := by
  have hbase : paidShare.base ≠ "delete".toList := by decide
  have hshift : "<<" ∈ assignmentSigns := by decide
  have horder : "<=" ∈ relationSigns := by decide
  have hvalue : goesOn " 1".toList = false := by decide
  have hwrites : paidShare.Writes "shares[owners[i]] .paid <<= 1".toList :=
    .assigned .nothing .space hshift hvalue
  have hrelates : paidShare.Relates "shares[owners[i]] .paid <= 1".toList :=
    .related .nothing .space horder hvalue
  exact ⟨(writeTarget_path ⟨[], ["owners"], [], []⟩ paidShare hbase _).1 hwrites,
    (writeTarget_path ⟨[], ["owners"], [], []⟩ paidShare hbase _).2 hrelates⟩

end Scope

end ContractAudit
