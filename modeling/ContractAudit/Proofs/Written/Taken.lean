import ContractAudit.Proofs.Contract.Classify
import ContractAudit.Proofs.Written.Local
import ContractAudit.Proofs.Written.Lookalike
import ContractAudit.Proofs.Written.Variable

/-!
# What is taken for the declaration of a variable

A scan does not read declarations by their tokens. It takes a statement for the declaration of a
variable exactly if something that stands for a type is followed by a name, and this by a value or
by nothing (`localDeclaration?_eq_some_iff`). The word for storage in front of the name tells
whether that is a local variable or a reference into storage (`Lead.isStored_eq`).
-/

namespace ContractAudit

open Pattern Cursor

namespace Written

/-! ## What is read between a type and a name -/

/-- What follows a type in front of a name. -/
def leadPattern : Pattern :=
  blanks1 ++ maybe (named "place" dataLocation ++ blanks1)

theorem Space.reads_blanks1 (s : Space) (front rest : List Char) (ps : Parts) :
    blanks1.Reads (between front (s.chars ++ rest)) ps (between (front ++ s.chars) rest) ps :=
  reads_stretch1_iff.2 ⟨s.chars, rest, rfl, s.chars_ne_nil, s.isBlank_of_mem, rfl, rfl⟩

variable {front rest : List Char} {ps qs : Parts} {d : Cursor}

theorem exists_space_of_reads (h : blanks1.Reads (between front rest) ps d qs) :
    ∃ (s : Space) (r : List Char), rest = s.chars ++ r ∧ d = between (front ++ s.chars) r ∧
      qs = ps := by
  obtain ⟨w, r, rfl, hne, hw, rfl, rfl⟩ := reads_stretch1_iff.1 h
  exact ⟨⟨⟨w, hw⟩, hne⟩, r, rfl, rfl, rfl⟩

/-- The data locations are the words that are looked for. -/
theorem reads_dataLocation_iff :
    dataLocation.Reads (between front rest) ps d qs ↔ ∃ (p : Place) (r : List Char),
      rest = p.keyword.toList ++ r ∧ d = between (front ++ p.keyword.toList) r ∧ qs = ps := by
  rw [dataLocation, reads_oneOf_iff]
  constructor
  · rintro ⟨p, hp, h⟩
    simp only [List.mem_cons, List.not_mem_nil, or_false] at hp
    rcases hp with rfl | rfl | rfl
    · exact ⟨.memory, reads_text_iff.1 h⟩
    · exact ⟨.storage, reads_text_iff.1 h⟩
    · exact ⟨.calldata, reads_text_iff.1 h⟩
  · rintro ⟨p, h⟩
    refine ⟨Pattern.text p.keyword, ?_, reads_text_iff.2 h⟩
    cases p <;> simp [Place.keyword]

/-- A lead can be read. -/
theorem Lead.exists_reads (l : Lead) (front rest : List Char) (ps : Parts) :
    ∃ qs, leadPattern.Reads (between front (l.chars ++ rest)) ps
      (between (front ++ l.chars) rest) qs := by
  obtain ⟨gap, place⟩ := l
  cases place with
  | none =>
    have hchars : (Lead.mk gap none).chars = gap.chars := List.append_nil _
    rw [hchars]
    exact ⟨ps, _, _, gap.reads_blanks1 front rest ps, reads_maybe_iff.2 (Or.inr ⟨rfl, rfl⟩)⟩
  | some p =>
    obtain ⟨place, gap'⟩ := p
    have hchars : (Lead.mk gap (some (place, gap'))).chars =
      gap.chars ++ (place.keyword.toList ++ gap'.chars) := rfl
    have hgap := gap.reads_blanks1 front (place.keyword.toList ++ (gap'.chars ++ rest)) ps
    have hplace : dataLocation.Reads
        (between (front ++ gap.chars) (place.keyword.toList ++ (gap'.chars ++ rest))) ps
        (between (front ++ gap.chars ++ place.keyword.toList) (gap'.chars ++ rest)) ps :=
      reads_dataLocation_iff.2 ⟨place, _, rfl, rfl, rfl⟩
    have hspace := gap'.reads_blanks1 (front ++ gap.chars ++ place.keyword.toList) rest
    rw [hchars, List.append_assoc, List.append_assoc, ← List.append_assoc front,
      ← List.append_assoc (front ++ gap.chars)]
    exact ⟨_, hgap.append (reads_maybe_iff.2 (Or.inl ((hplace.named "place").append (hspace _))))⟩

/-- What is read between a type and a name is a lead, whose data location is kept. -/
theorem exists_lead_of_reads (h : leadPattern.Reads (between front rest) ps d qs) :
    ∃ (l : Lead) (r : List Char), rest = l.chars ++ r ∧ d = between (front ++ l.chars) r ∧
      (l.place = none ∧ qs = ps ∨ ∃ p gap c e, l.place = some (p, gap) ∧
        qs = ("place", c, e) :: ps ∧ c.textTo e = p.keyword.toList) := by
  obtain ⟨e, rs, hgap, hplace⟩ := h
  obtain ⟨gap, r, rfl, rfl, rfl⟩ := exists_space_of_reads hgap
  rcases reads_maybe_iff.1 hplace with ⟨e, rs, hplace, hspace⟩ | ⟨rfl, rfl⟩
  · obtain ⟨rs, hword, rfl⟩ := reads_named_iff.1 hplace
    obtain ⟨p, r, rfl, rfl, rfl⟩ := reads_dataLocation_iff.1 hword
    obtain ⟨gap', r, rfl, rfl, rfl⟩ := exists_space_of_reads hspace
    refine ⟨⟨gap, some (p, gap')⟩, r, by simp [Lead.chars], by simp [Lead.chars],
      Or.inr ⟨p, gap', _, _, rfl, rfl, textTo_between ..⟩⟩
  · exact ⟨⟨gap, none⟩, r, by simp [Lead.chars], by simp [Lead.chars], Or.inl ⟨rfl, rfl⟩⟩

/-! ## What is read as a name -/

/-- What a match for a declaration keeps. -/
def keptDeclaration (h : Hit) : Declared :=
  ⟨h.part "type", h.part? "place", String.ofList (h.part "name")⟩

/-- A name with what stands between it and its type. -/
def namePattern : Pattern :=
  leadPattern ++ named "name" ident

theorem Lead.exists_reads_name (l : Lead) {w : List Char} (hw : isIdentifier w)
    (front rest : List Char)
    (ps : Parts) : ∃ qs, namePattern.Reads (between front (l.chars ++ (w ++ rest))) ps
      (between (front ++ l.chars ++ w) rest) qs := by
  obtain ⟨qs, hlead⟩ := l.exists_reads front (w ++ rest) ps
  have hname : ident.Reads (between (front ++ l.chars) (w ++ rest)) qs
      (between (front ++ l.chars ++ w) rest) qs := reads_ident_iff.2 ⟨w, rest, rfl, hw, rfl, rfl⟩
  exact ⟨_, hlead.append (hname.named "name")⟩

/-- What is read behind a type is a lead and a name, and both are kept. -/
theorem exists_name_of_reads {c d : Cursor} {qs : Parts}
    (h : namePattern.Reads (between front rest) [("type", c, between front rest)] d qs) :
    ∃ (l : Lead) (w r : List Char), rest = l.chars ++ (w ++ r) ∧ isIdentifier w ∧
      d = between (front ++ l.chars ++ w) r ∧ ∀ start stop, keptDeclaration ⟨start, stop, qs⟩ =
        ⟨c.textTo (between front rest), l.place.map (·.1.keyword.toList), String.ofList w⟩ := by
  obtain ⟨e, rs, hlead, hname⟩ := h
  obtain ⟨l, r, rfl, rfl, hplace⟩ := exists_lead_of_reads hlead
  obtain ⟨rs, hident, rfl⟩ := reads_named_iff.1 hname
  obtain ⟨w, r, rfl, hw, rfl, rfl⟩ := reads_ident_iff.1 hident
  refine ⟨l, w, r, rfl, hw, rfl, fun start stop => ?_⟩
  have htype : ("type" == "place") = false := by decide
  have htype' : ("type" == "name") = false := by decide
  have hplace' : ("place" == "name") = false := by decide
  rcases hplace with ⟨hnone, rfl⟩ | ⟨p, gap, c', e', hsome, rfl, htext⟩
  · simp only [keptDeclaration, Hit.part_cons_self, Hit.part_cons_ne htype',
      Hit.part?_cons_ne hplace', textTo_between, hnone]
    rfl
  · simp only [keptDeclaration, Hit.part_cons_self, Hit.part_cons_ne htype',
      Hit.part?_cons_ne hplace', Hit.part?_cons_self, Hit.part_cons_ne htype, textTo_between, hsome,
      htext]
    rfl

/-! ### Storage -/

theorem words_gap_append (cs : List Char) : ∀ {gap : List Char}, (∀ a ∈ gap, isBlank a) →
    words (gap ++ cs) = words cs
  | [], _ => rfl
  | a :: gap, h => by
    obtain ⟨ha, hgap⟩ := List.forall_mem_cons.1 h
    have hdivided := words_append_cons ha [] (gap ++ cs)
    rw [List.nil_append] at hdivided
    rw [List.cons_append, hdivided, words_gap_append cs hgap]
    rfl

/-- The data location is the only word between a type and a name. -/
theorem Lead.words_append_chars (l : Lead) (cs : List Char) :
    words (cs ++ l.chars) = words cs ++ (l.place.map (·.1.keyword.toList)).toList := by
  obtain ⟨gap, place⟩ := l
  obtain ⟨a, gap', hgap, ha⟩ := gap.exists_cons
  have hblank : ∀ b ∈ gap', isBlank b := fun b hb => gap.isBlank_of_mem b (by simp [hgap, hb])
  rw [chars, hgap, List.cons_append, words_append_cons ha, words_gap_append _ hblank]
  cases place with
  | none => rfl
  | some p =>
    obtain ⟨p, behind⟩ := p
    obtain ⟨b, behind', hbehind, hb⟩ := behind.exists_cons
    have hblank' : ∀ c ∈ behind', isBlank c :=
      fun c hc => behind.isBlank_of_mem c (by simp [hbehind, hc])
    have hnone : words behind' = [] := by
      rw [← List.append_nil behind', words_gap_append [] hblank']
      rfl
    have hword : words p.keyword.toList = [p.keyword.toList] := by cases p <;> decide
    simp only [Option.elim_some, hbehind, words_append_cons hb, hword, hnone]
    rfl

/-- A variable is kept in storage where the word for it stands in front of the name. -/
theorem Lead.isStored_eq (l : Lead) (typeText : List Char) (name : String) :
    Declared.isStored ⟨typeText, l.place.map (·.1.keyword.toList), name⟩ =
      decide (storageWord ∈ words (typeText ++ l.chars)) := by
  rw [l.words_append_chars, Declared.isStored, Bool.eq_iff_iff, Bool.or_eq_true, beq_iff_eq,
    List.contains_iff_mem, decide_eq_true_iff, List.mem_append, Option.mem_toList, or_comm]
  rfl

/-! ### The end of a declaration -/

/-- What may follow a name. -/
def endPattern : Pattern :=
  blanks ++ oneOf ["=", Pattern.atEnd]

theorem exists_reads_endPattern_iff {ps : Parts} :
    (∃ d qs, endPattern.Reads (between front rest) ps d qs) ↔ endsName rest := by
  constructor
  · rintro ⟨d, qs, e, rs, hgap, hend⟩
    obtain ⟨gap, r, rfl, hblank, rfl, rfl⟩ := reads_stretch_iff.1 hgap
    rw [endsName, trimLeft_append hblank]
    obtain ⟨p, hp, hreads⟩ := reads_oneOf_iff.1 hend
    simp only [List.mem_cons, List.not_mem_nil, or_false] at hp
    rcases hp with rfl | rfl
    · obtain ⟨r, rfl, -⟩ := (reads_symbol_iff rfl).1 hreads
      rfl
    · obtain ⟨rfl | rfl, -⟩ := reads_atEnd_iff.1 hreads
      · rfl
      · rfl
  · intro h
    obtain ⟨gap, r, rfl, hblank, hr⟩ := exists_run_append isBlank rest
    rw [endsName, trimLeft_append hblank, trimLeft_of_head hr] at h
    have hgap : blanks.Reads (between front (gap ++ r)) ps (between (front ++ gap) r) ps :=
      reads_stretch_iff.2 ⟨gap, r, rfl, hblank, rfl, rfl⟩
    have hend : ∃ d, (oneOf ["=", Pattern.atEnd]).Reads (between (front ++ gap) r) ps d ps := by
      cases r with
      | nil =>
        exact ⟨_, reads_oneOf_iff.2 ⟨Pattern.atEnd,
          by simp, reads_atEnd_iff.2 ⟨Or.inl rfl, rfl, rfl⟩⟩⟩
      | cons a r =>
        obtain rfl : a = '=' := by simpa using h
        exact ⟨_, reads_oneOf_iff.2 ⟨Pattern.text "=",
          by simp, (reads_symbol_iff rfl).2 ⟨r, rfl, rfl, rfl⟩⟩⟩
    obtain ⟨d, hend⟩ := hend
    exact ⟨d, ps, hgap.append hend⟩

/-! ## Types -/

/-- What is read as a pair of square brackets is one. -/
theorem Brackets.exists_of_reads {qs : Parts}
    (h : TypeName.sizePattern.Reads (between front rest) [] d qs) :
    ∃ (b : Brackets) (r : List Char), rest = b.chars ++ r ∧ d = between (front ++ b.chars) r := by
  obtain ⟨e₁, ps₁, ⟨e₂, ps₂, ⟨e₃, ps₃, hgap, hopen⟩, hinside⟩, hclose⟩ := h
  obtain ⟨gap, r, rfl, hblank, rfl, rfl⟩ := reads_stretch_iff.1 hgap
  obtain ⟨r, rfl, rfl, rfl⟩ := (reads_symbol_iff (a := '[') rfl).1 hopen
  obtain ⟨inside, r, rfl, hin, rfl, rfl⟩ := reads_stretch_iff.1 hinside
  obtain ⟨r, rfl, rfl, rfl⟩ := (reads_symbol_iff (a := ']') rfl).1 hclose
  exact ⟨⟨⟨gap, hblank⟩, inside, hin⟩, r, by simp [chars], by simp [chars]⟩

namespace LooseType

/-- A type can be read. -/
theorem reads_plainType (t : LooseType) (front rest : List Char) (ps : Parts) :
    plainType.Reads (between front (t.chars ++ rest)) ps (between (front ++ t.chars) rest) ps := by
  obtain ⟨run, hhead, hrun, payable, bs⟩ := t
  obtain ⟨a, run, rfl⟩ : ∃ a cs, run = a :: cs := by
    cases run with
    | nil => cases hhead
    | cons a cs => exact ⟨a, cs, rfl⟩
  have hdotted (rest : List Char) : dotted.Reads (between front (a :: run ++ rest)) ps
      (between (front ++ a :: run) rest) ps :=
    reads_char_stretch_iff.2 ⟨a, run, rest, rfl, hhead, (List.forall_mem_cons.1 hrun).2, rfl, rfl⟩
  have hbrackets (front : List Char) := reads_many (p := TypeName.sizePattern) (f := Brackets.chars)
    (fun b (_ : b ∈ bs) => ⟨by simp [Brackets.chars],
      TypeName.takes_sizePattern b.gap.isBlank_of_mem b.inside_of_mem⟩) front rest ps
  cases payable with
  | none =>
    have hnothing (c : Cursor) : (maybe (blanks1 ++ "payable")).Reads c ps c ps :=
      reads_maybe_iff.2 (Or.inr ⟨rfl, rfl⟩)
    have htype : plainType.Reads _ _ _ _ :=
      ((hdotted (bs.flatMap Brackets.chars ++ rest)).append (hnothing _)).append (hbrackets _)
    simpa [chars, suffix] using htype
  | some s =>
    have hspace := s.reads_blanks1 (front ++ a :: run)
      ("payable".toList ++ (bs.flatMap Brackets.chars ++ rest)) ps
    have hword : (Pattern.text "payable").Reads (between (front ++ a :: run ++ s.chars)
        ("payable".toList ++ (bs.flatMap Brackets.chars ++ rest))) ps
        (between (front ++ a :: run ++ s.chars ++ "payable".toList)
          (bs.flatMap Brackets.chars ++ rest))
        ps := reads_text_iff.2 ⟨_, rfl, rfl, rfl⟩
    have htype : plainType.Reads _ _ _ _ :=
      ((hdotted _).append (reads_maybe_iff.2 (Or.inl (hspace.append hword)))).append (hbrackets _)
    simpa only [chars, suffix, Option.elim_some, List.append_assoc] using htype

/-- What is read as a type is one. -/
theorem exists_of_reads (h : plainType.Reads (between front rest) ps d qs) :
    ∃ (t : LooseType) (r : List Char), rest = t.chars ++ r ∧ d = between (front ++ t.chars) r ∧
      qs = ps := by
  have hparts : qs = ps := h.parts_eq rfl
  obtain ⟨e, rs, ⟨e', rs', hdotted, hpayable⟩, hbrackets⟩ := h
  obtain ⟨a, run, r, rfl, ha, hrun, rfl, rfl⟩ := reads_char_stretch_iff.1 hdotted
  have hall : ∀ b ∈ a :: run, isNameChar b := List.forall_mem_cons.2
    ⟨by rw [isNameChar, isWordChar_of_isIdentStart ha, Bool.true_or], hrun⟩
  rcases reads_maybe_iff.1 hpayable with ⟨e, rs, hspace, hword⟩ | ⟨rfl, rfl⟩
  · obtain ⟨s, r, rfl, rfl, rfl⟩ := exists_space_of_reads hspace
    obtain ⟨r, rfl, rfl, rfl⟩ := reads_text_iff.1 hword
    obtain ⟨bs, r, rfl, rfl⟩ := exists_flatMap_of_reads_many Brackets.exists_of_reads hbrackets
    exact ⟨⟨a :: run, ha, hall, some s, bs⟩, r,
      by simp [chars, suffix], by simp [chars, suffix], hparts⟩
  · obtain ⟨bs, r, rfl, rfl⟩ := exists_flatMap_of_reads_many Brackets.exists_of_reads hbrackets
    exact ⟨⟨a :: run, ha, hall, none, bs⟩, r,
      by simp [chars, suffix], by simp [chars, suffix], hparts⟩

/-- No blank ends a type. -/
theorem getLast?_chars (t : LooseType) : t.chars.getLast?.any isBlank = false := by
  have hadd : Additive fun cs => cs.getLast?.any isBlank = false := by
    refine ⟨rfl, fun {cs ds} hcs hds => ?_⟩
    rw [List.getLast?_append]
    cases hlast : ds.getLast? with
    | none => simpa using hcs
    | some a => simpa [hlast] using hds
  rw [chars, suffix]
  refine hadd.append ?_ (hadd.append ?_ (hadd.flatMap fun b _ => ?_))
  · refine (Option.any_eq_false _ _).2 fun a hlast => Bool.eq_false_iff.2 fun ha => ?_
    have hname := t.isNameChar_of_mem a (List.mem_of_getLast? hlast)
    rw [isNameChar_of_isBlank ha] at hname
    cases hname
  · cases t.payable with
    | none => rfl
    | some s =>
      rw [Option.elim_some, List.getLast?_append]
      rfl
  · simp only [Brackets.chars, List.getLast?_append, List.getLast?_cons]
    rfl

end LooseType

/-- The dotted name that a text starts with is its run. -/
theorem typeBase_append {run rest : List Char} (hhead : run.head?.any isIdentStart)
    (hrun : ∀ a ∈ run, isNameChar a) (hrest : rest.head?.any isNameChar = false)
    (hlast : (run ++ rest).getLast?.any isBlank = false) :
    typeBase (run ++ rest) = String.ofList run := by
  cases run with
  | nil => cases hhead
  | cons a run =>
    have htrimmed : Trimmed (a :: run ++ rest) :=
      ⟨isBlank_of_isWordChar (isWordChar_of_isIdentStart hhead), hlast⟩
    have hdotted :
        dotted.Takes (between [] (a :: (run ++ rest))) [] (between ([] ++ a :: run) rest) [] :=
      takes_char_stretch hhead (List.forall_mem_cons.1 hrun).2 hrest [] []
    rw [typeBase, htrimmed.trim_eq, startOf?, ← between_nil, List.cons_append, hdotted.at?]
    exact congrArg String.ofList (textTo_between [] (a :: run) rest)

/-- The word that a type starts with is the one that is looked at. -/
theorem StandsForType.typeBase_eq {behind first type : List Char}
    (h : StandsForType behind first type) : typeBase type = String.ofList first := by
  cases h with
  | plain t =>
    refine typeBase_append t.isIdentStart_head t.isNameChar_of_mem ?_ t.getLast?_chars
    have hhead := t.head?_suffix ⟨⟨Gap.space, by decide⟩, none⟩ []
    cases hsuffix : t.suffix with
    | nil => rfl
    | cons a cs => simpa [hsuffix] using hhead
  | mapping gap inside hfirst =>
    refine typeBase_append (by decide) (by decide) ?_ ?_
    · cases hgap : gap.chars with
      | nil => rfl
      | cons a cs => exact isNameChar_of_isBlank (gap.isBlank_of_mem a (by simp [hgap]))
    · have hend : TypeName.keyword ++ (gap.chars ++ '(' :: (inside ++ [')'])) =
          TypeName.keyword ++ (gap.chars ++ '(' :: inside) ++ [')'] := by simp
      rw [hend, List.getLast?_concat]
      rfl

/-! ## Variables -/

variable {α : Type}

theorem read_alt (p q : Pattern) (c : Cursor) (ps : Parts) (k : Cursor → Parts → Option α) :
    (alt p q).read c ps k = (p.read c ps k).or (q.read c ps k) := by
  rw [Pattern.read]
  cases p.read c ps k <;> rfl

/-- A mapping is looked for first, then another type. -/
theorem read_localPattern (c : Cursor) (ps : Parts) (k : Cursor → Parts → Option α) :
    localPattern.read c ps k =
      (mappingHead.read c ps fun d qs => (shortStretch anyChar).read d qs fun d qs =>
        (Pattern.text ")").read d qs fun d qs =>
          (namePattern ++ endPattern).read d (("type", c, d) :: qs) k).or
      (plainType.read c ps fun d qs =>
        (namePattern ++ endPattern).read d (("type", c, d) :: qs) k) := by
  have hread : localPattern.read c ps k =
    (alt (mappingHead ++ shortStretch anyChar ++ ")") (alt plainType never)).read c ps fun d qs =>
      (namePattern ++ endPattern).read d (("type", c, d) :: qs) k := rfl
  have hnever (k : Cursor → Parts → Option α) : never.read c ps k = none := rfl
  rw [hread, read_alt, read_alt, hnever, Option.or_none]
  rfl

variable {cs : List Char}

/-- Where a name follows, it is found. -/
theorem NameFollows.isSome_read (h : NameFollows cs) (front : List Char) (ps : Parts)
    {k : Cursor → Parts → Option α} (hk : ∀ d qs, (k d qs).isSome) :
    ((namePattern ++ endPattern).read (between front cs) ps k).isSome := by
  obtain ⟨l, w, tail, hw, htail, rfl⟩ := h
  obtain ⟨qs, hname⟩ := l.exists_reads_name hw front tail ps
  obtain ⟨d, rs, hend⟩ := exists_reads_endPattern_iff.2 htail
  exact isSome_read_of_reads _ (hname.append hend) (hk _ _)

/-- Behind a type, however that has been found, there is the name. -/
theorem exists_name_of_read {cs type rest : List Char} {hit : Hit} (hcs : cs = type ++ rest)
    (h : ((namePattern ++ endPattern).read (between type rest)
      [("type", between [] cs, between type rest)] fun d qs => some (Hit.mk (between [] cs) d qs)) =
        some hit) :
    ∃ (l : Lead) (w tail : List Char), isIdentifier w ∧ endsName tail ∧
      rest = l.chars ++ (w ++ tail) ∧
      keptDeclaration hit = ⟨type, l.place.map (·.1.keyword.toList), String.ofList w⟩ := by
  have htype : (between [] cs).textTo (between type rest) = type := by
    rw [hcs]
    exact textTo_between [] type rest
  obtain ⟨d, qs, ⟨e, rs, hname, hend⟩, hhit⟩ := exists_reads_of_read _ h
  obtain ⟨l, w, r, rfl, hw, rfl, hdeclared⟩ := exists_name_of_reads hname
  obtain rfl : rs = qs := (hend.parts_eq rfl).symm
  refine ⟨l, w, r, hw, exists_reads_endPattern_iff.1 ⟨d, _, hend⟩, rfl, ?_⟩
  rw [← Option.some.inj hhit, hdeclared, htype]

/-- What is found in a text is a type, a name behind it and the end of a declaration. -/
theorem exists_of_localPattern {hit : Hit} (h : localPattern.startOf? cs = some hit) :
    ∃ (first type : List Char) (l : Lead) (w tail : List Char),
      StandsForType (l.chars ++ (w ++ tail)) first type ∧ isIdentifier w ∧ endsName tail ∧
      cs = type ++ (l.chars ++ (w ++ tail)) ∧
      keptDeclaration hit = ⟨type, l.place.map (·.1.keyword.toList), String.ofList w⟩ := by
  rw [startOf?, at?, read_localPattern, Option.or_eq_some_iff, ← between_nil] at h
  rcases h with h | ⟨-, h⟩
  · obtain ⟨d, qs, ⟨e, rs, ⟨e', rs', hword, hgap⟩, hopen⟩, h⟩ := exists_reads_of_read _ h
    obtain ⟨r, hcs, rfl, rfl⟩ := reads_text_iff.1 hword
    obtain ⟨gap, r, rfl, hblank, rfl, rfl⟩ := reads_stretch_iff.1 hgap
    obtain ⟨r, rfl, rfl, rfl⟩ := (reads_symbol_iff (a := '(') rfl).1 hopen
    obtain ⟨inside, r, rfl, h, hshort⟩ := exists_shortest_of_read h
    obtain ⟨d, qs, hclose, h⟩ := exists_reads_of_read _ h
    obtain ⟨r, rfl, rfl, rfl⟩ := (reads_symbol_iff (a := ')') rfl).1 hclose
    have htype : [] ++ "mapping".toList ++ gap ++ ['('] ++ inside ++ [')'] =
        TypeName.keyword ++ (gap ++ '(' :: (inside ++ [')'])) := by
      simp only [List.nil_append, List.append_assoc, List.cons_append]
      rfl
    have htext : cs = TypeName.keyword ++ (gap ++ '(' :: (inside ++ [')'])) ++ r := by
      simp only [List.append_assoc, List.cons_append, List.nil_append]
      exact hcs
    rw [htype] at h
    obtain ⟨l, w, tail, hw, htail, rfl, hdeclared⟩ := exists_name_of_read htext h
    refine ⟨_, _, l, w, tail, .mapping ⟨gap, hblank⟩ inside fun u v hsplit hfollows => ?_, hw,
      htail, htext, hdeclared⟩
    -- A name behind an earlier bracket would have been found before.
    have hnone := hshort u (')' :: (v ++ ')' :: (l.chars ++ (w ++ tail)))) (by simp [hsplit])
      (by simp [hsplit])
    have hread {front rest : List Char} : (Pattern.text ")").Reads (between front (')' :: rest)) []
        (between (front ++ [')']) rest) [] := (reads_symbol_iff rfl).2 ⟨rest, rfl, rfl, rfl⟩
    refine Option.isSome_iff_ne_none.1 ?_ hnone
    exact isSome_read_of_reads (Pattern.text ")") hread (hfollows.isSome_read _ _ fun d qs => rfl)
  · obtain ⟨d, qs, htype, h⟩ := exists_reads_of_read _ h
    obtain ⟨t, r, rfl, rfl, rfl⟩ := LooseType.exists_of_reads htype
    obtain ⟨l, w, tail, hw, htail, rfl, hdeclared⟩ := exists_name_of_read rfl h
    exact ⟨_, _, l, w, tail, .plain t, hw, htail, rfl, hdeclared⟩

section Variable

variable {first type w tail : List Char} {l : Lead}

theorem Lead.place_eq {l' : Lead} (h : l.chars = l'.chars) :
    l.place.map (·.1.keyword.toList) = l'.place.map (·.1.keyword.toList) := by
  have hwords := l.words_append_chars []
  rw [h, l'.words_append_chars [], List.append_cancel_left_eq] at hwords
  rw [← Option.head?_toList (o := l.place.map _), ← hwords, Option.head?_toList]

/-- A text that looks like a declaration is read. -/
theorem StandsForType.isSome_startOf? (h : StandsForType (l.chars ++ (w ++ tail)) first type)
    (hw : isIdentifier w) (htail : endsName tail) :
    (localPattern.startOf? (type ++ (l.chars ++ (w ++ tail)))).isSome := by
  obtain ⟨behind, hbehind⟩ : ∃ behind, behind = l.chars ++ (w ++ tail) := ⟨_, rfl⟩
  have hfollows : NameFollows behind := ⟨l, w, tail, hw, htail, hbehind⟩
  rw [← hbehind] at h ⊢
  rw [startOf?, at?, read_localPattern, Option.isSome_or, ← between_nil, Bool.or_eq_true]
  cases h with
  | plain t =>
    exact Or.inr (isSome_read_of_reads _ (t.reads_plainType [] behind [])
      (hfollows.isSome_read _ _ fun _ _ => rfl))
  | mapping gap inside hfirst =>
    have hinside (front : List Char) : (shortStretch anyChar).Reads
        (between front (inside ++ ')' :: behind)) []
        (between (front ++ inside) (')' :: behind)) [] :=
      reads_shortStretch_iff.2 ⟨inside, _, rfl, fun _ _ => rfl, rfl, rfl⟩
    have hclose (front : List Char) : (Pattern.text ")").Reads (between front (')' :: behind)) []
        (between (front ++ [')']) behind) [] := (takes_symbol rfl front behind []).reads
    have hchars : TypeName.keyword ++ (gap.chars ++ '(' :: (inside ++ [')'])) ++ behind =
      TypeName.keyword ++ (gap.chars ++ '(' :: (inside ++ ')' :: behind)) := by
      simp only [List.append_assoc, List.cons_append, List.nil_append]
    rw [hchars]
    refine Or.inl
      (isSome_read_of_reads mappingHead (reads_mappingHead gap.isBlank_of_mem _) ?_)
    refine isSome_read_of_reads _ (hinside _)
      (isSome_read_of_reads (Pattern.text ")") (hclose _) ?_)
    exact hfollows.isSome_read _ _ fun _ _ => rfl

/-- A statement declares a variable exactly if it looks like a declaration. -/
theorem localDeclaration?_eq_some_iff {d : Declared} :
    localDeclaration? cs = some d ↔ ∃ (first type : List Char) (l : Lead) (w tail : List Char),
      StandsForType (l.chars ++ (w ++ tail)) first type ∧ String.ofList first ∉ notTypes ∧
      isIdentifier w ∧ endsName tail ∧ cs = type ++ (l.chars ++ (w ++ tail)) ∧
      d = ⟨type, l.place.map (·.1.keyword.toList), String.ofList w⟩ := by
  have hread {hit : Hit} (h : localPattern.startOf? cs = some hit) : localDeclaration? cs =
      if notTypes.contains (typeBase (keptDeclaration hit).typeText) then none else
        some (keptDeclaration hit) := by
    rw [localDeclaration?, h]
    rfl
  constructor
  · intro h
    cases hstart : localPattern.startOf? cs with
    | none =>
      rw [localDeclaration?, hstart] at h
      cases h
    | some hit =>
      obtain ⟨first, type, l, w, tail, htype, hw, htail, rfl, hdeclared⟩ :=
        exists_of_localPattern hstart
      rw [hread hstart, hdeclared, htype.typeBase_eq] at h
      split at h
      next => cases h
      next hfirst =>
        exact ⟨first, type, l, w, tail, htype,
          by simpa using hfirst, hw, htail, rfl, (Option.some.inj h).symm⟩
  · rintro ⟨first, type, l, w, tail, htype, hfirst, hw, htail, rfl, rfl⟩
    obtain ⟨hit, hstart⟩ := Option.isSome_iff_exists.1 (htype.isSome_startOf? hw htail)
    obtain ⟨first', type', l', w', tail', htype', hw', htail', hcs, hdeclared⟩ :=
      exists_of_localPattern hstart
    obtain ⟨rfl, rfl, hlead, rfl⟩ := htype.eq_of_append hw hw' htail htail' htype' hcs
    rw [hread hstart, hdeclared, htype.typeBase_eq, if_neg (by simpa using hfirst),
      Lead.place_eq hlead]

end Variable

end Written

end ContractAudit
