import ContractAudit.Proofs.Written.Taken

/-!
# Statements that are misread

A name is taken for declared by whatever statement looks like a declaration of it, alone or inside a
tuple, no more and no less (`exists_mem_declarations_iff`). A statement that is taken so and
declares nothing is misread (`Statement.Misread`). What statements do to a scope follows from what
each of them is taken for (`mem_locals_behind`, `mem_storageRefs_behind`).
-/

namespace ContractAudit

open Pattern Cursor

namespace Written

/-! ## Parts of a tuple -/

section Tuple

variable {part front w : List Char}

theorem Lead.getLast?_append (l : Lead) (cs : List Char) :
    (cs ++ l.chars).getLast?.any isBlank := by
  have hspace (s : Space) (cs : List Char) : (cs ++ s.chars).getLast?.any isBlank := by
    obtain ⟨cs', a, hchars⟩ := (List.eq_nil_or_concat s.chars).resolve_left s.chars_ne_nil
    rw [List.concat_eq_append] at hchars
    have ha : isBlank a := s.isBlank_of_mem a (by simp [hchars])
    rw [hchars, ← List.append_assoc, List.getLast?_concat]
    exact ha
  obtain ⟨gap, place⟩ := l
  cases place with
  | none =>
    rw [chars, Option.elim_none, List.append_nil]
    exact hspace gap cs
  | some p =>
    rw [chars, Option.elim_some, ← List.append_assoc, ← List.append_assoc]
    exact hspace p.2 _

/-- What is found in a part of a tuple is a name behind blanks. -/
theorem exists_of_tuplePart {hit : Hit} (hpart : Trimmed part)
    (h : tuplePartPattern.startOf? part = some hit) :
      ∃ (type : List Char) (l : Lead) (w : List Char),
      isIdentifier w ∧ part = type ++ l.chars ++ w ∧
      keptDeclaration hit = ⟨type, l.place.map (·.1.keyword.toList), String.ofList w⟩ := by
  obtain ⟨-, hreads⟩ := reads_of_at? h
  rw [← between_nil] at hreads
  obtain ⟨e₄, ps₄, ⟨e₃, ps₃, ⟨e₂, ps₂, ⟨e₁, ps₁, htype, hgap⟩, hplace⟩, hname⟩, hend⟩ := hreads
  obtain ⟨rs, hchars, rfl⟩ := reads_named_iff.1 htype
  obtain rfl : rs = [] := hchars.parts_eq rfl
  obtain ⟨type, r, rfl, rfl⟩ := hchars.exists_between
  obtain ⟨l, w, r, rfl, hw, rfl, hdeclared⟩ :=
    exists_name_of_reads ⟨_, _, ⟨_, _, hgap, hplace⟩, hname⟩
  obtain ⟨hr, -, hparts⟩ := reads_atEnd_iff.1 hend
  obtain rfl : r = [] := by
    rcases hr with rfl | rfl
    · rfl
    · have hlast := hpart.last
      rw [← List.append_assoc, ← List.append_assoc, List.getLast?_concat] at hlast
      exact absurd hlast (by decide)
  refine ⟨type, l, w, hw, by simp, ?_⟩
  obtain ⟨start, stop, qs⟩ := hit
  obtain rfl : qs = ps₄ := hparts
  rw [hdeclared, textTo_between]

/-- A name behind blanks is found in a part of a tuple. -/
theorem isSome_startOf?_tuplePart (hhead : front.head?.any isBlank = false)
    (hfront : front.getLast?.any isBlank) (hw : isIdentifier w) :
    (tuplePartPattern.startOf? (front ++ w)).isSome := by
  -- All but the last blank can be read as the type.
  obtain ⟨b, hlast, hb⟩ := (Option.any_eq_true _ _).1 hfront
  obtain ⟨type, rfl⟩ := List.getLast?_eq_some_iff.1 hlast
  obtain ⟨a, cs, rfl⟩ : ∃ a cs, type = a :: cs := by
    cases type with
    | nil =>
      rw [List.nil_append, List.head?_cons, Option.any_some, hb] at hhead
      cases hhead
    | cons a cs => exact ⟨a, cs, rfl⟩
  have htype : (char anyChar ++ shortStretch anyChar).Reads (between [] (a :: cs ++ ([b] ++ w))) []
      (between (a :: cs) ([b] ++ w)) [] :=
    ⟨_, _, reads_char_iff.2 ⟨a, _, rfl, rfl, rfl, rfl⟩,
      reads_shortStretch_iff.2 ⟨cs, _, rfl, fun _ _ => rfl, rfl, rfl⟩⟩
  have hgap (ps : Parts) :=
    (Space.mk ⟨[b], by simpa using hb⟩ (List.cons_ne_nil b [])).reads_blanks1 (a :: cs) w ps
  have hname (ps : Parts) : ident.Reads (between (a :: cs ++ [b]) w) ps
      (between (a :: cs ++ [b] ++ w) []) ps :=
    reads_ident_iff.2 ⟨w, [], (List.append_nil w).symm, hw, rfl, rfl⟩
  have hend (front : List Char) (ps : Parts) : Pattern.atEnd.Reads (between front []) ps
      (between front []) ps := reads_atEnd_iff.2 ⟨Or.inl rfl, rfl, rfl⟩
  have hreads : tuplePartPattern.Reads _ _ _ _ := ((((htype.named "type").append (hgap _)).append
    (reads_maybe_iff.2 (Or.inr ⟨rfl, rfl⟩))).append ((hname _).named "name")).append (hend _ _)
  rw [List.append_assoc, startOf?, ← between_nil]
  exact isSome_read_of_reads _ hreads rfl

/-- A part of a tuple declares the name that ends it behind a blank, and no other. -/
theorem exists_tuplePart_iff {n : Name} {stored : Bool} (hpart : Trimmed part) :
    (∃ hit, tuplePartPattern.startOf? part = some hit ∧ (keptDeclaration hit).isStored = stored ∧
        (keptDeclaration hit).name = n.text) ↔
      ∃ front, front.getLast?.any isBlank ∧ part = front ++ n.chars ∧
        decide (storageWord ∈ words front) = stored := by
  constructor
  · rintro ⟨hit, hstart, rfl, hname⟩
    obtain ⟨type, l, w, -, rfl, hdeclared⟩ := exists_of_tuplePart hpart hstart
    rw [hdeclared] at hname ⊢
    obtain rfl : w = n.chars := String.ofList_injective hname
    exact ⟨_, l.getLast?_append type, rfl, (l.isStored_eq type _).symm⟩
  · rintro ⟨front, hfront, rfl, rfl⟩
    have hhead : front.head?.any isBlank = false := by
      have hfirst := hpart.head
      cases front with
      | nil => rfl
      | cons a front => exact hfirst
    obtain ⟨hit, hstart⟩ := Option.isSome_iff_exists.1
      (isSome_startOf?_tuplePart hhead hfront n.isIdentifier_chars)
    obtain ⟨type, l, w, hw, htext, hdeclared⟩ := exists_of_tuplePart hpart hstart
    have hsolid {w : List Char} (hw : isIdentifier w) : ∀ a ∈ w, isBlank a = false := fun a ha =>
      isBlank_of_isWordChar (isWordChar_of_isIdentifier hw a ha)
    obtain ⟨rfl, rfl⟩ := eq_of_last_blank hfront (l.getLast?_append type)
      (hsolid n.isIdentifier_chars) (hsolid hw) htext
    exact ⟨hit, hstart, by rw [hdeclared]; exact l.isStored_eq type _, by rw [hdeclared]; rfl⟩

/-- The parts of a tuple are looked at if the tuple is assigned. -/
theorem tupleDeclarations_tupleChars {inner value : List Char} (gap : Gap)
    (hinner : ∀ a ∈ inner, isParen a = false) (hvalue : value.head? ≠ some '=') :
    tupleDeclarations (tupleChars inner gap value) =
      (splitTopLevel ',' inner).filterMap fun part =>
        (tuplePartPattern.startOf? part).map keptDeclaration := by
  have hopen : (Pattern.text "(").Takes
      (between [] ('(' :: (inner ++ ')' :: (gap.chars ++ '=' :: value)))) []
      (between ['('] (inner ++ ')' :: (gap.chars ++ '=' :: value))) [] := takes_symbol rfl [] _ []
  have hinside :
      (stretch (!isParen ·)).Takes (between ['('] (inner ++ ')' :: (gap.chars ++ '=' :: value))) []
      (between (['('] ++ inner) (')' :: (gap.chars ++ '=' :: value))) [] :=
    takes_stretch (by simpa using hinner) rfl _ []
  have hclose (ps : Parts) : (Pattern.text ")").Takes
      (between (['('] ++ inner) (')' :: (gap.chars ++ '=' :: value))) ps
      (between (['('] ++ inner ++ [')']) (gap.chars ++ '=' :: value)) ps := takes_symbol rfl _ _ ps
  have hgap (ps : Parts) :
      blanks.Takes (between (['('] ++ inner ++ [')']) (gap.chars ++ '=' :: value)) ps
      (between (['('] ++ inner ++ [')'] ++ gap.chars) ('=' :: value)) ps :=
    takes_stretch gap.isBlank_of_mem rfl _ ps
  have hequals (ps : Parts) : (Pattern.text "=").Takes
      (between (['('] ++ inner ++ [')'] ++ gap.chars) ('=' :: value)) ps
      (between (['('] ++ inner ++ [')'] ++ gap.chars ++ ['=']) value) ps := takes_symbol rfl _ _ ps
  have hend (front : List Char) (ps : Parts) : (notBefore "=").Takes (between front value) ps
      (between front value) ps := by
    refine takes_check ?_ ps
    cases hhead : value.head? with
    | none => simp [hhead]
    | some a =>
      have ha : a ≠ '=' := fun h => hvalue (h ▸ hhead)
      simpa [hhead] using ha
  have htuple : tuplePattern.Takes _ _ _ _ := ((((hopen.append (hinside.named "inner")).append
    (hclose _)).append (hgap _)).append (hequals _)).append (hend _ _)
  rw [tupleDeclarations, startOf?, ← between_nil, tupleChars, htuple.at?]
  simp only [Hit.part_cons_self, textTo_between]
  rfl

/-- Only a tuple that is assigned is looked at. -/
theorem exists_of_tuplePattern {cs : List Char} {hit : Hit}
    (h : tuplePattern.startOf? cs = some hit) :
    ∃ inner gap value, (∀ a ∈ inner, isParen a = false) ∧ value.head? ≠ some '=' ∧
      cs = tupleChars inner gap value := by
  obtain ⟨-, hreads⟩ := reads_of_at? h
  rw [← between_nil] at hreads
  obtain ⟨e₁, ps₁, ⟨e₂, ps₂, ⟨e₃, ps₃, ⟨e₄, ps₄, ⟨e₅, ps₅, hopen, hinner⟩, hclose⟩, hgap⟩, hequals⟩,
    hend⟩ := hreads
  obtain ⟨r, rfl, rfl, rfl⟩ := (reads_symbol_iff (a := '(') rfl).1 hopen
  obtain ⟨rs, hinside, rfl⟩ := reads_named_iff.1 hinner
  obtain ⟨inner, r, rfl, hall, rfl, rfl⟩ := reads_stretch_iff.1 hinside
  obtain ⟨r, rfl, rfl, rfl⟩ := (reads_symbol_iff (a := ')') rfl).1 hclose
  obtain ⟨gap, r, rfl, hblank, rfl, rfl⟩ := reads_stretch_iff.1 hgap
  obtain ⟨value, rfl, rfl, rfl⟩ := (reads_symbol_iff (a := '=') rfl).1 hequals
  refine ⟨inner, ⟨gap, hblank⟩, value, by simpa using hall, fun hhead => ?_, rfl⟩
  have hnot : (!value.head?.any "=".toList.contains) = true := (reads_check_iff.1 hend).1
  rw [hhead] at hnot
  exact absurd hnot (by decide)

end Tuple

/-! ## Statements -/

theorem StandsForType.head?_type {behind first type : List Char}
    (h : StandsForType behind first type) : type.head?.any isIdentStart := by
  cases h with
  | plain t =>
    have hhead := t.isIdentStart_head
    rw [LooseType.chars]
    cases hrun : t.run with
    | nil => simp [hrun] at hhead
    | cons a cs => simpa [hrun] using hhead
  | mapping => rfl

/-- The parts of a tuple are all that is looked at in a statement that starts with a bracket. -/
theorem declarations_tupleChars {inner value : List Char} (gap : Gap)
    (hinner : ∀ a ∈ inner, isParen a = false) (hvalue : value.head? ≠ some '=') :
    declarations (tupleChars inner gap value) =
      (splitTopLevel ',' inner).filterMap fun part =>
        (tuplePartPattern.startOf? part).map keptDeclaration := by
  have hlocal : localDeclaration? (tupleChars inner gap value) = none := by
    refine Option.eq_none_iff_forall_ne_some.2 fun d hd => ?_
    obtain ⟨first, type, l, w, tail, htype, -, -, -, hcs, -⟩ := localDeclaration?_eq_some_iff.1 hd
    have hhead := htype.head?_type
    cases type with
    | nil => cases hhead
    | cons a cs =>
      obtain ⟨rfl, -⟩ := List.cons.inj hcs
      exact absurd (show isIdentStart '(' from hhead) (by decide)
  rw [declarations, hlocal]
  exact tupleDeclarations_tupleChars gap hinner hvalue

theorem trimmed_of_mem_splitTopLevel {sep : Char} {part text : List Char}
    (h : part ∈ splitTopLevel sep text) : Trimmed part := by
  obtain ⟨hmem, -⟩ := List.mem_filter.1 h
  obtain ⟨piece, -, rfl⟩ := List.mem_map.1 hmem
  exact trimmed_trim piece

/-- A statement declares a name in storage or outside of it exactly if it looks like a declaration,
with the word for storage in front of the name or without it. -/
theorem exists_mem_declarations_iff {n : Name} {cs : List Char} {stored : Bool} :
    (∃ d ∈ declarations cs, d.isStored = stored ∧ d.name = n.text) ↔
      ∃ front, Resembles n front cs ∧ decide (storageWord ∈ words front) = stored := by
  constructor
  · rintro ⟨d, hd, rfl, hname⟩
    cases hlocal : localDeclaration? cs with
    | some d' =>
      rw [declarations, hlocal, List.mem_singleton] at hd
      obtain ⟨first, type, l, w, tail, htype, hfirst, hw, htail, rfl, rfl⟩ :=
        localDeclaration?_eq_some_iff.1 hlocal
      obtain rfl := hd
      obtain rfl : w = n.chars := String.ofList_injective hname
      exact ⟨_, .single l htype hfirst htail, (l.isStored_eq type _).symm⟩
    | none =>
      rw [declarations, hlocal] at hd
      cases htuple : tuplePattern.startOf? cs with
      | none =>
        rw [tupleDeclarations, htuple] at hd
        cases hd
      | some hit =>
        obtain ⟨inner, gap, value, hinner, hvalue, rfl⟩ := exists_of_tuplePattern htuple
        change d ∈ tupleDeclarations _ at hd
        rw [tupleDeclarations_tupleChars gap hinner hvalue] at hd
        obtain ⟨part, hpart, hd⟩ := List.mem_filterMap.1 hd
        obtain ⟨hit, hstart, rfl⟩ := Option.map_eq_some_iff.1 hd
        obtain ⟨front, hfront, rfl, hstored⟩ :=
          (exists_tuplePart_iff (trimmed_of_mem_splitTopLevel hpart)).1 ⟨hit, hstart, rfl, hname⟩
        exact ⟨front, .tuple gap hinner hvalue hfront hpart, hstored⟩
  · rintro ⟨front, h, rfl⟩
    cases h with
    | @single first type tail l htype hfirst htail =>
      have hlocal := localDeclaration?_eq_some_iff.2
        ⟨first, type, l, n.chars, tail, htype, hfirst, n.isIdentifier_chars, htail, rfl, rfl⟩
      refine ⟨_, ?_, l.isStored_eq type n.text, rfl⟩
      rw [declarations, hlocal]
      exact List.mem_singleton_self _
    | @tuple _ inner value gap hinner hvalue hfront hmem =>
      obtain ⟨hit, hstart, hdeclared⟩ :=
        (exists_tuplePart_iff (trimmed_of_mem_splitTopLevel hmem)).2 ⟨front, hfront, rfl, rfl⟩
      refine ⟨keptDeclaration hit, ?_, hdeclared⟩
      rw [declarations_tupleChars gap hinner hvalue, List.mem_filterMap]
      exact ⟨_, hmem, by rw [hstart]; rfl⟩

namespace Statement

variable {n : Name} {s : Statement}

/-- The statement is taken for one that declares the name as a local variable outside storage. -/
def MakesLocal (n : Name) (s : Statement) : Prop :=
  startsWithWord s.chars "emit" = false ∧
    ∃ front, Resembles n front s.chars ∧ storageWord ∉ words front

/-- The statement is taken for one that declares the name as a reference into storage. -/
def MakesReference (n : Name) (s : Statement) : Prop :=
  startsWithWord s.chars "emit" = false ∧
    ∃ front, Resembles n front s.chars ∧ storageWord ∈ words front

/-- The statement is taken for one that declares the name as a local variable, and it does not. -/
def Misread (n : Name) (s : Statement) : Prop :=
  s.MakesLocal n ∧ ¬s.Declares n

theorem exists_mem_declaredIn_iff {stored : Bool} :
    (∃ d ∈ Scope.declaredIn s.chars, d.isStored = stored ∧ d.name = n.text) ↔
      startsWithWord s.chars "emit" = false ∧
        ∃ front, Resembles n front s.chars ∧ decide (storageWord ∈ words front) = stored := by
  rw [← exists_mem_declarations_iff, Scope.declaredIn]
  cases startsWithWord s.chars "emit" <;> simp

theorem makesLocal_iff :
    s.MakesLocal n ↔ ∃ d ∈ Scope.declaredIn s.chars, d.isStored = false ∧ d.name = n.text := by
  rw [exists_mem_declaredIn_iff]
  simp only [MakesLocal, decide_eq_false_iff_not]

theorem makesReference_iff :
    s.MakesReference n ↔ ∃ d ∈ Scope.declaredIn s.chars, d.isStored = true ∧ d.name = n.text := by
  rw [exists_mem_declaredIn_iff]
  simp only [MakesReference, decide_eq_true_iff]

instance : Decidable (s.MakesLocal n) :=
  decidable_of_iff _ makesLocal_iff.symm

instance : Decidable (s.MakesReference n) :=
  decidable_of_iff _ makesReference_iff.symm

-- A member behind a blank is taken for a variable also in a tuple.
example : (simple "(x, s. m) = g()".toList (by decide +kernel)).MakesLocal ⟨['m'], by decide⟩ := by
  decide +kernel

end Statement

/-- The names that statements make local. -/
theorem mem_locals_behind {n : Name} {ss : List Statement} {scope : Scope} :
    n.text ∈ (scope.behind (ss.map (·.chars))).locals ↔
      n.text ∈ scope.locals ∨ ∃ s ∈ ss, s.MakesLocal n := by
  simp only [Scope.behind_eq, Scope.mem_locals_foldl_declare, Statement.makesLocal_iff]
  grind

/-- The names that statements make references into storage. -/
theorem mem_storageRefs_behind {n : Name} {ss : List Statement} {scope : Scope} :
    n.text ∈ (scope.behind (ss.map (·.chars))).storageRefs ↔
      n.text ∈ scope.storageRefs ∨ ∃ s ∈ ss, s.MakesReference n := by
  simp only [Scope.behind_eq, Scope.mem_storageRefs_foldl_declare, Statement.makesReference_iff]
  grind

end Written

end ContractAudit
