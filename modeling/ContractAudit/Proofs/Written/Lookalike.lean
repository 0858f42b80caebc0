import ContractAudit.Proofs.Written.Path

/-!
# What looks like a declaration

A statement can look like the declaration of a name without being one : there is a text that may
stand for a type, then blanks and the name, then the end or a value (`Resembles`). The type need not
be one, so that words and dots in any order stand for it. Such a text is cut into its type, its name
and what is between them in one way only (`StandsForType.eq_of_append`).
-/

namespace ContractAudit

namespace Written

/-! ## Looking like a declaration -/

/-- Blanks, at least one. -/
structure Space extends Gap where
  chars_ne_nil : chars ≠ []

/-- Square brackets around anything that does not close them. -/
structure Brackets where
  gap : Gap
  inside : List Char
  inside_of_mem : ∀ a ∈ inside, (a != ']') = true

/-- The text of square brackets, with the blanks in front of them. -/
def Brackets.chars (b : Brackets) : List Char :=
  b.gap.chars ++ '[' :: (b.inside ++ [']'])

/-- A text that can stand for a type : word characters and dots in any order behind a letter, then
perhaps the word for an address that can be paid, and square brackets. -/
structure LooseType where
  run : List Char
  isIdentStart_head : run.head?.any isIdentStart
  isNameChar_of_mem : ∀ a ∈ run, isNameChar a
  payable : Option Space
  brackets : List Brackets

namespace LooseType

/-- The text behind the run of a type. -/
def suffix (t : LooseType) : List Char :=
  (t.payable.elim [] fun gap => gap.chars ++ "payable".toList) ++ t.brackets.flatMap Brackets.chars

/-- The text of a type. -/
def chars (t : LooseType) : List Char :=
  t.run ++ t.suffix

end LooseType

/-- What stands between a type and a name : blanks, perhaps with a data location among them. -/
structure Lead where
  gap : Space
  place : Option (Place × Space)

/-- The text between a type and a name. -/
def Lead.chars (l : Lead) : List Char :=
  l.gap.chars ++ l.place.elim [] fun p => p.1.keyword.toList ++ p.2.chars

/-- Does a declaration end, or its value follow, where the text starts? -/
def endsName (cs : List Char) : Bool :=
  (trimLeft cs).head?.all (· == '=')

/-- A name follows behind blanks, as in a declaration. -/
def NameFollows (cs : List Char) : Prop :=
  ∃ (l : Lead) (w tail : List Char), isIdentifier w ∧ endsName tail ∧ cs = l.chars ++ (w ++ tail)

/-- The text stands for a type in front of `behind` : one that starts with the run `first`, or a
mapping, which ends with the first bracket behind which a name follows. -/
inductive StandsForType (behind : List Char) : (first type : List Char) → Prop
  | plain (t : LooseType) : StandsForType behind t.run t.chars
  | mapping (gap : Gap) (inside : List Char)
    (hfirst : ∀ u v, inside = u ++ ')' :: v → ¬NameFollows (v ++ ')' :: behind)) :
    StandsForType behind TypeName.keyword
      (TypeName.keyword ++ (gap.chars ++ '(' :: (inside ++ [')'])))

/-- The text of a tuple to which a value is assigned. -/
def tupleChars (inner : List Char) (gap : Gap) (value : List Char) : List Char :=
  '(' :: (inner ++ ')' :: (gap.chars ++ '=' :: value))

/-- The text looks like a declaration of the name, with `front` in front of it : as a variable whose
type does not start as another statement does, or as a part of a tuple that is assigned. -/
inductive Resembles (n : Name) : (front cs : List Char) → Prop
  | single {first type tail : List Char} (l : Lead)
    (htype : StandsForType (l.chars ++ (n.chars ++ tail)) first type)
    (hfirst : String.ofList first ∉ notTypes) (htail : endsName tail) :
    Resembles n (type ++ l.chars) (type ++ (l.chars ++ (n.chars ++ tail)))
  | tuple {front inner value : List Char} (gap : Gap) (hinner : ∀ a ∈ inner, isParen a = false)
    (hvalue : value.head? ≠ some '=') (hfront : front.getLast?.any isBlank)
    (hmem : front ++ n.chars ∈ splitTopLevel ',' inner) :
    Resembles n front (tupleChars inner gap value)

/-- The word that marks what is kept in storage. -/
def storageWord : List Char :=
  "storage".toList

/-! ## One way to look like a declaration -/

section Unique

variable {w w' tail tail' : List Char}

theorem Space.exists_cons (s : Space) : ∃ a cs, s.chars = a :: cs ∧ isBlank a := by
  obtain ⟨a, cs, h⟩ := List.exists_cons_of_ne_nil s.chars_ne_nil
  exact ⟨a, cs, h, s.isBlank_of_mem a (by simp [h])⟩

theorem trimLeft_gap (gap : Gap) (cs : List Char) : trimLeft (gap.chars ++ cs) = trimLeft cs :=
  trimLeft_append gap.isBlank_of_mem cs

theorem nonword_of_endsName (h : endsName tail) : tail.head?.any isWordChar = false := by
  obtain ⟨gap, r, rfl, hgap, hr⟩ := exists_run_append isBlank tail
  rw [endsName, trimLeft_append hgap, trimLeft_of_head hr] at h
  refine nonword_of_blanks hgap ?_
  cases r with
  | nil => rfl
  | cons a r =>
    obtain rfl : a = '=' := by simpa using h
    rfl

theorem isIdentifier_keyword (p : Place) : isIdentifier p.keyword.toList := by
  cases p <;> decide

/-- May the character stand behind the run of a type, at its brackets or at a word? -/
def goesOnType (a : Char) : Bool :=
  isIdentStart a || a == '['

theorem endsName_of_head {cs : List Char} (h : (trimLeft cs).head?.any goesOnType) :
    endsName cs = false := by
  rw [endsName]
  cases hhead : (trimLeft cs).head? with
  | none => simp [hhead] at h
  | some a =>
    have ha : a ≠ '=' := fun heq => by
      rw [hhead, heq] at h
      exact absurd h (by decide)
    simpa using ha

theorem head?_trimLeft_word (gap : Gap) (hw : isIdentifier w) (rest : List Char) :
    (trimLeft (gap.chars ++ (w ++ rest))).head?.any isIdentStart := by
  rw [trimLeft_gap, trimLeft_of_head (nonblank_of_identifier hw rest)]
  exact head?_identifier hw rest

theorem goesOnType_of_isIdentStart {o : Option Char} (h : o.any isIdentStart) :
    o.any goesOnType := by
  cases o with
  | none => cases h
  | some a => exact Bool.or_eq_true_iff.2 (Or.inl h)

/-- The same words behind the same blanks. -/
theorem Space.eq_of_append (s s' : Space) (hw : isIdentifier w) (hw' : isIdentifier w')
    (htail : tail.head?.any isWordChar = false) (htail' : tail'.head?.any isWordChar = false)
    (h : s.chars ++ (w ++ tail) = s'.chars ++ (w' ++ tail')) :
    s.chars = s'.chars ∧ w = w' ∧ tail = tail' := by
  obtain ⟨hgap, hword⟩ := eq_of_run_append s.isBlank_of_mem s'.isBlank_of_mem
    (nonblank_of_identifier hw tail) (nonblank_of_identifier hw' tail') h
  exact ⟨hgap, eq_of_run_append (isWordChar_of_isIdentifier hw) (isWordChar_of_isIdentifier hw')
    htail htail' hword⟩

theorem Space.nonword (s : Space) (rest : List Char) :
    (s.chars ++ rest).head?.any isWordChar = false := by
  obtain ⟨a, cs, h, ha⟩ := s.exists_cons
  rw [h]
  exact isWordChar_of_isBlank ha

/-- The name behind a lead is found in one way. -/
theorem Lead.eq_of_append {l l' : Lead} (hw : isIdentifier w) (hw' : isIdentifier w')
    (htail : endsName tail) (htail' : endsName tail')
    (h : l.chars ++ (w ++ tail) = l'.chars ++ (w' ++ tail')) :
    l.chars = l'.chars ∧ w = w' ∧ tail = tail' := by
  obtain ⟨gap, place⟩ := l
  obtain ⟨gap', place'⟩ := l'
  have hend := nonword_of_endsName htail
  have hend' := nonword_of_endsName htail'
  cases place with
  | none =>
    cases place' with
    | none =>
      obtain ⟨hgap, hword⟩ := gap.eq_of_append gap' hw hw' hend hend' (by simpa [chars] using h)
      exact ⟨by simpa [chars] using hgap, hword⟩
    | some p =>
      obtain ⟨-, -, rfl⟩ := gap.eq_of_append gap' hw (isIdentifier_keyword p.1) hend
        (p.2.nonword (w' ++ tail')) (by simpa [chars] using h)
      rw [endsName_of_head
        (goesOnType_of_isIdentStart (head?_trimLeft_word p.2.toGap hw' tail'))] at htail
      cases htail
  | some p =>
    cases place' with
    | none =>
      obtain ⟨-, -, rfl⟩ := gap.eq_of_append gap' (isIdentifier_keyword p.1) hw'
        (p.2.nonword (w ++ tail)) hend' (by simpa [chars] using h)
      rw [endsName_of_head
        (goesOnType_of_isIdentStart (head?_trimLeft_word p.2.toGap hw tail))] at htail'
      cases htail'
    | some p' =>
      obtain ⟨hgap, hplace, hrest⟩ := gap.eq_of_append gap' (isIdentifier_keyword p.1)
        (isIdentifier_keyword p'.1) (p.2.nonword (w ++ tail)) (p'.2.nonword (w' ++ tail'))
        (by simpa [chars] using h)
      obtain ⟨hgap', hword⟩ := p.2.eq_of_append p'.2 hw hw' hend hend' hrest
      exact ⟨by simp only [chars, Option.elim_some, hgap, hplace, hgap'], hword⟩

/-- Square brackets are found in one way, up to a text that starts with none. -/
theorem Brackets.eq_of_append {r r' : List Char} (hr : (trimLeft r).head? ≠ some '[')
    (hr' : (trimLeft r').head? ≠ some '[') : ∀ {bs bs' : List Brackets},
      bs.flatMap chars ++ r = bs'.flatMap chars ++ r' →
        bs.flatMap chars = bs'.flatMap chars ∧ r = r' := by
  have htrim (b : Brackets) (rest : List Char) : (trimLeft (b.chars ++ rest)).head? = some '[' := by
    rw [chars, List.append_assoc, trimLeft_gap]
    rfl
  intro bs
  induction bs with
  | nil =>
    intro bs' h
    cases bs' with
    | nil => exact ⟨rfl, h⟩
    | cons b bs' =>
      rw [List.flatMap_nil, List.nil_append, List.flatMap_cons, List.append_assoc] at h
      exact absurd (h ▸ htrim b _) hr
  | cons b bs ih =>
    intro bs' h
    cases bs' with
    | nil =>
      rw [List.flatMap_nil, List.nil_append, List.flatMap_cons, List.append_assoc] at h
      exact absurd (h ▸ htrim b _) hr'
    | cons b' bs' =>
      simp only [List.flatMap_cons, chars, List.append_assoc, List.cons_append,
        List.nil_append] at h
      obtain ⟨hgap, hopen⟩ := eq_of_run_append b.gap.isBlank_of_mem b'.gap.isBlank_of_mem rfl rfl h
      obtain ⟨hin, hclose⟩ :=
        eq_of_run_append b.inside_of_mem b'.inside_of_mem rfl rfl (List.cons.inj hopen).2
      obtain ⟨hbs, hrest⟩ := ih (List.cons.inj hclose).2
      exact ⟨by simp only [List.flatMap_cons, chars, hgap, hin, hbs], hrest⟩

theorem head?_trimLeft_lead (l : Lead) (hw : isIdentifier w) (rest : List Char) :
    (trimLeft (l.chars ++ (w ++ rest))).head?.any isIdentStart := by
  obtain ⟨gap, place⟩ := l
  cases place with
  | none =>
    rw [Lead.chars, Option.elim_none, List.append_nil]
    exact head?_trimLeft_word gap.toGap hw rest
  | some p =>
    rw [Lead.chars, Option.elim_some, List.append_assoc, List.append_assoc]
    exact head?_trimLeft_word gap.toGap (isIdentifier_keyword p.1) _

theorem isNameChar_of_isBlank {a : Char} (ha : isBlank a) : isNameChar a = false := by
  have hdot : a ≠ '.' := fun h => absurd (h ▸ ha) (by decide)
  simp [isNameChar, isWordChar_of_isBlank ha, hdot]

section Behind

variable (bs : List Brackets) (l : Lead) (hw : isIdentifier w)

/-- The run of a type ends in front of brackets and blanks. -/
theorem head?_brackets (rest : List Char) :
    (bs.flatMap Brackets.chars ++ (l.chars ++ rest)).head?.any isNameChar = false := by
  cases bs with
  | nil =>
    obtain ⟨a, cs, h, ha⟩ := l.gap.exists_cons
    rw [List.flatMap_nil, Lead.chars, h]
    exact isNameChar_of_isBlank ha
  | cons b bs =>
    rw [List.flatMap_cons, Brackets.chars, List.append_assoc, List.append_assoc]
    cases hgap : b.gap.chars with
    | nil => rfl
    | cons a gap => exact isNameChar_of_isBlank (b.gap.isBlank_of_mem a (by simp [hgap]))

include hw

/-- Brackets or a word follow the first blanks. -/
theorem head?_trimLeft_brackets (rest : List Char) :
    (trimLeft (bs.flatMap Brackets.chars ++ (l.chars ++ (w ++ rest)))).head?.any goesOnType := by
  cases bs with
  | nil => exact goesOnType_of_isIdentStart (head?_trimLeft_lead l hw rest)
  | cons b bs =>
    rw [List.flatMap_cons, Brackets.chars, List.append_assoc, List.append_assoc, trimLeft_gap]
    rfl

end Behind

/-- The word for an address that can be paid is no name : more than the end of a declaration
follows. -/
theorem payable_ne {s : Space} {bs bs' : List Brackets} {l l' : Lead} (hw : isIdentifier w)
    (hw' : isIdentifier w') (htail' : endsName tail') :
    s.chars ++ ("payable".toList ++ (bs.flatMap Brackets.chars ++ (l.chars ++ (w ++ tail)))) ≠
      bs'.flatMap Brackets.chars ++ (l'.chars ++ (w' ++ tail')) := by
  intro h
  obtain ⟨rest, hrest⟩ : ∃ rest, rest = bs.flatMap Brackets.chars ++ (l.chars ++ (w ++ tail)) :=
    ⟨_, rfl⟩
  have hnonword : rest.head?.any isWordChar = false := by
    have hrun := head?_brackets bs l (w ++ tail)
    rw [← hrest] at hrun
    cases rest with
    | nil => rfl
    | cons a rest => exact (Bool.or_eq_false_iff.1 hrun).1
  have hends : endsName rest = false :=
    hrest ▸ endsName_of_head (head?_trimLeft_brackets bs l hw tail)
  have hword : isIdentifier "payable".toList := by decide
  rw [← hrest] at h
  cases bs' with
  | nil =>
    rw [List.flatMap_nil, List.nil_append] at h
    obtain ⟨gap, place⟩ := l'
    cases place with
    | none =>
      obtain ⟨-, -, rfl⟩ := s.eq_of_append gap hword hw' hnonword
        (nonword_of_endsName htail') (by simpa [Lead.chars] using h)
      rw [hends] at htail'
      cases htail'
    | some p =>
      rw [Lead.chars, Option.elim_some, List.append_assoc, List.append_assoc] at h
      obtain ⟨-, hplace, -⟩ := s.eq_of_append gap hword (isIdentifier_keyword p.1) hnonword
        (p.2.nonword _) h
      have hne : "payable".toList ≠ p.1.keyword.toList := by cases p.1 <;> decide
      exact hne hplace
  | cons b bs' =>
    have htrim := congrArg (fun cs => (trimLeft cs).head?) h
    rw [List.flatMap_cons, Brackets.chars, List.append_assoc, List.append_assoc] at htrim
    simp only [trimLeft_gap, trimLeft_of_head (nonblank_of_identifier hword rest)] at htrim
    exact absurd (show some 'p' = some '[' from htrim) (by decide)

namespace LooseType

variable {t t' : LooseType} {l l' : Lead} (hw : isIdentifier w) (hw' : isIdentifier w')
  (htail : endsName tail) (htail' : endsName tail')

include hw hw' htail htail'

theorem suffix_eq_of_append
    (h : t.suffix ++ (l.chars ++ (w ++ tail)) = t'.suffix ++ (l'.chars ++ (w' ++ tail'))) :
    t.suffix = t'.suffix ∧ l.chars ++ (w ++ tail) = l'.chars ++ (w' ++ tail') := by
  have hopens {l : Lead} {w : List Char} (hw : isIdentifier w) (tail : List Char) :
      (trimLeft (l.chars ++ (w ++ tail))).head? ≠ some '[' := fun heq => by
    have hhead := head?_trimLeft_lead l hw tail
    rw [heq] at hhead
    exact absurd hhead (by decide)
  obtain ⟨run, hhead, hrun, payable, bs⟩ := t
  obtain ⟨run', hhead', hrun', payable', bs'⟩ := t'
  simp only [suffix] at h ⊢
  cases payable with
  | none =>
    cases payable' with
    | none => exact Brackets.eq_of_append (hopens hw tail) (hopens hw' tail') h
    | some s =>
      rw [Option.elim_some, Option.elim_none, List.nil_append, List.append_assoc,
        List.append_assoc] at h
      exact absurd h.symm (payable_ne hw' hw htail)
  | some s =>
    cases payable' with
    | none =>
      rw [Option.elim_some, Option.elim_none, List.nil_append, List.append_assoc,
        List.append_assoc] at h
      exact absurd h (payable_ne hw hw' htail')
    | some s' =>
      simp only [Option.elim_some, List.append_assoc] at h
      obtain ⟨hgap, hrest⟩ := eq_of_run_append s.isBlank_of_mem s'.isBlank_of_mem rfl rfl h
      obtain ⟨hbs, hname⟩ := Brackets.eq_of_append (hopens hw tail) (hopens hw' tail')
        (List.append_cancel_left hrest)
      exact ⟨by simp only [Option.elim_some, hgap, hbs], hname⟩

omit hw hw' htail htail'

/-- The run of a type ends where it does not go on. -/
theorem head?_suffix (t : LooseType) (l : Lead) (rest : List Char) :
    (t.suffix ++ (l.chars ++ rest)).head?.any isNameChar = false := by
  obtain ⟨run, hhead, hrun, payable, bs⟩ := t
  cases payable with
  | none => exact head?_brackets bs l rest
  | some s =>
    obtain ⟨a, cs, h, ha⟩ := s.exists_cons
    rw [suffix, Option.elim_some, h]
    exact isNameChar_of_isBlank ha

include hw hw' htail htail'

/-- The type, the name and what is between them are found in one way. -/
theorem eq_of_append
    (h : t.chars ++ (l.chars ++ (w ++ tail)) = t'.chars ++ (l'.chars ++ (w' ++ tail'))) :
    t.run = t'.run ∧ t.chars = t'.chars ∧ l.chars = l'.chars ∧ w = w' := by
  rw [chars, chars, List.append_assoc, List.append_assoc] at h
  obtain ⟨hrun, hbehind⟩ := eq_of_run_append t.isNameChar_of_mem t'.isNameChar_of_mem
    (t.head?_suffix l _) (t'.head?_suffix l' _) h
  obtain ⟨hsuffix, hname⟩ := suffix_eq_of_append hw hw' htail htail' hbehind
  obtain ⟨hlead, hword, -⟩ := Lead.eq_of_append hw hw' htail htail' hname
  exact ⟨hrun, by rw [chars, chars, hrun, hsuffix], hlead, hword⟩

end LooseType

theorem LooseType.head?_trimLeft_suffix (t : LooseType) (l : Lead) (hw : isIdentifier w)
    (rest : List Char) :
      (trimLeft (t.suffix ++ (l.chars ++ (w ++ rest)))).head?.any goesOnType := by
  obtain ⟨run, hhead, hrun, payable, bs⟩ := t
  cases payable with
  | none => exact head?_trimLeft_brackets bs l hw rest
  | some s =>
    rw [suffix, Option.elim_some, List.append_assoc, List.append_assoc]
    exact goesOnType_of_isIdentStart (head?_trimLeft_word s.toGap (by decide) _)

/-- No plain type stands in front of a bracket. -/
theorem LooseType.chars_append_ne (t : LooseType) (l : Lead) (hw : isIdentifier w) (gap : Gap)
    (rest : List Char) : t.chars ++ (l.chars ++ (w ++ tail)) ≠
      TypeName.keyword ++ (gap.chars ++ '(' :: rest) := by
  intro h
  have hparen : (gap.chars ++ '(' :: rest).head?.any isNameChar = false := by
    cases hgap : gap.chars with
    | nil => rfl
    | cons a cs => exact isNameChar_of_isBlank (gap.isBlank_of_mem a (by simp [hgap]))
  rw [chars, List.append_assoc] at h
  obtain ⟨-, hbehind⟩ :=
    eq_of_run_append t.isNameChar_of_mem (by decide) (t.head?_suffix l _) hparen h
  have hhead := t.head?_trimLeft_suffix l hw tail
  rw [hbehind, trimLeft_gap] at hhead
  exact absurd (show goesOnType '(' from hhead) (by decide)

variable {l l' : Lead} {first first' type type' : List Char}

/-- A mapping ends at one place. -/
theorem length_le_of_first {inside inside' behind behind' : List Char}
    (h : inside ++ ')' :: behind = inside' ++ ')' :: behind') (hname : NameFollows behind)
    (hfirst' : ∀ u v, inside' = u ++ ')' :: v → ¬NameFollows (v ++ ')' :: behind')) :
    inside'.length ≤ inside.length := by
  refine Nat.le_of_not_lt fun hlt => ?_
  rcases List.append_eq_append_iff.1 h with ⟨u, hinside, hbehind⟩ | ⟨u, rfl, -⟩
  · cases u with
    | nil => simp [hinside] at hlt
    | cons a u =>
      obtain ⟨rfl, rfl⟩ := List.cons.inj hbehind
      exact hfirst' inside u hinside hname
  · rw [List.length_append] at hlt
    omega

/-- The type, the name and what is between them are found in one way. -/
theorem StandsForType.eq_of_append (hw : isIdentifier w) (hw' : isIdentifier w')
    (htail : endsName tail) (htail' : endsName tail')
    (htype : StandsForType (l.chars ++ (w ++ tail)) first type)
    (htype' : StandsForType (l'.chars ++ (w' ++ tail')) first' type')
    (h : type ++ (l.chars ++ (w ++ tail)) = type' ++ (l'.chars ++ (w' ++ tail'))) :
    first = first' ∧ type = type' ∧ l.chars = l'.chars ∧ w = w' := by
  cases htype with
  | plain t =>
    cases htype' with
    | plain t' => exact LooseType.eq_of_append hw hw' htail htail' h
    | mapping gap inside hfirst =>
      simp only [List.append_assoc, List.cons_append] at h
      exact absurd h (t.chars_append_ne l hw gap _)
  | mapping gap inside hfirst =>
    cases htype' with
    | plain t =>
      simp only [List.append_assoc, List.cons_append] at h
      exact absurd h.symm (t.chars_append_ne l' hw' gap _)
    | mapping gap' inside' hfirst' =>
      simp only [List.append_assoc, List.cons_append, List.nil_append] at h
      obtain ⟨hgap, hopen⟩ := eq_of_run_append gap.isBlank_of_mem gap'.isBlank_of_mem rfl rfl
        (List.append_cancel_left h)
      have hinside := (List.cons.inj hopen).2
      have hlen : inside.length = inside'.length := Nat.le_antisymm
        (length_le_of_first hinside.symm ⟨l', w', tail', hw', htail', rfl⟩ hfirst)
        (length_le_of_first hinside ⟨l, w, tail, hw, htail, rfl⟩ hfirst')
      obtain ⟨rfl, hclose⟩ := List.append_inj hinside hlen
      obtain ⟨hlead, hword, -⟩ := Lead.eq_of_append hw hw' htail htail' (List.cons.inj hclose).2
      exact ⟨rfl, by rw [hgap], hlead, hword⟩

end Unique

end Written

end ContractAudit
