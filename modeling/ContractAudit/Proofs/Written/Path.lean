import ContractAudit.Proofs.Written.Declaration

/-!
# Paths

A `Written.Path` is a variable with the members and elements that are reached from it, one behind
the other, and blanks wherever they may stand. The reader of a statement passes over the whole path
(`Scope.pathEnd?_accesses`), so what it finds out depends on what stands behind the path, and on
`++`, `--` or `delete` in front of it. `Path.Writes` are the statements that write to a path,
`Path.Relates` those that compare it with something.
-/

namespace ContractAudit

open Pattern Cursor

variable {rest : List Char}

namespace Written

/-! ## Paths -/

/-- Blanks between two parts of a statement. -/
structure Gap where
  chars : List Char
  isBlank_of_mem : ∀ a ∈ chars, isBlank a

/-- The empty gap. -/
def Gap.nothing : Gap :=
  ⟨[], List.forall_mem_nil _⟩

/-- The gap of one space. -/
def Gap.space : Gap :=
  ⟨[' '], by decide⟩

theorem Gap.takes_blanks1 (gap : Gap) (hgap : gap.chars ≠ [])
    (hrest : rest.head?.any isBlank = false) (front : List Char) (ps : Parts) :
    blanks1.Takes (between front (gap.chars ++ rest)) ps
      (between (front ++ gap.chars) rest) ps := by
  obtain ⟨a, w, hcons⟩ := List.exists_cons_of_ne_nil hgap
  have hblank := gap.isBlank_of_mem
  rw [hcons] at hblank ⊢
  exact takes_stretch1 hblank hrest front ps

/-- A step from a variable to a part of it. -/
inductive Access where
  | member (before after : Gap) (name : List Char) (isIdentifier_name : isIdentifier name)
  | index (before : Gap) (inside : List Char) (balanced : level '[' ']' 0 inside = some 0)

namespace Access

/-- The access as it is written. -/
def chars : Access → List Char
  | member before after name _ => before.chars ++ '.' :: (after.chars ++ name)
  | index before inside _ => before.chars ++ '[' :: (inside ++ [']'])

/-- The member that is reached, nothing for an element. -/
def name : Access → List Char
  | member _ _ name _ => name
  | index _ _ _ => []

end Access

/-- A name with accesses to members and elements behind. -/
structure Path where
  base : List Char
  isIdentifier_base : isIdentifier base
  accesses : List Access

/-- The member that the last step reaches, from one that is reached before. -/
def lastMember (member : List Char) : List Access → List Char
  | [] => member
  | a :: as => lastMember a.name as

namespace Path

/-- The path as it is written. -/
def chars (p : Path) : List Char :=
  p.base ++ p.accesses.flatMap Access.chars

/-- The name the path starts with, as a text. -/
def text (p : Path) : String :=
  String.ofList p.base

/-- The last member the path names, empty if it names none. -/
def member (p : Path) : List Char :=
  lastMember [] p.accesses

end Path

/-- Would the character carry on a path that it stands behind? -/
def carriesOn (a : Char) : Bool :=
  isBlank a || isWordChar a || a == '[' || a == '.'

/-! ## Statements about a path -/

/-- The signs of assignments without the `=` at their end. -/
def assignmentSigns : List String :=
  ["", "+", "-", "*", "/", "%", "|", "&", "^", "<<", ">>"]

/-- The signs that step a number up or down. -/
def stepSigns : List String :=
  ["++", "--"]

/-- The signs that compare, and the arrow; none of them assigns. -/
def relationSigns : List String :=
  ["==", "!=", "<", "<=", ">", ">=", "=>"]

/-- The members of an array that change its length. -/
def lengthWords : List String :=
  ["push", "pop"]

/-- Does the text go on with a sign of equality or order? -/
def goesOn (value : List Char) : Bool :=
  value.head?.any "=<>".toList.contains

/-- The statements that write to a path. Blanks stand in front of them and between their parts. -/
inductive Path.Writes (p : Path) : List Char → Prop
  | assigned (lead gap : Gap) {sign : String} (hsign : sign ∈ assignmentSigns) {value : List Char}
      (hvalue : goesOn value = false) :
      p.Writes (lead.chars ++ (p.chars ++ (gap.chars ++ (sign.toList ++ '=' :: value))))
  | stepped (lead gap : Gap) {sign : String} (hsign : sign ∈ stepSigns) (rest : List Char) :
      p.Writes (lead.chars ++ (p.chars ++ (gap.chars ++ (sign.toList ++ rest))))
  | steppedAhead (lead gap gap' : Gap) {sign : String} (hsign : sign ∈ stepSigns) {rest : List Char}
      (hrest : rest.head?.any carriesOn = false) :
      p.Writes (lead.chars ++ (sign.toList ++ (gap.chars ++ (p.chars ++ (gap'.chars ++ rest)))))
  | deleted (lead gap gap' : Gap) (hgap : gap.chars ≠ []) {rest : List Char}
      (hrest : rest.head?.any carriesOn = false) :
      p.Writes (lead.chars ++ ("delete".toList ++ (gap.chars ++ (p.chars ++ (gap'.chars ++ rest)))))
  | resized (lead gap : Gap) {word : String} (hword : word ∈ lengthWords)
      (hmember : p.member = word.toList)
      (rest : List Char) : p.Writes (lead.chars ++ (p.chars ++ (gap.chars ++ '(' :: rest)))

/-- The statements that compare a path with something. -/
inductive Path.Relates (p : Path) : List Char → Prop
  | related (lead gap : Gap) {sign : String} (hsign : sign ∈ relationSigns) {value : List Char}
      (hvalue : goesOn value = false) :
      p.Relates (lead.chars ++ (p.chars ++ (gap.chars ++ (sign.toList ++ value))))

theorem Access.head?_chars (a : Access) (rest : List Char) :
    (a.chars ++ rest).head?.any isWordChar = false := by
  cases a with
  | member before after name hname =>
    rw [chars, List.append_assoc]
    exact nonword_of_blanks before.isBlank_of_mem rfl
  | index before inside hinside =>
    rw [chars, List.append_assoc]
    exact nonword_of_blanks before.isBlank_of_mem rfl

theorem Access.chars_ne_nil (a : Access) : a.chars ≠ [] := by
  cases a <;> simp [chars]

theorem head?_accesses (as : List Access) (hrest : rest.head?.any isWordChar = false) :
    (as.flatMap Access.chars ++ rest).head?.any isWordChar = false := by
  cases as with
  | nil => exact hrest
  | cons a as =>
    rw [List.flatMap_cons, List.append_assoc]
    exact a.head?_chars _

theorem length_le_length_accesses (as : List Access) :
    as.length ≤ (as.flatMap Access.chars).length := by
  induction as with
  | nil => exact Nat.le_refl 0
  | cons a as ih =>
    have hpos := List.length_pos_iff.2 a.chars_ne_nil
    rw [List.flatMap_cons, List.length_append, List.length_cons]
    omega

theorem head?_identifier {w : List Char} (hw : isIdentifier w) (rest : List Char) :
    (w ++ rest).head?.any isIdentStart := by
  cases w with
  | nil => simp [isIdentifier] at hw
  | cons a w => exact (isIdentifier_cons.1 hw).1

theorem nonblank_of_identifier {w : List Char} (hw : isIdentifier w) (rest : List Char) :
    (w ++ rest).head?.any isBlank = false := by
  have hstart := head?_identifier hw rest
  cases hc : (w ++ rest).head? with
  | none => rfl
  | some c =>
    rw [hc] at hstart
    exact isBlank_of_isWordChar (isWordChar_of_isIdentStart hstart)

/-- A sign that does not carry on a path ends it. -/
theorem stops_append {sign : List Char} (h : sign.head?.any (!carriesOn ·)) (rest : List Char) :
    (sign ++ rest).head?.any carriesOn = false := by
  cases sign with
  | nil => cases h
  | cons a sign => simpa using h

theorem nonword_of_carriesOn (hrest : rest.head?.any carriesOn = false) (gap : Gap) :
    (gap.chars ++ rest).head?.any isWordChar = false := by
  refine nonword_of_blanks gap.isBlank_of_mem ?_
  cases hc : rest.head? with
  | none => rfl
  | some c =>
    rw [hc, Option.any_some, carriesOn] at hrest
    simp only [Bool.or_eq_false_iff] at hrest
    exact hrest.1.1.2

end Written

namespace Scope

open Written

/-! ## Passing over a path -/

/-- The brackets in an index are passed with the depth that they are at. -/
theorem closeSquare?_append : ∀ {cs : List Char} {n m : Nat} (i : Nat) (ds : List Char),
    level '[' ']' n cs = some m →
      closeSquare? i (n + 1) (cs ++ ds) = closeSquare? (i + cs.length) (m + 1) ds
  | [], n, m, i, ds, h => by
    obtain rfl : n = m := Option.some.inj h
    rfl
  | a :: cs, n, m, i, ds, h => by
    have hlen : i + (a :: cs).length = i + 1 + cs.length := by
      rw [List.length_cons]
      omega
    rw [hlen, List.cons_append]
    by_cases hopen : a = '['
    · subst hopen
      rw [level_opener] at h
      rw [closeSquare?, closeSquare?_append (i + 1) ds h]
    by_cases hclose : a = ']'
    · subst hclose
      cases n with
      | zero => simp [level] at h
      | succ n =>
        rw [level_closer (by decide)] at h
        rw [closeSquare?, if_neg (by simp), Nat.add_sub_cancel, closeSquare?_append (i + 1) ds h]
    · rw [level_other hopen hclose] at h
      rw [closeSquare?, closeSquare?_append (i + 1) ds h]
      · exact fun hcons => hopen hcons
      · exact fun hcons => hclose hcons

/-- An index ends with the bracket that closes it. -/
theorem closeSquare?_index {inside : List Char} (h : level '[' ']' 0 inside = some 0)
    (front rest : List Char) : closeSquare? front.length 0 ('[' :: (inside ++ ']' :: rest)) =
      some (between (front ++ '[' :: (inside ++ [']'])) rest) := by
  rw [closeSquare?, closeSquare?_append _ _ h, closeSquare?, if_pos (by decide), between]
  have hlast : (front ++ '[' :: (inside ++ [']'])).getLast? = some ']' := by
    rw [← List.cons_append, ← List.append_assoc, List.getLast?_concat]
  rw [hlast]
  simp only [List.length_append, List.length_cons, List.length_nil]
  congr 2
  omega

theorem misses_memberAccess (h : rest.head? ≠ some '.') (front : List Char) :
    memberAccess.Misses (between front rest) := by
  have hopens : memberAccess.Opens (· == '.') := ((opens_text rfl rfl).append _).append _
  refine hopens.misses ?_ front
  cases rest with
  | nil => rfl
  | cons a rest => simpa using h

/-- The reader passes over one step of a path. -/
theorem pathEnd?_access (a : Access) (hrest : rest.head?.any isWordChar = false)
    (member front fuel : List Char) (x : Char) :
    pathEnd? member (x :: fuel) (between front (a.chars ++ rest)) =
      pathEnd? a.name fuel (between (front ++ a.chars) rest) := by
  cases a with
  | member before after name hname =>
    have htext : (Access.member before after name hname).chars ++ rest =
        before.chars ++ '.' :: (after.chars ++ (name ++ rest)) := by
      simp [Access.chars]
    have hskip :
        (between front (before.chars ++ '.' :: (after.chars ++ (name ++ rest)))).skipBlanks =
        between (front ++ before.chars) ('.' :: (after.chars ++ (name ++ rest))) :=
      skipBlanks_between before.isBlank_of_mem rfl
    have hdot : (Pattern.text ".").Takes
        (between (front ++ before.chars) ('.' :: (after.chars ++ (name ++ rest)))) []
        (between (front ++ before.chars ++ ['.']) (after.chars ++ (name ++ rest))) [] :=
      takes_symbol rfl _ _ []
    have hgap :
        blanks.Takes (between (front ++ before.chars ++ ['.']) (after.chars ++ (name ++ rest))) []
        (between (front ++ before.chars ++ ['.'] ++ after.chars) (name ++ rest)) [] :=
      takes_stretch after.isBlank_of_mem (nonblank_of_identifier hname rest) _ []
    have hname' :=
      (takes_ident hname hrest (front ++ before.chars ++ ['.'] ++ after.chars) []).named "member"
    have hat := ((hdot.append hgap).append hname').at?
    have hfront : front ++ before.chars ++ ['.'] ++ after.chars ++ name =
        front ++ (Access.member before after name hname).chars := by
      simp [Access.chars]
    rw [htext, pathEnd?]
    simp only [hskip, peek_between, List.head?_cons]
    rw [if_neg (by decide)]
    simp only [memberAccess, hat, Hit.part_cons_self, textTo_between, Access.name]
    rw [hfront]
  | index before inside hinside =>
    have htext : (Access.index before inside hinside).chars ++ rest =
        before.chars ++ '[' :: (inside ++ ']' :: rest) := by
      simp [Access.chars]
    have hskip : (between front (before.chars ++ '[' :: (inside ++ ']' :: rest))).skipBlanks =
        between (front ++ before.chars) ('[' :: (inside ++ ']' :: rest)) :=
      skipBlanks_between before.isBlank_of_mem rfl
    rw [htext, pathEnd?]
    simp only [hskip, peek_between, List.head?_cons, rest_between, offset_between]
    rw [if_pos (by decide), closeSquare?_index hinside]
    simp only [Access.chars, Access.name, List.append_assoc]

/-- The reader stops where the path does. -/
theorem pathEnd?_end (gap : Gap) (hrest : rest.head?.any carriesOn = false)
    (member front fuel : List Char) : pathEnd? member fuel (between front (gap.chars ++ rest)) =
      some (between front (gap.chars ++ rest), member) := by
  cases fuel with
  | nil => rfl
  | cons x fuel =>
    have hstop {a : Char} (ha : carriesOn a) : rest.head? ≠ some a := fun h => by
      rw [h, Option.any_some, ha] at hrest
      cases hrest
    have hblank : rest.head?.any isBlank = false := by
      cases hc : rest.head? with
      | none => rfl
      | some c =>
        cases hb : isBlank c with
        | false => simpa using hb
        | true => exact absurd hc (hstop (by simp [carriesOn, hb]))
    have hopen : (rest.head? == some '[') = false := by
      rw [beq_eq_false_iff_ne]
      exact hstop rfl
    rw [pathEnd?]
    simp only [skipBlanks_between gap.isBlank_of_mem hblank, peek_between, hopen,
      (misses_memberAccess (hstop rfl) _).at?]
    rfl

/-- The reader passes over all steps of a path. -/
theorem pathEnd?_accesses (gap : Gap) (hrest : rest.head?.any carriesOn = false) :
    ∀ (as : List Access) (member front fuel : List Char), as.length ≤ fuel.length →
      pathEnd? member fuel (between front (as.flatMap Access.chars ++ (gap.chars ++ rest))) =
        some (between (front ++ as.flatMap Access.chars) (gap.chars ++ rest), lastMember member as)
  | [], member, front, fuel, _ => by
    rw [List.flatMap_nil, List.nil_append, List.append_nil]
    exact pathEnd?_end gap hrest member front fuel
  | a :: as, member, front, x :: fuel, hfuel => by
    rw [List.flatMap_cons, List.append_assoc,
      pathEnd?_access a (head?_accesses as (nonword_of_carriesOn hrest gap)),
      pathEnd?_accesses gap hrest as a.name (front ++ a.chars) fuel (Nat.le_of_succ_le_succ hfuel),
      List.append_assoc, lastMember]

end Scope

end ContractAudit
