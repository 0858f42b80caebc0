import ContractAudit.Proofs.Written.Outline
import ContractAudit.Rule.Arithmetic

/-!
# Version pragmas

The first version pragma of a source is found with all of its constraint
(`FirstPragma.isLegacy_eq`), and a version in it is read as its first two numbers
(`Version.exists_findAll_eq_cons`).

A source that consists of a version pragma (`Version.pragma`) has no contracts and no members
(`Version.outline_pragma`), and whether its compiler is a legacy one is read off the two numbers of
the version (`Version.isLegacy_pragma`), if they can be read.
-/

namespace ContractAudit

open Pattern Cursor

namespace Written

/-- The digits a version is written with. -/
def asciiDigits : List Char :=
  "0123456789".toList

/-- A number : one or more digits. -/
structure Numeral where
  first : Char
  others : List Char
  isDigit_of_mem : ∀ a ∈ first :: others, a ∈ asciiDigits

namespace Numeral

/-- The numeral as it is written. -/
def chars (n : Numeral) : List Char :=
  n.first :: n.others

variable (n : Numeral)

theorem isDecimalDigit_of_mem : ∀ a ∈ n.chars, isDecimalDigit a := fun a ha =>
  (show ∀ a ∈ asciiDigits, isDecimalDigit a by decide) a (n.isDigit_of_mem a ha)

theorem isWordChar_of_mem : ∀ a ∈ n.chars, isWordChar a := fun a ha =>
  (show ∀ a ∈ asciiDigits, isWordChar a by decide) a (n.isDigit_of_mem a ha)

theorem isSober_of_mem : ∀ a ∈ n.chars, isSober a := fun a ha =>
  (show ∀ a ∈ asciiDigits, isSober a by decide) a (n.isDigit_of_mem a ha)

theorem ne_semicolon_of_mem : ∀ a ∈ n.chars, a != ';' := fun a ha =>
  (show ∀ a ∈ asciiDigits, a != ';' by decide) a (n.isDigit_of_mem a ha)

theorem takes_digits (front : List Char) {rest : List Char}
    (hrest : rest.head?.any isDecimalDigit = false)
    (ps : Parts) : (stretch1 isDecimalDigit).Takes (between front (n.chars ++ rest)) ps
      (between (front ++ n.chars) rest) ps :=
  takes_stretch1 n.isDecimalDigit_of_mem hrest front ps

/-- A number is no word that announces a declaration. -/
theorem lacks_chars : Lacks declarationWords n.chars := by
  refine lacks_of_word n.isWordChar_of_mem fun hmem => ?_
  have hfirst : ∀ u ∈ declarationWords, ∀ a ∈ asciiDigits, u.toList.head? ≠ some a := by decide
  refine hfirst _ hmem n.first (n.isDigit_of_mem n.first List.mem_cons_self) ?_
  rw [String.toList_ofList]
  rfl

end Numeral

theorem isDigit_of_mem_zeros (n : Nat) : ∀ a ∈ '0' :: List.replicate n '0', a ∈ asciiDigits := by
  refine List.forall_mem_cons.2 ⟨by decide, fun a ha => ?_⟩
  rw [List.eq_of_mem_replicate ha]
  decide

/-- The number zero with the given number of zeros in front. -/
def Numeral.zeros (n : Nat) : Numeral :=
  ⟨'0', List.replicate n '0', isDigit_of_mem_zeros n⟩

theorem Numeral.length_chars_zeros (n : Nat) : (Numeral.zeros n).chars.length = n + 1 :=
  congrArg (· + 1) List.length_replicate

/-- A version by its first two numbers. -/
structure Version where
  major : Numeral
  minor : Numeral

namespace Version

/-- The version as it is written. -/
def chars (v : Version) : List Char :=
  v.major.chars ++ '.' :: v.minor.chars

/-- The pragma that names the version alone. -/
def pragma (v : Version) : List Char :=
  "pragma".toList ++ ' ' :: ("solidity".toList ++ ' ' :: (v.chars ++ [';']))

variable (v : Version)

theorem forall_mem_chars {P : Char → Prop} (hmajor : ∀ a ∈ v.major.chars, P a) (hdot : P '.')
    (hminor : ∀ a ∈ v.minor.chars, P a) : ∀ a ∈ v.chars, P a :=
  List.forall_mem_append.2 ⟨hmajor, List.forall_mem_cons.2 ⟨hdot, hminor⟩⟩

theorem stable_pragma : Stable v.pragma := by
  have hchars : ∀ a ∈ v.chars, isSober a :=
    v.forall_mem_chars v.major.isSober_of_mem (by decide) v.minor.isSober_of_mem
  refine stable_of_forall ?_
  refine List.forall_mem_append.2 ⟨by decide, List.forall_mem_cons.2 ⟨by decide, ?_⟩⟩
  refine List.forall_mem_append.2 ⟨by decide, List.forall_mem_cons.2 ⟨by decide, ?_⟩⟩
  exact List.forall_mem_append.2 ⟨hchars, by decide⟩

theorem quiet_pragma : Quiet v.pragma := by
  have hlacks :
      Lacks declarationWords ("pragma".toList ++ ' ' :: ("solidity".toList ++ ' ' :: v.chars)) := by
    have hversion : Lacks declarationWords v.chars :=
      (lacks_append_cons (by decide)).2 ⟨v.major.lacks_chars, v.minor.lacks_chars⟩
    exact (lacks_append_cons (by decide)).2
      ⟨by decide, (lacks_append_cons (by decide)).2 ⟨by decide, hversion⟩⟩
  have hsplit (u w : List Char) :
      u ++ ' ' :: (w ++ ' ' :: (v.chars ++ [';'])) =
        u ++ ' ' :: (w ++ ' ' :: v.chars) ++ [';'] := by simp
  unfold pragma
  exact (hsplit "pragma".toList "solidity".toList).symm ▸ hlacks.quiet (by decide) (by decide)

/-- There are no contracts and no members. -/
theorem outline_pragma : Outline.of v.pragma = ⟨[], []⟩ := by
  obtain ⟨env, henv, -, houtline⟩ := Draft.exists_outline_eq v.pragma
  have hof : env.OfText ([] ++ (v.pragma ++ [])) := by simpa using henv
  have hpass := Draft.finish_quiet v.pragma.length hof v.quiet_pragma ⟨[], [], []⟩
  rw [List.append_nil] at hpass
  rw [houtline, hpass]
  rfl

end Version

/-! ## The first pragma -/

/-- The text starts with a version pragma that has the constraint. -/
def IsPragma (constraint text : List Char) : Prop :=
  constraint ≠ [] ∧ ';' ∉ constraint ∧ ∃ (gap gap' : Gap) (rest : List Char), gap.chars ≠ [] ∧
    gap'.chars ≠ [] ∧
    text = "pragma".toList ++
      (gap.chars ++ ("solidity".toList ++ (gap'.chars ++ (constraint ++ ';' :: rest))))

/-- The constraint is that of the first version pragma in the source. -/
inductive FirstPragma (constraint : List Char) : List Char → Prop
  | intro {front text : List Char} (hfront : front.getLast?.any isWordChar = false)
      (htext : IsPragma constraint text)
      (hfirst : ∀ u v, front = u ++ v → v ≠ [] → u.getLast?.any isWordChar = false →
        ∀ other, ¬IsPragma other (v ++ text)) :
      FirstPragma constraint (front ++ text)

section Pragma

variable {constraint front text source : List Char}

/-- A pragma behind a text without its first letter. -/
theorem FirstPragma.of_not_mem (hp : 'p' ∉ front) (hfront : front.getLast?.any isWordChar = false)
    (h : IsPragma constraint text) : FirstPragma constraint (front ++ text) := by
  refine .intro hfront h fun u v huv hv _ other hother => hp ?_
  obtain ⟨a, v, rfl⟩ := List.exists_cons_of_ne_nil hv
  obtain ⟨-, -, gap, gap', rest, -, -, htext⟩ := hother
  obtain ⟨rfl, -⟩ : a = 'p' ∧ _ := List.cons.inj htext
  simp [huv]

/-- The pattern matches pragmas only. -/
theorem isPragma_of_reads {ps : Parts} {d : Cursor} {qs : Parts}
    (h : versionPragma.Reads (between front text) ps d qs) :
    front.getLast?.any isWordChar = false ∧ ∃ constraint, IsPragma constraint text := by
  obtain ⟨_, _,
    ⟨_, _, ⟨_, _, ⟨_, _, ⟨_, _, ⟨_, _, ⟨hedge, rfl, rfl⟩, hpragma⟩, hgap⟩, hsolidity⟩, hgap'⟩,
      hversions⟩, hsemicolon⟩ := h
  obtain ⟨r, rfl, rfl, rfl⟩ := reads_text_iff.1 hpragma
  obtain ⟨gap, r, rfl, hne, hblank, rfl, rfl⟩ := reads_stretch1_iff.1 hgap
  obtain ⟨r, rfl, rfl, rfl⟩ := reads_text_iff.1 hsolidity
  obtain ⟨gap', r, rfl, hne', hblank', rfl, rfl⟩ := reads_stretch1_iff.1 hgap'
  obtain ⟨rs, hstretch, rfl⟩ := reads_named_iff.1 hversions
  obtain ⟨constraint, r, rfl, hsome, hconstraint, rfl, rfl⟩ := reads_stretch1_iff.1 hstretch
  obtain ⟨r, rfl, -⟩ := (reads_symbol_iff (a := ';') rfl).1 hsemicolon
  refine ⟨?_, constraint, hsome, fun hmem => ?_, ⟨gap, hblank⟩, ⟨gap', hblank'⟩, r, hne, hne', rfl⟩
  · have hword :
        ("pragma".toList ++
          (gap ++ ("solidity".toList ++ (gap' ++ (constraint ++ ';' :: r))))).head?.any
        isWordChar = true := rfl
    rw [atWordEdge, before_between, peek_between, hword] at hedge
    simpa using hedge
  · exact absurd (hconstraint _ hmem) (by decide)

/-- A pragma is read with all of its constraint. -/
theorem IsPragma.exists_at? (h : IsPragma constraint text)
    (hhead : constraint.head?.any isBlank = false)
    (hfront : front.getLast?.any isWordChar = false) :
    ∃ hit, versionPragma.at? (between front text) = some hit ∧
      hit.part "versions" = constraint := by
  obtain ⟨hne, hsemicolon, gap, gap', rest, hgap, hgap', rfl⟩ := h
  obtain ⟨a, w, rfl⟩ := List.exists_cons_of_ne_nil hne
  have hversions : ∀ b ∈ a :: w, b != ';' := fun b hb => by
    simpa using fun heq : b = ';' => hsemicolon (heq ▸ hb)
  obtain ⟨tail, htail⟩ : ∃ tail, tail = a :: (w ++ ';' :: rest) := ⟨_, rfl⟩
  have hblank : tail.head?.any isBlank = false := by rw [htail]; exact hhead
  have hedge :=
    @takes_edge_before front
      ("pragma".toList ++ (gap.chars ++ ("solidity".toList ++ (gap'.chars ++ tail))))
    rfl hfront []
  have hpragma :=
    takes_text "pragma" front (gap.chars ++ ("solidity".toList ++ (gap'.chars ++ tail))) []
  obtain ⟨front₁, hfront₁⟩ : ∃ front₁, front₁ = front ++ "pragma".toList := ⟨_, rfl⟩
  rw [← hfront₁] at hpragma
  have hspace :
      blanks1.Takes (between front₁ (gap.chars ++ ("solidity".toList ++ (gap'.chars ++ tail))))
        [] _ [] :=
    gap.takes_blanks1 hgap rfl front₁ []
  have hsolidity := takes_text "solidity" (front₁ ++ gap.chars) (gap'.chars ++ tail) []
  obtain ⟨front₂, hfront₂⟩ : ∃ front₂, front₂ = front₁ ++ gap.chars ++ "solidity".toList := ⟨_, rfl⟩
  rw [← hfront₂] at hsolidity
  have hspace' := gap'.takes_blanks1 hgap' hblank front₂ []
  obtain ⟨front₃, hfront₃⟩ : ∃ front₃, front₃ = front₂ ++ gap'.chars := ⟨_, rfl⟩
  rw [← hfront₃, htail] at hspace'
  have hconstraint :
      (stretch1 (· != ';')).Takes (between front₃ (a :: (w ++ ';' :: rest))) [] _ [] :=
    takes_stretch1 hversions rfl front₃ []
  have htakes : versionPragma.Takes _ [] _ _ :=
    (((((hedge.append hpragma).append hspace).append hsolidity).append (htail ▸ hspace')).append
      (hconstraint.named "versions")).append (takes_symbol rfl _ rest _)
  refine ⟨_, htail ▸ htakes.at?, ?_⟩
  rw [Hit.part_cons_self]
  exact textTo_between front₃ (a :: w) (';' :: rest)

/-- What the first pragma says is what counts. -/
theorem FirstPragma.isLegacy_eq (h : FirstPragma constraint source)
    (hhead : constraint.head?.any isBlank = false) : isLegacy source = do
      return (← versionsIn constraint).any fun (major, minor) => major == 0 && minor < 8 := by
  cases h with
  | @intro front text hfront htext hfirst =>
  have hmisses (u v : List Char) (huv : front = u ++ v) (hv : v ≠ []) :
      versionPragma.Misses (between ([] ++ u) (v ++ text)) := by
    intro ps d qs hreads
    obtain ⟨hu, other, hother⟩ := isPragma_of_reads hreads
    exact hfirst u v huv hv hu other hother
  obtain ⟨hit, hat, hpart⟩ := htext.exists_at? hhead hfront
  have hfind : versionPragma.findIn? (front ++ text) = some hit :=
    (find?_between_append hmisses).trans (find?_of_at? hat)
  rw [isLegacy, hfind]
  dsimp only
  rw [hpart]

end Pragma

/-! ## Reading versions -/

theorem opens_versionNumber : versionNumber.Opens isDecimalDigit :=
  ((((opens_char isDecimalDigit).append _).named _).append _).append _

/-- A number that no dot follows is not read as a version. -/
theorem misses_versionNumber {w rest : List Char} (hw : ∀ a ∈ w, isDecimalDigit a)
    (hdigit : rest.head?.any isDecimalDigit = false) (hdot : rest.head? ≠ some '.')
    (front : List Char) :
    versionNumber.Misses (between front (w ++ rest)) := by
  rintro ps d qs ⟨_, _, ⟨_, _, hmajor, hpoint⟩, -⟩
  obtain ⟨_, hstretch, rfl⟩ := reads_named_iff.1 hmajor
  obtain ⟨x, r, hsplit, -, hx, rfl, rfl⟩ := reads_stretch1_iff.1 hstretch
  obtain ⟨r, rfl, -⟩ := (reads_symbol_iff (a := '.') rfl).1 hpoint
  -- The dot would stand behind all the digits.
  have hpoint : ('.' :: r).head?.any isDecimalDigit = false :=
    (by decide : isDecimalDigit '.' = false)
  obtain ⟨-, rfl⟩ := eq_of_run_append hw hx hdigit hpoint hsplit
  exact hdot rfl

/-- The versions as they are read, if all their numbers can be. -/
def readVersions (vs : List Version) : Except DigitFault (List (Nat × Nat)) :=
  vs.mapM fun v => do return (← readNumber v.major.chars, ← readNumber v.minor.chars)

/-- The numbers that are found are read. -/
theorem versionsIn_eq {constraint : List Char} {vs : List Version} (hdot : '.' ∈ constraint)
    (hfound : (versionNumber.findAll (start constraint)).map
      (fun h => (h.part "major", h.part "minor")) =
      vs.map fun v => (v.major.chars, v.minor.chars)) :
    versionsIn constraint = readVersions vs := by
  have hsign : ((Pattern.text ".").find? (start constraint)).isSome := by
    obtain ⟨front, rest, rfl⟩ := List.append_of_mem hdot
    exact isSome_findIn?_of_reads (takes_symbol rfl front rest []).reads
  have hall : allInWith "." versionNumber constraint = versionNumber.findAll (start constraint) :=
    if_pos hsign
  have hread {α : Type} (xs : List α) (f : α → List Char × List Char) :
      xs.mapM (fun x => do return (← readNumber (f x).1, ← readNumber (f x).2)) =
        (xs.map f).mapM fun (p : List Char × List Char) =>
          do return (← readNumber p.1, ← readNumber p.2) := by
    rw [List.mapM_map]
    rfl
  have hhits := hread (versionNumber.findAll (start constraint)) fun h =>
    (h.part "major", h.part "minor")
  rw [hfound] at hhits
  rw [versionsIn, hall]
  exact hhits.trans (hread vs fun v => (v.major.chars, v.minor.chars)).symm

namespace Version

variable (v : Version)

/-- The two numbers of a version are read, and the search goes on behind them. -/
theorem exists_findAll_eq_cons (front : List Char) {rest : List Char}
    (hrest : rest.head?.any isDecimalDigit = false) :
    ∃ h, versionNumber.findAll (between front (v.chars ++ rest)) =
        h :: versionNumber.findAll (between (front ++ v.chars) rest) ∧
      (h.part "major", h.part "minor") = (v.major.chars, v.minor.chars) := by
  obtain ⟨tail, htail⟩ : ∃ tail, tail = v.minor.chars ++ rest := ⟨_, rfl⟩
  have hmajor : (stretch1 isDecimalDigit).Takes (between front (v.major.chars ++ '.' :: tail)) []
      (between (front ++ v.major.chars) ('.' :: tail)) [] := v.major.takes_digits front rfl []
  have hminor := v.minor.takes_digits (front ++ v.major.chars ++ ['.']) hrest
  rw [← htail] at hminor
  have htakes : versionNumber.Takes _ [] _ _ :=
    ((hmajor.named "major").append (takes_symbol rfl ..)).append ((hminor _).named "minor")
  have hfind := find?_of_at? htakes.at?
  have hchars : v.chars ++ rest = v.major.chars ++ '.' :: tail := by simp [chars, htail]
  have hstop : front ++ v.chars = front ++ v.major.chars ++ ['.'] ++ v.minor.chars := by
    simp [chars]
  rw [hchars, hstop]
  refine ⟨_, opens_versionNumber.findAll_eq_cons (in_between ..) hfind, ?_⟩
  rw [Hit.part_cons_ne (by decide), Hit.part_cons_self, Hit.part_cons_self, textTo_between, htail,
    textTo_between]

/-- The compiler is a legacy one if the numbers of its version are below 0.8. -/
theorem isLegacy_pragma : isLegacy v.pragma = do
    let major ← readNumber v.major.chars
    let minor ← readNumber v.minor.chars
    return major == 0 && minor < 8 := by
  have hdigit : v.chars.head?.any isBlank = false :=
    (show ∀ a ∈ asciiDigits, isBlank a = false by decide) _
      (v.major.isDigit_of_mem _ List.mem_cons_self)
  have hsemicolon : ∀ a ∈ v.chars, a != ';' :=
    v.forall_mem_chars v.major.ne_semicolon_of_mem (by decide) v.minor.ne_semicolon_of_mem
  have hfirst : FirstPragma v.chars v.pragma := by
    have hpragma : IsPragma v.chars v.pragma := by
      refine ⟨by simp [chars], fun hmem => ?_, .space, .space, [], by decide, by decide, rfl⟩
      simpa using hsemicolon _ hmem
    exact @FirstPragma.of_not_mem v.chars [] v.pragma List.not_mem_nil rfl hpragma
  obtain ⟨h, hfound, hparts⟩ := @exists_findAll_eq_cons v [] [] rfl
  have hend : versionNumber.findAll (between ([] ++ v.chars) []) = [] :=
    findAll_eq_nil (opens_versionNumber.find?_nil _)
  rw [List.append_nil, hend] at hfound
  have hversions : versionsIn v.chars = readVersions [v] :=
    versionsIn_eq (by simp [chars]) (by rw [← between_nil, hfound]; simp [hparts])
  rw [hfirst.isLegacy_eq hdigit, hversions, readVersions, List.mapM_cons, List.mapM_nil]
  cases readNumber v.major.chars with
  | error fault => rfl
  | ok major =>
    cases readNumber v.minor.chars with
    | error fault => rfl
    | ok minor =>
      show Except.ok (((major == 0 && minor < 8) || false) : Bool) =
        Except.ok (major == 0 && minor < 8 : Bool)
      rw [Bool.or_false]

end Version

end Written

end ContractAudit
