import Mathlib.Data.List.MinMax
import Mathlib.Data.Prod.Lex
import ContractAudit.Proofs.Written.Version

/-!
# What a version constraint admits

A constraint is a row of comparators, each an operator and a release. The releases that a comparator
admits are those from its floor on and before its ceiling (`Operator.admits_iff`), so a row admits a
release before some bound exactly if its highest floor does not reach the bound, nor any of the
ceilings (`Comparator.exists_admits_iff`).

Whether the compiler is a legacy one is not read off these bounds, but off the releases that are
named, whatever the operators say (`Constraint.isLegacy_eq`). The two agree for most constraints,
and `Constraint.Misleads` are the others.
-/

namespace ContractAudit

open Pattern Cursor

namespace Written

/-! ## Releases -/

/-- A release of the compiler. -/
@[ext]
structure Release where
  major : Nat
  minor : Nat
  patch : Nat
  deriving DecidableEq, Repr

namespace Release

/-- The three numbers in the order that compares releases. -/
def key (v : Release) : Nat ×ₗ Nat ×ₗ Nat :=
  toLex (v.major, toLex (v.minor, v.patch))

theorem key_injective : Function.Injective key := by
  intro v w h
  simpa [key, Release.ext_iff] using h

instance : LinearOrder Release :=
  LinearOrder.lift' key key_injective

variable {v w : Release}

theorem lt_iff : v < w ↔
    v.major < w.major ∨ v.major = w.major ∧
    (v.minor < w.minor ∨ v.minor = w.minor ∧ v.patch < w.patch) := by
  show v.key < w.key ↔ _
  simp [key, Prod.Lex.toLex_lt_toLex]

theorem le_iff : v ≤ w ↔
    v.major < w.major ∨ v.major = w.major ∧
    (v.minor < w.minor ∨ v.minor = w.minor ∧ v.patch ≤ w.patch) := by
  show v.key ≤ w.key ↔ _
  simp [key, Prod.Lex.toLex_le_toLex]

/-- The release right behind another one. -/
def next (v : Release) : Release :=
  { v with patch := v.patch + 1 }

/-- The first release that checks arithmetic for overflow. -/
def firstChecked : Release :=
  ⟨0, 8, 0⟩

theorem lt_firstChecked_iff : v < firstChecked ↔ v.major = 0 ∧ v.minor < 8 := by
  rw [lt_iff, firstChecked]
  dsimp only
  omega

end Release

/-! ## Operators -/

/-- What may stand in front of a release. -/
inductive Operator where
  | bare
  | caret
  | tilde
  | equal
  | above
  | atLeast
  | below
  | atMost
  deriving DecidableEq, Repr

namespace Operator

/-- The operator as it is written. -/
def text : Operator → String
  | bare => ""
  | caret => "^"
  | tilde => "~"
  | equal => "="
  | above => ">"
  | atLeast => ">="
  | below => "<"
  | atMost => "<="

/-- Is the release `v` admitted by an operator in front of `w`? A caret keeps the first number of
`w`, and the second one too if the first is zero; a tilde keeps both. -/
def Admits (w v : Release) : Operator → Prop
  | bare => v = w
  | caret => w ≤ v ∧ v.major = w.major ∧ (w.major = 0 → v.minor = w.minor)
  | tilde => w ≤ v ∧ v.major = w.major ∧ v.minor = w.minor
  | equal => v = w
  | above => w < v
  | atLeast => w ≤ v
  | below => v < w
  | atMost => v ≤ w

/-- Does the operator only say which releases are too new? -/
def isUpper : Operator → Bool
  | below => true
  | atMost => true
  | _ => false

/-- The first release that is not too old. -/
def floor (w : Release) : Operator → Release
  | above => w.next
  | below => ⟨0, 0, 0⟩
  | atMost => ⟨0, 0, 0⟩
  | _ => w

/-- The first release that is too new. -/
def ceiling? (w : Release) : Operator → Option Release
  | bare => some w.next
  | caret => some (if w.major = 0 then ⟨0, w.minor + 1, 0⟩ else ⟨w.major + 1, 0, 0⟩)
  | tilde => some ⟨w.major, w.minor + 1, 0⟩
  | equal => some w.next
  | above => none
  | atLeast => none
  | below => some w
  | atMost => some w.next

variable {op : Operator} {w v : Release}

/-- The releases from the floor on and before the ceiling are admitted. -/
theorem admits_iff : op.Admits w v ↔ op.floor w ≤ v ∧ ∀ r ∈ op.ceiling? w, v < r := by
  cases op <;> simp only [Admits, floor, ceiling?, Option.mem_some_iff, forall_eq',
    Option.not_mem_none, false_imp_iff, implies_true, and_true]
  case caret =>
    split <;> simp only [Release.lt_iff, Release.le_iff] <;> omega
  all_goals
    simp only [Release.next, Release.lt_iff, Release.le_iff, Release.ext_iff]
    omega

/-- What is named is not older than the floor, but for the operators that have none. -/
theorem le_floor (h : op.isUpper = false) : w ≤ op.floor w := by
  cases op with
  | below => simp [isUpper] at h
  | atMost => simp [isUpper] at h
  | above => exact Release.le_iff.2 (Or.inr ⟨rfl, Or.inr ⟨rfl, Nat.le_succ _⟩⟩)
  | _ => exact le_rfl

/-- The oldest releases are admitted by the operators that have no floor. -/
theorem admits_of_isUpper (h : op.isUpper) (hv : v < w) : op.Admits w v := by
  cases op with
  | below => exact hv
  | atMost => exact hv.le
  | _ => simp [isUpper] at h

end Operator

/-! ## Comparators -/

/-- An operator in front of a version of three numbers. -/
structure Comparator where
  op : Operator
  gap : Gap
  gap_eq_nil : op = .bare → gap.chars = []
  version : Version
  patch : Numeral

namespace Comparator

/-- The comparator as it is written. -/
def chars (c : Comparator) : List Char :=
  c.op.text.toList ++ (c.gap.chars ++ (c.version.chars ++ '.' :: c.patch.chars))

/-- The release the comparator names. -/
def release (c : Comparator) : Release :=
  ⟨decimalValue c.version.major.chars, decimalValue c.version.minor.chars,
    decimalValue c.patch.chars⟩

/-- The comparator lets a compiler of the release in. -/
def Admits (c : Comparator) (v : Release) : Prop :=
  c.op.Admits c.release v

/-- The first release that the comparator does not call too old. -/
def floor (c : Comparator) : Release :=
  c.op.floor c.release

/-- The first release that the comparator calls too new, if there is one. -/
def ceiling? (c : Comparator) : Option Release :=
  c.op.ceiling? c.release

/-- A row of comparators admits a release before the bound if no floor reaches the bound or a
ceiling. -/
theorem exists_admits_iff {cs : List Comparator} (hne : cs ≠ []) {bound : Release} :
    (∃ v, v < bound ∧ ∀ c ∈ cs, c.Admits v) ↔
      ∀ c ∈ cs, c.floor < bound ∧ ∀ d ∈ cs, ∀ r ∈ d.ceiling?, c.floor < r := by
  constructor
  · rintro ⟨v, hv, hall⟩ c hc
    obtain ⟨hfloor, -⟩ := Operator.admits_iff.1 (hall c hc)
    refine ⟨hfloor.trans_lt hv, fun d hd r hr => ?_⟩
    exact hfloor.trans_lt ((Operator.admits_iff.1 (hall d hd)).2 r hr)
  · intro h
    -- The highest floor is the oldest release that no comparator finds too old.
    cases hmax : cs.argmax floor with
    | none => exact absurd (List.argmax_eq_none.1 hmax) hne
    | some c =>
      obtain ⟨hbound, hceiling⟩ := h c (List.argmax_mem hmax)
      refine ⟨c.floor, hbound, fun d hd => Operator.admits_iff.2 ⟨?_, hceiling d hd⟩⟩
      exact List.le_of_mem_argmax hd hmax

/-! ### Reading a comparator -/

/-- A third number is passed over. -/
theorem findAll_patch (n : Numeral) (front : List Char) {rest : List Char}
    (hdigit : rest.head?.any isDecimalDigit = false) (hdot : rest.head? ≠ some '.') :
    versionNumber.findAll (between front ('.' :: n.chars ++ rest)) =
      versionNumber.findAll (between (front ++ '.' :: n.chars) rest) := by
  have hpoint : ('.' :: n.chars ++ rest).head?.any isDecimalDigit = false :=
    (by decide : isDecimalDigit '.' = false)
  refine opens_versionNumber.findAll_congr (in_between ..) (in_between ..)
    (find?_between_append fun u v huv _ => ?_)
  rcases List.cons_eq_append_iff.1 huv with ⟨rfl, rfl⟩ | ⟨u', rfl, hpatch⟩
  · exact opens_versionNumber.misses hpoint _
  · refine misses_versionNumber (fun a ha => ?_) hdigit hdot _
    exact n.isDecimalDigit_of_mem a (hpatch ▸ List.mem_append_right u' ha)

/-- The numbers of the version are read, and the search goes on behind the comparator. -/
theorem exists_findAll_eq_cons (c : Comparator) (front : List Char) {rest : List Char}
    (hdigit : rest.head?.any isDecimalDigit = false) (hdot : rest.head? ≠ some '.') :
    ∃ h, versionNumber.findAll (between front (c.chars ++ rest)) =
        h :: versionNumber.findAll (between (front ++ c.chars) rest) ∧
      (h.part "major", h.part "minor") = (c.version.major.chars, c.version.minor.chars) := by
  obtain ⟨lead, hlead⟩ : ∃ lead, lead = c.op.text.toList ++ c.gap.chars := ⟨_, rfl⟩
  have hsign : ∀ a ∈ c.op.text.toList, isDecimalDigit a = false := by
    cases c.op <;> decide
  have hpass : ∀ a ∈ lead, isDecimalDigit a = false := by
    rw [hlead]
    exact List.forall_mem_append.2 ⟨hsign, fun a ha =>
      isDecimalDigit_of_isBlank (c.gap.isBlank_of_mem a ha)⟩
  have hpoint : isDecimalDigit '.' = false := by decide
  obtain ⟨h, hfound, hparts⟩ := @Version.exists_findAll_eq_cons c.version (front ++ lead)
    ('.' :: (c.patch.chars ++ rest)) hpoint
  refine ⟨h, ?_, hparts⟩
  have hlast := findAll_patch c.patch (front ++ lead ++ c.version.chars) hdigit hdot
  have hfirst := opens_versionNumber.findAll_append hpass front
    (c.version.chars ++ '.' :: (c.patch.chars ++ rest))
  have hchars : c.chars ++ rest = lead ++ (c.version.chars ++ '.' :: (c.patch.chars ++ rest)) := by
    simp [chars, hlead]
  have hstop : front ++ c.chars = front ++ lead ++ c.version.chars ++ '.' :: c.patch.chars := by
    simp [chars, hlead]
  rw [hchars, hstop, hfirst, hfound, ← hlast]
  rfl

end Comparator

/-! ## Constraints -/

/-- A row of comparators with blanks between them. -/
structure Constraint where
  first : Comparator
  others : List (Gap × Comparator)
  gap_ne_nil : ∀ p ∈ others, p.1.chars ≠ []
  trail : Gap

namespace Constraint

/-- What follows a comparator. -/
def tail (others : List (Gap × Comparator)) (trail : Gap) : List Char :=
  others.flatMap (fun p => p.1.chars ++ p.2.chars) ++ trail.chars

/-- The constraint as it is written. -/
def chars (k : Constraint) : List Char :=
  k.first.chars ++ tail k.others k.trail

/-- The comparators of the constraint, all of which a release has to pass. -/
def comparators (k : Constraint) : List Comparator :=
  k.first :: k.others.map Prod.snd

/-- Have the numbers that are read few enough digits? -/
def IsReadable (k : Constraint) : Prop :=
  ∀ c ∈ k.comparators, c.version.major.chars.length ≤ digitLimit ∧
    c.version.minor.chars.length ≤ digitLimit

instance (k : Constraint) : Decidable k.IsReadable :=
  List.decidableBAll _ k.comparators

/-- Behind a comparator there is a blank or nothing. -/
theorem isBlank_of_mem_head?_tail {others : List (Gap × Comparator)}
    (hothers : ∀ p ∈ others, p.1.chars ≠ [])
    (trail : Gap) : ∀ a ∈ (tail others trail).head?, isBlank a := by
  have hhead (gap : Gap) : ∀ a ∈ gap.chars.head?, isBlank a := fun a ha =>
    gap.isBlank_of_mem a (List.mem_of_mem_head? ha)
  cases others with
  | nil => exact hhead trail
  | cons p others =>
    obtain ⟨b, gap, hgap⟩ := List.exists_cons_of_ne_nil (hothers p List.mem_cons_self)
    have hfirst := hhead p.1
    rw [hgap] at hfirst
    simpa [tail, hgap] using hfirst

theorem findAll_gap (gap : Gap) (front rest : List Char) :
    versionNumber.findAll (between front (gap.chars ++ rest)) =
      versionNumber.findAll (between (front ++ gap.chars) rest) := by
  have hpass : ∀ a ∈ gap.chars, isDecimalDigit a = false := fun a ha =>
    isDecimalDigit_of_isBlank (gap.isBlank_of_mem a ha)
  exact opens_versionNumber.findAll_append hpass front rest

/-- The version of a comparator is found, and the search goes on with the next comparator. -/
theorem exists_findAll_comparator {others : List (Gap × Comparator)}
    (hothers : ∀ p ∈ others, p.1.chars ≠ []) (trail : Gap) (c : Comparator) (front : List Char) :
    ∃ h, versionNumber.findAll (between front (c.chars ++ tail others trail)) =
        h :: versionNumber.findAll (between (front ++ c.chars) (tail others trail)) ∧
      (h.part "major", h.part "minor") = (c.version.major.chars, c.version.minor.chars) := by
  have hblank := isBlank_of_mem_head?_tail hothers trail
  have hdigit : (tail others trail).head?.any isDecimalDigit = false := by
    cases hhead : (tail others trail).head? with
    | none => rfl
    | some a => exact isDecimalDigit_of_isBlank (hblank a hhead)
  exact c.exists_findAll_eq_cons front hdigit fun hdot => absurd (hblank _ hdot) (by decide)

theorem map_findAll_tail (trail : Gap) : ∀ (others : List (Gap × Comparator)) (front : List Char),
    (∀ p ∈ others, p.1.chars ≠ []) →
      (versionNumber.findAll (between front (tail others trail))).map
        (fun h => (h.part "major", h.part "minor")) =
        (others.map Prod.snd).map fun c => (c.version.major.chars, c.version.minor.chars)
  | [], front, _ => by
    have hgap := findAll_gap trail front []
    rw [List.append_nil, findAll_eq_nil (opens_versionNumber.find?_nil _)] at hgap
    exact congrArg _ hgap
  | p :: others, front, hothers => by
    have hothers' : ∀ q ∈ others, q.1.chars ≠ [] :=
      fun q hq => hothers q (List.mem_cons_of_mem p hq)
    have htail : tail (p :: others) trail = p.1.chars ++ (p.2.chars ++ tail others trail) := by
      simp [tail]
    obtain ⟨h, hfound, hparts⟩ := exists_findAll_comparator hothers' trail p.2 (front ++ p.1.chars)
    rw [htail, findAll_gap, hfound, List.map_cons, hparts, map_findAll_tail trail others _ hothers']
    rfl

variable (k : Constraint)

/-- All versions that are named are read. -/
theorem versionsIn_chars : versionsIn k.chars = readVersions (k.comparators.map (·.version)) := by
  obtain ⟨h, hfound, hparts⟩ := exists_findAll_comparator k.gap_ne_nil k.trail k.first []
  refine versionsIn_eq (by simp [chars, Comparator.chars]) ?_
  rw [← between_nil, chars, hfound, List.map_cons, hparts,
    map_findAll_tail k.trail k.others _ k.gap_ne_nil]
  simp [comparators]

theorem head?_chars : k.chars.head?.any isBlank = false := by
  have hdigit : isBlank k.first.version.major.first = false :=
    (show ∀ a ∈ asciiDigits, isBlank a = false by decide) _
      (k.first.version.major.isDigit_of_mem _ List.mem_cons_self)
  rw [chars, Comparator.chars]
  cases hop : k.first.op with
  | bare =>
    rw [k.first.gap_eq_nil hop]
    exact hdigit
  | _ => rfl

theorem isLegacy_eq {source : List Char} (h : FirstPragma k.chars source) :
    isLegacy source = do
      return (← readVersions (k.comparators.map (·.version))).any fun (major, minor) =>
        major == 0 && minor < 8 := by
  rw [h.isLegacy_eq k.head?_chars, k.versionsIn_chars]

/-- Every number is read if none is too long. -/
theorem readVersions_eq_ok : ∀ {vs : List Version},
    (∀ v ∈ vs, v.major.chars.length ≤ digitLimit ∧ v.minor.chars.length ≤ digitLimit) →
      readVersions vs =
        .ok (vs.map fun v => (decimalValue v.major.chars, decimalValue v.minor.chars))
  | [], _ => rfl
  | v :: vs, h => by
    obtain ⟨hmajor, hminor⟩ := h v List.mem_cons_self
    have hvs := readVersions_eq_ok fun w hw => h w (List.mem_cons_of_mem v hw)
    rw [readVersions] at hvs ⊢
    rw [List.mapM_cons, hvs, readNumber, readNumber, if_neg (by omega), if_neg (by omega)]
    rfl

/-- Nothing is read if some number is too long. -/
theorem exists_readVersions_eq_error : ∀ {vs : List Version},
    (¬∀ v ∈ vs, v.major.chars.length ≤ digitLimit ∧ v.minor.chars.length ≤ digitLimit) →
      ∃ fault, readVersions vs = .error fault
  | [], h => absurd (List.forall_mem_nil _) h
  | v :: vs, h => by
    rw [readVersions, List.mapM_cons]
    by_cases hmajor : digitLimit < v.major.chars.length
    · rw [readNumber, if_pos hmajor]
      exact ⟨_, rfl⟩
    by_cases hminor : digitLimit < v.minor.chars.length
    · rw [readNumber, readNumber, if_neg hmajor, if_pos hminor]
      exact ⟨_, rfl⟩
    have hvs := mt (fun hvs =>
      List.forall_mem_cons.2 ⟨⟨Nat.le_of_not_lt hmajor, Nat.le_of_not_lt hminor⟩, hvs⟩) h
    obtain ⟨fault, hfault⟩ := exists_readVersions_eq_error hvs
    rw [readVersions] at hfault
    rw [hfault, readNumber, readNumber, if_neg hmajor, if_neg hminor]
    exact ⟨_, rfl⟩

theorem isLegacy_of_isReadable {source : List Char} (h : FirstPragma k.chars source)
    (hk : k.IsReadable) :
    isLegacy source = .ok (k.comparators.any (·.release < .firstChecked)) := by
  have hread := readVersions_eq_ok (List.forall_mem_map.2 hk)
  rw [k.isLegacy_eq h, hread]
  show Except.ok _ = Except.ok _
  rw [List.map_map, List.any_map]
  congr 2
  funext c
  rw [Bool.eq_iff_iff]
  simp [Release.lt_firstChecked_iff, Comparator.release]

/-- The constraints that are taken for something else : those that only say which releases are too
new, and name no legacy release, though they admit all of them; and those that name a legacy
release, though none is admitted. -/
def Misleads : Prop :=
  (∀ c ∈ k.comparators, c.op.isUpper ∧ .firstChecked ≤ c.release) ∨
    (∃ c ∈ k.comparators, c.release < .firstChecked) ∧
      ∃ c ∈ k.comparators, .firstChecked ≤ c.floor ∨
        ∃ d ∈ k.comparators, ∃ r ∈ d.ceiling?, r ≤ c.floor

instance : Decidable k.Misleads :=
  inferInstanceAs (Decidable (_ ∨ _ ∧ _))

/-- All other constraints name a legacy release exactly if they admit one. -/
theorem named_iff_admits_iff :
    ((∃ c ∈ k.comparators, c.release < .firstChecked) ↔
      ∃ v : Release, v < .firstChecked ∧ ∀ c ∈ k.comparators, c.Admits v) ↔ ¬k.Misleads := by
  have hne : k.comparators ≠ [] := List.cons_ne_nil _ _
  by_cases hnamed : ∃ c ∈ k.comparators, c.release < .firstChecked
  · have hupper : ¬∀ c ∈ k.comparators, c.op.isUpper ∧ .firstChecked ≤ c.release := by
      obtain ⟨c, hc, hlt⟩ := hnamed
      exact fun hall => (hall c hc).2.not_gt hlt
    rw [Misleads, Comparator.exists_admits_iff hne]
    simp only [hnamed, hupper, true_iff, true_and, false_or]
    push Not
    rfl
  · have hchecked : ∀ c ∈ k.comparators, .firstChecked ≤ c.release := fun c hc =>
      not_lt.1 fun hlt => hnamed ⟨c, hc, hlt⟩
    have hadmits : (∃ v : Release, v < .firstChecked ∧ ∀ c ∈ k.comparators, c.Admits v) ↔
        ∀ c ∈ k.comparators, c.op.isUpper ∧ .firstChecked ≤ c.release := by
      constructor
      · rintro ⟨v, hv, hall⟩ c hc
        refine ⟨?_, hchecked c hc⟩
        by_contra hop
        have hfloor := (Operator.admits_iff.1 (hall c hc)).1
        have hle := Operator.le_floor (w := c.release) (Bool.not_eq_true _ ▸ hop)
        exact ((hchecked c hc).trans (hle.trans hfloor)).not_gt hv
      · intro hall
        have holdest : (⟨0, 0, 0⟩ : Release) < .firstChecked :=
          Release.lt_firstChecked_iff.2 (by decide)
        exact ⟨⟨0, 0, 0⟩, holdest, fun c hc =>
          Operator.admits_of_isUpper (hall c hc).1 (holdest.trans_le (hall c hc).2)⟩
    simp only [Misleads, hnamed, false_and, or_false, false_iff, hadmits]

/-- The answer is whether some release that is named is a legacy one, or there is none if a number
is too long. It says whether some legacy release is admitted exactly if the constraint does not
mislead. -/
theorem isLegacy_right_iff {source : List Char} (h : FirstPragma k.chars source) :
    (k.IsReadable →
      isLegacy source = .ok (k.comparators.any (·.release < .firstChecked)) ∧
      ((isLegacy source = .ok true ↔
        ∃ v : Release, v < .firstChecked ∧ ∀ c ∈ k.comparators, c.Admits v) ↔ ¬k.Misleads)) ∧
    (¬k.IsReadable → ∃ fault, isLegacy source = .error fault) := by
  constructor
  · intro hk
    have hlegacy := k.isLegacy_of_isReadable h hk
    refine ⟨hlegacy, ?_⟩
    have hnamed : isLegacy source = .ok true ↔ ∃ c ∈ k.comparators, c.release < .firstChecked := by
      rw [hlegacy, Except.ok.injEq]
      simp
    rw [hnamed]
    exact k.named_iff_admits_iff
  · intro hk
    obtain ⟨fault, hfault⟩ := exists_readVersions_eq_error (mt List.forall_mem_map.1 hk)
    rw [k.isLegacy_eq h, hfault]
    exact ⟨fault, rfl⟩

/-! ### Constraints that mislead, and one that does not -/

/-- The version `0.7`. -/
def zeroPointSeven : Version :=
  ⟨.zeros 0, ⟨'7', [], by decide⟩⟩

/-- The version `0.8`. -/
def zeroPointEight : Version :=
  ⟨.zeros 0, ⟨'8', [], by decide⟩⟩

/-- `<0.8.0` -/
def legacyOnly : Constraint :=
  ⟨⟨.below, .nothing, fun _ => rfl, zeroPointEight, .zeros 0⟩, [], List.forall_mem_nil _, .nothing⟩

/-- `>=0.7.0 <=0.8.0` -/
def legacyOn : Constraint :=
  ⟨⟨.atLeast, .nothing, fun _ => rfl, zeroPointSeven, .zeros 0⟩,
    [(.space, ⟨.atMost, .nothing, fun _ => rfl, zeroPointEight, .zeros 0⟩)], by decide, .nothing⟩

theorem isLegacy_right_legacyOn :
    FirstPragma legacyOn.chars "library L;\npragma solidity >=0.7.0 <=0.8.0;".toList ∧
      isLegacy "library L;\npragma solidity >=0.7.0 <=0.8.0;".toList = .ok true ∧
      ∃ v : Release, v < .firstChecked ∧ ∀ c ∈ legacyOn.comparators, c.Admits v := by
  have hfirst :
      FirstPragma legacyOn.chars
        ("library L;\n".toList ++ "pragma solidity >=0.7.0 <=0.8.0;".toList) :=
    .of_not_mem (by decide) (by decide)
      ⟨by decide, by decide, .space, .space, [], by decide, by decide, by decide⟩
  have hreadable : legacyOn.IsReadable := by decide
  have hright : ¬legacyOn.Misleads := by decide
  obtain ⟨hlegacy, hiff⟩ := (legacyOn.isLegacy_right_iff hfirst).1 hreadable
  exact ⟨hfirst, hlegacy, (hiff.2 hright).1 hlegacy⟩

/-- Only legacy releases are admitted, and the answer is that none is. -/
theorem isLegacy_legacyOnly :
    FirstPragma legacyOnly.chars "pragma solidity <0.8.0;".toList ∧
      isLegacy "pragma solidity <0.8.0;".toList = .ok false ∧
      ∃ v : Release, v < .firstChecked ∧ ∀ c ∈ legacyOnly.comparators, c.Admits v := by
  have hfirst : FirstPragma legacyOnly.chars ([] ++ "pragma solidity <0.8.0;".toList) :=
    .of_not_mem List.not_mem_nil rfl
      ⟨by decide, by decide, .space, .space, [], by decide, by decide, by decide⟩
  have hlegacy : isLegacy "pragma solidity <0.8.0;".toList = .ok false :=
    legacyOnly.isLegacy_of_isReadable hfirst (by decide)
  refine ⟨hfirst, hlegacy, ⟨0, 7, 6⟩, by decide, ?_⟩
  exact List.forall_mem_singleton.2 (show (⟨0, 7, 6⟩ : Release) < ⟨0, 8, 0⟩ by decide)

end Constraint

end Written

end ContractAudit
