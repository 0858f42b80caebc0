import ContractAudit.Proofs.Contract.Order
import ContractAudit.Proofs.Overlap.Choice
import ContractAudit.Proofs.Rule.Bounds
import ContractAudit.Proofs.Rule.Places
import ContractAudit.Proofs.Text.Cut

/-!
# Nested unchecked blocks

The rule on arithmetic passes over an `unchecked` block inside another one. What is found if all
blocks are looked at (`Detector.arithmeticInAll`) is more, but only what lies inside matches that
are found anyway : an inner block ends before the outer one does (`Detector.Braced.nested`), and
arithmetic in it is arithmetic in the outer one (`Detector.Braced.arithmetic`). So once overlaps are
dropped, the matches are the same.
-/

namespace ContractAudit

open Pattern Cursor

namespace Detector

/-! ## Arithmetic in a text -/

/-- What the steps of counters can consist of. -/
def ofSteps (a : Char) : Bool :=
  isWordChar a || isBlank a || a == '+' || a == '-'

theorem blind_counterStep : counterStep.Blind := by
  simp [counterStep, blanks, Sign.wholeWord, stretch1]

theorem blind_arithmetic : arithmetic.Blind := by
  simp [arithmetic, blanks, among, charOf]

theorem spells_counterStep : counterStep.Spells ofSteps := by
  have hword : Sign.wholeWord.Spells ofSteps := spells_stretch1 fun a ha => by simp [ofSteps, ha]
  have hblanks : blanks.Spells ofSteps := fun a ha => by simp [ofSteps, ha]
  have hplus : (Pattern.text "++").Spells ofSteps := spells_text (by decide)
  have hminus : (Pattern.text "--").Spells ofSteps := spells_text (by decide)
  refine spells_oneOf fun p hp => ?_
  simp only [List.mem_cons, List.not_mem_nil, or_false] at hp
  rcases hp with rfl | rfl | rfl | rfl
  · exact ⟨⟨hplus, hblanks⟩, hword⟩
  · exact ⟨⟨hword, hblanks⟩, hplus⟩
  · exact ⟨⟨hminus, hblanks⟩, hword⟩
  · exact ⟨⟨hword, hblanks⟩, hminus⟩

theorem opens_counterStep : counterStep.Opens ofSteps := by
  have hword : Sign.wholeWord.Opens ofSteps :=
    ((opens_char isWordChar).append _).mono fun a ha => by simp [ofSteps, ha]
  have hplus : (Pattern.text "++").Opens ofSteps := opens_text rfl (by decide)
  have hminus : (Pattern.text "--").Opens ofSteps := opens_text rfl (by decide)
  refine opens_oneOf fun p hp => ?_
  simp only [List.mem_cons, List.not_mem_nil, or_false] at hp
  rcases hp with rfl | rfl | rfl | rfl
  · exact (hplus.append _).append _
  · exact (hword.append _).append _
  · exact (hminus.append _).append _
  · exact (hword.append _).append _

/-- Every step of a counter has one of its signs. -/
theorem occursIn_of_counterStep {text : List Char} (h : counterStep.occursIn text) :
    (oneOf ["++", "--"]).occursIn text := by
  have hblind : (oneOf ["++", "--"]).Blind := by simp
  obtain ⟨w, hw, haccepts⟩ := blind_counterStep.occursIn_iff.1 h
  obtain ⟨p, hp, haccepts⟩ := accepts_oneOf.1 haccepts
  have hfront {a b c : List Char} : a <:+: a ++ b ++ c := ⟨[], b ++ c, by simp⟩
  have hback {a b c : List Char} : c <:+: a ++ b ++ c := ⟨a ++ b, [], by simp⟩
  refine hblind.occursIn_iff.2 ?_
  simp only [List.mem_cons, List.not_mem_nil, or_false] at hp
  rcases hp with rfl | rfl | rfl | rfl <;> obtain ⟨-, c, rfl, ⟨a, b, rfl, ha, -⟩, hc⟩ := haccepts
  · exact ⟨a, hfront.trans hw, accepts_oneOf.2 ⟨"++", by simp, ha⟩⟩
  · exact ⟨c, hback.trans hw, accepts_oneOf.2 ⟨"++", by simp, hc⟩⟩
  · exact ⟨a, hfront.trans hw, accepts_oneOf.2 ⟨"--", by simp, ha⟩⟩
  · exact ⟨c, hback.trans hw, accepts_oneOf.2 ⟨"--", by simp, hc⟩⟩

/-- Where no counter can be stepped, the text is not searched. -/
theorem replaceInWith_counterStep (new text : List Char) :
    replaceInWith (oneOf ["++", "--"]) counterStep new text = counterStep.replaceIn new text := by
  unfold replaceInWith replaceIn allInWith findAllWith
  split
  next => rfl
  next hnone =>
    have hfind : counterStep.find? (start text) = none :=
      Option.not_isSome_iff_eq_none.1 fun hsome => hnone (occursIn_of_counterStep hsome)
    rw [allIn, findAll_eq_nil hfind]

/-- The text between two offsets, without the steps of counters. -/
def steplessText (source : Source) (lo hi : Nat) : List Char :=
  replaceInWith (oneOf ["++", "--"]) counterStep [' '] (source.slice lo hi)

variable {source : Source}

theorem slice_cut {a : Char} {lo i hi : Nat} (hlo : lo ≤ i) (hhi : i < hi)
    (ha : source.text.toList[i]? = some a) :
    source.slice lo hi = source.slice lo i ++ a :: source.slice (i + 1) hi := by
  obtain ⟨hlt, hget⟩ := List.getElem?_eq_some_iff.1 ha
  have hdrop : source.text.toList.drop i = a :: source.text.toList.drop (i + 1) := by
    rw [List.drop_eq_getElem_cons hlt, hget]
  simp only [Source.slice, Array.toList_extract, List.extract_eq_take_drop]
  obtain ⟨m, rfl⟩ := Nat.exists_eq_add_of_le hlo
  obtain ⟨n, rfl⟩ := Nat.exists_eq_add_of_lt hhi
  rw [show lo + m + n + 1 - lo = m + (n + 1) by
    omega, List.take_add, List.drop_drop, hdrop, List.take_succ_cons,
    show lo + m - lo = m by omega, show lo + m + n + 1 - (lo + m + 1) = n by omega]

/-- The steps of counters on the two sides of a bracket have nothing to do with each other. -/
theorem steplessText_cut {a : Char} {lo i hi : Nat} (hlo : lo ≤ i) (hhi : i < hi)
    (ha : source.text.toList[i]? = some a) (hsteps : ofSteps a = false) :
    steplessText source lo hi = steplessText source lo i ++
      a :: steplessText source (i + 1) hi := by
  unfold steplessText
  rw [replaceInWith_counterStep, replaceInWith_counterStep, replaceInWith_counterStep,
    slice_cut hlo hhi ha,
    blind_counterStep.replaceIn_cut opens_counterStep spells_counterStep hsteps]

/-- Arithmetic between inner braces is arithmetic between outer ones. -/
theorem arithmetic_of_nested {lo hi o k : Nat} (hlo : lo ≤ o) (hok : o < k) (hhi : k < hi)
    (ho : source.text.toList[o]? = some '\x7b') (hk : source.text.toList[k]? = some '\x7d')
    (h : arithmetic.occursIn (steplessText source (o + 1) k)) :
    arithmetic.occursIn (steplessText source lo hi) := by
  obtain ⟨w, hw, haccepts⟩ := blind_arithmetic.occursIn_iff.1 h
  refine blind_arithmetic.occursIn_iff.2 ⟨w, hw.trans ?_, haccepts⟩
  have hrest : steplessText source (o + 1) hi =
      steplessText source (o + 1) k ++ '\x7d' :: steplessText source (k + 1) hi :=
    steplessText_cut hok hhi hk (by decide)
  rw [steplessText_cut hlo (Nat.lt_trans hok hhi) ho (by decide), hrest]
  exact ⟨steplessText source lo o ++ ['\x7b'], '\x7d' :: steplessText source (k + 1) hi, by simp⟩

/-! ## Blocks between braces -/

/-- The match has no closing brace and ends with an opening one, which is closed at `k` before the
offset `stop`. -/
structure Braced (text : List Char) (stop : Nat) (h : Hit) (k : Nat) : Prop where
  start_lt : h.start.offset + 1 < h.stop.offset
  opens : text[h.stop.offset - 1]? = some '\x7b'
  plain : ∀ i, h.start.offset ≤ i → i + 1 < h.stop.offset → text[i]? ≠ some '\x7d'
  close_eq : (Pairs.braces text).close? (h.stop.offset - 1) = some k
  lt_stop : k < stop

namespace Braced

variable {text : List Char} {stop k k' : Nat} {g h : Hit}

theorem closes (hh : Braced text stop h k) : text[k]? = some '\x7d' :=
  (Pairs.joins_of_close? hh.close_eq).closes

theorem stop_le (hh : Braced text stop h k) : h.stop.offset ≤ k := by
  have hlt := (Pairs.joins_of_close? hh.close_eq).lt
  have hstart := hh.start_lt
  omega

/-- A block that starts inside another one lies inside it. -/
theorem nested (hg : Braced text stop g k) (hh : Braced text stop h k')
    (horder : g.stop.offset ≤ h.start.offset) (hinside : h.start.offset ≤ k) : k' < k := by
  have hstart := hh.start_lt
  have hbrace : h.stop.offset - 1 < k := by
    -- The brace that closes the outer block is not part of the inner match.
    rcases Nat.lt_trichotomy (h.stop.offset - 1) k with hlt | rfl | hgt
    · exact hlt
    · exact absurd (hh.opens.symm.trans hg.closes) (by decide)
    · exact absurd hg.closes (hh.plain k hinside (by omega))
  have hgstart := hg.start_lt
  obtain ⟨l, hl, hclose⟩ :=
    (Pairs.balanced_of_close? (by decide) hg.close_eq).opens (h.stop.offset - 1)
    (by omega) hbrace hh.opens
  obtain rfl : k' = l := Option.some.inj (hh.close_eq.symm.trans hclose)
  exact hl

end Braced

/-- Where the block that a match opens is taken to end, in a body that ends at `stop`. -/
def closing (source : Source) (stop : Nat) (h : Hit) : Nat :=
  min (((Pairs.braces source.text.toList).close? (h.stop.offset - 1)).getD (stop - 1)) (stop - 1)

variable {source : Source} {stop lo hi : Nat} {h : Hit}

/-- Arithmetic in a block inside another one is arithmetic in that one. -/
theorem Braced.arithmetic {g : Hit} {k k' : Nat} (hg : Braced source.text.toList stop g k)
    (hh : Braced source.text.toList stop h k') (horder : g.stop.offset ≤ h.start.offset)
    (hinside : h.start.offset ≤ k)
    (harith : arithmetic.occursIn (steplessText source h.stop.offset k')) :
    arithmetic.occursIn (steplessText source g.stop.offset k) := by
  have hstart := hh.start_lt
  have hstop := hh.stop_le
  have hbrace : h.stop.offset - 1 + 1 = h.stop.offset := by omega
  refine arithmetic_of_nested (show g.stop.offset ≤ h.stop.offset - 1 by omega) (by omega)
    (hg.nested hh horder hinside) hh.opens hh.closes ?_
  rwa [hbrace]

theorem Braced.closing_eq {k : Nat} (hh : Braced source.text.toList stop h k) :
    closing source stop h = k := by
  have hlt := hh.lt_stop
  rw [closing, hh.close_eq, Option.getD_some]
  omega

/-- What opens an unchecked block has no closing brace, and ends with an opening one. -/
theorem opens_of_mem_findAll {text : List Char} {c : Cursor} (hc : c.In text)
    (hh : h ∈ uncheckedBlock.findAll c) :
    c.offset ≤ h.start.offset ∧ h.start.offset + 1 < h.stop.offset ∧
      text[h.stop.offset - 1]? = some '\x7b' ∧
      ∀ i, h.start.offset ≤ i → i + 1 < h.stop.offset → text[i]? ≠ some '\x7d' := by
  obtain ⟨hin, hle, e, rs, hword, hbrace⟩ := reads_of_mem_findAll hc hh
  have hopens : (edge ++ "unchecked" ++ blanks).Opens (!isBlank ·) :=
    ((opens_text rfl rfl).check_append _).append _
  have hspells : (edge ++ "unchecked" ++ blanks).Spells (· != '\x7d') := by
    refine ⟨⟨trivial, spells_text (by decide)⟩, fun a ha => ?_⟩
    exact bne_iff_ne.2 fun heq => absurd (heq ▸ ha) (by decide)
  have hlt := (hopens _ _ _ _ _ hin hword).2
  obtain ⟨front, rest, htext, rfl⟩ :=
    Cursor.exists_between (show e.In ([] ++ _) from (hword.in hin).1) (Nat.zero_le _)
  obtain ⟨r, rfl, hstop, -⟩ := reads_text_iff.1 hbrace
  rw [List.nil_append] at hlt hword
  have hoffset : (between front ("\x7b".toList ++ r)).offset + 1 = h.stop.offset := by
    rw [hstop, offset_between, offset_between]
    simp
  refine ⟨hle, by omega, ?_, fun i hi hi' hcloser => ?_⟩
  · rw [← hoffset, offset_between, Nat.add_sub_cancel, htext]
    simp
  · exact absurd (hword.spells hspells hin i '\x7d' hi (by omega) hcloser) (by decide)

variable {b : Block}

/-- An unchecked block in the body of a member ends before the body does. -/
theorem braced_of_mem_findAll (hb : b.Enclosed source.text.toList lo hi)
    (hh : h ∈ uncheckedBlock.findAll (source.window lo hi)) :
    lo ≤ h.start.offset ∧ Braced source.text.toList hi h (closing source hi h) := by
  have hhi : hi < source.text.toList.length := (List.getElem?_eq_some_iff.1 hb.closes).1
  have hwindow := in_window hb.body_le (Nat.le_of_lt (by rwa [Array.length_toList] at hhi))
  obtain ⟨hlo, hstart, hopens, hplain⟩ := opens_of_mem_findAll hwindow hh
  have hlo : lo ≤ h.start.offset := hlo
  have hlt : h.stop.offset - 1 < hi :=
    Nat.lt_of_lt_of_le (List.getElem?_eq_some_iff.1 hopens).1 (List.length_take_le ..)
  rw [List.getElem?_take_of_lt hlt] at hopens
  have hheader := hb.header
  obtain ⟨k, hk, hclose⟩ := hb.balanced.opens (h.stop.offset - 1) (by omega) hlt hopens
  have hbraced : Braced source.text.toList hi h k := by
    refine ⟨hstart, hopens, fun i hi' hi'' => ?_, hclose, hk⟩
    rw [← List.getElem?_take_of_lt (show i < hi by omega)]
    exact hplain i hi' hi''
  exact ⟨hlo, hbraced.closing_eq.symm ▸ hbraced⟩

/-! ## Blocks that are passed over -/

/-- The match that reports an unchecked block, from its word to its closing brace. -/
def uncheckedMatch (source : Source) (stop : Nat) (h : Hit) : Match :=
  ⟨"unchecked-arithmetic", h.start.offset, (closing source stop h + 1 : Nat),
    some "arithmetic inside an unchecked block"⟩

/-- The match for an unchecked block, if there is arithmetic in it. -/
def uncheckedMatch? (source : Source) (stop : Nat) (h : Hit) : Option Match :=
  if arithmetic.occursIn (steplessText source h.stop.offset (closing source stop h)) then
    some (uncheckedMatch source stop h)
  else none

variable {m : Match}

theorem uncheckedMatch?_eq_some_iff : uncheckedMatch? source stop h = some m ↔
    arithmetic.occursIn (steplessText source h.stop.offset (closing source stop h)) ∧
      uncheckedMatch source stop h = m := by
  rw [uncheckedMatch?]
  split
  next harith => simp [harith]
  next harith => simp [harith]

theorem behind_uncheckedMatch (hle : h.start.offset ≤ closing source stop h) :
    (uncheckedMatch source stop h).behind = (closing source stop h + 1 : Nat) := by
  show max ((closing source stop h + 1 : Nat) : Int) (h.start.offset + 1) = _
  omega

/-- The blocks that start at the offset `covered` or behind it, and not inside one that is already
taken. -/
def outermost (source : Source) (stop : Nat) : Nat → List Hit → List Hit
  | _, [] => []
  | covered, h :: hs =>
    if h.start.offset < covered then outermost source stop covered hs
    else h :: outermost source stop (closing source stop h + 1) hs

theorem uncheckedBlocks_eq_outermost : ∀ (hs : List Hit) (found : List Match) (covered : Nat),
    uncheckedBlocks source (Pairs.braces source.text.toList) stop found covered hs =
      found.reverse ++ (outermost source stop covered hs).filterMap (uncheckedMatch? source stop)
  | [], found, covered => (List.append_nil _).symm
  | h :: hs, found, covered => by
    by_cases hcovered : h.start.offset < covered
    · rw [uncheckedBlocks, outermost, if_pos hcovered, if_pos hcovered]
      exact uncheckedBlocks_eq_outermost hs found covered
    · rw [uncheckedBlocks, outermost, if_neg hcovered, if_neg hcovered]
      refine (uncheckedBlocks_eq_outermost hs _ _).trans ?_
      show (if arithmetic.occursIn (steplessText source h.stop.offset (closing source stop h)) then
        uncheckedMatch source stop h :: found else found).reverse ++
          (outermost source stop (closing source stop h + 1) hs).filterMap _ = _
      rw [List.filterMap_cons, uncheckedMatch?]
      split
      · rw [List.reverse_cons, List.append_assoc]
        rfl
      · rfl

theorem sublist_outermost : ∀ {hs : List Hit} {covered : Nat},
    (outermost source stop covered hs).Sublist hs
  | [], _ => .slnil
  | h :: hs, covered => by
    rw [outermost]
    split
    · exact sublist_outermost.cons h
    · exact sublist_outermost.cons_cons h

theorem le_of_mem_outermost : ∀ {hs : List Hit} {covered : Nat},
    (∀ h ∈ hs, h.start.offset ≤ closing source stop h) → h ∈ outermost source stop covered hs →
      covered ≤ h.start.offset
  | g :: hs, covered, hhs, hmem => by
    obtain ⟨hg, hhs⟩ := List.forall_mem_cons.1 hhs
    rw [outermost] at hmem
    split at hmem
    next => exact le_of_mem_outermost hhs hmem
    next hcovered =>
      rcases List.mem_cons.1 hmem with rfl | hmem
      · exact Nat.le_of_not_lt hcovered
      · have hle := le_of_mem_outermost hhs hmem
        omega

/-- Each of the blocks that are taken starts behind the ones before it. -/
theorem pairwise_outermost : ∀ {hs : List Hit} {covered : Nat},
    (∀ h ∈ hs, h.start.offset ≤ closing source stop h) →
      (outermost source stop covered hs).Pairwise fun g h => closing source stop g < h.start.offset
  | [], _, _ => .nil
  | g :: hs, covered, hhs => by
    have hrest := (List.forall_mem_cons.1 hhs).2
    rw [outermost]
    split
    · exact pairwise_outermost hrest
    · exact .cons (fun h hh => le_of_mem_outermost hrest hh) (pairwise_outermost hrest)

/-- A block that is passed over starts inside one that is not. -/
theorem exists_outermost : ∀ {hs : List Hit} {covered : Nat},
    hs.Pairwise (fun g h => g.stop.offset ≤ h.start.offset) → h ∈ hs → covered ≤ h.start.offset →
      h ∈ outermost source stop covered hs ∨ ∃ g ∈ outermost source stop covered hs,
        g.stop.offset ≤ h.start.offset ∧ h.start.offset ≤ closing source stop g
  | g :: hs, covered, horder, hmem, hle => by
    obtain ⟨hg, horder⟩ := List.pairwise_cons.1 horder
    rw [outermost]
    split
    next hcovered =>
      rcases List.mem_cons.1 hmem with rfl | hmem
      · omega
      · exact exists_outermost horder hmem hle
    next =>
      rcases List.mem_cons.1 hmem with rfl | hmem
      · exact Or.inl List.mem_cons_self
      · by_cases hinside : h.start.offset ≤ closing source stop g
        · exact Or.inr ⟨g, List.mem_cons_self, hg h hmem, hinside⟩
        · rcases exists_outermost horder hmem (Nat.lt_of_not_le hinside) with hout | ⟨x, hx, hspan⟩
          · exact Or.inl (List.mem_cons_of_mem g hout)
          · exact Or.inr ⟨x, List.mem_cons_of_mem g hx, hspan⟩

/-! ## All blocks of a body -/

/-- The unchecked blocks of a body, one behind the other, each between its braces. -/
structure InBody (source : Source) (lo hi : Nat) (hs : List Hit) : Prop where
  ordered : hs.Pairwise fun g h => g.stop.offset ≤ h.start.offset
  starts : ∀ h ∈ hs, lo ≤ h.start.offset
  braced : ∀ h ∈ hs, Braced source.text.toList hi h (closing source hi h)

theorem inBody_findAll (hb : b.Enclosed source.text.toList lo hi) :
    InBody source lo hi (uncheckedBlock.findAll (source.window lo hi)) := by
  have hhi := (List.getElem?_eq_some_iff.1 hb.closes).1
  rw [Array.length_toList] at hhi
  exact ⟨opens_uncheckedBlock.pairwise_findAll (in_window hb.body_le (Nat.le_of_lt hhi)),
    fun h hh => (braced_of_mem_findAll hb hh).1, fun h hh => (braced_of_mem_findAll hb hh).2⟩

namespace InBody

variable {hs : List Hit}

theorem start_le (hhs : InBody source lo hi hs) :
    ∀ h ∈ hs, h.start.offset ≤ closing source hi h := by
  intro h hh
  have hlt := (hhs.braced h hh).start_lt
  have hle := (hhs.braced h hh).stop_le
  omega

/-- The matches in the blocks that are taken lie apart. -/
theorem apart (hhs : InBody source lo hi hs) (covered : Nat) :
    Apart ((outermost source hi covered hs).filterMap (uncheckedMatch? source hi)) := by
  refine List.pairwise_filterMap.2 ((pairwise_outermost hhs.start_le).imp_of_mem ?_)
  intro g h hg hh hlt m hm m' hm'
  obtain ⟨-, rfl⟩ := uncheckedMatch?_eq_some_iff.1 hm
  obtain ⟨-, rfl⟩ := uncheckedMatch?_eq_some_iff.1 hm'
  rw [behind_uncheckedMatch (hhs.start_le g (sublist_outermost.subset hg))]
  exact Int.ofNat_le.2 hlt

/-- Each match in a block lies within a match in one of the blocks that are taken. -/
theorem exists_within (hhs : InBody source lo hi hs)
    (hm : m ∈ hs.filterMap (uncheckedMatch? source hi)) :
    ∃ m' ∈ (outermost source hi lo hs).filterMap (uncheckedMatch? source hi), m.Within m' := by
  obtain ⟨h, hh, hmatch⟩ := List.mem_filterMap.1 hm
  have htaken := @exists_outermost source hi h hs lo hhs.ordered hh (hhs.starts h hh)
  rcases htaken with hout | ⟨g, hout, horder, hinside⟩
  · exact ⟨m, List.mem_filterMap.2 ⟨h, hout, hmatch⟩, Or.inl rfl⟩
  · obtain ⟨harith, rfl⟩ := uncheckedMatch?_eq_some_iff.1 hmatch
    have hg := sublist_outermost.subset hout
    have hbg := hhs.braced g hg
    have hbh := hhs.braced h hh
    have harith' := hbg.arithmetic hbh horder hinside harith
    refine ⟨_, List.mem_filterMap.2 ⟨g, hout, uncheckedMatch?_eq_some_iff.2 ⟨harith', rfl⟩⟩,
      Or.inr ?_⟩
    have hstart : (uncheckedMatch source hi g).start < (uncheckedMatch source hi h).start := by
      have hlt := hbg.start_lt
      exact Int.ofNat_lt.2 (by omega)
    have hbehind : (uncheckedMatch source hi h).behind ≤ (uncheckedMatch source hi g).behind := by
      rw [behind_uncheckedMatch (hhs.start_le g hg), behind_uncheckedMatch (hhs.start_le h hh)]
      exact Int.ofNat_le.2 (Nat.succ_le_succ (Nat.le_of_lt (hbg.nested hbh horder hinside)))
    refine ⟨Int.le_of_lt hstart, hbehind, ?_⟩
    unfold Match.width
    omega

theorem bounds (hhs : InBody source lo hi hs) (hm : m ∈ hs.filterMap (uncheckedMatch? source hi)) :
    (lo : Int) ≤ m.start ∧ m.behind ≤ hi := by
  obtain ⟨h, hh, hmatch⟩ := List.mem_filterMap.1 hm
  obtain ⟨-, rfl⟩ := uncheckedMatch?_eq_some_iff.1 hmatch
  rw [behind_uncheckedMatch (hhs.start_le h hh)]
  exact ⟨Int.ofNat_le.2 (hhs.starts h hh), Int.ofNat_le.2 (hhs.braced h hh).lt_stop⟩

end InBody

/-! ## The rule -/

/-- A way to look at the unchecked blocks of a body. -/
abbrev BlockReader :=
  Source → Nat → Nat → List Hit → List Match

/-- What is found in the unchecked blocks of a member that could be read, in the given way. -/
def inBody (inBlocks : BlockReader) (source : Source) (b : Block) : List Match :=
  match b.body with
  | some (lo, hi) => inBlocks source lo hi (uncheckedBlock.findAll (source.window lo hi))
  | none => []

/-- What is found in a member : its statements count under a compiler that checks nothing. -/
def arithmeticIn (inBlocks : BlockReader) (legacy : Bool) (source : Source) (b : Block) :
    List Match :=
  (if legacy then
    (b.statements.filter fun s => s.target.isSome && s.shows arithmetic).map
      (·.matched "unchecked-arithmetic"
        "arithmetic on storage under a pre-0.8 compiler without SafeMath")
  else []) ++ inBody inBlocks source b

/-- The rule on arithmetic, with the way in which the unchecked blocks of a body are looked at left
open. -/
def arithmeticWith (inBlocks : BlockReader) : Detector :=
  fun source bs =>
    match isLegacy source.text.toList with
    | .ok old =>
      eachParsed (fun s b =>
        pure (arithmeticIn inBlocks (old && !safeMath.occursIn source.text.toList) s b))
        source bs
    | .error fault => .error (.overlong fault)

/-- The matches in the blocks that lie in no other one. -/
def inOutermost : BlockReader := fun source lo hi hs =>
  (outermost source hi lo hs).filterMap (uncheckedMatch? source hi)

/-- The matches in all blocks. -/
def inAll : BlockReader := fun source _ hi hs =>
  hs.filterMap (uncheckedMatch? source hi)

theorem uncheckedArithmetic_eq : uncheckedArithmetic = arithmeticWith inOutermost := by
  have hblocks : inOutermost = fun source lo hi hs =>
      uncheckedBlocks source (Pairs.braces source.text.toList) hi [] lo hs := by
    funext source lo hi hs
    exact (uncheckedBlocks_eq_outermost hs [] lo).symm
  rw [hblocks]
  funext source bs
  unfold uncheckedArithmetic arithmeticWith
  dsimp only
  cases isLegacy source.text.toList <;> rfl

theorem inOutermost_subset {hs : List Hit} : inOutermost source lo hi hs ⊆ inAll source lo hi hs :=
  (sublist_outermost.filterMap _).subset

variable {inBlocks : BlockReader}

/-- What is found in the unchecked blocks of all members, in the given way. -/
def inMembers (inBlocks : BlockReader) (source : Source) : List Match :=
  source.outline.blocks.flatMap fun b => if b.isParsed then inBody inBlocks source b else []

theorem mem_inMembers_iff : m ∈ inMembers inBlocks source ↔
    ∃ b ∈ source.outline.blocks, b.isParsed ∧ m ∈ inBody inBlocks source b := by
  simp only [inMembers, List.mem_flatMap, List.mem_ite_nil_right]

/-- Where arithmetic is checked elsewhere, only the unchecked blocks count. -/
theorem arithmeticWith_eq {old : Bool} (hold : isLegacy source.text.toList = .ok old)
    (hquiet : old = false ∨ safeMath.occursIn source.text.toList) :
    arithmeticWith inBlocks source source.outline.blocks = .ok (inMembers inBlocks source) := by
  have hnot : (old && !safeMath.occursIn source.text.toList) = false := by
    rcases hquiet with rfl | hsafe
    · rfl
    · simp [hsafe]
  unfold arithmeticWith
  rw [hold]
  dsimp only
  rw [hnot]
  exact eachParsed_pure (arithmeticIn inBlocks false) source source.outline.blocks

/-- The blocks of a member that could be read. -/
theorem exists_inBody (hb : b ∈ source.outline.blocks) (hparsed : b.isParsed) :
    ∃ lo hi hs, InBody source lo hi hs ∧ b.start < lo ∧ b.stop = hi + 1 ∧
      ∀ inBlocks, inBody inBlocks source b = inBlocks source lo hi hs := by
  obtain ⟨o, hpassed⟩ := Outline.passed source.text.toList
  obtain ⟨lo, hi, henclosed⟩ := (hpassed.fits b (List.mem_reverse.2 hb)).enclosed hparsed
  refine ⟨lo, hi, _, inBody_findAll henclosed, henclosed.header, henclosed.stop_eq,
    fun inBlocks => ?_⟩
  rw [inBody, henclosed.body_eq]

/-- The matches in the blocks that lie in no other one lie apart, over all members. -/
theorem apart_inMembers (source : Source) : Apart (inMembers inOutermost source) := by
  obtain ⟨o, hpassed⟩ := Outline.passed source.text.toList
  have hordered : source.outline.blocks.Pairwise Block.Before :=
    List.pairwise_reverse.1 hpassed.ordered
  refine List.pairwise_flatMap.2 ⟨fun b hb => ?_,
    hordered.imp_of_mem fun {a b} ha hb hab m hm m' hm' => ?_⟩
  · split
    next hparsed =>
      obtain ⟨lo, hi, hs, hhs, -, -, heq⟩ := exists_inBody hb hparsed
      rw [heq]
      exact hhs.apart lo
    next => exact .nil
  · obtain ⟨hparsed, hm⟩ := List.mem_ite_nil_right.1 hm
    obtain ⟨hparsed', hm'⟩ := List.mem_ite_nil_right.1 hm'
    obtain ⟨lo, hi, hs, hhs, -, hstop, heq⟩ := exists_inBody ha hparsed
    obtain ⟨lo', hi', hs', hhs', hstart, -, heq'⟩ := exists_inBody hb hparsed'
    rw [heq] at hm
    rw [heq'] at hm'
    have hbehind := (hhs.bounds (inOutermost_subset hm)).2
    have hahead := (hhs'.bounds (inOutermost_subset hm')).1
    have hbefore := hab.2 hparsed
    omega

/-- Of the matches in all blocks, those in the blocks that lie in no other one are kept. -/
theorem keepWidest_inAll (source : Source) :
    keepWidest (inMembers inAll source) = inMembers inOutermost source := by
  refine keepWidest_of_within (apart_inMembers source) (fun m hm => ?_) fun m hm => ?_
  · obtain ⟨b, hb, hparsed, hm⟩ := mem_inMembers_iff.1 hm
    obtain ⟨lo, hi, hs, -, -, -, heq⟩ := exists_inBody hb hparsed
    rw [heq] at hm
    refine mem_inMembers_iff.2 ⟨b, hb, hparsed, ?_⟩
    rw [heq]
    exact inOutermost_subset hm
  · obtain ⟨b, hb, hparsed, hm⟩ := mem_inMembers_iff.1 hm
    obtain ⟨lo, hi, hs, hhs, -, -, heq⟩ := exists_inBody hb hparsed
    rw [heq] at hm
    obtain ⟨m', hm', hwithin⟩ := hhs.exists_within hm
    refine ⟨m', mem_inMembers_iff.2 ⟨b, hb, hparsed, ?_⟩, hwithin⟩
    rwa [heq]

theorem ruleId_of_mem_inAll (hm : m ∈ inMembers inAll source) :
    m.ruleId = "unchecked-arithmetic" := by
  obtain ⟨b, hb, hparsed, hm⟩ := mem_inMembers_iff.1 hm
  obtain ⟨lo, hi, hs, -, -, -, heq⟩ := exists_inBody hb hparsed
  rw [heq] at hm
  obtain ⟨h, -, hmatch⟩ := List.mem_filterMap.1 hm
  obtain ⟨-, rfl⟩ := uncheckedMatch?_eq_some_iff.1 hmatch
  rfl

/-- The rule on arithmetic that looks at every unchecked block, also inside others. -/
def arithmeticInAll : Detector :=
  arithmeticWith inAll

/-- Where arithmetic is checked elsewhere, it does not matter whether the blocks inside others are
looked at : once overlaps are dropped the matches are the same, and there is an answer if the
compiler's version can be read. -/
theorem uncheckedArithmetic_inAll (source : Source)
    (hquiet : isLegacy source.text.toList = .ok false ∨ safeMath.occursIn source.text.toList) :
    (uncheckedArithmetic source source.outline.blocks).map dropOverlaps =
        (arithmeticInAll source source.outline.blocks).map dropOverlaps ∧
      ((∃ old, isLegacy source.text.toList = .ok old) →
        ∃ ms, uncheckedArithmetic source source.outline.blocks = .ok ms) := by
  rw [uncheckedArithmetic_eq, arithmeticInAll]
  cases hold : isLegacy source.text.toList with
  | error fault =>
    constructor
    · simp only [arithmeticWith, hold]
    · rintro ⟨old, hok⟩
      cases hok
  | ok old =>
    have hquiet' : old = false ∨ safeMath.occursIn source.text.toList := by
      rw [hold] at hquiet
      exact hquiet.imp_left Except.ok.inj
    rw [arithmeticWith_eq hold hquiet', arithmeticWith_eq hold hquiet']
    refine ⟨congrArg Except.ok ?_, fun _ => ⟨_, rfl⟩⟩
    have hkept := keepWidest_inAll source
    have hids : ∀ m ∈ inMembers inOutermost source, m.ruleId = "unchecked-arithmetic" := fun m hm =>
      ruleId_of_mem_inAll (mem_of_mem_keepWidest (hkept ▸ hm))
    rw [dropOverlaps_of_ruleId hids, dropOverlaps_of_ruleId fun m hm => ruleId_of_mem_inAll hm,
      hkept, keepWidest_of_apart (apart_inMembers source)]

/-- A member with an unchecked block inside another one. -/
def nestedBlocks : Source :=
  .ofChars
    "contract C\x7bfunction f()public\x7bunchecked\x7bunchecked\x7bx=y-z;\x7d\x7d\x7d\x7d".toList

theorem uncheckedArithmetic_nestedBlocks : isLegacy nestedBlocks.text.toList = .ok false ∧
    arithmeticInAll nestedBlocks nestedBlocks.outline.blocks = .ok [
      ⟨"unchecked-arithmetic", 30, 58, some "arithmetic inside an unchecked block"⟩,
      ⟨"unchecked-arithmetic", 40, 57, some "arithmetic inside an unchecked block"⟩] ∧
    (uncheckedArithmetic nestedBlocks nestedBlocks.outline.blocks).map dropOverlaps =
      (arithmeticInAll nestedBlocks nestedBlocks.outline.blocks).map dropOverlaps ∧
    ∃ ms, uncheckedArithmetic nestedBlocks nestedBlocks.outline.blocks = .ok ms := by
  have hquiet : isLegacy nestedBlocks.text.toList = .ok false := by decide +kernel
  obtain ⟨hsame, hanswers⟩ := uncheckedArithmetic_inAll nestedBlocks (Or.inl hquiet)
  exact ⟨hquiet, by decide +kernel, hsame, hanswers ⟨false, hquiet⟩⟩

end Detector

end ContractAudit
