import ContractAudit.Proofs.Text.Place

/-!
# Matches at a place of a text

`Pattern.Takes p c ps d qs` says that the way to match that `p` prefers from `c` on leads to `d`,
whatever is asked for behind it to be tried; how a pattern is built tells where it leads.
`Pattern.Misses` says that there is no way at all. What a match spells follows from how the pattern
is built, too (`Pattern.reads_stretch_iff` and the lemmas behind it). A search passes over a stretch
of text in which nothing matches (`Pattern.find?_between_append`).
-/

namespace ContractAudit

variable {front w rest : List Char}

/-! ## Identifiers -/

variable {a : Char}

theorem isWordChar_of_isIdentStart (h : isIdentStart a) : isWordChar a := by
  simp only [isIdentStart, isAsciiLetter, Bool.or_eq_true, Bool.and_eq_true, decide_eq_true_eq,
    beq_iff_eq] at h
  have hlt : a.toNat < 0x80 := by
    have hcode : ∀ b : Char, a ≤ b → a.toNat ≤ b.toNat := fun b hb => UInt32.le_iff_toNat_le.1 hb
    rcases h with (⟨-, h⟩ | ⟨-, h⟩) | rfl
    · exact Nat.lt_of_le_of_lt (hcode _ h) (by decide)
    · exact Nat.lt_of_le_of_lt (hcode _ h) (by decide)
    · decide
  have hletter : isAsciiLetter a = true ∨ a = '_' := by simpa [isAsciiLetter] using h
  rcases hletter with hletter | hletter <;> simp [isWordChar, hlt, hletter]

/-- A text that starts like an identifier and goes on with word characters. -/
def isIdentifier (cs : List Char) : Bool :=
  cs.head?.any isIdentStart && cs.all isWordChar

/-- A character of a name or of a path of names. -/
def isNameChar (c : Char) : Bool :=
  isWordChar c || c == '.'

variable {cs : List Char}

theorem isIdentifier_cons : isIdentifier (a :: cs) ↔ isIdentStart a ∧ ∀ b ∈ cs, isWordChar b := by
  have hstart : isIdentStart a → isWordChar a := isWordChar_of_isIdentStart
  simp only [isIdentifier, List.head?_cons, Option.any_some, List.all_cons, Bool.and_eq_true,
    List.all_eq_true]
  exact ⟨fun h => ⟨h.1, h.2.2⟩, fun h => ⟨h.1, hstart h.1, h.2⟩⟩

theorem isWordChar_of_isIdentifier (h : isIdentifier cs) : ∀ a ∈ cs, isWordChar a := by
  simp only [isIdentifier, Bool.and_eq_true] at h
  exact List.all_eq_true.1 h.2

/-! ## Parts of a match -/

namespace Hit

variable {start stop c d : Cursor} {label other : String} {ps : Parts}

theorem part?_cons_self :
    (Hit.mk start stop ((label, c, d) :: ps)).part? label = some (c.textTo d) := by
  simp [part?]

theorem part?_cons_ne (h : (label == other) = false) :
    (Hit.mk start stop ((other, c, d) :: ps)).part? label = (Hit.mk start stop ps).part? label := by
  simp [part?, List.lookup_cons, h]

theorem part_cons_self : (Hit.mk start stop ((label, c, d) :: ps)).part label = c.textTo d := by
  rw [part, part?_cons_self, Option.getD_some]

theorem part_cons_ne (h : (label == other) = false) :
    (Hit.mk start stop ((other, c, d) :: ps)).part label = (Hit.mk start stop ps).part label := by
  rw [part, part?_cons_ne h, part]

end Hit

namespace Pattern

open Cursor

/-! ## The preferred match -/

/-- The match that the pattern prefers from `c` on leads to `d`, and the parts `ps` grow to `qs` :
if what follows accepts it, it is the one. -/
structure Takes (p : Pattern) (c : Cursor) (ps : Parts) (d : Cursor) (qs : Parts) : Prop where
  read : ∀ {α : Type} {k : Cursor → Parts → Option α} {x : α}, k d qs = some x →
    p.read c ps k = some x

/-- The pattern does not match from `c` on. -/
def Misses (p : Pattern) (c : Cursor) : Prop :=
  ∀ (ps : Parts) (d : Cursor) (qs : Parts), ¬p.Reads c ps d qs

variable {α : Type} {ok : Char → Bool} {u : String}

section Takes

variable {p q : Pattern} {c d e : Cursor} {ps qs rs : Parts}

theorem Misses.read (h : p.Misses c) (ps : Parts) (k : Cursor → Parts → Option α) :
    p.read c ps k = none := by
  cases hread : p.read c ps k with
  | none => rfl
  | some x =>
    obtain ⟨d, qs, hreads, -⟩ := exists_reads_of_read p hread
    exact absurd hreads (h ps d qs)

theorem Misses.at? (h : p.Misses c) : p.at? c = none :=
  h.read [] _

theorem Takes.at? (h : p.Takes c [] d qs) : p.at? c = some ⟨c, d, qs⟩ :=
  h.read rfl

/-- The preferred match is one. -/
theorem Takes.reads (h : p.Takes c ps d qs) : p.Reads c ps d qs := by
  have hread : p.read c ps (fun d qs => some (d, qs)) = some (d, qs) := h.read rfl
  obtain ⟨d', qs', hreads, heq⟩ := exists_reads_of_read p hread
  obtain ⟨rfl, rfl⟩ := Prod.mk.inj (Option.some.inj heq)
  exact hreads

theorem takes_char (ha : ok a) (front rest : List Char) (ps : Parts) :
    (char ok).Takes (between front (a :: rest)) ps (between (front ++ [a]) rest) ps := by
  refine ⟨fun {α k x} hk => ?_⟩
  show (if ok a then k ⟨front.length + 1, some a, rest⟩ ps else none) = some x
  rw [if_pos ha, next_between, hk]

theorem takes_text (w : String) (front rest : List Char) (ps : Parts) :
    (Pattern.text w).Takes (between front (w.toList ++ rest)) ps (between (front ++ w.toList) rest)
      ps := by
  refine ⟨fun {_ k x} hk => ?_⟩
  simp only [Pattern.text, Pattern.read, past?_between, hk]

theorem takes_symbol (hu : u.toList = [a]) (front rest : List Char) (ps : Parts) :
    (Pattern.text u).Takes (between front (a :: rest)) ps (between (front ++ [a]) rest) ps := by
  have h := takes_text u front rest ps
  rwa [hu] at h

theorem takes_check {ok : Cursor → Bool} (hc : ok c) (ps : Parts) : (check ok).Takes c ps c ps := by
  refine ⟨fun {_ k x} hk => ?_⟩
  rw [Pattern.read, if_pos hc, hk]

theorem takes_stretch (hw : ∀ a ∈ w, ok a) (hrest : rest.head?.any ok = false) (front : List Char)
    (ps : Parts) :
    (stretch ok).Takes (between front (w ++ rest)) ps (between (front ++ w) rest) ps := by
  refine ⟨fun {_ k x} hk => ?_⟩
  obtain ⟨ds, hds⟩ := List.head?_eq_some_iff.1 (head?_run front hw hrest)
  simp only [Pattern.read, hds, List.findSome?_cons, hk]

/-- No character of the class comes first. -/
theorem takes_stretch_nil (hrest : rest.head?.any ok = false) (front : List Char) (ps : Parts) :
    (stretch ok).Takes (between front rest) ps (between front rest) ps := by
  have h : (stretch ok).Takes (between front ([] ++ rest)) ps (between (front ++ []) rest) ps :=
    takes_stretch (by simp) hrest front ps
  rwa [List.nil_append, List.append_nil] at h

theorem Takes.append (hp : p.Takes c ps d qs) (hq : q.Takes d qs e rs) :
    (p ++ q).Takes c ps e rs :=
  ⟨fun hk => hp.read (hq.read hk)⟩

theorem Takes.named (h : p.Takes c ps d qs) (label : String) :
    (named label p).Takes c ps d ((label, c, d) :: qs) :=
  ⟨fun hk => h.read hk⟩

theorem Takes.alt_left (h : p.Takes c ps d qs) (q : Pattern) : (alt p q).Takes c ps d qs := by
  refine ⟨fun {_ k x} hk => ?_⟩
  simp only [Pattern.read, h.read hk]

theorem Takes.alt_right (hp : p.Misses c) (h : q.Takes c ps d qs) : (alt p q).Takes c ps d qs := by
  refine ⟨fun {_ k x} hk => ?_⟩
  simp only [Pattern.read, hp.read ps k, h.read hk]

/-- A character of one class and the stretch of another behind it. -/
theorem takes_char_stretch {first later : Char → Bool} (ha : first a) (hw : ∀ b ∈ w, later b)
    (hrest : rest.head?.any later = false) (front : List Char) (ps : Parts) :
    (char first ++ stretch later).Takes (between front (a :: (w ++ rest))) ps
      (between (front ++ a :: w) rest) ps := by
  have h := (takes_char ha front (w ++ rest) ps).append (takes_stretch hw hrest (front ++ [a]) ps)
  rwa [List.append_assoc, List.singleton_append] at h

theorem takes_stretch1 (hw : ∀ b ∈ a :: w, ok b) (hrest : rest.head?.any ok = false)
    (front : List Char) (ps : Parts) : (stretch1 ok).Takes (between front (a :: (w ++ rest))) ps
      (between (front ++ a :: w) rest) ps := by
  obtain ⟨ha, hw⟩ := List.forall_mem_cons.1 hw
  exact takes_char_stretch ha hw hrest front ps

theorem takes_ident (hw : isIdentifier w) (hrest : rest.head?.any isWordChar = false)
    (front : List Char) (ps : Parts) :
    ident.Takes (between front (w ++ rest)) ps (between (front ++ w) rest) ps := by
  cases w with
  | nil => simp [isIdentifier] at hw
  | cons a w =>
    obtain ⟨ha, hw⟩ := isIdentifier_cons.1 hw
    exact takes_char_stretch ha hw hrest front ps

/-- The first of the patterns is taken. -/
theorem Takes.oneOf_head (h : p.Takes c ps d qs) (others : List Pattern) :
    (oneOf (p :: others)).Takes c ps d qs :=
  h.alt_left _

/-- The first of the patterns does not match, and one of the others is taken. -/
theorem Takes.oneOf_tail {others : List Pattern} (hp : p.Misses c)
    (h : (oneOf others).Takes c ps d qs) : (oneOf (p :: others)).Takes c ps d qs :=
  h.alt_right hp

theorem Takes.maybe (h : p.Takes c ps d qs) : (maybe p).Takes c ps d qs :=
  h.alt_left _

theorem takes_maybe_nothing (hp : p.Misses c) (ps : Parts) : (maybe p).Takes c ps c ps :=
  .alt_right hp (takes_check rfl ps)

end Takes

/-! ## No match -/

section Misses

variable {p q : Pattern} {c : Cursor}

theorem misses_text (h : ¬u.toList <+: rest) (front : List Char) :
    (Pattern.text u).Misses (between front rest) := by
  rintro ps d qs ⟨hpast, -⟩
  refine h ?_
  have htake := take_of_past? _ hpast
  rw [rest_between] at htake
  exact htake ▸ List.take_prefix _ _

theorem Misses.append (h : p.Misses c) (q : Pattern) : (p ++ q).Misses c := by
  rintro ps d qs ⟨e, rs, hp, -⟩
  exact h ps e rs hp

theorem Misses.named (h : p.Misses c) (label : String) : (named label p).Misses c := by
  rintro ps d qs ⟨rs, hp, -⟩
  exact h ps d rs hp

theorem misses_oneOf {ps : List Pattern} (h : ∀ p ∈ ps, p.Misses c) : (oneOf ps).Misses c := by
  intro qs d rs hreads
  obtain ⟨p, hp, hreads⟩ := reads_oneOf_iff.1 hreads
  exact h p hp qs d rs hreads

theorem Opens.misses (h : p.Opens ok) (hrest : rest.head?.any ok = false) (front : List Char) :
    p.Misses (between front rest) := by
  intro ps d qs hreads
  have hpeek := (h _ _ d ps qs (in_between front rest) hreads).1
  simp [hrest] at hpeek

end Misses

/-! ## What a match spells -/

section Reads

variable {p : Pattern} {c d : Cursor} {ps qs : Parts}

theorem Reads.exists_between (h : p.Reads (between front rest) ps d qs) :
    ∃ w r, rest = w ++ r ∧ d = between (front ++ w) r :=
  have hin := h.in (in_between front rest)
  Cursor.exists_between hin.1 hin.2

theorem reads_stretch_iff : (stretch ok).Reads (between front rest) ps d qs ↔
      ∃ w r, rest = w ++ r ∧ (∀ a ∈ w, ok a) ∧ d = between (front ++ w) r ∧ qs = ps := by
  constructor
  · intro h
    obtain ⟨w, r, rfl, rfl⟩ := h.exists_between
    have hall := all_of_mem_run h.1
    rw [textTo_between] at hall
    exact ⟨w, r, rfl, hall, rfl, h.2⟩
  · rintro ⟨w, r, rfl, hw, rfl, rfl⟩
    exact ⟨mem_run hw, rfl⟩

theorem reads_shortStretch_iff : (shortStretch ok).Reads (between front rest) ps d qs ↔
      ∃ w r, rest = w ++ r ∧ (∀ a ∈ w, ok a) ∧ d = between (front ++ w) r ∧ qs = ps :=
  reads_stretch_iff

theorem reads_char_iff : (char ok).Reads (between front rest) ps d qs ↔
      ∃ a r, rest = a :: r ∧ ok a ∧ d = between (front ++ [a]) r ∧ qs = ps := by
  simp only [Reads, rest_between, offset_between, next_between]

theorem reads_text_iff : (Pattern.text u).Reads (between front rest) ps d qs ↔
      ∃ r, rest = u.toList ++ r ∧ d = between (front ++ u.toList) r ∧ qs = ps := by
  constructor
  · rintro ⟨hpast, hqs⟩
    have htake := take_of_past? _ hpast
    rw [rest_between] at htake
    have hrest : rest = u.toList ++ rest.drop u.toList.length :=
      (List.take_append_drop ..).symm.trans (congrArg (· ++ _) htake)
    refine ⟨rest.drop u.toList.length, hrest, ?_, hqs⟩
    rw [hrest, past?_between] at hpast
    exact (Option.some.inj hpast).symm
  · rintro ⟨r, rfl, rfl, rfl⟩
    exact ⟨past?_between .., rfl⟩

theorem reads_symbol_iff (hu : u.toList = [a]) :
    (Pattern.text u).Reads (between front rest) ps d qs ↔
      ∃ r, rest = a :: r ∧ d = between (front ++ [a]) r ∧ qs = ps := by
  rw [reads_text_iff, hu]
  rfl

theorem reads_check_iff {ok : Cursor → Bool} :
    (check ok).Reads c ps d qs ↔ ok c ∧ d = c ∧ qs = ps :=
  Iff.rfl

theorem reads_append_iff {q : Pattern} :
    (p ++ q).Reads c ps d qs ↔ ∃ e rs, p.Reads c ps e rs ∧ q.Reads e rs d qs :=
  Iff.rfl

theorem Reads.append {q : Pattern} {e : Cursor} {rs : Parts} (hp : p.Reads c ps d qs)
    (hq : q.Reads d qs e rs) : (p ++ q).Reads c ps e rs :=
  ⟨d, qs, hp, hq⟩

theorem Reads.named (h : p.Reads c ps d qs) (label : String) :
    (named label p).Reads c ps d ((label, c, d) :: qs) :=
  ⟨qs, h, rfl⟩

theorem reads_named_iff {label : String} :
    (named label p).Reads c ps d qs ↔ ∃ rs, p.Reads c ps d rs ∧ qs = (label, c, d) :: rs :=
  Iff.rfl

theorem reads_maybe_iff :
    (maybe p).Reads c ps d qs ↔ p.Reads c ps d qs ∨ d = c ∧ qs = ps := by
  simp [maybe, nothing, Reads]

theorem reads_char_stretch_iff {first later : Char → Bool} :
    (char first ++ stretch later).Reads (between front rest) ps d qs ↔
      ∃ a w r, rest = a :: (w ++ r) ∧ first a ∧ (∀ b ∈ w, later b) ∧
        d = between (front ++ a :: w) r ∧ qs = ps := by
  rw [reads_append_iff]
  constructor
  · rintro ⟨e, rs, hchar, hstretch⟩
    obtain ⟨a, r, rfl, ha, rfl, rfl⟩ := reads_char_iff.1 hchar
    obtain ⟨w, r', rfl, hw, rfl, rfl⟩ := reads_stretch_iff.1 hstretch
    exact ⟨a, w, r', rfl, ha, hw, by simp, rfl⟩
  · rintro ⟨a, w, r, rfl, ha, hw, rfl, rfl⟩
    exact ⟨_, _, reads_char_iff.2 ⟨a, w ++ r, rfl, ha, rfl, rfl⟩,
      reads_stretch_iff.2 ⟨w, r, rfl, hw, by simp, rfl⟩⟩

theorem reads_stretch1_iff : (stretch1 ok).Reads (between front rest) ps d qs ↔
      ∃ w r, rest = w ++ r ∧ w ≠ [] ∧ (∀ a ∈ w, ok a) ∧ d = between (front ++ w) r ∧ qs = ps := by
  rw [stretch1, reads_char_stretch_iff]
  constructor
  · rintro ⟨a, w, r, rfl, ha, hw, rfl, rfl⟩
    exact ⟨a :: w, r, rfl, List.cons_ne_nil a w, List.forall_mem_cons.2 ⟨ha, hw⟩, rfl, rfl⟩
  · rintro ⟨w, r, rfl, hne, hw, rfl, rfl⟩
    obtain ⟨a, w, rfl⟩ := List.exists_cons_of_ne_nil hne
    obtain ⟨ha, hw⟩ := List.forall_mem_cons.1 hw
    exact ⟨a, w, r, rfl, ha, hw, rfl, rfl⟩

theorem reads_ident_iff :
    ident.Reads (between front rest) ps d qs ↔
      ∃ w r, rest = w ++ r ∧ isIdentifier w ∧ d = between (front ++ w) r ∧ qs = ps := by
  rw [ident, reads_char_stretch_iff]
  constructor
  · rintro ⟨a, w, r, rfl, ha, hw, rfl, rfl⟩
    exact ⟨a :: w, r, rfl, isIdentifier_cons.2 ⟨ha, hw⟩, rfl, rfl⟩
  · rintro ⟨w, r, rfl, hw, rfl, rfl⟩
    cases w with
    | nil => simp [isIdentifier] at hw
    | cons a w =>
      obtain ⟨ha, hw⟩ := isIdentifier_cons.1 hw
      exact ⟨a, w, r, rfl, ha, hw, rfl, rfl⟩

theorem reads_atEnd_iff :
    Pattern.atEnd.Reads (between front rest) ps d qs ↔
      (rest = [] ∨ rest = ['\n']) ∧ d = between front rest ∧ qs = ps := by
  simp [Pattern.atEnd, reads_check_iff, Cursor.atEnd]

/-- The pattern keeps no part of its match. -/
def keepsNothing : Pattern → Bool
  | named _ _ => false
  | seq p q | alt p q => p.keepsNothing && q.keepsNothing
  | char _ | word _ _ | check _ | stretch _ | shortStretch _ | many _ => true

theorem Reads.parts_eq : ∀ {p : Pattern} {c d : Cursor} {ps qs : Parts}, p.keepsNothing →
    p.Reads c ps d qs → qs = ps
  | char _, _, _, _, _, _, ⟨_, _, _, _, _, h⟩ => h
  | word _ _, _, _, _, _, _, h => h.2
  | check _, _, _, _, _, _, h => h.2.2
  | seq p q, _, _, _, _, hkeeps, ⟨_, _, hp, hq⟩ => by
    rw [keepsNothing, Bool.and_eq_true] at hkeeps
    rw [hq.parts_eq hkeeps.2, hp.parts_eq hkeeps.1]
  | alt p q, _, _, _, _, hkeeps, h => by
    rw [keepsNothing, Bool.and_eq_true] at hkeeps
    rcases h with h | h
    · exact h.parts_eq hkeeps.1
    · exact h.parts_eq hkeeps.2
  | stretch _, _, _, _, _, _, h => h.2
  | shortStretch _, _, _, _, _, _, h => h.2
  | many _, _, _, _, _, _, h => h.2

/-- A pattern that can match gives an answer where what follows accepts the match. -/
theorem isSome_read_of_reads : ∀ (p : Pattern) {α : Type} {c d : Cursor} {ps qs : Parts}
    {k : Cursor → Parts → Option α}, p.Reads c ps d qs → (k d qs).isSome → (p.read c ps k).isSome
  | char ok, α, ⟨i, b, cs⟩, d, ps, qs, k, h, hk => by
    obtain ⟨a, r, hrest, ha, rfl, rfl⟩ := h
    obtain rfl : cs = a :: r := hrest
    simpa [Pattern.read, ha] using hk
  | word same w, α, c, d, ps, qs, k, ⟨hpast, hqs⟩, hk => by
    subst hqs
    simpa [Pattern.read, hpast] using hk
  | check ok, α, c, d, ps, qs, k, h, hk => by
    obtain ⟨hok, rfl, rfl⟩ := h
    simpa [Pattern.read, hok] using hk
  | seq p q, α, c, d, ps, qs, k, ⟨e, rs, hp, hq⟩, hk => by
    rw [Pattern.read]
    exact isSome_read_of_reads p hp (isSome_read_of_reads q hq hk)
  | alt p q, α, c, d, ps, qs, k, h, hk => by
    rw [Pattern.read]
    split
    · rfl
    next hnone =>
      rcases h with h | h
      · have hsome := isSome_read_of_reads p h hk
        simp [hnone] at hsome
      · exact isSome_read_of_reads q h hk
  | stretch ok, α, c, d, ps, qs, k, ⟨hd, hqs⟩, hk => by
    subst hqs
    rw [Pattern.read, List.findSome?_isSome_iff]
    exact ⟨d, hd, hk⟩
  | shortStretch ok, α, c, d, ps, qs, k, ⟨hd, hqs⟩, hk => by
    subst hqs
    rw [Pattern.read, List.findSome?_isSome_iff]
    exact ⟨d, List.mem_reverse.2 hd, hk⟩
  | many p, α, c, d, ps, qs, k, ⟨hd, hqs⟩, hk => by
    subst hqs
    rw [Pattern.read, List.findSome?_isSome_iff]
    exact ⟨d, hd, hk⟩
  | named label p, α, c, d, ps, qs, k, ⟨rs, hp, hqs⟩, hk => by
    subst hqs
    rw [Pattern.read]
    exact isSome_read_of_reads p hp hk

/-- The only match is the one that is found. -/
theorem at?_of_unique (h : p.Reads c [] d qs)
    (hunique : ∀ e rs, p.Reads c [] e rs → e = d ∧ rs = qs) : p.at? c = some ⟨c, d, qs⟩ := by
  have hsome : (p.at? c).isSome := isSome_read_of_reads p h rfl
  obtain ⟨⟨c', e, rs⟩, hit⟩ := Option.isSome_iff_exists.1 hsome
  obtain ⟨hstart, hreads⟩ := reads_of_at? hit
  obtain ⟨rfl, rfl⟩ := hunique e rs hreads
  obtain rfl : c' = c := hstart
  exact hit

/-- A repetition can match texts each of which the pattern prefers. -/
theorem reads_many {f : α → List Char} {xs : List α}
    (h : ∀ x ∈ xs, f x ≠ [] ∧ ∀ front rest,
      p.Takes (between front (f x ++ rest)) [] (between (front ++ f x) rest) [])
    (front rest : List Char) (ps : Parts) :
    (many p).Reads (between front (xs.flatMap f ++ rest)) ps (between (front ++ xs.flatMap f) rest)
      ps := by
  refine ⟨between_mem_stepsFrom xs _ [] front (fun x hx => ⟨(h x hx).1, fun front rest => ?_⟩) ?_,
    rfl⟩
  · exact ((h x hx).2 front rest).read rfl
  · have hlen : ∀ ys : List α, (∀ y ∈ ys, f y ≠ []) → ys.length ≤ (ys.flatMap f).length := by
      intro ys hys
      induction ys with
      | nil => simp
      | cons y ys ih =>
        have hpos := List.length_pos_iff.2 (hys y List.mem_cons_self)
        have hrest := ih fun z hz => hys z (List.mem_cons_of_mem y hz)
        simp only [List.flatMap_cons, List.length_append, List.length_cons]
        omega
    have hxs := hlen xs fun x hx => (h x hx).1
    simp only [rest_between, List.length_append]
    omega

/-- A repetition can match nothing. -/
theorem reads_many_nothing (p : Pattern) (c : Cursor) (ps : Parts) : (many p).Reads c ps c ps :=
  ⟨self_mem_stepsFrom _ [] _, rfl⟩

/-- What ends a repetition : nothing was taken, or the pattern matched once more. -/
theorem eq_or_exists_reads_of_many (h : (many p).Reads c ps d qs) :
    d = c ∨ ∃ e rs, (many p).Reads c ps e ps ∧ p.Reads e [] d rs ∧ e.offset < d.offset := by
  refine steps_induction (P := fun d => d = c ∨ ∃ e rs, (many p).Reads c ps e ps ∧
    p.Reads e [] d rs ∧ e.offset < d.offset) (Or.inl rfl) (fun e d he _ hread hlt => ?_) h.1
  obtain ⟨d', rs, hreads, hd'⟩ := exists_reads_of_read p hread
  obtain rfl : d' = d := Option.some.inj hd'
  exact Or.inr ⟨e, rs, ⟨he, rfl⟩, hreads, hlt⟩

/-- A repetition takes texts one behind the other that the pattern can match. -/
theorem exists_flatMap_of_reads_many {f : α → List Char}
    (hp : ∀ {front rest d qs}, p.Reads (between front rest) [] d qs →
      ∃ x r, rest = f x ++ r ∧ d = between (front ++ f x) r) :
    ∀ {d : Cursor} {qs : Parts}, (many p).Reads (between front rest) ps d qs →
      ∃ (xs : List α) (r : List Char), rest = xs.flatMap f ++ r ∧
        d = between (front ++ xs.flatMap f) r := by
  intro d
  generalize hn : d.offset = n
  induction n using Nat.strongRecOn generalizing d with
  | ind n ih =>
    intro qs h
    rcases eq_or_exists_reads_of_many h with rfl | ⟨e, rs, he, hd, hlt⟩
    · exact ⟨[], rest, rfl, by simp⟩
    · obtain ⟨xs, r, rfl, rfl⟩ := ih e.offset (hn ▸ hlt) rfl he
      obtain ⟨x, r, rfl, rfl⟩ := hp hd
      exact ⟨xs ++ [x], r, by simp, by simp⟩

end Reads

/-! ## Short stretches -/

section ShortStretch

variable {α : Type} {ok : Char → Bool} {ps : Parts} {k : Cursor → Parts → Option α} {x : α}

/-- A short stretch is tried before it takes the next character. -/
theorem read_shortStretch_cons (a : Char) (front rest : List Char) :
    (shortStretch ok).read (between front (a :: rest)) ps k =
      (k (between front (a :: rest)) ps).or
        (if ok a then (shortStretch ok).read (between (front ++ [a]) rest) ps k else none) := by
  rw [Pattern.read, run_between_cons, List.reverse_append, List.reverse_singleton,
    List.singleton_append, List.findSome?_cons]
  cases k (between front (a :: rest)) ps with
  | some y => rfl
  | none =>
    rw [Option.none_or]
    cases ok a <;> rfl

/-- A short stretch ends where what follows accepts for the first time. -/
theorem exists_shortest_of_read : ∀ {rest front : List Char},
    (shortStretch ok).read (between front rest) ps k = some x →
      ∃ w r, rest = w ++ r ∧ k (between (front ++ w) r) ps = some x ∧
        ∀ u v, rest = u ++ v → u.length < w.length → k (between (front ++ u) v) ps = none
  | [], front, h => by
    have hrun : (between front []).run ok = [between front []] := rfl
    have hnil : k (between front []) ps = some x := by
      rw [Pattern.read, hrun] at h
      simpa using h
    exact ⟨[], [], rfl, by rwa [List.append_nil], fun u v _ hlt => absurd hlt (Nat.not_lt_zero _)⟩
  | a :: rest, front, h => by
    rw [read_shortStretch_cons] at h
    cases hk : k (between front (a :: rest)) ps with
    | some y =>
      rw [hk, Option.some_or] at h
      exact ⟨[], a :: rest, rfl,
        by rw [List.append_nil, hk, h], fun u v _ hlt => absurd hlt (Nat.not_lt_zero _)⟩
    | none =>
      rw [hk, Option.none_or] at h
      split at h
      next =>
        obtain ⟨w, r, rfl, hw, hshort⟩ := exists_shortest_of_read h
        refine ⟨a :: w, r, rfl, by simpa using hw, fun u v huv hlt => ?_⟩
        cases u with
        | nil =>
          obtain rfl : a :: (w ++ r) = v := huv
          rwa [List.append_nil]
        | cons b u =>
          obtain ⟨rfl, hsplit⟩ : a = b ∧ w ++ r = u ++ v := by simpa using huv
          have hnone := hshort u v hsplit (by simpa using hlt)
          simpa using hnone
      next => cases h

end ShortStretch

/-! ## Searches -/

section Search

variable {p : Pattern} {h : Hit} {c : Cursor}

theorem find?_of_at? (hit : p.at? c = some h) : p.find? c = some h := by
  obtain ⟨i, b, rest⟩ := c
  cases rest with
  | nil => exact hit
  | cons a rest => simp only [find?, findFrom?, hit]

/-- A search passes over a text in which the pattern does not match. -/
theorem find?_between_append : ∀ {w front rest : List Char},
    (∀ u v, w = u ++ v → v ≠ [] → p.Misses (between (front ++ u) (v ++ rest))) →
      p.find? (between front (w ++ rest)) = p.find? (between (front ++ w) rest)
  | [], front, rest, _ => by rw [List.nil_append, List.append_nil]
  | a :: w, front, rest, hw => by
    have hhere : p.at? (between front (a :: (w ++ rest))) = none := by
      have hmiss := hw [] (a :: w) rfl (List.cons_ne_nil a w)
      rw [List.append_nil] at hmiss
      exact hmiss.at?
    have hnext : p.find? (between front (a :: w ++ rest)) =
        p.find? (between (front ++ [a]) (w ++ rest)) := by
      show p.findFrom? front.length front.getLast? (a :: (w ++ rest)) = _
      have hat : p.at? ⟨front.length, front.getLast?, a :: (w ++ rest)⟩ = none := hhere
      rw [findFrom?, hat, find?, ← next_between]
    rw [hnext, find?_between_append (w := w), List.append_assoc, List.cons_append, List.nil_append]
    intro u v huv hv
    have hmiss := hw (a :: u) v (by rw [huv, List.cons_append]) hv
    rwa [List.append_assoc, List.cons_append, List.nil_append]

/-- A search passes over characters with which no match starts. -/
theorem Opens.find?_append (hp : p.Opens ok) {w : List Char} (hw : ∀ a ∈ w, ok a = false)
    (front rest : List Char) :
    p.find? (between front (w ++ rest)) = p.find? (between (front ++ w) rest) := by
  refine find?_between_append fun u v huv hv => hp.misses ?_ _
  obtain ⟨a, v, rfl⟩ := List.exists_cons_of_ne_nil hv
  exact hw a (by simp [huv])

theorem Opens.find?_nil (hp : p.Opens ok) (front : List Char) : p.find? (between front []) = none :=
  (hp.misses rfl front).at?

theorem findIn?_eq_none (h : ∀ u v, cs = u ++ v → p.Misses (between u v)) :
    p.findIn? cs = none := by
  have hpass : p.find? (between [] (cs ++ [])) = p.find? (between ([] ++ cs) []) := by
    refine find?_between_append fun u v huv _ => ?_
    rw [List.nil_append, List.append_nil]
    exact h u v huv
  rw [List.append_nil, List.nil_append] at hpass
  show p.find? (between [] cs) = none
  rw [hpass]
  exact (h cs [] (List.append_nil cs).symm).at?

theorem findAllFrom_of_find?_eq_some (hit : p.find? c = some h)
    (hlt : h.start.offset < h.stop.offset) (found : List Hit) (a : Char) (fuel : List Char) :
    p.findAllFrom found (a :: fuel) c = p.findAllFrom (h :: found) fuel h.stop := by
  simp only [findAllFrom, hit, if_pos hlt]

theorem findAllFrom_of_find?_eq_none (hnone : p.find? c = none) (found : List Hit) :
    ∀ fuel : List Char, p.findAllFrom found fuel c = found.reverse
  | [] => rfl
  | _ :: _ => by simp only [findAllFrom, hnone]

theorem findBefore?_between_eq_none : ∀ {w front rest : List Char},
    (∀ u v, w = u ++ v → v ≠ [] → p.Misses (between (front ++ u) (v ++ rest))) →
      p.findBefore? w.length (between front (w ++ rest)) = none
  | [], _, _, _ => rfl
  | a :: w, front, rest, hw => by
    have hhere : p.at? ⟨front.length, front.getLast?, a :: (w ++ rest)⟩ = none := by
      have hmiss := hw [] (a :: w) rfl (List.cons_ne_nil a w)
      rw [List.append_nil] at hmiss
      exact hmiss.at?
    show p.findBefore? (w.length + 1) ⟨front.length, front.getLast?, a :: (w ++ rest)⟩ = none
    rw [findBefore?, hhere]
    show p.findBefore? w.length ⟨front.length + 1, some a, w ++ rest⟩ = none
    rw [next_between]
    refine findBefore?_between_eq_none fun u v huv hv => ?_
    have hmiss := hw (a :: u) v (by rw [huv, List.cons_append]) hv
    rwa [List.append_assoc, List.cons_append, List.nil_append]

/-- A search finds a match if there is one at some place. -/
theorem isSome_find? : ∀ {w front rest : List Char},
    (p.at? (between (front ++ w) rest)).isSome → (p.find? (between front (w ++ rest))).isSome
  | [], front, rest, hat => by
    rw [List.append_nil] at hat
    obtain ⟨h, hit⟩ := Option.isSome_iff_exists.1 hat
    rw [List.nil_append, find?_of_at? hit, Option.isSome_some]
  | a :: w, front, rest, hat => by
    show (p.findFrom? front.length front.getLast? (a :: (w ++ rest))).isSome
    rw [findFrom?]
    split
    · rfl
    · show (p.find? ⟨front.length + 1, some a, w ++ rest⟩).isSome
      rw [next_between]
      exact isSome_find? (by simpa using hat)

/-- What a search through a text finds is a match at one of its places. -/
theorem exists_reads_of_findIn? (hit : p.findIn? cs = some h) :
    ∃ front rest, cs = front ++ rest ∧ h.start = between front rest ∧
      p.Reads (between front rest) [] h.stop h.parts := by
  obtain ⟨hin, -, hreads⟩ := reads_of_find? (in_start cs) hit
  obtain ⟨front, rest, hcs, hstart⟩ :=
    Cursor.exists_between (show h.start.In ([] ++ cs) from hin) (Nat.zero_le _)
  rw [List.nil_append] at hstart
  exact ⟨front, rest, hcs, hstart, hstart ▸ hreads⟩

/-- A search through a text finds something if the pattern can match at one of its places. -/
theorem isSome_findIn?_of_reads {front rest : List Char} {d : Cursor} {qs : Parts}
    (h : p.Reads (between front rest) [] d qs) : (p.findIn? (front ++ rest)).isSome := by
  have hat : (p.at? (between ([] ++ front) rest)).isSome := isSome_read_of_reads p h rfl
  exact isSome_find? hat

/-- A search over enough text finds a match if there is one at some place. -/
theorem isSome_findBefore? : ∀ {w front rest : List Char} {n : Nat}, w.length < n →
    (p.at? (between (front ++ w) rest)).isSome →
    (p.findBefore? n (between front (w ++ rest))).isSome
  | [], front, rest, n + 1, _, hat => by
    rw [List.append_nil] at hat
    obtain ⟨h, hit⟩ := Option.isSome_iff_exists.1 hat
    rw [List.nil_append, findBefore?.eq_def]
    simp only [hit, Option.isSome_some]
  | a :: w, front, rest, n + 1, hn, hat => by
    show (p.findBefore? (n + 1) ⟨front.length, front.getLast?, a :: (w ++ rest)⟩).isSome
    rw [findBefore?]
    split
    · rfl
    · show (p.findBefore? n ⟨front.length + 1, some a, w ++ rest⟩).isSome
      rw [next_between]
      exact isSome_findBefore? (by simpa using hn) (by simpa using hat)

end Search

end Pattern

end ContractAudit
