import ContractAudit.Proofs.Rule.Places
import ContractAudit.Proofs.Rule.Sign

/-!
# Success flags

Which low-level calls `Detector.uncheckedLowLevelCall` marks, in terms of the statements and their
texts alone. The rule goes backwards through a member and collects the words of the statements it
has passed, so that each statement is looked at with the words of all statements behind it
(`foldr_flagStep`). A call is marked if its result is not kept (`Captures`), or if no statement
behind it has the variable among its words.

A low-level call gives several values, and the first of them tells of its success. A
`TupleAssignment` assigns them. If the variable for the first one is declared there, it is seen; if
it was declared before, it is not, and the call is marked however the variable is read
(`Detector.uncheckedLowLevelCall_tuple`).
-/

namespace ContractAudit

open Pattern Cursor

instance (text : List Char) (P : List Char → Prop) [DecidablePred P] :
    Decidable (∀ flag, Captures flag text → P flag) :=
  decidable_of_iff (∀ flag, flag ∈ (Sign.captured.startOf? text).map (Hit.part · "flag") → P flag)
    (forall_congr' fun _ => imp_congr_left captures_iff.symm)

/-- The words with which a statement reads the result of a call in it. -/
def checkingWords : List String :=
  ["require", "assert", "if", "return", "while"]

/-- The statement makes a low-level call and does not start with a check of it. Its result is not
kept, or the variable that keeps it is no word of a later statement. A low-level call is what the
pattern `Scope.lowLevelCall` recognises. -/
def Statement.DropsResult (s : Statement) (later : List Statement) : Prop :=
  s.shows Scope.lowLevelCall ∧
    (∀ w ∈ checkingWords, ¬Written.startsWithWord s.chars w) ∧
    ∀ flag, Captures flag s.chars → ∀ s' ∈ later, flag ∉ wordRuns s'.chars

instance (s : Statement) (later : List Statement) : Decidable (s.DropsResult later) :=
  inferInstanceAs (Decidable (_ ∧ _ ∧ _))

/-- The statement at the index drops the result of a low-level call. -/
def Block.DropsResult (b : Block) (i : Nat) : Prop :=
  b.isParsed ∧ ∃ s ∈ b.statements[i]?, s.DropsResult (b.statements.drop (i + 1))

instance (b : Block) (i : Nat) : Decidable (b.DropsResult i) :=
  inferInstanceAs (Decidable (_ ∧ _))

/-- The method of the first low-level call in the statement. -/
def Statement.lowLevelMethod (s : Statement) : String :=
  String.ofList (((Scope.lowLevelCall.findIn? s.chars).map (·.part "method")).getD [])

namespace Detector

/-- The evidence against a call whose result is not kept. -/
def discardedEvidence (method : String) : String :=
  s!"result of low-level {method} is discarded"

/-- The evidence against a call whose flag is kept and never read. -/
def unreadEvidence (flag : String) : String :=
  s!"success flag `{flag}` is never checked"

/-- The match says how the result of the statement is dropped : it is not kept, or the variable is
not read. -/
inductive MarksDropped : Match → Statement → Prop where
  | discarded {s : Statement} (hkept : ∀ flag, ¬Captures flag s.chars) :
      MarksDropped (s.matched "unchecked-low-level-call" (discardedEvidence s.lowLevelMethod)) s
  | unread {s : Statement} {flag : List Char} (hkept : Captures flag s.chars) :
      MarksDropped (s.matched "unchecked-low-level-call" (unreadEvidence (String.ofList flag))) s

/-- The words of the statements. -/
def wordsIn (ss : List Statement) : List String :=
  ss.flatMap fun s => Sign.wordsOf s.chars

theorem mem_wordsIn_iff {w : List Char} (hne : w ≠ []) {ss : List Statement} :
    String.ofList w ∈ wordsIn ss ↔ ∃ s ∈ ss, w ∈ wordRuns s.chars := by
  rw [wordsIn, List.mem_flatMap]
  exact exists_congr fun s => and_congr_right fun _ => mem_wordsOf_iff hne

section Problem

variable {s : Statement} {text flag : List Char}

theorem wrapped_starts_iff :
    Sign.wrapped.starts text ↔ ∃ w ∈ checkingWords, Written.startsWithWord text w :=
  starts_words_iff checkingWords (by decide)

theorem flagProblem?_of_captures (hcall : s.shows Scope.lowLevelCall)
    (hopen : ¬Sign.wrapped.starts s.chars) (hkept : Captures flag s.chars) (words : List String) :
    flagProblem? words s.chars =
      if words.contains (String.ofList flag) then none else
        some (unreadEvidence (String.ofList flag)) := by
  obtain ⟨call, hcall⟩ := Option.isSome_iff_exists.1 hcall
  obtain ⟨hit, hstart, rfl⟩ := hkept.startOf?
  rw [flagProblem?, hcall, Option.bind_eq_bind, Option.bind_some, if_neg hopen, hstart]
  rfl

theorem flagProblem?_of_not_captures (hcall : s.shows Scope.lowLevelCall)
    (hopen : ¬Sign.wrapped.starts s.chars)
    (hkept : ∀ flag, ¬Captures flag s.chars) (words : List String) :
    flagProblem? words s.chars = some (discardedEvidence s.lowLevelMethod) := by
  obtain ⟨call, hcall⟩ := Option.isSome_iff_exists.1 hcall
  have hstart : Sign.captured.startOf? s.chars = none := by
    cases hstart : Sign.captured.startOf? s.chars with
    | none => rfl
    | some hit =>
      obtain ⟨flag, hflag⟩ := exists_captures_of_startOf? hstart
      exact absurd hflag (hkept flag)
  rw [flagProblem?, Statement.lowLevelMethod, hcall, Option.bind_eq_bind, Option.bind_some,
    if_neg hopen, hstart]
  rfl

end Problem

/-- The match on a statement, with the words of the statements behind it. -/
def droppedFlag? (s : Statement) (later : List Statement) : Option Match :=
  (flagProblem? (wordsIn later) s.chars).map (s.matched "unchecked-low-level-call")

/-- A statement gives a match if it drops the result of a low-level call, and else none. -/
theorem droppedFlag?_cases (s : Statement) (later : List Statement) :
    s.DropsResult later ∧ (∃ m, droppedFlag? s later = some m ∧ MarksDropped m s) ∨
      ¬s.DropsResult later ∧ droppedFlag? s later = none := by
  rw [droppedFlag?]
  by_cases hcall : s.shows Scope.lowLevelCall
  swap
  · refine Or.inr ⟨fun h => hcall h.1, ?_⟩
    have hnone : Scope.lowLevelCall.findIn? s.chars = none := by
      simpa [Statement.shows, occursIn] using hcall
    rw [flagProblem?, hnone, Option.bind_eq_bind, Option.bind_none, Option.map_none]
  by_cases hopen : Sign.wrapped.starts s.chars
  · obtain ⟨w, hw, hstarts⟩ := wrapped_starts_iff.1 hopen
    obtain ⟨call, hcall⟩ := Option.isSome_iff_exists.1 hcall
    refine Or.inr ⟨fun h => h.2.1 w hw hstarts, ?_⟩
    rw [flagProblem?, hcall, Option.bind_eq_bind, Option.bind_some, if_pos hopen, Option.map_none]
  have hwords : ∀ w ∈ checkingWords, ¬Written.startsWithWord s.chars w :=
    fun w hw hstarts => hopen (wrapped_starts_iff.2 ⟨w, hw, hstarts⟩)
  by_cases hkept : ∃ flag, Captures flag s.chars
  · obtain ⟨flag, hflag⟩ := hkept
    have hread : (wordsIn later).contains (String.ofList flag) ↔
        ∃ s' ∈ later, flag ∈ wordRuns s'.chars := by
      rw [List.contains_iff_mem, mem_wordsIn_iff hflag.isWord.1]
    rw [flagProblem?_of_captures hcall hopen hflag]
    split
    next hcontains =>
      obtain ⟨s', hs', hmem⟩ := hread.1 hcontains
      exact Or.inr ⟨fun h => h.2.2 flag hflag s' hs' hmem, rfl⟩
    next hcontains =>
      refine Or.inl ⟨⟨hcall, hwords, fun flag' hflag' s' hs' hmem => ?_⟩, _, rfl, .unread hflag⟩
      obtain rfl := hflag.unique hflag'
      exact hcontains (hread.2 ⟨s', hs', hmem⟩)
  · have hkept : ∀ flag, ¬Captures flag s.chars := fun flag hflag => hkept ⟨flag, hflag⟩
    rw [flagProblem?_of_not_captures hcall hopen hkept]
    exact Or.inl ⟨⟨hcall, hwords, fun flag hflag => absurd hflag (hkept flag)⟩, _, rfl,
      .discarded hkept⟩

/-! ## The way backwards -/

/-- One step backwards : a statement is looked at with the words of those behind it. -/
theorem flagStep_eq (s : Statement) (later : List Statement) (found : List Match) :
    flagStep s (wordsIn later, found) =
      (wordsIn (s :: later), (droppedFlag? s later).toList ++ found) := by
  rw [flagStep, droppedFlag?]
  cases flagProblem? (wordsIn later) s.chars <;> rfl

/-- The match on the statement at an index. -/
def droppedFlagAt? (ss : List Statement) (i : Nat) : Option Match :=
  ss[i]?.bind fun s => droppedFlag? s (ss.drop (i + 1))

/-- All the way backwards, each statement is looked at with the words of those behind it. -/
theorem foldr_flagStep : ∀ ss : List Statement,
    ss.foldr flagStep ([], []) = (wordsIn ss, (List.range ss.length).filterMap (droppedFlagAt? ss))
  | [] => rfl
  | s :: ss => by
    have hhere : droppedFlagAt? (s :: ss) 0 = droppedFlag? s ss := rfl
    have hbehind : droppedFlagAt? (s :: ss) ∘ Nat.succ = droppedFlagAt? ss := rfl
    rw [List.foldr_cons, foldr_flagStep ss, flagStep_eq, List.length_cons, List.range_succ_eq_map,
      List.filterMap_cons, List.filterMap_map, hbehind, hhere]
    cases droppedFlag? s ss <;> rfl

/-- The statements of a member are asked about one after the other. -/
theorem asks_uncheckedLowLevelCall :
    uncheckedLowLevelCall.Asks fun _ b i => droppedFlagAt? b.statements i := by
  intro source bs
  refine (eachParsed_pure _ source bs).trans (congrArg Except.ok ?_)
  simp only [foldr_flagStep]

theorem droppedFlagAt?_cases {b : Block} {i : Nat} (hb : b.isParsed)
    (hi : i < b.statements.length) :
    b.DropsResult i ∧ (∃ m, droppedFlagAt? b.statements i = some m ∧
      ∃ s ∈ b.statements[i]?, MarksDropped m s) ∨
    ¬b.DropsResult i ∧ droppedFlagAt? b.statements i = none := by
  obtain ⟨s, hs⟩ : ∃ s, b.statements[i]? = some s := ⟨_, List.getElem?_eq_getElem hi⟩
  rw [droppedFlagAt?, hs, Option.bind_some]
  rcases droppedFlag?_cases s (b.statements.drop (i + 1)) with ⟨hdrops, m, hm, hmarks⟩ |
    ⟨hdrops, hnone⟩
  · exact Or.inl ⟨⟨hb, s, hs, hdrops⟩, m, hm, s, rfl, hmarks⟩
  · refine Or.inr ⟨?_, hnone⟩
    rintro ⟨-, s', hs', hdrops'⟩
    obtain rfl := Option.some.inj (hs.symm.trans hs')
    exact hdrops hdrops'

/-- The rule on success flags marks, in order, just the statements that drop the result of a
low-level call. -/
theorem uncheckedLowLevelCall_finds (source : Source) (bs : List Block) :
    ∃ ms, uncheckedLowLevelCall source bs = .ok ms ∧
      List.Forall₂ (fun p m => ∃ s ∈ p.1.statements[p.2]?, MarksDropped m s)
        ((Block.places bs).filter fun p => p.1.DropsResult p.2) ms :=
  asks_uncheckedLowLevelCall.finds (fun _ _ h => h.1)
    (fun _ _ hb hi => droppedFlagAt?_cases hb hi) bs

end Detector

/-! ## Several results at once -/

/-- The characters of the names of variables : those of words, and the dollar sign. -/
def isVariableChar (c : Char) : Bool :=
  isWordChar c || c == '$'

section VariableChar

variable {a : Char}

theorem isVariableChar_of_isBlank (h : isBlank a) : isVariableChar a = false := by
  have hne : a ≠ '$' := by
    rintro rfl
    exact absurd h (by decide)
  simp [isVariableChar, isWordChar_of_isBlank h, hne]

theorem isBlank_of_isVariableChar (h : isVariableChar a) : isBlank a = false := by
  cases hblank : isBlank a with
  | false => rfl
  | true => simp [isVariableChar_of_isBlank hblank] at h

theorem any_isWordChar_of_any_isVariableChar {o : Option Char} (h : o.any isVariableChar = false) :
    o.any isWordChar = false := by
  cases o with
  | none => rfl
  | some a =>
    have ha : (isWordChar a || a == '$') = false := h
    exact (Bool.or_eq_false_iff.1 ha).1

end VariableChar

/-- The text names the variable. -/
def NamesVariable (name text : List Char) : Prop :=
  ∃ front rest, text = front ++ (name ++ rest) ∧ front.getLast?.any isVariableChar = false ∧
    rest.head?.any isVariableChar = false

/-- An assignment to several variables, where the first one is a flag that may be declared there. -/
structure TupleAssignment where
  /-- The blanks behind the bracket. -/
  gap : List Char
  /-- The blanks behind the type of the flag, if it is declared. -/
  typed : Option (List Char)
  flag : List Char
  /-- The blanks behind the flag. -/
  behind : List Char
  /-- The other variables. -/
  others : List Char
  /-- The blanks behind the variables. -/
  apart : List Char
  value : List Char
  blank : ∀ a ∈ gap ++ (typed.getD [] ++ (behind ++ apart)), isBlank a
  typed_ne : typed ≠ some []
  flag_ne : flag ≠ []
  isVariable : ∀ a ∈ flag, isVariableChar a
  comma : others.head?.all (· == ',')

namespace TupleAssignment

/-- The type of the flag. -/
def type : List Char :=
  "bool".toList

/-- The text behind the flag. -/
def tail (t : TupleAssignment) : List Char :=
  t.behind ++ (t.others ++ ')' :: (t.apart ++ '=' :: t.value))

/-- The assignment as it is written. -/
def chars (t : TupleAssignment) : List Char :=
  '(' :: (t.gap ++ ((t.typed.map (type ++ ·)).getD [] ++ (t.flag ++ t.tail)))

/-- The flag is declared there, and its first character is one of a word. -/
def isSeen (t : TupleAssignment) : Bool :=
  t.typed.isSome && t.flag.head?.any isWordChar

variable (t : TupleAssignment)

theorem exists_tail : ∃ a r, t.tail = t.behind ++ a :: r ∧ (a = ',' ∨ a = ')') := by
  rw [tail]
  cases hothers : t.others with
  | nil => exact ⟨_, _, rfl, Or.inr rfl⟩
  | cons a others =>
    have hcomma := t.comma
    rw [hothers, List.head?_cons, Option.all_some, beq_iff_eq] at hcomma
    exact ⟨a, _, rfl, Or.inl hcomma⟩

theorem isBlank_gap : ∀ a ∈ t.gap, isBlank a :=
  fun a ha => t.blank a (List.mem_append_left _ ha)

theorem isBlank_typed {g : List Char} (hg : t.typed = some g) : ∀ a ∈ g, isBlank a :=
  fun a ha => t.blank a (by simp [hg, ha])

theorem isBlank_behind : ∀ a ∈ t.behind, isBlank a :=
  fun a ha => t.blank a (by simp [ha])

theorem head?_tail : t.tail.head?.any isVariableChar = false := by
  obtain ⟨a, r, htail, ha⟩ := t.exists_tail
  rw [htail]
  refine head?_gap_append (fun b hb => isVariableChar_of_isBlank hb) t.isBlank_behind ?_
  rcases ha with rfl | rfl <;> rfl

theorem head?_flag (cs : List Char) : (t.flag ++ cs).head?.any isBlank = false := by
  obtain ⟨a, flag, hflag⟩ := List.exists_cons_of_ne_nil t.flag_ne
  rw [hflag]
  exact isBlank_of_isVariableChar (t.isVariable a (by rw [hflag]; exact List.mem_cons_self))

/-- A flag that is declared in the assignment is seen, up to a character that is not one of a
word. -/
theorem exists_captures (h : t.isSeen) :
    ∃ w v, t.flag = w ++ v ∧ v.head?.any isWordChar = false ∧ Captures w t.chars := by
  rw [isSeen, Bool.and_eq_true] at h
  obtain ⟨g, hg⟩ := Option.isSome_iff_exists.1 h.1
  obtain ⟨w, v, hflag, hw, hv⟩ := exists_run_append isWordChar t.flag
  have hne : w ≠ [] := by
    rintro rfl
    rw [hflag, List.nil_append, hv] at h
    exact Bool.false_ne_true h.2
  have hg' : g ≠ [] := fun hnil => t.typed_ne (hnil ▸ hg)
  have hrest : (v ++ t.tail).head?.any isWordChar = false := by
    cases v with
    | nil => exact any_isWordChar_of_any_isVariableChar t.head?_tail
    | cons a v => exact hv
  refine ⟨w, v, hflag, hv, ?_⟩
  rw [chars, hg, Option.map_some, Option.getD_some, hflag, List.append_assoc, List.append_assoc]
  exact .first t.isBlank_gap (t.isBlank_typed hg) hg' ⟨hne, hw⟩ hrest

/-- No other flag is seen. -/
theorem not_captures (h : t.isSeen = false) (flag : List Char) : ¬Captures flag t.chars := by
  intro hkept
  generalize hchars : t.chars = text at hkept
  cases hkept with
  | @first gap gap' rest hgap hgap' hne hflag =>
    have hword := hflag.any_head?_append rest
    have hgap'' : (gap' ++ (flag ++ rest)).head?.any isVariableChar = false := by
      obtain ⟨a, gap', rfl⟩ := List.exists_cons_of_ne_nil hne
      exact isVariableChar_of_isBlank (hgap' a List.mem_cons_self)
    have hinside := (List.cons.inj hchars).2
    cases htyped : t.typed with
    | none =>
      rw [htyped, Option.map_none, Option.getD_none, List.nil_append] at hinside
      obtain ⟨-, hinside⟩ := eq_of_run_append t.isBlank_gap hgap (t.head?_flag _) rfl hinside
      obtain ⟨-, htail⟩ := eq_of_run_append t.isVariable (by decide) t.head?_tail hgap'' hinside
      obtain ⟨a, r, heq, ha⟩ := t.exists_tail
      have hblank : (a :: r).head?.any isBlank = false := by rcases ha with rfl | rfl <;> rfl
      rw [heq] at htail
      obtain ⟨-, htail⟩ :=
        eq_of_run_append t.isBlank_behind hgap' hblank (hflag.head?_append rest) htail
      rw [← htail, List.head?_cons, Option.any_some] at hword
      rcases ha with rfl | rfl <;> exact absurd hword (by decide)
    | some g =>
      rw [htyped, Option.map_some, Option.getD_some, List.append_assoc] at hinside
      obtain ⟨-, hinside⟩ := eq_of_run_append t.isBlank_gap hgap rfl rfl hinside
      obtain ⟨-, htail⟩ := eq_of_run_append (t.isBlank_typed htyped) hgap' (t.head?_flag _)
        (hflag.head?_append rest) (List.append_cancel_left hinside)
      obtain ⟨a, name, hname⟩ := List.exists_cons_of_ne_nil t.flag_ne
      rw [isSeen, htyped, Option.isSome_some, Bool.true_and, hname] at h
      rw [← htail, hname] at hword
      exact Bool.false_ne_true (h.symm.trans hword)
  | @declared => exact absurd (List.cons.inj hchars).1 (by decide)
  | @assigned gap rest hgap hflag =>
    obtain ⟨hne, hflag⟩ := hflag
    obtain ⟨a, flag, rfl⟩ := List.exists_cons_of_ne_nil hne
    obtain rfl : '(' = a := (List.cons.inj hchars).1
    exact absurd (hflag '(' List.mem_cons_self) (by decide)

/-- Where the flag is named, the part of it that is seen is a word. -/
theorem mem_wordRuns_of_names {w v text : List Char} (hw : IsWord w)
    (hv : v.head?.any isWordChar = false)
    (h : NamesVariable (w ++ v) text) : w ∈ wordRuns text := by
  obtain ⟨front, rest, rfl, hfront, hrest⟩ := h
  rw [List.append_assoc]
  refine mem_wordRuns hw.2 (any_isWordChar_of_any_isVariableChar hfront) ?_
  cases v with
  | nil => exact any_isWordChar_of_any_isVariableChar hrest
  | cons a v => exact hv

theorem not_wrapped : ¬Sign.wrapped.starts t.chars := by
  rw [Detector.wrapped_starts_iff]
  rintro ⟨w, hw, hstarts⟩
  simp only [checkingWords, List.mem_cons, List.not_mem_nil, or_false] at hw
  rcases hw with rfl | rfl | rfl | rfl | rfl <;> cases hstarts

end TupleAssignment

namespace Detector

/-- The match that an assignment of a call to several variables gets, though the flag is read behind
it. -/
theorem droppedFlag?_tuple {s : Statement} {later : List Statement} {t : TupleAssignment}
    (hs : s.chars = t.chars) (hcall : s.shows Scope.lowLevelCall)
    (hread : ∃ s' ∈ later, NamesVariable t.flag s'.chars) :
    droppedFlag? s later = if t.isSeen then none else
      some (s.matched "unchecked-low-level-call" (discardedEvidence s.lowLevelMethod)) := by
  split
  next hseen =>
    obtain ⟨w, v, hflag, hv, hkept⟩ := t.exists_captures hseen
    obtain ⟨s', hs', hnames⟩ := hread
    rw [hflag] at hnames
    rcases droppedFlag?_cases s later with ⟨hdrops, -⟩ | ⟨-, hnone⟩
    · have hmem := TupleAssignment.mem_wordRuns_of_names hkept.isWord hv hnames
      exact absurd hmem (hdrops.2.2 w (hs ▸ hkept) s' hs')
    · exact hnone
  next hseen =>
    have hkept := t.not_captures (by simpa using hseen)
    rw [droppedFlag?, flagProblem?_of_not_captures hcall (hs ▸ t.not_wrapped) (hs ▸ hkept)]
    rfl

/-- The matches found on the way backwards through some more statements are on some of these. -/
theorem exists_foldr_flagStep (later : List Statement) (found : List Match) : ∀ ss : List Statement,
    ∃ ms, ss.foldr flagStep (wordsIn later, found) = (wordsIn (ss ++ later), ms ++ found) ∧
      List.SublistForall₂ MarksDropped ms ss
  | [] => ⟨[], rfl, .nil⟩
  | s :: ss => by
    obtain ⟨ms, hms, hsub⟩ := exists_foldr_flagStep later found ss
    rw [List.foldr_cons, hms, flagStep_eq]
    rcases droppedFlag?_cases s (ss ++ later) with ⟨-, m, hm, hmarks⟩ | ⟨-, hnone⟩
    · exact ⟨m :: ms, by rw [hm]; rfl, .cons hmarks hsub⟩
    · exact ⟨ms, by rw [hnone]; rfl, .cons_right hsub⟩

/-- Where the result of a low-level call is assigned to several variables and the first one is named
further behind, there is no match on the assignment if the variable is declared in it with a first
character that is one of a word. Otherwise there is one, and it says that the result is
discarded. -/
theorem uncheckedLowLevelCall_tuple (source : Source) {b : Block} (hb : b.isParsed)
    {earlier later : List Statement}
    {s : Statement} (hstatements : b.statements = earlier ++ s :: later) {t : TupleAssignment}
    (hs : s.chars = t.chars) (hcall : s.shows Scope.lowLevelCall)
    (hread : ∃ s' ∈ later, NamesVariable t.flag s'.chars) :
    ∃ ms ms', uncheckedLowLevelCall source [b] = .ok (ms ++ ((if t.isSeen then [] else
        [s.matched "unchecked-low-level-call" (discardedEvidence s.lowLevelMethod)]) ++ ms')) ∧
      List.SublistForall₂ MarksDropped ms earlier ∧
      List.SublistForall₂ MarksDropped ms' later := by
  obtain ⟨ms', hms', hlater⟩ := exists_foldr_flagStep [] [] later
  rw [List.append_nil, List.append_nil] at hms'
  obtain ⟨ms, hms, hearlier⟩ :=
    exists_foldr_flagStep (s :: later) ((droppedFlag? s later).toList ++ ms') earlier
  refine ⟨ms, ms', ?_, hearlier, hlater⟩
  have hanswer : uncheckedLowLevelCall source [b] =
      .ok (b.statements.foldr flagStep ([], [])).2 := by
    refine (eachParsed_pure _ source [b]).trans ?_
    rw [List.flatMap_singleton, if_pos hb]
  have hword : (wordsIn [], ([] : List Match)) = ([], []) := rfl
  rw [hanswer, hstatements, List.foldr_append, List.foldr_cons, ← hword, hms', flagStep_eq, hms,
    droppedFlag?_tuple hs hcall hread]
  cases t.isSeen <;> rfl

end Detector

/-! ## A flag that is used again -/

/-- Two calls are checked by one flag, which the first of them declares. -/
def Source.reusingFlag : String :=
  "contract C\x7bfunction f(A a)public\x7b(bool ok,)=a.call(x);require(ok);" ++
    "(ok,)=a.call(y);require(ok);\x7d\x7d"

namespace Statement

/-- A call that declares the flag and keeps its result there. -/
def declaringCall : Statement :=
  ⟨.externalCall, 33, 53, "(bool ok,)=a.call(x)", 0, none⟩

/-- A check of that first result. -/
def firstCheck : Statement :=
  ⟨.other, 54, 65, "require(ok)", 0, none⟩

/-- A later call that keeps its result in the same flag. -/
def reusingCall : Statement :=
  ⟨.externalCall, 66, 81, "(ok,)=a.call(y)", 0, none⟩

/-- A check of the second result. -/
def secondCheck : Statement :=
  ⟨.other, 82, 93, "require(ok)", 0, none⟩

end Statement

/-- The member of `Source.reusingFlag`. -/
def Block.reusingFlag : Block where
  kind := .function
  name := "f"
  params := [⟨"A", some "a"⟩]
  visibility := some .everyone
  mutability := []
  modifiers := []
  start := 11
  stop := 95
  contract := some ⟨"C", .contract, 0, 96, [], [], false⟩
  body := some (33, 94)
  statements := [.declaringCall, .firstCheck, .reusingCall, .secondCheck]
  fault := none

namespace TupleAssignment

/-- `(bool ok,)=a.call(x)` -/
def declaring : TupleAssignment where
  gap := []
  typed := some [' ']
  flag := ['o', 'k']
  behind := []
  others := [',']
  apart := []
  value := "a.call(x)".toList
  blank := by decide
  typed_ne := by decide
  flag_ne := by decide
  isVariable := by decide
  comma := by decide

/-- `(ok,)=a.call(y)` -/
def reusing : TupleAssignment where
  gap := []
  typed := none
  flag := ['o', 'k']
  behind := []
  others := [',']
  apart := []
  value := "a.call(y)".toList
  blank := by decide
  typed_ne := by decide
  flag_ne := by decide
  isVariable := by decide
  comma := by decide

end TupleAssignment

namespace Detector

/-- The call that declares the flag is not marked, the one that uses it again is. -/
theorem uncheckedLowLevelCall_tuple_reusingFlag :
    (∃ ms ms', uncheckedLowLevelCall (.ofChars Source.reusingFlag.toList) [.reusingFlag] =
      .ok (ms ++ ([] ++ ms')) ∧ List.SublistForall₂ MarksDropped ms [] ∧
      List.SublistForall₂ MarksDropped ms' [.firstCheck, .reusingCall, .secondCheck]) ∧
    ∃ ms ms', uncheckedLowLevelCall (.ofChars Source.reusingFlag.toList) [.reusingFlag] = .ok (ms ++
        ([Statement.reusingCall.matched "unchecked-low-level-call"
          (discardedEvidence Statement.reusingCall.lowLevelMethod)] ++ ms')) ∧
      List.SublistForall₂ MarksDropped ms [.declaringCall, .firstCheck] ∧
      List.SublistForall₂ MarksDropped ms' [.secondCheck] := by
  have hnames : NamesVariable ['o', 'k'] "require(ok)".toList :=
    ⟨"require(".toList, [')'], by decide, by decide, by decide⟩
  have hparsed : Block.reusingFlag.isParsed := rfl
  have hdeclaring : Statement.declaringCall.chars = TupleAssignment.declaring.chars := by decide
  have hreusing : Statement.reusingCall.chars = TupleAssignment.reusing.chars := by decide
  have hfirst : Block.reusingFlag.statements =
      [] ++ .declaringCall :: [.firstCheck, .reusingCall, .secondCheck] := rfl
  have hsecond : Block.reusingFlag.statements =
      [.declaringCall, .firstCheck] ++ .reusingCall :: [.secondCheck] := rfl
  exact ⟨uncheckedLowLevelCall_tuple _ hparsed hfirst hdeclaring (by decide)
    ⟨.firstCheck, by decide, hnames⟩,
    uncheckedLowLevelCall_tuple _ hparsed hsecond hreusing (by decide)
      ⟨.secondCheck, by decide, hnames⟩⟩

/-- A flag that is read behind the call is said to be discarded. -/
theorem uncheckedLowLevelCall_marks_reusedFlag :
    (Source.ofChars Source.reusingFlag.toList).outline.blocks = [.reusingFlag] ∧
      uncheckedLowLevelCall (.ofChars Source.reusingFlag.toList) [.reusingFlag] =
        .ok [⟨"unchecked-low-level-call", 66, 81,
          some "result of low-level call is discarded"⟩] := by
  decide +kernel

end Detector

end ContractAudit
