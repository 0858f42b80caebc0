import ContractAudit.Proofs.Text.Search
import ContractAudit.Proofs.Written.Basic
import ContractAudit.Rule.Sign

/-!
# What signs look like

What some of the shared signs match, in terms of the text alone : a text starts with a word, or with
one of several (`starts_word_iff`, `starts_words_iff`), the words of a text are its runs of word
characters (`mem_wordsOf_iff`), and a result is kept in a variable in one of three written forms
(`Captures`), where the text determines the variable (`captures_iff`).
-/

namespace ContractAudit

open Pattern Cursor

variable {text flag : List Char}

/-! ## Words at the start -/

theorem Written.startsWithWord_iff {cs : List Char} {w : String} :
    startsWithWord cs w ↔ ∃ r, cs = w.toList ++ r ∧ r.head?.any isWordChar = false := by
  rw [startsWithWord, Bool.and_eq_true, Bool.not_eq_true',
    List.isPrefixOf_iff_prefix, ← String.length_toList]
  constructor
  · rintro ⟨⟨r, rfl⟩, hr⟩
    rw [List.drop_left] at hr
    exact ⟨r, rfl, hr⟩
  · rintro ⟨r, rfl, hr⟩
    rw [List.drop_left]
    exact ⟨List.prefix_append _ _, hr⟩

/-- A text starts with a word and its end. -/
theorem starts_word_iff {w : String} (hw : isIdentifier w.toList) :
    (Pattern.text w ++ edge).starts text ↔ Written.startsWithWord text w := by
  rw [starts_iff, Written.startsWithWord_iff]
  constructor
  · rintro ⟨d, qs, e, rs, hword, hedge⟩
    obtain ⟨r, rfl, rfl, rfl⟩ := reads_text_iff.1 hword
    exact ⟨r, rfl, nonword_of_reads_edge (getLast?_append_identifier [] hw) hedge⟩
  · rintro ⟨r, rfl, hr⟩
    have hedge : edge.Reads (between ([] ++ w.toList) r) [] (between ([] ++ w.toList) r) [] := by
      refine ⟨?_, rfl, rfl⟩
      rw [atWordEdge, before_between, peek_between, getLast?_append_identifier [] hw, hr]
      rfl
    exact ⟨_, _, (reads_text_iff.2 ⟨r, rfl, rfl, rfl⟩).append hedge⟩

/-- A text starts with one of several words and its end. -/
theorem starts_words_iff (ws : List String) (hws : ∀ w ∈ ws, isIdentifier w.toList) :
    (oneOf (ws.map Pattern.text) ++ edge).starts text ↔
    ∃ w ∈ ws, Written.startsWithWord text w := by
  have hword : ∀ w ∈ ws, Written.startsWithWord text w ↔
      ∃ d qs, (Pattern.text w ++ edge).Reads (between [] text) [] d qs := fun w hw => by
    rw [← starts_word_iff (hws w hw), starts_iff]
  rw [starts_iff]
  constructor
  · rintro ⟨d, qs, e, rs, hreads, hedge⟩
    obtain ⟨p, hp, hreads⟩ := reads_oneOf_iff.1 hreads
    obtain ⟨w, hw, rfl⟩ := List.mem_map.1 hp
    exact ⟨w, hw, (hword w hw).2 ⟨d, qs, e, rs, hreads, hedge⟩⟩
  · rintro ⟨w, hw, hstarts⟩
    obtain ⟨d, qs, e, rs, hreads, hedge⟩ := (hword w hw).1 hstarts
    exact ⟨d, qs, e, rs, reads_oneOf_iff.2 ⟨_, List.mem_map_of_mem hw, hreads⟩, hedge⟩

/-! ## Words of a text -/

/-- The runs of word characters that are not empty. -/
def solidRuns (cs : List Char) : List (List Char) :=
  (wordRuns cs).filter (!·.isEmpty)

theorem solidRuns_cons {a : Char} (ha : isWordChar a = false) (cs : List Char) :
    solidRuns (a :: cs) = solidRuns cs := by
  have hruns : wordRuns (a :: cs) = wordRuns [] ++ wordRuns cs := wordRuns_append_cons ha [] cs
  rw [solidRuns, hruns, List.filter_append]
  rfl

theorem solidRuns_append {u : List Char} (hu : ∀ a ∈ u, isWordChar a = false) (cs : List Char) :
    solidRuns (u ++ cs) = solidRuns cs := by
  induction u with
  | nil => rfl
  | cons a u ih =>
    obtain ⟨ha, hu⟩ := List.forall_mem_cons.1 hu
    rw [List.cons_append, solidRuns_cons ha, ih hu]

theorem solidRuns_word {w cs : List Char} (hw : ∀ a ∈ w, isWordChar a) (hne : w ≠ [])
    (hcs : cs.head?.any isWordChar = false) : solidRuns (w ++ cs) = w :: solidRuns cs := by
  have hsolid : [w].filter (!·.isEmpty) = [w] := by simpa using hne
  cases cs with
  | nil =>
    rw [List.append_nil, solidRuns, wordRuns_of_word hw, hsolid]
    rfl
  | cons a cs =>
    have ha : isWordChar a = false := hcs
    rw [solidRuns_cons ha, solidRuns, wordRuns_append_cons ha, wordRuns_of_word hw,
      List.filter_append, hsolid]
    rfl

theorem opens_wholeWord : Sign.wholeWord.Opens isWordChar :=
  (opens_char isWordChar).append _

/-- The matches of whole words spell the runs of word characters. -/
theorem map_text_findAllFrom_wholeWord :
    ∀ (fuel : List Char) (found : List Hit) (front rest : List Char), rest.length ≤ fuel.length →
      (Sign.wholeWord.findAllFrom found fuel (between front rest)).map (·.text) =
        found.reverse.map (·.text) ++ solidRuns rest
  | [], found, front, rest, hfuel => by
    obtain rfl : rest = [] := List.eq_nil_of_length_eq_zero (Nat.le_zero.1 hfuel)
    exact (List.append_nil _).symm
  | a :: fuel, found, front, rest, hfuel => by
    obtain ⟨gap, tail, rfl, hgap, htail⟩ := exists_run_append (!isWordChar ·) rest
    replace hgap : ∀ b ∈ gap, isWordChar b = false := fun b hb => by simpa using hgap b hb
    have hpass := opens_wholeWord.find?_append hgap front tail
    rw [solidRuns_append hgap]
    cases tail with
    | nil =>
      rw [findAllFrom_of_find?_eq_none (hpass.trans (opens_wholeWord.find?_nil _))]
      exact (List.append_nil _).symm
    | cons b tail =>
      obtain ⟨w, r, rfl, hw, hr⟩ := exists_run_append isWordChar tail
      have hword : ∀ c ∈ b :: w, isWordChar c := List.forall_mem_cons.2 ⟨by simpa using htail, hw⟩
      have hit := find?_of_at? (takes_stretch1 hword hr (front ++ gap) []).at?
      have hlt : (between (front ++ gap) (b :: (w ++ r))).offset <
          (between (front ++ gap ++ b :: w) r).offset := by simp
      have htext :
          (Hit.mk (between (front ++ gap) (b :: w ++ r)) (between (front ++ gap ++ b :: w) r)
            []).text =
          b :: w := textTo_between ..
      have hlen : r.length ≤ fuel.length := by
        simp only [List.length_append, List.length_cons] at hfuel
        omega
      rw [findAllFrom_of_find?_eq_some (hpass.trans hit) hlt,
        map_text_findAllFrom_wholeWord fuel _ _ r hlen, ← List.cons_append,
        solidRuns_word hword (List.cons_ne_nil b w) hr, List.reverse_cons, List.map_append,
        List.map_singleton, htext, List.append_assoc, List.singleton_append]

/-- The words of a text are its runs of word characters. -/
theorem wordsOf_eq (text : List Char) : Sign.wordsOf text = (solidRuns text).map String.ofList := by
  have h := map_text_findAllFrom_wholeWord text [] [] text (Nat.le_refl _)
  rw [List.reverse_nil, List.map_nil, List.nil_append] at h
  rw [← h, List.map_map]
  rfl

theorem mem_wordsOf_iff {w : List Char} (hne : w ≠ []) :
    String.ofList w ∈ Sign.wordsOf text ↔ w ∈ wordRuns text := by
  rw [wordsOf_eq, solidRuns, List.mem_map]
  constructor
  · rintro ⟨v, hv, heq⟩
    rw [String.ofList_injective heq] at hv
    exact (List.mem_filter.1 hv).1
  · exact fun hw => ⟨w, List.mem_filter.2 ⟨hw, by simpa using hne⟩, rfl⟩

/-! ## Kept results -/

/-- A word of its own. -/
def IsWord (w : List Char) : Prop :=
  w ≠ [] ∧ ∀ a ∈ w, isWordChar a

/-- A text starts by keeping a result in the variable `flag`. -/
inductive Captures (flag : List Char) : List Char → Prop where
  /-- As the first one of several variables, which is declared there : `(bool flag`. -/
  | first {gap gap' rest : List Char} (hgap : ∀ a ∈ gap, isBlank a) (hgap' : ∀ a ∈ gap', isBlank a)
      (hne : gap' ≠ []) (hflag : IsWord flag) (hrest : rest.head?.any isWordChar = false) :
      Captures flag ('(' :: (gap ++ ("bool".toList ++ (gap' ++ (flag ++ rest)))))
  /-- As a variable that is declared there : `bool flag =`. -/
  | declared {gap gap' rest : List Char} (hgap : ∀ a ∈ gap, isBlank a) (hne : gap ≠ [])
      (hgap' : ∀ a ∈ gap', isBlank a) (hflag : IsWord flag) (hrest : rest.head? ≠ some '=') :
      Captures flag ("bool".toList ++ (gap ++ (flag ++ (gap' ++ '=' :: rest))))
  /-- As a variable : `flag =`. -/
  | assigned {gap rest : List Char} (hgap : ∀ a ∈ gap, isBlank a) (hflag : IsWord flag)
      (hrest : rest.head? ≠ some '=') :
      Captures flag (flag ++ (gap ++ '=' :: rest))

section Captures

variable {w gap rest : List Char} {p : Pattern} {d : Cursor} {ps qs : Parts}

theorem head?_gap_append {ok : Char → Bool} (hok : ∀ a, isBlank a → ok a = false)
    (hgap : ∀ a ∈ gap, isBlank a)
    (hrest : rest.head?.any ok = false) : (gap ++ rest).head?.any ok = false := by
  cases gap with
  | nil => exact hrest
  | cons a gap => exact hok a (hgap a List.mem_cons_self)

theorem IsWord.any_head?_append (hw : IsWord w) (rest : List Char) :
    (w ++ rest).head?.any isWordChar := by
  obtain ⟨hne, hw⟩ := hw
  obtain ⟨a, w, rfl⟩ := List.exists_cons_of_ne_nil hne
  exact hw a List.mem_cons_self

theorem IsWord.head?_append (hw : IsWord w) (rest : List Char) :
    (w ++ rest).head?.any isBlank = false := by
  obtain ⟨hne, hw⟩ := hw
  obtain ⟨a, w, rfl⟩ := List.exists_cons_of_ne_nil hne
  exact isBlank_of_isWordChar (hw a List.mem_cons_self)

theorem takes_run {ok : Char → Bool} (hw : ∀ a ∈ w, ok a) (hne : w ≠ [])
    (hrest : rest.head?.any ok = false) (front : List Char) (ps : Parts) :
    (stretch1 ok).Takes (between front (w ++ rest)) ps (between (front ++ w) rest) ps := by
  obtain ⟨a, w, rfl⟩ := List.exists_cons_of_ne_nil hne
  exact takes_stretch1 hw hrest front ps

/-- The sign of an assignment. -/
theorem takes_assigns (hgap : ∀ a ∈ gap, isBlank a) (hrest : rest.head? ≠ some '=')
    (front : List Char)
    {c : Cursor} {ps qs : Parts} (h : p.Takes c ps (between front (gap ++ '=' :: rest)) qs) :
    (p ++ blanks ++ "=" ++ notBefore "=").Takes c ps (between (front ++ gap ++ ['=']) rest) qs := by
  have hgap : blanks.Takes _ qs (between (front ++ gap) ('=' :: rest)) qs :=
    takes_stretch hgap rfl front qs
  have hequal := takes_symbol (u := "=") (a := '=') rfl (front ++ gap) rest qs
  refine ((h.append hgap).append hequal).append (takes_check ?_ qs)
  rw [peek_between]
  cases hhead : rest.head? with
  | none => rfl
  | some a =>
    have hne : a ≠ '=' := fun h => hrest (h ▸ hhead)
    simpa using hne

/-- What is read up to the sign of an assignment. -/
theorem exists_of_reads_assigns {c : Cursor}
    (h : (p ++ blanks ++ "=" ++ notBefore "=").Reads c ps d qs) :
    ∃ e rs, p.Reads c ps e rs ∧ ∀ front rest, e = between front rest →
      ∃ gap r, rest = gap ++ '=' :: r ∧ (∀ a ∈ gap, isBlank a) ∧ r.head? ≠ some '=' := by
  obtain ⟨e₂, rs₂, ⟨e₁, rs₁, ⟨e, rs, hp, hgap⟩, hequal⟩, hbehind⟩ := h
  refine ⟨e, rs, hp, fun front rest he => ?_⟩
  subst he
  obtain ⟨gap, r, rfl, hblank, rfl, rfl⟩ := reads_stretch_iff.1 hgap
  obtain ⟨r, rfl, rfl, rfl⟩ := (reads_symbol_iff (u := "=") (a := '=') rfl).1 hequal
  refine ⟨gap, r, rfl, hblank, fun hhead => ?_⟩
  have hpeek : (!r.head?.any "=".toList.contains) = true := hbehind.1
  rw [hhead] at hpeek
  exact absurd hpeek (by decide)

/-- A bracket opens the first of the forms. -/
theorem opens_firstForm :
    ("(" ++ blanks ++ "bool" ++ blanks1 ++ named "flag" (stretch1 isWordChar) : Pattern).Opens
      (· == '(') :=
  ((((opens_text rfl rfl).append _).append _).append _).append _

/-- A variable that is assigned is not taken for a type. -/
theorem misses_declaredForm (hgap : ∀ a ∈ gap, isBlank a) (hflag : IsWord flag) :
    ("bool" ++ blanks1 ++ named "flag" (stretch1 isWordChar) ++ blanks ++ "=" ++ notBefore "=" :
      Pattern).Misses
      (between [] (flag ++ (gap ++ '=' :: rest))) := by
  intro ps d qs hreads
  obtain ⟨e, rs, ⟨e₂, rs₂, ⟨e₁, rs₁, hbool, hblanks⟩, rs₃, hword, -⟩, -⟩ :=
    exists_of_reads_assigns hreads
  obtain ⟨r, hr, rfl, rfl⟩ := reads_text_iff.1 hbool
  obtain ⟨gap', r, rfl, hne, hgap', rfl, rfl⟩ := reads_stretch1_iff.1 hblanks
  obtain ⟨w, r, rfl, hw⟩ := reads_stretch1_iff.1 hword
  have hw : IsWord w := ⟨hw.1, hw.2.1⟩
  have hequal : (gap ++ '=' :: rest).head?.any isWordChar = false :=
    head?_gap_append (fun a ha => isWordChar_of_isBlank ha) hgap rfl
  have hblank : (gap' ++ (w ++ r)).head?.any isWordChar = false := by
    obtain ⟨a, gap', rfl⟩ := List.exists_cons_of_ne_nil hne
    exact isWordChar_of_isBlank (hgap' a List.mem_cons_self)
  obtain ⟨-, hr⟩ := eq_of_run_append hflag.2 (by decide) hequal hblank hr
  obtain ⟨-, hr⟩ := eq_of_run_append hgap hgap' rfl (hw.head?_append r) hr
  obtain ⟨hne, hw⟩ := hw
  obtain ⟨a, w, rfl⟩ := List.exists_cons_of_ne_nil hne
  obtain rfl : '=' = a := (List.cons.inj hr).1
  exact absurd (hw '=' List.mem_cons_self) (by decide)

/-- Where a result is kept, the sign of it is found with the variable. -/
theorem Captures.startOf? (h : Captures flag text) :
    ∃ hit, Sign.captured.startOf? text = some hit ∧ hit.part "flag" = flag := by
  cases h with
  | @first gap gap' rest hgap hgap' hne hflag hrest =>
    have htakes := ((((takes_symbol (u := "(") (a := '(') rfl [] _ []).append
      (takes_stretch hgap rfl _ [])).append (takes_text "bool" _ _ [])).append
      (takes_run hgap' hne (hflag.head?_append rest) _ [])).append
      ((takes_run hflag.2 hflag.1 hrest _ []).named "flag")
    refine ⟨_, (htakes.oneOf_head _).at?, ?_⟩
    rw [Hit.part_cons_self, textTo_between]
  | @declared gap gap' rest hgap hne hgap' hflag hrest =>
    have hequal : (gap' ++ '=' :: rest).head?.any isWordChar = false :=
      head?_gap_append (fun a ha => isWordChar_of_isBlank ha) hgap' rfl
    have htakes := takes_assigns hgap' hrest _ (((takes_text "bool" [] _ []).append
      (takes_run hgap hne (hflag.head?_append _) _ [])).append
      ((takes_run hflag.2 hflag.1 hequal _ []).named "flag"))
    refine ⟨_, ((htakes.oneOf_head _).oneOf_tail (opens_firstForm.misses rfl [])).at?, ?_⟩
    rw [Hit.part_cons_self, textTo_between]
  | @assigned gap rest hgap hflag hrest =>
    have hequal : (gap ++ '=' :: rest).head?.any isWordChar = false :=
      head?_gap_append (fun a ha => isWordChar_of_isBlank ha) hgap rfl
    have hopen : (flag ++ (gap ++ '=' :: rest)).head?.any (· == '(') = false := by
      obtain ⟨hne, hflag⟩ := hflag
      obtain ⟨a, flag, rfl⟩ := List.exists_cons_of_ne_nil hne
      have ha : a ≠ '(' := by
        rintro rfl
        exact absurd (hflag '(' List.mem_cons_self) (by decide)
      simpa using ha
    have htakes :=
      takes_assigns hgap hrest _ ((takes_run hflag.2 hflag.1 hequal [] []).named "flag")
    refine ⟨_, (((htakes.oneOf_head _).oneOf_tail (misses_declaredForm hgap hflag)).oneOf_tail
      (opens_firstForm.misses hopen [])).at?, ?_⟩
    rw [Hit.part_cons_self, textTo_between]

/-- Where the sign of a kept result is found, one is kept. -/
theorem exists_captures_of_startOf? {hit : Hit} (h : Sign.captured.startOf? text = some hit) :
    ∃ flag, Captures flag text := by
  rw [Pattern.startOf?, ← between_nil] at h
  obtain ⟨form, hform, hreads⟩ := reads_oneOf_iff.1 (reads_of_at? h).2
  rcases List.mem_cons.1 hform with rfl | hform
  · obtain ⟨e₃, rs₃, ⟨e₂, rs₂, ⟨e₁, rs₁, ⟨e, rs, hopen, hblanks⟩, hbool⟩, hblanks'⟩, rs₄, hword,
      -⟩ := hreads
    obtain ⟨r, rfl, rfl, rfl⟩ := (reads_symbol_iff (u := "(") (a := '(') rfl).1 hopen
    obtain ⟨gap, r, rfl, hgap, rfl, rfl⟩ := reads_stretch_iff.1 hblanks
    obtain ⟨r, rfl, rfl, rfl⟩ := reads_text_iff.1 hbool
    obtain ⟨gap', r, rfl, hne, hgap', rfl, rfl⟩ := reads_stretch1_iff.1 hblanks'
    obtain ⟨w, r, rfl, hne', hw, -, -⟩ := reads_stretch1_iff.1 hword
    -- the variable goes on up to the end of the word
    obtain ⟨v, r, rfl, hv, hr⟩ := exists_run_append isWordChar r
    refine ⟨w ++ v, ?_⟩
    rw [← List.append_assoc w]
    refine .first hgap hgap' hne ⟨?_, ?_⟩ hr
    · simp [hne']
    · exact List.forall_mem_append.2 ⟨hw, hv⟩
  rcases List.mem_cons.1 hform with rfl | hform
  · obtain ⟨e, rs, ⟨e₂, rs₂, ⟨e₁, rs₁, hbool, hblanks⟩, rs₃, hword, -⟩, hequal⟩ :=
      exists_of_reads_assigns hreads
    obtain ⟨r, rfl, rfl, rfl⟩ := reads_text_iff.1 hbool
    obtain ⟨gap, r, rfl, hne, hgap, rfl, rfl⟩ := reads_stretch1_iff.1 hblanks
    obtain ⟨w, r, rfl, hne', hw, rfl, -⟩ := reads_stretch1_iff.1 hword
    obtain ⟨gap', r, rfl, hgap', hr⟩ := hequal _ _ rfl
    exact ⟨w, .declared hgap hne hgap' ⟨hne', hw⟩ hr⟩
  · obtain rfl := List.mem_singleton.1 hform
    obtain ⟨e, rs, ⟨rs', hword, -⟩, hequal⟩ := exists_of_reads_assigns hreads
    obtain ⟨w, r, rfl, hne, hw, rfl, -⟩ := reads_stretch1_iff.1 hword
    obtain ⟨gap, r, rfl, hgap, hr⟩ := hequal _ _ rfl
    exact ⟨w, .assigned hgap ⟨hne, hw⟩ hr⟩

/-- The sign of a kept result tells the variable. -/
theorem captures_iff : Captures flag text ↔
    (Sign.captured.startOf? text).map (·.part "flag") = some flag := by
  constructor
  · intro h
    obtain ⟨hit, hstart, hpart⟩ := h.startOf?
    rw [hstart, Option.map_some, hpart]
  · intro h
    obtain ⟨hit, hstart, hpart⟩ := Option.map_eq_some_iff.1 h
    obtain ⟨flag', hflag'⟩ := exists_captures_of_startOf? hstart
    obtain ⟨hit', hstart', hpart'⟩ := hflag'.startOf?
    rw [hstart] at hstart'
    obtain rfl := Option.some.inj hstart'
    rwa [← hpart, hpart']

theorem Captures.unique {flag' : List Char} (h : Captures flag text) (h' : Captures flag' text) :
    flag = flag' :=
  Option.some.inj ((captures_iff.1 h).symm.trans (captures_iff.1 h'))

theorem Captures.isWord (h : Captures flag text) : IsWord flag := by
  cases h with
  | first _ _ _ hflag _ => exact hflag
  | declared _ _ _ hflag _ => exact hflag
  | assigned _ hflag _ => exact hflag

end Captures

end ContractAudit
