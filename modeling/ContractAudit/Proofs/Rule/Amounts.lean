import ContractAudit.Proofs.Rule.Places
import ContractAudit.Proofs.Rule.Sign
import ContractAudit.Proofs.Text.Language

/-!
# Amounts that move unchecked

Which amounts `Detector.missingAmountValidation` marks, and where. A statement *settles* an amount
that it names if it checks something or moves the amount (`Statement.Settles`); what these words
mean is said of the text of the statement (`Statement.Checks`, `Statement.Moves`). The detector goes
through the statements once and keeps one list of the amounts that are still open, from which every
statement strikes off what it settles (`amountsFrom_cons`). So an amount is marked at the first
statement that settles it, if this one is no check (`mem_uncheckedUses_iff`), however the amounts of
a member are mixed (`missingAmountValidation_finds`).

A call sends value out, in the eyes of the detector, if the value is the first of its options; with
the gas in front of it the amount goes unmarked (`missingAmountValidation_gasFirst`).
-/

namespace ContractAudit

open Pattern Cursor

/-! ## What statements say -/

/-- The signs of order and of equality. -/
def comparisonSigns : List String :=
  ["<", ">", "==", "!="]

/-- How a text starts that demands a condition, or asks for one on its first line. -/
inductive Conditional : List Char → Prop where
  | demanded {word : String} (hword : word ∈ ["require", "assert"]) {gap : List Char}
      (hgap : ∀ a ∈ gap, isBlank a) : Conditional (word.toList ++ (gap ++ ['(']))
  | asked {line : List Char} (hline : '\n' ∉ line) : Conditional (line ++ ['?'])

/-- The members of an address or a token that send something. -/
def sendingWords : List String :=
  ["transfer", "send", "transferFrom", "safeTransfer", "safeTransferFrom", "sendValue"]

/-- How value is sent out. -/
inductive SendsOut : List Char → Prop where
  /-- By a call whose first option is the value : `.call{value`. -/
  | option {g₁ g₂ g₃ : List Char} (h₁ : ∀ a ∈ g₁, isBlank a) (h₂ : ∀ a ∈ g₂, isBlank a)
      (h₃ : ∀ a ∈ g₃, isBlank a) :
      SendsOut ('.' :: (g₁ ++ ("call".toList ++ (g₂ ++ '{' :: (g₃ ++ "value".toList)))))
  /-- By a call with the value behind it : `.call.value(`. -/
  | chained {g₁ g₂ g₃ g₄ : List Char} (h₁ : ∀ a ∈ g₁, isBlank a) (h₂ : ∀ a ∈ g₂, isBlank a)
      (h₃ : ∀ a ∈ g₃, isBlank a) (h₄ : ∀ a ∈ g₄, isBlank a) :
      SendsOut
        ('.' :: (g₁ ++ ("call".toList ++ (g₂ ++ '.' :: (g₃ ++ ("value".toList ++ (g₄ ++ ['('])))))))
  /-- By one of the members for it : `.transfer(`. -/
  | member {g₁ g₂ : List Char} (h₁ : ∀ a ∈ g₁, isBlank a) {word : String}
      (hword : word ∈ sendingWords)
      (h₂ : ∀ a ∈ g₂, isBlank a) : SendsOut ('.' :: (g₁ ++ (word.toList ++ (g₂ ++ ['(']))))

/-- How a word is subtracted. -/
inductive Subtracts (w : List Char) : List Char → Prop where
  | minus {sign : String} (hsign : sign ∈ ["-", "-="]) {gap : List Char}
      (hgap : ∀ a ∈ gap, isBlank a) {rest : List Char} (hrest : rest.head?.any isWordChar = false) :
      Subtracts w (sign.toList ++ (gap ++ (w ++ rest)))

section Signs

variable {text w : List Char}

theorem comparison_occursIn_iff :
    Sign.comparison.occursIn text ↔ ∃ sign ∈ comparisonSigns, sign.toList <:+: text := by
  have hblind : Sign.comparison.Blind := by
    simp [Sign.comparison, Sign.equality, among, charOf]
  rw [hblind.occursIn_iff]
  constructor
  · rintro ⟨w, hw, haccepts⟩
    obtain ⟨p, hp, haccepts⟩ := accepts_oneOf.1 haccepts
    simp only [List.mem_cons, List.not_mem_nil, or_false] at hp
    rcases hp with rfl | rfl
    · obtain ⟨u, v, rfl, ⟨a, ha, rfl⟩, -⟩ := haccepts
      have hsign : ∀ a ∈ "<>".toList, String.ofList [a] ∈ comparisonSigns := by decide
      refine ⟨_, hsign a (List.contains_iff_mem.1 ha), ?_⟩
      rw [String.toList_ofList]
      exact (List.prefix_append [a] v).isInfix.trans hw
    · obtain ⟨u, v, rfl, ⟨a, ha, rfl⟩, hv⟩ := haccepts
      have hsign : ∀ a ∈ "!=".toList, String.ofList ([a] ++ "=".toList) ∈ comparisonSigns := by
        decide
      rw [accepts_text.1 hv] at hw
      refine ⟨_, hsign a (List.contains_iff_mem.1 ha), ?_⟩
      rwa [String.toList_ofList]
  · rintro ⟨sign, hsign, hinfix⟩
    refine ⟨sign.toList, hinfix, ?_⟩
    have horder {a : Char} (ha : "<>".toList.contains a) : Sign.comparison.Accepts [a] :=
      accepts_oneOf.2 ⟨_, List.mem_cons_self, [a], [], rfl, ⟨a, ha, rfl⟩,
        accepts_maybe.2 (Or.inr rfl)⟩
    have hequality {a : Char} (ha : "!=".toList.contains a) : Sign.comparison.Accepts [a, '='] :=
      accepts_oneOf.2 ⟨_, List.mem_cons_of_mem _ List.mem_cons_self, [a], ['='], rfl, ⟨a, ha, rfl⟩,
        accepts_text.2 rfl⟩
    simp only [comparisonSigns, List.mem_cons, List.not_mem_nil, or_false] at hsign
    rcases hsign with rfl | rfl | rfl | rfl
    · exact horder rfl
    · exact horder rfl
    · exact hequality rfl
    · exact hequality rfl

theorem accepts_condition_iff : Sign.condition.Accepts w ↔ Conditional w := by
  constructor
  · intro h
    obtain ⟨p, hp, haccepts⟩ := accepts_oneOf.1 h
    simp only [List.mem_cons, List.not_mem_nil, or_false] at hp
    rcases hp with rfl | rfl
    · obtain ⟨_, _, rfl, ⟨_, gap, rfl, hword, hgap⟩, hparen⟩ := haccepts
      obtain ⟨word, hmem, rfl⟩ := (@accepts_words _ ["require", "assert"]).1 hword
      rw [accepts_text.1 hparen, List.append_assoc]
      exact .demanded hmem hgap
    · obtain ⟨line, _, rfl, hline, hmark⟩ := haccepts
      rw [accepts_text.1 hmark]
      exact .asked fun hmem => absurd (hline _ hmem) (by decide)
  · intro h
    cases h with
    | @demanded word hword gap hgap =>
      exact accepts_oneOf.2 ⟨_, List.mem_cons_self, word.toList ++ gap, ['('], by simp,
        ⟨word.toList, gap, rfl, accepts_words.2 ⟨word, hword, rfl⟩, hgap⟩, accepts_text.2 rfl⟩
    | @asked line hline =>
      refine accepts_oneOf.2 ⟨_, List.mem_cons_of_mem _ List.mem_cons_self, line, ['?'], rfl,
        fun a ha => ?_, accepts_text.2 rfl⟩
      have hne : a ≠ '\n' := fun h => hline (h ▸ ha)
      simpa using hne

theorem accepts_valueOut_iff : Sign.valueOut.Accepts w ↔ SendsOut w := by
  constructor
  · intro h
    obtain ⟨p, hp, haccepts⟩ := accepts_oneOf.1 h
    simp only [List.mem_cons, List.not_mem_nil, or_false] at hp
    rcases hp with rfl | rfl | rfl
    · obtain ⟨_, _, rfl, ⟨_, g₃, rfl,
          ⟨_, _, rfl, ⟨_, g₂, rfl, ⟨_, _, rfl, ⟨_, g₁, rfl, hdot, h₁⟩, hcall⟩, h₂⟩, hbrace⟩, h₃⟩,
          hvalue⟩ := haccepts
      rw [accepts_text.1 hdot, accepts_text.1 hcall, accepts_text.1 hbrace, accepts_text.1 hvalue]
      simpa using SendsOut.option h₁ h₂ h₃
    · obtain ⟨_, _, rfl, ⟨_, g₄, rfl, ⟨_, _, rfl, ⟨_, g₃, rfl, ⟨_, _, rfl, ⟨_, g₂, rfl, ⟨_, _, rfl,
        ⟨_, g₁, rfl, hdot, h₁⟩, hcall⟩, h₂⟩, hdot'⟩, h₃⟩, hvalue⟩, h₄⟩, hparen⟩ := haccepts
      rw [accepts_text.1 hdot, accepts_text.1 hcall, accepts_text.1 hdot', accepts_text.1 hvalue,
        accepts_text.1 hparen]
      simpa using SendsOut.chained h₁ h₂ h₃ h₄
    · obtain ⟨_, _, rfl, ⟨_, g₂, rfl, ⟨_, _, rfl, ⟨_, g₁, rfl, hdot, h₁⟩, hword⟩, h₂⟩, hparen⟩ :=
        haccepts
      obtain ⟨word, hmem, rfl⟩ := (@accepts_words _ sendingWords).1 hword
      rw [accepts_text.1 hdot, accepts_text.1 hparen]
      simpa using SendsOut.member h₁ hmem h₂
  · intro h
    have hdot : (Pattern.text ".").Accepts ['.'] := accepts_text.2 rfl
    have hparen : (Pattern.text "(").Accepts ['('] := accepts_text.2 rfl
    have hbrace : (Pattern.text "\x7b").Accepts ['{'] := accepts_text.2 rfl
    have hword (u : String) : (Pattern.text u).Accepts u.toList := accepts_text.2 rfl
    have hgap {g : List Char} (hg : ∀ a ∈ g, isBlank a) : blanks.Accepts g := hg
    cases h with
    | option h₁ h₂ h₃ =>
      have haccepts :=
        (((((hdot.append (hgap h₁)).append (hword "call")).append (hgap h₂)).append hbrace).append
        (hgap h₃)).append (hword "value")
      simp only [List.append_assoc, List.cons_append, List.nil_append] at haccepts
      exact accepts_oneOf.2 ⟨_, List.mem_cons_self, haccepts⟩
    | chained h₁ h₂ h₃ h₄ =>
      have haccepts :=
        (((((((hdot.append (hgap h₁)).append (hword "call")).append (hgap h₂)).append hdot).append
        (hgap h₃)).append (hword "value")).append (hgap h₄)).append hparen
      simp only [List.append_assoc, List.cons_append, List.nil_append] at haccepts
      exact accepts_oneOf.2 ⟨_, List.mem_cons_of_mem _ List.mem_cons_self, haccepts⟩
    | @member g₁ g₂ h₁ word hmem h₂ =>
      have hwords : (oneOf (sendingWords.map Pattern.text)).Accepts word.toList :=
        accepts_words.2 ⟨word, hmem, rfl⟩
      have haccepts := (((hdot.append (hgap h₁)).append hwords).append (hgap h₂)).append hparen
      simp only [List.append_assoc, List.cons_append, List.nil_append] at haccepts
      exact accepts_oneOf.2 ⟨_, List.mem_cons_of_mem _ (List.mem_cons_of_mem _ List.mem_cons_self),
        haccepts⟩

theorem condition_starts_iff : Sign.condition.starts text ↔ ∃ w, w <+: text ∧ Conditional w := by
  have hblind : Sign.condition.Blind := by
    simp [Sign.condition, blanks]
  simp only [hblind.starts_iff, accepts_condition_iff]

theorem valueOut_occursIn_iff : Sign.valueOut.occursIn text ↔ ∃ w, w <:+: text ∧ SendsOut w := by
  have hblind : Sign.valueOut.Blind := by
    simp [Sign.valueOut, blanks]
  simp only [hblind.occursIn_iff, accepts_valueOut_iff]

theorem IsWord.getLast?_append (hw : IsWord w) (front : List Char) :
    (front ++ w).getLast?.any isWordChar := by
  obtain ⟨hne, hw⟩ := hw
  rcases List.eq_nil_or_concat w with rfl | ⟨w, a, rfl⟩
  · exact absurd rfl hne
  · rw [List.concat_eq_append, ← List.append_assoc, List.getLast?_concat]
    exact hw a (by simp)

/-- What is read as a subtraction. -/
theorem exists_of_reads_subtracted {front rest : List Char} {ps qs : Parts} {d : Cursor}
    (h : Detector.subtracted.Reads (between front rest) ps d qs) :
    ∃ sign ∈ ["-", "-="], ∃ gap w r, rest = sign.toList ++ (gap ++ (w ++ r)) ∧
      (∀ a ∈ gap, isBlank a) ∧
      IsWord w ∧ r.head?.any isWordChar = false ∧ d = between (front ++ sign.toList ++ gap ++ w) r ∧
      qs = ("name", between (front ++ sign.toList ++ gap) (w ++ r), d) :: ps := by
  obtain ⟨_, _, ⟨_, _, ⟨_, rs, hsign, hgap⟩, ⟨_, hword, rfl⟩⟩, hedge⟩ := h
  have hblind : ("-" ++ maybe "=" : Pattern).Blind := by simp
  obtain rfl : rs = ps := hsign.parts_eq rfl
  obtain ⟨u, r, rfl, haccepts, rfl⟩ := hblind.reads_iff.1 ⟨_, hsign⟩
  obtain ⟨sign, hmem, rfl⟩ : ∃ sign ∈ ["-", "-="], u = sign.toList := by
    obtain ⟨_, _, rfl, hminus, hequals⟩ := haccepts
    rw [accepts_text.1 hminus]
    rcases accepts_maybe.1 hequals with hequals | rfl
    · exact ⟨"-=", by decide, by rw [accepts_text.1 hequals]; rfl⟩
    · exact ⟨"-", by decide, List.append_nil _⟩
  obtain ⟨gap, r, rfl, hblank, rfl, rfl⟩ := reads_stretch_iff.1 hgap
  obtain ⟨w, r, rfl, hne, hw, rfl, rfl⟩ := reads_stretch1_iff.1 hword
  have hisWord : IsWord w := ⟨hne, hw⟩
  have hend := nonword_of_reads_edge (hisWord.getLast?_append _) hedge
  obtain ⟨-, rfl, rfl⟩ := hedge
  exact ⟨sign, hmem, gap, w, r, rfl, hblank, hisWord, hend, rfl, rfl⟩

theorem opensOnce_subtracted : Detector.subtracted.OpensOnce (· == '-') := by
  intro front rest ps d qs h
  obtain ⟨sign, hsign, gap, w, r, rfl, hgap, hw, -, rfl, -⟩ := exists_of_reads_subtracted h
  obtain ⟨tail, hcons, htail⟩ : ∃ tail, sign.toList = '-' :: tail ∧ '-' ∉ tail := by
    simp only [List.mem_cons, List.not_mem_nil, or_false] at hsign
    rcases hsign with rfl | rfl
    · exact ⟨[], rfl, by decide⟩
    · exact ⟨['='], rfl, by decide⟩
  refine ⟨'-', tail ++ (gap ++ w), r, by rw [hcons]; simp, rfl, fun b hb => ?_, by rw [hcons]; simp⟩
  have hne : b ≠ '-' := by
    rintro rfl
    rcases List.mem_append.1 hb with hb | hb
    · exact htail hb
    rcases List.mem_append.1 hb with hb | hb
    · exact absurd (hgap _ hb) (by decide)
    · exact absurd (hw.2 _ hb) (by decide)
  simpa using hne

/-- The text tells what is subtracted. -/
theorem Subtracts.unique {w' : List Char} (hw : IsWord w) (hw' : IsWord w') (h : Subtracts w text)
    (h' : Subtracts w' text) : w = w' := by
  obtain @⟨sign, hsign, gap, hgap, rest, hrest⟩ := h
  generalize htext : sign.toList ++ (gap ++ (w ++ rest)) = text at h'
  obtain @⟨sign', hsign', gap', hgap', rest', hrest'⟩ := h'
  have hequals {g v r : List Char} (hg : ∀ a ∈ g, isBlank a) (hv : IsWord v) {t : List Char} :
      '=' :: t ≠ g ++ (v ++ r) := by
    intro heq
    have hhead : (g ++ (v ++ r)).head?.any (· == '=') = false := by
      refine head?_gap_append (fun a ha => ?_) hg ?_
      · exact beq_eq_false_iff_ne.2 fun h => absurd (h ▸ ha) (by decide)
      · obtain ⟨hne, hv⟩ := hv
        obtain ⟨a, v, rfl⟩ := List.exists_cons_of_ne_nil hne
        exact beq_eq_false_iff_ne.2 fun h => absurd (h ▸ hv a List.mem_cons_self) (by decide)
    rw [← heq] at hhead
    cases hhead
  have hbehind : gap ++ (w ++ rest) = gap' ++ (w' ++ rest') := by
    simp only [List.mem_cons, List.not_mem_nil, or_false] at hsign hsign'
    rcases hsign with rfl | rfl <;> rcases hsign' with rfl | rfl
    · exact (List.cons.inj htext).2
    · exact absurd (List.cons.inj htext).2.symm (hequals hgap hw)
    · exact absurd (List.cons.inj htext).2 (hequals hgap' hw')
    · exact (List.cons.inj (List.cons.inj htext).2).2
  have hwords :=
    (eq_of_run_append hgap hgap' (hw.head?_append rest) (hw'.head?_append rest') hbehind).2
  exact (eq_of_run_append hw.2 hw'.2 hrest hrest' hwords).1

theorem exists_reads_of_subtracts (hw : IsWord w) {front rest : List Char} (h : Subtracts w rest) :
    ∃ d qs, Detector.subtracted.Reads (between front rest) [] d qs := by
  obtain @⟨sign, hsign, gap, hgap, r, hr⟩ := h
  have hblind : ("-" ++ maybe "=" : Pattern).Blind := by simp
  have haccepts : ("-" ++ maybe "=" : Pattern).Accepts sign.toList := by
    simp only [List.mem_cons, List.not_mem_nil, or_false] at hsign
    rcases hsign with rfl | rfl
    · exact ⟨['-'], [], rfl, accepts_text.2 rfl, accepts_maybe.2 (Or.inr rfl)⟩
    · exact ⟨['-'], ['='], rfl, accepts_text.2 rfl, accepts_maybe.2 (Or.inl (accepts_text.2 rfl))⟩
  obtain ⟨qs, hminus⟩ := hblind.reads_iff.2 ⟨sign.toList, gap ++ (w ++ r), rfl, haccepts, rfl⟩
  have hblanks : blanks.Reads (between (front ++ sign.toList) (gap ++ (w ++ r))) qs
      (between (front ++ sign.toList ++ gap) (w ++ r)) qs :=
        reads_stretch_iff.2 ⟨gap, _, rfl, hgap, rfl, rfl⟩
  have hword : Sign.wholeWord.Reads (between (front ++ sign.toList ++ gap) (w ++ r)) qs
      (between (front ++ sign.toList ++ gap ++ w) r) qs :=
    reads_stretch1_iff.2 ⟨w, r, rfl, hw.1, hw.2, rfl, rfl⟩
  have hedge (ps : Parts) : edge.Reads (between (front ++ sign.toList ++ gap ++ w) r) ps
      (between (front ++ sign.toList ++ gap ++ w) r) ps := by
    refine ⟨?_, rfl, rfl⟩
    rw [atWordEdge, before_between, peek_between, hw.getLast?_append, hr]
    rfl
  exact ⟨_, _, ((hminus.append hblanks).append (hword.named "name")).append (hedge _)⟩

/-- The words that are subtracted in a text. -/
theorem subtracted_any_iff (hw : IsWord w) :
    ((Detector.subtracted.allIn text).any fun h =>
      String.ofList (h.part "name") == String.ofList w) ↔
      ∃ rest, rest <:+ text ∧ Subtracts w rest := by
  have hpart (start : Cursor) {front rest : List Char} {stop : Cursor} {parts : Parts}
      (hreads : Detector.subtracted.Reads (between front rest) [] stop parts) :
      IsWord ((Hit.mk start stop parts).part "name") ∧
        Subtracts ((Hit.mk start stop parts).part "name") rest := by
    obtain ⟨sign, hsign, gap, w, r, rfl, hgap, hw, hr, rfl, rfl⟩ :=
      exists_of_reads_subtracted hreads
    rw [Hit.part_cons_self, textTo_between]
    exact ⟨hw, .minus hsign hgap hr⟩
  rw [List.any_eq_true]
  constructor
  · rintro ⟨h, hmem, hname⟩
    obtain ⟨hin, -, hreads⟩ := reads_of_mem_findAll (in_start text) hmem
    obtain ⟨front, rest, htext, hstart⟩ :=
      Cursor.exists_between (show h.start.In ([] ++ text) from hin) (Nat.zero_le _)
    rw [hstart] at hreads
    obtain rfl := String.ofList_injective (beq_iff_eq.1 hname)
    exact ⟨rest, ⟨front, htext.symm⟩, (hpart h.start hreads).2⟩
  · rintro ⟨rest, ⟨front, rfl⟩, hsubtracts⟩
    obtain ⟨h, hat⟩ : ∃ h, Detector.subtracted.at? (between ([] ++ front) rest) = some h :=
      Option.isSome_iff_exists.1 (isSome_at?_iff.2 (exists_reads_of_subtracts hw hsubtracts))
    obtain ⟨hname, hsubtracts'⟩ := hpart h.start (reads_of_at? hat).2
    refine ⟨h, opensOnce_subtracted.mem_findAll hat, ?_⟩
    rw [hsubtracts.unique hw hname hsubtracts', beq_self_eq_true]

theorem isWord_of_mem_wordsOf {u : String} (h : u ∈ Sign.wordsOf text) : IsWord u.toList := by
  obtain ⟨hit, hmem, rfl⟩ := List.mem_map.1 h
  obtain ⟨hin, -, hreads⟩ := reads_of_mem_findAll (in_start text) hmem
  obtain ⟨front, rest, -, hstart⟩ :=
    Cursor.exists_between (show hit.start.In ([] ++ text) from hin) (Nat.zero_le _)
  rw [hstart] at hreads
  obtain ⟨w, r, rfl, hne, hw, hstop, -⟩ := reads_stretch1_iff.1 hreads
  rw [String.toList_ofList, Hit.text, hstart, hstop, textTo_between]
  exact ⟨hne, hw⟩

end Signs

namespace Statement

variable {s : Statement} {n : String}

/-- The statement branches or sets a condition, and compares in doing so. -/
def Checks (s : Statement) : Prop :=
  (s.isControlFlow ∨ ∃ w, w <+: s.chars ∧ Conditional w) ∧
    ∃ sign ∈ comparisonSigns, sign.toList <:+: s.chars

/-- The statement calls another contract and sends value out, or writes to a variable and subtracts
the amount. -/
def Moves (s : Statement) (n : String) : Prop :=
  (s.isExternalCall ∧ ∃ w, w <:+: s.chars ∧ SendsOut w) ∨
    (s.target.isSome ∧ ∃ rest, rest <:+ s.chars ∧ Subtracts n.toList rest)

/-- The statement names the amount, and checks or moves it. -/
def Settles (s : Statement) (n : String) : Prop :=
  n.toList ∈ wordRuns s.chars ∧ (s.Checks ∨ s.Moves n)

theorem isComparing_iff : Detector.isComparing s ↔ s.Checks := by
  rw [Detector.isComparing, isBranching, shows, Bool.and_eq_true, Bool.or_eq_true,
    condition_starts_iff, comparison_occursIn_iff, Checks]

theorem moves_iff (hn : IsWord n.toList) : Detector.moves s n ↔ s.Moves n := by
  have hsubtracted := @subtracted_any_iff s.chars _ hn
  rw [String.ofList_toList] at hsubtracted
  rw [Detector.moves, shows, Bool.or_eq_true, Bool.and_eq_true, Bool.and_eq_true,
    valueOut_occursIn_iff, hsubtracted, Moves]

end Statement

namespace Detector

variable {n : String} {pending : List String}

/-- The detector strikes the amount off at the statement. -/
def strikes (s : Statement) (n : String) : Bool :=
  (Sign.wordsOf s.chars).contains n && (isComparing s || moves s n)

theorem strikes_iff {s : Statement} (hne : n ≠ "") : strikes s n ↔ s.Settles n := by
  have hword : n ∈ Sign.wordsOf s.chars ↔ n.toList ∈ wordRuns s.chars := by
    have hlist : n.toList ≠ [] := fun h => hne (String.toList_inj.1 h)
    rw [← mem_wordsOf_iff hlist, String.ofList_toList]
  rw [strikes, Bool.and_eq_true, Bool.or_eq_true, List.contains_iff_mem, Statement.isComparing_iff,
    Statement.Settles, ← hword]
  exact and_congr_right fun hmem =>
    or_congr_right (Statement.moves_iff (isWord_of_mem_wordsOf hmem))

/-- The text of a match on an amount. -/
def uncheckedEvidence (n : String) : String :=
  "`" ++ n ++ "` is used before any balance or bounds check"

theorem amountsFrom_nil (found : List Match) (ss : List Statement) :
    amountsFrom found [] ss = found.reverse := by
  cases ss <;> rfl

/-- What one statement does : it strikes amounts off, and gives a match for each of them unless it
checks. -/
theorem amountsFrom_cons (found : List Match) (pending : List String) (s : Statement)
    (later : List Statement) : amountsFrom found pending (s :: later) =
      amountsFrom (((pending.filter fun n => strikes s n && !isComparing s).map fun n =>
          s.matched "missing-amount-validation" (uncheckedEvidence n)).reverse ++ found)
        (pending.filter (!strikes s ·)) later := by
  have hmem (p : String → Bool) {n : String} (hn : n ∈ pending) :
      (pending.filter p).contains n = p n := by
    rw [Bool.eq_iff_iff, List.contains_iff_mem, List.mem_filter]
    exact and_iff_right hn
  by_cases hempty : pending.isEmpty
  · obtain rfl := List.isEmpty_iff.1 hempty
    exact (amountsFrom_nil _ _).symm
  rw [amountsFrom, if_neg hempty]
  dsimp only
  by_cases hunused : (pending.filter (Sign.wordsOf s.chars).contains).isEmpty
  · have hstrikes : ∀ n ∈ pending, strikes s n = false := fun n hn => by
      have hcontains := List.filter_eq_nil_iff.1 (List.isEmpty_iff.1 hunused) n hn
      rw [strikes, Bool.eq_false_iff.2 hcontains, Bool.false_and]
    have hfresh : (pending.filter fun n => strikes s n && !isComparing s) = [] :=
      List.filter_eq_nil_iff.2 fun n hn => by simp [hstrikes n hn]
    have hleft : pending.filter (!strikes s ·) = pending :=
      List.filter_eq_self.2 fun n hn => by simp [hstrikes n hn]
    rw [if_pos hunused, hfresh, hleft]
    rfl
  rw [if_neg hunused]
  by_cases hchecks : isComparing s
  · have hfresh : (pending.filter fun n => strikes s n && !isComparing s) = [] :=
      List.filter_eq_nil_iff.2 fun n _ => by simp [hchecks]
    have hleft : pending.filter (!strikes s ·) =
        pending.filter fun n => !(pending.filter (Sign.wordsOf s.chars).contains).contains n := by
      refine List.filter_congr fun n hn => ?_
      rw [hmem _ hn, strikes, hchecks, Bool.true_or, Bool.and_true]
    rw [if_pos hchecks, hfresh, hleft]
    rfl
  · have hnot : isComparing s = false := Bool.eq_false_iff.2 hchecks
    have hmoved : (pending.filter (Sign.wordsOf s.chars).contains).filter (moves s) =
        pending.filter fun n => strikes s n && !isComparing s := by
      rw [List.filter_filter]
      refine List.filter_congr fun n _ => ?_
      rw [strikes, hnot, Bool.false_or, Bool.not_false, Bool.and_true, Bool.and_comm]
    have hleft : pending.filter (!strikes s ·) = pending.filter fun n =>
        !(pending.filter fun n => strikes s n && !isComparing s).contains n := by
      refine List.filter_congr fun n hn => ?_
      rw [hmem _ hn, hnot, Bool.not_false, Bool.and_true]
    rw [if_neg hchecks, hmoved, hleft]
    rfl

/-- The amounts that are moved unchecked, each with the index of the statement. -/
def uncheckedUses (pending : List String) : List Statement → List (Nat × String)
  | [] => []
  | s :: later =>
    (pending.filter fun n => strikes s n && !isComparing s).map (0, ·) ++
      (uncheckedUses (pending.filter (!strikes s ·)) later).map fun u => (u.1 + 1, u.2)

/-- The run through the statements gives a match for each of these. -/
theorem amountsFrom_eq : ∀ (ss : List Statement) (found : List Match) (pending : List String),
    amountsFrom found pending ss = found.reverse ++ (uncheckedUses pending ss).filterMap fun u =>
      ss[u.1]?.map (·.matched "missing-amount-validation" (uncheckedEvidence u.2))
  | [], found, pending => (List.append_nil _).symm
  | s :: later, found, pending => by
    rw [amountsFrom_cons, amountsFrom_eq later, uncheckedUses]
    simp [List.filterMap_append, List.filterMap_map]

/-- An amount is moved unchecked by the first statement that strikes it off, unless this checks. -/
theorem mem_uncheckedUses_iff : ∀ {ss : List Statement} {pending : List String} {i : Nat},
    (i, n) ∈ uncheckedUses pending ss ↔ n ∈ pending ∧
      (∃ s, ss[i]? = some s ∧ strikes s n ∧ isComparing s = false) ∧
      ∀ j < i, ∀ s, ss[j]? = some s → strikes s n = false
  | [], pending, i => by simp [uncheckedUses]
  | s :: later, pending, 0 => by
    simp [uncheckedUses]
  | s :: later, pending, i + 1 => by
    have hstep : (i + 1, n) ∈ uncheckedUses pending (s :: later) ↔
        (i, n) ∈ uncheckedUses (pending.filter (!strikes s ·)) later := by
      simp [uncheckedUses]
    rw [hstep, mem_uncheckedUses_iff, List.mem_filter, and_assoc]
    refine and_congr_right fun _ => ?_
    constructor
    · rintro ⟨hs, huse, hearlier⟩
      refine ⟨huse, fun j hj t ht => ?_⟩
      cases j with
      | zero =>
        obtain rfl : s = t := Option.some.inj ht
        simpa using hs
      | succ j => exact hearlier j (Nat.lt_of_succ_lt_succ hj) t ht
    · rintro ⟨huse, hearlier⟩
      refine ⟨?_, huse, fun j hj t ht => hearlier (j + 1) (Nat.succ_lt_succ hj) t ht⟩
      simpa using hearlier 0 (Nat.succ_pos i) s rfl

theorem pairwise_uncheckedUses :
    ∀ (ss : List Statement) {pending : List String}, pending.Pairwise (· < ·) →
    (uncheckedUses pending ss).Pairwise fun u v => u.1 < v.1 ∨ u.1 = v.1 ∧ u.2 < v.2
  | [], _, _ => .nil
  | s :: later, pending, hpending => by
    rw [uncheckedUses, List.pairwise_append]
    refine ⟨?_, ?_, ?_⟩
    · rw [List.pairwise_map]
      exact (hpending.filter _).imp fun hlt => Or.inr ⟨rfl, hlt⟩
    · rw [List.pairwise_map]
      refine (pairwise_uncheckedUses later (hpending.filter _)).imp fun hlt => ?_
      exact hlt.imp Nat.succ_lt_succ fun h => ⟨congrArg Nat.succ h.1, h.2⟩
    · rintro u hu v hv
      obtain ⟨n, -, rfl⟩ := List.mem_map.1 hu
      obtain ⟨v, -, rfl⟩ := List.mem_map.1 hv
      exact Or.inl (Nat.succ_pos v.1)

end Detector

/-! ## The members of a source -/

/-- The amount is a parameter of the member : an unsigned number with one of the names for
amounts. -/
def Block.HasAmount (b : Block) (n : String) : Prop :=
  ∃ p ∈ b.params, p.name = some n ∧ "uint".toList <+: p.typeText.toList ∧
    Detector.amountName.occursIn n.toList

/-- The statement with the index `i` is the first one that settles the amount, and it does not check
it. -/
structure Block.MovesUnchecked (b : Block) (i : Nat) (n : String) : Prop where
  settles : ∃ s, b.statements[i]? = some s ∧ s.Settles n ∧ ¬s.Checks
  first : ∀ j < i, ∀ s, b.statements[j]? = some s → ¬s.Settles n

theorem Block.MovesUnchecked.index_eq {b : Block} {i j : Nat} {n : String}
    (hi : b.MovesUnchecked i n) (hj : b.MovesUnchecked j n) : i = j := by
  have hle {i j : Nat} (hi : b.MovesUnchecked i n) (hj : b.MovesUnchecked j n) : i ≤ j := by
    obtain ⟨s, hs, hsettles, -⟩ := hj.settles
    exact Nat.le_of_not_lt fun hlt => hi.first j hlt s hs hsettles
  exact Nat.le_antisymm (hle hi hj) (hle hj hi)

theorem nodup_eraseDups {α : Type} [BEq α] [LawfulBEq α] (l : List α) : l.eraseDups.Nodup := by
  induction hn : l.length using Nat.strongRecOn generalizing l with
  | _ n ih =>
  cases l with
  | nil => simp
  | cons a l =>
    rw [List.eraseDups_cons, List.nodup_cons]
    refine ⟨fun hmem => ?_, ih _ ?_ _ rfl⟩
    · have hne := (List.mem_filter.1 (List.mem_eraseDups.1 hmem)).2
      simp at hne
    · have hle := List.length_filter_le (fun b => !b == a) l
      rw [List.length_cons] at hn
      omega

namespace Detector

variable {b : Block} {n : String}

theorem mem_amounts_iff : n ∈ amounts b ↔ b.HasAmount n := by
  rw [amounts, List.mem_mergeSort, List.mem_eraseDups, List.mem_filter, paramsOfType,
    List.mem_filterMap, Block.HasAmount]
  constructor
  · rintro ⟨⟨p, hp, hname⟩, hamount⟩
    split at hname
    next huint => exact ⟨p, hp, hname, List.isPrefixOf_iff_prefix.1 huint, hamount⟩
    next => cases hname
  · rintro ⟨p, hp, hname, huint, hamount⟩
    exact ⟨⟨p, hp, by rw [if_pos (List.isPrefixOf_iff_prefix.2 huint), hname]⟩, hamount⟩

theorem ne_empty_of_mem_amounts (h : n ∈ amounts b) : n ≠ "" := by
  rintro rfl
  obtain ⟨-, -, -, -, hamount⟩ := mem_amounts_iff.1 h
  exact absurd hamount (by decide)

/-- The amounts are in order, each once. -/
theorem pairwise_amounts (b : Block) : (amounts b).Pairwise (· < ·) := by
  rw [amounts]
  generalize ((paramsOfType b "uint").filter fun n => amountName.occursIn n.toList) = names
  have htrans : ∀ a b c : String, decide (a ≤ b) → decide (b ≤ c) → decide (a ≤ c) := by
    intro a b c hab hbc
    exact decide_eq_true (String.le_trans (of_decide_eq_true hab) (of_decide_eq_true hbc))
  have htotal : ∀ a b : String, decide (a ≤ b) || decide (b ≤ a) := by
    intro a b
    simpa using String.le_total a b
  have hsorted := List.pairwise_mergeSort htrans htotal names.eraseDups
  have hnodup : (names.eraseDups.mergeSort fun a b => decide (a ≤ b)).Nodup :=
    (List.mergeSort_perm _ _).nodup_iff.2 (nodup_eraseDups names)
  refine (hsorted.and hnodup).imp fun {a b} h => ?_
  exact String.not_le.1 fun hle => h.2 (String.le_antisymm (of_decide_eq_true h.1) hle)

theorem mem_uncheckedUses_amounts_iff {i : Nat} : (i, n) ∈ uncheckedUses (amounts b) b.statements ↔
    b.HasAmount n ∧ b.MovesUnchecked i n := by
  rw [mem_uncheckedUses_iff, ← mem_amounts_iff]
  refine and_congr_right fun hn => ?_
  have hstrikes {s : Statement} : strikes s n ↔ s.Settles n :=
    strikes_iff (ne_empty_of_mem_amounts hn)
  have hnot {s : Statement} : strikes s n = false ↔ ¬s.Settles n := by
    rw [← hstrikes, Bool.not_eq_true]
  have hchecks {s : Statement} : isComparing s = false ↔ ¬s.Checks := by
    rw [← Statement.isComparing_iff, Bool.not_eq_true]
  simp only [hnot, hstrikes, hchecks]
  exact ⟨fun h => ⟨h.1, h.2⟩, fun h => ⟨h.settles, h.first⟩⟩

/-- The amounts that a member moves unchecked, if it is an entry point that may write. -/
def usesIn (b : Block) : List (Nat × String) :=
  if b.isParsed && (b.isEntryPoint && !b.isView) then uncheckedUses (amounts b) b.statements else []

theorem pairwise_usesIn (b : Block) :
    (usesIn b).Pairwise fun u v => u.1 < v.1 ∨ u.1 = v.1 ∧ u.2 < v.2 := by
  rw [usesIn]
  split
  · exact pairwise_uncheckedUses b.statements (pairwise_amounts b)
  · exact .nil

theorem mem_usesIn_iff {i : Nat} : (i, n) ∈ usesIn b ↔
    (b.isParsed ∧ b.isEntryPoint ∧ ¬b.isView) ∧ b.HasAmount n ∧ b.MovesUnchecked i n := by
  have hwrites : (b.isParsed && (b.isEntryPoint && !b.isView)) = true ↔
      b.isParsed ∧ b.isEntryPoint ∧ ¬b.isView := by simp
  rw [usesIn, ← hwrites]
  split
  next h => rw [mem_uncheckedUses_amounts_iff, and_iff_right h]
  next h => exact ⟨fun hmem => absurd hmem List.not_mem_nil, fun hmem => absurd hmem.1 h⟩

/-- An amount is moved unchecked at one statement of a member only. -/
theorem nodup_usesIn (b : Block) : ((usesIn b).map (·.2)).Nodup := by
  rw [List.Nodup, List.pairwise_map]
  refine (pairwise_usesIn b).imp_of_mem fun {u v} hu hv hlt hname => ?_
  have hu' := (mem_usesIn_iff.1 hu).2.2
  have hv' := (mem_usesIn_iff.1 hv).2.2
  rw [hname] at hu'
  have hindex := hu'.index_eq hv'
  rcases hlt with hlt | ⟨-, hlt⟩
  · omega
  · rw [hname] at hlt
    exact absurd hlt (String.lt_irrefl _)

/-- In every entry point that may write, the matches are the amounts that are moved unchecked, each
at the statement that moves it, in the order of the statements and by name at one statement. -/
theorem missingAmountValidation_finds (source : Source) (bs : List Block) :
    ∃ uses : Block → List (Nat × String),
      missingAmountValidation source bs = .ok (bs.flatMap fun b => (uses b).filterMap fun u =>
        b.statements[u.1]?.map (·.matched "missing-amount-validation" (uncheckedEvidence u.2))) ∧
      ∀ b, ((uses b).Pairwise fun u v => u.1 < v.1 ∨ u.1 = v.1 ∧ u.2 < v.2) ∧
        ((uses b).map (·.2)).Nodup ∧
        ∀ i n, (i, n) ∈ uses b ↔ (b.isParsed ∧ b.isEntryPoint ∧ ¬b.isView) ∧ b.HasAmount n ∧
          b.MovesUnchecked i n := by
  refine ⟨usesIn, ?_, fun b => ⟨pairwise_usesIn b, nodup_usesIn b, fun i n => mem_usesIn_iff⟩⟩
  rw [missingAmountValidation, eachEntryPoint_pure]
  refine congrArg Except.ok (congrArg bs.flatMap (funext fun b => ?_))
  rw [usesIn]
  split
  · rw [amountsFrom_eq]
    rfl
  · rfl

end Detector

/-- A member that sends an amount, with the gas in front of the value among the options of the
call. -/
def Source.gasFirst : String :=
  "contract C\x7bfunction f(address to,uint amount)public" ++
    "\x7bto.call\x7bgas:5000,value:amount\x7d(\"\");\x7d\x7d"

/-- The same with the value in front of the gas. -/
def Source.valueFirst : String :=
  "contract C\x7bfunction f(address to,uint amount)public" ++
    "\x7bto.call\x7bvalue:amount,gas:5000\x7d(\"\");\x7d\x7d"

/-- The member of `Source.gasFirst`. -/
def Block.gasFirst : Block where
  kind := .function
  name := "f"
  params := [⟨"address", some "to"⟩, ⟨"uint", some "amount"⟩]
  visibility := some .everyone
  mutability := []
  modifiers := []
  start := 11
  stop := 88
  contract := some ⟨"C", .contract, 0, 89, [], [], false⟩
  body := some (52, 87)
  statements := [⟨.externalCall, 52, 86, "to.call\x7bgas:5000,value:amount\x7d(\"\")", 0, none⟩]
  fault := none

/-- Both members send the amount by a call before anything is compared. Only the second one is
marked. -/
theorem Detector.missingAmountValidation_gasFirst :
    (Source.ofChars Source.gasFirst.toList).outline.blocks = [.gasFirst] ∧
      Detector.missingAmountValidation (.ofChars Source.gasFirst.toList) [.gasFirst] = .ok [] ∧
      Detector.missingAmountValidation (.ofChars Source.valueFirst.toList)
        (Source.ofChars Source.valueFirst.toList).outline.blocks = .ok
        [⟨"missing-amount-validation", 52, 86,
          some "`amount` is used before any balance or bounds check"⟩] := by
  decide +kernel

end ContractAudit
