import ContractAudit.Proofs.Written.Misread
import ContractAudit.Proofs.Written.Target

/-!
# Payments and withdrawals

A payment is an external call in every scope, and declares nothing but its flag. A withdrawal takes
an amount off the entry of the sender in a mapping; it writes to the mapping wherever that stands
for storage (`writeTarget_withdrawal`), and is not taken for a declaration of it
(`not_resembles_withdrawal`).
-/

namespace ContractAudit

open Pattern Cursor

namespace Written

/-! ## Payments -/

section Payment

variable (amount : Name)

theorem Statement.exists_payment_eq (lead : List Char) (hlead : lead <+: Statement.call) :
    ∃ rest, (Statement.payment amount).chars = lead ++ rest := by
  obtain ⟨later, hlater⟩ := hlead
  exact ⟨_, by rw [chars, ← hlater, List.append_assoc]⟩

theorem emitWord_starts_payment :
    Scope.emitWord.starts (Statement.payment amount).chars = false := by
  obtain ⟨rest, hrest⟩ := Statement.exists_payment_eq amount ['('] (by decide)
  have hopens : Scope.emitWord.Opens (· == 'e') := (opens_text rfl rfl).append _
  have hmiss : Scope.emitWord.Misses (between [] (['('] ++ rest)) := hopens.misses rfl []
  rw [hrest, starts, startOf?, ← between_nil, hmiss.at?]
  rfl

/-- A payment is a low-level call. -/
theorem lowLevelCall_occursIn_payment :
    Scope.lowLevelCall.occursIn (Statement.payment amount).chars := by
  have hat (front rest : List Char) :
      (Scope.lowLevelCall.at? (between front ('.' :: ("call".toList ++ '{' :: rest)))).isSome := by
    have hdot : (Pattern.text ".").Takes (between front ('.' :: ("call".toList ++ '{' :: rest))) []
        (between (front ++ ['.']) ("call".toList ++ '{' :: rest)) [] := takes_symbol rfl _ _ []
    have hgap : blanks.Takes (between (front ++ ['.']) ("call".toList ++ '{' :: rest)) []
        (between (front ++ ['.']) ("call".toList ++ '{' :: rest)) [] := takes_stretch_nil rfl _ []
    have hcall := ((takes_text "call" (front ++ ['.']) ('{' :: rest) []).oneOf_head
      ["delegatecall", "staticcall"]).named "method"
    have hlater (ps : Parts) :
        blanks.Takes (between (front ++ ['.'] ++ "call".toList) ('{' :: rest)) ps
        (between (front ++ ['.'] ++ "call".toList) ('{' :: rest)) ps := takes_stretch_nil rfl _ ps
    have hbrace (ps : Parts) : (among "(\x7b").Takes
        (between (front ++ ['.'] ++ "call".toList) ('{' :: rest)) ps
        (between (front ++ ['.'] ++ "call".toList ++ ['{']) rest) ps :=
      takes_char (by decide) (front ++ ['.'] ++ "call".toList) rest ps
    have hfront := (((hdot.append hgap).append hcall).append (hlater _)).reads
    exact isSome_read_of_reads Scope.lowLevelCall
      ((hfront.append (reads_many_nothing _ _ _)).append (hbrace _).reads) rfl
  have hsplit : Statement.call = "(bool ok, ) = msg.sender".toList ++ '.' :: "call".toList := by
    decide
  rw [occursIn, findIn?, ← between_nil, Statement.chars, hsplit, List.append_assoc,
    List.cons_append]
  exact isSome_find? (hat _ _)

/-- A payment declares the flag of its result. -/
theorem declarations_payment : declarations (Statement.payment amount).chars =
    [⟨"bool".toList, none, "ok"⟩] := by
  obtain ⟨rest, hrest⟩ := Statement.exists_payment_eq amount "(bool ok, ) = ".toList (by decide)
  have htext : (Statement.payment amount).chars =
      tupleChars "bool ok, ".toList .space (' ' :: rest) := by
    rw [hrest]
    rfl
  rw [htext, declarations_tupleChars .space (by decide) (by simp)]
  decide

/-- A payment declares no name but that of its flag. -/
theorem not_resembles_payment {n : Name} (hn : n.text ≠ "ok") (front : List Char) :
    ¬Resembles n front (Statement.payment amount).chars := fun h => by
  obtain ⟨d, hd, -, hname⟩ := exists_mem_declarations_iff.2 ⟨front, h, rfl⟩
  rw [declarations_payment, List.mem_singleton] at hd
  exact hn (by rw [← hname, hd])

end Payment

/-! ## Withdrawals -/

/-- What stands behind the name of the mapping in a withdrawal. -/
def entryChars : List Char :=
  "[msg.sender]".toList

/-- What stands between the entry and the amount of a withdrawal. -/
def minusChars : List Char :=
  " -= ".toList

/-- The statement that takes an amount off the sender's entry of a mapping. -/
def withdrawalChars (m amount : Name) : List Char :=
  m.chars ++ (entryChars ++ (minusChars ++ amount.chars))

section Withdrawal

variable (m amount : Name)

theorem withdrawalChars_eq : withdrawalChars m amount =
    m.chars ++ '[' :: ("msg.sender] -=".toList ++ ' ' :: amount.chars) :=
  rfl

theorem lacks_withdrawalChars : Lacks reservedWords (withdrawalChars m amount) := by
  rw [withdrawalChars_eq, lacks_append_cons (by decide), lacks_append_cons (by decide)]
  exact ⟨m.unreserved, by decide, amount.unreserved⟩

/-- The characters of names and of the signs of a withdrawal. -/
def isWithdrawalChar (a : Char) : Bool :=
  isWordChar a || ['[', ']', '.', ' ', '-', '='].contains a

theorem isWithdrawalChar_of_mem : ∀ a ∈ withdrawalChars m amount, isWithdrawalChar a := by
  have hadd := additive_forall isWithdrawalChar
  have hname (n : Name) : ∀ a ∈ n.chars, isWithdrawalChar a := fun a ha => by
    rw [isWithdrawalChar, n.isWordChar_of_mem a ha, Bool.true_or]
  exact hadd.append (hname m) (hadd.append (by decide)
    (hadd.append (by decide) (hname amount)))

theorem ne_of_mem_withdrawalChars {a b : Char} (ha : a ∈ withdrawalChars m amount)
    (hb : isWithdrawalChar b = false) : a ≠ b := by
  rintro rfl
  rw [isWithdrawalChar_of_mem m amount a ha] at hb
  cases hb

theorem simple_withdrawalChars : Simple (withdrawalChars m amount) where
  ne_nil := by simp [withdrawalChars, m.chars_ne_nil]
  trimmed := by
    constructor
    · obtain ⟨a, cs, hchars, -⟩ := m.exists_cons
      rw [withdrawalChars, hchars]
      exact m.not_isBlank_of_mem a (by simp [hchars])
    · have hlast := getLast?_append_identifier (m.chars ++ (entryChars ++ minusChars))
        amount.isIdentifier_chars
      rw [withdrawalChars, ← List.append_assoc entryChars, ← List.append_assoc]
      cases hend : (m.chars ++ (entryChars ++ minusChars) ++ amount.chars).getLast? with
      | none => rfl
      | some a =>
        rw [hend] at hlast
        exact isBlank_of_isWordChar hlast
  parens := level_of_not_mem (fun h => ne_of_mem_withdrawalChars m amount h (by decide) rfl)
    (fun h => ne_of_mem_withdrawalChars m amount h (by decide) rfl) 0
  unmarked a ha := by
    have hopen : a ≠ '{' := ne_of_mem_withdrawalChars m amount ha (by decide)
    have hclose : a ≠ '}' := ne_of_mem_withdrawalChars m amount ha (by decide)
    have hmark : a ≠ ';' := ne_of_mem_withdrawalChars m amount ha (by decide)
    simp [hopen, hclose, hmark]
  code := isCode_of_forall fun a ha => by
    have hquote : a ≠ '"' := ne_of_mem_withdrawalChars m amount ha (by decide)
    have hquote' : a ≠ '\'' := ne_of_mem_withdrawalChars m amount ha (by decide)
    have hslash : a ≠ '/' := ne_of_mem_withdrawalChars m amount ha (by decide)
    simp [isSober, hquote, hquote', hslash]
  control w hw := (lacks_withdrawalChars m amount).startsWithWord
    (List.mem_append_left _ (List.mem_append_right _ hw))
  declares := (lacks_withdrawalChars m amount).of_declarationWords

theorem emitWord_starts_withdrawal : Scope.emitWord.starts (withdrawalChars m amount) = false := by
  have hmiss : Scope.emitWord.Misses (between [] (withdrawalChars m amount)) := by
    rintro ps d qs ⟨e, rs, htext, hedge⟩
    obtain ⟨r, hr, rfl, rfl⟩ := reads_text_iff.1 htext
    have hnonword := nonword_of_reads_edge (by decide) hedge
    rw [(lacks_withdrawalChars m amount).nonword_behind (by decide) hr] at hnonword
    cases hnonword
  rw [starts, startOf?, ← between_nil, hmiss.at?]
  rfl

/-- The entry of the sender in a mapping. -/
def entryOf : Path where
  base := m.chars
  isIdentifier_base := m.isIdentifier_chars
  accesses := [.index .nothing "msg.sender".toList (by decide)]

/-- A withdrawal writes to its mapping, where that stands for storage. -/
theorem writeTarget_withdrawal (scope : Scope) : scope.writeTarget (withdrawalChars m amount) =
    if scope.isStorage m.text then some m.text else none := by
  have hbase : m.chars ≠ "delete".toList := fun heq => by
    have hname := m.isName_chars
    rw [heq] at hname
    exact absurd hname (by decide)
  have hminus : "-" ∈ assignmentSigns := by decide
  have hentry : entryChars = '[' :: ("msg.sender".toList ++ [']']) := by decide
  have hsign : minusChars = [' '] ++ ("-".toList ++ ['=', ' ']) := by decide
  have htext : withdrawalChars m amount = Gap.nothing.chars ++ ((entryOf m).chars ++
      (Gap.space.chars ++ ("-".toList ++ '=' :: ' ' :: amount.chars))) := by
    rw [withdrawalChars, hentry, hsign]
    simp only [Gap.nothing, Gap.space, entryOf, Path.chars, Access.chars, List.flatMap_cons,
      List.flatMap_nil, List.append_assoc, List.cons_append, List.nil_append]
  have hstop : ("-".toList ++ '=' :: ' ' :: amount.chars).head?.any carriesOn = false :=
    stops_append (by decide) _
  have hvalue : goesOn (' ' :: amount.chars) = false := by
    simp [goesOn]
  rw [htext, scope.writeTarget_unprefixed (p := entryOf m) hbase .nothing .space hstop,
    if_pos (Scope.writesPath_assigned .space hminus hvalue _ _)]
  rfl

/-- Two ways to cut a text in three : at one place, or one cut before the other. -/
theorem cut_cases {v s u t : List Char} {a b : Char} (h : v ++ b :: s = u ++ a :: t) :
    (v = u ∧ s = t) ∨ (∃ s', u = v ++ b :: s' ∧ s = s' ++ a :: t) ∨ b ∈ t := by
  rcases List.append_eq_append_iff.1 h with ⟨u', rfl, hu⟩ | ⟨v', rfl, hv⟩
  · cases u' with
    | nil =>
      obtain ⟨-, rfl⟩ := List.cons.inj hu
      exact Or.inl ⟨(List.append_nil v).symm, rfl⟩
    | cons c u' =>
      obtain ⟨rfl, rfl⟩ := List.cons.inj hu
      exact Or.inr (Or.inl ⟨u', rfl, rfl⟩)
  · cases v' with
    | nil =>
      obtain ⟨-, rfl⟩ := List.cons.inj hv
      exact Or.inl ⟨List.append_nil u, rfl⟩
    | cons c v' =>
      obtain ⟨-, rfl⟩ := List.cons.inj hv
      exact Or.inr (Or.inr (by simp))

variable {m amount}

/-- The amount is the only name behind a blank. -/
theorem eq_amount_of_withdrawalChars_eq {n : Name} {v rest : List Char} {b : Char}
    (h : withdrawalChars m amount = v ++ b :: (n.chars ++ rest)) (hb : isBlank b)
    (hrest : rest.head?.any isWordChar = false) : n = amount := by
  have hsolid {cs : List Char} (hcs : ∀ a ∈ cs, isBlank a = false) : b ∉ cs := fun hmem => by
    rw [hcs b hmem] at hb
    cases hb
  have hchars : withdrawalChars m amount =
      (m.chars ++ entryChars ++ ' ' :: ['-', '=']) ++ ' ' :: amount.chars := by
    simp [withdrawalChars, minusChars]
  rw [hchars] at h
  rcases cut_cases h.symm with ⟨-, hamount⟩ | ⟨s, hs, hname⟩ | hmem
  · cases rest with
    | nil =>
      exact Name.text_injective (congrArg String.ofList ((List.append_nil _).symm.trans hamount))
    | cons c rest =>
      have hc := amount.isWordChar_of_mem c (by rw [← hamount]; simp)
      rw [List.head?_cons, Option.any_some, hc] at hrest
      cases hrest
  · rcases cut_cases hs.symm with ⟨-, rfl⟩ | ⟨t, ht, -⟩ | hmem
    · obtain ⟨a, cs, hcs, ha, -⟩ := n.exists_cons
      rw [hcs] at hname
      rw [(List.cons.inj hname).1] at ha
      cases ha
    · have hentry : ∀ a ∈ m.chars ++ entryChars, isBlank a = false := by
        intro a ha
        rcases List.mem_append.1 ha with ha | ha
        · exact m.not_isBlank_of_mem a ha
        · exact (by decide : ∀ a ∈ entryChars, isBlank a = false) a ha
      exact absurd (by rw [ht]; simp) (hsolid hentry)
    · exact absurd hmem (hsolid (by decide))
  · exact absurd hmem (hsolid amount.not_isBlank_of_mem)

/-- A withdrawal is not taken for a declaration of its mapping. -/
theorem not_resembles_withdrawal (hne : m ≠ amount) (front : List Char) :
    ¬Resembles m front (withdrawalChars m amount) := by
  intro h
  generalize hcs : withdrawalChars m amount = cs at h
  cases h with
  | @single first type tail l htype hfirst htail =>
    obtain ⟨b, hlast, hb⟩ := (Option.any_eq_true _ _).1 (l.getLast?_append type)
    obtain ⟨v, hv⟩ := List.getLast?_eq_some_iff.1 hlast
    rw [← List.append_assoc, hv, List.append_assoc, List.singleton_append] at hcs
    exact hne (eq_amount_of_withdrawalChars_eq hcs hb (nonword_of_endsName htail))
  | tuple gap hinner hvalue hfront hmem =>
    obtain ⟨a, cs, hchars, ha, -⟩ := m.exists_cons
    rw [withdrawalChars, hchars] at hcs
    rw [(List.cons.inj hcs).1] at ha
    exact absurd ha (by decide)

end Withdrawal

end Written

end ContractAudit
