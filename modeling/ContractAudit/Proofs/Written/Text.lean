import ContractAudit.Proofs.Source.Neutral
import ContractAudit.Proofs.Written.Basic

/-!
# The text of written contracts

What the characters of a written contract are : which words they make up, that brackets are
balanced, and that nothing in them is blanked out (`Written.Stable`).
-/

namespace ContractAudit

namespace Written

/-! ## Texts made of others -/

/-- The property passes from texts to the texts that are made of them. -/
structure Additive (P : List Char → Prop) : Prop where
  nil : P []
  append : ∀ {cs ds : List Char}, P cs → P ds → P (cs ++ ds)

namespace Additive

variable {P : List Char → Prop}

theorem flatMap (h : Additive P) {α : Type} {f : α → List Char} : ∀ {xs : List α},
    (∀ x ∈ xs, P (f x)) → P (xs.flatMap f)
  | [], _ => h.nil
  | x :: xs, hxs => by
    rw [List.flatMap_cons]
    exact h.append (hxs x List.mem_cons_self)
      (h.flatMap fun y hy => hxs y (List.mem_cons_of_mem x hy))

theorem intercalate (h : Additive P) {sep : List Char} (hsep : P sep) : ∀ {ls : List (List Char)},
    (∀ l ∈ ls, P l) → P (sep.intercalate ls)
  | [], _ => h.nil
  | [l], hls => by simpa using hls l List.mem_cons_self
  | l :: l' :: ls, hls => by
    rw [List.intercalate_cons_cons]
    exact h.append (h.append (hls l List.mem_cons_self) hsep)
      (h.intercalate hsep fun k hk => hls k (List.mem_cons_of_mem l hk))

end Additive

theorem additive_forall (ok : Char → Bool) : Additive fun cs => ∀ a ∈ cs, ok a :=
  ⟨by simp, fun hcs hds => List.forall_mem_append.2 ⟨hcs, hds⟩⟩

theorem additive_level (opener closer : Char) :
    Additive fun cs => level opener closer 0 cs = some 0 :=
  ⟨rfl, fun hcs hds => by rw [level_append_balanced hcs, hds]⟩

/-! ## Code -/

/-- Nothing in the text is blanked out, and it ends in code. -/
def Stable (cs : List Char) : Prop :=
  ∀ ds, neutralChars .code (cs ++ ds) = cs ++ neutralChars .code ds

variable {a : Char}

section Stable

variable {cs ds : List Char}

theorem stable_nil : Stable [] :=
  fun _ => rfl

theorem Stable.append (hcs : Stable cs) (hds : Stable ds) : Stable (cs ++ ds) := by
  intro es
  rw [List.append_assoc, hcs, hds, List.append_assoc]

theorem additive_stable : Additive Stable :=
  ⟨stable_nil, Stable.append⟩

/-- A character that starts no literal and no comment. -/
def isSober (a : Char) : Bool :=
  !(['"', '\'', '/'].contains a)

/-- A character of code that starts no literal, and no comment with the next one. -/
theorem step_code {c : Char} {next : Option Char} (hquote : ['"', '\''].contains c = false)
    (hmark : c = '/' → next ≠ some '/' ∧ next ≠ some '*') :
      Region.code.step c next = (c, .code) := by
  simp at hquote
  by_cases hc : c = '/'
  · simp [Region.step, hquote, hmark hc]
  · simp [Region.step, hquote, hc]

theorem stable_of_forall : ∀ {cs : List Char}, (∀ a ∈ cs, isSober a) → Stable cs
  | [], _ => stable_nil
  | a :: cs, h => by
    intro ds
    have ha : isSober a := h a List.mem_cons_self
    simp only [isSober, List.contains_cons, List.contains_nil, Bool.or_false, Bool.not_eq_true',
      Bool.or_eq_false_iff, beq_eq_false_iff_ne] at ha
    have hquote : ['"', '\''].contains a = false := by simp [ha]
    rw [List.cons_append, neutralChars, step_code hquote fun h => absurd h ha.2.2,
      stable_of_forall (fun b hb => h b (List.mem_cons_of_mem a hb)) ds, List.cons_append]

/-- Code and a character behind it that starts nothing. -/
theorem stable_of_isCode (ha : isSober a) (hstar : a ≠ '*') : ∀ {cs : List Char},
    isCode cs → Stable (cs ++ [a])
  | [], _ => stable_of_forall (by simpa using ha)
  | c :: cs, h => by
    intro ds
    unfold isCode at h
    simp only [Bool.and_eq_true, Bool.not_eq_true'] at h
    obtain ⟨⟨hquote, hmark⟩, hcs⟩ := h
    have hslash : a ≠ '/' := by
      rintro rfl
      exact absurd ha (by decide)
    have hnext : c = '/' →
        (cs ++ [a] ++ ds).head? ≠ some '/' ∧ (cs ++ [a] ++ ds).head? ≠ some '*' := by
      rintro rfl
      cases cs with
      | nil => simp [hslash, hstar]
      | cons b cs => simpa using hmark
    rw [List.cons_append, List.cons_append, neutralChars, step_code hquote hnext,
      stable_of_isCode ha hstar hcs ds]
    rfl

end Stable

/-! ## Words that do not occur -/

/-- None of the given words stands in the text on its own. -/
def Lacks (ws : List String) (cs : List Char) : Prop :=
  ∀ w ∈ ws, w.toList ∉ wordRuns cs

section Lacks

variable {ws : List String} {cs ds gap w : List Char}

theorem lacks_append_cons (ha : isWordChar a = false) :
    Lacks ws (cs ++ a :: ds) ↔ Lacks ws cs ∧ Lacks ws ds := by
  simp [Lacks, wordRuns_append_cons ha, imp_and, forall_and]

theorem lacks_nil (hws : "" ∉ ws) : Lacks ws [] := by
  intro w hw hmem
  have hnil : w.toList = [] := by simpa [wordRuns_of_word] using hmem
  exact hws (String.toList_eq_nil_iff.1 hnil ▸ hw)

theorem lacks_cons (hws : "" ∉ ws) (ha : isWordChar a = false) :
    Lacks ws (a :: ds) ↔ Lacks ws ds := by
  have hcons : Lacks ws ([] ++ a :: ds) ↔ Lacks ws [] ∧ Lacks ws ds := lacks_append_cons ha
  exact hcons.trans (and_iff_right (lacks_nil hws))

theorem lacks_of_word (hw : ∀ a ∈ w, isWordChar a) (h : String.ofList w ∉ ws) : Lacks ws w := by
  intro v hv hmem
  rw [wordRuns_of_word hw, List.mem_singleton] at hmem
  exact h (by rwa [← hmem, String.ofList_toList])

instance (ws : List String) (cs : List Char) : Decidable (Lacks ws cs) :=
  inferInstanceAs (Decidable (∀ w ∈ ws, w.toList ∉ wordRuns cs))

theorem Lacks.of_declarationWords (h : Lacks reservedWords cs) : Lacks declarationWords cs :=
  fun w hw => h w (List.mem_append_left _ (List.mem_append_left _ hw))

theorem nil_not_mem_reservedWords : "" ∉ reservedWords := by
  decide

variable {w : String}

theorem isWordChar_of_mem_reservedWords (hw : w ∈ reservedWords) :
    ∀ a ∈ w.toList, isWordChar a := by
  have hwords : ∀ w ∈ reservedWords, ∀ a ∈ w.toList, isWordChar a := by decide
  exact hwords w hw

/-- A text without reserved words does not start with one. -/
theorem Lacks.nonword_behind (h : Lacks reservedWords cs) (hw : w ∈ reservedWords)
    (hcs : cs = w.toList ++ ds) : ds.head?.any isWordChar := by
  cases hnonword : ds.head?.any isWordChar with
  | true => rfl
  | false =>
    have hrun : w.toList ∈ wordRuns ([] ++ (w.toList ++ ds)) :=
      mem_wordRuns (isWordChar_of_mem_reservedWords hw) rfl hnonword
    exact absurd (hcs ▸ hrun) (h w hw)

theorem Lacks.startsWithWord (h : Lacks reservedWords cs) (hw : w ∈ reservedWords) :
    startsWithWord cs w = false := by
  cases hpre : w.toList.isPrefixOf cs with
  | false => rw [Written.startsWithWord, hpre, Bool.false_and]
  | true =>
    obtain ⟨ds, rfl⟩ := List.isPrefixOf_iff_prefix.1 hpre
    rw [Written.startsWithWord, ← String.length_toList, List.drop_left, h.nonword_behind hw rfl,
      Bool.not_true, Bool.and_false]

end Lacks

namespace Name

variable (n : Name)

theorem isWordChar_of_mem : ∀ a ∈ n.chars, isWordChar a := by
  have h := n.isName_chars
  simp only [isName, Bool.and_eq_true] at h
  exact List.all_eq_true.1 h.1.2

theorem text_injective {n k : Name} (h : n.text = k.text) : n = k := by
  obtain ⟨cs, hcs⟩ := n
  obtain ⟨ds, hds⟩ := k
  obtain rfl : cs = ds := String.ofList_injective h
  rfl

theorem exists_cons : ∃ a cs, n.chars = a :: cs ∧ isIdentStart a ∧ ∀ b ∈ cs, isWordChar b := by
  have h := n.isName_chars
  have hword := n.isWordChar_of_mem
  simp only [isName, Bool.and_eq_true] at h
  cases hcs : n.chars with
  | nil => simp [hcs] at h
  | cons a cs =>
    rw [hcs] at h hword
    exact ⟨a, cs, rfl, h.1.1, fun b hb => hword b (List.mem_cons_of_mem a hb)⟩

theorem text_not_mem : n.text ∉ reservedWords := by
  have h := n.isName_chars
  simp only [isName, Bool.and_eq_true, Bool.not_eq_true', List.contains_eq_mem,
    decide_eq_false_iff_not] at h
  exact h.2

theorem unreserved : Lacks reservedWords n.chars :=
  lacks_of_word n.isWordChar_of_mem n.text_not_mem

theorem undeclaring : Lacks declarationWords n.chars :=
  n.unreserved.of_declarationWords

theorem not_isBlank_of_mem : ∀ a ∈ n.chars, isBlank a = false :=
  fun a ha => isBlank_of_isWordChar (n.isWordChar_of_mem a ha)

theorem chars_ne_nil : n.chars ≠ [] := by
  obtain ⟨a, cs, h, -⟩ := n.exists_cons
  simp [h]

end Name

/-! ## Characters of headers -/

/-- A character that may stand outside bodies. -/
def isHeaderChar (a : Char) : Bool :=
  isWordChar a || isBlank a || ['.', '[', ']', '(', ')', '=', '>', ','].contains a

theorem isHeaderChar_of_isWordChar (h : isWordChar a) : isHeaderChar a := by
  simp [isHeaderChar, h]

theorem isHeaderChar_of_isBlank (h : isBlank a) : isHeaderChar a := by
  simp [isHeaderChar, h]

/-- A mark is no character of a header. -/
theorem ne_of_isHeaderChar {a b : Char} (h : isHeaderChar a) (hb : isHeaderChar b = false) :
    a ≠ b := by
  rintro rfl
  simp [hb] at h

theorem isSober_of_isHeaderChar (h : isHeaderChar a) : isSober a := by
  have hquote : a ≠ '"' := ne_of_isHeaderChar h (by decide)
  have hquote' : a ≠ '\'' := ne_of_isHeaderChar h (by decide)
  have hslash : a ≠ '/' := ne_of_isHeaderChar h (by decide)
  simp [isSober, hquote, hquote', hslash]

theorem Name.isHeaderChar_of_mem (n : Name) : ∀ a ∈ n.chars, isHeaderChar a :=
  fun a ha => isHeaderChar_of_isWordChar (n.isWordChar_of_mem a ha)

theorem Name.level_chars (n : Name) {opener closer : Char} (hopen : isWordChar opener = false)
    (hclose : isWordChar closer = false) : level opener closer 0 n.chars = some 0 := by
  refine level_of_not_mem (fun hmem => ?_) (fun hmem => ?_) 0
  · simp [n.isWordChar_of_mem _ hmem] at hopen
  · simp [n.isWordChar_of_mem _ hmem] at hclose

namespace Size

variable (s : Size)

theorem isWordChar_of_mem : ∀ a ∈ s.digits, isWordChar a := by
  intro a ha
  have hdigit : a.isDigit := List.all_eq_true.1 s.isDigit_digits a ha
  simp only [Char.isDigit, Bool.and_eq_true, decide_eq_true_eq, ge_iff_le] at hdigit
  have hrange : '0' ≤ a ∧ a ≤ '9' := hdigit
  have hlt : a.toNat < 0x80 := Nat.lt_of_le_of_lt (UInt32.le_iff_toNat_le.1 hdigit.2) (by decide)
  simp [isWordChar, hlt, hrange]

theorem unreserved : Lacks reservedWords s.digits := by
  refine lacks_of_word s.isWordChar_of_mem fun hmem => ?_
  have hno : ∀ w ∈ reservedWords, w.toList.all Char.isDigit = false := by decide
  have hall := hno _ hmem
  simp [String.toList_ofList, s.isDigit_digits] at hall

end Size

/-! ## Types -/

theorem lacks_append_flatMap {ws : List String} {α : Type} {f : α → List Char} : ∀ {xs : List α},
    (∀ x ∈ xs, ∃ a cs, f x = a :: cs ∧ isWordChar a = false ∧ Lacks ws cs) →
      ∀ {cs : List Char}, Lacks ws cs → Lacks ws (cs ++ xs.flatMap f)
  | [], _, cs, hcs => by simpa using hcs
  | x :: xs, h, cs, hcs => by
    obtain ⟨a, ds, hx, ha, hds⟩ := h x List.mem_cons_self
    rw [List.flatMap_cons, hx, List.cons_append, lacks_append_cons ha]
    exact ⟨hcs, lacks_append_flatMap (fun y hy => h y (List.mem_cons_of_mem x hy)) hds⟩

/-- The depth behind a text. -/
def depthBehind (depth : Int) (cs : List Char) : Int :=
  cs.foldl depthAfter depth

theorem depthBehind_append (depth : Int) (cs ds : List Char) :
    depthBehind depth (cs ++ ds) = depthBehind (depthBehind depth cs) ds :=
  List.foldl_append

variable {cs : List Char}

theorem depthBehind_of_forall (h : ∀ a ∈ cs, isOpening a = false ∧ isClosing a = false)
    (depth : Int) : depthBehind depth cs = depth := by
  induction cs generalizing depth with
  | nil => rfl
  | cons a cs ih =>
    obtain ⟨hopen, hclose⟩ := h a List.mem_cons_self
    have ha : depthAfter depth a = depth := by simp [depthAfter, hopen, hclose]
    show depthBehind (depthAfter depth a) cs = depth
    rw [ha, ih fun b hb => h b (List.mem_cons_of_mem a hb)]

/-- A part of a header with balanced brackets and without commas. -/
structure Even (cs : List Char) : Prop where
  chars : ∀ a ∈ cs, isHeaderChar a
  noComma : ',' ∉ cs
  parens : level '(' ')' 0 cs = some 0
  depth : ∀ depth, depthBehind depth cs = depth

section Even

variable {cs ds : List Char}

theorem Even.append (hcs : Even cs) (hds : Even ds) : Even (cs ++ ds) where
  chars := List.forall_mem_append.2 ⟨hcs.chars, hds.chars⟩
  noComma := by simp [hcs.noComma, hds.noComma]
  parens := by rw [level_append_balanced hcs.parens, hds.parens]
  depth depth := by rw [depthBehind_append, hcs.depth, hds.depth]

theorem even_nil : Even [] :=
  ⟨by simp, by simp, rfl, fun _ => rfl⟩

theorem additive_even : Additive Even :=
  ⟨even_nil, Even.append⟩

theorem even_of_forall
    (h : ∀ a ∈ cs, isHeaderChar a ∧ ['(', ')', '[', ']', ','].contains a = false) : Even cs where
  chars a ha := (h a ha).1
  noComma hmem := by simpa using (h _ hmem).2
  parens := level_of_not_mem (fun hmem => by simpa using (h _ hmem).2)
    (fun hmem => by simpa using (h _ hmem).2) 0
  depth := depthBehind_of_forall fun a ha => by
    have hnot := (h a ha).2
    simp at hnot
    simp [isOpening, isClosing, hnot]

theorem even_of_word (h : ∀ a ∈ cs, isWordChar a) : Even cs := by
  refine even_of_forall fun a ha => ⟨isHeaderChar_of_isWordChar (h a ha), ?_⟩
  cases hmem : ['(', ')', '[', ']', ','].contains a with
  | false => rfl
  | true =>
    have hword : ∀ b ∈ ['(', ')', '[', ']', ','], isWordChar b = false := by decide
    have hno := hword a (by simpa using hmem)
    simp [h a ha] at hno

/-- A pair of brackets around an even text, if the round brackets in it are balanced. -/
theorem Even.bracketed {opener closer : Char} (h : Even cs)
    (hbrackets : ∀ a ∈ [opener, closer], isHeaderChar a ∧ a ≠ ',')
    (hopen : ∀ depth, depthAfter depth opener = depth + 1)
    (hclose : ∀ depth, depthAfter depth closer = depth - 1)
    (hparens : level '(' ')' 0 (opener :: (cs ++ [closer])) = some 0) :
    Even (opener :: (cs ++ [closer])) where
  chars := by
    simp only [List.forall_mem_cons, List.forall_mem_append] at hbrackets ⊢
    exact ⟨hbrackets.1.1, h.chars, hbrackets.2.1.1, by simp⟩
  noComma := by
    simp only [List.forall_mem_cons] at hbrackets
    simp [h.noComma, hbrackets.1.2.symm, hbrackets.2.1.2.symm]
  parens := hparens
  depth depth := by
    show depthBehind (depthAfter depth opener) (cs ++ [closer]) = depth
    rw [depthBehind_append, h.depth, hopen]
    show depthAfter (depth + 1) closer = depth
    rw [hclose]
    omega

theorem Even.group (h : Even cs) : Even ('(' :: (cs ++ [')'])) :=
  h.bracketed (by decide) (fun _ => rfl) (fun _ => rfl) (level_group (by decide) h.parens 0 [])

theorem Even.square (h : Even cs) : Even ('[' :: (cs ++ [']'])) := by
  refine h.bracketed (by decide) (fun _ => rfl) (fun _ => rfl) ?_
  rw [level_other (by decide) (by decide), level_append_balanced h.parens]
  rfl

end Even

namespace TypeName

theorem even_chars : ∀ t : TypeName, Even t.chars
  | plain first others sizes => by
    have hdot : Even ['.'] := even_of_forall (by decide)
    rw [chars]
    refine (even_of_word first.isWordChar_of_mem).append
      (.append (additive_even.flatMap fun n _ => ?_) (additive_even.flatMap fun s _ => ?_))
    · exact hdot.append (even_of_word n.isWordChar_of_mem)
    · exact (even_of_word s.isWordChar_of_mem).square
  | mapping key value => by
    have hword : Even keyword := even_of_word (by decide)
    have harrow : Even [' ', '=', '>', ' '] := even_of_forall (by decide)
    rw [chars]
    exact hword.append (key.even_chars.append (harrow.append value.even_chars)).group

theorem not_isBlank_of_mem_plain {first : Name} {others : List Name} {sizes : List Size} :
    ∀ a ∈ (plain first others sizes).chars, isBlank a = false := by
  simp only [chars, List.forall_mem_append, List.forall_mem_flatMap, List.forall_mem_cons]
  refine ⟨first.not_isBlank_of_mem, fun n _ => ⟨by decide, n.not_isBlank_of_mem⟩,
    fun s _ => ⟨by decide, fun a ha => ?_, by decide, by simp⟩⟩
  exact isBlank_of_isWordChar (s.isWordChar_of_mem a ha)

theorem isTidy_chars : ∀ t : TypeName, isTidy t.chars
  | plain first others sizes =>
    isTidy_of_forall not_isBlank_of_mem_plain (by simp [chars, first.chars_ne_nil])
  | mapping key value => by
    have hkey := isTidyFrom_true key.isTidy_chars
    have hvalue : isTidy (value.chars ++ [')']) := isTidy_append value.isTidy_chars (by decide)
    have hsign : isTidy ['=', '>'] := by decide
    have harrow : isTidyFrom true (' ' :: '=' :: '>' :: ' ' :: (value.chars ++ [')'])) :=
      isTidyFrom_space (isTidy_append_space hsign hvalue)
    rw [chars]
    refine isTidy_append (by decide) ?_
    rw [isTidyFrom, if_neg (by decide), List.append_assoc, isTidyFrom_append hkey]
    exact harrow

theorem unreserved_chars : ∀ t : TypeName, Lacks reservedWords t.chars
  | plain first others sizes => by
    rw [chars, ← List.append_assoc]
    refine lacks_append_flatMap (fun s _ => ?_) (lacks_append_flatMap (fun n _ => ?_)
      first.unreserved)
    · refine ⟨'[', s.digits ++ [']'], rfl, by decide, ?_⟩
      rw [lacks_append_cons (by decide)]
      exact ⟨s.unreserved, lacks_nil nil_not_mem_reservedWords⟩
    · exact ⟨'.', n.chars, rfl, by decide, n.unreserved⟩
  | mapping key value => by
    rw [chars, lacks_append_cons (by decide), List.append_assoc, List.cons_append,
      lacks_append_cons (by decide)]
    refine ⟨lacks_of_word (by decide) (by decide), key.unreserved_chars, ?_⟩
    simp only [List.cons_append]
    have hws := nil_not_mem_reservedWords
    rw [lacks_cons hws (by decide), lacks_cons hws (by decide), lacks_cons hws (by decide),
      lacks_append_cons (by decide)]
    exact ⟨value.unreserved_chars, lacks_nil hws⟩

end TypeName

/-! ## Headers -/

theorem Place.isWordChar_keyword (place : Place) : ∀ a ∈ place.keyword.toList, isWordChar a := by
  cases place <;> decide

namespace Param

variable (p : Param)

theorem even_typeChars : Even p.typeChars := by
  have hspace : Even [' '] := even_of_forall (by decide)
  refine p.type.even_chars.append (additive_even.flatMap fun place _ => ?_)
  exact hspace.append (even_of_word place.isWordChar_keyword)

theorem isTidy_typeChars : isTidy p.typeChars := by
  cases hplace : p.place with
  | none =>
    rw [typeChars, hplace]
    simpa using p.type.isTidy_chars
  | some place =>
    have hword : isTidy place.keyword.toList := by cases place <;> decide
    rw [typeChars, hplace]
    simpa using isTidy_append_space p.type.isTidy_chars hword

theorem even_chars : Even p.chars := by
  have hspace : Even [' '] := even_of_forall (by decide)
  exact p.even_typeChars.append (hspace.append (even_of_word p.name.isWordChar_of_mem))

theorem isTidy_chars : isTidy p.chars :=
  isTidy_append_space p.isTidy_typeChars
    (isTidy_of_forall p.name.not_isBlank_of_mem p.name.chars_ne_nil)

end Param

theorem Name.isIdentifier_chars (n : Name) : isIdentifier n.chars := by
  have h := n.isName_chars
  simp only [isName, Bool.and_eq_true] at h
  rw [isIdentifier, h.1.1, h.1.2]
  rfl

namespace Member

variable (m : Member)

theorem isIdentifier_of_mem_attributes : ∀ w ∈ m.attributes, isIdentifier w := by
  simp only [attributes, Written.attributes, List.forall_mem_append, List.forall_mem_map]
  refine ⟨⟨fun v _ => ?_, fun v _ => ?_⟩, fun n _ => n.isIdentifier_chars⟩
  · cases v <;> decide
  · cases v <;> decide

/-- The parameters as they stand between the brackets. -/
def paramChars : List Char :=
  [',', ' '].intercalate (m.params.map Param.chars)

theorem signature_eq : m.signature = m.role.name?.toList.flatMap (fun n => ' ' :: n.chars) ++
    ('(' :: (m.paramChars ++ ')' :: (m.attributes.flatMap (' ' :: ·) ++ [' ']))) := by
  simp [signature, Written.signature, paramChars]

theorem level_paramChars : level '(' ')' 0 m.paramChars = some 0 := by
  refine (additive_level '(' ')').intercalate (by decide) fun l hl => ?_
  obtain ⟨p, -, rfl⟩ := List.mem_map.1 hl
  exact p.even_chars.parens

theorem isHeaderChar_of_mem_signature : ∀ a ∈ m.signature, isHeaderChar a := by
  have hadd := additive_forall isHeaderChar
  have hname : ∀ a ∈ m.role.name?.toList.flatMap (fun n => ' ' :: n.chars), isHeaderChar a :=
    hadd.flatMap fun n _ => List.forall_mem_cons.2 ⟨by decide, n.isHeaderChar_of_mem⟩
  have hparams : ∀ a ∈ m.paramChars, isHeaderChar a := by
    refine hadd.intercalate (by decide) fun l hl => ?_
    obtain ⟨p, -, rfl⟩ := List.mem_map.1 hl
    exact p.even_chars.chars
  have hattributes : ∀ a ∈ m.attributes.flatMap (' ' :: ·), isHeaderChar a := by
    refine hadd.flatMap fun w hw => List.forall_mem_cons.2 ⟨by decide, fun a ha => ?_⟩
    exact isHeaderChar_of_isWordChar
      (isWordChar_of_isIdentifier (m.isIdentifier_of_mem_attributes w hw) a ha)
  rw [signature_eq]
  simp only [List.forall_mem_append, List.forall_mem_cons]
  exact ⟨hname, by decide, hparams, by decide, hattributes, by decide, by simp⟩

theorem level_signature : level '(' ')' 0 m.signature = some 0 := by
  have hadd := additive_level '(' ')'
  have hname : level '(' ')' 0 (m.role.name?.toList.flatMap (fun n => ' ' :: n.chars)) =
      some 0 := by
    refine hadd.flatMap fun n _ => ?_
    rw [level_other (by decide) (by decide), n.level_chars (by decide) (by decide)]
  have hattributes : level '(' ')' 0 (m.attributes.flatMap (' ' :: ·)) = some 0 := by
    refine hadd.flatMap fun w hw => ?_
    have hword := isWordChar_of_isIdentifier (m.isIdentifier_of_mem_attributes w hw)
    rw [level_other (by decide) (by decide)]
    exact (even_of_word hword).parens
  rw [signature_eq, level_append_balanced hname, level_group (by decide) m.level_paramChars,
    level_append_balanced hattributes]
  rfl

end Member

namespace Contract

variable (c : Contract)

/-- The characters of bases are those of names, commas and blanks. -/
theorem of_mem_heritage : ∀ a ∈ c.heritage, isWordChar a || a == ' ' || a == ',' := by
  have hadd := additive_forall fun a => isWordChar a || a == ' ' || a == ','
  refine hadd.append ?_ (by decide)
  split
  · exact hadd.nil
  · refine hadd.append (by decide) (hadd.intercalate (by decide) fun l hl => ?_)
    obtain ⟨n, -, rfl⟩ := List.mem_map.1 hl
    exact fun a ha => by simp [n.isWordChar_of_mem a ha]

theorem isHeaderChar_of_mem_heritage : ∀ a ∈ c.heritage, isHeaderChar a := by
  intro a ha
  have h := c.of_mem_heritage a ha
  simp only [Bool.or_eq_true, beq_iff_eq] at h
  rcases h with (h | rfl) | rfl
  · exact isHeaderChar_of_isWordChar h
  · decide
  · decide

theorem paren_not_mem_heritage : '(' ∉ c.heritage :=
  fun hmem => absurd (c.of_mem_heritage _ hmem) (by decide)

theorem level_heritage : level '(' ')' 0 c.heritage = some 0 :=
  level_of_not_mem c.paren_not_mem_heritage
    (fun hmem => absurd (c.of_mem_heritage _ hmem) (by decide)) 0

end Contract

/-! ## Statements -/

/-- What is known of a simple statement. -/
structure Simple (cs : List Char) : Prop where
  ne_nil : cs ≠ []
  trimmed : Trimmed cs
  parens : level '(' ')' 0 cs = some 0
  unmarked : ∀ a ∈ cs, ['{', '}', ';'].contains a = false
  code : isCode cs
  control : ∀ w ∈ controlWords, startsWithWord cs w = false
  declares : Lacks declarationWords cs

theorem simple_of_isSimple (h : isSimple cs) : Simple cs := by
  simp only [isSimple, Bool.and_eq_true, Bool.not_eq_true', beq_iff_eq, List.all_eq_true,
    List.any_eq_false, List.contains_eq_mem, decide_eq_true_eq, Bool.not_eq_true] at h
  obtain ⟨⟨⟨⟨⟨⟨hne, htrim⟩, hparens⟩, hplain⟩, hcode⟩, hcontrol⟩, hdeclares⟩ := h
  refine ⟨by simpa using hne, htrim ▸ trimmed_trim cs, hparens, ?_, hcode, hcontrol, hdeclares⟩
  simpa using hplain

theorem Simple.isSimple (h : Simple cs) : isSimple cs := by
  simp only [Written.isSimple, Bool.and_eq_true, Bool.not_eq_true', beq_iff_eq, List.all_eq_true,
    List.any_eq_false, List.contains_eq_mem, decide_eq_true_eq, Bool.not_eq_true]
  refine ⟨⟨⟨⟨⟨⟨?_, h.trimmed.trim_eq⟩, h.parens⟩, ?_⟩, h.code⟩, h.control⟩, h.declares⟩
  · simpa using h.ne_nil
  · simpa using h.unmarked

/-- A text without quotes and slashes is code. -/
theorem isCode_of_forall : ∀ {cs : List Char}, (∀ a ∈ cs, isSober a) → isCode cs
  | [], _ => rfl
  | a :: cs, h => by
    have ha : isSober a := h a List.mem_cons_self
    simp only [isSober, List.contains_cons, List.contains_nil, Bool.or_false, Bool.not_eq_true',
      Bool.or_eq_false_iff, beq_eq_false_iff_ne] at ha
    rw [isCode, isCode_of_forall fun b hb => h b (List.mem_cons_of_mem a hb)]
    simp [ha]

namespace Statement

theorem stable_chars : ∀ s : Statement, Stable (s.chars ++ [';'])
  | simple cs h => stable_of_isCode (by decide) (by decide) (simple_of_isSimple h).code
  | payment amount => by
    have hname : Stable amount.chars := stable_of_forall fun a ha =>
      isSober_of_isHeaderChar (amount.isHeaderChar_of_mem a ha)
    have hcall : Stable (call ++ '{' :: (option ++ [' '])) := stable_of_forall (by decide)
    have hquotes : Stable ['}', '(', '"', '"', ')', ';'] := fun ds => rfl
    have hall := hcall.append (hname.append hquotes)
    simpa [chars] using hall

/-- The braces in the option of a payment are balanced. -/
theorem level_option (amount : Name) :
    level '{' '}' 0 (option ++ ' ' :: amount.chars) = some 0 := by
  have hoption : level '{' '}' 0 (option ++ [' ']) = some 0 := by decide
  rw [← List.singleton_append, ← List.append_assoc, level_append_balanced hoption,
    amount.level_chars (by decide) (by decide)]

theorem level_braces : ∀ s : Statement, level '{' '}' 0 s.chars = some 0
  | simple cs h => by
    have hplain := (simple_of_isSimple h).unmarked
    exact level_of_not_mem (fun hmem => by simpa using hplain _ hmem)
      (fun hmem => by simpa using hplain _ hmem) 0
  | payment amount => by
    have hcall : level '{' '}' 0 call = some 0 := by decide
    have hgroup := level_group (by decide) (level_option amount) 0 ['(', '"', '"', ')']
    rw [List.append_assoc, List.cons_append] at hgroup
    rw [chars, level_append_balanced hcall]
    exact hgroup

theorem declares : ∀ s : Statement, Lacks declarationWords s.chars
  | simple cs h => (simple_of_isSimple h).declares
  | payment amount => by
    have hcall : Lacks declarationWords call := by decide
    have hoption : Lacks declarationWords option := by decide
    have hname : Lacks declarationWords amount.chars := amount.undeclaring
    have hquotes : Lacks declarationWords ['(', '"', '"', ')'] := by decide
    rw [chars, lacks_append_cons (by decide), lacks_append_cons (by decide),
      lacks_append_cons (by decide)]
    exact ⟨hcall, hoption, hname, hquotes⟩

theorem trimmed : ∀ s : Statement, Trimmed s.chars
  | simple cs h => (simple_of_isSimple h).trimmed
  | payment amount => by
    constructor
    · have hcall : call.head? = some '(' := by decide
      have hblank : isBlank '(' = false := by decide
      rw [chars, List.head?_append, hcall]
      exact hblank
    · simp [chars, List.getLast?_append, List.getLast?_cons]
      decide

end Statement

/-! ## Blanks -/

namespace Layout

variable (layout : Layout)

theorem isBlank_apart : ∀ a ∈ layout.apart, isBlank a :=
  fun a ha => layout.blank a (by simp [ha])

theorem isBlank_foot : ∀ a ∈ layout.foot, isBlank a :=
  fun a ha => layout.blank a (by simp [ha])

theorem isBlank_member : ∀ a ∈ layout.member, isBlank a :=
  fun a ha => layout.blank a (by simp [ha])

theorem isBlank_statement : ∀ a ∈ layout.statement, isBlank a :=
  fun a ha => layout.blank a (by simp [ha])

end Layout

end Written

end ContractAudit
