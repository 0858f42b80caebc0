import ContractAudit.Proofs.Text.Match
import ContractAudit.Proofs.Text.Split

/-!
# Words of a text

`wordRuns` are the stretches of word characters in a text. A word that stands at a place on its own
(`Cursor.Faces`) is one of them, so a pattern that asks for such a word matches nowhere in a text
without it (`mem_wordRuns_of_faces`). Texts with single spaces between words (`isTidy`) are not
changed by `squeeze`, and texts without blanks at their ends (`Trimmed`) are not changed by `trim`.
-/

namespace ContractAudit

variable {a : Char}

theorem isBlank_of_isWordChar (h : isWordChar a) : isBlank a = false := by
  cases hblank : isBlank a with
  | false => rfl
  | true => simp [isWordChar_of_isBlank hblank] at h

/-- The stretches of word characters between the other characters, empty ones included. -/
def wordRuns (cs : List Char) : List (List Char) :=
  splitAt (!isWordChar ·) cs

section WordRuns

variable {front rest u v w cs ds : List Char}

theorem wordRuns_append_cons (ha : isWordChar a = false) (cs ds : List Char) :
    wordRuns (cs ++ a :: ds) = wordRuns cs ++ wordRuns ds :=
  splitAt_append_cons (by simp [ha]) cs ds

theorem wordRuns_of_word (h : ∀ a ∈ w, isWordChar a) : wordRuns w = [w] :=
  splitAt_eq_singleton fun a ha => by simp [h a ha]

/-- A word between other characters, or at an end of the text, is a run. -/
theorem mem_wordRuns (hw : ∀ a ∈ w, isWordChar a) (hu : u.getLast?.any isWordChar = false)
    (hv : v.head?.any isWordChar = false) : w ∈ wordRuns (u ++ (w ++ v)) := by
  have hfront : w ∈ wordRuns (w ++ v) := by
    cases v with
    | nil => simp [wordRuns_of_word hw]
    | cons a v =>
      rw [wordRuns_append_cons hv, wordRuns_of_word hw]
      exact List.mem_append_left _ List.mem_cons_self
  rcases List.eq_nil_or_concat u with rfl | ⟨u, a, rfl⟩
  · exact hfront
  · rw [List.concat_eq_append, List.getLast?_concat] at hu
    rw [List.concat_eq_append, List.append_assoc, List.singleton_append, wordRuns_append_cons hu]
    exact List.mem_append_right _ hfront

/-- A text of characters of a class does not go past a character that is not of the class. -/
theorem prefix_of_prefix_append_cons {ok : Char → Bool} (ha : ok a = false) :
    ∀ {w v : List Char}, (∀ b ∈ w, ok b) → w <+: v ++ a :: rest → w <+: v
  | [], _, _, _ => List.nil_prefix
  | b :: w, [], hw, h => by
    obtain ⟨rfl, -⟩ := List.cons_prefix_cons.1 h
    have hb := hw b List.mem_cons_self
    simp [ha] at hb
  | b :: w, c :: v, hw, h => by
    obtain ⟨rfl, hwv⟩ := List.cons_prefix_cons.1 h
    exact List.cons_prefix_cons.2
      ⟨rfl, prefix_of_prefix_append_cons ha (fun d hd => hw d (List.mem_cons_of_mem b hd)) hwv⟩

/-- Every text starts with characters of a class, up to one that is not of the class. -/
theorem exists_run_append (ok : Char → Bool) (cs : List Char) :
    ∃ w r, cs = w ++ r ∧ (∀ a ∈ w, ok a) ∧ r.head?.any ok = false := by
  refine ⟨cs.takeWhile ok, cs.dropWhile ok, List.takeWhile_append_dropWhile.symm,
    List.all_eq_true.1 List.all_takeWhile, ?_⟩
  have hnot := List.head?_dropWhile_not ok cs
  cases hhead : (cs.dropWhile ok).head? with
  | none => rfl
  | some a => simpa [hhead] using hnot

/-- Where a text starts with characters of a class up to one that is not of the class, these are
determined. -/
theorem eq_of_run_append {ok : Char → Bool} {u v r t : List Char} (hu : ∀ a ∈ u, ok a)
    (hv : ∀ a ∈ v, ok a)
    (hr : r.head?.any ok = false) (ht : t.head?.any ok = false) (h : u ++ r = v ++ t) :
      u = v ∧ r = t := by
  have htake : ∀ {u r : List Char}, (∀ a ∈ u, ok a) → r.head?.any ok = false →
      (u ++ r).takeWhile ok = u := by
    intro u r hu hr
    rw [List.takeWhile_append_of_pos hu]
    cases r with
    | nil => rw [List.takeWhile_nil, List.append_nil]
    | cons a r =>
      have ha : ok a = false := hr
      rw [List.takeWhile_cons_of_neg (by simp [ha]), List.append_nil]
  obtain rfl : u = v := by rw [← htake hu hr, h, htake hv ht]
  exact ⟨rfl, List.append_cancel_left h⟩

/-- A text does not start with a word if neither starts with the other where both are known. -/
theorem not_prefix_append {u v : List Char} (huv : u.isPrefixOf v = false)
    (hvu : v.isPrefixOf u = false) (rest : List Char) : ¬u <+: v ++ rest := by
  intro h
  rcases List.prefix_or_prefix_of_prefix h (List.prefix_append v rest) with h | h
  · simp [List.isPrefixOf_iff_prefix.2 h] at huv
  · simp [List.isPrefixOf_iff_prefix.2 h] at hvu

/-- The word stands at the place, as a word of its own. -/
structure Cursor.Faces (w : List Char) (c : Cursor) : Prop where
  before : c.before.any isWordChar = false
  isPrefix : w <+: c.rest
  behind : (c.rest.drop w.length).head?.any isWordChar = false

/-- A word that stands in a text on its own is one of its runs. -/
theorem mem_wordRuns_of_faces (hw : ∀ b ∈ w, isWordChar b) (ha : isWordChar a = false)
    (h : (Cursor.between (front ++ u) (v ++ a :: rest)).Faces w) : w ∈ wordRuns (u ++ v) := by
  obtain ⟨v', rfl⟩ := prefix_of_prefix_append_cons ha hw h.isPrefix
  refine mem_wordRuns hw ?_ ?_
  · have hbefore : ((front ++ u).getLast?).any isWordChar = false := h.before
    rcases List.eq_nil_or_concat u with rfl | ⟨u, b, rfl⟩
    · rfl
    · rw [List.concat_eq_append, List.getLast?_concat]
      rwa [List.concat_eq_append, ← List.append_assoc, List.getLast?_concat] at hbefore
  · have hbehind : ((w ++ v' ++ a :: rest).drop w.length).head?.any isWordChar = false := h.behind
    rw [List.append_assoc, List.drop_left] at hbehind
    cases v' with
    | nil => rfl
    | cons b v' => exact hbehind

theorem nonword_of_reads_edge {d : Cursor} {ps qs : Parts} (hfront : front.getLast?.any isWordChar)
    (h : Pattern.edge.Reads (Cursor.between front rest) ps d qs) :
      rest.head?.any isWordChar = false := by
  have hedge : (Cursor.between front rest).atWordEdge := h.1
  simpa [Cursor.atWordEdge, hfront] using hedge

/-- Behind a word there is the character it ends with. -/
theorem getLast?_append_identifier (front : List Char) (hw : isIdentifier w) :
    (front ++ w).getLast?.any isWordChar := by
  rcases List.eq_nil_or_concat w with rfl | ⟨w, a, rfl⟩
  · simp [isIdentifier] at hw
  · rw [List.concat_eq_append, ← List.append_assoc, List.getLast?_concat]
    exact isWordChar_of_isIdentifier hw a (by simp)

/-- One of several words has been read up to its end. -/
theorem exists_word_of_reads {ws : List String} {d e : Cursor} {ps qs rs ss : Parts}
    (hws : ∀ w ∈ ws, isIdentifier w.toList)
    (hword : (Pattern.oneOf (ws.map Pattern.text)).Reads (Cursor.between front rest) ps d qs)
    (hedge : Pattern.edge.Reads d rs e ss) :
    ∃ w ∈ ws, ∃ r, rest = w.toList ++ r ∧ r.head?.any isWordChar = false := by
  obtain ⟨p, hp, hreads⟩ := Pattern.reads_oneOf_iff.1 hword
  obtain ⟨w, hw, rfl⟩ := List.mem_map.1 hp
  obtain ⟨r, rfl, rfl, rfl⟩ := Pattern.reads_text_iff.1 hreads
  exact ⟨w, hw, r, rfl, nonword_of_reads_edge (getLast?_append_identifier front (hws w hw)) hedge⟩

/-- One of several words at the start of a text, with its end behind it, is a run of the text. -/
theorem mem_wordRuns_of_reads {ws : List String} {d : Cursor} {ps qs : Parts}
    (hws : ∀ w ∈ ws, isIdentifier w.toList)
    (h : (Pattern.oneOf (ws.map Pattern.text) ++ Pattern.edge).Reads (Cursor.start cs) ps d qs) :
    ∃ w ∈ ws, w.toList ∈ wordRuns cs := by
  obtain ⟨e, rs, hword, hedge⟩ := h
  rw [← Cursor.between_nil] at hword
  obtain ⟨w, hw, r, rfl, hr⟩ := exists_word_of_reads hws hword hedge
  exact ⟨w, hw, mem_wordRuns (u := []) (isWordChar_of_isIdentifier (hws w hw)) rfl hr⟩

end WordRuns

/-! ## Trimmed texts -/

/-- No blank stands at an end of the text. -/
structure Trimmed (cs : List Char) : Prop where
  head : cs.head?.any isBlank = false
  last : cs.getLast?.any isBlank = false

section Trimmed

variable {cs gap : List Char}

theorem trimLeft_of_head (h : cs.head?.any isBlank = false) : trimLeft cs = cs := by
  cases cs with
  | nil => rfl
  | cons a cs =>
    have ha : isBlank a = false := h
    rw [trimLeft, List.dropWhile_cons_of_neg (by simp [ha])]

theorem Trimmed.trimRight_eq (h : Trimmed cs) : trimRight cs = cs := by
  have hlast : cs.reverse.head?.any isBlank = false := by rw [List.head?_reverse]; exact h.last
  have hrev := trimLeft_of_head hlast
  rw [trimLeft] at hrev
  rw [trimRight, hrev, List.reverse_reverse]

theorem Trimmed.trim_eq (h : Trimmed cs) : trim cs = cs := by
  rw [trim, trimLeft_of_head h.head, h.trimRight_eq]

theorem trimLeft_append (hgap : ∀ a ∈ gap, isBlank a) (cs : List Char) :
    trimLeft (gap ++ cs) = trimLeft cs := by
  rw [trimLeft, List.dropWhile_append_of_pos hgap, trimLeft]

/-- Blanks in front of a trimmed text are cut off. -/
theorem Trimmed.trim_append (h : Trimmed cs) (hgap : ∀ a ∈ gap, isBlank a) :
    trim (gap ++ cs) = cs := by
  rw [trim, trimLeft_append hgap, trimLeft_of_head h.head, h.trimRight_eq]

/-- Blanks on both sides of a trimmed text are cut off. -/
theorem Trimmed.trim_append_append (h : Trimmed cs) (hne : cs ≠ []) {gap' : List Char}
    (hgap : ∀ a ∈ gap, isBlank a) (hgap' : ∀ a ∈ gap', isBlank a) :
    trim (gap ++ (cs ++ gap')) = cs := by
  have hhead : (cs ++ gap').head?.any isBlank = false := by
    obtain ⟨a, cs, rfl⟩ := List.exists_cons_of_ne_nil hne
    exact h.head
  rw [trim, trimLeft_append hgap, trimLeft_of_head hhead, trimRight_append_blanks hgap',
    h.trimRight_eq]

theorem trimmed_trim (cs : List Char) : Trimmed (trim cs) where
  head := by
    cases hhead : (trimLeft cs).head? with
    | none =>
      rw [List.head?_eq_none_iff] at hhead
      rw [trim, hhead]
      rfl
    | some a =>
      have hnot := List.head?_dropWhile_not isBlank cs
      have ha : isBlank a = false := by
        rw [trimLeft] at hhead
        simpa [hhead] using hnot
      rw [trim, head?_trimRight hhead ha]
      exact ha
  last := by
    cases hlast : (trim cs).getLast? with
    | none => rfl
    | some a => exact getLast?_trimRight hlast

theorem trimmed_of_forall (h : ∀ a ∈ cs, isBlank a = false) : Trimmed cs where
  head := by
    cases hhead : cs.head? with
    | none => rfl
    | some a => exact h a (List.mem_of_head? hhead)
  last := by
    cases hlast : cs.getLast? with
    | none => rfl
    | some a => exact h a (List.mem_of_getLast? hlast)

end Trimmed

/-! ## Blanks between words -/

theorem wordsAfter_append_cons {b : Char} (hb : isBlank b) (ds : List Char) : ∀ (cs : List Char)
    (done : List (List Char)) (word : List Char),
    wordsAfter done word (cs ++ b :: ds) = wordsAfter (wordsAfter done word cs).reverse [] ds
  | [], done, word => by
    rw [List.nil_append, wordsAfter, List.reverse_reverse, wordsAfter, if_pos hb]
  | c :: cs, done, word => by
    rw [List.cons_append, wordsAfter, wordsAfter]
    split
    · exact wordsAfter_append_cons hb ds cs _ _
    · exact wordsAfter_append_cons hb ds cs _ _

theorem wordsAfter_eq_append : ∀ (cs : List Char) (done : List (List Char)) (word : List Char),
    wordsAfter done word cs = done.reverse ++ wordsAfter [] word cs
  | [], done, word => by
    rw [wordsAfter, wordsAfter]
    split <;> simp
  | c :: cs, done, word => by
    rw [wordsAfter, wordsAfter]
    split
    · rw [wordsAfter_eq_append, wordsAfter_eq_append cs (if word.isEmpty then [] else _)]
      split <;> simp
    · exact wordsAfter_eq_append cs done _

/-- A blank divides the words of a text. -/
theorem words_append_cons {b : Char} (hb : isBlank b) (cs ds : List Char) :
    words (cs ++ b :: ds) = words cs ++ words ds := by
  rw [words, wordsAfter_append_cons hb, wordsAfter_eq_append, List.reverse_reverse]
  rfl

/-! ## Single spaces -/

/-- Words with one space between them, where `inside` tells that the text goes on inside a word. -/
def isTidyFrom (inside : Bool) : List Char → Bool
  | [] => inside
  | c :: cs => if isBlank c then inside && c == ' ' && isTidyFrom false cs else isTidyFrom true cs

/-- Words with one space between them. -/
def isTidy (cs : List Char) : Bool :=
  isTidyFrom false cs

section Tidy

variable {cs ds : List Char}

theorem isTidyFrom_append : ∀ {cs : List Char} {inside : Bool}, isTidyFrom inside cs →
    ∀ ds, isTidyFrom inside (cs ++ ds) = isTidyFrom true ds
  | [], inside, h, ds => by
    obtain rfl : inside = true := h
    rfl
  | c :: cs, inside, h, ds => by
    unfold isTidyFrom at h
    rw [List.cons_append, isTidyFrom]
    split
    next hc =>
      rw [if_pos hc, Bool.and_eq_true] at h
      rw [h.1, Bool.true_and, isTidyFrom_append h.2]
    next hc =>
      rw [if_neg hc] at h
      exact isTidyFrom_append h ds

theorem isTidyFrom_true (h : isTidy cs) : isTidyFrom true cs := by
  cases cs with
  | nil => rfl
  | cons c cs =>
    unfold isTidy isTidyFrom at h
    unfold isTidyFrom
    split
    next hc => simp [hc] at h
    next hc => simpa [hc] using h

/-- Characters that are no blanks continue a word. -/
theorem isTidyFrom_of_forall {inside : Bool} (h : ∀ a ∈ cs, isBlank a = false)
    (hne : inside ∨ cs ≠ []) : isTidyFrom inside cs := by
  induction cs generalizing inside with
  | nil => exact hne.resolve_right fun hne => hne rfl
  | cons c cs ih =>
    have hc : isBlank c = false := h c List.mem_cons_self
    rw [isTidyFrom, if_neg (by simp [hc])]
    exact ih (fun a ha => h a (List.mem_cons_of_mem c ha)) (Or.inl rfl)

theorem isTidy_of_forall (h : ∀ a ∈ cs, isBlank a = false) (hne : cs ≠ []) : isTidy cs :=
  isTidyFrom_of_forall h (Or.inr hne)

theorem isTidy_append (hcs : isTidy cs) (hds : isTidyFrom true ds) : isTidy (cs ++ ds) := by
  rw [isTidy, isTidyFrom_append hcs]
  exact hds

theorem isTidyFrom_space (h : isTidy ds) : isTidyFrom true (' ' :: ds) := by
  rw [isTidyFrom, if_pos (by decide)]
  simpa [isTidy] using h

/-- Tidy texts one behind the other, with a space between them. -/
theorem isTidy_append_space (hcs : isTidy cs) (hds : isTidy ds) : isTidy (cs ++ ' ' :: ds) :=
  isTidy_append hcs (isTidyFrom_space hds)

theorem intercalate_concat_concat (s : Char) (l l' : List Char) : ∀ ls : List (List Char),
    [s].intercalate (ls ++ [l, l']) = [s].intercalate (ls ++ [l ++ s :: l'])
  | [] => by simp
  | [x] => by simp [List.intercalate_cons_cons]
  | x :: y :: ls => by
    have ih := intercalate_concat_concat s l l' (y :: ls)
    simp only [List.cons_append, List.intercalate_cons_cons] at ih ⊢
    rw [ih]

theorem getLast?_of_isTidyFrom : ∀ {cs : List Char} {inside : Bool}, isTidyFrom inside cs →
    cs.getLast?.any isBlank = false
  | [], _, _ => rfl
  | [c], inside, h => by
    unfold isTidyFrom at h
    split at h
    next => simp [isTidyFrom] at h
    next hc => simpa using hc
  | c :: d :: cs, inside, h => by
    unfold isTidyFrom at h
    rw [List.getLast?_cons_cons]
    split at h
    · rw [Bool.and_eq_true] at h
      exact getLast?_of_isTidyFrom h.2
    · exact getLast?_of_isTidyFrom h

theorem trimmed_of_isTidy (h : isTidy cs) : Trimmed cs where
  head := by
    cases cs with
    | nil => rfl
    | cons c cs =>
      unfold isTidy isTidyFrom at h
      split at h
      next => simp at h
      next hc => simpa using hc
  last := getLast?_of_isTidyFrom h

/-- A tidy text is made of its words. -/
theorem intercalate_wordsAfter : ∀ {cs : List Char} (done : List (List Char)) (word : List Char),
    isTidyFrom (!word.isEmpty) cs →
      [' '].intercalate (wordsAfter done word cs) =
        [' '].intercalate (done.reverse ++ [word.reverse ++ cs])
  | [], done, word, h => by
    have hword : word.isEmpty = false := by simpa [isTidyFrom] using h
    rw [wordsAfter, if_neg (by simp [hword]), List.reverse_cons, List.append_nil]
  | c :: cs, done, word, h => by
    unfold isTidyFrom at h
    unfold wordsAfter
    split
    next hc =>
      rw [if_pos hc, Bool.and_eq_true, Bool.and_eq_true] at h
      obtain ⟨⟨hword, hspace⟩, hcs⟩ := h
      obtain rfl : c = ' ' := by simpa using hspace
      have hne : word.isEmpty = false := by simpa using hword
      rw [if_neg (by simp [hne]), intercalate_wordsAfter _ [] hcs, List.reverse_cons,
        List.append_assoc]
      exact intercalate_concat_concat ' ' word.reverse cs done.reverse
    next hc =>
      rw [if_neg hc] at h
      rw [intercalate_wordsAfter done (c :: word) (by simpa using h), List.reverse_cons,
        List.append_assoc, List.singleton_append]

theorem squeeze_of_isTidy (h : isTidy cs) : squeeze cs = cs := by
  rw [squeeze, words, intercalate_wordsAfter [] [] h]
  simp

end Tidy

end ContractAudit
