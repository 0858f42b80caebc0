import ContractAudit.Proofs.Written.Text

/-!
# Pieces between commas

A text is split at the commas outside all brackets, that is where no bracket of either kind is open
(`depthBehind_of_level`). Text without such commas is passed over (`topLevelFrom_append`), so pieces
with commas between them are found again, whatever blanks stand around them
(`splitTopLevel_pieces`).
-/

namespace ContractAudit

namespace Written

/-- The depth counts the open brackets of both kinds. -/
theorem depthBehind_of_level : ∀ {cs : List Char} {m n m' n' : Nat}, level '(' ')' m cs = some m' →
    level '[' ']' n cs = some n' → depthBehind ((m + n : Nat) : Int) cs = (m' + n' : Nat)
  | [], m, n, m', n', hround, hsquare => by
    obtain rfl : m = m' := Option.some.inj hround
    obtain rfl : n = n' := Option.some.inj hsquare
    rfl
  | c :: cs, m, n, m', n', hround, hsquare => by
    have hstep {k l : Nat} (hdepth : depthAfter ((m + n : Nat) : Int) c = (k + l : Nat))
        (hk : level '(' ')' k cs = some m') (hl : level '[' ']' l cs = some n') :
        depthBehind ((m + n : Nat) : Int) (c :: cs) = (m' + n' : Nat) := by
      show depthBehind (depthAfter ((m + n : Nat) : Int) c) cs = _
      rw [hdepth, depthBehind_of_level hk hl]
    by_cases hopen : c = '('
    · subst hopen
      rw [level_opener] at hround
      rw [level_other (by decide) (by decide)] at hsquare
      refine hstep ?_ hround hsquare
      show ((m + n : Nat) : Int) + 1 = _
      omega
    by_cases hclose : c = ')'
    · subst hclose
      cases m with
      | zero => simp [level] at hround
      | succ m =>
        rw [level_closer (by decide)] at hround
        rw [level_other (by decide) (by decide)] at hsquare
        refine hstep ?_ hround hsquare
        show ((m + 1 + n : Nat) : Int) - 1 = _
        omega
    rw [level_other hopen hclose] at hround
    by_cases hopen' : c = '['
    · subst hopen'
      rw [level_opener] at hsquare
      refine hstep ?_ hround hsquare
      show ((m + n : Nat) : Int) + 1 = _
      omega
    by_cases hclose' : c = ']'
    · subst hclose'
      cases n with
      | zero => simp [level] at hsquare
      | succ n =>
        rw [level_closer (by decide)] at hsquare
        refine hstep ?_ hround hsquare
        show ((m + (n + 1) : Nat) : Int) - 1 = _
        omega
    rw [level_other hopen' hclose'] at hsquare
    refine hstep ?_ hround hsquare
    simp [depthAfter, isOpening, isClosing, hopen, hclose, hopen', hclose']

/-- The round and the square brackets of a text are matched, and its commas stand inside
brackets. -/
structure Bracketed (cs : List Char) : Prop where
  round : level '(' ')' 0 cs = some 0
  square : level '[' ']' 0 cs = some 0
  comma : ∀ u v, cs = u ++ ',' :: v → level '(' ')' 0 u ≠ some 0 ∨ level '[' ']' 0 u ≠ some 0

theorem bracketed_iff {cs : List Char} : Bracketed cs ↔
    level '(' ')' 0 cs = some 0 ∧ level '[' ']' 0 cs = some 0 ∧ ∀ i < cs.length, cs[i]? = some ',' →
      level '(' ')' 0 (cs.take i) ≠ some 0 ∨ level '[' ']' 0 (cs.take i) ≠ some 0 := by
  constructor
  · rintro ⟨hround, hsquare, hcomma⟩
    refine ⟨hround, hsquare, fun i hi hget => hcomma (cs.take i) (cs.drop (i + 1)) ?_⟩
    have hdrop := List.drop_eq_getElem_cons hi
    rw [List.getElem?_eq_getElem hi, Option.some.injEq] at hget
    rw [hget] at hdrop
    rw [← hdrop, List.take_append_drop]
  · rintro ⟨hround, hsquare, hcomma⟩
    refine ⟨hround, hsquare, fun u v huv => ?_⟩
    have h := hcomma u.length (by simp [huv]) (by simp [huv])
    rwa [huv, List.take_left] at h

instance (cs : List Char) : Decidable (Bracketed cs) :=
  decidable_of_iff _ bracketed_iff.symm

/-- A text that comes back to the depth at which it began and has no commas there. -/
structure Unsplit (cs : List Char) : Prop where
  depth : depthBehind 0 cs = 0
  comma : ∀ u v, cs = u ++ ',' :: v → depthBehind 0 u ≠ 0

theorem Bracketed.unsplit {cs : List Char} (h : Bracketed cs) : Unsplit cs where
  depth := depthBehind_of_level h.round h.square
  comma u v huv := by
    -- In front of the comma some brackets are open, and none is closed that was not opened.
    obtain ⟨m, hm, -⟩ := Option.bind_eq_some_iff.1 ((level_append u _ 0).symm.trans (huv ▸ h.round))
    obtain ⟨n, hn, -⟩ :=
      Option.bind_eq_some_iff.1 ((level_append u _ 0).symm.trans (huv ▸ h.square))
    have hdepth : depthBehind 0 u = (m + n : Nat) := depthBehind_of_level hm hn
    have hopen := h.comma u v huv
    simp only [hm, hn, ne_eq, Option.some.injEq] at hopen
    rw [hdepth]
    omega

/-- A character that does not matter for the splitting. -/
def isInert (a : Char) : Bool :=
  !isOpening a && !isClosing a && a != ','

variable {a : Char}

/-- A class of characters without brackets and commas. -/
theorem isInert_of_class {ok : Char → Bool} (hok : ∀ b ∈ ['(', ')', '[', ']', ','], ok b = false)
    (ha : ok a) : isInert a := by
  have hne : ∀ b ∈ ['(', ')', '[', ']', ','], a ≠ b := by
    rintro b hb rfl
    simp [hok a hb] at ha
  simp only [List.forall_mem_cons] at hne
  simp [isInert, isOpening, isClosing, hne]

theorem isInert_of_isBlank (h : isBlank a) : isInert a :=
  isInert_of_class (by decide) h

theorem isInert_of_isWordChar (h : isWordChar a) : isInert a :=
  isInert_of_class (by decide) h

theorem isParen_of_isInert (h : isInert a) : isParen a = false := by
  simp only [isInert, isOpening, isClosing, Bool.and_eq_true, Bool.not_eq_true',
    Bool.or_eq_false_iff] at h
  simp [isParen, h]

section Inert

variable {cs w : List Char}

theorem depthBehind_of_isInert (hw : ∀ a ∈ w, isInert a) (depth : Int) :
    depthBehind depth w = depth := by
  refine depthBehind_of_forall (fun a ha => ?_) depth
  have hplain := hw a ha
  simp only [isInert, Bool.and_eq_true, Bool.not_eq_true'] at hplain
  exact hplain.1

theorem comma_not_mem_of_isInert (hw : ∀ a ∈ w, isInert a) : ',' ∉ w := fun hmem =>
  absurd (hw _ hmem) (by decide)

theorem Unsplit.inert_append (h : Unsplit cs) (hw : ∀ a ∈ w, isInert a) : Unsplit (w ++ cs) where
  depth := by rw [depthBehind_append, depthBehind_of_isInert hw, h.depth]
  comma u v huv := by
    obtain ⟨u, rfl, hu⟩ : ∃ u', u = w ++ u' ∧ cs = u' ++ ',' :: v := by
      rcases List.append_eq_append_iff.1 huv with ⟨u', hu, hrest⟩ | ⟨z, hz, hrest⟩
      · exact ⟨u', hu, hrest⟩
      · cases z with
        | nil => exact ⟨[], by simpa using hz.symm, by simpa using hrest.symm⟩
        | cons b z =>
          obtain ⟨rfl, -⟩ := List.cons.inj hrest
          exact absurd (hz ▸ List.mem_append_right u List.mem_cons_self)
            (comma_not_mem_of_isInert hw)
    rw [depthBehind_append, depthBehind_of_isInert hw]
    exact h.comma u v hu

theorem Unsplit.append_inert (h : Unsplit cs) (hw : ∀ a ∈ w, isInert a) : Unsplit (cs ++ w) where
  depth := by rw [depthBehind_append, h.depth, depthBehind_of_isInert hw]
  comma u v huv := by
    rcases List.append_eq_append_iff.1 huv with ⟨z, -, hrest⟩ | ⟨z, hz, hrest⟩
    · exact absurd (hrest ▸ List.mem_append_right z List.mem_cons_self)
        (comma_not_mem_of_isInert hw)
    · cases z with
      | nil =>
        have hmem : ',' ∈ [] ++ w := hrest ▸ List.mem_cons_self
        exact absurd hmem (comma_not_mem_of_isInert hw)
      | cons b z =>
        obtain ⟨rfl, -⟩ := List.cons.inj hrest
        exact h.comma u z hz

/-- Blanks around a piece. -/
theorem Unsplit.pad (h : Unsplit cs) {gap gap' : List Char} (hgap : ∀ a ∈ gap, isBlank a)
    (hgap' : ∀ a ∈ gap', isBlank a) : Unsplit (gap ++ (cs ++ gap')) :=
  (h.append_inert fun a ha => isInert_of_isBlank (hgap' a ha)).inert_append fun a ha =>
    isInert_of_isBlank (hgap a ha)

end Inert

/-- A character that is no separator at depth zero belongs to the piece. -/
theorem topLevelFrom_keep {sep a : Char} {depth : Int} (h : a = sep → depthAfter depth a ≠ 0)
    (done : List (List Char)) (piece rest : List Char) :
    topLevelFrom sep done piece depth (a :: rest) =
      topLevelFrom sep done (a :: piece) (depthAfter depth a) rest := by
  have hstay : (a == sep && depthAfter depth a == 0) = false := by
    by_cases ha : a = sep
    · simp [h ha]
    · simp [ha]
  rw [topLevelFrom, hstay, if_neg Bool.false_ne_true]

/-- A text without separators at depth zero is passed over. -/
theorem topLevelFrom_append {sep : Char} : ∀ {w : List Char} (done : List (List Char))
    (piece : List Char) (depth : Int) (rest : List Char),
    (∀ u v, w = u ++ sep :: v → depthAfter (depthBehind depth u) sep ≠ 0) →
      topLevelFrom sep done piece depth (w ++ rest) =
        topLevelFrom sep done (w.reverse ++ piece) (depthBehind depth w) rest
  | [], _, _, _, _, _ => rfl
  | a :: w, done, piece, depth, rest, hw => by
    have hkeep : a = sep → depthAfter depth a ≠ 0 := by
      rintro rfl
      exact hw [] w rfl
    have ih := topLevelFrom_append done (a :: piece) (depthAfter depth a) rest fun u v huv =>
      hw (a :: u) v (congrArg (a :: ·) huv)
    rw [List.cons_append, topLevelFrom_keep hkeep, ih, List.reverse_cons, List.append_assoc]
    rfl

/-- Pieces with commas between them are split at these commas. -/
theorem topLevelFrom_pieces : ∀ {p : List Char} {ps : List (List Char)} (done : List (List Char)),
    (∀ q ∈ p :: ps, Unsplit q) →
      topLevelFrom ',' done [] 0 ([','].intercalate (p :: ps)) = done.reverse ++ p :: ps
  | p, [], done, h => by
    have hp := h p List.mem_cons_self
    have happend := topLevelFrom_append done [] 0 [] hp.comma
    rw [List.append_nil, List.append_nil, hp.depth] at happend
    rw [List.intercalate_singleton, happend]
    simp [topLevelFrom]
  | p, q :: ps, done, h => by
    have hp := h p List.mem_cons_self
    have hcomma (rest : List Char) : topLevelFrom ',' done p.reverse 0 (',' :: rest) =
        topLevelFrom ',' (p :: done) [] 0 rest := by
      simp [topLevelFrom, depthAfter, isOpening, isClosing]
    have ih := topLevelFrom_pieces (p :: done) fun r hr => h r (List.mem_cons_of_mem p hr)
    rw [List.intercalate_cons_cons, List.append_assoc, topLevelFrom_append done [] 0 _ hp.comma,
      hp.depth, List.append_nil, List.singleton_append, hcomma, ih]
    simp

/-- Pieces with commas between them are found again, without the blanks around them. -/
theorem splitTopLevel_pieces {α : Type} {padded core : α → List Char} {xs : List α}
    (hunsplit : ∀ x ∈ xs, Unsplit (padded x)) (htrim : ∀ x ∈ xs, trim (padded x) = core x)
    (hne : ∀ x ∈ xs, core x ≠ []) :
      splitTopLevel ',' ([','].intercalate (xs.map padded)) = xs.map core := by
  cases xs with
  | nil => rfl
  | cons x xs =>
    have hsplit : topLevelFrom ',' [] [] 0 ([','].intercalate ((x :: xs).map padded)) =
        (x :: xs).map padded :=
      topLevelFrom_pieces [] (List.forall_mem_map.2 hunsplit)
    have hpieces : ((x :: xs).map padded).map trim = (x :: xs).map core := by
      rw [List.map_map]
      exact List.map_congr_left htrim
    have hkeep : ((x :: xs).map core).filter (!·.isEmpty) = (x :: xs).map core :=
      List.filter_eq_self.2 (List.forall_mem_map.2 fun y hy => by simp [hne y hy])
    rw [splitTopLevel, hsplit, trimmedPieces, hpieces, hkeep]

end Written

end ContractAudit
