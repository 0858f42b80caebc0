import ContractAudit.Proofs.Overlap

/-!
# The greedy choice of matches

Which matches are kept can be said without halving : those of a rule are gone through from the
widest to the narrowest, and one is kept if it overlaps none that was kept before it (`keepFree`).
This compares a match with every kept one, where `keep` compares it with one. As the kept matches
stand one behind the other, a match that overlaps any of them overlaps the one that `keep` finds
(`meetsKept_eq_any`). So both keep the same matches (`perm_foldl_keep`), and there is one way to put
these in order (`Apart.eq_of_perm`). Main statement : `dropOverlaps_eq_dropGreedily`.
-/

namespace ContractAudit

namespace Match

/-- Some character lies in both matches. -/
def Overlaps (a b : Match) : Prop :=
  a.start < b.behind ∧ b.start < a.behind

instance (a b : Match) : Decidable (a.Overlaps b) :=
  inferInstanceAs (Decidable (_ ∧ _))

/-- May the first match be taken before the second? The wider one is, of two that are equally wide
the one that starts first, and then the one that ends first. -/
def Precedes (a b : Match) : Prop :=
  b.width < a.width ∨
    a.width = b.width ∧ (a.start < b.start ∨ a.start = b.start ∧ a.stop ≤ b.stop)

instance (a b : Match) : Decidable (a.Precedes b) :=
  inferInstanceAs (Decidable (_ ∨ _))

theorem isLE_compareWidth (a b : Match) : (a.compareWidth b).isLE = decide (a.Precedes b) := by
  rw [Bool.eq_iff_iff, decide_eq_true_iff, Precedes]
  simp only [compareWidth, compareLex, compareOn, Ordering.isLE_then_iff_or, Std.compare_eq_lt,
    Std.compare_eq_iff_eq, Std.isLE_compare]
  omega

end Match

/-! ## The plain way -/

/-- Goes through matches and keeps those that overlap none of the ones kept before. -/
def keepFree (kept : List Match) : List Match → List Match
  | [] => []
  | m :: ms =>
    if kept.any fun k => m.Overlaps k then keepFree kept ms else m :: keepFree (m :: kept) ms

/-- The matches in the order in which they are taken; tied ones stay in the order in which they are
given. -/
def byWidth (ms : List Match) : List Match :=
  ms.mergeSort fun a b => a.Precedes b

/-- The matches to keep of one rule, by increasing start. -/
def keepGreedily (ms : List Match) : List Match :=
  (keepFree [] (byWidth ms)).mergeSort fun a b => a.start ≤ b.start

/-- The matches of the given rule. -/
def ofRule (id : String) (ms : List Match) : List Match :=
  ms.filter (·.ruleId == id)

/-- The matches of other rules than the given one. -/
def ofOthers (id : String) (ms : List Match) : List Match :=
  ms.filter (·.ruleId != id)

/-- The matches to keep : those of the rule that the first one names, then those of the other
rules. -/
def dropGreedily : List Match → List Match
  | [] => []
  | m :: ms => keepGreedily (m :: ofRule m.ruleId ms) ++ dropGreedily (ofOthers m.ruleId ms)
termination_by ms => ms.length
decreasing_by exact Nat.lt_succ_of_le (List.length_filter_le _ ms)

/-! ## Keeping a match -/

variable {kept : Array Match}

/-- It is enough to look at the last of the kept matches that start before the end. -/
theorem meetsKept_eq_any (h : Apart kept.toList) (m : Match) :
    meetsKept kept m = kept.toList.any fun k => m.Overlaps k := by
  obtain ⟨l₁, l₂, hl, h₁, h₂⟩ := h.exists_append m.behind
  have hapart : Apart l₁ := (List.pairwise_append.1 (hl ▸ h)).1
  have hlate : (l₂.any fun k => m.Overlaps k) = false := by
    refine List.any_eq_false.2 fun k hk hover => ?_
    exact Int.not_lt.2 (h₂ k hk) (of_decide_eq_true hover).2
  rw [meetsKept_eq hl h₁ h₂, hl, List.any_append, hlate, Bool.or_false, Bool.eq_iff_iff]
  constructor
  · intro hlast
    obtain ⟨k, hk, hover⟩ := (Option.any_eq_true _ _).1 hlast
    have hmem := List.mem_of_getLast? hk
    exact List.any_eq_true.2 ⟨k, hmem, decide_eq_true ⟨of_decide_eq_true hover, h₁ k hmem⟩⟩
  · -- If the last one ends before the match starts, then all do.
    intro hany
    obtain ⟨k, hk, hover⟩ := List.any_eq_true.1 hany
    refine Decidable.byContradiction fun hlast => ?_
    exact Int.not_lt.2 (hapart.behind_le hlast k hk) (of_decide_eq_true hover).1

theorem perm_keep (h : Apart kept.toList) (m : Match) : (keep kept m).toList.Perm
    (if kept.toList.any fun k => m.Overlaps k then kept.toList else m :: kept.toList) := by
  obtain ⟨l₁, l₂, hl, h₁, h₂⟩ := h.exists_append m.behind
  rw [toList_keep h hl h₁ h₂, ← meetsKept_eq_any h, meetsKept_eq hl h₁ h₂]
  split
  · exact .refl _
  · rw [hl]
    exact List.perm_middle

/-- One match after the other, the same are kept as by looking at all kept ones. -/
theorem perm_foldl_keep : ∀ (ms : List Match) {kept : Array Match} {l : List Match},
    Apart kept.toList → kept.toList.Perm l →
      (ms.foldl keep kept).toList.Perm (l ++ keepFree l ms)
  | [], _, _, _, hl => by simpa [keepFree] using hl
  | m :: ms, kept, l, h, hl => by
    have hkeep := perm_keep h m
    rw [hl.any_eq] at hkeep
    rw [List.foldl_cons, keepFree]
    by_cases hany : l.any fun k => m.Overlaps k
    · rw [if_pos hany] at hkeep ⊢
      exact perm_foldl_keep ms (apart_keep h m) (hkeep.trans hl)
    · rw [if_neg hany] at hkeep ⊢
      exact (perm_foldl_keep ms (apart_keep h m) (hkeep.trans (hl.cons m))).trans
        List.perm_middle.symm

theorem perm_keepWidest (ms : List Match) : (keepWidest ms).Perm (keepFree [] (byWidth ms)) := by
  have hsort : (fun a b : Match => (a.compareWidth b).isLE) = fun a b => decide (a.Precedes b) :=
    funext fun a => funext fun b => a.isLE_compareWidth b
  rw [keepWidest, hsort]
  exact perm_foldl_keep (byWidth ms) .nil (.refl [])

/-! ## Putting in order -/

theorem Apart.start_lt {ms : List Match} (h : Apart ms) :
    ms.Pairwise fun a b => a.start < b.start :=
  h.imp fun {a _} hab => Int.lt_of_lt_of_le a.start_lt_behind hab

/-- Matches can stand one behind the other in one order only. -/
theorem Apart.eq_of_perm {ms ns : List Match} (hms : Apart ms) (hns : Apart ns) (h : ms.Perm ns) :
    ms = ns := by
  refine h.eq_of_pairwise (fun a b _ _ hab hba => ?_) hms.start_lt hns.start_lt
  exact absurd hab (Int.lt_asymm hba)

/-- Sorted by their starts, matches stand in that order. -/
theorem Apart.mergeSort_eq {ms ns : List Match} (h : Apart ms) (hperm : ns.Perm ms) :
    ns.mergeSort (fun a b => a.start ≤ b.start) = ms := by
  have hle : ms.Pairwise fun a b => decide (a.start ≤ b.start) = true :=
    h.start_lt.imp fun hab => decide_eq_true (Int.le_of_lt hab)
  have hsame : ∀ a ∈ ms, ∀ b ∈ ms, a.start = b.start → a = b :=
    List.Pairwise.forall_of_forall_of_flip (fun _ _ _ => rfl)
      (h.start_lt.imp fun hab heq => absurd heq (Int.ne_of_lt hab))
      (h.start_lt.imp fun hab heq => absurd heq.symm (Int.ne_of_lt hab))
  have htrans : ∀ a b c : Match, decide (a.start ≤ b.start) → decide (b.start ≤ c.start) →
      decide (a.start ≤ c.start) := fun a b c hab hbc =>
    decide_eq_true (Int.le_trans (of_decide_eq_true hab) (of_decide_eq_true hbc))
  have htotal : ∀ a b : Match, decide (a.start ≤ b.start) ||
      decide (b.start ≤ a.start) := fun a b => by
    simpa using Int.le_total a.start b.start
  have hsorted := List.pairwise_mergeSort htrans htotal ns
  have hsort := List.mergeSort_perm ns fun a b => decide (a.start ≤ b.start)
  refine (hsort.trans hperm).eq_of_pairwise (fun a b ha hb hab hba => ?_) hsorted hle
  refine hsame a (hperm.mem_iff.1 (hsort.mem_iff.1 ha)) b hb ?_
  exact Int.le_antisymm (of_decide_eq_true hab) (of_decide_eq_true hba)

theorem keepWidest_eq_keepGreedily (ms : List Match) : keepWidest ms = keepGreedily ms :=
  ((apart_keepWidest ms).mergeSort_eq (perm_keepWidest ms).symm).symm

/-! ## Renaming and moving -/

theorem keepFree_map {f : Match → Match} (hf : ∀ a b, (f a).Overlaps (f b) ↔ a.Overlaps b) :
    ∀ kept ms : List Match, keepFree (kept.map f) (ms.map f) = (keepFree kept ms).map f
  | _, [] => rfl
  | kept, m :: ms => by
    have hany : ((kept.map f).any fun k => (f m).Overlaps k) = kept.any fun k => m.Overlaps k := by
      rw [List.any_map]
      exact congrArg kept.any (funext fun k => decide_eq_decide.2 (hf m k))
    rw [List.map_cons, keepFree, hany, keepFree]
    split
    · exact keepFree_map hf kept ms
    · exact congrArg (f m :: ·) (keepFree_map hf (m :: kept) ms)

/-- The choice goes by how the offsets of the matches compare, and by nothing else. -/
theorem keepWidest_map {f : Match → Match} {n : Int} (hstart : ∀ m, (f m).start = n + m.start)
    (hstop : ∀ m, (f m).stop = n + m.stop) (ms : List Match) :
    keepWidest (ms.map f) = (keepWidest ms).map f := by
  have hbehind : ∀ m, (f m).behind = n + m.behind := by
    intro m
    rw [Match.behind, hstart, hstop, Match.behind]
    omega
  have hover : ∀ a b, (f a).Overlaps (f b) ↔ a.Overlaps b := by
    intro a b
    rw [Match.Overlaps, hstart, hstart, hbehind, hbehind, Match.Overlaps]
    omega
  have hsort : byWidth (ms.map f) = (byWidth ms).map f := by
    refine (List.map_mergeSort fun a _ b _ => decide_eq_decide.2 ?_).symm
    simp only [Match.Precedes, Match.width, hstart, hstop, hbehind]
    omega
  have hapart : Apart ((keepWidest ms).map f) := by
    refine List.pairwise_map.2 ((apart_keepWidest ms).imp fun hab => ?_)
    rw [hbehind, hstart]
    omega
  have hfree := keepFree_map hover [] (byWidth ms)
  rw [List.map_nil, ← hsort] at hfree
  refine (apart_keepWidest _).eq_of_perm hapart ((perm_keepWidest _).trans ?_)
  rw [hfree]
  exact ((perm_keepWidest ms).map f).symm

/-! ## Rule by rule -/

theorem ofRule_cons_self (m : Match) (ms : List Match) :
    ofRule m.ruleId (m :: ms) = m :: ofRule m.ruleId ms := by
  simp [ofRule]

theorem ofRule_cons_of_ne {id : String} {m : Match} (h : m.ruleId ≠ id) (ms : List Match) :
    ofRule id (m :: ms) = ofRule id ms := by
  simp [ofRule, h]

theorem ofRule_ofOthers {id id' : String} (h : id' ≠ id) (ms : List Match) :
    ofRule id' (ofOthers id ms) = ofRule id' ms := by
  rw [ofRule, ofOthers, List.filter_filter, ofRule]
  refine List.filter_congr fun m _ => ?_
  by_cases hm : m.ruleId = id' <;> simp [hm, h]

theorem ruleId_ne_of_mem_ofOthers {id : String} {ms : List Match} {m : Match}
    (hm : m ∈ ofOthers id ms) : m.ruleId ≠ id := by
  simpa using (List.mem_filter.1 hm).2

/-- The first match names the rule whose matches are kept first. -/
theorem dropOverlaps_cons (m : Match) (ms : List Match) :
    dropOverlaps (m :: ms) =
      keepWidest (m :: ofRule m.ruleId ms) ++ dropOverlaps (ofOthers m.ruleId ms) := by
  have hids : ((ms.map (·.ruleId)).filter fun id => !id == m.ruleId) =
      (ofOthers m.ruleId ms).map (·.ruleId) := by
    rw [List.filter_map]
    rfl
  have hother : ∀ id ∈ ((ofOthers m.ruleId ms).map (·.ruleId)).eraseDups,
      keepWidest (ofRule id (m :: ms)) = keepWidest (ofRule id (ofOthers m.ruleId ms)) := by
    intro id hid
    obtain ⟨x, hx, rfl⟩ := List.mem_map.1 (List.mem_eraseDups.1 hid)
    have hne := ruleId_ne_of_mem_ofOthers hx
    rw [ofRule_ofOthers hne, ofRule_cons_of_ne hne.symm]
  calc dropOverlaps (m :: ms)
      = keepWidest (ofRule m.ruleId (m :: ms)) ++
          ((ofOthers m.ruleId ms).map (·.ruleId)).eraseDups.flatMap
            fun id => keepWidest (ofRule id (m :: ms)) := by
        rw [dropOverlaps, List.map_cons, List.eraseDups_cons, hids, List.flatMap_cons]
        rfl
    _ = keepWidest (m :: ofRule m.ruleId ms) ++ dropOverlaps (ofOthers m.ruleId ms) := by
        rw [ofRule_cons_self, List.flatMap_def, List.map_congr_left hother, ← List.flatMap_def]
        rfl

/-- Comparing each match with one kept match keeps the same as comparing it with all of them. -/
theorem dropOverlaps_eq_dropGreedily (ms : List Match) : dropOverlaps ms = dropGreedily ms := by
  induction ms using dropGreedily.induct with
  | case1 => rw [dropGreedily]; rfl
  | case2 m ms ih => rw [dropOverlaps_cons, dropGreedily, keepWidest_eq_keepGreedily, ih]

end ContractAudit
