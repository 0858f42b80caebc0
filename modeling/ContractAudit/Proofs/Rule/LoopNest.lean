import ContractAudit.Rule.Availability

/-!
# Bodies of loops

The statements with a greater depth that follow the header of a loop are its body. `bodyStop` says
where a body ends, and `loopAt?` reads off the statements which loop there is at a place. The stack
through which `closedLoops` goes finds the same loops : its depths grow towards its top (`Nested`),
so the loops that a statement ends are those on top (`closeLoops_eq`), each loop on it ends where
`bodyStop` says (`perm_foldl_nestStep`), and sorting puts all of them back in order
(`closedLoops_eq`). With the table of the next calls (`getElem?_nextCalls`), a loop is marked if
there is a call in its body (`loopMatches_eq`).
-/

namespace ContractAudit

namespace Detector

/-! ## The body of a loop -/

/-- The statements from the index `i` on that belong to a loop at the given depth. -/
def loopBody (ss : List Statement) (depth i : Nat) : List Statement :=
  (ss.drop i).takeWhile (depth < ·.loopDepth)

/-- The index of the first statement from `i` on that is outside of a loop at the given depth. -/
def bodyStop (ss : List Statement) (depth i : Nat) : Nat :=
  i + (loopBody ss depth i).length

/-- The loop whose header stands at the index `i`. -/
def loopAt? (ss : List Statement) (i : Nat) : Option ClosedLoop := do
  let s ← ss[i]?
  if isLoop s then some ⟨⟨s, i⟩, bodyStop ss s.loopDepth (i + 1)⟩ else none

section Body

variable {ss : List Statement} {s : Statement} {depth i : Nat}

theorem drop_of_getElem? (hs : ss[i]? = some s) : ss.drop i = s :: ss.drop (i + 1) := by
  obtain ⟨hlt, rfl⟩ := List.getElem?_eq_some_iff.1 hs
  exact List.drop_eq_getElem_cons hlt

theorem bodyStop_of_lt (hs : ss[i]? = some s) (h : depth < s.loopDepth) :
    bodyStop ss depth i = bodyStop ss depth (i + 1) := by
  rw [bodyStop, loopBody, drop_of_getElem? hs, List.takeWhile_cons_of_pos (by simpa using h),
    List.length_cons, bodyStop, loopBody]
  omega

theorem bodyStop_of_le (hs : ss[i]? = some s) (h : s.loopDepth ≤ depth) :
    bodyStop ss depth i = i := by
  rw [bodyStop, loopBody, drop_of_getElem? hs, List.takeWhile_cons_of_neg (by simpa using h),
    List.length_nil, Nat.add_zero]

theorem bodyStop_length (ss : List Statement) (depth : Nat) :
    bodyStop ss depth ss.length = ss.length := by
  rw [bodyStop, loopBody, List.drop_length, List.takeWhile_nil, List.length_nil, Nat.add_zero]

end Body

/-! ## The stack of open loops -/

/-- An inner loop is deeper than those around it. -/
def Nested (loops : List OpenLoop) : Prop :=
  loops.Pairwise fun inner outer => outer.header.loopDepth < inner.header.loopDepth

/-- A statement ends the loops that are not less deep than itself. -/
theorem closeLoops_eq (depth i : Nat) :
    ∀ {loops : List OpenLoop} (closed : List ClosedLoop), Nested loops →
    closeLoops depth i closed loops = ⟨loops.filter (·.header.loopDepth < depth),
      ((loops.filter (depth ≤ ·.header.loopDepth)).map (ClosedLoop.mk · i)).reverse ++ closed⟩
  | [], _, _ => rfl
  | loop :: outer, closed, hnested => by
    obtain ⟨hloop, houter⟩ := List.pairwise_cons.1 hnested
    rw [closeLoops]
    split
    next hle =>
      rw [closeLoops_eq depth i _ houter, List.filter_cons_of_neg (by simpa using hle),
        List.filter_cons_of_pos (by simpa using hle), List.map_cons, List.reverse_cons,
        List.append_assoc, List.singleton_append]
    next hlt =>
      -- The loops around this one are less deep still, so all of them stay open.
      have hall : ∀ l ∈ loop :: outer, l.header.loopDepth < depth := by
        intro l hl
        rcases List.mem_cons.1 hl with rfl | hl
        · omega
        · have := hloop l hl
          omega
      rw [List.filter_eq_self.2 (by simpa using hall),
        List.filter_eq_nil_iff.2 (by simpa using hall)]
      rfl

variable {nest : LoopNest}

theorem nested_nestStep (h : Nested nest.unclosed) (s : Statement × Nat) :
    Nested (nestStep nest s).unclosed := by
  have hkept : Nested (nest.unclosed.filter (·.header.loopDepth < s.1.loopDepth)) := h.filter _
  rw [nestStep, closeLoops_eq _ _ _ h]
  dsimp only
  split
  · refine List.pairwise_cons.2 ⟨fun l hl => ?_, hkept⟩
    simpa using (List.mem_filter.1 hl).2
  · exact hkept

/-- Every loop met so far with the end of its body, where the statements from `i` on are still to
come. -/
def LoopNest.loops (ss : List Statement) (i : Nat) (nest : LoopNest) : List ClosedLoop :=
  nest.closed ++ nest.unclosed.map fun l => ⟨l, bodyStop ss l.header.loopDepth i⟩

variable {ss : List Statement} {s : Statement} {i : Nat}

/-- A statement ends loops where their bodies end. -/
theorem perm_closeLoops (h : Nested nest.unclosed) (hs : ss[i]? = some s) :
    ((closeLoops s.loopDepth i nest.closed nest.unclosed).loops ss (i + 1)).Perm
      (nest.loops ss i) := by
  have hended : ∀ l ∈ nest.unclosed.filter (s.loopDepth ≤ ·.header.loopDepth),
      ClosedLoop.mk l i = ⟨l, bodyStop ss l.header.loopDepth i⟩ := by
    intro l hl
    rw [bodyStop_of_le hs (by simpa using (List.mem_filter.1 hl).2)]
  have hkept : ∀ l ∈ nest.unclosed.filter (·.header.loopDepth < s.loopDepth),
      ClosedLoop.mk l (bodyStop ss l.header.loopDepth (i + 1)) =
        ⟨l, bodyStop ss l.header.loopDepth i⟩ := by
    intro l hl
    rw [bodyStop_of_lt hs (by simpa using (List.mem_filter.1 hl).2)]
  have hparts :=
    List.filter_append_perm (fun l : OpenLoop => decide (s.loopDepth ≤ l.header.loopDepth))
    nest.unclosed
  simp only [← decide_not, Nat.not_le] at hparts
  rw [closeLoops_eq _ _ _ h, LoopNest.loops, LoopNest.loops, List.map_congr_left hended,
    List.map_congr_left hkept, List.append_assoc]
  refine ((List.reverse_perm _).append_right _).trans
    (List.perm_append_comm_assoc _ _ _ |>.trans ?_)
  rw [← List.map_append]
  exact (hparts.map _).append_left _

/-- The next statement adds the loop it is the header of. -/
theorem perm_nestStep (h : Nested nest.unclosed) (hs : ss[i]? = some s) :
    ((nestStep nest (s, i)).loops ss (i + 1)).Perm ((loopAt? ss i).toList ++ nest.loops ss i) := by
  rw [nestStep, loopAt?, hs]
  simp only [Option.bind_eq_bind, Option.bind_some]
  split
  · exact List.perm_middle.trans ((perm_closeLoops h hs).cons _)
  · exact perm_closeLoops h hs

/-- All statements from `i` on add the loops they are the headers of. -/
theorem perm_foldl_nestStep : ∀ {later : List Statement} {i : Nat} {nest : LoopNest},
    Nested nest.unclosed → ss.drop i = later →
      (((later.zipIdx i).foldl nestStep nest).loops ss (i + later.length)).Perm
        ((List.range' i later.length).filterMap (loopAt? ss) ++ nest.loops ss i)
  | [], i, nest, _, _ => .refl _
  | s :: later, i, nest, hnested, hdrop => by
    have hs : ss[i]? = some s := by rw [← List.head?_drop, hdrop, List.head?_cons]
    have hlater : ss.drop (i + 1) = later := by rw [← List.tail_drop, hdrop, List.tail_cons]
    have hrest := perm_foldl_nestStep (nested_nestStep hnested (s, i)) hlater
    rw [Nat.add_right_comm, Nat.add_assoc] at hrest
    rw [List.zipIdx_cons, List.foldl_cons, List.length_cons, List.range'_succ]
    refine hrest.trans (((perm_nestStep hnested hs).append_left _).trans ?_)
    rw [← List.append_assoc]
    refine List.Perm.append_right _ (List.perm_append_comm.trans (.of_eq ?_))
    cases hloop : loopAt? ss i with
    | none => rw [List.filterMap_cons_none hloop, Option.toList_none, List.nil_append]
    | some loop => rw [List.filterMap_cons_some hloop, Option.toList_some, List.singleton_append]

theorem index_of_loopAt? {loop : ClosedLoop} (h : loopAt? ss i = some loop) : loop.index = i := by
  obtain ⟨s, -, hs⟩ := Option.bind_eq_some_iff.1 h
  split at hs
  · rw [← Option.some.inj hs]
  · cases hs

/-- The loops are found in the order of their headers, each with the end of its body. -/
theorem closedLoops_eq (ss : List Statement) :
    closedLoops ss = (List.range ss.length).filterMap (loopAt? ss) := by
  have hperm : (closedLoops ss).Perm ((List.range ss.length).filterMap (loopAt? ss)) := by
    have hall := @perm_foldl_nestStep ss ss 0 ⟨[], []⟩ .nil rfl
    simp only [LoopNest.loops, Nat.zero_add, bodyStop_length, List.map_nil, List.append_nil,
      ← List.range_eq_range'] at hall
    exact (List.mergeSort_perm _ _).trans hall
  -- Sorting leaves no choice, for the index of a loop tells which one it is.
  have hindex : ∀ loop ∈ (List.range ss.length).filterMap (loopAt? ss),
      loopAt? ss loop.index = some loop := by
    intro loop hloop
    obtain ⟨i, -, hi⟩ := List.mem_filterMap.1 hloop
    rwa [index_of_loopAt? hi]
  have hsorted : (closedLoops ss).Pairwise fun l k => decide (l.index ≤ k.index) = true :=
    List.pairwise_mergeSort (by simpa using fun _ _ _ => Nat.le_trans)
      (by simpa using fun _ _ => Nat.le_total _ _) _
  refine hperm.eq_of_pairwise (fun l k hl hk hlk hkl => ?_) hsorted (List.pairwise_filterMap.2 ?_)
  · have heq : l.index = k.index := Nat.le_antisymm (by simpa using hlk) (by simpa using hkl)
    have hl := hindex l (hperm.mem_iff.1 hl)
    rw [heq, hindex k hk] at hl
    exact (Option.some.inj hl).symm
  · refine List.pairwise_lt_range.imp fun {i j} hij l hl k hk => ?_
    rw [index_of_loopAt? hl, index_of_loopAt? hk]
    exact decide_eq_true (Nat.le_of_lt hij)

/-! ## The table of the next calls -/

theorem getElem?_foldr_nextCallStep : ∀ (ss : List Statement) (k i : Nat), i ≤ ss.length →
    ((ss.zipIdx k).foldr nextCallStep [k + ss.length])[i]? =
      some (k + i + (ss.drop i).findIdx (·.isExternalCall))
  | [], k, i, hi => by
    obtain rfl : i = 0 := Nat.le_zero.1 hi
    rfl
  | s :: ss, k, i, hi => by
    have hnext := getElem?_foldr_nextCallStep ss (k + 1)
    rw [List.zipIdx_cons, List.foldr_cons, List.length_cons, ← Nat.add_assoc, Nat.add_right_comm]
    generalize (ss.zipIdx (k + 1)).foldr nextCallStep [k + 1 + ss.length] = table at hnext
    cases i with
    | zero =>
      have hhead : table.headD k = k + 1 + ss.findIdx (·.isExternalCall) := by
        rw [List.headD_eq_head?_getD, List.head?_eq_getElem?, hnext 0 (Nat.zero_le _)]
        rfl
      rw [nextCallStep, List.getElem?_cons_zero, List.drop_zero, List.findIdx_cons, hhead]
      cases s.isExternalCall with
      | true => rfl
      | false => simp; omega
    | succ i =>
      rw [nextCallStep, List.getElem?_cons_succ, hnext i (by simpa using hi), List.drop_succ_cons]
      congr 1
      omega

/-- The table holds the index of the first external call from each place on. -/
theorem getElem?_nextCalls (hi : i ≤ ss.length) :
    (nextCalls ss)[i]? = some (i + (ss.drop i).findIdx (·.isExternalCall)) := by
  have h := getElem?_foldr_nextCallStep ss 0 i hi
  rwa [Nat.zero_add, Nat.zero_add] at h

/-! ## Calls in the body of a loop -/

/-- The first external call from the index `i` on in the body of a loop at the given depth. -/
def callInLoop? (ss : List Statement) (depth i : Nat) : Option Statement :=
  (loopBody ss depth i).find? (·.isExternalCall)

/-- What is found in the front of a list is the first one found at all, if it stands there. -/
theorem find?_takeWhile {α : Type} {p q : α → Bool} : ∀ xs : List α,
    (xs.takeWhile p).find? q =
      if (xs.takeWhile p).length ≤ xs.findIdx q then none else xs[xs.findIdx q]?
  | [] => rfl
  | x :: xs => by
    have ih := find?_takeWhile (p := p) (q := q) xs
    cases hp : p x with
    | false => simp [hp]
    | true =>
      cases hq : q x with
      | true => simp [hp, hq, List.findIdx_cons]
      | false => simpa [hp, hq, List.findIdx_cons] using ih

/-- The match on a loop over one of the arrays, if there is a call in its body. -/
def callingLoop? (src : Source) (length : Pattern) (ss : List Statement) (i : Nat) :
    Option Match := do
  let s ← ss[i]?
  if isLoop s then
    let h ← length.findIn? s.chars
    let call ← callInLoop? ss s.loopDepth (i + 1)
    some (s.matched "unbounded-loop-external-call"
      (loopEvidence (String.ofList (h.part "array")) (src.lineOf call.start)))
  else none

/-- The next call stands in the body of a loop if there is one in it. -/
theorem loopMatch?_eq (src : Source) (length : Pattern) (hs : ss[i]? = some s) :
    loopMatch? src length (nextCalls ss).toArray ss.toArray
      ⟨⟨s, i⟩, bodyStop ss s.loopDepth (i + 1)⟩ =
      (length.findIn? s.chars).bind fun h => (callInLoop? ss s.loopDepth (i + 1)).bind fun call =>
        some (s.matched "unbounded-loop-external-call"
          (loopEvidence (String.ofList (h.part "array")) (src.lineOf call.start))) := by
  have hlt := (List.getElem?_eq_some_iff.1 hs).1
  have hcall : callInLoop? ss s.loopDepth (i + 1) = _ := find?_takeWhile (ss.drop (i + 1))
  simp only [loopMatch?, List.getElem?_toArray,
    getElem?_nextCalls (show i + 1 ≤ ss.length from hlt), Option.bind_eq_bind, Option.bind_some,
    bodyStop, loopBody, Nat.add_le_add_iff_left]
  rw [hcall, List.getElem?_drop]
  split
  · simp
  · rfl

/-- The loops over one of the arrays that call out, one place after the other. -/
theorem loopMatches_eq (src : Source) (length : Pattern) (ss : List Statement) :
    loopMatches src length ss = (List.range ss.length).filterMap (callingLoop? src length ss) := by
  simp only [loopMatches]
  rw [closedLoops_eq, List.filterMap_filterMap]
  congr 1
  funext i
  rw [loopAt?, callingLoop?]
  cases hs : ss[i]? with
  | none => rfl
  | some s =>
    simp only [Option.bind_eq_bind, Option.bind_some]
    split
    · rw [Option.bind_some]
      exact loopMatch?_eq src length hs
    · rfl

end Detector

end ContractAudit
