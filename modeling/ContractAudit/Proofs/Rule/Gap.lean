import ContractAudit.Proofs.Contract.Gap
import ContractAudit.Proofs.Rule.Bounds

/-!
# Detectors behind a gap

A source follows another if its neutral text is that of the other behind a gap (`Source.Follows`).
Its statements and members are those of the other, further on, and show the same text. So the
matches made of them are the same, further on (`Moves`); evidence is left out, for it may name a
line. A detector carries over a gap if all its matches move along and it fails where it failed
(`Detector.Carries`), and a detector that looks at one member after the other does so if it does so
on each (`Detector.carries_eachParsed`).
-/

namespace ContractAudit

open Pattern

variable {gap : List Char} {s t : Source} {n : Nat}

/-- The neutral text of the second source is that of the first behind a gap. -/
structure Source.Follows (gap : List Char) (s t : Source) : Prop where
  blank : ∀ a ∈ gap, isBlank a
  text_eq : t.text.toList = gap ++ s.text.toList

namespace Source.Follows

theorem slice_eq (h : s.Follows gap t) (i j : Nat) :
    t.slice (gap.length + i) (gap.length + j) = s.slice i j := by
  rw [slice, slice, Array.toList_extract, Array.toList_extract, h.text_eq,
    List.extract_eq_take_drop, List.extract_eq_take_drop, Nat.add_sub_add_left]
  simp

theorem slice_member (h : s.Follows gap t) (b : Block) :
    t.slice (b.moved gap.length).start (b.moved gap.length).stop = s.slice b.start b.stop :=
  h.slice_eq _ _

theorem outline_eq (h : s.Follows gap t) : t.outline = s.outline.moved gap.length := by
  rw [outline, h.text_eq, Outline.of_append h.blank, outline]

end Source.Follows

/-! ## Moved matches -/

/-- The match `n` characters on, without its evidence. -/
def Match.moved (n : Nat) (m : Match) : Match :=
  ⟨m.ruleId, n + m.start, n + m.stop, none⟩

namespace Match

variable (m : Match)

@[simp]
theorem start_moved : (m.moved n).start = n + m.start :=
  rfl

@[simp]
theorem stop_moved : (m.moved n).stop = n + m.stop :=
  rfl

end Match

/-- The second matches are the first, `n` characters on. Evidence, which may name a line, does not
count. -/
def Moves (n : Nat) (ms ms' : List Match) : Prop :=
  ms'.map (Match.moved 0) = ms.map (Match.moved n)

theorem moves_nil (n : Nat) : Moves n [] [] :=
  rfl

theorem Moves.append {ms ms' ls ls' : List Match} (h : Moves n ms ms') (hl : Moves n ls ls') :
    Moves n (ms ++ ls) (ms' ++ ls') := by
  rw [Moves, List.map_append, List.map_append, h, hl]

theorem Moves.reverse {ms ms' : List Match} (h : Moves n ms ms') :
    Moves n ms.reverse ms'.reverse := by
  rw [Moves, List.map_reverse, List.map_reverse, h]

theorem moves_cons {m m' : Match} {ms ms' : List Match} (hm : m'.moved 0 = m.moved n)
    (h : Moves n ms ms') : Moves n (m :: ms) (m' :: ms') := by
  rw [Moves, List.map_cons, List.map_cons, hm, h]

namespace Statement

variable (x : Statement)

@[simp]
theorem chars_moved : (x.moved n).chars = x.chars :=
  rfl

@[simp]
theorem target_moved : (x.moved n).target = x.target :=
  rfl

@[simp]
theorem loopDepth_moved : (x.moved n).loopDepth = x.loopDepth :=
  rfl

@[simp]
theorem isExternalCall_moved : (x.moved n).isExternalCall = x.isExternalCall :=
  rfl

@[simp]
theorem shows_moved (p : Pattern) : (x.moved n).shows p = x.shows p :=
  rfl

theorem matched_moved (id evidence evidence' : String) :
    ((x.moved n).matched id evidence').moved 0 = (x.matched id evidence).moved n := by
  simp [matched, moved, Match.moved]

theorem some_matched_moved (id evidence evidence' : String) :
    (some ((x.moved n).matched id evidence')).map (Match.moved 0) =
      (some (x.matched id evidence)).map (Match.moved n) :=
  congrArg some (x.matched_moved id evidence evidence')

end Statement

variable {p : Statement → Bool}

theorem moves_map_matched (hp : ∀ x, p (x.moved n) = p x) (ss : List Statement)
    (id evidence evidence' : String) : Moves n ((ss.filter p).map (·.matched id evidence))
      (((ss.map (.moved n)).filter p).map (·.matched id evidence')) := by
  rw [Moves, List.filter_map, List.map_map, List.map_map, List.map_map,
    show p ∘ Statement.moved n = p from funext hp]
  exact List.map_congr_left fun x _ => x.matched_moved id evidence evidence'

theorem moves_filterMap {α : Type} {rename : α → α} {f f' : α → Option Match}
    (hf : ∀ x, (f' (rename x)).map (Match.moved 0) = (f x).map (Match.moved n)) (xs : List α) :
    Moves n (xs.filterMap f) ((xs.map rename).filterMap f') := by
  rw [Moves, List.filterMap_map, List.map_filterMap, List.map_filterMap]
  exact congrArg (List.filterMap · xs) (funext hf)

theorem moves_flatMap {f f' : Statement → List Match} (hf : ∀ x, Moves n (f x) (f' (x.moved n)))
    (ss : List Statement) : Moves n (ss.flatMap f) ((ss.map (.moved n)).flatMap f') := by
  rw [Moves, List.flatMap_map, List.map_flatMap, List.map_flatMap]
  exact congrArg (List.flatMap · ss) (funext hf)

/-! ## Moved members -/

namespace Block

variable (b : Block)

@[simp]
theorem toHeader_moved : (b.moved n).toHeader = b.toHeader :=
  rfl

@[simp]
theorem contract_moved : (b.moved n).contract = b.contract.map (.moved n) :=
  rfl

@[simp]
theorem statements_moved : (b.moved n).statements = b.statements.map (.moved n) :=
  rfl

@[simp]
theorem isParsed_moved : (b.moved n).isParsed = b.isParsed :=
  rfl

@[simp]
theorem isEntryPoint_moved : (b.moved n).isEntryPoint = b.isEntryPoint :=
  rfl

@[simp]
theorem isView_moved : (b.moved n).isView = b.isView :=
  rfl

@[simp]
theorem paramNames_moved : (b.moved n).paramNames = b.paramNames :=
  rfl

@[simp]
theorem contractName_moved : (b.moved n).contractName = b.contractName := by
  rw [contractName, contract_moved, contractName]
  cases b.contract <;> rfl

@[simp]
theorem displayName_moved : (b.moved n).displayName = b.displayName := by
  rw [displayName, contractName_moved, toHeader_moved, displayName]

theorem any_statements_moved (hp : ∀ x, p (x.moved n) = p x) :
    (b.statements.map (.moved n)).any p = b.statements.any p := by
  rw [List.any_map, show p ∘ Statement.moved n = p from funext hp]

theorem find?_statements_moved (hp : ∀ x, p (x.moved n) = p x) :
    (b.statements.map (.moved n)).find? p = (b.statements.find? p).map (.moved n) := by
  rw [List.find?_map, show p ∘ Statement.moved n = p from funext hp]

@[simp]
theorem hasAccessControl_moved : (b.moved n).hasAccessControl = b.hasAccessControl := by
  rw [hasAccessControl, statements_moved, b.any_statements_moved fun _ => rfl]
  rfl

theorem privilegedWrites_moved :
    (b.moved n).privilegedWrites = b.privilegedWrites.map fun (x, target) =>
      (x.moved n, target) := by
  rw [privilegedWrites, statements_moved, List.filterMap_map, privilegedWrites, List.map_filterMap]
  refine congrArg (List.filterMap · b.statements) (funext fun x => ?_)
  simp only [Function.comp_apply, Statement.target_moved]
  cases x.target with
  | none => rfl
  | some target =>
    dsimp only
    split <;> rfl

theorem headerStop_moved : (b.moved n).headerStop = n + b.headerStop := by
  simp only [headerStop, moved]
  cases b.body with
  | none => rfl
  | some body =>
    simp only [Option.map_some, Nat.add_lt_add_iff_left]
    split
    next hlt => exact Nat.add_sub_assoc (Nat.succ_le_of_lt (Nat.zero_lt_of_lt hlt)) n
    next => rfl

theorem headerMatched_moved (h : s.Follows gap t) (id evidence evidence' : String) :
    ((b.moved gap.length).headerMatched t id evidence').moved 0 =
      (b.headerMatched s id evidence).moved gap.length := by
  have hslice : t.slice (b.moved gap.length).start (b.moved gap.length).headerStop =
      s.slice b.start b.headerStop := by
    rw [headerStop_moved]
    exact h.slice_eq _ _
  simp only [headerMatched, hslice]
  simp [Match.moved, Block.moved, Int.add_assoc]

end Block

/-! ## Computations that agree -/

/-- Both computations answer, and their answers are related, or both fail in the same way. -/
inductive Agree {ε α β : Type} (R : α → β → Prop) : Except ε α → Except ε β → Prop where
  | ok {a : α} {b : β} (h : R a b) : Agree R (.ok a) (.ok b)
  | error (e : ε) : Agree R (.error e) (.error e)

section Agree

variable {ε α β γ δ : Type} {R : α → β → Prop}

theorem agree_pure {a : α} {b : β} (h : R a b) : Agree R (pure a : Except ε α) (pure b) :=
  .ok h

theorem Agree.imp {S : α → β → Prop} {x : Except ε α} {y : Except ε β} (h : Agree R x y)
    (hRS : ∀ a b, R a b → S a b) : Agree S x y := by
  cases h with
  | ok hab => exact .ok (hRS _ _ hab)
  | error e => exact .error e

theorem agree_bind {S : γ → δ → Prop} {x : Except ε α} {y : Except ε β} {k : α → Except ε γ}
    {l : β → Except ε δ} (hx : Agree R x y) (hk : ∀ a b, R a b → Agree S (k a) (l b)) :
    Agree S (x >>= k) (y >>= l) := by
  cases hx with
  | ok h => exact hk _ _ h
  | error e => exact .error e

/-- Both go on from the same computation. -/
theorem agree_bind_same {S : γ → δ → Prop} (x : Except ε α) {k : α → Except ε γ}
    {l : α → Except ε δ} (hk : ∀ a, Agree S (k a) (l a)) : Agree S (x >>= k) (x >>= l) := by
  cases x with
  | ok a => exact hk a
  | error e => exact .error e

variable {α' : Type}

/-- A traversal of elements that were renamed. -/
theorem agree_mapM {A : β → δ} {B : γ → δ} {f : α → Except ε β} {g : α' → Except ε γ}
    (rename : α → α') : ∀ {xs : List α},
    (∀ x ∈ xs, Agree (fun a b => B b = A a) (f x) (g (rename x))) →
      Agree (fun as bs => bs.map B = as.map A) (xs.mapM f) ((xs.map rename).mapM g)
  | [], _ => .ok rfl
  | x :: xs, hf => by
    rw [List.map_cons, List.mapM_cons, List.mapM_cons]
    refine agree_bind (hf x List.mem_cons_self) fun a b hab => ?_
    refine agree_bind (agree_mapM rename fun x' hx' => hf x' (List.mem_cons_of_mem _ hx'))
      fun as bs hbs => agree_pure ?_
    rw [List.map_cons, List.map_cons, hab, hbs]

theorem agree_mapM_filterMap {f : α → Except ε (Option Match)} {g : α' → Except ε (Option Match)}
    (rename : α → α') {xs : List α}
    (hf : ∀ x ∈ xs, Agree (fun o o' => o'.map (Match.moved 0) = o.map (Match.moved n)) (f x)
      (g (rename x))) :
    Agree (fun os os' => Moves n (os.filterMap id) (os'.filterMap id)) (xs.mapM f)
      ((xs.map rename).mapM g) := by
  refine (agree_mapM rename hf).imp fun os os' heq => ?_
  have hsome := congrArg (List.filterMap id) heq
  rw [List.filterMap_map, List.filterMap_map] at hsome
  rwa [Moves, List.map_filterMap, List.map_filterMap]

theorem agree_filterAuxM {f : α → Except ε Bool} {g : α' → Except ε Bool} {rename : α → α'}
    (hfg : ∀ x, g (rename x) = f x) : ∀ xs found : List α,
    Agree (fun ys ys' => ys' = ys.map rename) (xs.filterAuxM f found)
      ((xs.map rename).filterAuxM g (found.map rename))
  | [], found => .ok rfl
  | x :: xs, found => by
    rw [List.map_cons, List.filterAuxM, List.filterAuxM, hfg]
    refine agree_bind_same (f x) fun keep => ?_
    cases keep with
    | false => exact agree_filterAuxM hfg xs found
    | true => exact agree_filterAuxM hfg xs (x :: found)

theorem agree_filterM {f : α → Except ε Bool} {g : α' → Except ε Bool} (rename : α → α')
    (hfg : ∀ x, g (rename x) = f x) (xs : List α) :
    Agree (fun ys ys' => ys' = ys.map rename) (xs.filterM f) ((xs.map rename).filterM g) := by
  rw [List.filterM, List.filterM]
  refine agree_bind (agree_filterAuxM hfg xs []) fun ys ys' heq => agree_pure ?_
  rw [heq, List.map_reverse]

end Agree

/-! ## One member after the other -/

namespace Detector

/-- On a source behind a gap the detector marks the same places as without the gap. -/
def Carries (detect : Detector) : Prop :=
  ∀ {gap : List Char} {s t : Source}, s.Follows gap t →
    Agree (Moves gap.length) (detect s s.outline.blocks) (detect t t.outline.blocks)

/-- So does what a detector makes of a parsed member. -/
def CarriesMember (f : Source → Block → Except DetectorFault (List Match)) : Prop :=
  ∀ {gap : List Char} {s t : Source}, s.Follows gap t → ∀ b ∈ s.outline.blocks, b.isParsed →
    Agree (Moves gap.length) (f s b) (f t (b.moved gap.length))

variable {f f' : Source → Block → Except DetectorFault (List Match)}

theorem agree_eachBlock (h : s.Follows gap t)
    (hf : ∀ b ∈ s.outline.blocks, Agree (Moves gap.length) (f s b) (f' t (b.moved gap.length))) :
    Agree (Moves gap.length) (eachBlock f s s.outline.blocks)
      (eachBlock f' t t.outline.blocks) := by
  rw [h.outline_eq]
  refine agree_bind (agree_mapM (A := List.map (Match.moved gap.length))
    (B := List.map (Match.moved 0)) (Block.moved gap.length) hf) fun found found' heq =>
    agree_pure ?_
  rw [Moves, List.map_flatten, heq, List.map_flatten]

theorem agree_eachParsed (h : s.Follows gap t) (hf : ∀ b ∈ s.outline.blocks, b.isParsed →
      Agree (Moves gap.length) (f s b) (f' t (b.moved gap.length))) :
    Agree (Moves gap.length) (eachParsed f s s.outline.blocks)
      (eachParsed f' t t.outline.blocks) := by
  refine agree_eachBlock h fun b hb => ?_
  have hparsed : (b.moved gap.length).isParsed = b.isParsed := rfl
  rw [hparsed]
  split
  next hb' => exact hf b hb hb'
  next => exact agree_pure (moves_nil _)

theorem carries_eachParsed (hf : CarriesMember f) : (eachParsed f).Carries :=
  fun h => agree_eachParsed h (hf h)

theorem carries_eachEntryPoint (hf : CarriesMember f) : (eachEntryPoint f).Carries := by
  refine carries_eachParsed fun {gap s t} h b hb hparsed => ?_
  have hentry : ((b.moved gap.length).isEntryPoint && !(b.moved gap.length).isView) =
      (b.isEntryPoint && !b.isView) := rfl
  rw [hentry]
  split
  · exact hf h b hb hparsed
  · exact agree_pure (moves_nil _)

end Detector

end ContractAudit
