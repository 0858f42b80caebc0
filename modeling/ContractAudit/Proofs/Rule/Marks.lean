import ContractAudit.Proofs.Contract.Layout
import ContractAudit.Rule.Sign

/-!
# What detectors mark

Most detectors look at parsed members and mark a statement or the header of one (`Block.Marks`,
`Detector.MarksMembers`). In a member of a source these lie inside the source and are not empty
(`Match.Inside`, `Block.LiesIn.inside_of_marks`). What a detector answers that looks at one member
after the other, it got from one of them (`Detector.yields_eachBlock`).
-/

namespace ContractAudit

/-- The match marks at least one character of a text of the given length, and none outside of it. -/
structure Match.Inside (length : Nat) (m : Match) : Prop where
  nonneg : 0 ≤ m.start
  start_lt : m.start < m.stop
  stop_le : m.stop ≤ length

theorem Match.inside_mk {length i j : Nat} (hij : i < j) (hj : j ≤ length) (id : String)
    (evidence : Option String) : Match.Inside length ⟨id, i, j, evidence⟩ :=
  ⟨Int.natCast_nonneg i, Int.ofNat_lt.2 hij, Int.ofNat_le.2 hj⟩

/-- The match marks a statement of the member, or its header. -/
inductive Block.Marks (source : Source) (b : Block) : Match → Prop where
  | statement {s : Statement} (hs : s ∈ b.statements) (id evidence : String) :
    b.Marks source (s.matched id evidence)
  | header (id evidence : String) : b.Marks source (b.headerMatched source id evidence)

namespace Block.LiesIn

variable {source : Source} {b : Block} {lo hi : Nat}

theorem headerStop_eq (h : b.LiesIn source.text.toList lo hi) : b.headerStop = lo - 1 := by
  have hlt := h.header
  rw [headerStop, h.body_eq]
  exact if_pos (by omega)

/-- The header has at least one character, and ends before the body. -/
theorem length_header (h : b.LiesIn source.text.toList lo hi) :
    0 < (trimRight (source.slice b.start b.headerStop)).length ∧
      b.start + (trimRight (source.slice b.start b.headerStop)).length < lo := by
  have hlt := h.header
  rw [h.headerStop_eq]
  have hslice : source.slice b.start (lo - 1) = source.text.toList.extract b.start (lo - 1) := by
    rw [Source.slice, Array.toList_extract]
  constructor
  · obtain ⟨a, ha, hsolid⟩ := (Option.any_eq_true _ _).1 h.solid
    have hhead : (source.slice b.start (lo - 1)).head? = some a := by
      rw [hslice, List.extract_eq_take_drop, List.head?_take, if_neg (by omega), List.head?_drop,
        ha]
    obtain ⟨r, hr⟩ := List.head?_eq_some_iff.1 (head?_trimRight hhead (by simpa using hsolid))
    rw [hr, List.length_cons]
    omega
  · obtain ⟨bs, hbs, -⟩ := exists_trimRight_append (source.slice b.start (lo - 1))
    have hlength := congrArg List.length hbs
    rw [List.length_append, hslice, List.extract_eq_take_drop, List.length_take] at hlength
    rw [hslice, List.extract_eq_take_drop]
    omega

theorem inside_of_marks (h : b.LiesIn source.text.toList lo hi) {m : Match}
    (hm : b.Marks source m) : m.Inside source.text.size := by
  have hhi := h.stop_lt
  rw [Array.length_toList] at hhi
  cases hm with
  | @statement s hs =>
    have hstop := (h.accounts.inside s hs).2
    exact Match.inside_mk (h.accounts.shows s hs).start_lt_stop (by omega) _ _
  | header =>
    obtain ⟨hpos, hlt⟩ := h.length_header
    have hle := h.accounts.le
    exact Match.inside_mk (by omega) (by omega) _ _

end Block.LiesIn

/-! ## Answers of computations that can fail -/

/-- If the computation answers, its answer has the property. -/
def Yields {ε α : Type} (P : α → Prop) (x : Except ε α) : Prop :=
  ∀ a, x = .ok a → P a

section Yields

variable {ε α β : Type}

theorem yields_pure {P : α → Prop} {a : α} (h : P a) : Yields P (pure a : Except ε α) := by
  intro a' ha
  obtain rfl : a = a' := Except.ok.inj ha
  exact h

theorem yields_pure_nil {P : α → Prop} :
    Yields (fun xs => ∀ x ∈ xs, P x) (pure [] : Except ε (List α)) :=
  yields_pure fun _ hx => absurd hx List.not_mem_nil

theorem yields_true (x : Except ε α) : Yields (fun _ => True) x :=
  fun _ _ => trivial

theorem yields_bind {P : α → Prop} {Q : β → Prop} {x : Except ε α} {k : α → Except ε β}
    (hx : Yields P x) (hk : ∀ a, P a → Yields Q (k a)) : Yields Q (x >>= k) := by
  intro b hb
  cases hx' : x with
  | error e =>
    rw [hx'] at hb
    cases hb
  | ok a =>
    rw [hx'] at hb
    exact hk a (hx a hx') b hb

/-- What a traversal collects, it got from one of the elements. -/
theorem yields_mapM {P : α → β → Prop} {f : α → Except ε β} : ∀ {xs : List α},
    (∀ x ∈ xs, Yields (P x) (f x)) → Yields (fun ys => ∀ y ∈ ys, ∃ x ∈ xs, P x y) (xs.mapM f)
  | [], _ => yields_pure (by simp)
  | x :: xs, hf => by
    rw [List.mapM_cons]
    refine yields_bind (hf x List.mem_cons_self) fun y hy => ?_
    refine yields_bind (yields_mapM fun x' hx' => hf x' (List.mem_cons_of_mem _ hx'))
      fun ys hys => ?_
    refine yields_pure fun z hz => ?_
    rcases List.mem_cons.1 hz with rfl | hz
    · exact ⟨x, List.mem_cons_self, hy⟩
    · obtain ⟨x', hx', hz⟩ := hys z hz
      exact ⟨x', List.mem_cons_of_mem _ hx', hz⟩

/-- A traversal that answers for some of the elements only. -/
theorem yields_mapM_filterMap {P : β → Prop} {f : α → Except ε (Option β)} {xs : List α}
    (hf : ∀ x ∈ xs, Yields (fun o => ∀ y, o = some y → P y) (f x)) :
    Yields (fun os => ∀ y ∈ os.filterMap id, P y) (xs.mapM f) := by
  intro os hos y hy
  obtain ⟨o, ho, rfl⟩ := List.mem_filterMap.1 hy
  obtain ⟨x, -, hall⟩ := yields_mapM hf os hos _ ho
  exact hall y rfl

theorem yields_filterAuxM {f : α → Except ε Bool} : ∀ (xs found : List α),
    Yields (fun ys => ∀ y ∈ ys, y ∈ xs ∨ y ∈ found) (xs.filterAuxM f found)
  | [], found => yields_pure fun y hy => Or.inr hy
  | x :: xs, found => by
    rw [List.filterAuxM]
    refine yields_bind (yields_true _) fun keep _ ys hys y hy => ?_
    rcases yields_filterAuxM xs _ ys hys y hy with hmem | hmem
    · exact Or.inl (List.mem_cons_of_mem _ hmem)
    · cases keep with
      | false => exact Or.inr hmem
      | true =>
        rcases List.mem_cons.1 hmem with rfl | hmem
        · exact Or.inl List.mem_cons_self
        · exact Or.inr hmem

theorem yields_filterM {f : α → Except ε Bool} (xs : List α) :
    Yields (fun ys => ∀ y ∈ ys, y ∈ xs) (xs.filterM f) := by
  rw [List.filterM]
  refine yields_bind (yields_filterAuxM xs []) fun ys hys => yields_pure fun y hy => ?_
  rcases hys y (List.mem_reverse.1 hy) with hmem | hmem
  · exact hmem
  · exact absurd hmem List.not_mem_nil

end Yields

/-! ## One member after the other -/

namespace Detector

/-- All matches mark a statement or the header of a parsed member. -/
def MarksMembers (detect : Detector) : Prop :=
  ∀ source bs, Yields (fun ms => ∀ m ∈ ms, ∃ b ∈ bs, b.isParsed ∧ b.Marks source m)
    (detect source bs)

variable {f : Source → Block → Except DetectorFault (List Match)}

theorem yields_eachBlock {Q : Block → Match → Prop} {source : Source} {bs : List Block}
    (hf : ∀ b ∈ bs, Yields (fun ms => ∀ m ∈ ms, Q b m) (f source b)) :
    Yields (fun ms => ∀ m ∈ ms, ∃ b ∈ bs, Q b m) (eachBlock f source bs) := by
  refine yields_bind (yields_mapM hf) fun found hfound => yields_pure fun m hm => ?_
  obtain ⟨own, hown, hm⟩ := List.mem_flatten.1 hm
  obtain ⟨b, hb, hall⟩ := hfound own hown
  exact ⟨b, hb, hall m hm⟩

end Detector

/-! ## Statements of a member -/

namespace Block

variable {source : Source} {b : Block} {m : Match}

theorem marks_of_mem_map_matched {ss : List Statement} {id : String} {evidence : String}
    (hss : ∀ s ∈ ss, s ∈ b.statements) (hm : m ∈ ss.map (·.matched id evidence)) :
    b.Marks source m := by
  obtain ⟨s, hs, rfl⟩ := List.mem_map.1 hm
  exact .statement (hss s hs) _ _

theorem mem_of_mem_privilegedWrites {s : Statement} {target : String}
    (h : (s, target) ∈ b.privilegedWrites) : s ∈ b.statements ∧ s.target = some target := by
  obtain ⟨t, ht, heq⟩ := List.mem_filterMap.1 h
  split at heq
  next target' htarget =>
    split at heq
    · obtain ⟨rfl, rfl⟩ := Prod.mk.inj (Option.some.inj heq)
      exact ⟨ht, htarget⟩
    · cases heq
  next => cases heq

end Block

end ContractAudit
