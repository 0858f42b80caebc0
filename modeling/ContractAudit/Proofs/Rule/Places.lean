import Mathlib.Data.List.Forall2
import ContractAudit.Proofs.Rule.Answers

/-!
# Statements by their places

`Block.places` lists the statements of members, one member after the other, each by its index. A
detector that asks about the places of each parsed member (`Detector.Asks`) finds, in this order,
one match for each place with a property, if it answers at just these (`Detector.Asks.finds`).
-/

namespace ContractAudit

/-- The statements of the members, each by its member and its index there. -/
def Block.places (bs : List Block) : List (Block × Nat) :=
  bs.flatMap fun b => (List.range b.statements.length).map (b, ·)

theorem Block.places_cons (b : Block) (bs : List Block) :
    places (b :: bs) = (List.range b.statements.length).map (b, ·) ++ places bs :=
  List.flatMap_cons

/-- A search that answers at the elements with a property collects one answer for each of them. -/
theorem forall₂_filter_filterMap {α β : Type} {R : α → β → Prop} {P : α → Prop} [DecidablePred P]
    {f : α → Option β} : ∀ {xs : List α},
      (∀ x ∈ xs, P x ∧ (∃ y, f x = some y ∧ R x y) ∨ ¬P x ∧ f x = none) →
        List.Forall₂ R (xs.filter P) (xs.filterMap f)
  | [], _ => .nil
  | x :: xs, h => by
    have hxs := forall₂_filter_filterMap fun x' hx' => h x' (List.mem_cons_of_mem x hx')
    rcases h x List.mem_cons_self with ⟨hP, y, hy, hR⟩ | ⟨hP, hnone⟩
    · rw [List.filter_cons, if_pos (decide_eq_true hP), List.filterMap_cons_some hy]
      exact .cons hR hxs
    · rw [List.filter_cons, if_neg (by simpa using hP), List.filterMap_cons_none hnone]
      exact hxs

namespace Detector

/-- A detector that never fails in a member collects what it finds in the parsed ones. -/
theorem eachParsed_pure (f : Source → Block → List Match) (source : Source) : ∀ bs : List Block,
    eachParsed (fun s b => pure (f s b)) source bs =
      .ok (bs.flatMap fun b => if b.isParsed then f source b else [])
  | [] => rfl
  | b :: bs => by
    have hb : eachParsed (fun s b => pure (f s b)) source [b] =
        .ok (if b.isParsed then f source b else []) := by
      simp only [eachParsed, eachBlock, List.mapM_cons, List.mapM_nil]
      split
      · exact congrArg Except.ok (List.append_nil _)
      · rfl
    rw [List.flatMap_cons]
    exact eachBlock_cons hb (eachParsed_pure f source bs)

theorem eachEntryPoint_pure (f : Source → Block → List Match) (source : Source) (bs : List Block) :
    eachEntryPoint (fun s b => pure (f s b)) source bs =
      .ok (bs.flatMap fun b =>
        if b.isParsed && (b.isEntryPoint && !b.isView) then f source b else []) := by
  have hpure : (fun (s : Source) (b : Block) => if b.isEntryPoint && !b.isView then
      (pure (f s b) : Except DetectorFault (List Match)) else pure []) =
      fun s b => pure (if b.isEntryPoint && !b.isView then f s b else []) := by
    funext s b
    exact (apply_ite pure _ _ _).symm
  rw [eachEntryPoint, hpure, eachParsed_pure]
  refine congrArg Except.ok (congrArg bs.flatMap (funext fun b => ?_))
  cases b.isParsed <;> rfl

/-- In each parsed member the detector asks about one place after the other. -/
def Asks (detect : Detector) (at? : Source → Block → Nat → Option Match) : Prop :=
  ∀ source bs, detect source bs = .ok (bs.flatMap fun b =>
    if b.isParsed then (List.range b.statements.length).filterMap (at? source b) else [])

variable {detect : Detector} {at? : Source → Block → Nat → Option Match} {source : Source}

/-- A detector that answers at just the places with a property finds one match for each of them. -/
theorem Asks.finds (hasks : detect.Asks at?) {P : Block × Nat → Prop} [DecidablePred P]
    {R : Block × Nat → Match → Prop} (hparsed : ∀ b i, P (b, i) → b.isParsed)
    (hat : ∀ b i, b.isParsed → i < b.statements.length →
      P (b, i) ∧ (∃ m, at? source b i = some m ∧ R (b, i) m) ∨ ¬P (b, i) ∧ at? source b i = none)
    (bs : List Block) :
    ∃ ms, detect source bs = .ok ms ∧ List.Forall₂ R ((Block.places bs).filter P) ms := by
  refine ⟨_, hasks source bs, ?_⟩
  induction bs with
  | nil => exact .nil
  | cons b bs ih =>
    rw [Block.places_cons, List.filter_append, List.flatMap_cons]
    refine List.rel_append ?_ ih
    cases hb : b.isParsed with
    | false =>
      have hnone : ((List.range b.statements.length).map (b, ·)).filter P = [] := by
        refine List.filter_eq_nil_iff.2 fun p hp => ?_
        obtain ⟨i, -, rfl⟩ := List.mem_map.1 hp
        simpa using fun h => Bool.false_ne_true (hb.symm.trans (hparsed b i h))
      rw [hnone]
      exact .nil
    | true =>
      rw [List.filter_map, List.forall₂_map_left_iff]
      exact forall₂_filter_filterMap fun i hi => hat b i hb (List.mem_range.1 hi)

end Detector

end ContractAudit
