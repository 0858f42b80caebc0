import Mathlib.Algebra.BigOperators.Group.List.Basic
import Mathlib.Algebra.Ring.Int.Defs
import Mathlib.Data.List.Nodup
import Mathlib.Data.List.Perm.Basic
import ContractAudit.Report.Markdown

/-!
# What findings add up to

The order of findings does not count (`Summary.of_perm`), so a finding that is put in anywhere
counts as if it were put in front. A level is judged by numbers, and higher numbers give no lower
level (`RiskLevel.rank_judge_le`). Over all severities or categories the numbers add up to the
number of findings, and weighted they add up to the score (`sum_weighted_counts`).
-/

namespace ContractAudit

/-! ## Levels -/

namespace RiskLevel

/-- The rank of the level that goes by the label. -/
def rankOfLabel (label : String) : Except UnknownLabel Nat :=
  (ofLabel label).map rank

theorem rankOfLabel_label (l : RiskLevel) : rankOfLabel l.label = .ok l.rank := by
  cases l <;> decide

/-- The bound that is reached first, from the gravest severity on, gives the level. -/
theorem judge_eq {m : Type → Type} [Monad m] [LawfulMonad m] (count : Severity → Int)
    (anything : Bool) : judge (fun s => (pure (count s) : m Int)) anything =
      pure (if 0 < count .critical then critical
        else if 3 ≤ count .high then high
        else if 1 ≤ count .high ∨ 5 ≤ count .medium then medium
        else if anything then low else clear) := by
  simp only [judge, pure_bind]
  grind

/-- Higher numbers give no lower level. -/
theorem rank_judge_le {count count' : Severity → Int} {anything anything' : Bool}
    (hcount : ∀ s, count s ≤ count' s) (hanything : anything → anything') :
    (Id.run (judge (fun s => pure (count s)) anything)).rank ≤
      (Id.run (judge (fun s => pure (count' s)) anything')).rank := by
  have hcritical := hcount .critical
  have hhigh := hcount .high
  have hmedium := hcount .medium
  rw [judge_eq, judge_eq, Id.run_pure, Id.run_pure]
  -- A bound that is reached is reached by the higher numbers too, so these stop no later.
  split
  next hcrit =>
    have hcrit' : 0 < count' .critical := by omega
    exact Nat.le_of_eq (congrArg rank (if_pos hcrit')).symm
  split
  next hgrave =>
    have hgrave' : 3 ≤ count' .high := by omega
    rw [if_pos hgrave']
    split <;> decide
  split
  next hmore =>
    have hmore' : 1 ≤ count' .high ∨ 5 ≤ count' .medium := by omega
    rw [if_pos hmore']
    repeat' split
    all_goals decide
  split
  next hany =>
    rw [if_pos (hanything hany)]
    repeat' split
    all_goals decide
  next => exact Nat.zero_le _

end RiskLevel

/-! ## Numbers -/

/-- What is counted under each of some keys adds up, each key with its weight, to the weights of all
that there is. -/
theorem sum_weighted_counts {α β : Type} [DecidableEq β] (key : α → β) (weight : β → Int)
    {keys : List β} (hnodup : keys.Nodup) (hkeys : ∀ b, b ∈ keys) : ∀ xs : List α,
    (keys.map fun b => weight b * (xs.countP (key · == b) : Int)).sum =
      (xs.map fun x => weight (key x)).sum
  | [] => by simp
  | x :: xs => by
    have hsplit (b : β) : weight b * ((x :: xs).countP (key · == b) : Int) =
        weight b * (xs.countP (key · == b) : Int) + if key x = b then weight b else 0 := by
      by_cases hb : key x = b
      · simp [hb, Int.mul_add]
      · simp [hb]
    have hsingle : (keys.map fun b => if key x = b then weight b else 0).sum = weight (key x) := by
      rw [List.sum_map_eq_nsmul_single (key x) _ fun b hb _ => if_neg fun h => hb h.symm,
        List.count_eq_one_of_mem hnodup (hkeys _), one_nsmul, if_pos rfl]
    simp only [hsplit]
    rw [List.sum_map_add, sum_weighted_counts key weight hnodup hkeys xs, hsingle, List.map_cons,
      List.sum_cons, Int.add_comm]

/-- What is counted under each key adds up to all that there is. -/
theorem sum_counts {α β : Type} [DecidableEq β] (key : α → β) {keys : List β} (hnodup : keys.Nodup)
    (hkeys : ∀ b, b ∈ keys) (xs : List α) :
    (keys.map fun b => (xs.countP (key · == b) : Int)).sum = xs.length := by
  have h := sum_weighted_counts key (fun _ => 1) hnodup hkeys xs
  simpa using h

namespace Severity

theorem nodup_all : all.Nodup := by decide

theorem mem_all (s : Severity) : s ∈ all := by cases s <;> decide

end Severity

namespace Category

theorem nodup_all : all.Nodup := by decide

theorem mem_all (c : Category) : c ∈ all := by cases c <;> decide

end Category

namespace Summary

/-- The order of findings does not count. -/
theorem of_perm {fs gs : List Finding} (h : gs.Perm fs) : of gs = of fs := by
  have hscore : gs.foldl (fun n f => n + f.rule.severity.weight) 0 =
      fs.foldl (fun n f => n + f.rule.severity.weight) 0 :=
    h.foldl_eq' (fun f _ g _ n => Nat.add_right_comm ..) 0
  have hseverity (s : Severity) : severityCount gs s = severityCount fs s := h.countP_eq _
  have hcategory (c : Category) : categoryCount gs c = categoryCount fs c := h.countP_eq _
  have hempty : gs.isEmpty = fs.isEmpty := h.isEmpty_eq
  simp only [of, hscore, hseverity, hcategory, hempty]

/-- The weights of the findings add up to the score. -/
theorem score_eq_sum (fs : List Finding) :
    (of fs).score = (fs.map fun f => (f.rule.severity.weight : Int)).sum := by
  have hfold : ∀ (fs : List Finding) (n : Nat),
      (fs.foldl (fun n f => n + f.rule.severity.weight) n : Nat) =
      (n : Int) + (fs.map fun f => (f.rule.severity.weight : Int)).sum := by
    intro fs
    induction fs with
    | nil => simp
    | cons f fs ih =>
      intro n
      rw [List.foldl_cons, ih, List.map_cons, List.sum_cons, Int.natCast_add, Int.add_assoc]
  exact (hfold fs 0).trans (Int.zero_add _)

theorem score_cons (f : Finding) (fs : List Finding) :
    (of (f :: fs)).score = f.rule.severity.weight + (of fs).score := by
  rw [score_eq_sum, score_eq_sum, List.map_cons, List.sum_cons]

/-- One more finding gives no lower level. -/
theorem rank_level_le (f : Finding) (fs : List Finding) :
    (of fs).level.rank ≤ (of (f :: fs)).level.rank := by
  refine RiskLevel.rank_judge_le (fun s => Int.ofNat_le.2 ?_) fun _ => rfl
  exact (List.sublist_cons_self f fs).countP_le

/-- One critical finding makes the risk critical. -/
theorem level_of_critical {fs : List Finding} {f : Finding} (hf : f ∈ fs)
    (h : f.rule.severity = .critical) : (of fs).level = .critical := by
  have hcount : 0 < severityCount fs .critical := List.countP_pos_iff.2 ⟨f, hf, by rw [h]; rfl⟩
  have hpos : (0 : Int) < severityCount fs .critical := Int.natCast_pos.2 hcount
  exact if_pos hpos

theorem lookup_severities (fs : List Finding) (s : Severity) :
    (of fs).severities.lookup s.name = some (severityCount fs s : Int) := by
  cases s <;> rfl

/-- Some number by severity is not zero if there are findings. -/
theorem any_severities (fs : List Finding) :
    ((of fs).severities.any fun (_, n) => n != 0) = !fs.isEmpty := by
  cases fs with
  | nil => rfl
  | cons f fs =>
    have hpos : 0 < severityCount (f :: fs) f.rule.severity :=
      List.countP_pos_iff.2 ⟨f, List.mem_cons_self, beq_self_eq_true _⟩
    rw [of, List.any_map]
    exact List.any_eq_true.2 ⟨_, Severity.mem_all f.rule.severity, by simpa using Nat.ne_of_gt hpos⟩

/-- The level is the one for the numbers by severity. -/
theorem ofTally_severities (fs : List Finding) :
    RiskLevel.ofTally (of fs).severities = .ok (of fs).level := by
  have hlevel : (of fs).level =
      Id.run (RiskLevel.judge (fun s => pure (severityCount fs s)) (!fs.isEmpty)) := rfl
  rw [hlevel, RiskLevel.judge_eq, Id.run_pure]
  unfold RiskLevel.ofTally
  simp only [lookup_severities, any_severities]
  exact RiskLevel.judge_eq _ _

/-- A summary does not go by the order of the findings, and one more finding, wherever it is put in,
raises the score and does not lower the level. The numbers add up to the number of findings and,
with the weights of the severities, to the score. -/
theorem of_monotone_orderFree (fs : List Finding) :
    (∀ (f : Finding) (i : Nat), i ≤ fs.length →
      (of fs).score < (of (fs.insertIdx i f)).score ∧
      ∃ m n, RiskLevel.rankOfLabel (of fs).level.label = .ok m ∧
        RiskLevel.rankOfLabel (of (fs.insertIdx i f)).level.label = .ok n ∧ m ≤ n ∧
        (f.rule.severity = .critical → ∀ l : RiskLevel, l.rank ≤ n)) ∧
    (∀ gs : List Finding, gs.Perm fs → of gs = of fs) ∧
    ((of fs).categories.map Prod.snd).sum = fs.length ∧
    ((of fs).severities.map Prod.snd).sum = fs.length ∧
    (of fs).score = 10 * Tally.count (of fs).severities "critical" +
      5 * Tally.count (of fs).severities "high" +
      2 * Tally.count (of fs).severities "medium" + Tally.count (of fs).severities "low" ∧
    RiskLevel.ofTally (of fs).severities = .ok (of fs).level := by
  refine ⟨fun f i hi => ?_, fun gs => of_perm, ?_, ?_, ?_, ofTally_severities fs⟩
  · rw [of_perm (List.perm_insertIdx f fs hi)]
    have hweight : 0 < f.rule.severity.weight := by cases f.rule.severity <;> decide
    refine ⟨by
      rw [score_cons]; omega, _, _, RiskLevel.rankOfLabel_label _, RiskLevel.rankOfLabel_label _,
        rank_level_le f fs, fun hcritical l => ?_⟩
    rw [level_of_critical List.mem_cons_self hcritical]
    cases l <;> decide
  · have hsum :=
      sum_counts (fun f : Finding => f.rule.category) Category.nodup_all Category.mem_all fs
    rw [of, List.map_map]
    exact hsum
  · have hsum :=
      sum_counts (fun f : Finding => f.rule.severity) Severity.nodup_all Severity.mem_all fs
    rw [of, List.map_map]
    exact hsum
  · have hsum :=
      sum_weighted_counts (fun f : Finding => f.rule.severity) (fun s => (s.weight : Int))
      Severity.nodup_all Severity.mem_all fs
    have hcount (s : Severity) : Tally.count (of fs).severities s.name = severityCount fs s :=
      congrArg (Option.getD · 0) (lookup_severities fs s)
    have hcritical := hcount .critical
    have hhigh := hcount .high
    have hmedium := hcount .medium
    have hlow := hcount .low
    simp only [Severity.name] at hcritical hhigh hmedium hlow
    rw [score_eq_sum, ← hsum, hcritical, hhigh, hmedium, hlow]
    simp only [Severity.all, Severity.weight, severityCount, List.map_cons, List.map_nil,
      List.sum_cons, List.sum_nil]
    omega

end Summary

end ContractAudit
