import ContractAudit.Proofs.Scan.Order
import Mathlib.Data.List.Nodup

/-!
# The order of reports

A report lists its findings by five keys (`Finding.sortKey`), of which the severity counts downwards
and the others upwards (`Finding.Leads`). Findings that agree in all of them are tied in this order
(`Finding.tied_iff`), and stay as they were given. With distinct keys nothing is left to what was
given : all orders of the findings make the same report (`Report.of_ordered`).
-/

namespace ContractAudit

/-- The numbers of the characters of a text. -/
def codePoints (s : String) : List Nat :=
  s.toList.map Char.toNat

/-- A key decides where it differs, and leaves ties to the next one. -/
theorem isLE_compareLex {α κ : Type} [Ord κ] [Std.LawfulEqOrd κ] {f : α → κ}
    {next : α → α → Ordering} {x y : α} (h : (compareLex (compareOn f) next x y).isLE) :
    (Ord.compare (f x) (f y)).isLE ∧ (f x = f y → (next x y).isLE) := by
  have hthen : ((Ord.compare (f x) (f y)).then (next x y)).isLE := h
  rcases Ordering.isLE_then_iff_or.1 hthen with hlt | ⟨heq, hnext⟩
  · refine ⟨by rw [hlt]; rfl, fun hsame => ?_⟩
    rw [Std.compare_eq_iff_eq.2 hsame] at hlt
    cases hlt
  · exact ⟨by rw [heq]; rfl, fun _ => hnext⟩

theorem lex_codePoints {s t : String} (h : s < t) :
    List.Lex (· < ·) (codePoints s) (codePoints t) :=
  List.map_lt (fun _ _ hlt => hlt) h

namespace Finding

variable {a b : Finding}

/-- The first finding may stand in front of the second one : the graver goes first, then the one
that starts in an earlier line, then the one whose rule comes first by code points, and then the one
with the smaller offsets. -/
structure Leads (a b : Finding) : Prop where
  rank_le : b.rule.severity.rank ≤ a.rule.severity.rank
  line_le : a.rule.severity.rank = b.rule.severity.rank → a.first.line ≤ b.first.line
  id_le : a.rule.severity.rank = b.rule.severity.rank → a.first.line = b.first.line →
    a.rule.id = b.rule.id ∨ List.Lex (· < ·) (codePoints a.rule.id) (codePoints b.rule.id)
  start_le : a.rule.severity.rank = b.rule.severity.rank → a.first.line = b.first.line →
    a.rule.id = b.rule.id → a.start ≤ b.start
  stop_le : a.rule.severity.rank = b.rule.severity.rank → a.first.line = b.first.line →
    a.rule.id = b.rule.id → a.start = b.start → a.stop ≤ b.stop

theorem leads_of_before (h : before a b) : Leads a b := by
  obtain ⟨hrank, hnext⟩ := isLE_compareLex h
  have hrank : -(a.rule.severity.rank : Int) ≤ -(b.rule.severity.rank : Int) :=
    Std.isLE_compare.1 hrank
  -- What the order says once the keys in front of it agree.
  have hline (hr : a.rule.severity.rank = b.rule.severity.rank) :=
    isLE_compareLex (hnext (by rw [hr]))
  have hid (hr) (hl : a.first.line = b.first.line) := isLE_compareLex ((hline hr).2 hl)
  have hstart (hr hl) (hi : a.rule.id = b.rule.id) := isLE_compareLex ((hid hr hl).2 hi)
  refine ⟨by omega, fun hr => ?_, fun hr hl => ?_, fun hr hl hi => ?_, fun hr hl hi hs => ?_⟩
  · exact Std.isLE_compare.1 (hline hr).1
  · rcases Ordering.isLE_iff_eq_lt_or_eq_eq.1 (hid hr hl).1 with hlt | heq
    · exact Or.inr (lex_codePoints (compareOfLessAndEq_eq_lt.1 hlt))
    · exact Or.inl (Std.compare_eq_iff_eq.1 heq)
  · exact Std.isLE_compare.1 (hstart hr hl hi).1
  · exact Std.isLE_compare.1 ((hstart hr hl hi).2 hs)

/-! ## Sorting -/

theorem pairwise_sort (fs : List Finding) : (sort fs).Pairwise (before · ·) :=
  List.pairwise_mergeSort before_trans before_total fs

/-- Findings with the same keys stay as they were given. -/
theorem filter_sort (fs : List Finding) (f : Finding) :
    (sort fs).filter (·.sortKey = f.sortKey) = fs.filter (·.sortKey = f.sortKey) := by
  have hsort : (sort fs).filter (·.sortKey = f.sortKey) =
      sort (fs.filter (·.sortKey = f.sortKey)) :=
    filter_mergeSort before_trans before_total _ fs
  rw [hsort]
  refine List.mergeSort_of_pairwise (List.pairwise_of_forall_mem_list fun a ha b hb => ?_)
  have hkeys : a.sortKey = b.sortKey := by
    rw [of_decide_eq_true (List.mem_filter.1 ha).2, of_decide_eq_true (List.mem_filter.1 hb).2]
  exact ((Bool.and_eq_true _ _).mp (tied_iff.2 hkeys)).1

theorem sort_eq_of_perm {fs gs : List Finding} (hperm : gs.Perm fs)
    (hkeys : (fs.map sortKey).Nodup) : sort gs = sort fs := by
  have hmem : ∀ {hs : List Finding} {f : Finding}, f ∈ sort hs → f ∈ hs := List.mem_mergeSort.1
  have hsorted : (sort gs).Perm (sort fs) :=
    (List.mergeSort_perm ..).trans (hperm.trans (List.mergeSort_perm ..).symm)
  refine hsorted.eq_of_pairwise (fun a b ha hb hab hba => ?_) (pairwise_sort gs) (pairwise_sort fs)
  have htied : tied before a b := by simp [tied, hab, hba]
  exact List.inj_on_of_nodup_map hkeys (hperm.mem_iff.1 (hmem ha)) (hmem hb) (tied_iff.1 htied)

end Finding

/-- A report lists the findings it is made of, each in front of those it leads, and those with the
same keys as they were given. If no two findings have the same keys, their order does not count. -/
theorem Report.of_ordered (fs : List Finding) (metadata : Metadata) :
    (Report.of fs metadata).findings.Perm fs ∧
    (Report.of fs metadata).findings.Pairwise Finding.Leads ∧
    (∀ f : Finding, (Report.of fs metadata).findings.filter (·.sortKey = f.sortKey) =
      fs.filter (·.sortKey = f.sortKey)) ∧
    ∀ gs : List Finding, gs.Perm fs → (fs.map Finding.sortKey).Nodup →
      Report.of gs metadata = Report.of fs metadata := by
  refine ⟨List.mergeSort_perm .., ?_, Finding.filter_sort fs, fun gs hperm hkeys => ?_⟩
  · exact (Finding.pairwise_sort fs).imp Finding.leads_of_before
  · exact Report.of_eq_of_sort_eq (Finding.sort_eq_of_perm hperm hkeys) metadata

end ContractAudit
