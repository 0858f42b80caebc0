import ContractAudit.Proofs.Catalog
import ContractAudit.Proofs.Scan.Run
import ContractAudit.Proofs.StableSort

/-!
# The order of rules

What the rules add to a scan goes by the order in which they were registered, and the report sorts
it. Only what comes from one rule can be tied in the orders of reports
(`Finding.rule_id_eq_of_tied`, `RuleError.ruleId_eq_of_tied`), sorting keeps ties as they are, and
an id picks out one rule. So the report does not show the order of registration
(`scan_report_eq_of_perm`).
-/

namespace ContractAudit

/-! ## The orders of reports -/

namespace Finding

/-- May a finding stand before another in a report? -/
def before (a b : Finding) : Bool :=
  (a.compare b).isLE

instance : Std.TransCmp Finding.compare := by
  unfold Finding.compare
  infer_instance

theorem before_trans (a b c : Finding) (hab : before a b) (hbc : before b c) : before a c :=
  Std.TransCmp.isLE_trans hab hbc

theorem before_total (a b : Finding) : before a b || before b a := by
  rw [Bool.or_eq_true]
  refine Decidable.or_iff_not_imp_left.2 fun h => ?_
  have hlt : b.compare a = .lt := Std.OrientedCmp.lt_of_not_isLE h
  simp [before, hlt]

/-- The keys of the order, the weightiest first. -/
def sortKey (f : Finding) : Int × Int × String × Int × Int :=
  (-f.rule.severity.rank, f.first.line, f.rule.id, f.start, f.stop)

/-- Ties are findings that agree in all keys. -/
theorem tied_iff {a b : Finding} : tied before a b ↔ a.sortKey = b.sortKey := by
  have heq_iff : a.compare b = .eq ↔ a.sortKey = b.sortKey := by
    simp only [Finding.compare, compareLex_eq_eq, compareOn, Std.compare_eq_iff_eq, sortKey,
      Prod.mk.injEq]
  rw [← heq_iff]
  constructor
  · intro h
    obtain ⟨hab, hba⟩ := (Bool.and_eq_true _ _).mp h
    exact Std.OrientedCmp.isLE_antisymm hab hba
  · intro h
    have hsymm : b.compare a = .eq := Std.OrientedCmp.eq_symm h
    simp [tied, before, h, hsymm]

theorem rule_id_eq_of_tied {a b : Finding} (h : tied before a b) : a.rule.id = b.rule.id := by
  have hkeys := tied_iff.1 h
  simp only [sortKey, Prod.mk.injEq] at hkeys
  exact hkeys.2.2.1

end Finding

namespace RuleError

/-- May an error stand before another in a report? -/
def before (a b : RuleError) : Bool :=
  decide (a.ruleId ≤ b.ruleId)

theorem before_trans (a b c : RuleError) (hab : before a b) (hbc : before b c) : before a c :=
  decide_eq_true (String.le_trans (of_decide_eq_true hab) (of_decide_eq_true hbc))

theorem before_total (a b : RuleError) : before a b || before b a := by
  simpa [before] using String.le_total a.ruleId b.ruleId

theorem ruleId_eq_of_tied {a b : RuleError} (h : tied before a b) : a.ruleId = b.ruleId := by
  obtain ⟨hab, hba⟩ := (Bool.and_eq_true _ _).mp h
  exact String.le_antisymm (of_decide_eq_true hab) (of_decide_eq_true hba)

end RuleError

/-! ## What belongs to a rule -/

variable {source : Source}

namespace Rule

variable {blocks : List Block}

theorem rule_eq_of_mem_findings {r : Rule} {f : Finding} (h : f ∈ r.findings source blocks) :
    f.rule = r.toRuleInfo := by
  unfold findings at h
  split at h
  · cases h
  · obtain ⟨m, -, rfl⟩ := List.mem_map.1 h
    rfl

theorem id_eq_of_mem_findings (r : Rule) (f : Finding) (h : f ∈ r.findings source blocks) :
    f.rule.id = r.id :=
  congrArg RuleInfo.id (rule_eq_of_mem_findings h)

theorem ruleId_eq_of_mem_errors (r : Rule) (e : RuleError) (h : e ∈ r.errors source blocks) :
    e.ruleId = r.id := by
  unfold errors at h
  split at h
  · rw [List.mem_singleton.1 h]
  · cases h

end Rule

variable {rules rules' : List Rule}

section Items

variable {α : Type} {key : α → String} {items : Rule → List α}

/-- Items with one key come from the rules that go by it. -/
theorem filter_flatMap_of_key (hkey : ∀ r, ∀ x ∈ items r, key x = r.id) {id : String}
    {p : α → Bool} (hp : ∀ x, p x → key x = id) : ∀ rules : List Rule,
    (rules.flatMap items).filter p = ((rules.filter (·.id == id)).flatMap items).filter p
  | [] => rfl
  | r :: rules => by
    rw [List.flatMap_cons, List.filter_append, filter_flatMap_of_key hkey hp rules]
    by_cases hr : r.id = id
    · rw [List.filter_cons_of_pos (by simpa using hr), List.flatMap_cons, List.filter_append]
    · have hnone : (items r).filter p = [] :=
        List.filter_eq_nil_iff.2 fun x hx hpx => hr ((hkey r x hx).symm.trans (hp x hpx))
      rw [List.filter_cons_of_neg (by simpa using hr), hnone, List.nil_append]

/-- The rules that go by an id do not depend on the order of rules with distinct ids. -/
theorem filter_id_eq_of_perm (hids : (rules.map (·.id)).Nodup) (hperm : rules.Perm rules')
    (id : String) : rules.filter (·.id == id) = rules'.filter (·.id == id) := by
  have hids' : (rules'.map (·.id)).Nodup := (hperm.map _).nodup_iff.1 hids
  by_cases h : ∃ r ∈ rules, r.id = id
  · obtain ⟨r, hr, rfl⟩ := h
    rw [Catalog.filter_id_eq_singleton hids hr,
      Catalog.filter_id_eq_singleton hids' (hperm.mem_iff.1 hr)]
  · have hnone : ∀ r ∈ rules, ¬ (r.id == id) = true := by simpa using h
    rw [List.filter_eq_nil_iff.2 hnone,
      List.filter_eq_nil_iff.2 fun r hr => hnone r (hperm.mem_iff.2 hr)]

variable {le : α → α → Bool} (trans : ∀ a b c, le a b → le b c → le a c)
  (total : ∀ a b, le a b || le b a)

include trans total

/-- If ties have one key, the items of rules are sorted alike whatever the order of the rules. -/
theorem mergeSort_flatMap_eq_of_perm (hkey : ∀ r, ∀ x ∈ items r, key x = r.id)
    (htied : ∀ {a b}, tied le a b → key a = key b) (hids : (rules.map (·.id)).Nodup)
    (hperm : rules.Perm rules') :
    (rules.flatMap items).mergeSort le = (rules'.flatMap items).mergeSort le := by
  refine mergeSort_eq_of_ties_eq trans total fun a => ?_
  have hp : ∀ x, tied le a x → key x = key a := fun x hx => (htied hx).symm
  rw [filter_flatMap_of_key hkey hp rules, filter_flatMap_of_key hkey hp rules',
    filter_id_eq_of_perm hids hperm]

/-- The items of one rule are picked out of the sorted items of all rules. -/
theorem filter_mergeSort_flatMap (hkey : ∀ r, ∀ x ∈ items r, key x = r.id) {rules : List Rule}
    (hids : (rules.map (·.id)).Nodup) {r : Rule} (hr : r ∈ rules) :
    ((rules.flatMap items).mergeSort le).filter (key · == r.id) = (items r).mergeSort le := by
  have hown : (items r).filter (key · == r.id) = items r :=
    List.filter_eq_self.2 fun x hx => by simpa using hkey r x hx
  have hp : ∀ x, key x == r.id → key x = r.id := fun _ => beq_iff_eq.1
  rw [filter_mergeSort trans total, filter_flatMap_of_key hkey hp,
    Catalog.filter_id_eq_singleton hids hr, List.flatMap_singleton, hown]

end Items

/-! ## Reports -/

theorem Report.of_eq_of_sort_eq {fs fs' : List Finding} (h : Finding.sort fs = Finding.sort fs')
    (metadata : Metadata) : Report.of fs metadata = Report.of fs' metadata := by
  unfold Report.of
  rw [h]

theorem Finding.sort_findings_eq_of_perm (source : Source) (blocks : List Block)
    (hids : (rules.map (·.id)).Nodup) (hperm : rules.Perm rules') :
    Finding.sort (rules.flatMap (Rule.findings source blocks)) =
      Finding.sort (rules'.flatMap (Rule.findings source blocks)) :=
  mergeSort_flatMap_eq_of_perm Finding.before_trans Finding.before_total
    Rule.id_eq_of_mem_findings Finding.rule_id_eq_of_tied hids hperm

theorem RuleError.sort_errors_eq_of_perm (source : Source) (blocks : List Block)
    (hids : (rules.map (·.id)).Nodup) (hperm : rules.Perm rules') :
    (rules.flatMap (Rule.errors source blocks)).mergeSort RuleError.before =
      (rules'.flatMap (Rule.errors source blocks)).mergeSort RuleError.before :=
  mergeSort_flatMap_eq_of_perm RuleError.before_trans RuleError.before_total
    Rule.ruleId_eq_of_mem_errors RuleError.ruleId_eq_of_tied hids hperm

theorem Scan.metadata_after_eq_of_perm (options : ScanOptions) (source : Source)
    (cancelled : List Token) (ending : Scan.Ending) (hids : (rules.map (·.id)).Nodup)
    (hperm : rules.Perm rules') : Scan.metadata options rules.length source
        ((Scan.Progress.initial cancelled).after source source.outline.blocks rules) ending =
      Scan.metadata options rules'.length source
        ((Scan.Progress.initial cancelled).after source source.outline.blocks rules') ending := by
  have herrors := RuleError.sort_errors_eq_of_perm source source.outline.blocks hids hperm
  unfold RuleError.before at herrors
  simp only [Scan.metadata, Scan.Progress.after, Scan.Progress.initial, List.nil_append,
    hperm.length_eq, herrors]

theorem Scan.ofSource_report_eq_of_perm {options : ScanOptions} (hids : (rules.map (·.id)).Nodup)
    (hperm : rules.Perm rules') (hbudget : Scan.Affords options source rules.length)
    (cancelled : List Token) : (Scan.ofSource options ⟨rules⟩ none cancelled source).1 =
      (Scan.ofSource options ⟨rules'⟩ none cancelled source).1 := by
  have hbudget' : Scan.Affords options source (Catalog.size ⟨rules'⟩) := by
    rwa [Catalog.size, ← hperm.length_eq]
  rw [Scan.ofSource_of_affords (Scan.uncancelled_none ..) hbudget,
    Scan.ofSource_of_affords (Scan.uncancelled_none ..) hbudget',
    Report.of_eq_of_sort_eq (Finding.sort_findings_eq_of_perm _ _ hids hperm)]
  exact congrArg (Report.of _)
    (Scan.metadata_after_eq_of_perm options source cancelled .complete hids hperm)

/-- Rules with distinct ids can be registered in any order : without a token and with the budget for
all of them, the report is the same. -/
theorem scan_report_eq_of_perm (options : ScanOptions) (cancelled : List Token) (text : String)
    {rules rules' : List Rule} {catalog : Catalog} (hcatalog : Catalog.ofRules rules = .ok catalog)
    (hperm : rules.Perm rules')
    (hbudget : Scan.Affords options (.ofChars text.toList) catalog.size) :
    ∃ catalog', Catalog.ofRules rules' = .ok catalog' ∧
      (scan options catalog none cancelled text).map (·.1) =
        (scan options catalog' none cancelled text).map (·.1) := by
  obtain ⟨hids, rfl⟩ := Catalog.ofRules_eq_ok_iff.1 hcatalog
  have hids' : (rules'.map (·.id)).Nodup := (hperm.map _).nodup_iff.1 hids
  refine ⟨⟨rules'⟩, Catalog.ofRules_eq_ok_iff.2 ⟨hids', rfl⟩, ?_⟩
  by_cases hsize : options.sizeLimit < text.length
  · rw [scan_eq_error hsize, scan_eq_error hsize]
  · have hsize : text.length ≤ options.sizeLimit := Int.not_lt.1 hsize
    rw [scan_eq_ofSource hsize, scan_eq_ofSource hsize]
    exact congrArg Except.ok (Scan.ofSource_report_eq_of_perm hids hperm hbudget cancelled)

/-- Three rules that speak of one line : two of the same severity, and one that fails. -/
def Rule.onOneLine : List Rule :=
  [.constant "late" .high ⟨.items [.found ⟨"late", 0, 8, none⟩], []⟩,
    .constant "broken" .low ⟨.items [.found ⟨"broken", 0, 8, none⟩, .alien "int"], []⟩,
    .constant "early" .high ⟨.items [.found ⟨"late", 9, 10, none⟩, .found ⟨"early", 0, 8, none⟩],
      []⟩]

theorem Catalog.ofRules_onOneLine : Catalog.ofRules Rule.onOneLine = .ok ⟨Rule.onOneLine⟩ :=
  Catalog.ofRules_eq_ok_iff.2 ⟨by decide, rfl⟩

theorem Scan.affords_onOneLine :
    Scan.Affords .unset (.ofChars "contract C;".toList) (Catalog.size ⟨Rule.onOneLine⟩) := by
  decide +kernel

/-- The three rules may be registered the other way round. -/
theorem scan_report_eq_reverse_onOneLine :
    ∃ catalog', Catalog.ofRules Rule.onOneLine.reverse = .ok catalog' ∧
      (scan .unset ⟨Rule.onOneLine⟩ none [] "contract C;").map (·.1) =
        (scan .unset catalog' none [] "contract C;").map (·.1) :=
  scan_report_eq_of_perm .unset [] "contract C;" Catalog.ofRules_onOneLine
    (List.reverse_perm _).symm Scan.affords_onOneLine

end ContractAudit
