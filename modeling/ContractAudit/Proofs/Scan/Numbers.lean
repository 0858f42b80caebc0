import ContractAudit.Proofs.Scan.Bounds

/-!
# Numbers on the page of a scan

The matches that a rule keeps start at different offsets of the source, so the length of the source
bounds how many findings a rule adds (`Rule.length_findings_le`). This bounds all that is counted on
the page of a scan by the built-in rules. Lines and columns are bounded by the length as well
(`Scan.natAbs_le_of_mem_markdownNumbers`). So the page is written, unless the source has a length of
thousands of digits (`Scan.markdown_ofSource`).
-/

namespace ContractAudit

/-! ## Findings -/

/-- Matches one behind the other start at different offsets. -/
theorem Match.length_le_of_pairwise : ∀ {ms : List Match} {lo hi : Int},
    ms.Pairwise (fun a b => a.behind ≤ b.start) → (∀ m ∈ ms, lo ≤ m.start ∧ m.start < hi) →
    lo ≤ hi → lo + ms.length ≤ hi
  | [], lo, hi, _, _, hle => by simpa using hle
  | m :: ms, lo, hi, hapart, hinside, _ => by
    obtain ⟨hbehind, hapart⟩ := List.pairwise_cons.1 hapart
    obtain ⟨⟨hlo, hhi⟩, hinside⟩ := List.forall_mem_cons.1 hinside
    have hlater : ∀ m' ∈ ms, m.start + 1 ≤ m'.start ∧ m'.start < hi := fun m' hm' =>
      ⟨Int.le_trans (Int.le_max_right _ _) (hbehind m' hm'), (hinside m' hm').2⟩
    have hlength := length_le_of_pairwise hapart hlater (by omega)
    rw [List.length_cons]
    omega

theorem Rule.StaysInside.startsInside {source : Source} {r : Rule} (h : r.StaysInside source) :
    r.StartsInside source := by
  intro xs m hxs hm
  obtain ⟨hnonneg, hlt, hle⟩ := h xs m hxs hm
  exact ⟨hnonneg, by omega⟩

theorem Rule.length_findings_le {source : Source} {r : Rule} (h : r.StartsInside source) :
    (r.findings source source.outline.blocks).length ≤ source.length + 1 := by
  obtain ⟨ms, hms, hapart, hinside⟩ := exists_findings_eq_map source r
  have hstarts : ∀ m ∈ ms, 0 ≤ m.start ∧ m.start < source.length + 1 := fun m hm =>
    ⟨(hinside h m hm).1, Int.lt_add_one_of_le (hinside h m hm).2⟩
  have hlength := Match.length_le_of_pairwise hapart hstarts (by omega)
  rw [hms, List.length_map]
  omega

namespace Scan

variable {source : Source} {options : ScanOptions} {catalog : Catalog} {token : Option Token}
  {cancelled : List Token}

theorem length_findings_le (h : ∀ r ∈ catalog.rules, r.StartsInside source) :
    (ofSource options catalog token cancelled source).1.findings.length ≤
      catalog.size * (source.length + 1) := by
  have hrules : ∀ {rs : List Rule}, (∀ r ∈ rs, r.StartsInside source) →
      (rs.flatMap (Rule.findings source source.outline.blocks)).length ≤
        rs.length * (source.length + 1) := by
    intro rs hrs
    induction rs with
    | nil => exact Nat.zero_le _
    | cons r rs ih =>
      obtain ⟨hr, hrs⟩ := List.forall_mem_cons.1 hrs
      have hle := Nat.add_le_add (Rule.length_findings_le hr) (ih hrs)
      rw [List.flatMap_cons, List.length_append, List.length_cons, Nat.succ_mul]
      omega
  obtain ⟨k, hperm⟩ := exists_findings_perm options catalog token cancelled source
  rw [hperm.length_eq]
  refine Nat.le_trans (hrules fun r hr => h r (List.mem_of_mem_take hr)) ?_
  exact Nat.mul_le_mul_right _ (List.length_take_le' _ _)

end Scan

/-! ## Sums and counts -/

namespace Summary

variable (fs : List Finding)

theorem natAbs_score_le : (of fs).score.natAbs ≤ 10 * fs.length := by
  have hfold : ∀ n, fs.foldl (fun n f => n + f.rule.severity.weight) n ≤ n + 10 * fs.length := by
    intro n
    induction fs generalizing n with
    | nil => exact Nat.le_refl _
    | cons f fs ih =>
      have hweight : f.rule.severity.weight ≤ 10 := by cases f.rule.severity <;> decide
      have hlater := ih (n + f.rule.severity.weight)
      rw [List.foldl_cons, List.length_cons]
      omega
  have hscore := hfold 0
  rwa [Nat.zero_add] at hscore

/-- What is counted by name is at most all of it. -/
theorem natAbs_count_le {α : Type} {xs : List α} {name : α → String} {count : α → Nat} {n : Nat}
    (h : ∀ x ∈ xs, count x ≤ n) (key : String) :
    (Tally.count (xs.map fun x => (name x, (count x : Int))) key).natAbs ≤ n := by
  unfold Tally.count
  cases hlookup : (xs.map fun x => (name x, (count x : Int))).lookup key with
  | none => exact Nat.zero_le n
  | some k =>
    obtain ⟨x, hx, heq⟩ := List.mem_map.1 (mem_of_lookup_eq_some hlookup)
    obtain ⟨-, rfl⟩ := Prod.mk.inj heq
    exact h x hx

end Summary

/-! ## Places -/

theorem LineIndex.natAbs_location_le (text : List Char) {o : Nat} (ho : o ≤ text.length) :
    ((LineIndex.of text).location o).line.natAbs ≤ text.length + 1 ∧
      ((LineIndex.of text).location o).column.natAbs ≤ text.length + 1 := by
  constructor
  · have hcount : (text.take o).count '\n' ≤ text.length :=
      Nat.le_trans List.count_le_length (List.length_take_le' _ _)
    rw [line_location]
    omega
  · obtain ⟨i, s, hcount, hs, hle⟩ := exists_start_le (starts_head text) o
    simp only [location, hcount, Nat.add_sub_cancel, hs, Option.getD_some]
    omega

theorem Source.natAbs_location_le (cs : List Char) (o : Int) :
    ((Source.ofChars cs).location o).line.natAbs ≤ cs.length + 1 ∧
      ((Source.ofChars cs).location o).column.natAbs ≤ cs.length + 1 :=
  LineIndex.natAbs_location_le cs (length_ofChars cs ▸ clamp_le _ o)

theorem Finding.natAbs_placeNumbers_le (rule : RuleInfo) (cs : List Char) (m : Match) :
    ∀ n ∈ (Finding.ofMatch rule (.ofChars cs) m).placeNumbers, n.natAbs ≤ cs.length + 1 := by
  simp only [placeNumbers, List.forall_mem_cons]
  exact ⟨(Source.natAbs_location_le cs _).1, (Source.natAbs_location_le cs _).2,
    (Source.natAbs_location_le cs _).1, (Source.natAbs_location_le cs _).2, List.forall_mem_nil _⟩

/-! ## Pages -/

/-- The numbers on a page that count findings are bounded by ten for each finding. -/
theorem Report.natAbs_le_of_mem_markdownNumbers {fs : List Finding} {metadata : Metadata}
    {bound : Nat} (hfindings : 10 * (Report.of fs metadata).findings.length ≤ bound)
    (hnoted : ∀ n ∈ metadata.notedNumbers, n.natAbs ≤ bound)
    (hplaces : ∀ f ∈ (Report.of fs metadata).findings, ∀ n ∈ f.placeNumbers, n.natAbs ≤ bound) :
    ∀ n ∈ (Report.of fs metadata).markdownNumbers, n.natAbs ≤ bound := by
  have hcategory : ∀ c : Category,
      (Tally.count (Report.of fs metadata).categories c.name).natAbs ≤
        (Report.of fs metadata).findings.length :=
    fun c => Summary.natAbs_count_le (fun _ _ => List.countP_le_length) _
  have hseverity : ∀ s : Severity,
      (Tally.count (Report.of fs metadata).severities s.name).natAbs ≤
        (Report.of fs metadata).findings.length :=
    fun s => Summary.natAbs_count_le (fun _ _ => List.countP_le_length) _
  simp only [markdownNumbers, List.forall_mem_append, List.forall_mem_cons, List.forall_mem_map,
    List.forall_mem_flatMap]
  refine ⟨⟨⟨⟨Nat.le_trans (Summary.natAbs_score_le _) hfindings, fun c _ => ?_⟩, fun s _ => ?_⟩,
    hnoted⟩, hplaces⟩
  · have hle := hcategory c
    omega
  · have hle := hseverity s
    omega

namespace Scan

variable {options : ScanOptions} {token : Option Token} {cancelled : List Token} {cs : List Char}

theorem length_builtin_findings_le :
    (ofSource options .builtin token cancelled (.ofChars cs)).1.findings.length ≤
      25 * (cs.length + 1) := by
  have hstarts : ∀ r ∈ Rule.builtin, r.StartsInside (.ofChars cs) := fun r hr =>
    (Rule.staysInside_of_mem_builtin hr cs).startsInside
  rw [← Source.length_ofChars cs]
  exact length_findings_le hstarts

theorem natAbs_notedNumbers_le {total : Nat} {p : Progress} {ending : Ending}
    (hrules : p.evaluated ≤ total) :
    ∀ n ∈ (metadata options total (.ofChars cs) p ending).notedNumbers,
      n.natAbs ≤ total + (cs.length + 1) := by
  rw [Metadata.notedNumbers, List.forall_mem_append, List.forall_mem_map]
  constructor
  · intro n hn
    split at hn
    · simp only [metadata, List.mem_cons, List.not_mem_nil, or_false] at hn
      omega
    · exact absurd hn List.not_mem_nil
  · intro u hu
    obtain ⟨b, -, hb⟩ := List.mem_filterMap.1 hu
    obtain ⟨fault, -, rfl⟩ := Option.map_eq_some_iff.1 hb
    exact Nat.le_trans (Source.natAbs_location_le cs b.start).1 (Nat.le_add_left _ _)

/-- No number on the page of a scan by the built-in rules is large. -/
theorem natAbs_le_of_mem_markdownNumbers :
    ∀ n ∈ (ofSource options .builtin token cancelled (.ofChars cs)).1.markdownNumbers,
      n.natAbs ≤ 250 * (cs.length + 1) := by
  have hfindings :
      10 * (ofSource options .builtin token cancelled (.ofChars cs)).1.findings.length ≤
      250 * (cs.length + 1) := by
    rw [show 250 = 10 * 25 from rfl, Nat.mul_assoc]
    exact Nat.mul_le_mul_left 10 length_builtin_findings_le
  have hplaces : ∀ f ∈ (ofSource options .builtin token cancelled (.ofChars cs)).1.findings,
      ∀ n ∈ f.placeNumbers, n.natAbs ≤ 250 * (cs.length + 1) := by
    intro f hf n hn
    obtain ⟨r, -, hf⟩ := exists_rule_of_mem_findings hf
    obtain ⟨-, m, -, -, rfl⟩ := Rule.found_of_mem_findings hf
    have hle := Finding.natAbs_placeNumbers_le _ cs m n hn
    omega
  obtain ⟨k, h⟩ := exists_stops (.ofChars cs) (Source.ofChars cs).outline.blocks
    (options.budgetFor (Source.ofChars cs).length) token Rule.builtin (.initial cancelled)
  have hrules : ((Progress.initial cancelled).after (.ofChars cs) (Source.ofChars cs).outline.blocks
      (Rule.builtin.take k)).evaluated ≤ 25 := by
    show 0 + (Rule.builtin.take k).length ≤ 25
    rw [Nat.zero_add]
    exact List.length_take_le' _ _
  rw [← h.progress] at hrules
  rw [ofSource_eq rfl] at hfindings hplaces ⊢
  refine Report.natAbs_le_of_mem_markdownNumbers hfindings (fun n hn => ?_) hplaces
  have hle := natAbs_notedNumbers_le hrules n hn
  omega

/-- The page is written, unless the source is too long. -/
theorem markdown_ofSource (h : 250 * (cs.length + 1) < writtenBound) :
    (ofSource options .builtin token cancelled (.ofChars cs)).1.markdown =
      .ok (ofSource options .builtin token cancelled (.ofChars cs)).1.markdownPage := by
  refine if_pos (List.all_eq_true.2 fun n hn => decide_eq_true ?_)
  exact Nat.lt_of_le_of_lt (natAbs_le_of_mem_markdownNumbers n hn) h

end Scan

end ContractAudit
