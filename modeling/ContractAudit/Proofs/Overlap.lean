import ContractAudit.Overlap
import ContractAudit.Proofs.Text.Halving

/-!
# Kept matches

What is kept of overlapping matches is among them (`mem_of_mem_dropOverlaps`), and the kept matches
of one rule stand one behind the other (`Apart`, `apart_keepWidest`). While matches are kept, those
already there stand so, and halving finds where among them a match belongs
(`startingBelow_eq_length`) : it is put there, unless the last one that starts before its end
reaches over its start (`toList_keep`).
-/

namespace ContractAudit

theorem mem_of_mem_keep {kept : Array Match} {m x : Match} (h : x ∈ keep kept m) :
    x ∈ kept ∨ x = m := by
  unfold keep at h
  split at h
  · exact Or.inl h
  · unfold Array.insertIdxIfInBounds at h
    split at h
    · exact (Array.mem_insertIdx.1 h).symm
    · exact Or.inl h

variable {x : Match}

theorem mem_of_mem_foldl_keep : ∀ (ms : List Match) (kept : Array Match),
    x ∈ ms.foldl keep kept → x ∈ kept ∨ x ∈ ms
  | [], _, h => Or.inl h
  | m :: ms, kept, h => by
    rcases mem_of_mem_foldl_keep ms (keep kept m) h with h | h
    · rcases mem_of_mem_keep h with h | rfl
      · exact Or.inl h
      · exact Or.inr List.mem_cons_self
    · exact Or.inr (List.mem_cons_of_mem m h)

variable {ms : List Match}

theorem mem_of_mem_keepWidest (h : x ∈ keepWidest ms) : x ∈ ms := by
  rcases mem_of_mem_foldl_keep _ _ (Array.mem_toList_iff.1 h) with h | h
  · simp at h
  · exact List.mem_mergeSort.1 h

/-- Only given matches are kept. -/
theorem mem_of_mem_dropOverlaps (h : x ∈ dropOverlaps ms) : x ∈ ms := by
  obtain ⟨id, -, hx⟩ := List.mem_flatMap.1 h
  exact (List.mem_filter.1 (mem_of_mem_keepWidest hx)).1

/-! ## Matches one behind the other -/

theorem Match.start_lt_behind (m : Match) : m.start < m.behind := by
  unfold behind
  omega

theorem Match.stop_le_behind (m : Match) : m.stop ≤ m.behind :=
  Int.le_max_left _ _

/-- The matches stand one behind the other. -/
def Apart (ms : List Match) : Prop :=
  ms.Pairwise fun a b => a.behind ≤ b.start

/-- Matches one behind the other are those that start below an offset and then the others. -/
theorem Apart.exists_append (x : Int) : ∀ {ms : List Match}, Apart ms →
    ∃ l₁ l₂, ms = l₁ ++ l₂ ∧ (∀ a ∈ l₁, a.start < x) ∧ ∀ a ∈ l₂, x ≤ a.start
  | [], _ => ⟨[], [], rfl, by simp, by simp⟩
  | m :: ms, h => by
    obtain ⟨hm, hms⟩ := List.pairwise_cons.1 h
    by_cases hx : m.start < x
    · obtain ⟨l₁, l₂, rfl, h₁, h₂⟩ := exists_append x hms
      exact ⟨m :: l₁, l₂, rfl, List.forall_mem_cons.2 ⟨hx, h₁⟩, h₂⟩
    · refine ⟨[], m :: ms, rfl, by simp, List.forall_mem_cons.2 ⟨Int.not_lt.1 hx, fun a ha => ?_⟩⟩
      have hle := hm a ha
      have hlt := m.start_lt_behind
      omega

/-- The last of them reaches farthest. -/
theorem Apart.behind_le (h : Apart ms) {x : Int}
    (hlast : ¬ ms.getLast?.any fun k => decide (x < k.behind)) : ∀ a ∈ ms, a.behind ≤ x := by
  intro a ha
  rcases List.eq_nil_or_concat ms with rfl | ⟨l, k, rfl⟩
  · exact absurd ha List.not_mem_nil
  · rw [List.concat_eq_append] at h ha hlast
    have hk : k.behind ≤ x := by simpa using hlast
    rcases List.mem_append.1 ha with ha | ha
    · have hle : a.behind ≤ k.start := (List.pairwise_append.1 h).2.2 a ha k (by simp)
      have hlt := k.start_lt_behind
      omega
    · rw [List.mem_singleton.1 ha]
      exact hk

/-! ## Keeping a match -/

variable {kept : Array Match} {m : Match} {l₁ l₂ : List Match}

theorem startingBelow_eq_length {x : Int} (hl : kept.toList = l₁ ++ l₂)
    (h₁ : ∀ a ∈ l₁, a.start < x) (h₂ : ∀ a ∈ l₂, x ≤ a.start) :
    startingBelow kept x = l₁.length := by
  have hsize : kept.size = l₁.length + l₂.length := by
    rw [← Array.length_toList, hl, List.length_append]
  refine (turns_firstFailing _ kept.size).eq (by omega) (fun i hi => ?_) fun i hi hlt => ?_
  · rw [← Array.getElem?_toList, hl, List.getElem?_append_left hi, List.getElem?_eq_getElem hi]
    simpa using h₁ _ (List.getElem_mem hi)
  · have hlt' : i - l₁.length < l₂.length := by omega
    rw [← Array.getElem?_toList, hl, List.getElem?_append_right hi, List.getElem?_eq_getElem hlt']
    simpa using h₂ _ (List.getElem_mem hlt')

theorem meetsKept_eq (hl : kept.toList = l₁ ++ l₂) (h₁ : ∀ a ∈ l₁, a.start < m.behind)
    (h₂ : ∀ a ∈ l₂, m.behind ≤ a.start) :
    meetsKept kept m = l₁.getLast?.any fun k => decide (m.start < k.behind) := by
  unfold meetsKept
  rw [startingBelow_eq_length hl h₁ h₂]
  rcases List.eq_nil_or_concat l₁ with rfl | ⟨l, k, rfl⟩
  · rfl
  · simp [← Array.getElem?_toList, hl]

theorem insertIdx_length_append (m : Match) (l₂ : List Match) :
    ∀ l₁ : List Match, (l₁ ++ l₂).insertIdx l₁.length m = l₁ ++ m :: l₂
  | [] => by simp
  | a :: l₁ => by simp [insertIdx_length_append m l₂ l₁]

/-- A match goes between those that start before its end and the others, unless the last of the
former reaches over its start. -/
theorem toList_keep (h : Apart kept.toList) (hl : kept.toList = l₁ ++ l₂)
    (h₁ : ∀ a ∈ l₁, a.start < m.behind) (h₂ : ∀ a ∈ l₂, m.behind ≤ a.start) :
    (keep kept m).toList =
      if l₁.getLast?.any fun k => decide (m.start < k.behind) then kept.toList else
        l₁ ++ m :: l₂ := by
  unfold keep
  rw [meetsKept_eq hl h₁ h₂]
  split
  · rfl
  next hmeets =>
    have hapart : Apart l₁ := (List.pairwise_append.1 (hl ▸ h)).1
    have hbefore := hapart.behind_le hmeets
    have hslot : startingBelow kept m.start = l₁.length := by
      refine startingBelow_eq_length hl (fun a ha => ?_) fun a ha => ?_
      · have hle := hbefore a ha
        have hlt := a.start_lt_behind
        omega
      · have hle := h₂ a ha
        have hlt := m.start_lt_behind
        omega
    have hsize : l₁.length ≤ kept.size := by
      rw [← Array.length_toList, hl, List.length_append]
      omega
    rw [hslot, Array.insertIdxIfInBounds, dif_pos hsize, Array.toList_insertIdx, hl,
      insertIdx_length_append]

/-- What is kept stays one behind the other. -/
theorem apart_keep (h : Apart kept.toList) (m : Match) : Apart (keep kept m).toList := by
  obtain ⟨l₁, l₂, hl, h₁, h₂⟩ := h.exists_append m.behind
  rw [toList_keep h hl h₁ h₂]
  split
  · exact h
  next hmeets =>
    rw [hl] at h
    obtain ⟨hapart₁, hapart₂, hcross⟩ := List.pairwise_append.1 h
    refine List.pairwise_append.2 ⟨hapart₁, List.pairwise_cons.2 ⟨h₂, hapart₂⟩, fun a ha b hb => ?_⟩
    rcases List.mem_cons.1 hb with rfl | hb
    · exact Apart.behind_le hapart₁ hmeets a ha
    · exact hcross a ha b hb

theorem apart_foldl_keep : ∀ (ms : List Match) {kept : Array Match}, Apart kept.toList →
    Apart (ms.foldl keep kept).toList
  | [], _, h => h
  | m :: ms, _, h => apart_foldl_keep ms (apart_keep h m)

/-- The kept matches of one rule stand one behind the other. -/
theorem apart_keepWidest (ms : List Match) : Apart (keepWidest ms) :=
  apart_foldl_keep _ List.Pairwise.nil

/-- Matches that name one rule are kept as those of one rule. -/
theorem dropOverlaps_of_ruleId {id : String} (h : ∀ m ∈ ms, m.ruleId = id) :
    dropOverlaps ms = keepWidest ms := by
  have hids : ∀ ms' : List Match, (∀ m ∈ ms', m.ruleId = id) →
      (ms'.map (·.ruleId)).filter (fun b => !b == id) = [] := by
    intro ms' h'
    simpa using h'
  cases ms with
  | nil => simp [dropOverlaps, keepWidest]
  | cons m ms =>
    obtain ⟨hm, hms⟩ := List.forall_mem_cons.1 h
    have hall : (m :: ms).filter (fun x => x.ruleId == id) = m :: ms :=
      List.filter_eq_self.2 fun x hx => beq_iff_eq.2 (h x hx)
    rw [dropOverlaps, List.map_cons, List.eraseDups_cons, hm, hids ms hms]
    simp [hall]

theorem dropOverlaps_singleton (m : Match) : dropOverlaps [m] = [m] := by
  have hkeep : (keep #[] m).toList = [m] :=
    toList_keep .nil (List.append_nil (#[] : Array Match).toList).symm
      (fun a ha => absurd ha List.not_mem_nil) (fun a ha => absurd ha List.not_mem_nil)
  rw [dropOverlaps_of_ruleId fun a ha => congrArg Match.ruleId (List.mem_singleton.1 ha),
    keepWidest, List.mergeSort_singleton, List.foldl_cons, List.foldl_nil, hkeep]

end ContractAudit
