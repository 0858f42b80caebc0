import Mathlib.Data.List.Perm.Subperm
import ContractAudit.Proofs.Overlap.Greedy

/-!
# What the choice of matches guarantees

Every match overlaps a kept one of its rule that precedes it (`exists_keepFree`) : it was kept
itself, or dropped because of one taken before it, and matches that were dropped make no others be
dropped. So the kept matches are a choice in which nothing is missing (`Thins`), and choosing among
them again keeps them all (`dropOverlaps_thins`). Which ranges are kept depends on the given ranges
only, and matches are taken in an order in which different ranges are never tied. So the order in
which the matches are given does not matter for the ranges (`dropOverlaps_ranges_eq_of_perm`).
-/

namespace ContractAudit

variable {a b : Match}

namespace Match

theorem overlaps_self (m : Match) : m.Overlaps m :=
  ⟨m.start_lt_behind, m.start_lt_behind⟩

theorem Overlaps.symm (h : a.Overlaps b) : b.Overlaps a :=
  ⟨h.2, h.1⟩

theorem precedes_self (m : Match) : m.Precedes m :=
  Or.inr ⟨rfl, Or.inr ⟨rfl, Int.le_refl _⟩⟩

theorem Precedes.trans {a b c : Match} (hab : a.Precedes b) (hbc : b.Precedes c) :
    a.Precedes c := by
  unfold Precedes at *
  omega

theorem precedes_total (a b : Match) : a.Precedes b ∨ b.Precedes a := by
  unfold Precedes
  omega

theorem not_overlaps_of_behind_le (h : a.behind ≤ b.start) : ¬ a.Overlaps b :=
  fun hover => Int.not_lt.2 h hover.2

end Match

/-! ## One rule -/

theorem sublist_keepFree : ∀ kept ms : List Match, (keepFree kept ms).Sublist ms
  | _, [] => .refl _
  | kept, m :: ms => by
    rw [keepFree]
    split
    · exact (sublist_keepFree kept ms).cons m
    · exact (sublist_keepFree (m :: kept) ms).cons_cons m

/-- Every match overlaps one that precedes it among those that are kept. -/
theorem exists_keepFree : ∀ {kept ms : List Match}, (∀ k ∈ kept, ∀ m ∈ ms, k.Precedes m) →
    ms.Pairwise Match.Precedes → ∀ x ∈ ms, ∃ y, (y ∈ kept ∨ y ∈ keepFree kept ms) ∧
      y.Overlaps x ∧ y.Precedes x
  | _, [], _, _, x, hx => absurd hx List.not_mem_nil
  | kept, m :: ms, hkept, hms, x, hx => by
    obtain ⟨hm, hms⟩ := List.pairwise_cons.1 hms
    rw [keepFree]
    split
    next hany =>
      rcases List.mem_cons.1 hx with rfl | hx
      · obtain ⟨k, hk, hover⟩ := List.any_eq_true.1 hany
        exact ⟨k, Or.inl hk, (of_decide_eq_true hover).symm, hkept k hk x List.mem_cons_self⟩
      · exact exists_keepFree (fun k hk m' hm' =>
          hkept k hk m' (List.mem_cons_of_mem m hm')) hms x hx
    next =>
      have hcons : ∀ k ∈ m :: kept, ∀ m' ∈ ms, k.Precedes m' :=
        List.forall_mem_cons.2 ⟨hm, fun k hk m' hm' => hkept k hk m' (List.mem_cons_of_mem m hm')⟩
      rcases List.mem_cons.1 hx with rfl | hx
      · exact ⟨x, Or.inr List.mem_cons_self, x.overlaps_self, x.precedes_self⟩
      · obtain ⟨y, hy, hover⟩ := exists_keepFree hcons hms x hx
        refine ⟨y, ?_, hover⟩
        rcases hy with hy | hy
        · rcases List.mem_cons.1 hy with rfl | hy
          · exact Or.inr List.mem_cons_self
          · exact Or.inl hy
        · exact Or.inr (List.mem_cons_of_mem m hy)

/-- Of matches that do not overlap all are kept. -/
theorem keepFree_eq_self : ∀ {kept ms : List Match}, (∀ m ∈ ms, ∀ k ∈ kept, ¬ m.Overlaps k) →
    ms.Pairwise (fun a b => ¬ a.Overlaps b) → keepFree kept ms = ms
  | _, [], _, _ => rfl
  | kept, m :: ms, hkept, hms => by
    obtain ⟨hm, hms⟩ := List.pairwise_cons.1 hms
    obtain ⟨hfree, hkept⟩ := List.forall_mem_cons.1 hkept
    have hany : ¬ (kept.any fun k => m.Overlaps k) = true := by simpa using hfree
    rw [keepFree, if_neg hany, keepFree_eq_self (fun m' hm' => ?_) hms]
    exact List.forall_mem_cons.2 ⟨fun hover => hm m' hm' hover.symm, hkept m' hm'⟩

theorem pairwise_byWidth (ms : List Match) : (byWidth ms).Pairwise Match.Precedes := by
  have htrans : ∀ a b c : Match, decide (a.Precedes b) → decide (b.Precedes c) →
      decide (a.Precedes c) :=
    fun a b c hab hbc => decide_eq_true ((of_decide_eq_true hab).trans (of_decide_eq_true hbc))
  have htotal : ∀ a b : Match, decide (a.Precedes b) || decide (b.Precedes a) := fun a b => by
    simpa using a.precedes_total b
  exact (List.pairwise_mergeSort htrans htotal ms).imp of_decide_eq_true

theorem subperm_keepWidest (ms : List Match) : (keepWidest ms).Subperm ms :=
  ((perm_keepWidest ms).subperm.trans (sublist_keepFree [] (byWidth ms)).subperm).trans
    (List.mergeSort_perm ms _).subperm

variable {ms : List Match}

theorem exists_keepWidest {x : Match} (hx : x ∈ ms) :
    ∃ y ∈ keepWidest ms, y.Overlaps x ∧ y.Precedes x := by
  obtain ⟨y, hy | hy, hover⟩ := exists_keepFree (fun k hk => absurd hk List.not_mem_nil)
    (pairwise_byWidth ms) x (List.mem_mergeSort.2 hx)
  · exact absurd hy List.not_mem_nil
  · exact ⟨y, (perm_keepWidest ms).mem_iff.2 hy, hover⟩

theorem keepWidest_of_apart (h : Apart ms) : keepWidest ms = ms := by
  have hperm : (byWidth ms).Perm ms := List.mergeSort_perm ms _
  have hfree : (byWidth ms).Pairwise fun a b => ¬ a.Overlaps b := by
    refine (hperm.pairwise_iff fun hab hover => hab hover.symm).2 ?_
    exact h.imp Match.not_overlaps_of_behind_le
  refine (apart_keepWidest ms).eq_of_perm h ((perm_keepWidest ms).trans ?_)
  rw [keepFree_eq_self (by simp) hfree]
  exact hperm

/-- The first match is the second one, or lies inside it and is narrower. -/
def Match.Within (a b : Match) : Prop :=
  a = b ∨ b.start ≤ a.start ∧ a.behind ≤ b.behind ∧ a.width < b.width

theorem Match.Within.overlaps {a b c : Match} (h : a.Within b) (hover : a.Overlaps c) :
    b.Overlaps c := by
  rcases h with rfl | ⟨hstart, hbehind, -⟩
  · exact hover
  · exact ⟨Int.lt_of_le_of_lt hstart hover.1, Int.lt_of_lt_of_le hover.2 hbehind⟩

theorem Apart.eq_of_overlaps (h : Apart ms) (ha : a ∈ ms) (hb : b ∈ ms) (hover : a.Overlaps b) :
    a = b := by
  refine List.Pairwise.forall_of_forall_of_flip (R := fun a b => a.Overlaps b → a = b)
    (fun _ _ _ => rfl) (h.imp fun hab hover => absurd hover (Match.not_overlaps_of_behind_le hab))
    (h.imp fun hab hover => absurd hover.symm (Match.not_overlaps_of_behind_le hab)) ha hb hover

variable {ms ns : List Match}

/-- Where each match lies within one of some that lie apart, just these are kept. -/
theorem keepWidest_of_within (h : Apart ms) (hsub : ∀ m ∈ ms, m ∈ ns)
    (hwithin : ∀ n ∈ ns, ∃ m ∈ ms, n.Within m) : keepWidest ns = ms := by
  have hkept : ∀ m ∈ ms, m ∈ keepWidest ns := by
    intro m hm
    obtain ⟨z, hz, hover, hprecedes⟩ := exists_keepWidest (hsub m hm)
    obtain ⟨m', hm', hin⟩ := hwithin z (mem_of_mem_keepWidest hz)
    obtain rfl := h.eq_of_overlaps hm' hm (hin.overlaps hover)
    rcases hin with rfl | ⟨-, -, hnarrow⟩
    · exact hz
    · unfold Match.Precedes at hprecedes
      omega
  have hapart := apart_keepWidest ns
  have hmem : ∀ y, y ∈ keepWidest ns ↔ y ∈ ms := by
    refine fun y => ⟨fun hy => ?_, hkept y⟩
    obtain ⟨m, hm, hin⟩ := hwithin y (mem_of_mem_keepWidest hy)
    have hover : m.Overlaps y := hin.overlaps y.overlaps_self
    rwa [← hapart.eq_of_overlaps (hkept m hm) hy hover]
  have hnodup {l : List Match} (hl : Apart l) : l.Nodup :=
    hl.start_lt.imp fun hab heq => Int.ne_of_lt hab (congrArg Match.start heq)
  exact hapart.eq_of_perm h ((List.perm_ext_iff_of_nodup (hnodup hapart) (hnodup h)).2 hmem)

/-! ## All rules -/

variable {id : String}

theorem mem_ofRule {m : Match} : m ∈ ofRule id ms ↔ m ∈ ms ∧ m.ruleId = id := by
  rw [ofRule, List.mem_filter, beq_iff_eq]

theorem ofRule_eq_self (h : ∀ m ∈ ms, m.ruleId = id) : ofRule id ms = ms :=
  List.filter_eq_self.2 fun m hm => beq_iff_eq.2 (h m hm)

theorem ofRule_eq_nil (h : ∀ m ∈ ms, m.ruleId ≠ id) : ofRule id ms = [] :=
  List.filter_eq_nil_iff.2 fun m hm heq => h m hm (beq_iff_eq.1 heq)

theorem keepWidest_nil : keepWidest [] = [] := by
  simp [keepWidest]

theorem ruleId_of_mem_keepWidest {m x : Match} (hx : x ∈ keepWidest (m :: ofRule m.ruleId ms)) :
    x.ruleId = m.ruleId := by
  rcases List.mem_cons.1 (mem_of_mem_keepWidest hx) with rfl | hx
  · rfl
  · exact (mem_ofRule.1 hx).2

theorem ofRule_append (id : String) (ms ns : List Match) :
    ofRule id (ms ++ ns) = ofRule id ms ++ ofRule id ns :=
  List.filter_append ..

/-- What is kept of one rule does not depend on the matches of the others. -/
theorem ofRule_dropOverlaps (id : String) (ms : List Match) :
    ofRule id (dropOverlaps ms) = keepWidest (ofRule id ms) := by
  induction ms using dropGreedily.induct with
  | case1 => exact keepWidest_nil.symm
  | case2 m ms ih =>
    rw [dropOverlaps_cons, ofRule_append, ih]
    by_cases hid : m.ruleId = id
    · subst hid
      rw [ofRule_eq_self fun x hx => ruleId_of_mem_keepWidest hx,
        ofRule_eq_nil fun x hx => ruleId_ne_of_mem_ofOthers hx, keepWidest_nil, List.append_nil,
        ofRule_cons_self]
    · rw [ofRule_eq_nil fun x hx heq => hid ((ruleId_of_mem_keepWidest hx).symm.trans heq),
        ofRule_ofOthers (Ne.symm hid), List.nil_append, ofRule_cons_of_ne hid]

theorem subperm_dropOverlaps (ms : List Match) : (dropOverlaps ms).Subperm ms := by
  induction ms using dropGreedily.induct with
  | case1 => exact .refl _
  | case2 m ms ih =>
    rw [dropOverlaps_cons]
    refine ((subperm_keepWidest _).append ih).trans (List.Perm.subperm ?_)
    exact (List.filter_append_perm _ ms).cons m

/-- The matches of a rule in front of those of others are chosen among by themselves. -/
theorem dropOverlaps_append (hms : ∀ m ∈ ms, m.ruleId = id) (hns : ∀ m ∈ ns, m.ruleId ≠ id) :
      dropOverlaps (ms ++ ns) = keepWidest ms ++ dropOverlaps ns := by
  cases ms with
  | nil => rw [keepWidest_nil, List.nil_append, List.nil_append]
  | cons m ms =>
    obtain ⟨rfl, hms⟩ := List.forall_mem_cons.1 hms
    have hown : ofRule m.ruleId (ms ++ ns) = ms := by
      rw [ofRule_append, ofRule_eq_self hms, ofRule_eq_nil hns, List.append_nil]
    have hothers : ofOthers m.ruleId (ms ++ ns) = ns := by
      rw [ofOthers, List.filter_append, List.filter_eq_nil_iff.2 (by simpa using hms),
        List.filter_eq_self.2 (by simpa using hns), List.nil_append]
    rw [List.cons_append, dropOverlaps_cons, hown, hothers]

/-- Choosing among the kept matches again keeps them all. -/
theorem dropOverlaps_dropOverlaps (ms : List Match) :
    dropOverlaps (dropOverlaps ms) = dropOverlaps ms := by
  induction ms using dropGreedily.induct with
  | case1 => rfl
  | case2 m ms ih =>
    have hothers : ∀ x ∈ dropOverlaps (ofOthers m.ruleId ms), x.ruleId ≠ m.ruleId := fun x hx =>
      ruleId_ne_of_mem_ofOthers (mem_of_mem_dropOverlaps hx)
    rw [dropOverlaps_cons, dropOverlaps_append (fun x hx => ruleId_of_mem_keepWidest hx) hothers,
      keepWidest_of_apart (apart_keepWidest _), ih]

/-- What it takes to be a choice of matches in which nothing is missing. -/
structure Thins (kept ms : List Match) : Prop where
  /-- No match is kept more often than it is given. -/
  subperm : kept.Subperm ms
  /-- Matches of one rule do not overlap. -/
  disjoint : kept.Pairwise fun a b => a.ruleId = b.ruleId → ¬ a.Overlaps b
  /-- Matches of one rule stand by increasing start. -/
  sorted : kept.Pairwise fun a b => a.ruleId = b.ruleId → a.start < b.start
  /-- The rules follow one another in the order in which they first appear. -/
  grouped : kept = (ms.map (·.ruleId)).eraseDups.flatMap fun id => ofRule id kept
  /-- Every match overlaps a kept one of its rule that is at least as wide, and that starts no later
  if it is equally wide. -/
  dominated : ∀ x ∈ ms, ∃ y ∈ kept, y.ruleId = x.ruleId ∧ y.Overlaps x ∧ x.width ≤ y.width ∧
    (y.width = x.width → y.start ≤ x.start)
  /-- Every rule keeps a match. -/
  rules : ∀ id ∈ ms.map (·.ruleId), id ∈ kept.map (·.ruleId)

theorem pairwise_dropOverlaps (ms : List Match) :
    (dropOverlaps ms).Pairwise fun a b => a.ruleId = b.ruleId → a.behind ≤ b.start := by
  induction ms using dropGreedily.induct with
  | case1 => exact .nil
  | case2 m ms ih =>
    rw [dropOverlaps_cons]
    refine List.pairwise_append.2 ⟨?_, ih, fun a ha b hb heq => ?_⟩
    · exact (apart_keepWidest _).imp fun {a b} hab (_ : a.ruleId = b.ruleId) => hab
    · have hne := ruleId_ne_of_mem_ofOthers (mem_of_mem_dropOverlaps hb)
      exact absurd (heq.symm.trans (ruleId_of_mem_keepWidest ha)) hne

theorem exists_dropOverlaps {x : Match} (hx : x ∈ ms) :
    ∃ y ∈ dropOverlaps ms, y.ruleId = x.ruleId ∧ y.Overlaps x ∧ y.Precedes x := by
  obtain ⟨y, hy, hover⟩ := exists_keepWidest (mem_ofRule.2 ⟨hx, rfl⟩)
  rw [← ofRule_dropOverlaps, mem_ofRule] at hy
  exact ⟨y, hy.1, hy.2, hover⟩

theorem dropOverlaps_thins (ms : List Match) :
    Thins (dropOverlaps ms) ms ∧ dropOverlaps (dropOverlaps ms) = dropOverlaps ms := by
  have hapart := pairwise_dropOverlaps ms
  refine ⟨⟨subperm_dropOverlaps ms, ?_, ?_, ?_, fun x hx => ?_, fun id hid => ?_⟩,
    dropOverlaps_dropOverlaps ms⟩
  · exact hapart.imp fun hab heq => Match.not_overlaps_of_behind_le (hab heq)
  · exact hapart.imp fun {a _} hab heq => Int.lt_of_lt_of_le a.start_lt_behind (hab heq)
  · simp only [ofRule_dropOverlaps]
    rfl
  · obtain ⟨y, hy, hid, hover, hprec⟩ := exists_dropOverlaps hx
    refine ⟨y, hy, hid, hover, ?_⟩
    unfold Match.Precedes at hprec
    omega
  · obtain ⟨x, hx, rfl⟩ := List.mem_map.1 hid
    obtain ⟨y, hy, heq, -⟩ := exists_dropOverlaps hx
    exact List.mem_map.2 ⟨y, hy, heq⟩

/-! ## The order in which matches are given -/

/-- The offsets of a match. -/
def Match.range (m : Match) : Int × Int :=
  (m.start, m.stop)

/-- The match with the given offsets of which nothing else is known. -/
def Match.bare (m : Match) : Match :=
  ⟨"", m.start, m.stop, none⟩

/-- Matches of which only the offsets are known are taken in one order. -/
theorem byWidth_eq_of_perm (h : ms.Perm ns) :
    byWidth (ms.map Match.bare) = byWidth (ns.map Match.bare) := by
  have hms : (byWidth (ms.map Match.bare)).Perm (ms.map Match.bare) := List.mergeSort_perm _ _
  have hns : (byWidth (ns.map Match.bare)).Perm (ns.map Match.bare) := List.mergeSort_perm _ _
  refine (hms.trans ((h.map _).trans hns.symm)).eq_of_pairwise (fun a b ha hb hab hba => ?_)
    (pairwise_byWidth _) (pairwise_byWidth _)
  obtain ⟨m, -, rfl⟩ := List.mem_map.1 (hms.mem_iff.1 ha)
  obtain ⟨n, -, rfl⟩ := List.mem_map.1 (hns.mem_iff.1 hb)
  have hsame : m.start = n.start ∧ m.stop = n.stop := by
    simp only [Match.Precedes, Match.bare] at hab hba
    omega
  rw [Match.bare, hsame.1, hsame.2, Match.bare]

theorem keepWidest_ranges_eq_of_perm (h : ms.Perm ns) :
    (keepWidest ms).map Match.range = (keepWidest ns).map Match.range := by
  have hbare : ∀ ms : List Match,
      (keepWidest ms).map Match.range = (keepWidest (ms.map Match.bare)).map Match.range := by
    intro ms
    rw [keepWidest_map (f := Match.bare) (n := 0) (fun m => (Int.zero_add _).symm)
      (fun m => (Int.zero_add _).symm), List.map_map]
    rfl
  have hkeep : keepWidest (ms.map Match.bare) = keepWidest (ns.map Match.bare) := by
    rw [keepWidest_eq_keepGreedily, keepWidest_eq_keepGreedily, keepGreedily, byWidth_eq_of_perm h,
      keepGreedily]
  rw [hbare, hkeep, ← hbare]

theorem dropOverlaps_ranges_eq_of_perm {ms ns : List Match} (h : ms.Perm ns) (id : String) :
    ((dropOverlaps ms).filter (·.ruleId == id)).map Match.range =
      ((dropOverlaps ns).filter (·.ruleId == id)).map Match.range := by
  have hms := ofRule_dropOverlaps id ms
  have hns := ofRule_dropOverlaps id ns
  rw [ofRule] at hms hns
  rw [hms, hns]
  exact keepWidest_ranges_eq_of_perm (h.filter _)

/-- Matches of two rules, among them an empty one, a reversed one and two with the same range. -/
def Match.tied : List Match :=
  [⟨"tied", 6, 2, some "first"⟩, ⟨"other", 0, 9, none⟩, ⟨"tied", 6, 6, some "second"⟩,
    ⟨"tied", 7, 9, none⟩, ⟨"tied", 6, 6, some "third"⟩]

theorem dropOverlaps_ranges_eq_reverse_tied : Match.tied.Perm Match.tied.reverse ∧
    ((dropOverlaps Match.tied).filter (·.ruleId == "tied")).map Match.range =
      ((dropOverlaps Match.tied.reverse).filter (·.ruleId == "tied")).map Match.range :=
  have hperm : Match.tied.Perm Match.tied.reverse := (List.reverse_perm _).symm
  ⟨hperm, dropOverlaps_ranges_eq_of_perm hperm "tied"⟩

end ContractAudit
