import ContractAudit.Registry
import ContractAudit.Proofs.Catalog
import Mathlib.Data.List.Induction

/-!
# Registries over time

A registry keeps its rules in two places, under their ids and in order. What it answers is right as
long as both show the same catalog (`Registry.Shows`). A call enters a rule into both, or changes
nothing (`Registry.run_register`), so this holds after any history of calls, accepted or refused,
and the catalog shown is that of the accepted rules (`Registry.shows_after`). These are the first
ones under their ids (`Registry.find?_accepted`).
-/

namespace ContractAudit

namespace Catalog

/-- In a catalog with distinct ids a rule is found under its id. -/
theorem get?_of_mem {c : Catalog} (hids : c.ids.Nodup) {r : Rule} (hr : r ∈ c.rules) :
    c.get? r.id = some r := by
  rw [get?, ← List.head?_filter, filter_id_eq_singleton hids hr, List.head?_cons]

theorem get_of_mem {c : Catalog} (hids : c.ids.Nodup) {r : Rule} (hr : r ∈ c.rules) :
    c.get r.id = .ok r := by
  rw [get, get?_of_mem hids hr]
  rfl

end Catalog

namespace Registry

variable {s : Registry} {c : Catalog} {r : Rule}

/-- Both places of a registry show the rules of a catalog. -/
structure Shows (s : Registry) (c : Catalog) : Prop where
  order_eq : s.order = c.ids
  nodup : c.ids.Nodup
  find : ∀ id, s.byId[id]? = c.get? id

theorem shows_empty : empty.Shows .empty where
  order_eq := rfl
  nodup := List.nodup_nil
  find _ := Std.HashMap.getElem?_empty

/-! ## What a registry answers -/

namespace Shows

theorem contains_eq (h : s.Shows c) (id : String) : s.contains id = c.contains id := by
  rw [contains, Std.HashMap.contains_eq_isSome_getElem?, h.find, Catalog.contains]

theorem mem_order_iff (h : s.Shows c) (id : String) : s.contains id ↔ id ∈ s.order := by
  rw [h.contains_eq, Catalog.contains_iff, h.order_eq]

theorem get_eq (h : s.Shows c) (id : String) : s.get id = c.get id := by
  rw [get, h.find]
  rfl

theorem size_eq (h : s.Shows c) : s.size = c.size := by
  rw [size, h.order_eq, Catalog.ids, List.length_map, Catalog.size]

theorem rules_eq (h : s.Shows c) : s.rules = .ok c.rules := by
  have hread : ∀ l : List Rule, (∀ r ∈ l, s.get r.id = .ok r) →
      (l.map (·.id)).mapM s.get = .ok l := by
    intro l
    induction l with
    | nil => exact fun _ => rfl
    | cons r l ih =>
      intro hl
      obtain ⟨hr, hl⟩ := List.forall_mem_cons.1 hl
      rw [List.map_cons, List.mapM_cons, hr, ih hl]
      rfl
  rw [rules, h.order_eq]
  refine hread c.rules fun r hr => ?_
  rw [h.get_eq, Catalog.get_of_mem h.nodup hr]

/-- A rule with a new id is entered into both places. -/
theorem enter (h : s.Shows c) (hr : r.id ∉ c.ids) :
    Shows ⟨s.byId.insert r.id r, s.order ++ [r.id]⟩ ⟨c.rules ++ [r]⟩ where
  order_eq := by rw [Catalog.ids_concat, h.order_eq]
  nodup := Catalog.nodup_ids_concat h.nodup hr
  find id := by
    rw [Std.HashMap.getElem?_insert, h.find, Catalog.get?, Catalog.get?, List.find?_append]
    by_cases hid : r.id = id
    · have hnone : c.rules.find? (·.id == id) = none := by
        refine List.find?_eq_none.2 fun q hq hqid => hr ?_
        exact List.mem_map.2 ⟨q, hq, (beq_iff_eq.1 hqid).trans hid.symm⟩
      simp [hid, hnone]
    · simp [hid]

end Shows

/-! ## Calls -/

/-- What a call does : a taken id is refused, and nothing changes. -/
theorem run_register (s : Registry) (r : Rule) : (register r).run.run s =
    if s.contains r.id then (.error ⟨r.id⟩, s)
    else (.ok (), ⟨s.byId.insert r.id r, s.order ++ [r.id]⟩) := by
  have hget (f : Registry → ExceptT DuplicateRule (StateM Registry) Unit) :
      (getThe Registry >>= f).run.run s = (f s).run.run s := rfl
  rw [register, hget]
  split <;> rfl

/-- The calls of a history, each with its answer. A refused call does not end it. -/
def history (rs : List Rule) : StateM Registry (List (Except DuplicateRule Unit)) :=
  rs.mapM fun r => (register r).run

/-- What the registrations of the rules answer, one by one, to a registry that is empty at first. -/
def answers (rs : List Rule) : List (Except DuplicateRule Unit) :=
  ((history rs).run empty).1

/-- The registry after a history. -/
def after (rs : List Rule) : Registry :=
  ((history rs).run empty).2

/-- The rules of a history whose calls were accepted. -/
def accepted (rs : List Rule) : List Rule :=
  ((rs.zip (answers rs)).filter (·.2.isOk)).map (·.1)

theorem run_history_append (us vs : List Rule) (s : Registry) : (history (us ++ vs)).run s =
    (((history us).run s).1 ++ ((history vs).run ((history us).run s).2).1,
      ((history vs).run ((history us).run s).2).2) := by
  rw [history, List.mapM_append]
  rfl

theorem answers_append (us vs : List Rule) :
    answers (us ++ vs) = answers us ++ ((history vs).run (after us)).1 := by
  rw [answers, run_history_append]
  rfl

theorem length_answers (rs : List Rule) : (answers rs).length = rs.length := by
  induction rs using List.reverseRecOn with
  | nil => rfl
  | append_singleton rs r ih =>
    rw [answers_append, List.length_append, List.length_append, ih]
    rfl

/-- A further call is refused and changes nothing, or its rule is entered behind the others. -/
theorem concat_cases (rs : List Rule) (r : Rule) :
    ((after rs).contains r.id ∧ answers (rs ++ [r]) = answers rs ++ [.error ⟨r.id⟩] ∧
      after (rs ++ [r]) = after rs ∧ accepted (rs ++ [r]) = accepted rs) ∨
    (¬ (after rs).contains r.id ∧ answers (rs ++ [r]) = answers rs ++ [.ok ()] ∧
      after (rs ++ [r]) = ⟨(after rs).byId.insert r.id r, (after rs).order ++ [r.id]⟩ ∧
      accepted (rs ++ [r]) = accepted rs ++ [r]) := by
  have hafter : after (rs ++ [r]) = ((register r).run.run (after rs)).2 := by
    rw [after, run_history_append]
    rfl
  have hanswers : answers (rs ++ [r]) = answers rs ++ [((register r).run.run (after rs)).1] :=
    answers_append rs [r]
  have haccepted : accepted (rs ++ [r]) = accepted rs ++
      (([(r, ((register r).run.run (after rs)).1)].filter (·.2.isOk)).map (·.1)) := by
    rw [accepted, hanswers, List.zip_append (length_answers rs).symm, List.filter_append,
      List.map_append]
    rfl
  rw [run_register] at hafter hanswers haccepted
  by_cases h : (after rs).contains r.id
  · rw [if_pos h] at hafter hanswers haccepted
    exact Or.inl ⟨h, hanswers, hafter, haccepted.trans (List.append_nil _)⟩
  · rw [if_neg h] at hafter hanswers haccepted
    exact Or.inr ⟨h, hanswers, hafter, haccepted⟩

theorem shows_after (rs : List Rule) : (after rs).Shows ⟨accepted rs⟩ := by
  induction rs using List.reverseRecOn with
  | nil => exact shows_empty
  | append_singleton rs r ih =>
    rcases concat_cases rs r with ⟨-, -, hafter, haccepted⟩ | ⟨hnew, -, hafter, haccepted⟩
    · rw [hafter, haccepted]
      exact ih
    · rw [hafter, haccepted]
      refine ih.enter fun hmem => hnew ?_
      rw [ih.mem_order_iff, ih.order_eq]
      exact hmem

/-- The rule that is kept under an id is the first one of the history. -/
theorem find?_accepted (rs : List Rule) (id : String) :
    (accepted rs).find? (·.id == id) = rs.find? (·.id == id) := by
  induction rs using List.reverseRecOn with
  | nil => rfl
  | append_singleton rs r ih =>
    rw [List.find?_append, ← ih]
    rcases concat_cases rs r with ⟨hin, -, -, haccepted⟩ | ⟨-, -, -, haccepted⟩
    · rw [haccepted]
      by_cases hid : r.id = id
      · have hsome : ((accepted rs).find? (·.id == id)).isSome := by
          rw [hid, (shows_after rs).contains_eq] at hin
          exact hin
        rw [Option.or_of_isSome hsome]
      · simp [hid]
    · rw [haccepted, List.find?_append]

/-- The ids of the accepted rules are those of the history. -/
theorem contains_after_iff (rs : List Rule) (id : String) :
    (after rs).contains id ↔ id ∈ rs.map (·.id) := by
  rw [(shows_after rs).contains_eq, Catalog.contains, Catalog.get?, find?_accepted]
  simp

theorem getElem?_answers (earlier : List Rule) (r : Rule) (later : List Rule) :
    (answers (earlier ++ r :: later))[earlier.length]? =
      some (if r.id ∈ earlier.map (·.id) then .error ⟨r.id⟩ else .ok ()) := by
  have hlt : earlier.length < (answers (earlier ++ [r])).length := by
    rw [length_answers, List.length_append]
    exact Nat.lt_succ_self _
  rw [List.append_cons, answers_append, List.getElem?_append_left hlt]
  have hlast : ∀ a, (answers earlier ++ [a])[earlier.length]? = some a := fun a => by
    rw [← length_answers earlier, List.getElem?_concat_length]
  rcases concat_cases earlier r with ⟨hin, hanswers, -⟩ | ⟨hnew, hanswers, -⟩
  · rw [hanswers, hlast, if_pos ((contains_after_iff ..).1 hin)]
  · rw [hanswers, hlast, if_neg fun hmem => hnew ((contains_after_iff ..).2 hmem)]

/-! ## Registries of given rules -/

/-- Calls of which a refusal is the last one. -/
theorem run_forM_cons (r : Rule) (rs : List Rule) (s : Registry) :
    (forM (r :: rs) register).run.run s =
    if s.contains r.id then (.error ⟨r.id⟩, s)
    else (forM rs register).run.run ⟨s.byId.insert r.id r, s.order ++ [r.id]⟩ := by
  rw [List.forM_cons, ExceptT.run_bind, StateT.run_bind, run_register]
  by_cases hin : s.contains r.id
  · rw [if_pos hin, if_pos hin]
    rfl
  · rw [if_neg hin, if_neg hin]
    rfl

/-- While the calls are accepted it makes no difference whether a refusal ends them. -/
theorem snd_run_forM : ∀ {rs : List Rule} {s s' : Registry},
    (forM rs register).run.run s = (.ok (), s') → ((history rs).run s).2 = s'
  | [], _, _, h => congrArg Prod.snd h
  | r :: rs, s, s', h => by
    have hhistory : ((history (r :: rs)).run s).2 =
        ((history rs).run ((register r).run.run s).2).2 := by
      rw [history, List.mapM_cons]
      rfl
    rw [run_forM_cons] at h
    rw [hhistory, run_register]
    by_cases hin : s.contains r.id
    · rw [if_pos hin] at h
      cases h
    · rw [if_neg hin] at h ⊢
      exact snd_run_forM h

/-- A registry made of given rules is the one that their calls leave. -/
theorem eq_after_of_ofRules {rs : List Rule} (h : ofRules rs = .ok s) : s = after rs := by
  unfold ofRules at h
  cases hrun : (forM rs register).run.run empty with
  | mk entered s' =>
    rw [hrun] at h
    cases entered with
    | error e => cases h
    | ok u =>
      obtain rfl : s' = s := Except.ok.inj h
      exact (snd_run_forM hrun).symm

/-- The calls do to a registry what they do to the catalog that it shows. -/
theorem Shows.run_forM : ∀ {rs : List Rule} {s : Registry} {c : Catalog}, s.Shows c →
    (∀ c', rs.foldlM Catalog.register c = .ok c' →
      ∃ s', (forM rs register).run.run s = (.ok (), s') ∧ s'.Shows c') ∧
    ∀ e, rs.foldlM Catalog.register c = .error e →
      ∃ s', (forM rs register).run.run s = (.error e, s')
  | [], s, c, h => by
    refine ⟨fun c' hc => ⟨s, rfl, ?_⟩, fun e he => by cases he⟩
    obtain rfl : c = c' := Except.ok.inj hc
    exact h
  | r :: rs, s, c, h => by
    have hcontains : s.contains r.id ↔ r.id ∈ c.ids := by rw [h.mem_order_iff, h.order_eq]
    rw [run_forM_cons, List.foldlM_cons]
    by_cases hin : r.id ∈ c.ids
    · rw [if_pos (hcontains.2 hin), Catalog.register_of_mem hin]
      refine ⟨fun c' hc => (by cases hc), fun e he => ⟨s, ?_⟩⟩
      obtain rfl : ⟨r.id⟩ = e := Except.error.inj he
      rfl
    · rw [if_neg fun h => hin (hcontains.1 h), Catalog.register_eq_ok_iff.2 ⟨hin, rfl⟩]
      exact (h.enter hin).run_forM

/-- A registry of given rules is made exactly if their catalog is, and then shows it. -/
theorem ofRules_agrees (rs : List Rule) :
    (∀ c, Catalog.ofRules rs = .ok c → ∃ s, ofRules rs = .ok s ∧ s.catalog = .ok c) ∧
    ∀ e, Catalog.ofRules rs = .error e → ofRules rs = .error e := by
  obtain ⟨hok, herror⟩ := @Shows.run_forM rs empty .empty shows_empty
  refine ⟨fun c hc => ?_, fun e he => ?_⟩
  · obtain ⟨s, hrun, hshows⟩ := hok c hc
    refine ⟨s, by rw [ofRules, hrun]; rfl, ?_⟩
    rw [catalog, hshows.rules_eq]
    rfl
  · obtain ⟨s, hrun⟩ := herror e he
    rw [ofRules, hrun]
    rfl

/-- After any history of calls both places of a registry hold the ids of the accepted rules, each
once, and all it answers goes by these rules, in the order of their calls. Under an id the first
rule is kept. A call is refused exactly if the id is there, and then nothing changes. -/
theorem after_consistent (rs : List Rule) :
    (∀ s, ofRules rs = .ok s → s = after rs) ∧
    (after rs).order.Nodup ∧
    (∀ id, id ∈ (after rs).byId.keys ↔ id ∈ (after rs).order) ∧
    (after rs).order = (accepted rs).map (·.id) ∧
    (after rs).rules = .ok (accepted rs) ∧
    (after rs).iterate = .ok (accepted rs) ∧
    (after rs).size = (accepted rs).length ∧
    (∀ id, (after rs).contains id ↔ id ∈ (after rs).order) ∧
    (∀ r ∈ accepted rs, (after rs).get r.id = .ok r) ∧
    (∀ id, (after rs).get id = (rs.find? (·.id == id)).elim (.error ⟨id⟩) .ok) ∧
    (∀ earlier r later, rs = earlier ++ r :: later →
      (answers rs)[earlier.length]? =
        some (if r.id ∈ earlier.map (·.id) then .error ⟨r.id⟩ else .ok ())) ∧
    ∀ r, (register r).run.run (after rs) =
      if (after rs).contains r.id then (.error ⟨r.id⟩, after rs) else
        (.ok (), after (rs ++ [r])) := by
  have hshows := shows_after rs
  refine ⟨fun s => eq_after_of_ofRules, ?_, fun id => ?_, hshows.order_eq, hshows.rules_eq,
    hshows.rules_eq, hshows.size_eq, hshows.mem_order_iff, fun r hr => ?_, fun id => ?_, ?_,
      fun r => ?_⟩
  · rw [hshows.order_eq]
    exact hshows.nodup
  · rw [Std.HashMap.mem_keys, ← Std.HashMap.contains_iff_mem]
    exact hshows.mem_order_iff id
  · rw [hshows.get_eq, Catalog.get_of_mem hshows.nodup hr]
  · rw [hshows.get_eq, Catalog.get, Catalog.get?, find?_accepted]
    cases rs.find? (·.id == id) <;> rfl
  · rintro earlier r later rfl
    exact getElem?_answers earlier r later
  · rw [run_register]
    rcases concat_cases rs r with ⟨hin, -⟩ | ⟨hnew, -, hafter, -⟩
    · rw [if_pos hin, if_pos hin]
    · rw [if_neg hnew, if_neg hnew, hafter]

end Registry

end ContractAudit
