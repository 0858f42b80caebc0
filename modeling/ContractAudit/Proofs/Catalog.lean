import ContractAudit.Catalog

/-!
# Registered rules

Rules can be registered one after the other exactly if no two of them go by the same id
(`Catalog.ofRules_eq_ok_iff`). The catalog then holds them as given, and an id picks out one rule
(`Catalog.filter_id_eq_singleton`).
-/

namespace ContractAudit

namespace Catalog

theorem contains_iff (c : Catalog) (id : String) : c.contains id ↔ id ∈ c.ids := by
  simp [contains, get?, ids]

variable {r : Rule}

theorem register_eq_ok_iff {c c' : Catalog} :
    c.register r = .ok c' ↔ r.id ∉ c.ids ∧ c' = ⟨c.rules ++ [r]⟩ := by
  unfold register
  split
  next h =>
    have hmem : r.id ∈ c.ids := (c.contains_iff r.id).1 h
    simp [hmem, throw, throwThe, MonadExceptOf.throw]
  next h =>
    have hmem : r.id ∉ c.ids := fun hin => h ((c.contains_iff r.id).2 hin)
    simp [hmem, pure, Except.pure, eq_comm]

variable {c : Catalog}

theorem register_of_mem (h : r.id ∈ c.ids) : c.register r = .error ⟨r.id⟩ :=
  if_pos ((c.contains_iff r.id).2 h)

theorem ids_concat (c : Catalog) (r : Rule) : ids ⟨c.rules ++ [r]⟩ = c.ids ++ [r.id] := by
  simp [ids]

theorem nodup_ids_concat (hc : c.ids.Nodup) (hr : r.id ∉ c.ids) : (ids ⟨c.rules ++ [r]⟩).Nodup := by
  rw [ids_concat, (List.perm_append_singleton r.id c.ids).nodup_iff]
  exact List.nodup_cons.2 ⟨hr, hc⟩

/-- Rules are added to a catalog exactly if the ids stay distinct. -/
theorem foldlM_register_eq_ok_iff (c' : Catalog) : ∀ (rs : List Rule) (c : Catalog), c.ids.Nodup →
    (rs.foldlM register c = .ok c' ↔
      (c.ids ++ rs.map (·.id)).Nodup ∧ c' = ⟨c.rules ++ rs⟩)
  | [], c, hc => by
    simp [hc, pure, Except.pure, eq_comm]
  | r :: rs, c, hc => by
    rw [List.foldlM_cons]
    by_cases hr : r.id ∈ c.ids
    · have hreg : ∀ c₁, c.register r ≠ .ok c₁ := fun c₁ h => (register_eq_ok_iff.1 h).1 hr
      have hdup : ¬ (c.ids ++ (r :: rs).map (·.id)).Nodup := fun h =>
        (List.nodup_append.1 h).2.2 r.id hr r.id (by simp) rfl
      cases h : c.register r with
      | error e => exact ⟨(nomatch ·), fun h => absurd h.1 hdup⟩
      | ok c₁ => exact absurd h (hreg c₁)
    · have hreg : c.register r = .ok ⟨c.rules ++ [r]⟩ := register_eq_ok_iff.2 ⟨hr, rfl⟩
      have ih := foldlM_register_eq_ok_iff c' rs _ (nodup_ids_concat hc hr)
      rw [hreg]
      simpa [ids_concat, bind, Except.bind] using ih

/-- Rules make a catalog exactly if their ids are distinct. -/
theorem ofRules_eq_ok_iff {rs : List Rule} :
    ofRules rs = .ok c ↔ (rs.map (·.id)).Nodup ∧ c = ⟨rs⟩ := by
  have h := foldlM_register_eq_ok_iff c rs empty (by simp [empty, ids])
  simpa [empty, ids, ofRules] using h

/-- One of several rules with distinct ids is picked out by its id. -/
theorem filter_id_eq_singleton : ∀ {rs : List Rule}, (rs.map (·.id)).Nodup → r ∈ rs →
    rs.filter (·.id == r.id) = [r]
  | a :: rs, hrs, hr => by
    obtain ⟨ha, hrs⟩ := List.nodup_cons.1 hrs
    have hother : ∀ b ∈ rs, b.id ≠ a.id := fun b hb heq => ha (List.mem_map.2 ⟨b, hb, heq⟩)
    rcases List.mem_cons.1 hr with rfl | hr
    · rw [List.filter_cons_of_pos (by simp), List.filter_eq_nil_iff.2 (by simpa using hother)]
    · have hne : ¬ a.id = r.id := (hother r hr).symm
      rw [List.filter_cons_of_neg (by simpa using hne), filter_id_eq_singleton hrs hr]

end Catalog

end ContractAudit
