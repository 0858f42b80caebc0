import ContractAudit.Proofs.Text.Words

/-!
# Searches through a text

What the searches find, in terms of the places where a pattern can match (`starts_iff`,
`occursIn_iff`). All matches are found one behind the other : the first one, and those from its end
on (`Opens.findAll_eq_cons`). So they stand in order (`Opens.pairwise_findAll`), and none is missed
whose first character cannot stand inside another match (`OpensOnce.mem_findAll`).
-/

namespace ContractAudit

open Cursor

namespace Pattern

variable {p : Pattern} {front rest text : List Char} {ok : Char → Bool}

/-! ## Whether there is a match -/

theorem isSome_at?_iff {c : Cursor} : (p.at? c).isSome ↔ ∃ d qs, p.Reads c [] d qs := by
  constructor
  · intro h
    obtain ⟨hit, hat⟩ := Option.isSome_iff_exists.1 h
    exact ⟨hit.stop, hit.parts, (reads_of_at? hat).2⟩
  · rintro ⟨d, qs, hreads⟩
    exact isSome_read_of_reads p hreads rfl

theorem starts_iff : p.starts text ↔ ∃ d qs, p.Reads (between [] text) [] d qs :=
  isSome_at?_iff

theorem occursIn_iff :
    p.occursIn text ↔ ∃ front rest, text = front ++ rest ∧
      ∃ d qs, p.Reads (between front rest) [] d qs := by
  constructor
  · intro h
    obtain ⟨hit, hfind⟩ := Option.isSome_iff_exists.1 h
    obtain ⟨front, rest, htext, -, hreads⟩ := exists_reads_of_findIn? hfind
    exact ⟨front, rest, htext, hit.stop, hit.parts, hreads⟩
  · rintro ⟨front, rest, rfl, d, qs, hreads⟩
    exact isSome_findIn?_of_reads hreads

/-! ## All matches -/

theorem findAllFrom_eq_append : ∀ (fuel : List Char) (found : List Hit) (c : Cursor),
    p.findAllFrom found fuel c = found.reverse ++ p.findAllFrom [] fuel c
  | [], found, c => (List.append_nil _).symm
  | a :: fuel, found, c => by
    unfold findAllFrom
    cases p.find? c with
    | none => exact (List.append_nil _).symm
    | some h =>
      simp only
      rw [findAllFrom_eq_append fuel (h :: found), findAllFrom_eq_append fuel [h],
        List.reverse_cons, List.append_assoc]
      rfl

theorem findAll_eq_nil {c : Cursor} (h : p.find? c = none) : p.findAll c = [] :=
  findAllFrom_of_find?_eq_none h [] c.rest

/-- The matches are the first one and those from its end on. -/
theorem Opens.findAll_eq_cons (hp : p.Opens ok) {c : Cursor} (hc : c.In text) {h : Hit}
    (hfind : p.find? c = some h) : p.findAll c = h :: p.findAll h.stop := by
  obtain ⟨hstart, hle, hreads⟩ := reads_of_find? hc hfind
  have hlt := (hp text _ _ _ _ hstart hreads).2
  have hstop := (hreads.in hstart).1
  have hlen {d : Cursor} (hd : d.In text) : text.length = d.offset + d.rest.length := by
    have hoff := hd.offset_le
    rw [hd.rest_eq, List.length_drop]
    omega
  obtain ⟨a, fuel, hfuel⟩ : ∃ a fuel, c.rest = a :: fuel := by
    refine List.exists_cons_of_ne_nil fun hnil => ?_
    have hend := hlen hc
    rw [hnil, List.length_nil] at hend
    have hoff := hstop.offset_le
    omega
  have hfuel' : text.length ≤ h.stop.offset + fuel.length := by
    have hend := hlen hc
    rw [hfuel, List.length_cons] at hend
    omega
  rw [findAll, hfuel, findAllFrom_of_find?_eq_some hfind hlt, findAllFrom_eq_append,
    hp.findAllFrom_eq fuel h.stop.rest [] h.stop hstop hfuel' (Nat.le_of_eq (hlen hstop))]
  rfl

/-- Where the first match is the same, all are. -/
theorem Opens.findAll_congr (hp : p.Opens ok) {text' : List Char} {c c' : Cursor} (hc : c.In text)
    (hc' : c'.In text') (h : p.find? c = p.find? c') : p.findAll c = p.findAll c' := by
  cases hfind : p.find? c with
  | none => rw [findAll_eq_nil hfind, findAll_eq_nil (h ▸ hfind)]
  | some g => rw [hp.findAll_eq_cons hc hfind, hp.findAll_eq_cons hc' (h ▸ hfind)]

/-- A search for all matches passes over characters with which none starts. -/
theorem Opens.findAll_append (hp : p.Opens ok) {w : List Char} (hw : ∀ a ∈ w, ok a = false)
    (front rest : List Char) :
      p.findAll (between front (w ++ rest)) = p.findAll (between (front ++ w) rest) :=
  hp.findAll_congr (in_between ..) (in_between ..) (hp.find?_append hw front rest)

/-- Matches that are found one behind the other. -/
theorem Opens.pairwise_findAll (hp : p.Opens ok) {c : Cursor} (hc : c.In text) :
    (p.findAll c).Pairwise fun g h => g.stop.offset ≤ h.start.offset := by
  -- The text behind the place gets shorter with every match.
  induction hn : text.length - c.offset using Nat.strongRecOn generalizing c with
  | _ n ih =>
  cases hfind : p.find? c with
  | none =>
    rw [findAll_eq_nil hfind]
    exact List.Pairwise.nil
  | some h =>
    obtain ⟨hstart, hle, hreads⟩ := reads_of_find? hc hfind
    have hlt := (hp text _ _ _ _ hstart hreads).2
    have hstop := (hreads.in hstart).1
    have hoff := hstop.offset_le
    rw [hp.findAll_eq_cons hc hfind]
    refine List.Pairwise.cons (fun g hg => (reads_of_mem_findAll hstop hg).2.1) ?_
    exact ih (text.length - h.stop.offset) (by omega) hstop rfl

/-- The first match stands where the pattern first matches. -/
theorem exists_find?_of_at? : ∀ {w front rest : List Char} {h : Hit},
    p.at? (between (front ++ w) rest) = some h →
      ∃ u v g, w = u ++ v ∧ p.at? (between (front ++ u) (v ++ rest)) = some g ∧
        p.find? (between front (w ++ rest)) = some g
  | [], front, rest, h, hat => ⟨[], [], h, rfl, by simpa using hat, by simpa using find?_of_at? hat⟩
  | a :: w, front, rest, h, hat => by
    cases hhere : p.at? (between front (a :: w ++ rest)) with
    | some g => exact ⟨[], a :: w, g, rfl, by simpa using hhere, find?_of_at? hhere⟩
    | none =>
      rw [List.append_cons] at hat
      obtain ⟨u, v, g, rfl, hat', hfind⟩ := exists_find?_of_at? hat
      refine ⟨a :: u, v, g, rfl, by simpa using hat', ?_⟩
      show p.findFrom? front.length front.getLast? (a :: (u ++ v ++ rest)) = some g
      have hhere' : p.at? ⟨front.length, front.getLast?, a :: (u ++ v ++ rest)⟩ = none := hhere
      rw [findFrom?, hhere']
      rw [← next_between] at hfind
      exact hfind

/-- Every match starts with a character of the class, and has no other one of the class. -/
def OpensOnce (p : Pattern) (ok : Char → Bool) : Prop :=
  ∀ {front rest : List Char} {ps : Parts} {d : Cursor} {qs : Parts},
    p.Reads (between front rest) ps d qs →
    ∃ a w r, rest = a :: (w ++ r) ∧ ok a ∧ (∀ b ∈ w, ok b = false) ∧ d = between (front ++ a :: w) r

theorem OpensOnce.opens (hp : p.OpensOnce ok) : p.Opens ok := by
  intro text c d ps qs hc hreads
  obtain ⟨front, rest, rfl, rfl⟩ :=
    Cursor.exists_between (show c.In ([] ++ text) from hc) (Nat.zero_le _)
  obtain ⟨a, w, r, rfl, ha, -, rfl⟩ := hp hreads
  exact ⟨ha, by simp⟩

/-- A match whose first character can only start a match is found. -/
theorem OpensOnce.mem_findAll (hp : p.OpensOnce ok) : ∀ {w front rest : List Char} {h : Hit},
    p.at? (between (front ++ w) rest) = some h → h ∈ p.findAll (between front (w ++ rest)) := by
  intro w
  induction hn : w.length using Nat.strongRecOn generalizing w with
  | _ n ih =>
  intro front rest h hat
  subst hn
  obtain ⟨a, tail, rfl, ha⟩ : ∃ a tail, rest = a :: tail ∧ ok a := by
    obtain ⟨a, x, r, hrest, ha, -⟩ := hp (reads_of_at? hat).2
    exact ⟨a, x ++ r, hrest, ha⟩
  obtain ⟨u, v, g, rfl, hg, hfind⟩ := exists_find?_of_at? hat
  rw [hp.opens.findAll_eq_cons (in_between _ _) hfind]
  cases v with
  | nil =>
    have heq : some g = some h := by
      rw [← hg, ← hat, List.append_nil, List.nil_append]
    exact List.mem_cons.2 (Or.inl (Option.some.inj heq).symm)
  | cons b v =>
    obtain ⟨b', x, r, hcons, -, hx, hstop⟩ := hp (reads_of_at? hg).2
    obtain ⟨rfl, htext⟩ : b = b' ∧ v ++ a :: tail = x ++ r := List.cons.inj hcons
    -- The match before it ends where its first character stands at the latest.
    have hopener : (!ok a) = false := by simp [ha]
    have hinside : ∀ c ∈ x, (!ok c) = true := fun c hc => by simp [hx c hc]
    obtain ⟨y, rfl⟩ : x <+: v := prefix_of_prefix_append_cons hopener hinside ⟨r, htext.symm⟩
    have hr : r = y ++ a :: tail := by
      rw [List.append_assoc] at htext
      exact (List.append_cancel_left htext).symm
    refine List.mem_cons_of_mem g ?_
    rw [hstop, hr]
    refine ih y.length (by simp; omega) rfl ?_
    simpa using hat

end Pattern

end ContractAudit
