import ContractAudit.Proofs.Text.Cursor
import ContractAudit.Text.Pattern

/-!
# What patterns match

`Pattern.Reads p c ps d qs` says that the pattern `p` can match from the place `c` to the place `d`,
the parts `ps` kept before growing to `qs`. It leaves out in which order the ways to match are
tried. What `Pattern.read` answers, it answers at the end of such a match (`exists_reads_of_read`),
so the searches built on it find matches in this sense : `reads_of_at?`, `reads_of_find?`,
`reads_of_mem_findAll`. A match runs forward in its text (`Reads.in`). `Pattern.Opens ok p` says
that no match of `p` is empty and that each starts with a character of the class `ok`; how a pattern
is built tells which.
-/

namespace ContractAudit

variable {text : List Char}

namespace Cursor

variable {step : Cursor → Option Cursor} {P : Cursor → Prop} {c d : Cursor}

theorem mem_stepsFrom_of_mem_passed : ∀ (fuel : List Char)
    {passed : List Cursor} (c : Cursor), ∀ d ∈ passed, d ∈ stepsFrom step passed fuel c
  | [], _, _, _, hd => List.mem_cons_of_mem _ hd
  | _ :: fuel, _, c, d, hd => by
    have hmem := List.mem_cons_of_mem c hd
    unfold stepsFrom
    split
    · split
      · exact mem_stepsFrom_of_mem_passed fuel _ d hmem
      · exact hmem
    · exact hmem

/-- What holds of the first place, and goes over from a place to the one behind a step, holds of all
places that are reached. -/
theorem stepsFrom_induction : ∀ (fuel : List Char) {passed : List Cursor} {c : Cursor}, P c →
    (∀ e d, e ∈ stepsFrom step passed fuel c → P e → step e = some d → e.offset < d.offset → P d) →
      ∀ d ∈ stepsFrom step passed fuel c, d ∈ passed ∨ P d
  | [], passed, c, hc, _, d, hd => by
    rcases List.mem_cons.1 hd with rfl | hd
    · exact Or.inr hc
    · exact Or.inl hd
  | _ :: fuel, passed, c, hc, hstep, d, hd => by
    have hstop : d ∈ c :: passed → d ∈ passed ∨ P d := by
      intro hd
      rcases List.mem_cons.1 hd with rfl | hd
      · exact Or.inr hc
      · exact Or.inl hd
    unfold stepsFrom at hd hstep
    split at hd
    next e he =>
      simp only [he] at hstep
      split at hd
      next hlt =>
        simp only [if_pos hlt] at hstep
        have he' := hstep c e (mem_stepsFrom_of_mem_passed fuel e c List.mem_cons_self) hc he hlt
        rcases stepsFrom_induction fuel he' hstep d hd with hd | hd
        · exact hstop hd
        · exact Or.inr hd
      next => exact hstop hd
    next => exact hstop hd

theorem steps_induction (hc : P c)
    (hstep : ∀ e d, e ∈ c.steps step → P e → step e = some d → e.offset < d.offset → P d)
    (hd : d ∈ c.steps step) : P d :=
  (stepsFrom_induction c.rest hc hstep d hd).resolve_left List.not_mem_nil

theorem In.of_mem_steps (hstep : ∀ c d, c.In text → step c = some d → d.In text) (hc : c.In text)
    (hd : d ∈ c.steps step) : d.In text ∧ c.offset ≤ d.offset := by
  refine steps_induction (P := fun d => d.In text ∧ c.offset ≤ d.offset) ⟨hc, Nat.le_refl _⟩
    (fun e d _ he hs hlt => ?_) hd
  exact ⟨hstep e d he.1 hs, Nat.le_trans he.2 (Nat.le_of_lt hlt)⟩

end Cursor

namespace Pattern

/-- The pattern can match from `c` to `d`, and the parts `ps` grow to `qs` on the way. -/
def Reads : Pattern → Cursor → Parts → Cursor → Parts → Prop
  | char ok, c, ps, d, qs =>
    ∃ a r, c.rest = a :: r ∧ ok a ∧ d = ⟨c.offset + 1, some a, r⟩ ∧ qs = ps
  | word same cs, c, ps, d, qs => c.past? same cs = some d ∧ qs = ps
  | check ok, c, ps, d, qs => ok c ∧ d = c ∧ qs = ps
  | seq p q, c, ps, d, qs => ∃ e rs, Reads p c ps e rs ∧ Reads q e rs d qs
  | alt p q, c, ps, d, qs => Reads p c ps d qs ∨ Reads q c ps d qs
  | stretch ok, c, ps, d, qs => d ∈ c.run ok ∧ qs = ps
  | shortStretch ok, c, ps, d, qs => d ∈ c.run ok ∧ qs = ps
  | many p, c, ps, d, qs => d ∈ (c.steps fun d => p.read d [] fun e _ => some e) ∧ qs = ps
  | named label p, c, ps, d, qs => ∃ rs, Reads p c ps d rs ∧ qs = (label, c, d) :: rs

theorem exists_reads_of_read : ∀ (p : Pattern) {α : Type} {c : Cursor} {ps : Parts}
    {k : Cursor → Parts → Option α} {x : α}, p.read c ps k = some x →
      ∃ d qs, p.Reads c ps d qs ∧ k d qs = some x
  | char ok, α, ⟨i, b, []⟩, ps, k, x, h => by simp [read] at h
  | char ok, α, ⟨i, b, a :: r⟩, ps, k, x, h => by
    by_cases ha : ok a
    · exact ⟨⟨i + 1, some a, r⟩, ps, ⟨a, r, rfl, ha, rfl, rfl⟩, by simpa [read, ha] using h⟩
    · simp [read, ha] at h
  | word same cs, α, c, ps, k, x, h => by
    cases hp : c.past? same cs with
    | none => simp [read, hp] at h
    | some d => exact ⟨d, ps, ⟨hp, rfl⟩, by simpa [read, hp] using h⟩
  | check ok, α, c, ps, k, x, h => by
    by_cases hc : ok c
    · exact ⟨c, ps, ⟨hc, rfl, rfl⟩, by simpa [read, hc] using h⟩
    · simp [read, hc] at h
  | seq p q, α, c, ps, k, x, h => by
    obtain ⟨d, qs, hp, hd⟩ := exists_reads_of_read p (by simpa only [read] using h)
    obtain ⟨e, rs, hq, he⟩ := exists_reads_of_read q hd
    exact ⟨e, rs, ⟨d, qs, hp, hq⟩, he⟩
  | alt p q, α, c, ps, k, x, h => by
    cases hp : p.read c ps k with
    | some y =>
      obtain rfl : y = x := by simpa [read, hp] using h
      obtain ⟨d, qs, hr, hd⟩ := exists_reads_of_read p hp
      exact ⟨d, qs, Or.inl hr, hd⟩
    | none =>
      obtain ⟨d, qs, hr, hd⟩ := exists_reads_of_read q (by simpa [read, hp] using h)
      exact ⟨d, qs, Or.inr hr, hd⟩
  | stretch ok, α, c, ps, k, x, h => by
    obtain ⟨d, hd, hk⟩ := List.exists_of_findSome?_eq_some (by simpa only [read] using h)
    exact ⟨d, ps, ⟨hd, rfl⟩, hk⟩
  | shortStretch ok, α, c, ps, k, x, h => by
    obtain ⟨d, hd, hk⟩ := List.exists_of_findSome?_eq_some (by simpa only [read] using h)
    exact ⟨d, ps, ⟨List.mem_reverse.1 hd, rfl⟩, hk⟩
  | many p, α, c, ps, k, x, h => by
    obtain ⟨d, hd, hk⟩ := List.exists_of_findSome?_eq_some (by simpa only [read] using h)
    exact ⟨d, ps, ⟨hd, rfl⟩, hk⟩
  | named label p, α, c, ps, k, x, h => by
    obtain ⟨d, qs, hp, hd⟩ := exists_reads_of_read p (by simpa only [read] using h)
    exact ⟨d, (label, c, d) :: qs, ⟨qs, hp, rfl⟩, hd⟩

/-- A match runs forward in its text. -/
theorem Reads.in : ∀ {p : Pattern} {c d : Cursor} {ps qs : Parts}, p.Reads c ps d qs →
    c.In text → d.In text ∧ c.offset ≤ d.offset
  | char ok, ⟨i, b, rest⟩, d, ps, qs, h, hc => by
    obtain ⟨a, r, hrest, -, rfl, -⟩ := h
    obtain rfl : rest = a :: r := hrest
    exact ⟨hc.next, Nat.le_succ _⟩
  | word same cs, c, d, ps, qs, h, hc => by
    obtain ⟨hin, hoff⟩ := Cursor.in_past? cs hc h.1
    exact ⟨hin, hoff ▸ Nat.le_add_right _ _⟩
  | check ok, c, d, ps, qs, h, hc => by
    obtain ⟨-, rfl, -⟩ := h
    exact ⟨hc, Nat.le_refl _⟩
  | seq p q, c, d, ps, qs, h, hc => by
    obtain ⟨e, rs, hp, hq⟩ := h
    obtain ⟨he, hle⟩ := hp.in hc
    obtain ⟨hd, hle'⟩ := hq.in he
    exact ⟨hd, Nat.le_trans hle hle'⟩
  | alt p q, c, d, ps, qs, h, hc => by
    rcases h with h | h
    · exact h.in hc
    · exact h.in hc
  | stretch ok, c, d, ps, qs, h, hc => hc.of_mem_run h.1
  | shortStretch ok, c, d, ps, qs, h, hc => hc.of_mem_run h.1
  | many p, c, d, ps, qs, h, hc => by
    refine hc.of_mem_steps (fun e f he hread => ?_) h.1
    obtain ⟨f', rs, hr, hf⟩ := exists_reads_of_read p hread
    obtain rfl : f' = f := by simpa using hf
    exact (hr.in he).1
  | named label p, c, d, ps, qs, h, hc => by
    obtain ⟨rs, hp, -⟩ := h
    exact hp.in hc

/-- A match of one of the patterns is a match of one. -/
theorem reads_oneOf_iff {c d : Cursor} {qs rs : Parts} : ∀ {options : List Pattern},
    (oneOf options).Reads c qs d rs ↔ ∃ p ∈ options, p.Reads c qs d rs
  | [] => by simp [oneOf, never, Reads]
  | p :: options => by
    have hcons : (oneOf (p :: options)).Reads c qs d rs ↔
        p.Reads c qs d rs ∨ (oneOf options).Reads c qs d rs := Iff.rfl
    rw [hcons, reads_oneOf_iff]
    simp

/-! ## How a match starts -/

/-- Every match of the pattern starts with a character of the class, and goes behind it. -/
def Opens (ok : Char → Bool) (p : Pattern) : Prop :=
  ∀ (text : List Char) (c d : Cursor) (ps qs : Parts), c.In text → p.Reads c ps d qs →
    c.peek.any ok ∧ c.offset < d.offset

section Opens

variable {ok : Char → Bool} {p q : Pattern}

theorem opens_char (ok : Char → Bool) : (char ok).Opens ok := by
  rintro text c d ps qs - ⟨a, r, hrest, ha, rfl, -⟩
  exact ⟨by simpa [Cursor.peek, hrest] using ha, Nat.lt_succ_self _⟩

theorem opens_text {w : String} {a : Char} (hw : w.toList.head? = some a) (ha : ok a) :
    (Pattern.text w).Opens ok := by
  rintro text c d ps qs hc ⟨hpast, -⟩
  obtain ⟨-, hoff⟩ := Cursor.in_past? _ hc hpast
  obtain ⟨r, hr⟩ := List.head?_eq_some_iff.1 hw
  rw [hr] at hpast hoff
  refine ⟨?_, by rw [hoff, List.length_cons]; omega⟩
  have htake := Cursor.take_of_past? _ hpast
  cases hrest : c.rest with
  | nil => simp [hrest] at htake
  | cons x xs =>
    obtain ⟨rfl, -⟩ : x = a ∧ _ := by simpa [hrest] using htake
    simpa [Cursor.peek, hrest] using ha

theorem Opens.mono {ok' : Char → Bool} (h : p.Opens ok) (hok : ∀ a, ok a → ok' a) :
    p.Opens ok' := by
  intro text c d ps qs hc hreads
  obtain ⟨hpeek, hlt⟩ := h text c d ps qs hc hreads
  refine ⟨?_, hlt⟩
  cases hnext : c.peek with
  | none => simp [hnext] at hpeek
  | some a =>
    rw [hnext] at hpeek
    exact hok a hpeek

theorem Opens.append (h : p.Opens ok) (q : Pattern) : (p ++ q).Opens ok := by
  rintro text c d ps qs hc ⟨e, rs, hp, hq⟩
  obtain ⟨hpeek, hlt⟩ := h text c e ps rs hc hp
  exact ⟨hpeek, Nat.lt_of_lt_of_le hlt (hq.in (hp.in hc).1).2⟩

theorem Opens.check_append (h : p.Opens ok) (test : Cursor → Bool) :
    (check test ++ p).Opens ok := by
  rintro text c d ps qs hc ⟨e, rs, ⟨-, rfl, rfl⟩, hp⟩
  exact h text e d rs qs hc hp

theorem Opens.maybe_append (hp : p.Opens ok) (hq : q.Opens ok) : (maybe p ++ q).Opens ok := by
  rintro text c d ps qs hc ⟨e, rs, hmaybe | hmaybe, hreads⟩
  · exact hp.append q text c d ps qs hc ⟨e, rs, hmaybe, hreads⟩
  · exact hq.check_append _ text c d ps qs hc ⟨e, rs, hmaybe, hreads⟩

theorem Opens.named (h : p.Opens ok) (label : String) : (named label p).Opens ok := by
  rintro text c d ps qs hc ⟨rs, hp, -⟩
  exact h text c d ps rs hc hp

theorem opens_oneOf {ps : List Pattern} (h : ∀ p ∈ ps, p.Opens ok) : (oneOf ps).Opens ok := by
  intro text c d qs rs hc hreads
  obtain ⟨p, hp, hreads⟩ := reads_oneOf_iff.1 hreads
  exact h p hp text c d qs rs hc hreads

end Opens

/-! ## Searches -/

variable {p : Pattern} {c : Cursor} {h : Hit}

theorem reads_of_at? (hit : p.at? c = some h) : h.start = c ∧ p.Reads c [] h.stop h.parts := by
  obtain ⟨d, qs, hr, hk⟩ := exists_reads_of_read p hit
  obtain rfl : ⟨c, d, qs⟩ = h := by simpa using hk
  exact ⟨rfl, hr⟩

theorem reads_of_findFrom? : ∀ (cs : List Char) (i : Nat) (b : Option Char),
    Cursor.In text ⟨i, b, cs⟩ → p.findFrom? i b cs = some h →
      h.start.In text ∧ i ≤ h.start.offset ∧ p.Reads h.start [] h.stop h.parts
  | [], i, b, hc, hit => by
    obtain ⟨hs, hr⟩ := reads_of_at? hit
    rw [hs]
    exact ⟨hc, Nat.le_refl _, hr⟩
  | a :: r, i, b, hc, hit => by
    cases hat : p.at? ⟨i, b, a :: r⟩ with
    | some g =>
      obtain rfl : g = h := by simpa [findFrom?, hat] using hit
      obtain ⟨hs, hr⟩ := reads_of_at? hat
      rw [hs]
      exact ⟨hc, Nat.le_refl _, hr⟩
    | none =>
      obtain ⟨hin, hle, hr⟩ :=
        reads_of_findFrom? r (i + 1) (some a) hc.next (by simpa [findFrom?, hat] using hit)
      exact ⟨hin, Nat.le_of_succ_le hle, hr⟩

theorem reads_of_find? (hc : c.In text) (hit : p.find? c = some h) :
    h.start.In text ∧ c.offset ≤ h.start.offset ∧ p.Reads h.start [] h.stop h.parts :=
  reads_of_findFrom? c.rest c.offset c.before hc hit

theorem reads_of_mem_findAllFrom : ∀ (fuel : List Char) (found : List Hit) (c : Cursor),
    c.In text → ∀ h ∈ p.findAllFrom found fuel c, h ∈ found ∨
      h.start.In text ∧ c.offset ≤ h.start.offset ∧ p.Reads h.start [] h.stop h.parts
  | [], found, c, hc, h, hh => Or.inl (List.mem_reverse.1 hh)
  | a :: fuel, found, c, hc, h, hh => by
    cases hfind : p.find? c with
    | none => exact Or.inl (List.mem_reverse.1 (by simpa [findAllFrom, hfind] using hh))
    | some g =>
      obtain ⟨hstart, hle, hreads⟩ := reads_of_find? hc hfind
      obtain ⟨hstop, hle'⟩ := hreads.in hstart
      simp only [findAllFrom, hfind] at hh
      have hnext : ∃ d : Cursor, d.In text ∧ c.offset ≤ d.offset ∧
          h ∈ p.findAllFrom (g :: found) fuel d := by
        split at hh
        · exact ⟨_, hstop, by omega, hh⟩
        · have hadv := (Cursor.in_advance 1 hstop).2
          have hlen := hstop.offset_le
          exact ⟨_, hstop.advance 1, by omega, hh⟩
      obtain ⟨d, hd, hcd, hh⟩ := hnext
      rcases reads_of_mem_findAllFrom fuel (g :: found) d hd h hh with hmem | ⟨hin, hdh, hr⟩
      · rcases List.mem_cons.1 hmem with rfl | hmem
        · exact Or.inr ⟨hstart, hle, hreads⟩
        · exact Or.inl hmem
      · exact Or.inr ⟨hin, by omega, hr⟩

theorem reads_of_mem_findAll (hc : c.In text) (hh : h ∈ p.findAll c) :
    h.start.In text ∧ c.offset ≤ h.start.offset ∧ p.Reads h.start [] h.stop h.parts := by
  rcases reads_of_mem_findAllFrom c.rest [] c hc h hh with hmem | hmem
  · exact absurd hmem List.not_mem_nil
  · exact hmem

theorem mem_findAll_of_mem_findAllWith {sign : Pattern} (hh : h ∈ findAllWith sign p c) :
    h ∈ p.findAll c := by
  unfold findAllWith at hh
  split at hh
  · exact hh
  · exact absurd hh List.not_mem_nil

/-- The matches of a pattern that takes at least one character. -/
theorem Opens.lt_of_mem_findAll {ok : Char → Bool} (hp : p.Opens ok) (hc : c.In text)
    (hh : h ∈ p.findAll c) :
    c.offset ≤ h.start.offset ∧ h.start.offset < h.stop.offset ∧ h.stop.offset ≤ text.length := by
  obtain ⟨hin, hle, hreads⟩ := reads_of_mem_findAll hc hh
  exact ⟨hle, (hp text _ _ _ _ hin hreads).2, (hreads.in hin).1.offset_le⟩

end Pattern

end ContractAudit
