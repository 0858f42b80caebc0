import Mathlib.Data.List.Forall2
import ContractAudit.Proofs.Text.Search

/-!
# Patterns as languages

A pattern is *blind* if it does not look at what stands around the text it takes (`Pattern.Blind`).
What such a pattern matches is a language : the texts that it accepts (`Pattern.Accepts`), wherever
they stand (`Pattern.Blind.reads_iff`). So a text starts with the pattern if it starts with an
accepted text, and the pattern occurs in a text if an accepted text does
(`Pattern.Blind.starts_iff`, `Pattern.Blind.occursIn_iff`).
-/

namespace ContractAudit

open Cursor

/-- The word is read where a text stands whose characters are the same as those of the word. -/
theorem Cursor.past?_between_iff {same : Char → Char → Bool} {d : Cursor} :
    ∀ {cs front rest : List Char},
    (between front rest).past? same cs = some d ↔ ∃ w r, rest = w ++ r ∧
      List.Forall₂ (fun a b => same a b) cs w ∧ d = between (front ++ w) r
  | [], front, rest => by
    constructor
    · intro h
      exact ⟨[], rest, rfl, .nil, by rw [← Option.some.inj h, List.append_nil]⟩
    · rintro ⟨w, r, rfl, hsame, rfl⟩
      cases hsame
      rw [List.append_nil]
      rfl
  | c :: cs, front, [] => by
    constructor
    · intro h
      cases h
    · rintro ⟨w, r, hnil, hsame, -⟩
      cases hsame
      cases hnil
  | c :: cs, front, a :: rest => by
    have hstep : (between front (a :: rest)).past? same (c :: cs) =
        if same c a then (between (front ++ [a]) rest).past? same cs else none := by
      rw [← next_between]
      rfl
    rw [hstep]
    constructor
    · intro h
      split at h
      next ha =>
        obtain ⟨w, r, rfl, hsame, rfl⟩ := past?_between_iff.1 h
        exact ⟨a :: w, r, rfl, .cons ha hsame, by simp⟩
      next => cases h
    · rintro ⟨w, r, htext, hsame, rfl⟩
      obtain ⟨b, w, ha, hrest, rfl⟩ := List.forall₂_cons_left_iff.1 hsame
      obtain ⟨rfl, rfl⟩ := List.cons.inj htext
      rw [if_pos ha]
      exact past?_between_iff.2 ⟨w, r, rfl, hrest, by simp⟩

namespace Pattern

variable {p q : Pattern} {front rest text w : List Char}

/-- The pattern does not look at what stands around the text that it takes. -/
def Blind : Pattern → Prop
  | char _ | word _ _ | stretch _ | shortStretch _ => True
  | check ok => ∀ c d, ok c = ok d
  | seq p q | alt p q => p.Blind ∧ q.Blind
  | many _ => False
  | named _ p => p.Blind

/-- The texts that a blind pattern takes. -/
def Accepts : Pattern → List Char → Prop
  | char ok, w => ∃ a, ok a ∧ w = [a]
  | word same cs, w => List.Forall₂ (fun a b => same a b) cs w
  | check ok, w => (∀ c, ok c) ∧ w = []
  | seq p q, w => ∃ u v, w = u ++ v ∧ p.Accepts u ∧ q.Accepts v
  | alt p q, w => p.Accepts w ∨ q.Accepts w
  | stretch ok, w | shortStretch ok, w => ∀ a ∈ w, ok a
  | many _, _ => False
  | named _ p, w => p.Accepts w

/-! ## How patterns are built -/

@[simp]
theorem blind_append : (p ++ q).Blind ↔ p.Blind ∧ q.Blind :=
  Iff.rfl

@[simp]
theorem blind_text (u : String) : (Pattern.text u).Blind :=
  trivial

@[simp]
theorem blind_stretch (ok : Char → Bool) : (stretch ok).Blind :=
  trivial

@[simp]
theorem blind_char (ok : Char → Bool) : (char ok).Blind :=
  trivial

@[simp]
theorem blind_oneOf : ∀ {ps : List Pattern}, (oneOf ps).Blind ↔ ∀ p ∈ ps, p.Blind
  | [] => ⟨fun _ => List.forall_mem_nil _, fun _ _ _ => rfl⟩
  | _ :: _ => (and_congr_right fun _ => blind_oneOf).trans List.forall_mem_cons.symm

@[simp]
theorem blind_maybe : (maybe p).Blind ↔ p.Blind :=
  ⟨fun h => h.1, fun h => ⟨h, fun _ _ => rfl⟩⟩

theorem Accepts.append {u v : List Char} (hp : p.Accepts u) (hq : q.Accepts v) :
    (p ++ q).Accepts (u ++ v) :=
  ⟨u, v, rfl, hp, hq⟩

theorem accepts_text {u : String} : (Pattern.text u).Accepts w ↔ w = u.toList := by
  have heq : (fun a b : Char => ((a == b) = true)) = (· = ·) := by
    funext a b
    exact propext beq_iff_eq
  rw [Pattern.text, Accepts, heq, List.forall₂_eq_eq_eq, eq_comm]

theorem accepts_oneOf : ∀ {ps : List Pattern}, (oneOf ps).Accepts w ↔ ∃ p ∈ ps, p.Accepts w
  | [] => by
    refine ⟨fun h => absurd (h.1 (start [])) Bool.false_ne_true, ?_⟩
    rintro ⟨p, hp, -⟩
    cases hp
  | p :: ps => by
    have hcons : (oneOf (p :: ps)).Accepts w ↔ p.Accepts w ∨ (oneOf ps).Accepts w := Iff.rfl
    rw [hcons, accepts_oneOf, List.exists_mem_cons_iff]

theorem accepts_words {us : List String} :
    (oneOf (us.map Pattern.text)).Accepts w ↔ ∃ u ∈ us, w = u.toList := by
  simp only [accepts_oneOf, List.mem_map, exists_exists_and_eq_and, accepts_text]

theorem accepts_maybe : (maybe p).Accepts w ↔ p.Accepts w ∨ w = [] :=
  or_congr_right ⟨fun h => h.2, fun h => ⟨fun _ => rfl, h⟩⟩

/-! ## Reading -/

/-- A blind pattern takes the texts that it accepts. -/
theorem Blind.reads_iff : ∀ {p : Pattern} {front rest : List Char} {ps : Parts} {d : Cursor},
    p.Blind → ((∃ qs, p.Reads (between front rest) ps d qs) ↔
      ∃ w r, rest = w ++ r ∧ p.Accepts w ∧ d = between (front ++ w) r)
  | char ok, front, rest, ps, d, _ => by
    constructor
    · rintro ⟨qs, h⟩
      obtain ⟨a, r, rfl, ha, rfl, -⟩ := reads_char_iff.1 h
      exact ⟨[a], r, rfl, ⟨a, ha, rfl⟩, rfl⟩
    · rintro ⟨w, r, rfl, ⟨a, ha, rfl⟩, rfl⟩
      exact ⟨ps, reads_char_iff.2 ⟨a, r, rfl, ha, rfl, rfl⟩⟩
  | word same cs, front, rest, ps, d, _ => by
    constructor
    · rintro ⟨qs, hpast, -⟩
      exact past?_between_iff.1 hpast
    · intro h
      exact ⟨ps, past?_between_iff.2 h, rfl⟩
  | check ok, front, rest, ps, d, hp => by
    constructor
    · rintro ⟨qs, hok, rfl, -⟩
      exact ⟨[], rest, rfl, ⟨fun c => (hp c _).trans hok, rfl⟩, by rw [List.append_nil]⟩
    · rintro ⟨w, r, rfl, ⟨hok, rfl⟩, rfl⟩
      rw [List.append_nil]
      exact ⟨ps, hok _, rfl, rfl⟩
  | seq p q, front, rest, ps, d, hp => by
    constructor
    · rintro ⟨qs, e, rs, hpr, hqr⟩
      obtain ⟨u, r, rfl, hu, rfl⟩ := hp.1.reads_iff.1 ⟨rs, hpr⟩
      obtain ⟨v, r, rfl, hv, rfl⟩ := hp.2.reads_iff.1 ⟨qs, hqr⟩
      exact ⟨u ++ v, r, by simp, ⟨u, v, rfl, hu, hv⟩, by simp⟩
    · rintro ⟨w, r, rfl, ⟨u, v, rfl, hu, hv⟩, rfl⟩
      obtain ⟨rs, hpr⟩ :
        ∃ rs, p.Reads (between front (u ++ v ++ r)) ps (between (front ++ u) (v ++ r)) rs :=
        hp.1.reads_iff.2 ⟨u, v ++ r, List.append_assoc u v r, hu, rfl⟩
      obtain ⟨qs, hqr⟩ :
        ∃ qs, q.Reads (between (front ++ u) (v ++ r)) rs (between (front ++ (u ++ v)) r) qs :=
        hp.2.reads_iff.2 ⟨v, r, rfl, hv, by rw [List.append_assoc]⟩
      exact ⟨qs, _, rs, hpr, hqr⟩
  | alt p q, front, rest, ps, d, hp => by
    constructor
    · rintro ⟨qs, h | h⟩
      · obtain ⟨w, r, htext, hw, hd⟩ := hp.1.reads_iff.1 ⟨qs, h⟩
        exact ⟨w, r, htext, Or.inl hw, hd⟩
      · obtain ⟨w, r, htext, hw, hd⟩ := hp.2.reads_iff.1 ⟨qs, h⟩
        exact ⟨w, r, htext, Or.inr hw, hd⟩
    · rintro ⟨w, r, htext, hw | hw, hd⟩
      · obtain ⟨qs, h⟩ := hp.1.reads_iff.2 ⟨w, r, htext, hw, hd⟩
        exact ⟨qs, Or.inl h⟩
      · obtain ⟨qs, h⟩ := hp.2.reads_iff.2 ⟨w, r, htext, hw, hd⟩
        exact ⟨qs, Or.inr h⟩
  | stretch ok, front, rest, ps, d, _ => by
    constructor
    · rintro ⟨qs, h⟩
      obtain ⟨w, r, htext, hw, hd, -⟩ := reads_stretch_iff.1 h
      exact ⟨w, r, htext, hw, hd⟩
    · rintro ⟨w, r, htext, hw, hd⟩
      exact ⟨ps, reads_stretch_iff.2 ⟨w, r, htext, hw, hd, rfl⟩⟩
  | shortStretch ok, front, rest, ps, d, _ => by
    constructor
    · rintro ⟨qs, h⟩
      obtain ⟨w, r, htext, hw, hd, -⟩ := reads_shortStretch_iff.1 h
      exact ⟨w, r, htext, hw, hd⟩
    · rintro ⟨w, r, htext, hw, hd⟩
      exact ⟨ps, reads_shortStretch_iff.2 ⟨w, r, htext, hw, hd, rfl⟩⟩
  | many p, _, _, _, _, hp => absurd hp id
  | named label p, front, rest, ps, d, hp => by
    constructor
    · rintro ⟨qs, rs, h, -⟩
      exact reads_iff (p := p) hp |>.1 ⟨rs, h⟩
    · intro h
      obtain ⟨rs, h⟩ := (reads_iff (p := p) hp).2 h
      exact ⟨_, rs, h, rfl⟩

/-- A text starts with the pattern if it starts with an accepted text. -/
theorem Blind.starts_iff (hp : p.Blind) : p.starts text ↔ ∃ w, w <+: text ∧ p.Accepts w := by
  rw [Pattern.starts_iff]
  constructor
  · rintro ⟨d, hreads⟩
    obtain ⟨w, r, rfl, hw, -⟩ := hp.reads_iff.1 hreads
    exact ⟨w, List.prefix_append w r, hw⟩
  · rintro ⟨w, ⟨r, rfl⟩, hw⟩
    exact ⟨_, hp.reads_iff.2 ⟨w, r, rfl, hw, rfl⟩⟩

/-- The pattern occurs in a text if an accepted text does. -/
theorem Blind.occursIn_iff (hp : p.Blind) : p.occursIn text ↔ ∃ w, w <:+: text ∧ p.Accepts w := by
  rw [Pattern.occursIn_iff]
  constructor
  · rintro ⟨front, rest, rfl, d, hreads⟩
    obtain ⟨w, r, rfl, hw, -⟩ := hp.reads_iff.1 hreads
    exact ⟨w, ⟨front, r, List.append_assoc front w r⟩, hw⟩
  · rintro ⟨w, ⟨front, r, rfl⟩, hw⟩
    exact ⟨front, w ++ r, List.append_assoc front w r, _, hp.reads_iff.2 ⟨w, r, rfl, hw, rfl⟩⟩

end Pattern

end ContractAudit
