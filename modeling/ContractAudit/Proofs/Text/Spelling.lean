import ContractAudit.Proofs.Text.Match

/-!
# Of what characters matches consist

`Pattern.Spells ok p` says that `p` matches characters of the class `ok` only, and `Pattern.Keeps
label ok p` that this is so of what `p` keeps under a label. Both are read off how the pattern is
built. So the parts of a match are known by the pattern alone, whatever text it is found in
(`Pattern.Keeps.part_of_startOf?`, `Pattern.Keeps.part_of_findIn?`,
`Pattern.Keeps.part_of_mem_allIn`).
-/

namespace ContractAudit

variable {text : List Char} {ok : Char → Bool}

theorem mem_of_lookup_eq_some {α β : Type} [BEq α] [LawfulBEq α] {k : α} {v : β}
    {kvs : List (α × β)} (h : kvs.lookup k = some v) : (k, v) ∈ kvs := by
  obtain ⟨front, back, rfl, -⟩ := List.lookup_eq_some_iff.1 h
  exact List.mem_append_right _ List.mem_cons_self

namespace Cursor

variable {c d : Cursor}

theorem In.exists_getElem?_of_mem_textTo (hc : c.In text) {a : Char} (ha : a ∈ c.textTo d) :
    ∃ i, c.offset ≤ i ∧ i < d.offset ∧ text[i]? = some a := by
  rw [hc.textTo_eq, List.extract_eq_take_drop] at ha
  obtain ⟨i, hi⟩ := List.mem_iff_getElem?.1 ha
  have hlt : i < d.offset - c.offset := by
    have := (List.getElem?_eq_some_iff.1 hi).1
    rw [List.length_take] at this
    omega
  rw [List.getElem?_take_of_lt hlt, List.getElem?_drop] at hi
  exact ⟨c.offset + i, by omega, by omega, hi⟩

theorem In.mem_textTo_of_getElem? (hc : c.In text) {i : Nat} {a : Char} (hci : c.offset ≤ i)
    (hid : i < d.offset) (ha : text[i]? = some a) : a ∈ c.textTo d := by
  rw [hc.textTo_eq, List.extract_eq_take_drop]
  refine List.mem_of_getElem? (i := i - c.offset) ?_
  rw [List.getElem?_take_of_lt (by omega), List.getElem?_drop, Nat.add_sub_cancel' hci, ha]

/-- The text behind a word goes on with characters that are the same as those of the word. -/
theorem exists_same_of_past? {same : Char → Char → Bool} :
    ∀ (w : List Char) {c d : Cursor}, c.In text →
    c.past? same w = some d → ∀ i a, c.offset ≤ i → i < d.offset → text[i]? = some a →
      ∃ b ∈ w, same b a
  | [], c, d, _, h, i, a, hci, hid, _ => by
    obtain rfl : c = d := Option.some.inj h
    omega
  | b :: w, ⟨k, _, []⟩, d, _, h, _, _, _, _, _ => by cases h
  | b :: w, ⟨k, _, x :: r⟩, d, hc, h, i, a, hci, hid, ha => by
    unfold past? at h
    split at h
    next hsame =>
      rcases Nat.eq_or_lt_of_le hci with rfl | hlt
      · have hpeek := hc.peek_eq
        rw [ha] at hpeek
        obtain rfl : x = a := Option.some.inj hpeek
        exact ⟨b, List.mem_cons_self, hsame⟩
      · obtain ⟨b', hb', hsame'⟩ := exists_same_of_past? w hc.next h i a hlt hid ha
        exact ⟨b', List.mem_cons_of_mem _ hb', hsame'⟩
    next => cases h

end Cursor

namespace Pattern

/-! ## Characters of a match -/

/-- The pattern matches characters of the class only. -/
def Spells (ok : Char → Bool) : Pattern → Prop
  | char cls | stretch cls | shortStretch cls => ∀ a, cls a → ok a
  | word same cs => ∀ b ∈ cs, ∀ a, same b a → ok a
  | check _ => True
  | seq p q | alt p q => p.Spells ok ∧ q.Spells ok
  | many p | named _ p => p.Spells ok

variable {h : Hit}

section Spells

variable {p q : Pattern}

theorem spells_text {w : String} (h : ∀ a ∈ w.toList, ok a) : (Pattern.text w).Spells ok := by
  intro b hb a hsame
  rw [← beq_iff_eq.1 hsame]
  exact h b hb

theorem spells_stretch1 {cls : Char → Bool} (h : ∀ a, cls a → ok a) : (stretch1 cls).Spells ok :=
  ⟨h, h⟩

theorem spells_oneOf : ∀ {ps : List Pattern}, (∀ p ∈ ps, p.Spells ok) → (oneOf ps).Spells ok
  | [], _ => trivial
  | p :: _, h =>
    ⟨h p List.mem_cons_self, spells_oneOf fun q hq => h q (List.mem_cons_of_mem _ hq)⟩

theorem spells_words (ws : List String) (h : ∀ w ∈ ws, ∀ a ∈ w.toList, ok a) :
    (oneOf (ws.map Pattern.text)).Spells ok := by
  refine spells_oneOf fun p hp => ?_
  obtain ⟨w, hw, rfl⟩ := List.mem_map.1 hp
  exact spells_text (h w hw)

/-- Every character that a match goes over is of the class. -/
theorem Reads.spells : ∀ {p : Pattern} {c d : Cursor} {ps qs : Parts}, p.Reads c ps d qs →
    p.Spells ok → c.In text → ∀ i a, c.offset ≤ i → i < d.offset → text[i]? = some a → ok a
  | char cls, c, d, ps, qs, h, hok, hc, i, a, hci, hid, ha => by
    obtain ⟨x, r, hrest, hx, rfl, -⟩ := h
    obtain rfl : i = c.offset := Nat.le_antisymm (Nat.le_of_lt_succ hid) hci
    have hpeek := hc.peek_eq
    rw [ha, Cursor.peek, hrest] at hpeek
    obtain rfl : x = a := Option.some.inj hpeek
    exact hok x hx
  | word same cs, c, d, ps, qs, h, hok, hc, i, a, hci, hid, ha => by
    obtain ⟨b, hb, hsame⟩ := Cursor.exists_same_of_past? cs hc h.1 i a hci hid ha
    exact hok b hb a hsame
  | check _, c, d, ps, qs, h, _, _, i, a, hci, hid, _ => by
    obtain ⟨-, rfl, -⟩ := h
    omega
  | seq p q, c, d, ps, qs, h, hok, hc, i, a, hci, hid, ha => by
    obtain ⟨e, rs, hp, hq⟩ := h
    by_cases hie : i < e.offset
    · exact hp.spells hok.1 hc i a hci hie ha
    · exact hq.spells hok.2 (hp.in hc).1 i a (Nat.le_of_not_lt hie) hid ha
  | alt p q, c, d, ps, qs, h, hok, hc, i, a, hci, hid, ha => by
    rcases h with h | h
    · exact h.spells hok.1 hc i a hci hid ha
    · exact h.spells hok.2 hc i a hci hid ha
  | stretch cls, c, d, ps, qs, h, hok, hc, i, a, hci, hid, ha =>
    hok a (Cursor.all_of_mem_run h.1 a (hc.mem_textTo_of_getElem? hci hid ha))
  | shortStretch cls, c, d, ps, qs, h, hok, hc, i, a, hci, hid, ha =>
    hok a (Cursor.all_of_mem_run h.1 a (hc.mem_textTo_of_getElem? hci hid ha))
  | many p, c, d, ps, qs, h, hok, hc, i, a, hci, hid, ha => by
    -- Along the rounds, by where the last of them starts.
    have hrounds : ∀ n d, d.offset = n → (many p).Reads c ps d ps → i < d.offset → ok a := by
      intro n
      induction n using Nat.strongRecOn with
      | _ n ih =>
        rintro d rfl hd hid
        rcases eq_or_exists_reads_of_many hd with rfl | ⟨e, rs, he, hp, hlt⟩
        · omega
        · by_cases hie : i < e.offset
          · exact ih e.offset hlt e rfl he hie
          · exact hp.spells hok (he.in hc).1 i a (Nat.le_of_not_lt hie) hid ha
    exact hrounds d.offset d rfl ⟨h.1, rfl⟩ hid
  | Pattern.named label p, c, d, ps, qs, h, hok, hc, i, a, hci, hid, ha => by
    obtain ⟨rs, hp, -⟩ := h
    exact hp.spells hok hc i a hci hid ha

theorem Reads.all_textTo {c d : Cursor} {ps qs : Parts} (h : p.Reads c ps d qs) (hok : p.Spells ok)
    (hc : c.In text) : ∀ a ∈ c.textTo d, ok a := by
  intro a ha
  obtain ⟨i, hci, hid, hat⟩ := hc.exists_getElem?_of_mem_textTo ha
  exact h.spells hok hc i a hci hid hat

theorem Spells.of_mem_allIn (hok : p.Spells ok) (hh : h ∈ p.allIn text) : ∀ a ∈ h.text, ok a := by
  obtain ⟨hin, -, hreads⟩ := reads_of_mem_findAll (Cursor.in_start text) hh
  exact hreads.all_textTo hok hin

theorem Spells.of_startOf? (hok : p.Spells ok) (hh : p.startOf? text = some h) :
    ∀ a ∈ h.text, ok a := by
  obtain ⟨hstart, hreads⟩ := reads_of_at? hh
  rw [Hit.text, hstart]
  exact hreads.all_textTo hok (Cursor.in_start text)

end Spells

/-! ## Parts of a match -/

/-- What the pattern keeps under the label consists of characters of the class. -/
def Keeps (label : String) (ok : Char → Bool) : Pattern → Prop
  | named l p => (l = label → p.Spells ok) ∧ p.Keeps label ok
  | seq p q | alt p q => p.Keeps label ok ∧ q.Keeps label ok
  | char _ | word _ _ | check _ | stretch _ | shortStretch _ | many _ => True

section Keeps

variable {label : String} {p q : Pattern}

theorem keepsNothing_words : ∀ ws : List String, (oneOf (ws.map Pattern.text)).keepsNothing
  | [] => rfl
  | _ :: ws => keepsNothing_words ws

theorem keeps_of_keepsNothing : ∀ {p : Pattern}, p.keepsNothing → p.Keeps label ok
  | char _, _ | word _ _, _ | check _, _ | stretch _, _ | shortStretch _, _ | many _, _ => trivial
  | seq _ _, h | alt _ _, h =>
    ⟨keeps_of_keepsNothing (Bool.and_eq_true_iff.1 h).1,
      keeps_of_keepsNothing (Bool.and_eq_true_iff.1 h).2⟩

theorem Keeps.append_right (h : p.Keeps label ok) (hq : q.keepsNothing) : (p ++ q).Keeps label ok :=
  ⟨h, keeps_of_keepsNothing hq⟩

theorem Keeps.append_left (h : q.Keeps label ok) (hp : p.keepsNothing) : (p ++ q).Keeps label ok :=
  ⟨keeps_of_keepsNothing hp, h⟩

theorem Keeps.append (hp : p.Keeps label ok) (hq : q.Keeps label ok) : (p ++ q).Keeps label ok :=
  ⟨hp, hq⟩

theorem Keeps.maybe (h : p.Keeps label ok) : (maybe p).Keeps label ok :=
  ⟨h, trivial⟩

/-- A part that keeps no parts of its own. -/
theorem Spells.keeps (h : p.Spells ok) (hp : p.keepsNothing) : (named label p).Keeps label ok :=
  ⟨fun _ => h, keeps_of_keepsNothing hp⟩

/-- A part under another label. -/
theorem keeps_other {l : String} (hl : l ≠ label) (hp : p.keepsNothing) :
    (named l p).Keeps label ok :=
  ⟨fun h => absurd h hl, keeps_of_keepsNothing hp⟩

theorem keeps_oneOf : ∀ {ps : List Pattern}, (∀ p ∈ ps, p.Keeps label ok) →
    (oneOf ps).Keeps label ok
  | [], _ => trivial
  | p :: _, h => ⟨h p List.mem_cons_self, keeps_oneOf fun q hq => h q (List.mem_cons_of_mem _ hq)⟩

/-- What is kept under the label was kept before, or consists of characters of the class. -/
theorem Reads.keeps : ∀ {p : Pattern} {c d : Cursor} {ps qs : Parts}, p.Reads c ps d qs →
    p.Keeps label ok → c.In text → ∀ e f, (label, e, f) ∈ qs →
      (label, e, f) ∈ ps ∨ ∀ a ∈ e.textTo f, ok a
  | char _, _, _, _, _, h, _, _, e, f, hef => by
    obtain ⟨-, -, -, -, -, rfl⟩ := h
    exact Or.inl hef
  | word _ _, _, _, _, _, h, _, _, e, f, hef => Or.inl (h.2 ▸ hef)
  | check _, _, _, _, _, h, _, _, e, f, hef => Or.inl (h.2.2 ▸ hef)
  | stretch _, _, _, _, _, h, _, _, e, f, hef => Or.inl (h.2 ▸ hef)
  | shortStretch _, _, _, _, _, h, _, _, e, f, hef => Or.inl (h.2 ▸ hef)
  | many _, _, _, _, _, h, _, _, e, f, hef => Or.inl (h.2 ▸ hef)
  | seq p q, c, d, ps, qs, h, hkeeps, hc, e, f, hef => by
    obtain ⟨c', rs, hp, hq⟩ := h
    rcases hq.keeps hkeeps.2 (hp.in hc).1 e f hef with hef | hall
    · exact hp.keeps hkeeps.1 hc e f hef
    · exact Or.inr hall
  | alt p q, c, d, ps, qs, h, hkeeps, hc, e, f, hef => by
    rcases h with h | h
    · exact h.keeps hkeeps.1 hc e f hef
    · exact h.keeps hkeeps.2 hc e f hef
  | Pattern.named l p, c, d, ps, qs, h, hkeeps, hc, e, f, hef => by
    obtain ⟨rs, hp, rfl⟩ := h
    rcases List.mem_cons.1 hef with heq | hef
    · obtain ⟨hlabel, hplaces⟩ := Prod.mk.inj heq
      obtain ⟨rfl, rfl⟩ := Prod.mk.inj hplaces
      exact Or.inr (hp.all_textTo (hkeeps.1 hlabel.symm) hc)
    · exact hp.keeps hkeeps.2 hc e f hef

theorem Keeps.part (hp : p.Keeps label ok) (hin : h.start.In text)
    (hreads : p.Reads h.start [] h.stop h.parts) : ∀ a ∈ h.part label, ok a := by
  unfold Hit.part Hit.part?
  cases hlookup : h.parts.lookup label with
  | none => exact List.forall_mem_nil _
  | some part =>
    obtain ⟨e, f⟩ := part
    rcases hreads.keeps hp hin e f (mem_of_lookup_eq_some hlookup) with hmem | hall
    · exact absurd hmem List.not_mem_nil
    · exact hall

theorem Keeps.part_of_startOf? (hp : p.Keeps label ok) (hh : p.startOf? text = some h) :
    ∀ a ∈ h.part label, ok a := by
  obtain ⟨hstart, hreads⟩ := reads_of_at? hh
  have hin : h.start.In text := hstart ▸ Cursor.in_start text
  exact hp.part hin (hstart ▸ hreads)

theorem Keeps.part_of_findIn? (hp : p.Keeps label ok) (hh : p.findIn? text = some h) :
    ∀ a ∈ h.part label, ok a := by
  obtain ⟨hin, -, hreads⟩ := reads_of_find? (Cursor.in_start text) hh
  exact hp.part hin hreads

theorem Keeps.part_of_mem_allIn (hp : p.Keeps label ok) (hh : h ∈ p.allIn text) :
    ∀ a ∈ h.part label, ok a := by
  obtain ⟨hin, -, hreads⟩ := reads_of_mem_findAll (Cursor.in_start text) hh
  exact hp.part hin hreads

end Keeps

end Pattern

end ContractAudit
