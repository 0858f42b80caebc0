import ContractAudit.Proofs.Contract.Layout
import ContractAudit.Proofs.Text.Nesting

/-!
# Members in order

A declaration makes at most one member (`Draft.Adds`), which starts there and ends inside the text
(`Block.Fits`). The search goes on behind the keyword, and behind the whole member if it could be
read, so the members found so far lie before the place it has reached (`Draft.Passed`). In the end
members stand in the order of their starts, and none starts inside a member that could be read
(`LaidOut`, `Source.outline_laidOut`).
-/

namespace ContractAudit

open Pattern

variable {text : List Char} {env : Surroundings} {hit : Hit} {a b : Block}

/-- The body of the member lies between two matched braces, behind the keyword and up to the end of
the member, and the braces in it are matched among themselves. -/
structure Block.Enclosed (text : List Char) (lo hi : Nat) (b : Block) : Prop where
  body_eq : b.body = some (lo, hi)
  header : b.start < lo
  body_le : lo ≤ hi
  stop_eq : b.stop = hi + 1
  opens : text[lo - 1]? = some '{'
  closes : text[hi]? = some '}'
  close_eq : (Pairs.braces text).close? (lo - 1) = some hi
  balanced : Pairs.Balanced '{' '}' text (Pairs.braces text) (lo - 1) hi

/-- The member has at least one character and lies inside the text; one that could be read has its
body at its end, and any other has no statements. -/
structure Block.Fits (text : List Char) (b : Block) : Prop where
  start_lt : b.start < b.stop
  stop_le : b.stop ≤ text.length
  enclosed : b.isParsed → ∃ lo hi, b.Enclosed text lo hi
  empty : b.isParsed = false → b.statements = []

/-- The second member starts behind the start of the first, and behind its end if that could be
read. -/
def Block.Before (a b : Block) : Prop :=
  a.start < b.start ∧ (a.isParsed → a.stop ≤ b.start)

/-! ## Where searches find something -/

namespace Pattern

variable {p : Pattern} {h : Hit}

theorem offset_of_findFrom? : ∀ (cs : List Char) (i : Nat) (b : Option Char),
    p.findFrom? i b cs = some h → i ≤ h.start.offset ∧ h.start.offset ≤ i + cs.length
  | [], i, b, hit => by
    rw [(reads_of_at? hit).1]
    exact ⟨Nat.le_refl _, Nat.le_refl _⟩
  | a :: r, i, b, hit => by
    simp only [findFrom?] at hit
    split at hit
    next g hat =>
      obtain rfl := Option.some.inj hit
      rw [(reads_of_at? hat).1]
      exact ⟨Nat.le_refl _, Nat.le_add_right _ _⟩
    next =>
      obtain ⟨hle, hle'⟩ := offset_of_findFrom? r (i + 1) (some a) hit
      rw [List.length_cons]
      omega

theorem offset_of_findBefore? : ∀ (n : Nat) (c : Cursor), p.findBefore? n c = some h →
    c.offset ≤ h.start.offset ∧ h.start.offset < c.offset + n
  | 0, c, hit => by simp [findBefore?] at hit
  | n + 1, c, hit => by
    simp only [findBefore?] at hit
    split at hit
    next g hat =>
      obtain rfl := Option.some.inj hit
      rw [(reads_of_at? hat).1]
      omega
    next =>
      split at hit
      · cases hit
      next i b x r =>
        obtain ⟨hle, hlt⟩ := offset_of_findBefore? n _ hit
        dsimp only at hle hlt ⊢
        omega

end Pattern

/-! ## One declaration -/

namespace Draft

/-- A declaration adds at most one member, which fits, and the search goes on at `r.2`. -/
structure Adds (text : List Char) (hit : Hit) (d : Draft) (r : Draft × Cursor) : Prop where
  blocks : r.1.blocks = d.blocks ∨ ∃ b, r.1.blocks = b :: d.blocks ∧ b.Fits text ∧
    b.start = hit.start.offset ∧ (b.isParsed → b.stop ≤ r.2.offset)

/-- A member without a body ends inside the text. -/
theorem bareHeaderEnd_bounds (hlt : hit.start.offset < hit.stop.offset) (hs : hit.stop.In text) :
    hit.start.offset < bareHeaderEnd text.length hit ∧
      bareHeaderEnd text.length hit ≤ text.length := by
  have hle := hs.offset_le
  have hlimit : 0 < headerLimit := by decide
  unfold bareHeaderEnd
  dsimp only
  split
  next following hfind =>
    obtain ⟨hge, hbound⟩ := offset_of_findFrom? _ _ _ hfind
    dsimp only at hge hbound
    rw [List.length_take] at hbound
    omega
  next => omega

/-- A declaration in the body of a member begins inside the text. -/
theorem nestedStart_bounds {c : Cursor} {close : Option Nat} {h : Hit} (hc : c.In text)
    (hclose : ∀ k, close = some k → k < text.length)
    (hfind : nestedDeclaration.findBefore? (close.getD text.length - c.offset) c = some h) :
    c.offset ≤ h.start.offset ∧ h.start.offset ≤ text.length := by
  have hle := hc.offset_le
  have hbound : close.getD text.length ≤ text.length := by
    cases close with
    | none => exact Nat.le_refl _
    | some k => exact Nat.le_of_lt (hclose k rfl)
  obtain ⟨hge, hlt⟩ := offset_of_findBefore? _ _ hfind
  omega

/-- A member whose body could be read. -/
theorem enclosed_of_close? {brace : Cursor} {close : Nat} (hin : brace.In text)
    (hpeek : brace.peek = some '{') (hclose : (Pairs.braces text).close? brace.offset = some close)
    (hbody : b.body = some ((brace.advance 1).offset, close)) (hstart : b.start < brace.offset)
    (hstop : b.stop = close + 1) : b.Enclosed text (brace.advance 1).offset close := by
  have hoff := hin.offset_advance_one hpeek
  have hjoins := Pairs.joins_of_close? hclose
  have hlt := hjoins.lt
  have hbefore : (brace.advance 1).offset - 1 = brace.offset := by omega
  refine ⟨hbody, by omega, by omega, hstop, ?_, hjoins.closes, ?_, ?_⟩
  · rw [hbefore]
    exact hjoins.opens
  · rwa [hbefore]
  · rw [hbefore]
    exact Pairs.balanced_of_close? (by decide) hclose

/-- A member that could not be read only has to lie inside the text. -/
theorem adds_of_fault {d : Draft} {r : Draft × Cursor} (hblocks : r.1.blocks = b :: d.blocks)
    (hparsed : b.isParsed = false) (hempty : b.statements = [])
    (hstart : b.start = hit.start.offset)
    (hstop : hit.start.offset < b.stop ∧ b.stop ≤ text.length) : Adds text hit d r := by
  have hfits : b.Fits text :=
    ⟨hstart ▸ hstop.1, hstop.2, fun h => absurd h (by simp [hparsed]), fun _ => hempty⟩
  exact ⟨Or.inr ⟨b, hblocks, hfits, hstart, fun h => absurd h (by simp [hparsed])⟩⟩

theorem adds_addMember (henv : env.OfText text) (hlt : hit.start.offset < hit.stop.offset)
    (hs : hit.stop.In text) (kind : BlockKind) (d : Draft) :
    Adds text hit d (d.addMember env text.length kind hit) := by
  simp only [addMember]
  split
  · exact ⟨Or.inl rfl⟩
  · split
    next brace hmark =>
      obtain ⟨hbrace, hle, hpeek⟩ := in_bodyMark? henv hs hmark
      have hoff := hbrace.offset_advance_one hpeek
      have hle' := (hbrace.advance 1).offset_le
      rw [henv.braces_eq]
      split
      next close hclose hnested =>
        obtain ⟨-, hnext, -, -⟩ := Body.in_advanceTo_close hbrace hclose
        have hjoin := Pairs.joins_of_close? hclose
        refine ⟨Or.inr ⟨_, rfl, ⟨?_, hjoin.lt_length, fun _ => ?_, ?_⟩, rfl, fun _ => ?_⟩⟩
        · show hit.start.offset < close + 1
          have := hjoin.lt
          omega
        · exact ⟨_, _, enclosed_of_close? hbrace hpeek hclose rfl (by dsimp only; omega) rfl⟩
        · intro hfault
          cases hfault
        · exact Nat.le_of_eq hnext.symm
      next =>
        refine adds_of_fault rfl rfl rfl rfl ?_
        dsimp only
        split
        next h hfind =>
          obtain ⟨hge, hbound⟩ := nestedStart_bounds (hbrace.advance 1)
            (fun k hk => (Pairs.joins_of_close? hk).lt_length) hfind
          exact ⟨by omega, hbound⟩
        next => exact ⟨by omega, Nat.le_refl _⟩
    next =>
      -- What ends the header, if anything does, stands behind the keyword.
      refine adds_of_fault rfl rfl rfl rfl ?_
      dsimp only
      split
      next c x hmark =>
        obtain ⟨hin, hle, -⟩ := in_bodyMark? henv hs hmark
        exact ⟨by omega, hin.offset_le⟩
      next => exact bareHeaderEnd_bounds hlt hs

theorem adds_add (henv : env.OfText text) (hlt : hit.start.offset < hit.stop.offset)
    (hs : hit.stop.In text) (d : Draft) : Adds text hit d (d.add env text.length hit) := by
  unfold add
  split
  · unfold addContract
    split
    · exact ⟨Or.inl rfl⟩
    · exact ⟨Or.inl rfl⟩
  · split
    · exact ⟨Or.inl rfl⟩
    · split
      · exact ⟨Or.inl rfl⟩
      · exact adds_addMember henv hlt hs _ d

/-! ## The pass over a text -/

/-- The members found so far fit and stand in order, the latest first, and the offset `o` lies
behind the start of each, and behind the end of those that could be read. -/
structure Passed (text : List Char) (o : Nat) (d : Draft) : Prop where
  fits : ∀ b ∈ d.blocks, b.Fits text
  ordered : d.blocks.Pairwise fun b a => a.Before b
  behind : ∀ b ∈ d.blocks, b.start < o ∧ (b.isParsed → b.stop ≤ o)

theorem Adds.passed {d : Draft} {r : Draft × Cursor} {o : Nat} (h : Adds text hit d r)
    (hd : Passed text o d) (ho : o ≤ hit.start.offset) (hnext : hit.start.offset < r.2.offset) :
    Passed text r.2.offset r.1 := by
  have hbehind : ∀ b ∈ d.blocks, b.start < r.2.offset ∧ (b.isParsed → b.stop ≤ r.2.offset) := by
    intro b hb
    obtain ⟨hstart, hstop⟩ := hd.behind b hb
    exact ⟨by omega, fun hparsed => Nat.le_trans (hstop hparsed) (by omega)⟩
  rcases h.blocks with heq | ⟨b, heq, hfits, hstart, hstop⟩
  · exact ⟨heq ▸ hd.fits, heq ▸ hd.ordered, heq ▸ hbehind⟩
  · refine ⟨?_, ?_, ?_⟩
    · rw [heq]
      exact List.forall_mem_cons.2 ⟨hfits, hd.fits⟩
    · rw [heq]
      refine List.pairwise_cons.2 ⟨fun a ha => ?_, hd.ordered⟩
      obtain ⟨hlt, hle⟩ := hd.behind a ha
      exact ⟨by omega, fun hparsed => Nat.le_trans (hle hparsed) (by omega)⟩
    · rw [heq]
      exact List.forall_mem_cons.2 ⟨⟨by omega, hstop⟩, hbehind⟩

end Draft

/-! ## All members of a text -/

/-- The members stand in the order of their starts inside the text. Those that could be read lie
apart, each with its body between matched braces, and no member starts inside one of them. -/
structure LaidOut (text : List Char) (bs : List Block) : Prop where
  ordered : bs.Pairwise fun a b => a.start < b.start
  inside : ∀ b ∈ bs, b.start < b.stop ∧ b.stop ≤ text.length
  enclosed : ∀ b ∈ bs, b.isParsed → ∃ lo hi, b.Enclosed text lo hi
  free : ∀ a ∈ bs, a.isParsed → ∀ b ∈ bs, ¬(a.start < b.start ∧ b.start < a.stop)
  apart : bs.Pairwise fun a b => a.isParsed → b.isParsed → a.stop ≤ b.start
  empty : ∀ b ∈ bs, b.isParsed = false → b.statements = []

theorem Outline.passed (text : List Char) :
    ∃ o, Draft.Passed text o ⟨[], [], (Outline.of text).blocks.reverse⟩ := by
  obtain ⟨d, o, -, hd, heq⟩ :=
    Outline.of_induction (P := Draft.Passed text) text ⟨by simp, .nil, by simp⟩
    fun env hit o d henv hstart hreads hle hext hd => by
      have hlt := (opens_declaration text _ _ _ _ hstart hreads).2
      have hnext := hext.le
      exact (Draft.adds_add henv hlt (hreads.in hstart).1 d).passed hd hle (by omega)
  refine ⟨o, ?_⟩
  rw [heq, List.reverse_reverse]
  exact ⟨hd.fits, hd.ordered, hd.behind⟩

/-- The members of any source are laid out in order. -/
theorem Source.outline_laidOut (source : Source) :
    LaidOut source.text.toList source.outline.blocks := by
  obtain ⟨o, h⟩ := Outline.passed source.text.toList
  have hfits : ∀ b ∈ source.outline.blocks, b.Fits source.text.toList := fun b hb =>
    h.fits b (List.mem_reverse.2 hb)
  have hordered : source.outline.blocks.Pairwise Block.Before := List.pairwise_reverse.1 h.ordered
  refine ⟨hordered.imp fun hab => hab.1, fun b hb => ⟨(hfits b hb).start_lt, (hfits b hb).stop_le⟩,
    fun b hb => (hfits b hb).enclosed, ?_, hordered.imp fun hab hparsed _ => hab.2 hparsed,
    fun b hb => (hfits b hb).empty⟩
  -- Of two members one stands before the other.
  have hfree := List.Pairwise.forall_of_forall_of_flip
    (R := fun a b : Block => a.isParsed → ¬(a.start < b.start ∧ b.start < a.stop))
    (fun b _ _ h => Nat.lt_irrefl _ h.1)
    (hordered.imp fun hab hparsed h => Nat.not_lt.2 (hab.2 hparsed) h.2)
    (hordered.imp fun hab _ h => Nat.lt_asymm hab.1 h.1)
  exact fun a ha hparsed b hb => hfree ha hb hparsed

end ContractAudit
