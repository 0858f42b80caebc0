import ContractAudit.Proofs.Contract.Order
import ContractAudit.Proofs.Text.Spelling

/-!
# Where the header of a member ends

The body of a member is looked for from its keyword on, over whole groups in round brackets, up to
the first brace or semicolon that stands in no group. So wherever the search has come to, what it
has passed holds no such mark, and every group that it has entered is closed (`Settled`,
`settled_of_bodyMarkFrom?`).

Another declaration does not stop the search. A member with a body takes over a declaration behind
it exactly if no brace or semicolon stands between the two (`Source.takesOver_iff`), that is, if its
own declaration was left without an end.
-/

namespace ContractAudit

open Pattern

variable {text : List Char} {lo k : Nat}

/-- A function or modifier with its name, or a constructor. -/
def memberDeclaration : Pattern :=
  oneOf [edge ++ "function" ++ blanks1 ++ ident, edge ++ "modifier" ++ blanks1 ++ ident,
    edge ++ "constructor" ++ edge]

/-- The member that is declared at an offset of the text. -/
def memberAt? (text : List Char) (o : Nat) : Option Hit :=
  memberDeclaration.at? ((Cursor.start text).advance o)

/-- A character that ends a header. -/
def isBodyMark (a : Char) : Bool :=
  a == '{' || a == ';' || a == '}'

/-- No group in round brackets that opens at `lo` or behind encloses the offset `o`. -/
def OutsideGroups (text : List Char) (lo o : Nat) : Prop :=
  ∀ p ≤ o, lo ≤ p → ∀ q ∈ (Pairs.parens text).close? p, q < o

/-- From `lo` up to `hi` the marks all stand in groups. -/
def Unmarked (text : List Char) (lo hi : Nat) : Prop :=
  ∀ o < hi, lo ≤ o → OutsideGroups text lo o → text[o]?.any isBodyMark = false

instance (text : List Char) (lo o : Nat) : Decidable (OutsideGroups text lo o) :=
  inferInstanceAs (Decidable (∀ p ≤ o, lo ≤ p → ∀ q ∈ (Pairs.parens text).close? p, q < o))

instance (text : List Char) (lo hi : Nat) : Decidable (Unmarked text lo hi) :=
  inferInstanceAs
    (Decidable (∀ o < hi, lo ≤ o → OutsideGroups text lo o → text[o]?.any isBodyMark = false))

/-! ## The search for a body -/

/-- The search that started at `lo` has come to `k` : the groups entered on the way are closed, and
no mark was passed outside of them. -/
structure Settled (text : List Char) (lo k : Nat) : Prop where
  le : lo ≤ k
  closed : ∀ p < k, lo ≤ p → ∀ q ∈ (Pairs.parens text).close? p, q < k
  unmarked : Unmarked text lo k

namespace Settled

theorem start (text : List Char) (lo : Nat) : Settled text lo lo where
  le := Nat.le_refl _
  closed p hp hlo := by omega
  unmarked o ho hlo := by omega

theorem outsideGroups (h : Settled text lo k) (hopen : text[k]? ≠ some '(') :
    OutsideGroups text lo k := by
  intro p hpk hlo q hq
  rcases Nat.eq_or_lt_of_le hpk with rfl | hpk
  · exact absurd (Pairs.joins_of_close? hq).opens hopen
  · exact h.closed p hpk hlo q hq

/-- A character that is no mark and opens no group is passed. -/
theorem skip (h : Settled text lo k) (hopen : text[k]? ≠ some '(')
    (hmark : text[k]?.any isBodyMark = false) : Settled text lo (k + 1) where
  le := Nat.le_succ_of_le h.le
  closed p hp hlo q hq :=
    Nat.lt_succ_of_lt (h.outsideGroups hopen p (Nat.le_of_lt_succ hp) hlo q hq)
  unmarked o ho hlo hout := by
    rcases Nat.eq_or_lt_of_le (Nat.le_of_lt_succ ho) with rfl | ho
    · exact hmark
    · exact h.unmarked o ho hlo hout

/-- A whole group is passed. What opens inside it is closed inside it. -/
theorem group {close : Nat} (h : Settled text lo k)
    (hclose : (Pairs.parens text).close? k = some close) : Settled text lo (close + 1) := by
  have hjoins := Pairs.joins_of_close? hclose
  have hlt := hjoins.lt
  refine ⟨by have := h.le; omega, fun p hp hlo q hq => ?_, fun o ho hlo hout => ?_⟩
  · rcases Nat.lt_trichotomy p k with hpk | rfl | hpk
    · have := h.closed p hpk hlo q hq
      omega
    · obtain rfl : close = q := Option.some.inj (hclose.symm.trans hq)
      exact Nat.lt_succ_self _
    · have hopens := (Pairs.joins_of_close? hq).opens
      have hne : p ≠ close := by
        rintro rfl
        exact absurd (Option.some.inj (hopens.symm.trans hjoins.closes)) (by decide)
      obtain ⟨q', hpq', -, hq'⟩ := Pairs.exists_close?_inside hclose hpk (by omega) hopens
      obtain rfl : q = q' := Option.some.inj (hq.symm.trans hpq')
      omega
  · by_cases hok : o < k
    · exact h.unmarked o hok hlo hout
    · -- The group encloses the offset.
      have := hout k (Nat.le_of_not_lt hok) h.le close hclose
      omega

/-- A stretch without marks and brackets is passed. -/
theorem stretch {stop : Nat} (h : Settled text lo k) (hle : k ≤ stop)
    (hplain : ∀ o < stop, k ≤ o → text[o]? ≠ some '(' ∧ text[o]?.any isBodyMark = false) :
    Settled text lo stop := by
  induction hle with
  | refl => exact h
  | @step stop hle ih =>
    obtain ⟨hopen, hmark⟩ := hplain stop (Nat.lt_succ_self _) hle
    exact (ih fun o ho hko => hplain o (Nat.lt_succ_of_lt ho) hko).skip hopen hmark

end Settled

theorem settled_of_bodyMarkFrom? {limit : Nat} :
    ∀ (fuel : Nat) {c d : Cursor} {a : Char}, c.In text →
    bodyMarkFrom? (Pairs.parens text) limit fuel c = some (d, a) → Settled text lo c.offset →
      Settled text lo d.offset
  | 0, _, _, _, _, h, _ => by simp [bodyMarkFrom?] at h
  | fuel + 1, c, d, a, hc, h, hs => by
    simp only [bodyMarkFrom?] at h
    split at h
    · split at h
      · simp at h
      · split at h
        next close hclose =>
          obtain ⟨hin, hoff, -, -⟩ := Body.in_advanceTo_close hc hclose
          split at h
          · refine settled_of_bodyMarkFrom? fuel hin h ?_
            rw [hoff]
            exact hs.group hclose
          · simp at h
        next => simp at h
      next x hne hpeek =>
        split at h
        next =>
          obtain ⟨rfl, -⟩ : c = d ∧ x = a := by simpa using h
          exact hs
        next hmark =>
          have hget := hc.peek_eq.symm.trans hpeek
          have hoff := hc.offset_advance_one hpeek
          refine settled_of_bodyMarkFrom? fuel (hc.advance 1) h ?_
          rw [hoff]
          refine hs.skip ?_ ?_
          · rw [hget]
            exact fun h => hne (Option.some.inj h)
          · simpa [hget, isBodyMark] using hmark
    · simp at h

/-! ## Declarations -/

/-- A character of a declaration. -/
def isDeclarationChar (a : Char) : Bool :=
  isWordChar a || isBlank a

variable {a : Char}

theorem isDeclarationChar_of_isWordChar (h : isWordChar a) : isDeclarationChar a := by
  rw [isDeclarationChar, h, Bool.true_or]

theorem isDeclarationChar_of_isBlank (h : isBlank a) : isDeclarationChar a := by
  rw [isDeclarationChar, h, Bool.or_true]

theorem spells_blanks1 : blanks1.Spells isDeclarationChar :=
  spells_stretch1 fun _ => isDeclarationChar_of_isBlank

theorem spells_declared_name : ident.Spells isDeclarationChar :=
  ⟨fun _ h => isDeclarationChar_of_isWordChar (isWordChar_of_isIdentStart h),
    fun _ => isDeclarationChar_of_isWordChar⟩

theorem spells_memberDeclaration : memberDeclaration.Spells isDeclarationChar := by
  refine spells_oneOf fun p hp => ?_
  simp only [List.mem_cons, List.not_mem_nil, or_false] at hp
  rcases hp with rfl | rfl | rfl
  · exact ⟨⟨⟨trivial, spells_text (by decide)⟩, spells_blanks1⟩, spells_declared_name⟩
  · exact ⟨⟨⟨trivial, spells_text (by decide)⟩, spells_blanks1⟩, spells_declared_name⟩
  · exact ⟨⟨trivial, spells_text (by decide)⟩, trivial⟩

theorem spells_declaration : declaration.Spells isDeclarationChar := by
  have hcontract : contractWord.Spells isDeclarationChar :=
    ⟨⟨⟨⟨spells_text (by decide), spells_blanks1⟩, trivial⟩, spells_text (by decide)⟩,
      spells_text (by decide), spells_text (by decide), trivial⟩
  have hmember : memberWord.Spells isDeclarationChar :=
    spells_words ["function", "modifier", "constructor", "fallback", "receive"] (by decide)
  exact ⟨trivial, ⟨⟨hcontract, spells_blanks1⟩, spells_declared_name⟩, ⟨hmember, trivial⟩, trivial⟩

theorem opens_memberDeclaration : memberDeclaration.Opens isDeclarationChar := by
  refine opens_oneOf fun p hp => ?_
  simp only [List.mem_cons, List.not_mem_nil, or_false] at hp
  rcases hp with rfl | rfl | rfl
  · exact (((opens_text rfl (by decide)).check_append _).append _).append _
  · exact (((opens_text rfl (by decide)).check_append _).append _).append _
  · exact ((opens_text rfl (by decide)).check_append _).append _

/-- A declaration holds no mark and no bracket. -/
theorem plain_of_isDeclarationChar (h : isDeclarationChar a) : a ≠ '(' ∧ isBodyMark a = false := by
  refine ⟨?_, ?_⟩
  · rintro rfl
    exact absurd h (by decide)
  · refine Bool.eq_false_iff.2 fun hmark => ?_
    simp only [isBodyMark, Bool.or_eq_true, beq_iff_eq] at hmark
    rcases hmark with (rfl | rfl) | rfl <;> exact absurd h (by decide)

/-- The keyword of a declaration is passed. -/
theorem settled_of_reads {hit : Hit} (hstart : hit.start.In text)
    (hreads : declaration.Reads hit.start [] hit.stop hit.parts) :
    Settled text hit.start.offset hit.stop.offset := by
  obtain ⟨hstop, hle⟩ := hreads.in hstart
  refine (Settled.start text _).stretch hle fun o ho hlo => ?_
  obtain ⟨a, ha⟩ : ∃ a, text[o]? = some a :=
    ⟨_, List.getElem?_eq_getElem (Nat.lt_of_lt_of_le ho hstop.offset_le)⟩
  obtain ⟨hopen, hmark⟩ :=
    plain_of_isDeclarationChar (hreads.spells spells_declaration hstart o a hlo ho ha)
  rw [ha]
  exact ⟨fun h => hopen (Option.some.inj h), hmark⟩

/-- What a declaration of a member goes over. -/
theorem reads_of_memberAt? {o : Nat} {hit : Hit} (h : memberAt? text o = some hit) :
    hit.start.In text ∧ hit.start.offset = o ∧
    memberDeclaration.Reads hit.start [] hit.stop hit.parts ∧ o < hit.stop.offset := by
  obtain ⟨hstart, hreads⟩ := reads_of_at? h
  obtain ⟨hin, hoff⟩ := Cursor.in_advance o (Cursor.in_start text)
  rw [← hstart] at hin hoff hreads
  have hlt := (opens_memberDeclaration text _ _ _ _ hin hreads).2
  have hle := (hreads.in hin).1.offset_le
  have hzero : (Cursor.start text).offset = 0 := rfl
  exact ⟨hin, by omega, hreads, by omega⟩

/-! ## Members -/

/-- The body of the member, if it has one, starts behind the mark found from the keyword on. -/
def Block.Headed (text : List Char) (b : Block) : Prop :=
  ∀ lo hi, b.body = some (lo, hi) → ∃ (hit : Hit) (brace : Cursor), hit.start.In text ∧
    declaration.Reads hit.start [] hit.stop hit.parts ∧ b.start = hit.start.offset ∧
    bodyMark? (Pairs.parens text) hit.stop = some (brace, '{') ∧ lo = (brace.advance 1).offset

namespace Draft

variable {env : Surroundings} {hit : Hit} {d : Draft}

theorem headed_addMember (henv : env.OfText text) (hstart : hit.start.In text)
    (hreads : declaration.Reads hit.start [] hit.stop hit.parts)
    (hd : ∀ b ∈ d.blocks, b.Headed text) (length : Nat) (kind : BlockKind) :
      ∀ b ∈ (d.addMember env length kind hit).1.blocks, b.Headed text := by
  simp only [addMember]
  split
  · exact hd
  · split
    next brace hmark =>
      have hheaded : ∀ b : Block, b.start = hit.start.offset →
          (∀ lo hi, b.body = some (lo, hi) → lo = (brace.advance 1).offset) → b.Headed text :=
        fun b hb hbody lo hi h =>
          ⟨hit, brace, hstart, hreads, hb, henv.parens_eq ▸ hmark, hbody lo hi h⟩
      split
      · exact List.forall_mem_cons.2 ⟨hheaded _ rfl fun lo hi h =>
          (Prod.mk.inj (Option.some.inj h)).1.symm, hd⟩
      · exact List.forall_mem_cons.2 ⟨hheaded _ rfl fun lo hi h =>
          (Prod.mk.inj (Option.some.inj h)).1.symm, hd⟩
    next =>
      refine List.forall_mem_cons.2 ⟨fun lo hi h => ?_, hd⟩
      cases h

theorem headed_add (henv : env.OfText text) (hstart : hit.start.In text)
    (hreads : declaration.Reads hit.start [] hit.stop hit.parts)
    (hd : ∀ b ∈ d.blocks, b.Headed text)
    (length : Nat) : ∀ b ∈ (d.add env length hit).1.blocks, b.Headed text := by
  unfold add
  split
  · unfold addContract
    split
    · exact hd
    · exact hd
  · split
    · exact hd
    · split
      · exact hd
      · exact headed_addMember henv hstart hreads hd length _

end Draft

theorem Outline.headed_of_mem {b : Block} (hb : b ∈ (Outline.of text).blocks) : b.Headed text := by
  obtain ⟨d, -, -, hd, heq⟩ :=
    Outline.of_induction (P := fun _ d => ∀ b ∈ d.blocks, b.Headed text) text
    (List.forall_mem_nil _) fun env hit _ d henv hstart hreads _ _ hd =>
      Draft.headed_add henv hstart hreads hd text.length
  rw [heq] at hb
  exact hd b (List.mem_reverse.1 hb)

/-- Between the start of a member and the brace of its body no mark stands outside groups. -/
theorem Outline.settled_of_mem {b : Block} (hb : b ∈ (Outline.of text).blocks) {lo hi : Nat}
    (hbody : b.body = some (lo, hi)) :
    ∃ brace, lo = brace + 1 ∧ text[brace]? = some '{' ∧ Settled text b.start brace := by
  obtain ⟨hit, brace, hstart, hreads, hb, hmark, hlo⟩ := headed_of_mem hb lo hi hbody
  obtain ⟨hstop, -⟩ := hreads.in hstart
  obtain ⟨hin, -, hpeek⟩ := in_bodyMarkFrom? rfl _ hstop hmark
  rw [hin.offset_advance_one hpeek] at hlo
  refine ⟨brace.offset, hlo, hin.peek_eq.symm.trans hpeek, ?_⟩
  rw [hb]
  exact settled_of_bodyMarkFrom? _ hstop hmark (settled_of_reads hstart hreads)

/-- Outside all groups of its header, before its body, which starts at `lo`, another member is
declared. -/
def Block.TakesOver (text : List Char) (lo : Nat) (b : Block) : Prop :=
  ∃ o hit, b.start < o ∧ OutsideGroups text b.start o ∧ memberAt? text o = some hit ∧
    hit.stop.offset < lo

/-- A member with a body takes over a later declaration exactly if no brace or semicolon outside
groups stands in front of that. -/
theorem Source.takesOver_iff (source : Source) {b : Block} (hb : b ∈ source.outline.blocks)
    {lo hi : Nat} (hbody : b.body = some (lo, hi)) :
    b.TakesOver source.text.toList lo ↔
      ∃ o, b.start < o ∧ OutsideGroups source.text.toList b.start o ∧
        (memberAt? source.text.toList o).isSome ∧ Unmarked source.text.toList b.start o := by
  obtain ⟨brace, rfl, hbrace, hsettled⟩ := Outline.settled_of_mem hb hbody
  constructor
  · rintro ⟨o, hit, hlt, hout, hat, hstop⟩
    obtain ⟨-, -, -, hlt'⟩ := reads_of_memberAt? hat
    refine ⟨o, hlt, hout, by rw [hat]; rfl, fun k hk => hsettled.unmarked k (by omega)⟩
  · rintro ⟨o, hlt, hout, hat, hunmarked⟩
    obtain ⟨hit, hat⟩ := Option.isSome_iff_exists.1 hat
    obtain ⟨hin, hoff, hreads, -⟩ := reads_of_memberAt? hat
    refine ⟨o, hit, hlt, hout, hat, Nat.lt_succ_of_le (Nat.le_of_not_lt fun hstop => ?_)⟩
    -- The brace of the body would stand in front of the declaration, or be a part of it.
    by_cases ho : brace < o
    · have hmark := hunmarked brace ho hsettled.le (hsettled.outsideGroups (by simp [hbrace]))
      simp [hbrace, isBodyMark] at hmark
    · have hchar := hreads.spells spells_memberDeclaration hin brace _ (by omega) hstop hbrace
      exact absurd hchar (by decide)

/-- A modifier without an end, with a declaration in its own brackets. -/
def Source.unended : Source :=
  Source.ofChars
    "contract C \x7b modifier m(function g) function f(uint a) \x7b x = 1; \x7d \x7d".toList

theorem Source.takesOver_unended :
    ∃ b ∈ unended.outline.blocks, b.body = some (56, 64) ∧ b.TakesOver unended.text.toList 56 := by
  have hblocks : (13, some (56, 64)) ∈ unended.outline.blocks.map fun b => (b.start, b.body) := by
    decide +kernel
  obtain ⟨b, hb, heq⟩ := List.mem_map.1 hblocks
  obtain ⟨hstart, hbody⟩ := Prod.mk.inj heq
  refine ⟨b, hb, hbody, (takesOver_iff _ hb hbody).2 ⟨36, ?_⟩⟩
  rw [hstart]
  decide +kernel

/-- The first function was left without an end, and has the body of the second. -/
def Source.swallowing : Source :=
  Source.ofChars
    "contract C \x7b function f() public function g() public \x7b x = 1; \x7d \x7d".toList

theorem Source.exists_parsed_takesOver :
    ∃ b ∈ swallowing.outline.blocks, b.isParsed ∧ b.name = "f" ∧ b.modifiers = ["function", "g"] ∧
      ∃ lo hi, b.body = some (lo, hi) ∧ b.TakesOver swallowing.text.toList lo := by
  have hblocks : (13, some (54, 62), true, "f", ["function", "g"]) ∈
      swallowing.outline.blocks.map fun b =>
        (b.start, b.body, b.isParsed, b.name, b.modifiers) := by
    decide +kernel
  have hnext : OutsideGroups swallowing.text.toList 13 33 ∧
      (memberAt? swallowing.text.toList 33).any (·.stop.offset < 54) := by decide +kernel
  obtain ⟨b, hb, heq⟩ := List.mem_map.1 hblocks
  simp only [Prod.mk.injEq] at heq
  obtain ⟨hstart, hbody, hparsed, hname, hmodifiers⟩ := heq
  obtain ⟨hout, hany⟩ := hnext
  obtain ⟨hit, hat, hstop⟩ := (Option.any_eq_true _ _).1 hany
  exact ⟨b, hb, hparsed, hname, hmodifiers, 54, 62, hbody, 33, hit, by omega, hstart ▸ hout, hat,
    by simpa using hstop⟩

end ContractAudit
