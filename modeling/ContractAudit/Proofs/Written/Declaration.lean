import ContractAudit.Proofs.Contract.Layout
import ContractAudit.Proofs.Written.Text

/-!
# Finding written declarations

Where a declaration is found, one of the words that open declarations stands on its own
(`Announced`). So the search passes over a text without these words (`Quiet`), and no declaration is
nested in it. At the keyword of a written contract or member the search stops, with the keyword and
the name of a contract as parts (`at?_contract`, `at?_member`).
-/

namespace ContractAudit

open Pattern Cursor

variable {front rest w : List Char}

/-- A word with its edge in front and no word character behind is on its own. -/
theorem faces_of_atWordEdge (hw : isIdentifier w) (hedge : (between front (w ++ rest)).atWordEdge)
    (hrest : rest.head?.any isWordChar = false) : (between front (w ++ rest)).Faces w := by
  refine ⟨?_, List.prefix_append _ _, by simpa using hrest⟩
  have hall := isWordChar_of_isIdentifier hw
  cases w with
  | nil => simp [isIdentifier] at hw
  | cons a w =>
    have ha : isWordChar a := hall a List.mem_cons_self
    simpa [atWordEdge, ha] using hedge

theorem nonword_of_reads_blanks1 {ps : Parts} {d : Cursor} {qs : Parts}
    (h : blanks1.Reads (between front rest) ps d qs) : rest.head?.any isWordChar = false := by
  obtain ⟨gap, r, rfl, hne, hgap, -⟩ := reads_stretch1_iff.1 h
  obtain ⟨a, gap, rfl⟩ := List.exists_cons_of_ne_nil hne
  exact isWordChar_of_isBlank (hgap a List.mem_cons_self)

theorem nonword_of_blanks {gap : List Char} (hgap : ∀ a ∈ gap, isBlank a)
    (hrest : rest.head?.any isWordChar = false) : (gap ++ rest).head?.any isWordChar = false := by
  cases gap with
  | nil => exact hrest
  | cons a gap => exact isWordChar_of_isBlank (hgap a List.mem_cons_self)

namespace Written

/-! ## Texts without declarations -/

/-- Words that open a declaration which is recognised inside a body. -/
def nestedWords : List String :=
  ["contract", "interface", "library", "function", "modifier", "constructor"]

theorem Lacks.of_nestedWords {cs : List Char} (h : Lacks declarationWords cs) :
    Lacks nestedWords cs :=
  fun w hw => h w (List.mem_append_left ["fallback", "receive"] hw)

/-- Behind `front` there are words and blanks, and then one of the given words on its own. -/
def Announced (ws : List String) (front rest : List Char) : Prop :=
  ∃ gap behind, rest = gap ++ behind ∧ (∀ a ∈ gap, isWordChar a || isBlank a) ∧
    ∃ u ∈ ws, (between (front ++ gap) behind).Faces u.toList

theorem isIdentifier_of_mem_declarationWords : ∀ u ∈ declarationWords, isIdentifier u.toList := by
  decide

theorem isIdentifier_of_mem_nestedWords : ∀ u ∈ nestedWords, isIdentifier u.toList := by
  decide

section Announced

variable {ws : List String} (hws : ∀ u ∈ ws, isIdentifier u.toList)

include hws

theorem announced_of_word {u : String} (hu : u ∈ ws)
    (hedge : (between front (u.toList ++ rest)).atWordEdge)
    (hrest : rest.head?.any isWordChar = false) : Announced ws front (u.toList ++ rest) := by
  refine ⟨[], u.toList ++ rest, rfl, by simp, u, hu, ?_⟩
  rw [List.append_nil]
  exact faces_of_atWordEdge (hws u hu) hedge hrest

/-- A text without the words, and a character behind it that is neither a blank nor one of a word,
announce nothing. -/
theorem not_announced {cs u v : List Char} {a : Char} (hlacks : Lacks ws cs)
    (hword : isWordChar a = false) (hblank : isBlank a = false) (huv : cs ++ [a] = u ++ v)
    (hv : v ≠ []) : ¬Announced ws (front ++ u) (v ++ rest) := by
  rintro ⟨gap, behind, hrest, hgap, k, hk, hfaces⟩
  obtain ⟨v, a', rfl⟩ : ∃ v' a', v = v' ++ [a'] := by
    rcases List.eq_nil_or_concat v with rfl | ⟨v, b, rfl⟩
    · exact absurd rfl hv
    · exact ⟨v, b, List.concat_eq_append⟩
  rw [← List.append_assoc] at huv
  obtain ⟨hcs, ha⟩ := List.append_inj' huv rfl
  obtain rfl : a = a' := List.singleton_inj.1 ha
  subst hcs
  rw [List.append_assoc, List.singleton_append] at hrest
  have hchars := isWordChar_of_isIdentifier (hws k hk)
  have hok : ∀ b ∈ gap ++ k.toList, (isWordChar b || isBlank b) = true := by
    refine List.forall_mem_append.2 ⟨hgap, fun b hb => ?_⟩
    simp [hchars b hb]
  -- The words and blanks end before the character, so the word lies in the text.
  have hpre : gap ++ k.toList <+: v ++ a :: rest := by
    rw [hrest]
    exact (List.prefix_append_right_inj gap).2 hfaces.isPrefix
  have hstop : (isWordChar a || isBlank a) = false := by simp [hword, hblank]
  obtain ⟨r, rfl⟩ := prefix_of_prefix_append_cons hstop hok hpre
  obtain rfl : k.toList ++ r ++ a :: rest = behind := by
    simpa only [List.append_assoc, List.append_cancel_left_eq] using hrest
  rw [List.append_assoc] at hfaces
  have hrun := mem_wordRuns_of_faces hchars hword hfaces
  rw [List.append_assoc, ← List.append_assoc gap] at hrun
  exact hlacks k hk hrun

end Announced

section Reads

variable {ps : Parts} {d : Cursor} {qs : Parts}

theorem reads_contractWord (h : contractWord.Reads (between front rest) ps d qs) :
    ∃ gap u r, rest = gap ++ (u.toList ++ r) ∧ u ∈ declarationWords ∧
      d = between (front ++ gap ++ u.toList) r ∧
        (gap = [] ∨ ∃ gap', (∀ a ∈ gap', isBlank a) ∧ gap' ≠ [] ∧
          gap = "abstract".toList ++ gap') := by
  have hplain : ∀ u ∈ declarationWords, (Pattern.text u).Reads (between front rest) ps d qs →
      ∃ gap u r, rest = gap ++ (u.toList ++ r) ∧ u ∈ declarationWords ∧
      d = between (front ++ gap ++ u.toList) r ∧
        (gap = [] ∨ ∃ gap', (∀ a ∈ gap', isBlank a) ∧ gap' ≠ [] ∧
          gap = "abstract".toList ++ gap') := by
    intro u hu hreads
    obtain ⟨r, rfl, rfl, rfl⟩ := reads_text_iff.1 hreads
    exact ⟨[], u, r, rfl, hu, by simp, Or.inl rfl⟩
  obtain ⟨p, hp, hreads⟩ := reads_oneOf_iff.1 h
  simp only [List.mem_cons, List.not_mem_nil, or_false] at hp
  rcases hp with rfl | rfl | rfl
  · obtain ⟨e, rs, habstract, hcontract⟩ := hreads
    rcases reads_maybe_iff.1 habstract with ⟨e', rs', hword, hblanks⟩ | ⟨rfl, rfl⟩
    · obtain ⟨r, rfl, rfl, rfl⟩ := reads_text_iff.1 hword
      obtain ⟨gap, r, rfl, hne, hgap, rfl, rfl⟩ := reads_stretch1_iff.1 hblanks
      obtain ⟨r, rfl, rfl, rfl⟩ := reads_text_iff.1 hcontract
      exact ⟨"abstract".toList ++ gap, "contract", r, by simp, by decide, by simp,
        Or.inr ⟨gap, hgap, hne, rfl⟩⟩
    · exact hplain "contract" (by decide) hcontract
  · exact hplain "interface" (by decide) hreads
  · exact hplain "library" (by decide) hreads

/-- A declaration is announced by its keyword. -/
theorem announced_of_declaration (h : declaration.Reads (between front rest) ps d qs) :
    Announced declarationWords front rest := by
  have hws := isIdentifier_of_mem_declarationWords
  obtain ⟨e, rs, hcheck, hoptions⟩ := h
  obtain ⟨hedge, rfl, rfl⟩ := reads_check_iff.1 hcheck
  obtain ⟨p, hp, hreads⟩ := reads_oneOf_iff.1 hoptions
  simp only [List.mem_cons, List.not_mem_nil, or_false] at hp
  rcases hp with rfl | rfl
  · obtain ⟨e, rs, ⟨e', rs', hword, hblanks⟩, -⟩ := hreads
    obtain ⟨ss, hkeyword, rfl⟩ := reads_named_iff.1 hword
    obtain ⟨gap, u, r, rfl, hu, rfl, hgap⟩ := reads_contractWord hkeyword
    have hbehind := nonword_of_reads_blanks1 hblanks
    rcases hgap with rfl | ⟨gap, hblank, hne, rfl⟩
    · exact announced_of_word hws hu hedge hbehind
    · refine ⟨_, _, rfl, ?_, u, hu, ?_⟩
      · refine List.forall_mem_append.2 ⟨by decide, fun a ha => ?_⟩
        simp [hblank a ha]
      · refine ⟨?_, List.prefix_append _ _, by simpa using hbehind⟩
        rcases List.eq_nil_or_concat gap with rfl | ⟨gap, a, rfl⟩
        · exact absurd rfl hne
        · rw [List.concat_eq_append, ← List.append_assoc, ← List.append_assoc, before_between,
            List.getLast?_concat]
          exact isWordChar_of_isBlank (hblank a (by simp))
  · obtain ⟨e, rs, hword, hbehind⟩ := hreads
    obtain ⟨ss, hkeyword, rfl⟩ := reads_named_iff.1 hword
    have hmembers : memberWord = oneOf (["function", "modifier", "constructor", "fallback",
      "receive"].map Pattern.text) := rfl
    rw [hmembers] at hkeyword
    have hmem : ∀ u ∈ ["function", "modifier", "constructor", "fallback", "receive"],
        u ∈ declarationWords := fun u hu =>
          List.mem_append_right ["contract", "interface", "library"] hu
    obtain ⟨u, hu, r, rfl, hr⟩ := exists_word_of_reads
      (fun u hu => hws u (hmem u hu)) hkeyword hbehind
    exact announced_of_word hws (hmem u hu) hedge hr

/-- A nested declaration is announced by its keyword. -/
theorem announced_of_nestedDeclaration (h : nestedDeclaration.Reads (between front rest) ps d qs) :
    Announced nestedWords front rest := by
  have hws := isIdentifier_of_mem_nestedWords
  obtain ⟨p, hp, hreads⟩ := reads_oneOf_iff.1 h
  simp only [List.mem_cons, List.not_mem_nil, or_false] at hp
  rcases hp with rfl | rfl | rfl | rfl
  · obtain ⟨_, _, ⟨_, _, ⟨_, _, ⟨_, _, ⟨e, rs, hcheck, hword⟩, hblanks⟩, -⟩, -⟩, -⟩ := hreads
    obtain ⟨hedge, rfl, rfl⟩ := reads_check_iff.1 hcheck
    obtain ⟨r, rfl, rfl, rfl⟩ := reads_text_iff.1 hword
    exact announced_of_word hws (by decide) hedge (nonword_of_reads_blanks1 hblanks)
  · obtain ⟨_, _, ⟨_, _, ⟨e, rs, hcheck, hword⟩, hblanks⟩, -⟩ := hreads
    obtain ⟨hedge, rfl, rfl⟩ := reads_check_iff.1 hcheck
    obtain ⟨r, rfl, rfl, rfl⟩ := reads_text_iff.1 hword
    exact announced_of_word hws (by decide) hedge (nonword_of_reads_blanks1 hblanks)
  · obtain ⟨_, _, ⟨_, _, ⟨e, rs, hcheck, hword⟩, hblanks⟩, hparen⟩ := hreads
    obtain ⟨hedge, rfl, rfl⟩ := reads_check_iff.1 hcheck
    obtain ⟨r, rfl, rfl, rfl⟩ := reads_text_iff.1 hword
    obtain ⟨gap, r, rfl, hgap, rfl, rfl⟩ := reads_stretch_iff.1 hblanks
    obtain ⟨r, rfl, -⟩ := (reads_symbol_iff rfl).1 hparen
    exact announced_of_word hws (by decide) hedge (nonword_of_blanks hgap rfl)
  · obtain ⟨_, _, ⟨_, _, ⟨_, _, ⟨_, _, ⟨e, rs, hcheck, hword⟩, hblanks⟩, -⟩, -⟩, -⟩ := hreads
    obtain ⟨hedge, rfl, rfl⟩ := reads_check_iff.1 hcheck
    have hcontracts :
        oneOf [Pattern.text "contract", Pattern.text "interface", Pattern.text "library"] =
      oneOf (["contract", "interface", "library"].map Pattern.text) := rfl
    rw [hcontracts] at hword
    obtain ⟨p, hp, htext⟩ := reads_oneOf_iff.1 hword
    obtain ⟨u, hu, rfl⟩ := List.mem_map.1 hp
    obtain ⟨r, rfl, rfl, rfl⟩ := reads_text_iff.1 htext
    exact announced_of_word hws (List.mem_append_left ["function", "modifier", "constructor"] hu)
      hedge (nonword_of_reads_blanks1 hblanks)

end Reads

/-- The search for a declaration passes over the text. -/
def Quiet (cs : List Char) : Prop :=
  ∀ front rest, declaration.find? (between front (cs ++ rest)) =
    declaration.find? (between (front ++ cs) rest)

section Quiet

variable {cs : List Char} {a : Char}

theorem additive_quiet : Additive Quiet where
  nil front rest := by simp
  append {cs ds} hcs hds front rest := by
    rw [List.append_assoc, hcs, hds, List.append_assoc]

theorem quiet_of_blanks (h : ∀ a ∈ cs, isBlank a) : Quiet cs :=
  opens_declaration.find?_append fun a ha => by simp [h a ha]

theorem Lacks.quiet (h : Lacks declarationWords cs) (hword : isWordChar a = false)
    (hblank : isBlank a = false) : Quiet (cs ++ [a]) :=
  fun _ _ => find?_between_append fun _ _ huv hv _ _ _ hreads =>
    not_announced isIdentifier_of_mem_declarationWords h hword hblank huv hv
      (announced_of_declaration hreads)

theorem quiet_mark (hword : isWordChar a = false) (hblank : isBlank a = false) : Quiet [a] :=
  (lacks_nil (by decide)).quiet hword hblank

/-- No declaration is nested in a text without the words that open one. -/
theorem Lacks.findBefore?_nestedDeclaration (h : Lacks nestedWords cs)
    (hword : isWordChar a = false) (hblank : isBlank a = false) (front rest : List Char) :
    nestedDeclaration.findBefore? cs.length (between front (cs ++ a :: rest)) = none := by
  refine findBefore?_between_eq_none fun u v huv hv ps d qs hreads => ?_
  have hmark : cs ++ [a] = u ++ (v ++ [a]) := by rw [huv, List.append_assoc]
  rw [← List.singleton_append, ← List.append_assoc] at hreads
  exact not_announced isIdentifier_of_mem_nestedWords h hword hblank hmark (by simp)
    (announced_of_nestedDeclaration hreads)

end Quiet

/-- No word goes on behind the text if none goes on in front of it. -/
def Settled (cs : List Char) : Prop :=
  ∀ front : List Char, front.getLast?.any isWordChar = false →
    (front ++ cs).getLast?.any isWordChar = false

section Settled

variable {cs : List Char} {a : Char}

theorem additive_settled : Additive Settled where
  nil front hfront := by rwa [List.append_nil]
  append {cs ds} hcs hds front hfront := by
    rw [← List.append_assoc]
    exact hds _ (hcs _ hfront)

theorem settled_concat (ha : isWordChar a = false) (cs : List Char) : Settled (cs ++ [a]) := by
  intro front _
  rw [← List.append_assoc, List.getLast?_concat]
  exact ha

theorem settled_of_blanks (h : ∀ a ∈ cs, isBlank a) : Settled cs := by
  rcases List.eq_nil_or_concat cs with rfl | ⟨cs, a, rfl⟩
  · exact additive_settled.nil
  · rw [List.concat_eq_append] at h ⊢
    exact settled_concat (isWordChar_of_isBlank (h a (by simp))) cs

end Settled

/-! ## Keywords -/

/-- Neither word starts with the other one. -/
def Differ (u v : String) : Bool :=
  !u.toList.isPrefixOf v.toList && !v.toList.isPrefixOf u.toList

theorem misses_keyword {u v : String} (h : Differ u v) (front rest : List Char) :
    (Pattern.text u).Misses (between front (v.toList ++ rest)) := by
  simp only [Differ, Bool.and_eq_true, Bool.not_eq_true'] at h
  exact misses_text (not_prefix_append h.1 h.2 rest) front

theorem misses_plainContract {v : String} (habstract : Differ "abstract" v)
    (hcontract : Differ "contract" v) (front rest : List Char) :
    (maybe ("abstract" ++ blanks1) ++ Pattern.text "contract").Misses
      (between front (v.toList ++ rest)) := by
  rintro ps d qs ⟨e, rs, hmaybe, hreads⟩
  rcases reads_maybe_iff.1 hmaybe with ⟨e', rs', hword, -⟩ | ⟨rfl, rfl⟩
  · exact misses_keyword habstract front rest _ _ _ hword
  · exact misses_keyword hcontract front rest _ _ _ hreads

theorem takes_edge_before (hhead : rest.head?.any isWordChar)
    (hfront : front.getLast?.any isWordChar = false) (ps : Parts) :
    edge.Takes (between front rest) ps (between front rest) ps := by
  refine takes_check ?_ ps
  rw [atWordEdge, before_between, peek_between, hfront, hhead]
  rfl

theorem takes_edge_behind (front : List Char) (hw : isIdentifier w)
    (hrest : rest.head?.any isWordChar = false) (ps : Parts) :
    edge.Takes (between (front ++ w) rest) ps (between (front ++ w) rest) ps := by
  refine takes_check ?_ ps
  have hlast := getLast?_append_identifier front hw
  rw [atWordEdge, before_between, peek_between, hlast, hrest]
  rfl

theorem takes_contractWord (kind : ContractKind) (front rest : List Char) (ps : Parts) :
    contractWord.Takes (between front (kind.label.toList ++ rest)) ps
      (between (front ++ kind.label.toList) rest) ps := by
  cases kind with
  | contract =>
    refine Takes.oneOf_head (.append (takes_maybe_nothing ?_ ps) (takes_text "contract" ..)) _
    exact (misses_keyword (by decide) front rest).append _
  | abstractContract =>
    have hlabel : ContractKind.abstractContract.label.toList =
        "abstract".toList ++ ' ' :: "contract".toList := by decide
    have habstract := takes_text "abstract" front (' ' :: ([] ++ ("contract".toList ++ rest))) ps
    have hspace : blanks1.Takes (between (front ++ "abstract".toList)
        (' ' :: ([] ++ ("contract".toList ++ rest)))) ps
        (between (front ++ "abstract".toList ++ [' ']) ("contract".toList ++ rest)) ps :=
      takes_stretch1 (by decide) rfl _ ps
    have hcontract := takes_text "contract" (front ++ "abstract".toList ++ [' ']) rest ps
    have htakes : contractWord.Takes _ ps _ ps :=
      ((habstract.append hspace).maybe.append hcontract).oneOf_head _
    rw [hlabel]
    simpa using htakes
  | interface =>
    exact Takes.oneOf_tail (misses_plainContract (by decide) (by decide) front rest)
      (.oneOf_head (takes_text "interface" ..) _)
  | library =>
    exact Takes.oneOf_tail (misses_plainContract (by decide) (by decide) front rest)
      (.oneOf_tail (misses_keyword (by decide) front rest)
        (.oneOf_head (takes_text "library" ..) _))

theorem misses_contractWord (kind : BlockKind) (front rest : List Char) :
    contractWord.Misses (between front (kind.label.toList ++ rest)) := by
  have hdiffer : Differ "abstract" kind.label ∧ Differ "contract" kind.label ∧
      Differ "interface" kind.label ∧ Differ "library" kind.label := by
    cases kind <;> decide
  obtain ⟨habstract, hcontract, hinterface, hlibrary⟩ := hdiffer
  refine misses_oneOf fun p hp => ?_
  simp only [List.mem_cons, List.not_mem_nil, or_false] at hp
  rcases hp with rfl | rfl | rfl
  · exact misses_plainContract habstract hcontract front rest
  · exact misses_keyword hinterface front rest
  · exact misses_keyword hlibrary front rest

theorem takes_memberWord (kind : BlockKind) (front rest : List Char) (ps : Parts) :
    memberWord.Takes (between front (kind.label.toList ++ rest)) ps
      (between (front ++ kind.label.toList) rest) ps := by
  have hmiss : ∀ {u : String}, Differ u kind.label →
      (Pattern.text u).Misses (between front (kind.label.toList ++ rest)) :=
    fun h => misses_keyword h front rest
  cases kind with
  | function => exact .oneOf_head (takes_text "function" ..) _
  | modifier => exact .oneOf_tail (hmiss (by decide)) (.oneOf_head (takes_text "modifier" ..) _)
  | constructor =>
    exact .oneOf_tail (hmiss (by decide)) (.oneOf_tail (hmiss (by decide))
      (.oneOf_head (takes_text "constructor" ..) _))
  | fallback =>
    exact .oneOf_tail (hmiss (by decide)) (.oneOf_tail (hmiss (by decide))
      (.oneOf_tail (hmiss (by decide)) (.oneOf_head (takes_text "fallback" ..) _)))
  | receive =>
    exact .oneOf_tail (hmiss (by decide)) (.oneOf_tail (hmiss (by decide))
      (.oneOf_tail (hmiss (by decide)) (.oneOf_tail (hmiss (by decide))
        (.oneOf_head (takes_text "receive" ..) _))))

/-! ## Hits -/

/-- The keyword of a contract and its name are a declaration. -/
theorem at?_contract (kind : ContractKind) (name : Name)
    (hfront : front.getLast?.any isWordChar = false) (hrest : rest.head?.any isWordChar = false) :
    ∃ hit, declaration.at? (between front (kind.label.toList ++ ' ' :: (name.chars ++ rest))) =
      some hit ∧ hit.start.offset = front.length ∧
      hit.stop = between (front ++ (kind.label.toList ++ ' ' :: name.chars)) rest ∧
      hit.part "contract" = kind.label.toList ∧ hit.part "name" = name.chars ∧
      (hit.part? "contract").isSome := by
  obtain ⟨a, cs, hchars, -⟩ := name.exists_cons
  have hstart : ∀ behind, (kind.label.toList ++ behind).head?.any isWordChar := by
    intro behind
    cases kind <;> rfl
  have hblank : (name.chars ++ rest).head?.any isBlank = false := by
    rw [hchars]
    exact name.not_isBlank_of_mem a (by simp [hchars])
  have hword :=
    (takes_contractWord kind front (' ' :: ([] ++ (name.chars ++ rest))) []).named "contract"
  have hspace := hword.append (takes_stretch1 (by decide) hblank (front ++ kind.label.toList) _)
  have hname := hspace.append ((takes_ident name.isIdentifier_chars hrest _ _).named "name")
  have htakes : declaration.Takes _ [] _ _ := (takes_edge_before (hstart _) hfront []).append
    (hname.oneOf_head _)
  refine ⟨_, htakes.at?, rfl, ?_, ?_, ?_, ?_⟩
  · simp
  · rw [Hit.part_cons_ne (by decide), Hit.part_cons_self, textTo_between]
  · rw [Hit.part_cons_self, textTo_between]
  · rw [Hit.part?_cons_ne (by decide), Hit.part?_cons_self]
    rfl

/-- The keyword of a member is a declaration. -/
theorem at?_member (kind : BlockKind) (hfront : front.getLast?.any isWordChar = false)
    (hrest : rest.head?.any isWordChar = false) :
    ∃ hit, declaration.at? (between front (kind.label.toList ++ rest)) = some hit ∧
      hit.start.offset = front.length ∧ hit.stop = between (front ++ kind.label.toList) rest ∧
      hit.part "member" = kind.label.toList ∧ hit.part? "contract" = none := by
  have hident : isIdentifier kind.label.toList := by cases kind <;> decide
  have hword := (takes_memberWord kind front rest []).named "member"
  have hstart : (kind.label.toList ++ rest).head?.any isWordChar := by cases kind <;> rfl
  have htakes : declaration.Takes _ [] _ _ :=
    (takes_edge_before hstart hfront []).append (.oneOf_tail
    ((((misses_contractWord kind front rest).named "contract").append blanks1).append
      (named "name" ident))
    ((hword.append (takes_edge_behind front hident hrest _)).oneOf_head []))
  refine ⟨_, htakes.at?, rfl, rfl, ?_, ?_⟩
  · rw [Hit.part_cons_self, textTo_between]
  · rw [Hit.part?_cons_ne (by decide)]
    rfl

end Written

end ContractAudit
