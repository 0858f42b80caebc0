import ContractAudit.Proofs.Written.Attribute
import ContractAudit.Proofs.Written.Variable

/-!
# Written headers are read

The mark that ends a header is the brace behind it (`Written.bodyMark?_between`), and the text in
front of it is read as the header that was meant (`Written.Member.parseHeader_signature`,
`Written.Contract.parseBases_heritage`).
-/

namespace ContractAudit

namespace Written

open Pattern Cursor

/-! ## The end of a header -/

section Mark

variable {front w rest : List Char} {parens : Pairs} {limit : Nat}

/-- A character that ends no header and opens no group. -/
def isUnmarked (a : Char) : Bool :=
  !(['{', '}', ';'].contains a)

theorem bodyMarkFrom?_char {a : Char} (ha : isUnmarked a) (hparen : isParen a = false) (fuel : Nat)
    (hlimit : front.length < limit) :
    bodyMarkFrom? parens limit (fuel + 1) (between front (a :: rest)) =
      bodyMarkFrom? parens limit fuel (between (front ++ [a]) rest) := by
  have hopen : a ≠ '(' := by
    rintro rfl
    exact absurd hparen (by decide)
  have hmark : (a == '{' || a == ';' || a == '}') = false := by
    simp [isUnmarked] at ha
    simp [ha]
  have hlt : (between front (a :: rest)).offset < limit := hlimit
  rw [bodyMarkFrom?, if_pos hlt]
  split
  next h => simp at h
  next h => simp [hopen] at h
  next b _ h =>
    obtain rfl : a = b := by simpa using h
    rw [hmark, if_neg Bool.false_ne_true, advance_one_between]

theorem bodyMarkFrom?_group {inner : List Char} (fuel : Nat)
    (hparens : parens = Pairs.parens (front ++ '(' :: (inner ++ ')' :: rest)))
    (hinner : level '(' ')' 0 inner = some 0) (hlimit : front.length + 1 + inner.length < limit) :
    bodyMarkFrom? parens limit (fuel + 1) (between front ('(' :: (inner ++ ')' :: rest))) =
      bodyMarkFrom? parens limit fuel (between (front ++ '(' :: (inner ++ [')'])) rest) := by
  have hclose : parens.close? front.length = some (front.length + 1 + inner.length) := by
    rw [hparens]
    exact Pairs.close?_of_level (by decide) hinner
  rw [bodyMarkFrom?, if_pos (by simp only [offset_between]; omega)]
  split
  next h => simp at h
  next =>
    rw [offset_between, hclose]
    simp only [if_pos hlimit, advanceTo_group]
  next b hne h =>
    obtain rfl : '(' = b := by simpa using h
    exact absurd rfl hne

theorem glides_bodyMarkFrom? (h : Grouped isUnmarked w)
    (hparens : parens = Pairs.parens (front ++ (w ++ rest)))
    (hlimit : front.length + w.length ≤ limit) :
    Glides (bodyMarkFrom? parens limit) (bodyMarkFrom? parens limit) front w rest := by
  refine h.glides (fun front' a rest' _ hlimit ha hparen fuel => ?_)
    (fun front' inner rest' htext hlimit hinner fuel => ?_) rfl hlimit
  · exact bodyMarkFrom?_char ha hparen fuel hlimit
  · exact bodyMarkFrom?_group fuel (htext ▸ hparens) hinner hlimit

/-- The mark of a header is the brace behind it. -/
theorem bodyMark?_between (h : Grouped isUnmarked w) (hshort : w.length < headerLimit)
    (hparens : parens = Pairs.parens (front ++ (w ++ '{' :: rest))) :
    bodyMark? parens (between front (w ++ '{' :: rest)) =
      some (between (front ++ w) ('{' :: rest), '{') := by
  have hle : front.length + w.length ≤ front.length + headerLimit := by omega
  obtain ⟨k, hk⟩ := (glides_bodyMarkFrom? h hparens hle).exists_eq hshort
  have hlt : (between (front ++ w) ('{' :: rest)).offset < front.length + headerLimit := by
    simpa using hshort
  rw [bodyMark?, offset_between, hk, bodyMarkFrom?, if_pos hlt]
  rfl

/-- The mark of a header is not looked for beyond the limit. -/
theorem bodyMark?_eq_none (hw : ∀ a ∈ w, isUnmarked a && !isParen a)
    (hlong : headerLimit ≤ w.length) : bodyMark? parens (between front (w ++ rest)) = none := by
  obtain ⟨u, v, rfl, hu⟩ : ∃ u v, w = u ++ v ∧ u.length = headerLimit :=
    ⟨_, _, (List.take_append_drop headerLimit w).symm, List.length_take_of_le hlong⟩
  obtain ⟨limit, hlimit⟩ : ∃ limit, limit = front.length + headerLimit := ⟨_, rfl⟩
  have hle : front.length + u.length ≤ limit := by omega
  have hglides :
      Glides (bodyMarkFrom? parens limit) (bodyMarkFrom? parens limit) front u (v ++ rest) := by
    refine glides_of_forall (fun front' a rest' _ hlt ha fuel => ?_)
      (fun a ha => hw a (List.mem_append_left v ha)) rfl hle
    rw [Bool.and_eq_true, Bool.not_eq_true'] at ha
    exact bodyMarkFrom?_char ha.1 ha.2 fuel hlt
  obtain ⟨n, hn, hrun⟩ := hglides
  obtain ⟨fuel, hfuel⟩ : ∃ fuel, headerLimit = n + fuel := ⟨headerLimit - n, by omega⟩
  have hge : ¬(between (front ++ u) (v ++ rest)).offset < limit := by
    rw [offset_between, List.length_append]
    omega
  rw [bodyMark?, offset_between, ← hlimit, hfuel, List.append_assoc, hrun]
  cases fuel with
  | zero => rfl
  | succ fuel => rw [bodyMarkFrom?, if_neg hge]

theorem grouped_of_header (hchars : ∀ a ∈ w, isHeaderChar a)
    (hparens : level '(' ')' 0 w = some 0) : Grouped isUnmarked w := by
  refine grouped_of_level hparens fun a ha _ => ?_
  have hne : ∀ b, isHeaderChar b = false → a ≠ b := fun b hb => ne_of_isHeaderChar (hchars a ha) hb
  simp [isUnmarked, hne '{' (by decide), hne '}' (by decide), hne ';' (by decide)]

end Mark

/-! ## Groups and words of a header -/

/-- The group that starts a text. -/
theorem groupFrom_append : ∀ {w : List Char} {n k : Nat} (inner rest : List Char),
    level '(' ')' n w = some k →
      groupFrom inner (n + 1) (w ++ rest) = groupFrom (w.reverse ++ inner) (k + 1) rest
  | [], n, k, inner, rest, h => by
    obtain rfl : n = k := Option.some.inj h
    rfl
  | a :: w, n, k, inner, rest, h => by
    by_cases hopen : a = '('
    · subst hopen
      rw [level_opener] at h
      rw [List.cons_append, groupFrom, groupFrom_append _ rest h, List.reverse_cons,
        List.append_assoc]
      rfl
    · by_cases hclose : a = ')'
      · subst hclose
        cases n with
        | zero => simp [level] at h
        | succ n =>
          rw [level_closer (by decide)] at h
          rw [List.cons_append, groupFrom, if_neg (by simp), Nat.add_sub_cancel,
            groupFrom_append _ rest h, List.reverse_cons, List.append_assoc]
          rfl
      · rw [level_other hopen hclose] at h
        rw [List.cons_append, groupFrom, groupFrom_append _ rest h, List.reverse_cons,
          List.append_assoc]
        · rfl
        · exact hopen
        · exact hclose

theorem leadingGroup?_group {inner : List Char} (h : level '(' ')' 0 inner = some 0)
    (rest : List Char) : leadingGroup? ('(' :: (inner ++ ')' :: rest)) = some (inner, rest) := by
  have htrim : trimLeft ('(' :: (inner ++ ')' :: rest)) = '(' :: (inner ++ ')' :: rest) :=
    trimLeft_of_head rfl
  rw [leadingGroup?, htrim]
  show groupFrom [] (0 + 1) (inner ++ ')' :: rest) = _
  rw [groupFrom_append [] _ h, groupFrom]
  simp

theorem leadingGroup?_gap (gap : Gap) (text : List Char) :
    leadingGroup? (gap.chars ++ text) = leadingGroup? text := by
  rw [leadingGroup?, trimLeft_append gap.isBlank_of_mem, ← leadingGroup?]

theorem leadingName?_identifier (gap : Gap) (hgap : gap.chars ≠ []) {name rest : List Char}
    (hname : isIdentifier name) (hrest : rest.head?.any isWordChar = false) :
    leadingName? (gap.chars ++ (name ++ rest)) = some (String.ofList name, rest) := by
  have hblank : (name ++ rest).head?.any isBlank = false := by
    cases name with
    | nil => simp [isIdentifier] at hname
    | cons a cs =>
      exact isBlank_of_isWordChar (isWordChar_of_isIdentifier hname a List.mem_cons_self)
  have hspace := gap.takes_blanks1 hgap hblank [] []
  have hident := (takes_ident hname hrest ([] ++ gap.chars) []).named "name"
  rw [leadingName?, startOf?, ← between_nil, (hspace.append hident).at?, Option.map_some,
    Hit.part_cons_self, textTo_between]
  rfl

theorem leadingName?_name (n : Name) {rest : List Char}
    (hrest : rest.head?.any isWordChar = false) :
    leadingName? (' ' :: (n.chars ++ rest)) = some (n.text, rest) :=
  leadingName?_identifier .space (by decide) n.isIdentifier_chars hrest

/-- A text without groups. -/
theorem stripGroups_of_not_mem {cs : List Char} (h : '(' ∉ cs) : stripGroups cs = cs := by
  rw [stripGroups_eq_chars]
  refine (Remains.chars_of_unclosed ?_).1
  rintro front behind rfl
  exact absurd (by simp) h

theorem isDotted_of_isIdentifier {w : List Char} (h : isIdentifier w) : isDotted w := by
  cases w with
  | nil => simp [isIdentifier] at h
  | cons a w =>
    obtain ⟨ha, hw⟩ := isIdentifier_cons.1 h
    rw [isDotted, Bool.and_eq_true, List.all_eq_true]
    exact ⟨ha, fun b hb => by simp [isDottedChar, hw b hb]⟩

/-- Words behind spaces are attributes without arguments. -/
theorem exists_attributes : ∀ {ws : List (List Char)}, (∀ w ∈ ws, isIdentifier w) →
    ∃ as : List Attribute, (∀ a ∈ as, a.gap.chars ≠ []) ∧
      as.flatMap Attribute.chars = ws.flatMap (' ' :: ·) ∧
      as.map Attribute.text = ws.map String.ofList
  | [], _ => ⟨[], List.forall_mem_nil _, rfl, rfl⟩
  | w :: ws, h => by
    obtain ⟨as, hgap, hchars, htext⟩ := exists_attributes fun v hv =>
      h v (List.mem_cons_of_mem w hv)
    have hw := isDotted_of_isIdentifier (h w List.mem_cons_self)
    refine ⟨⟨.space, w, hw, none⟩ :: as, List.forall_mem_cons.2 ⟨List.cons_ne_nil _ _, hgap⟩, ?_,
      ?_⟩
    · simp [hchars, Attribute.chars, Gap.space]
    · simp [htext, Attribute.text]

/-- The words behind the parameters are the attributes. -/
theorem attributeWords_words {ws : List (List Char)} (h : ∀ w ∈ ws, isIdentifier w) :
    attributeWords (ws.flatMap (' ' :: ·) ++ [' ']) = ws.map String.ofList := by
  obtain ⟨as, hgap, hchars, htext⟩ := exists_attributes h
  rw [← hchars, ← htext]
  exact Attribute.attributeWords_attributes (Attribute.spaced_of_forall hgap) .space

/-! ## Members -/

theorem mem_reservedWords_of_visibility {w : String} {v : Visibility}
    (h : Visibility.ofKeyword? w = some v) : w ∈ reservedWords := by
  unfold Visibility.ofKeyword? at h
  split at h <;> first | decide | simp at h

theorem mem_reservedWords_of_mutability {w : String} {m : Mutability}
    (h : Mutability.ofKeyword? w = some m) : w ∈ reservedWords := by
  unfold Mutability.ofKeyword? at h
  split at h <;> first | decide | simp at h

/-- A name is none of the words with a meaning of their own. -/
theorem addWord_name (h : Header) (n : Name) (hn : n.text ∉ h.modifiers) :
    h.addWord n.text = { h with modifiers := h.modifiers ++ [n.text] } := by
  have hnot := n.text_not_mem
  have hvisibility : Visibility.ofKeyword? n.text = none :=
    Option.eq_none_iff_forall_ne_some.2 fun v hv => hnot (mem_reservedWords_of_visibility hv)
  have hmutability : Mutability.ofKeyword? n.text = none :=
    Option.eq_none_iff_forall_ne_some.2 fun m hm => hnot (mem_reservedWords_of_mutability hm)
  have hheader : n.text ∉ headerWords := by
    have hsub : ∀ w ∈ headerWords, w ∈ reservedWords := by decide
    exact fun hmem => hnot (hsub _ hmem)
  simp [Header.addWord, hvisibility, hmutability, hheader, hn]

theorem foldl_addWord_modifiers : ∀ (ns : List Name) (h : Header), ns.Nodup →
    (∀ n ∈ ns, n.text ∉ h.modifiers) →
      (ns.map Name.text).foldl Header.addWord h =
        { h with modifiers := h.modifiers ++ ns.map Name.text }
  | [], h, _, _ => by simp
  | n :: ns, h, hnodup, hnew => by
    obtain ⟨hn, hns⟩ := List.nodup_cons.1 hnodup
    rw [List.map_cons, List.foldl_cons, addWord_name h n (hnew n List.mem_cons_self),
      foldl_addWord_modifiers ns _ hns fun k hk => ?_]
    · simp
    · have hne : k.text ≠ n.text := by
        intro heq
        exact hn (Name.text_injective heq ▸ hk)
      simpa [hne] using hnew k (List.mem_cons_of_mem n hk)

theorem foldl_addWord_mutability : ∀ (ms : List Mutability) (h : Header),
    (ms.map (·.keyword)).foldl Header.addWord h = { h with mutability := h.mutability ++ ms }
  | [], h => by simp
  | m :: ms, h => by
    have hword : h.addWord m.keyword = { h with mutability := h.mutability ++ [m] } := by
      cases m <;> rfl
    rw [List.map_cons, List.foldl_cons, hword, foldl_addWord_mutability ms]
    simp

namespace Member

variable (m : Member)

theorem foldl_addWord_attributes (kind : BlockKind) (name : String) (params : List Parameter) :
    (m.attributes.map String.ofList).foldl Header.addWord ⟨kind, name, params, none, [], []⟩ =
      ⟨kind, name, params, m.visibility, m.mutability, m.modifiers.map Name.text⟩ := by
  have hvisibility : (m.visibility.toList.map (·.keyword)).foldl Header.addWord
      ⟨kind, name, params, none, [], []⟩ = ⟨kind, name, params, m.visibility, [], []⟩ := by
    cases m.visibility with
    | none => rfl
    | some v => cases v <;> rfl
  have hwords : m.attributes.map String.ofList = m.visibility.toList.map (·.keyword) ++
      m.mutability.map (·.keyword) ++ m.modifiers.map Name.text := by
    simp [attributes, Written.attributes, Function.comp_def, String.ofList_toList, Name.text]
  rw [hwords, List.foldl_append, List.foldl_append, hvisibility, foldl_addWord_mutability,
    foldl_addWord_modifiers _ _ m.nodup (by simp)]
  simp

/-- A written header is read as it is meant. -/
theorem parseHeader_signature : parseHeader m.role.kind m.signature = m.header := by
  obtain ⟨rest, hrest⟩ : ∃ rest, rest =
      '(' :: (m.paramChars ++ ')' :: (m.attributes.flatMap (' ' :: ·) ++ [' '])) := ⟨_, rfl⟩
  have hgroup : leadingGroup? rest =
      some (m.paramChars, m.attributes.flatMap (' ' :: ·) ++ [' ']) := by
    rw [hrest, leadingGroup?_group m.level_paramChars]
  have hname : ∀ n : Name, leadingName? (' ' :: (n.chars ++ rest)) = some (n.text, rest) :=
    fun n => leadingName?_name n (by rw [hrest]; rfl)
  have hparams : parseParams m.paramChars = m.params.map Param.record := parseParams_chars m.params
  have hwords := attributeWords_words m.isIdentifier_of_mem_attributes
  rw [signature_eq, ← hrest, header]
  cases hrole : m.role with
  | function n =>
    simp [parseHeader, Role.kind, Role.name, Role.name?, BlockKind.isNamedByKeyword, hname, hgroup,
      hparams, hwords, foldl_addWord_attributes]
  | modifier n =>
    simp [parseHeader, Role.kind, Role.name, Role.name?, BlockKind.isNamedByKeyword, hname, hgroup,
      hparams, hwords, foldl_addWord_attributes]
  | constructor =>
    simp [parseHeader, Role.kind, Role.name, Role.name?, BlockKind.isNamedByKeyword, hgroup,
      hparams, hwords, foldl_addWord_attributes]
  | fallback =>
    simp [parseHeader, Role.kind, Role.name, Role.name?, BlockKind.isNamedByKeyword, hgroup,
      hparams, hwords, foldl_addWord_attributes]
  | receive =>
    simp [parseHeader, Role.kind, Role.name, Role.name?, BlockKind.isNamedByKeyword, hgroup,
      hparams, hwords, foldl_addWord_attributes]

end Member

/-! ## Bases -/

theorem Name.comma_not_mem (n : Name) : ',' ∉ n.chars :=
  fun hmem => absurd (n.isWordChar_of_mem _ hmem) (by decide)

/-- One name between commas, or at the end of the bases. -/
theorem trimmedPieces_splitAt_name (n : Name) (gap : List Char) (hgap : ∀ a ∈ gap, isBlank a) :
    trimmedPieces (splitAt (· == ',') (' ' :: (n.chars ++ gap))) = [n.chars] := by
  have hcomma : ∀ c ∈ ' ' :: (n.chars ++ gap), (c == ',') = false := by
    simp only [List.forall_mem_cons, List.forall_mem_append, beq_eq_false_iff_ne]
    refine ⟨by decide, fun c hc heq => n.comma_not_mem (heq ▸ hc), fun c hc heq => ?_⟩
    exact absurd (hgap c hc) (heq ▸ by decide)
  have hspace : ∀ a ∈ [' '], isBlank a := by decide
  have htrim : trim ([' '] ++ (n.chars ++ gap)) = n.chars :=
    (trimmed_of_forall n.not_isBlank_of_mem).trim_append_append n.chars_ne_nil hspace hgap
  rw [List.singleton_append] at htrim
  simp [splitAt_eq_singleton hcomma, trimmedPieces, htrim, n.chars_ne_nil]

/-- The names between commas. -/
theorem trimmedPieces_splitAt_names : ∀ (n : Name) (ns : List Name),
    trimmedPieces (splitAt (· == ',')
      (' ' :: ([',', ' '].intercalate ((n :: ns).map Name.chars) ++ [' ']))) =
    (n :: ns).map Name.chars
  | n, [] => by simpa using trimmedPieces_splitAt_name n [' '] (by decide)
  | n, k :: ns => by
    have hfirst := trimmedPieces_splitAt_name n [] (by simp)
    have htext : ' ' :: ([',', ' '].intercalate ((n :: k :: ns).map Name.chars) ++ [' ']) =
        ' ' :: (n.chars ++ []) ++
          ',' :: ' ' :: ([',', ' '].intercalate ((k :: ns).map Name.chars) ++ [' ']) := by
      simp [List.intercalate_cons_cons]
    rw [htext, splitAt_append_cons rfl, trimmedPieces, List.map_append, List.filter_append,
      ← trimmedPieces, ← trimmedPieces, hfirst, trimmedPieces_splitAt_names k ns]
    rfl

namespace Contract

variable (c : Contract)

/-- The written bases are read as they are meant. -/
theorem parseBases_heritage : parseBases c.heritage = c.bases.map Name.text := by
  cases hbases : c.bases with
  | nil =>
    rw [heritage, hbases]
    decide
  | cons n ns =>
    obtain ⟨names, hnames⟩ : ∃ names, names = [',', ' '].intercalate ((n :: ns).map Name.chars) :=
      ⟨_, rfl⟩
    have htext : c.heritage = [' '] ++ ("is".toList ++ ' ' :: (names ++ [' '])) := by
      rw [heritage, hbases, hnames]
      rfl
    have hopens : (edge ++ "is" ++ edge).Opens (· == 'i') :=
      ((opens_text (a := 'i') rfl rfl).check_append _).append _
    have htakes :
        (edge ++ "is" ++ edge).Takes (between [' '] ("is".toList ++ ' ' :: (names ++ [' ']))) []
        (between ([' '] ++ "is".toList) (' ' :: (names ++ [' ']))) [] :=
      ((takes_check rfl []).append (takes_text "is" _ _ [])).append (takes_check rfl [])
    have hopen : '(' ∉ ' ' :: (names ++ [' ']) := by
      intro hmem
      refine c.paren_not_mem_heritage ?_
      rw [htext]
      exact List.mem_append_right _ (List.mem_append_right _ hmem)
    have hfind : (edge ++ "is" ++ edge).findIn? c.heritage = some ⟨between [' ']
        ("is".toList ++ ' ' :: (names ++ [' '])), between ([' '] ++ "is".toList)
        (' ' :: (names ++ [' '])), []⟩ := by
      rw [htext, findIn?, ← between_nil, hopens.find?_append (by decide)]
      exact find?_of_at? htakes.at?
    rw [parseBases, hfind]
    simp only [rest_between]
    rw [stripGroups_of_not_mem hopen, hnames, trimmedPieces_splitAt_names, List.map_map]
    rfl

end Contract

end Written

end ContractAudit
