import ContractAudit.Proofs.Written.Pieces

/-!
# Written variables are read

A declaration is a type and a name behind its last blank. What a pattern keeps as the name can only
be the last word of the text (`Written.eq_of_last_word`), and what it keeps as the type what stands
in front of it, so there is one way to read a parameter (`Written.parseParam_named`) and a state
variable (`Written.Variable.stateVariable?_chars`).
-/

namespace ContractAudit

namespace Written

open Pattern Cursor

/-! ## The last word -/

section LastWord

variable {front behind name gap word tail : List Char}

/-- The word behind the last blank is found in one way. -/
theorem eq_of_last_blank {front' w w' : List Char} (hfront : front.getLast?.any isBlank)
    (hfront' : front'.getLast?.any isBlank) (hw : ∀ a ∈ w, isBlank a = false)
    (hw' : ∀ a ∈ w', isBlank a = false) (h : front ++ w = front' ++ w') :
      front = front' ∧ w = w' := by
  have hhead {cs : List Char} (h : cs.getLast?.any isBlank) :
      cs.reverse.head?.any (fun a => !isBlank a) = false := by
    rw [List.head?_reverse]
    cases hlast : cs.getLast? with
    | none => rfl
    | some a => simpa [hlast] using h
  have hsolid {cs : List Char} (h : ∀ a ∈ cs, isBlank a = false) :
      ∀ a ∈ cs.reverse, (fun a => !isBlank a) a = true := by
    simpa using h
  have hreverse := congrArg List.reverse h
  rw [List.reverse_append, List.reverse_append] at hreverse
  obtain ⟨hword, hrest⟩ :=
    eq_of_run_append (hsolid hw) (hsolid hw') (hhead hfront) (hhead hfront') hreverse
  exact ⟨List.reverse_inj.1 hrest, List.reverse_inj.1 hword⟩

/-- The last word of a text, and the space in front of it, are found in one way. -/
theorem eq_of_last_word (h : front ++ ' ' :: name = behind ++ (gap ++ (word ++ tail)))
    (hfront : front.getLast?.any isBlank = false) (hname : ∀ a ∈ name, isBlank a = false)
    (hne : name ≠ []) (hgap : ∀ a ∈ gap, isBlank a) (hgapne : gap ≠ [])
    (hword : ∀ a ∈ word, isBlank a = false) (htail : tail = [] ∨ tail = ['\n']) :
    behind = front ∧ gap = [' '] ∧ word = name ∧ tail = [] := by
  obtain rfl : tail = [] := by
    rcases htail with rfl | rfl
    · rfl
    · obtain ⟨n, b, rfl⟩ := List.eq_nil_or_concat name |>.resolve_left hne
      have hends : (front ++ ' ' :: n) ++ [b] = (behind ++ (gap ++ word)) ++ ['\n'] := by
        simpa using h
      obtain ⟨-, hlast⟩ := List.append_inj' hends rfl
      obtain rfl : b = '\n' := by simpa using hlast
      exact absurd (hname '\n' (by simp)) (by decide)
  obtain ⟨g, b, rfl⟩ := List.eq_nil_or_concat gap |>.resolve_left hgapne
  rw [List.concat_eq_append] at *
  have hb : isBlank b := hgap b (by simp)
  have hsplit : (front ++ [' ']) ++ name = (behind ++ g ++ [b]) ++ word := by
    simpa using h
  have hlast {cs : List Char} {b : Char} (hb : isBlank b) : (cs ++ [b]).getLast?.any isBlank := by
    simpa using hb
  obtain ⟨hrest, rfl⟩ := eq_of_last_blank (hlast rfl) (hlast hb) hname hword hsplit
  obtain ⟨hfront', hspace⟩ := List.append_inj' hrest rfl
  obtain rfl : ' ' = b := by simpa using hspace
  rcases List.eq_nil_or_concat g with rfl | ⟨g, c, rfl⟩
  · exact ⟨by simpa using hfront'.symm, rfl, rfl, rfl⟩
  · rw [List.concat_eq_append, ← List.append_assoc] at hfront'
    rw [hfront', List.getLast?_concat, Option.any_some, hgap c (by simp)] at hfront
    cases hfront

/-- A pattern for a type, a gap and a name up to the end reads the last word as the name. -/
theorem reads_declared_iff {p : Pattern} {d : Cursor} {qs : Parts}
    (hfront : front.getLast?.any isBlank = false) (hname : isIdentifier name) :
    (p ++ blanks1 ++ named "name" ident ++ Pattern.atEnd).Reads
      (Cursor.start (front ++ ' ' :: name)) [] d qs ↔
      ∃ rs, p.Reads (Cursor.start (front ++ ' ' :: name)) [] (between front (' ' :: name)) rs ∧
        d = between (front ++ [' '] ++ name) [] ∧
        qs = ("name", between (front ++ [' ']) name, between (front ++ [' '] ++ name) []) ::
          rs := by
  have hne : name ≠ [] := by
    rintro rfl
    simp [isIdentifier] at hname
  have hsolid : ∀ {w : List Char}, isIdentifier w → ∀ a ∈ w, isBlank a = false :=
    fun hw a ha => isBlank_of_isWordChar (isWordChar_of_isIdentifier hw a ha)
  rw [← between_nil]
  constructor
  · rintro ⟨e₃, qs₃, ⟨e₂, qs₂, ⟨e₁, rs, htype, hblanks⟩, hnamed⟩, hend⟩
    obtain ⟨t, r₁, hchars, rfl⟩ := htype.exists_between
    obtain ⟨gap, r₂, rfl, hgapne, hgap, rfl, rfl⟩ := reads_stretch1_iff.1 hblanks
    obtain ⟨rs, hident, rfl⟩ := reads_named_iff.1 hnamed
    obtain ⟨w, r₃, rfl, hw, rfl, rfl⟩ := reads_ident_iff.1 hident
    obtain ⟨htail, rfl, rfl⟩ := reads_atEnd_iff.1 hend
    obtain ⟨rfl, rfl, rfl, rfl⟩ :=
      eq_of_last_word hchars hfront (hsolid hname) hne hgap hgapne (hsolid hw) htail
    exact ⟨_, by simpa using htype, by simp, by simp⟩
  · rintro ⟨rs, htype, rfl, rfl⟩
    have hblanks :
        blanks1.Reads (between front (' ' :: name)) rs (between (front ++ [' ']) name) rs :=
      reads_stretch1_iff.2 ⟨[' '], name, rfl, by simp, by decide, rfl, rfl⟩
    have hident : ident.Reads (between (front ++ [' ']) name) rs
        (between (front ++ [' '] ++ name) []) rs :=
      reads_ident_iff.2 ⟨name, [], by simp, hname, rfl, rfl⟩
    exact ((htype.append hblanks).append (hident.named "name")).append
      (reads_atEnd_iff.2 ⟨Or.inl rfl, rfl, rfl⟩)

end LastWord

/-! ## Parameters -/

section Parameter

variable {type name : List Char}

theorem startOf?_paramPattern (htype : isTidy type) (hname : isIdentifier name) :
    paramPattern.startOf? (type ++ ' ' :: name) = some ⟨Cursor.start (type ++ ' ' :: name),
      between (type ++ [' '] ++ name) [],
      [("name", between (type ++ [' ']) name, between (type ++ [' '] ++ name) []),
        ("type", Cursor.start (type ++ ' ' :: name), between type (' ' :: name))]⟩ := by
  have hlast := (trimmed_of_isTidy htype).last
  have hne : type ≠ [] := by
    rintro rfl
    simp [isTidy, isTidyFrom] at htype
  refine at?_of_unique ?_ fun e rs hreads => ?_
  · refine (reads_declared_iff hlast hname).2 ⟨_, ?_, rfl, rfl⟩
    refine reads_named_iff.2 ⟨[], ?_, rfl⟩
    rw [← between_nil]
    obtain ⟨a, cs, rfl⟩ := List.exists_cons_of_ne_nil hne
    refine ⟨_, _, reads_char_iff.2 ⟨a, cs ++ ' ' :: name, rfl, rfl, rfl, rfl⟩, ?_⟩
    exact reads_shortStretch_iff.2 ⟨cs, _, rfl, fun _ _ => rfl, by simp, rfl⟩
  · obtain ⟨rs', htype, rfl, rfl⟩ := (reads_declared_iff hlast hname).1 hreads
    obtain ⟨rs₁, ⟨e₁, rs₂, hchar, hstretch⟩, rfl⟩ := reads_named_iff.1 htype
    rw [← between_nil] at hchar
    obtain ⟨a, r, -, -, rfl, rfl⟩ := reads_char_iff.1 hchar
    obtain ⟨w, r', -, -, -, rfl⟩ := reads_shortStretch_iff.1 hstretch
    exact ⟨rfl, rfl⟩

/-- A type and a name are read as they are meant. -/
theorem parseParam_named (htype : isTidy type) (hname : isIdentifier name)
    (hplace : String.ofList name ∉ ["memory", "storage", "calldata", "payable"]) :
    parseParam (type ++ ' ' :: name) = ⟨String.ofList type, some (String.ofList name)⟩ := by
  have hfront : (Cursor.start (type ++ ' ' :: name)).textTo (between type (' ' :: name)) = type :=
    textTo_between [] type _
  have hword : (between (type ++ [' ']) name).textTo (between (type ++ [' '] ++ name) []) =
      name := by
    have h := textTo_between (type ++ [' ']) name []
    rwa [List.append_nil] at h
  have hne : ("type" == "name") = false := by decide
  rw [parseParam, startOf?_paramPattern htype hname]
  simp only [Hit.part_cons_self, Hit.part_cons_ne hne, hword, hfront]
  rw [if_neg (mt List.contains_iff_mem.1 hplace), squeeze_of_isTidy htype]

/-- A single word is a type without a name. -/
theorem parseParam_word (htype : ∀ a ∈ type, isBlank a = false) (hne : type ≠ []) :
    parseParam type = ⟨String.ofList type, none⟩ := by
  have hnone : paramPattern.startOf? type = none := by
    refine Misses.at? fun ps d qs hreads => ?_
    rw [← between_nil] at hreads
    obtain ⟨_, _, ⟨_, _, ⟨_, _, hfront, hblanks⟩, -⟩, -⟩ := hreads
    obtain ⟨w, r, rfl, rfl⟩ := hfront.exists_between
    obtain ⟨gap, r, rfl, hgapne, hgap, -⟩ := reads_stretch1_iff.1 hblanks
    obtain ⟨a, gap, rfl⟩ := List.exists_cons_of_ne_nil hgapne
    have hblank := hgap a List.mem_cons_self
    rw [htype a (by simp)] at hblank
    cases hblank
  rw [parseParam, hnone, squeeze_of_isTidy (isTidy_of_forall htype hne)]

end Parameter

/-- A written parameter is read as it is meant. -/
theorem Param.parseParam_chars (p : Param) : parseParam p.chars = p.record := by
  have hplaces : ∀ w ∈ ["memory", "storage", "calldata", "payable"], w ∈ reservedWords := by decide
  exact parseParam_named p.isTidy_typeChars p.name.isIdentifier_chars
    fun hmem => p.name.text_not_mem (hplaces _ hmem)

variable {cs : List Char}

theorem Even.unsplit (h : Even cs) : Unsplit cs where
  depth := h.depth 0
  comma u _ huv := absurd (huv ▸ List.mem_append_right u List.mem_cons_self) h.noComma

/-- A space behind a comma can be taken for a part of what follows. -/
theorem intercalate_comma_space (l : List Char) (ls : List (List Char)) :
    [',', ' '].intercalate (l :: ls) = [','].intercalate (l :: ls.map (' ' :: ·)) := by
  rw [intercalate_cons_eq, intercalate_cons_eq, List.flatMap_map]
  rfl

/-- Written parameters are read as they are meant. -/
theorem parseParams_chars (ps : List Param) :
    parseParams ([',', ' '].intercalate (ps.map Param.chars)) = ps.map Param.record := by
  cases ps with
  | nil => rfl
  | cons p ps =>
    -- A blank stands in front of every parameter but the first.
    obtain ⟨xs, hxs⟩ : ∃ xs : List (List Char × Param), xs = ([], p) :: ps.map ([' '], ·) :=
      ⟨_, rfl⟩
    have hgap : ∀ x ∈ xs, ∀ a ∈ x.1, isBlank a := by
      rw [hxs]
      have hspace : ∀ a ∈ [' '], isBlank a := by decide
      exact List.forall_mem_cons.2 ⟨List.forall_mem_nil _, List.forall_mem_map.2 fun _ _ => hspace⟩
    have hchars : [',', ' '].intercalate ((p :: ps).map Param.chars) =
        [','].intercalate (xs.map fun x => x.1 ++ (x.2.chars ++ [])) := by
      rw [hxs, List.map_cons, intercalate_comma_space]
      simp [Function.comp_def]
    have hsplit : splitTopLevel ',' ([','].intercalate (xs.map fun x => x.1 ++ (x.2.chars ++ []))) =
        xs.map (·.2.chars) := by
      refine splitTopLevel_pieces (fun x hx =>
        x.2.even_chars.unsplit.pad (hgap x hx) (List.forall_mem_nil _))
        (fun x hx => ?_) (fun x _ => by simp [Param.chars])
      rw [List.append_nil]
      exact (trimmed_of_isTidy x.2.isTidy_chars).trim_append (hgap x hx)
    rw [parseParams, hchars, hsplit, List.map_map, hxs]
    simp [Param.parseParam_chars, Function.comp_def]

/-! ## Types -/

/-- A mapping up to the bracket that opens it. -/
def mappingHead : Pattern :=
  "mapping" ++ blanks ++ "("

theorem reads_mappingHead {gap : List Char} (hgap : ∀ a ∈ gap, isBlank a) (rest : List Char) :
    mappingHead.Reads (between [] (TypeName.keyword ++ (gap ++ '(' :: rest))) []
      (between (TypeName.keyword ++ gap ++ ['(']) rest) [] :=
  have hword : (Pattern.text "mapping").Takes _ [] (between TypeName.keyword _) [] :=
    takes_text "mapping" [] (gap ++ '(' :: rest) []
  ((hword.append (takes_stretch hgap rfl _ [])).append (takes_symbol rfl _ rest [])).reads

namespace TypeName

/-- The pattern of a type. -/
def pattern : Pattern :=
  oneOf ["mapping" ++ blanks ++ "(" ++ stretch anyChar ++ ")", plainType]

/-- A pair of square brackets behind a type. -/
def sizePattern : Pattern :=
  blanks ++ "[" ++ stretch (· != ']') ++ "]"

theorem takes_sizePattern {gap inside : List Char} (hgap : ∀ a ∈ gap, isBlank a)
    (hinside : ∀ a ∈ inside, (a != ']') = true) (front rest : List Char) :
    sizePattern.Takes (between front (gap ++ '[' :: (inside ++ [']']) ++ rest)) []
      (between (front ++ (gap ++ '[' :: (inside ++ [']']))) rest) [] := by
  have hopen : (blanks ++ "[").Takes (between front (gap ++ '[' :: (inside ++ ']' :: rest))) []
      (between (front ++ gap ++ ['[']) (inside ++ ']' :: rest)) [] :=
    (takes_stretch hgap rfl front []).append (takes_symbol rfl _ _ [])
  have hclosed := (hopen.append (takes_stretch hinside rfl (front ++ gap ++ ['[']) [])).append
    (takes_symbol (u := "]") (a := ']') rfl _ rest [])
  simpa [sizePattern] using hclosed

theorem takes_size (s : Size) (front rest : List Char) :
    sizePattern.Takes (between front ('[' :: (s.digits ++ [']']) ++ rest)) []
      (between (front ++ '[' :: (s.digits ++ [']'])) rest) [] := by
  refine takes_sizePattern (List.forall_mem_nil _) (fun a ha => ?_) front rest
  have hne : a ≠ ']' := by
    rintro rfl
    exact absurd (s.isWordChar_of_mem _ ha) (by decide)
  simpa using hne

/-- The names of a plain type. -/
def path (first : Name) (others : List Name) : List Char :=
  first.chars ++ others.flatMap fun n => '.' :: n.chars

theorem reads_dotted (first : Name) (others : List Name) (rest : List Char) :
    dotted.Reads (between [] (path first others ++ rest)) [] (between (path first others) rest)
      [] := by
  obtain ⟨a, cs, hfirst, ha, hcs⟩ := first.exists_cons
  have hpath : path first others = a :: (cs ++ others.flatMap fun n => '.' :: n.chars) := by
    rw [path, hfirst, List.cons_append]
  have hall : ∀ b ∈ cs ++ others.flatMap (fun n => '.' :: n.chars),
      (isWordChar b || b == '.') = true := by
    simp only [List.forall_mem_append, List.forall_mem_flatMap, List.forall_mem_cons]
    exact ⟨fun b hb => by simp [hcs b hb],
      fun n _ => ⟨by decide, fun b hb => by simp [n.isWordChar_of_mem b hb]⟩⟩
  rw [hpath]
  exact reads_char_stretch_iff.2 ⟨a, _, rest, rfl, ha, hall, rfl, rfl⟩

/-- A written type is a match of the pattern. -/
theorem reads_pattern (rest : List Char) : ∀ t : TypeName,
    pattern.Reads (between [] (t.chars ++ rest)) [] (between t.chars rest) []
  | plain first others sizes => by
    have hsizes := reads_many (p := sizePattern) (f := fun s : Size => '[' :: (s.digits ++ [']']))
      (fun s (_ : s ∈ sizes) => ⟨by simp, takes_size s⟩) (path first others) rest []
    have hnothing : (maybe (blanks1 ++ "payable")).Reads (between (path first others)
        (sizes.flatMap (fun s => '[' :: (s.digits ++ [']'])) ++ rest)) []
        (between (path first others)
        (sizes.flatMap (fun s => '[' :: (s.digits ++ [']'])) ++ rest)) [] :=
      reads_maybe_iff.2 (Or.inr ⟨rfl, rfl⟩)
    have hplain := ((reads_dotted first others _).append hnothing).append hsizes
    have hchars : (plain first others sizes).chars = path first others ++
        sizes.flatMap (fun s => '[' :: (s.digits ++ [']'])) := by
      rw [chars, path, List.append_assoc]
    rw [hchars, List.append_assoc]
    exact reads_oneOf_iff.2 ⟨plainType, by simp, hplain⟩
  | mapping key value => by
    obtain ⟨inner, hinner⟩ :
      ∃ inner, inner = key.chars ++ (' ' :: '=' :: '>' :: ' ' :: value.chars) :=
      ⟨_, rfl⟩
    have hchars : (mapping key value).chars ++ rest =
        keyword ++ ('(' :: (inner ++ ')' :: rest)) := by
      simp [chars, hinner]
    have hopen := reads_mappingHead (List.forall_mem_nil _) (inner ++ ')' :: rest)
    rw [List.append_nil] at hopen
    have hinside : (stretch anyChar).Reads (between (keyword ++ ['(']) (inner ++ ')' :: rest)) []
        (between (keyword ++ ['('] ++ inner) (')' :: rest)) [] :=
      reads_stretch_iff.2 ⟨inner, _, rfl, fun _ _ => rfl, rfl, rfl⟩
    have hclose : (Pattern.text ")").Reads (between (keyword ++ ['('] ++ inner) (')' :: rest)) []
        (between (mapping key value).chars rest) [] :=
      (reads_symbol_iff rfl).2 ⟨_, rfl, by simp [chars, hinner], rfl⟩
    rw [hchars]
    exact reads_oneOf_iff.2 ⟨_, List.mem_cons_self,
      (hopen.append hinside).append hclose⟩

/-- The words behind a type that are no part of it. -/
def attributeWords : List String :=
  ["public", "private", "internal", "constant", "immutable", "transient"]

/-- An attribute is one of the words, or `override` with a group behind it. -/
theorem exists_of_reads_variableAttribute {front rest : List Char} {d : Cursor} {ps qs : Parts}
    (h : variableAttribute.Reads (between front rest) ps d qs) :
    ∃ w r, rest = w ++ r ∧ d = between (front ++ w) r ∧
      ((∃ u ∈ attributeWords, w = u.toList) ∨
        ∃ z, w = "override".toList ++ z ∧ z.head?.any isWordChar = false) := by
  obtain ⟨p, hp, hreads⟩ := reads_oneOf_iff.1 h
  have hmem : p ∈ attributeWords.map Pattern.text ∨
      p = "override" ++ maybe (blanks ++ "(" ++ stretch (· != ')') ++ ")") := by
    simpa [attributeWords, or_assoc] using hp
  rcases hmem with hmem | rfl
  · obtain ⟨u, hu, rfl⟩ := List.mem_map.1 hmem
    obtain ⟨r, rfl, rfl, -⟩ := reads_text_iff.1 hreads
    exact ⟨_, r, rfl, rfl, Or.inl ⟨u, hu, rfl⟩⟩
  · obtain ⟨e, rs, hword, hgroup⟩ := hreads
    obtain ⟨r, rfl, rfl, -⟩ := reads_text_iff.1 hword
    rcases reads_maybe_iff.1 hgroup with hgroup | ⟨rfl, -⟩
    · obtain ⟨e₃, rs₃, ⟨e₂, rs₂, ⟨e₁, rs₁, hblanks, hopen⟩, hinside⟩, hclose⟩ := hgroup
      obtain ⟨gap, r₁, rfl, hgap, rfl, -⟩ := reads_stretch_iff.1 hblanks
      obtain ⟨r₂, rfl, rfl, -⟩ := (reads_symbol_iff (a := '(') rfl).1 hopen
      obtain ⟨inner, r₃, rfl, -, rfl, -⟩ := reads_stretch_iff.1 hinside
      obtain ⟨r₄, rfl, rfl, -⟩ := (reads_symbol_iff (a := ')') rfl).1 hclose
      refine ⟨"override".toList ++ (gap ++ '(' :: (inner ++ [')'])), r₄, by simp, by simp,
        Or.inr ⟨_, rfl, ?_⟩⟩
      cases gap with
      | nil => rfl
      | cons a gap => exact isWordChar_of_isBlank (hgap a List.mem_cons_self)
    · exact ⟨"override".toList, r, rfl, rfl, Or.inr ⟨[], by simp, rfl⟩⟩

/-- No attribute ends a type. -/
theorem chars_ne_attribute {front gap w : List Char} (hgap : ∀ a ∈ gap, isBlank a) (hne : gap ≠ [])
    (hw : (∃ u ∈ attributeWords, w = u.toList) ∨
      ∃ z, w = "override".toList ++ z ∧ z.head?.any isWordChar = false) :
    ∀ t : TypeName, t.chars ≠ front ++ (gap ++ w)
  | plain first others sizes, h => by
    obtain ⟨a, cs, rfl⟩ := List.exists_cons_of_ne_nil hne
    have hmem : a ∈ (plain first others sizes).chars := by simp [h]
    have hsolid := not_isBlank_of_mem_plain a hmem
    simp [hgap a List.mem_cons_self] at hsolid
  | mapping key value, h => by
    rcases hw with ⟨u, hu, rfl⟩ | ⟨z, rfl, hz⟩
    · -- The type ends with a bracket, and none of the words does.
      have hlast : (mapping key value).chars.getLast? = some ')' := by
        simp [chars, List.getLast?_append, List.getLast?_cons]
      have hwords : ∀ u ∈ attributeWords, u.toList.getLast?.any (· != ')') := by decide
      obtain ⟨a, ha, hne⟩ := (Option.any_eq_true _ _).1 (hwords u hu)
      rw [h, List.getLast?_append, List.getLast?_append, ha] at hlast
      simp at hlast
      simp [hlast] at hne
    · -- The word stands on its own, and names are not reserved.
      have hblank : (front ++ gap).getLast?.any isWordChar = false := by
        obtain ⟨g, b, rfl⟩ := List.eq_nil_or_concat gap |>.resolve_left hne
        rw [List.concat_eq_append, ← List.append_assoc, List.getLast?_concat]
        exact isWordChar_of_isBlank (hgap b (by simp))
      have hrun := mem_wordRuns (w := "override".toList) (by decide) hblank hz
      rw [List.append_assoc, ← h] at hrun
      exact (mapping key value).unreserved_chars _ (by decide) hrun

end TypeName

/-! ## State variables -/

/-- Every equals sign is that of an arrow. -/
def ArrowsOnly (cs : List Char) : Prop :=
  ∀ u v, cs = u ++ '=' :: v → v.head? = some '>'

theorem arrowsOnly_of_not_mem (h : '=' ∉ cs) : ArrowsOnly cs := by
  rintro u v rfl
  simp at h

theorem additive_arrowsOnly : Additive ArrowsOnly where
  nil := arrowsOnly_of_not_mem (by simp)
  append := by
    intro cs ds hcs hds u v h
    rcases List.append_eq_append_iff.1 h with ⟨w, rfl, hw⟩ | ⟨w, rfl, hw⟩
    · exact hds w v hw
    · cases w with
      | nil => exact hds [] v hw.symm
      | cons a w =>
        obtain ⟨rfl, hv⟩ := List.cons.inj hw
        rw [hv, List.append_eq, List.head?_append, hcs u w rfl]
        rfl

theorem arrowsOnly_arrow : ArrowsOnly [' ', '=', '>', ' '] := by
  intro u v h
  rcases u with _ | ⟨a, _ | ⟨b, _ | ⟨c, _ | ⟨d, u⟩⟩⟩⟩
  · simp at h
  · have hv : ['>', ' '] = v := by simpa using (List.cons.inj h).2
    rw [← hv]
    rfl
  all_goals simp at h

theorem arrowsOnly_of_word (h : ∀ a ∈ cs, isWordChar a) : ArrowsOnly cs :=
  arrowsOnly_of_not_mem fun hmem => absurd (h _ hmem) (by decide)

theorem TypeName.arrowsOnly_chars : ∀ t : TypeName, ArrowsOnly t.chars
  | plain first others sizes => by
    have hadd := additive_arrowsOnly
    have hmark : ∀ a, a ≠ '=' → ArrowsOnly [a] := fun a ha =>
      arrowsOnly_of_not_mem (by simpa using ha.symm)
    rw [chars]
    refine hadd.append (arrowsOnly_of_word first.isWordChar_of_mem) (hadd.append
      (hadd.flatMap fun n _ => ?_) (hadd.flatMap fun s _ => ?_))
    · exact hadd.append (hmark '.' (by decide)) (arrowsOnly_of_word n.isWordChar_of_mem)
    · exact hadd.append (hmark '[' (by decide))
        (hadd.append (arrowsOnly_of_word s.isWordChar_of_mem) (hmark ']' (by decide)))
  | mapping key value => by
    have hadd := additive_arrowsOnly
    have hmark : ∀ a, a ≠ '=' → ArrowsOnly [a] := fun a ha =>
      arrowsOnly_of_not_mem (by simpa using ha.symm)
    have hinner := hadd.append key.arrowsOnly_chars
      (hadd.append arrowsOnly_arrow value.arrowsOnly_chars)
    rw [chars]
    exact hadd.append (arrowsOnly_of_word (by decide)) (hadd.append (hmark '(' (by decide))
      (hadd.append hinner (hmark ')' (by decide))))

/-- There is no value in a text all of whose equals signs are those of arrows. -/
theorem lonelyEquals_findIn? (h : ArrowsOnly cs) : lonelyEquals.findIn? cs = none := by
  refine findIn?_eq_none fun u v huv ps d qs hreads => ?_
  obtain ⟨e₂, rs₂, ⟨e₁, rs₁, ⟨-, rfl, -⟩, hsign⟩, hbehind⟩ := hreads
  obtain ⟨r, rfl, rfl, -⟩ := (reads_symbol_iff (a := '=') rfl).1 hsign
  have hhead := h u r huv
  obtain ⟨hok, -⟩ := hbehind
  simp [hhead] at hok

/-- The words that start a member of a contract that is no state variable. -/
def otherMemberWords : List String :=
  ["using", "event", "error", "pragma", "import", "function", "modifier", "constructor", "fallback",
    "receive", "struct", "enum", "type"]

namespace Variable

variable (v : Variable)

theorem isTidy_chars : isTidy v.chars :=
  isTidy_append_space v.type.isTidy_chars
    (isTidy_of_forall v.name.not_isBlank_of_mem v.name.chars_ne_nil)

theorem unreserved_chars : Lacks reservedWords v.chars :=
  (lacks_append_cons (by decide)).2 ⟨v.type.unreserved_chars, v.name.unreserved⟩

theorem arrowsOnly_chars : ArrowsOnly v.chars :=
  have hspace : ArrowsOnly [' '] := arrowsOnly_of_not_mem (by decide)
  additive_arrowsOnly.append v.type.arrowsOnly_chars
    (additive_arrowsOnly.append hspace (arrowsOnly_of_word v.name.isWordChar_of_mem))

/-- The only match of the pattern of a type, with attributes behind it, in front of the name. -/
theorem reads_type_iff {rs : Parts} :
    (named "type" TypeName.pattern ++ many (blanks1 ++ variableAttribute)).Reads
      (Cursor.start v.chars) [] (between v.type.chars (' ' :: v.name.chars)) rs ↔
      rs = [("type", Cursor.start v.chars, between v.type.chars (' ' :: v.name.chars))] := by
  rw [← between_nil]
  constructor
  · rintro ⟨e, rs, hnamed, hmany⟩
    obtain ⟨rs', htype, rfl⟩ := reads_named_iff.1 hnamed
    obtain rfl : rs' = [] := htype.parts_eq rfl
    obtain rfl := hmany.parts_eq rfl
    rcases eq_or_exists_reads_of_many hmany with rfl | ⟨f, rs, hbefore, hlast, -⟩
    · rfl
    · -- An attribute would end the type.
      obtain ⟨t, r, ht, rfl⟩ := htype.exists_between
      obtain ⟨u, r', rfl, rfl⟩ := hbefore.exists_between
      obtain ⟨g, rs₁, hblanks, hattribute⟩ := hlast
      obtain ⟨gap, r₁, rfl, hne, hgap, rfl, -⟩ := reads_stretch1_iff.1 hblanks
      obtain ⟨w, r₂, rfl, hd, hw⟩ := TypeName.exists_of_reads_variableAttribute hattribute
      have hchars : v.type.chars ++ ' ' :: v.name.chars = t ++ u ++ (gap ++ w) ++ r₂ := by
        simpa [chars] using ht
      have hlen := congrArg Cursor.offset hd
      have hfront : v.type.chars = t ++ u ++ (gap ++ w) :=
        (List.append_inj hchars (by simpa using hlen)).1
      exact absurd hfront (TypeName.chars_ne_attribute hgap hne hw v.type)
  · rintro rfl
    refine ((TypeName.reads_pattern (' ' :: v.name.chars) v.type).named "type").append ?_
    exact reads_many_nothing _ _ _

theorem startOf?_chars :
    variablePattern.startOf? v.chars = some ⟨Cursor.start v.chars,
      between (v.type.chars ++ [' '] ++ v.name.chars) [],
      [("name", between (v.type.chars ++ [' ']) v.name.chars,
          between (v.type.chars ++ [' '] ++ v.name.chars) []),
        ("type", Cursor.start v.chars, between v.type.chars (' ' :: v.name.chars))]⟩ := by
  have hlast := (trimmed_of_isTidy v.type.isTidy_chars).last
  refine at?_of_unique ?_ fun e rs hreads => ?_
  · exact (reads_declared_iff hlast v.name.isIdentifier_chars).2
      ⟨_, v.reads_type_iff.2 rfl, rfl, rfl⟩
  · obtain ⟨rs', htype, rfl, rfl⟩ := (reads_declared_iff hlast v.name.isIdentifier_chars).1 hreads
    obtain rfl := v.reads_type_iff.1 htype
    exact ⟨rfl, rfl⟩

theorem starts_otherMember : otherMember.starts v.chars = false := by
  have hreserved : ∀ w ∈ otherMemberWords, w ∈ reservedWords := by decide
  have hmiss : otherMember.Misses (Cursor.start v.chars) := by
    intro ps d qs hreads
    obtain ⟨w, hw, hrun⟩ : ∃ w ∈ otherMemberWords, w.toList ∈ wordRuns v.chars :=
      mem_wordRuns_of_reads (by decide) hreads
    exact v.unreserved_chars w (hreserved w hw) hrun
  rw [starts, startOf?, hmiss.at?]
  rfl

theorem not_mem_notTypes : String.ofList v.type.chars ∉ notTypes := by
  have hreserved : ∀ w ∈ notTypes, w ∈ reservedWords ∧ isIdentifier w.toList := by decide
  intro hmem
  obtain ⟨hmem', hident⟩ := hreserved _ hmem
  rw [String.toList_ofList] at hident
  have hrun : v.type.chars ∈ wordRuns v.type.chars := by
    rw [wordRuns_of_word (isWordChar_of_isIdentifier hident)]
    exact List.mem_cons_self
  exact v.type.unreserved_chars _ hmem' (by rwa [String.toList_ofList])

/-- A written variable is read as it is meant, whatever blanks stand in front of it. -/
theorem stateVariable?_chars {gap : List Char} (hgap : ∀ a ∈ gap, isBlank a) :
    stateVariable? (gap ++ v.chars) = some v.record := by
  have htrimmed := trimmed_of_isTidy v.isTidy_chars
  have hempty : v.chars.isEmpty = false := by simp [chars]
  have hshort : ¬v.chars.length ≥ maxDeclaration := Nat.not_le.2 v.short
  have hne : ("type" == "name") = false := by decide
  have htype : (Cursor.start v.chars).textTo (between v.type.chars (' ' :: v.name.chars)) =
      v.type.chars := textTo_between [] v.type.chars _
  have hname : (between (v.type.chars ++ [' ']) v.name.chars).textTo
      (between (v.type.chars ++ [' '] ++ v.name.chars) []) = v.name.chars := by
    have h := textTo_between (v.type.chars ++ [' ']) v.name.chars []
    rwa [List.append_nil] at h
  have hnot : notTypes.contains (String.ofList v.type.chars) = false := by
    simpa using v.not_mem_notTypes
  rw [stateVariable?, htrimmed.trim_append hgap]
  simp only [hempty, hshort, v.starts_otherMember, withoutValue,
    lonelyEquals_findIn? v.arrowsOnly_chars, htrimmed.trim_eq, v.startOf?_chars, Hit.part_cons_self,
    Hit.part_cons_ne hne, htype, hname, hnot, squeeze_of_isTidy v.type.isTidy_chars]
  simp [record, Name.text]

end Variable

end Written

end ContractAudit
