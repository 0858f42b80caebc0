import ContractAudit.Proofs.Written.Header

/-!
# Signatures of functions

A `Signature` is what may stand behind the keyword of a function : the name, the parameters in round
brackets, and words with or without arguments, with blanks between all of them. Types and arguments
may be any texts whose brackets are matched. The header that is read from it has the same name,
parameters and words (`Signature.parseHeader_chars`).
-/

namespace ContractAudit

open Pattern Cursor

namespace Written

/-- Words behind a type that are no name. -/
def placeWords : List String :=
  ["memory", "storage", "calldata", "payable"]

/-- What stands for a parameter : a type and a name, or a type of one word. -/
inductive Slot where
  | named (type name : List Char) (isTidy_type : isTidy type) (bracketed_type : Bracketed type)
    (isIdentifier_name : isIdentifier name) (not_placeWord : String.ofList name ∉ placeWords)
  | unnamed (type : List Char) (type_ne_nil : type ≠ [])
      (solid_type : ∀ a ∈ type, isBlank a = false) (bracketed_type : Bracketed type)

namespace Slot

/-- The parameter as it is written. -/
def chars : Slot → List Char
  | named type name _ _ _ _ => type ++ ' ' :: name
  | unnamed type _ _ _ => type

/-- The parameter it is read as. -/
def parameter : Slot → Parameter
  | named type name _ _ _ _ => ⟨String.ofList type, some (String.ofList name)⟩
  | unnamed type _ _ _ => ⟨String.ofList type, none⟩

theorem isTidy_chars : ∀ s : Slot, isTidy s.chars
  | named _ name htype _ hname _ => by
    have hne : name ≠ [] := by
      rintro rfl
      simp [isIdentifier] at hname
    have hsolid : ∀ a ∈ name, isBlank a = false := fun a ha =>
      isBlank_of_isWordChar (isWordChar_of_isIdentifier hname a ha)
    exact isTidy_append_space htype (isTidy_of_forall hsolid hne)
  | unnamed _ hne hsolid _ => isTidy_of_forall hsolid hne

theorem chars_ne_nil (s : Slot) : s.chars ≠ [] := fun hnil => by
  have htidy := s.isTidy_chars
  simp [hnil, isTidy, isTidyFrom] at htidy

theorem parseParam_chars : ∀ s : Slot, parseParam s.chars = s.parameter
  | named _ _ htype _ hname hplace => parseParam_named htype hname hplace
  | unnamed _ hne hsolid _ => parseParam_word hsolid hne

theorem unsplit_chars : ∀ s : Slot, Unsplit s.chars
  | named _ _ _ htype hname _ =>
    htype.unsplit.append_inert (List.forall_mem_cons.2
      ⟨by decide, fun a ha => isInert_of_isWordChar (isWordChar_of_isIdentifier hname a ha)⟩)
  | unnamed _ _ _ htype => htype.unsplit

theorem level_chars : ∀ s : Slot, level '(' ')' 0 s.chars = some 0
  | named _ name _ htype hname _ => by
    have hword {a : Char} (ha : isWordChar a = false) : a ∉ name := fun hmem => by
      simp [isWordChar_of_isIdentifier hname a hmem] at ha
    rw [chars, level_append_balanced htype.round, level_other (by decide) (by decide),
      level_of_not_mem (hword (by decide)) (hword (by decide))]
  | unnamed _ _ _ htype => htype.round

end Slot

/-- What stands behind the keyword of a function. -/
structure Signature where
  lead : Gap
  lead_ne_nil : lead.chars ≠ []
  name : List Char
  isIdentifier_name : isIdentifier name
  gap : Gap
  /-- The parameters, with the blanks around each of them. -/
  slots : List (Gap × Slot × Gap)
  attributes : List Attribute
  spaced : Attribute.Spaced attributes
  trail : Gap

namespace Signature

variable (s : Signature)

/-- The parameters with the gaps around them, as they are written. -/
def slotChars : List Char :=
  [','].intercalate (s.slots.map fun p => p.1.chars ++ (p.2.1.chars ++ p.2.2.chars))

/-- The signature as it is written. -/
def chars : List Char :=
  s.lead.chars ++ (s.name ++ (s.gap.chars ++ '(' :: (s.slotChars ++ ')' ::
    (s.attributes.flatMap Attribute.chars ++ s.trail.chars))))

/-- The words behind the parameters. -/
def words : List String :=
  s.attributes.map Attribute.text

theorem parseParams_slotChars : parseParams s.slotChars = s.slots.map (·.2.1.parameter) := by
  have hsplit : splitTopLevel ',' s.slotChars = s.slots.map (·.2.1.chars) := by
    refine splitTopLevel_pieces (fun p _ => ?_) (fun p _ => ?_) (fun p _ => ?_)
    · exact p.2.1.unsplit_chars.pad p.1.isBlank_of_mem p.2.2.isBlank_of_mem
    · exact (trimmed_of_isTidy p.2.1.isTidy_chars).trim_append_append p.2.1.chars_ne_nil
        p.1.isBlank_of_mem p.2.2.isBlank_of_mem
    · exact p.2.1.chars_ne_nil
  rw [parseParams, hsplit, List.map_map]
  exact List.map_congr_left fun p _ => p.2.1.parseParam_chars

theorem level_slotChars : level '(' ')' 0 s.slotChars = some 0 := by
  have hadd := additive_level '(' ')'
  have hgap (gap : Gap) : level '(' ')' 0 gap.chars = some 0 :=
    level_of_flat fun a ha => isParen_of_isBlank (gap.isBlank_of_mem a ha)
  refine hadd.intercalate (by decide) (List.forall_mem_map.2 fun p _ => ?_)
  exact hadd.append (hgap p.1) (hadd.append p.2.1.level_chars (hgap p.2.2))

/-- The header of a function has the name and the parameters that are written, the last visibility,
the mutabilities in order, and each modifier where it first occurs. -/
theorem parseHeader_chars : parseHeader .function s.chars =
    ⟨.function, String.ofList s.name, s.slots.map (·.2.1.parameter),
      (s.words.filterMap (visibilityWords.lookup ·)).getLast?,
      s.words.filterMap (mutabilityWords.lookup ·),
      (s.words.filter (· ∉ attributeKeywords)).eraseDups⟩ := by
  obtain ⟨behind, hbehind⟩ :
    ∃ behind, behind = s.attributes.flatMap Attribute.chars ++ s.trail.chars := ⟨_, rfl⟩
  obtain ⟨rest, hrest⟩ : ∃ rest, rest = s.gap.chars ++ '(' :: (s.slotChars ++ ')' :: behind) :=
    ⟨_, rfl⟩
  have hnonword : rest.head?.any isWordChar = false := by
    rw [hrest]
    exact nonword_of_blanks s.gap.isBlank_of_mem rfl
  have hname : leadingName? s.chars = some (String.ofList s.name, rest) := by
    have hchars : s.chars = s.lead.chars ++ (s.name ++ rest) := by rw [chars, hrest, hbehind]
    rw [hchars]
    exact leadingName?_identifier s.lead s.lead_ne_nil s.isIdentifier_name hnonword
  have hgroup : leadingGroup? rest = some (s.slotChars, behind) := by
    rw [hrest, leadingGroup?_gap, leadingGroup?_group s.level_slotChars]
  have hwords : attributeWords behind = s.words := by
    rw [hbehind]
    exact Attribute.attributeWords_attributes s.spaced s.trail
  have hheader :=
    Header.foldl_addWord .function (String.ofList s.name) (s.slots.map (·.2.1.parameter)) s.words
  simp only [parseHeader, BlockKind.isNamedByKeyword, Bool.false_eq_true, if_false, hname, hgroup,
    s.parseParams_slotChars, hwords]
  exact hheader

/-- A signature with a function among its parameters, and a modifier twice. -/
def guarded : Signature where
  lead := .space
  lead_ne_nil := by decide
  name := "pay".toList
  isIdentifier_name := by decide
  gap := .nothing
  slots :=
    [(.nothing, .named "function(uint, bool) external".toList "f".toList (by decide) (by decide)
      (by decide) (by decide), .nothing), (.space,
      .unnamed "uint[2]".toList (by decide) (by decide) (by decide), .nothing)]
  attributes :=
    [⟨.nothing, "public".toList, by decide, none⟩,
      ⟨.space, "Roles.only".toList, by decide, some ⟨.nothing, "id(a, b), c".toList, by decide⟩⟩,
      ⟨.nothing, "constant".toList, by decide, none⟩,
      ⟨.space, "Roles.only".toList, by decide, none⟩,
      ⟨.space, "returns".toList, by decide, some ⟨.space, "uint".toList, by decide⟩⟩,
      ⟨.space, "private".toList, by decide, none⟩]
  spaced := by decide
  trail := .space

theorem parseHeader_guarded :
    guarded.chars =
      (" pay(function(uint, bool) external f, uint[2])public Roles.only(id(a, b), c)constant " ++
      "Roles.only returns (uint) private ").toList ∧
    parseHeader .function guarded.chars =
      ⟨.function, "pay", [⟨"function(uint, bool) external", some "f"⟩, ⟨"uint[2]", none⟩],
        some .self, [.view], ["Roles.only"]⟩ :=
  ⟨by decide +kernel, guarded.parseHeader_chars.trans (by decide +kernel)⟩

end Signature

end Written

end ContractAudit
