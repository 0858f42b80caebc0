import Mathlib.Data.List.Chain
import ContractAudit.Proofs.Text.Groups
import ContractAudit.Proofs.Written.Path
import ContractAudit.Proofs.Written.Pieces

/-!
# The words behind the parameters

An `Attribute` is a word of a header, with its arguments in round brackets if it has any. The
arguments are removed and the words found one behind the other (`attributeWords_attributes`). Each
word adds to the header what it means, so in the end the last visibility counts, mutabilities are
kept in order, and modifiers are listed where they first occur (`Header.foldl_addWord`).
-/

namespace ContractAudit

open Pattern Cursor

/-! ## What words add to a header -/

/-- The words for a visibility. -/
def visibilityWords : List (String × Visibility) :=
  [("public", .everyone), ("external", .outside), ("internal", .family), ("private", .self)]

/-- The words for a mutability; `view` has two. -/
def mutabilityWords : List (String × Mutability) :=
  [("view", .view), ("constant", .view), ("pure", .pure), ("payable", .payable),
    ("nonpayable", .nonpayable)]

/-- The words behind the parameters that are no modifiers. -/
def attributeKeywords : List String :=
  visibilityWords.map Prod.fst ++ mutabilityWords.map Prod.fst ++ ["virtual", "override", "returns"]

theorem Visibility.ofKeyword?_eq (w : String) :
    Visibility.ofKeyword? w = visibilityWords.lookup w := by
  unfold Visibility.ofKeyword?
  split
  case h_5 =>
    symm
    simp_all [visibilityWords]
  all_goals rfl

theorem Mutability.ofKeyword?_eq (w : String) :
    Mutability.ofKeyword? w = mutabilityWords.lookup w := by
  unfold Mutability.ofKeyword?
  split
  case h_6 =>
    symm
    simp_all [mutabilityWords]
  all_goals rfl

/-- Is a word of a header a modifier? -/
def isModifierWord (w : String) : Bool :=
  (Visibility.ofKeyword? w).isNone && (Mutability.ofKeyword? w).isNone && !headerWords.contains w

theorem isModifierWord_eq (w : String) : isModifierWord w = decide (w ∉ attributeKeywords) := by
  rw [isModifierWord, Visibility.ofKeyword?_eq, Mutability.ofKeyword?_eq, Bool.eq_iff_iff]
  simp [attributeKeywords, visibilityWords, mutabilityWords, headerWords, and_assoc]

namespace Header

/-- The header that words behind the parameters make. -/
def ofWords (kind : BlockKind) (name : String) (params : List Parameter) (ws : List String) :
    Header :=
  ⟨kind, name, params, (ws.filterMap Visibility.ofKeyword?).getLast?,
    ws.filterMap Mutability.ofKeyword?, (ws.filter isModifierWord).eraseDups⟩

variable (kind : BlockKind) (name : String) (params : List Parameter) {w : String}

theorem addWord_visibility (ws : List String) {v : Visibility}
    (hv : Visibility.ofKeyword? w = some v) :
    (ofWords kind name params ws).addWord w = ofWords kind name params (ws ++ [w]) := by
  have hm : Mutability.ofKeyword? w = none := by
    unfold Visibility.ofKeyword? at hv
    split at hv <;> first | rfl | simp at hv
  simp [addWord, ofWords, isModifierWord, List.filter_append, hv, hm]

theorem addWord_mutability (ws : List String) {m : Mutability} (hv : Visibility.ofKeyword? w = none)
    (hm : Mutability.ofKeyword? w = some m) :
    (ofWords kind name params ws).addWord w = ofWords kind name params (ws ++ [w]) := by
  simp [addWord, ofWords, isModifierWord, List.filter_append, hv, hm]

/-- A modifier is listed where it first occurs. -/
theorem eraseDups_concat (ws : List String) (w : String) :
    (ws ++ [w]).eraseDups = if w ∈ ws then ws.eraseDups else ws.eraseDups ++ [w] := by
  rw [List.eraseDups_append]
  by_cases hw : w ∈ ws <;> simp [hw, List.removeAll, List.eraseDups_cons]

theorem addWord_other (ws : List String) (hv : Visibility.ofKeyword? w = none)
    (hm : Mutability.ofKeyword? w = none) :
    (ofWords kind name params ws).addWord w = ofWords kind name params (ws ++ [w]) := by
  by_cases hskip : w ∈ headerWords
  · simp [addWord, ofWords, isModifierWord, List.filter_append, hv, hm, hskip]
  · have hmodifier : isModifierWord w = true := by simp [isModifierWord, hv, hm, hskip]
    have hfilter : (ws ++ [w]).filter isModifierWord = ws.filter isModifierWord ++ [w] := by
      simp [List.filter_append, hmodifier]
    by_cases hmem : w ∈ ws <;>
      simp [addWord, ofWords, hv, hm, hfilter, eraseDups_concat, hskip, hmodifier, hmem]

/-- Each word behind the parameters adds what it means. -/
theorem addWord_ofWords (ws : List String) (w : String) :
    (ofWords kind name params ws).addWord w = ofWords kind name params (ws ++ [w]) := by
  cases hv : Visibility.ofKeyword? w with
  | some v => exact addWord_visibility kind name params ws hv
  | none =>
    cases hm : Mutability.ofKeyword? w with
    | some m => exact addWord_mutability kind name params ws hv hm
    | none => exact addWord_other kind name params ws hv hm

theorem foldl_addWord_ofWords : ∀ us ws : List String,
    us.foldl addWord (ofWords kind name params ws) = ofWords kind name params (ws ++ us)
  | [], ws => by rw [List.append_nil]; rfl
  | w :: us, ws => by
    rw [List.foldl_cons, addWord_ofWords, foldl_addWord_ofWords us, List.append_assoc]
    rfl

/-- The last visibility counts, and a modifier is listed where it first occurs. -/
theorem foldl_addWord (ws : List String) :
    ws.foldl addWord ⟨kind, name, params, none, [], []⟩ =
      ⟨kind, name, params, (ws.filterMap (visibilityWords.lookup ·)).getLast?,
        ws.filterMap (mutabilityWords.lookup ·),
        (ws.filter (· ∉ attributeKeywords)).eraseDups⟩ := by
  have hwords : ws.foldl addWord ⟨kind, name, params, none, [], []⟩ = ofWords kind name params ws :=
    foldl_addWord_ofWords kind name params ws []
  rw [hwords, ofWords, funext Visibility.ofKeyword?_eq, funext Mutability.ofKeyword?_eq,
    funext isModifierWord_eq]

end Header

namespace Written

/-! ## Attributes -/

/-- A character of a word of a header behind the first one. -/
def isDottedChar (a : Char) : Bool :=
  isWordChar a || a == '.'

/-- A word of a header : a name, or names with dots between them. -/
def isDotted : List Char → Bool
  | [] => false
  | a :: cs => isIdentStart a && cs.all isDottedChar

/-- Arguments in round brackets. -/
structure Arguments where
  gap : Gap
  inner : List Char
  balanced : level '(' ')' 0 inner = some 0

/-- The arguments as they are written, with their parentheses. -/
def Arguments.chars (g : Arguments) : List Char :=
  g.gap.chars ++ '(' :: (g.inner ++ [')'])

/-- A word behind the parameters, with its arguments. -/
structure Attribute where
  gap : Gap
  word : List Char
  isDotted_word : isDotted word
  arguments : Option Arguments

namespace Attribute

/-- The attribute as it is written, with the gap in front. -/
def chars (a : Attribute) : List Char :=
  a.gap.chars ++ (a.word ++ a.arguments.elim [] (·.chars))

/-- The word of the attribute as a text. -/
def text (a : Attribute) : String :=
  String.ofList a.word

/-- What is left of the arguments : a space in their place. -/
def blanks (a : Attribute) : List Char :=
  a.arguments.elim [] (·.gap.chars ++ [' '])

/-- The attribute without its arguments. -/
def bare (a : Attribute) : List Char :=
  a.gap.chars ++ (a.word ++ a.blanks)

/-- Words that no arguments stand between have a blank between them. -/
def Spaced (as : List Attribute) : Prop :=
  as.IsChain fun a b => a.arguments = none → b.gap.chars ≠ []

instance (as : List Attribute) : Decidable (Spaced as) :=
  inferInstanceAs (Decidable (as.IsChain _))

theorem spaced_of_forall : ∀ {as : List Attribute}, (∀ a ∈ as, a.gap.chars ≠ []) → Spaced as
  | [], _ => .nil
  | [a], _ => .singleton a
  | _ :: b :: _, h => List.isChain_cons_cons.2
    ⟨fun _ => h b (by simp), spaced_of_forall fun c hc => h c (List.mem_cons_of_mem _ hc)⟩

end Attribute

variable {a : Char}

theorem isParen_of_isBlank (h : isBlank a) : isParen a = false :=
  isParen_of_isInert (isInert_of_isBlank h)

theorem isParen_of_isDottedChar (h : isDottedChar a) : isParen a = false :=
  isParen_of_isInert (isInert_of_class (by decide) h)

theorem isDottedChar_of_mem {w : List Char} (h : isDotted w) : ∀ a ∈ w, isDottedChar a := by
  cases w with
  | nil => exact List.forall_mem_nil _
  | cons a cs =>
    rw [isDotted, Bool.and_eq_true, List.all_eq_true] at h
    exact List.forall_mem_cons.2 ⟨by simp [isDottedChar, isWordChar_of_isIdentStart h.1], h.2⟩

/-! ### Arguments are removed -/

theorem Attribute.foldl_chars (a : Attribute) (s : Remains) :
    a.chars.foldl Remains.step s = s.add a.bare := by
  have hblank (gap : Gap) : ∀ b ∈ gap.chars, isParen b = false := fun b hb =>
    isParen_of_isBlank (gap.isBlank_of_mem b hb)
  have hword : ∀ b ∈ a.word, isParen b = false := fun b hb =>
    isParen_of_isDottedChar (isDottedChar_of_mem a.isDotted_word b hb)
  have hflat := List.forall_mem_append.2 ⟨hblank a.gap, hword⟩
  cases hargs : a.arguments with
  | none =>
    have h := Remains.foldl_flat hflat s
    simpa [chars, bare, blanks, hargs] using h
  | some g =>
    have hfront := List.forall_mem_append.2 ⟨hflat, hblank g.gap⟩
    have hchars : a.chars = a.gap.chars ++ a.word ++ g.gap.chars ++ '(' :: (g.inner ++ [')']) := by
      simp [chars, hargs, Arguments.chars]
    rw [hchars, List.foldl_append, Remains.foldl_flat hfront, Remains.foldl_group g.balanced]
    simp [Remains.add, bare, blanks, hargs]

theorem foldl_attributes (trail : Gap) (as : List Attribute) (s : Remains) :
    (as.flatMap Attribute.chars ++ trail.chars).foldl Remains.step s =
      s.add (as.flatMap Attribute.bare ++ trail.chars) := by
  induction as generalizing s with
  | nil => exact Remains.foldl_flat (fun b hb => isParen_of_isBlank (trail.isBlank_of_mem b hb)) s
  | cons a as ih =>
    rw [List.flatMap_cons, List.append_assoc, List.foldl_append, a.foldl_chars, ih]
    simp [Remains.add]

/-! ### Words are found -/

theorem opens_dotted : dotted.Opens isIdentStart :=
  (opens_char isIdentStart).append _

theorem isIdentStart_of_isBlank (h : isBlank a) : isIdentStart a = false := by
  cases hstart : isIdentStart a with
  | false => rfl
  | true =>
    have hword := isWordChar_of_isBlank h
    rw [isWordChar_of_isIdentStart hstart] at hword
    cases hword

theorem takes_dotted {w rest : List Char} (hw : isDotted w)
    (hrest : rest.head?.any isDottedChar = false) (front : List Char) :
      dotted.Takes (between front (w ++ rest)) [] (between (front ++ w) rest) [] := by
  cases w with
  | nil => simp [isDotted] at hw
  | cons a w =>
    rw [isDotted, Bool.and_eq_true, List.all_eq_true] at hw
    exact takes_char_stretch hw.1 hw.2 hrest front []

/-- A word is found, and the search goes on behind it. -/
theorem exists_findAll_dotted {w rest : List Char} (hw : isDotted w)
    (hrest : rest.head?.any isDottedChar = false)
    (front : List Char) : ∃ h, dotted.findAll (between front (w ++ rest)) =
      h :: dotted.findAll (between (front ++ w) rest) ∧ h.text = w := by
  have hfind := find?_of_at? (takes_dotted hw hrest front).at?
  exact ⟨_, opens_dotted.findAll_eq_cons (in_between ..) hfind, textTo_between front w rest⟩

theorem isDottedChar_of_isBlank (h : isBlank a) : isDottedChar a = false := by
  have hne : a ≠ '.' := by
    rintro rfl
    exact absurd h (by decide)
  simp [isDottedChar, isWordChar_of_isBlank h, hne]

namespace Attribute

theorem isBlank_of_mem_blanks (a : Attribute) : ∀ b ∈ a.blanks, isBlank b := by
  rw [blanks]
  cases a.arguments with
  | none => exact List.forall_mem_nil _
  | some g => exact List.forall_mem_append.2 ⟨g.gap.isBlank_of_mem, by decide⟩

/-- What stands behind a word does not carry it on. -/
theorem head?_behind {a : Attribute} {as : List Attribute} (h : Spaced (a :: as)) (trail : Gap) :
    (a.blanks ++ (as.flatMap bare ++ trail.chars)).head?.any isDottedChar = false := by
  have hgap {gap rest : List Char} (hblank : ∀ b ∈ gap, isBlank b)
      (hrest : gap = [] → rest.head?.any isDottedChar = false) :
      (gap ++ rest).head?.any isDottedChar = false := by
    cases gap with
    | nil => exact hrest rfl
    | cons b gap => exact isDottedChar_of_isBlank (hblank b List.mem_cons_self)
  refine hgap a.isBlank_of_mem_blanks fun hnil => ?_
  cases as with
  | nil =>
    have htrail := hgap trail.isBlank_of_mem fun _ =>
      (rfl : ([] : List Char).head?.any isDottedChar = false)
    rwa [List.append_nil] at htrail
  | cons b as =>
    have hnone : a.arguments = none := by
      cases hargs : a.arguments with
      | none => rfl
      | some g => simp [blanks, hargs] at hnil
    have hne := (List.isChain_cons_cons.1 h).1 hnone
    rw [List.flatMap_cons, bare, List.append_assoc, List.append_assoc]
    exact hgap b.gap.isBlank_of_mem fun hnil => absurd hnil hne

theorem map_findAll_bare (trail : Gap) : ∀ {as : List Attribute} (front : List Char), Spaced as →
    (dotted.findAll (between front (as.flatMap bare ++ trail.chars))).map Hit.text = as.map word
  | [], front, _ => by
    have hpass :=
      opens_dotted.findAll_append (fun b hb => isIdentStart_of_isBlank (trail.isBlank_of_mem b hb))
      front []
    rw [List.append_nil, findAll_eq_nil (opens_dotted.find?_nil _)] at hpass
    exact congrArg _ hpass
  | a :: as, front, h => by
    have hgap :=
      opens_dotted.findAll_append (fun b hb => isIdentStart_of_isBlank (a.gap.isBlank_of_mem b hb))
      front (a.word ++ (a.blanks ++ (as.flatMap bare ++ trail.chars)))
    obtain ⟨hit, hfound, htext⟩ :=
      exists_findAll_dotted a.isDotted_word (head?_behind h trail) (front ++ a.gap.chars)
    have hblanks := opens_dotted.findAll_append
      (fun b hb => isIdentStart_of_isBlank (a.isBlank_of_mem_blanks b hb))
        (front ++ a.gap.chars ++ a.word)
      (as.flatMap bare ++ trail.chars)
    have hchars : (a :: as).flatMap bare ++ trail.chars =
        a.gap.chars ++ (a.word ++ (a.blanks ++ (as.flatMap bare ++ trail.chars))) := by
      simp [bare]
    rw [hchars, hgap, hfound, List.map_cons, htext, hblanks,
      map_findAll_bare trail _ (List.IsChain.of_cons h)]
    rfl

/-- The words are found without their arguments. -/
theorem attributeWords_attributes {as : List Attribute} (h : Spaced as) (trail : Gap) :
    attributeWords (as.flatMap chars ++ trail.chars) = as.map text := by
  have hstrip : stripGroups (as.flatMap chars ++ trail.chars) = as.flatMap bare ++ trail.chars := by
    rw [stripGroups_eq_chars, foldl_attributes, Remains.chars_add]
    rfl
  have hwords := map_findAll_bare trail [] h
  rw [attributeWords, hstrip]
  have hall : (dotted.allIn (as.flatMap bare ++ trail.chars)).map Hit.text = as.map word := hwords
  have hmap := congrArg (List.map String.ofList) hall
  rw [List.map_map, List.map_map] at hmap
  exact hmap

end Attribute

end Written

end ContractAudit
