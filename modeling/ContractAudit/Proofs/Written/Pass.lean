import ContractAudit.Proofs.Contract.Gap
import ContractAudit.Proofs.Written.Inside

/-!
# The pass over written contracts

`Draft.finish` is the pass over the rest of a source. It goes over a text without declarations as if
it were not there (`finish_quiet`), enters a written contract (`finish_contract`) and adds a written
member (`finish_member`), wherever they stand.
-/

namespace ContractAudit

open Pattern Cursor

variable {env : Surroundings} (length : Nat) {front rest w : List Char}

namespace Draft

/-- The pass over all that follows the place. -/
def finish (env : Surroundings) (length : Nat) (d : Draft) (c : Cursor) : Draft :=
  addAll env length c.rest.length d c

theorem addAll_eq_finish (henv : env.OfText (front ++ rest)) {fuel : Nat}
    (hfuel : rest.length ≤ fuel) (d : Draft) : addAll env length fuel d (between front rest) =
      finish env length d (between front rest) :=
  addAll_eq henv length fuel rest.length d _ (in_between front rest) (by simp; omega) (by simp)

theorem finish_nil (d : Draft) : finish env length d (between front []) = d :=
  rfl

/-- The pass goes over a text without declarations. -/
theorem finish_quiet (henv : env.OfText (front ++ (w ++ rest))) (hw : Written.Quiet w) (d : Draft) :
    finish env length d (between front (w ++ rest)) =
      finish env length d (between (front ++ w) rest) := by
  have hfuel : rest.length ≤ (w ++ rest).length := by simp
  rw [← addAll_eq_finish length (by simpa using henv) hfuel, finish, rest_between]
  cases (w ++ rest).length with
  | zero => rfl
  | succ fuel => rw [addAll, addAll, hw]

/-- The pass takes a declaration and goes on behind it. -/
theorem finish_hit (henv : env.OfText (front ++ rest)) {hit : Hit}
    (hhit : declaration.at? (between front rest) = some hit) {d d' : Draft}
    {front' rest' : List Char} (hadd : d.add env length hit = (d', between front' rest'))
    (htext : front ++ rest = front' ++ rest') :
    finish env length d (between front rest) = finish env length d' (between front' rest') := by
  obtain ⟨-, hreads⟩ := reads_of_at? hhit
  have hin := in_between front rest
  have hlt := (opens_declaration _ _ _ _ _ hin hreads).2
  have hle := (extends_add henv (hreads.in hin).1 length d).le
  have hlen := congrArg List.length htext
  rw [hadd] at hle
  simp only [offset_between, List.length_append] at hlt hle hlen
  obtain ⟨fuel, hfuel⟩ : ∃ fuel, rest.length = fuel + 1 := ⟨rest.length - 1, by omega⟩
  rw [finish, rest_between, hfuel, addAll, find?_of_at? hhit]
  simp only [hadd]
  exact addAll_eq_finish length (htext ▸ henv) (by omega) d'

/-- What has been found, in order. -/
def outline (d : Draft) : Outline :=
  ⟨d.contracts.reverse, d.blocks.reverse⟩

/-- The outline of a text is what the pass over all of it finds. -/
theorem exists_outline_eq (text : List Char) : ∃ env : Surroundings, env.OfText text ∧
    env.valueTypes = ContractAudit.valueTypes text ∧
      Outline.of text = (finish env text.length ⟨[], [], []⟩ (between [] text)).outline :=
  ⟨⟨Pairs.braces text, Pairs.parens text, ContractAudit.valueTypes text⟩, ⟨rfl, rfl⟩, rfl, rfl⟩

/-- The draft with a contract that is open. -/
def enter (d : Draft) (k : Contract) : Draft :=
  { d with contracts := k :: d.contracts, around := k :: d.around }

end Draft

namespace Written

/-! ## Contracts -/

/-- The contract that opens at an offset, as far as its braces are known. -/
def Contract.opened (env : Surroundings) (length : Nat) (front rest : List Char) (c : Contract) :
    ContractAudit.Contract :=
  let close := env.braces.close? (front ++ c.head).length
  { name := c.name.text
    kind := c.kind
    start := front.length
    stop := match close with
      | some k => k + 1
      | none => length
    bases := c.bases.map Name.text
    stateVars :=
      stateVariables env.braces (between (front ++ c.head ++ ['{']) rest) (close.getD length)
    unparsable := close.isNone }

theorem Contract.nonword_heritage (c : Contract) (rest : List Char) :
    (c.heritage ++ rest).head?.any isWordChar = false := by
  rw [heritage]
  split <;> rfl

theorem ofKeyword_label (kind : ContractKind) :
    ContractKind.ofKeyword kind.label.toList = kind := by
  cases kind <;> rfl

/-- The pass enters a written contract. -/
theorem finish_contract (c : Contract) (hshort : c.heritage.length < headerLimit)
    (hfront : front.getLast?.any isWordChar = false)
    (henv : env.OfText (front ++ (c.head ++ '{' :: rest))) (d : Draft) :
    d.finish env length (between front (c.head ++ '{' :: rest)) =
      (d.enter (c.opened env length front rest)).finish env length
        (between (front ++ c.head ++ ['{']) rest) := by
  obtain ⟨hit, hhit, hstart, hstop, hkeyword, hname, hsome⟩ :=
    at?_contract c.kind c.name hfront (c.nonword_heritage ('{' :: rest))
  have htext : c.head ++ '{' :: rest =
      c.kind.label.toList ++ ' ' :: (c.name.chars ++ (c.heritage ++ '{' :: rest)) := by
    simp [Contract.head]
  have hhead : front ++ (c.kind.label.toList ++ ' ' :: c.name.chars) ++ c.heritage =
      front ++ c.head := by
    simp [Contract.head]
  have hmark : bodyMark? env.parens hit.stop =
      some (between (front ++ c.head) ('{' :: rest), '{') := by
    have hgrouped := grouped_of_header c.isHeaderChar_of_mem_heritage c.level_heritage
    rw [hstop, bodyMark?_between hgrouped hshort, hhead]
    rw [henv.parens_eq, htext]
    simp
  have hbases : hit.stop.textTo (between (front ++ c.head) ('{' :: rest)) = c.heritage := by
    rw [hstop, ← hhead, textTo_between]
  refine Draft.finish_hit length henv (htext ▸ hhit) ?_ (by simp)
  rw [Draft.add, if_pos hsome, Draft.addContract, hmark]
  simp only [hname, hkeyword, hstart, hbases, c.parseBases_heritage, ofKeyword_label,
    advance_one_between, offset_between]
  rfl

theorem unmarked_of_isWordChar {a : Char} (h : isWordChar a) : isUnmarked a && !isParen a := by
  have hne : ∀ b, isWordChar b = false → a ≠ b := fun b hb heq => by simp [heq, hb] at h
  simp [isUnmarked, isParen, hne '{' (by decide), hne '}' (by decide), hne ';' (by decide),
    hne '(' (by decide), hne ')' (by decide)]

/-- The pass leaves out a contract whose header is too long. -/
theorem finish_long (c : Contract) (hlong : headerLimit ≤ c.heritage.length)
    (hfront : front.getLast?.any isWordChar = false)
    (henv : env.OfText (front ++ (c.head ++ '{' :: rest))) (d : Draft) :
    d.finish env length (between front (c.head ++ '{' :: rest)) =
      d.finish env length (between (front ++ (c.kind.label.toList ++ ' ' :: c.name.chars))
        (c.heritage ++ '{' :: rest)) := by
  obtain ⟨hit, hhit, hstart, hstop, -, -, hsome⟩ :=
    at?_contract c.kind c.name hfront (c.nonword_heritage ('{' :: rest))
  have htext : c.head ++ '{' :: rest =
      c.kind.label.toList ++ ' ' :: (c.name.chars ++ (c.heritage ++ '{' :: rest)) := by
    simp [Contract.head]
  have hmark : bodyMark? env.parens hit.stop = none := by
    rw [hstop]
    refine bodyMark?_eq_none (fun a ha => ?_) hlong
    have hplain := c.of_mem_heritage a ha
    simp only [Bool.or_eq_true, beq_iff_eq] at hplain
    rcases hplain with (hword | rfl) | rfl
    · exact unmarked_of_isWordChar hword
    · decide
    · decide
  refine Draft.finish_hit length henv (htext ▸ hhit) ?_ (by simp [Contract.head])
  rw [Draft.add, if_pos hsome, Draft.addContract, hmark, hstop]

/-! ## Members -/

/-- A parsed member at the given offset of a contract, with so much text between its braces and with
these statements. -/
def Member.parsed (k : ContractAudit.Contract) (start size : Nat)
    (statements : List ContractAudit.Statement) (m : Member) : Block :=
  let inside := start + m.head.length + 1
  { Draft.asMember (some k) m.header with
    start := start
    stop := inside + size + 1
    contract := some k
    body := some (inside, inside + size)
    statements := statements
    fault := none }

/-- The scope in which the body of the member starts. -/
def Member.scope (types : List String) (k : ContractAudit.Contract) (m : Member) : Scope :=
  Scope.initial types k.stateVars (Draft.asMember (some k) m.header).params

/-- The member as an outline has it, in a contract and at the given offset. -/
def Member.block (layout : Layout) (types : List String) (k : ContractAudit.Contract) (start : Nat)
    (m : Member) : Block :=
  m.parsed k start (m.inside layout).length
    (records layout (m.scope types k) (start + m.head.length + 1) m.body)

theorem Member.nonword_signature (m : Member) (rest : List Char) :
    (m.signature ++ rest).head?.any isWordChar = false := by
  rw [m.signature_eq]
  cases m.role.name? <;> rfl

theorem ofKeyword?_label (kind : BlockKind) : BlockKind.ofKeyword? kind.label = some kind := by
  cases kind <;> rfl

/-- Fallback and receive functions have their bracket right behind the keyword. -/
theorem Member.starts_bracket (m : Member) (h : m.role.name? = none) (rest : List Char) :
    (blanks ++ Pattern.text "(").starts ((m.signature ++ rest).take Draft.bracketLimit) = true := by
  have hbracket : ∃ cs, (m.signature ++ rest).take Draft.bracketLimit = '(' :: cs := by
    rw [m.signature_eq, h]
    exact ⟨_, rfl⟩
  obtain ⟨cs, hcs⟩ := hbracket
  have htakes :
      (blanks ++ Pattern.text "(").Takes (between [] ('(' :: cs)) [] (between ['('] cs) [] :=
    (takes_stretch_nil rfl _ _).append (takes_symbol rfl [] cs [])
  rw [hcs, starts, startOf?, ← between_nil, htakes.at?]
  rfl

/-- The hit is the keyword of the member, whose header ends at the brace. -/
structure Member.Found (env : Surroundings) (front rest : List Char) (m : Member) (hit : Hit) :
    Prop where
  at?_eq : declaration.at? (between front (m.head ++ '{' :: rest)) = some hit
  start_eq : hit.start.offset = front.length
  mark_eq : bodyMark? env.parens hit.stop = some (between (front ++ m.head) ('{' :: rest), '{')
  header_eq : parseHeader m.role.kind
    (hit.stop.rest.take ((front ++ m.head).length - hit.stop.offset)) = m.header
  add_eq : ∀ (d : Draft) (length : Nat),
    d.add env length hit = d.addMember env length m.role.kind hit

theorem Member.exists_found (m : Member) (hfront : front.getLast?.any isWordChar = false)
    (henv : env.OfText (front ++ (m.head ++ '{' :: rest))) : ∃ hit, m.Found env front rest hit := by
  obtain ⟨hit, hhit, hstart, hstop, hmember, hnone⟩ :=
    at?_member m.role.kind hfront (m.nonword_signature ('{' :: rest))
  have htext : m.head ++ '{' :: rest =
      m.role.kind.label.toList ++ (m.signature ++ '{' :: rest) := by
    rw [head, List.append_assoc, keyword]
  refine ⟨hit, htext ▸ hhit, hstart, ?_, ?_, fun d length => ?_⟩
  · have hgrouped := grouped_of_header m.isHeaderChar_of_mem_signature m.level_signature
    have hhead : front ++ m.role.kind.label.toList ++ m.signature = front ++ m.head := by
      rw [head, keyword, List.append_assoc]
    have hparens : env.parens =
        Pairs.parens (front ++ m.role.kind.label.toList ++ (m.signature ++ '{' :: rest)) := by
      rw [henv.parens_eq, htext, List.append_assoc]
    rw [hstop, bodyMark?_between hgrouped m.short hparens, hhead]
  · have hlen : (front ++ m.head).length - (front ++ m.role.kind.label.toList).length =
        m.signature.length := by
      simp only [head, keyword, List.length_append]
      omega
    rw [hstop, offset_between, rest_between, hlen, List.take_left, m.parseHeader_signature]
  · rw [Draft.add, hnone, if_neg (by decide), hmember, String.ofList_toList, ofKeyword?_label]
    refine if_neg fun h => ?_
    rw [Bool.and_eq_true, Bool.or_eq_true, beq_iff_eq, beq_iff_eq] at h
    obtain ⟨hkind, hbracket⟩ := h
    have hname : m.role.name? = none := by
      cases hrole : m.role <;> simp_all [Role.kind, Role.name?]
    simp [hstop, m.starts_bracket hname] at hbracket

section Members

variable {d : Draft} {k : ContractAudit.Contract} {ks : List ContractAudit.Contract}

/-- The pass adds a member of the contract that is open, if its braces are closed and no declaration
is nested in it. -/
theorem finish_closed (m : Member) {inner : List Char}
    (hfront : front.getLast?.any isWordChar = false)
    (henv : env.OfText (front ++ (m.head ++ '{' :: (inner ++ '}' :: rest))))
    (haround : d.around = k :: ks) (hk : front.length < k.stop)
    (hlevel : level '{' '}' 0 inner = some 0) (hnested : nestedDeclaration.findBefore? inner.length
      (between (front ++ m.head ++ ['{']) (inner ++ '}' :: rest)) = none) :
    d.finish env length (between front (m.head ++ '{' :: (inner ++ '}' :: rest))) =
      { d with
        blocks := m.parsed k front.length inner.length
          (Body.statements env (m.scope env.valueTypes k)
            (between (front ++ m.head ++ ['{']) (inner ++ '}' :: rest))
            ((front ++ m.head ++ ['{']).length + inner.length)) :: d.blocks }.finish env length
        (between (front ++ (m.head ++ '{' :: (inner ++ ['}']))) rest) := by
  obtain ⟨hit, hfound⟩ := m.exists_found hfront henv
  have hopen : Draft.openAt front.length d.around = k :: ks := by
    rw [haround, Draft.openAt, if_neg (by omega)]
  have hclose : env.braces.close? (front ++ m.head).length =
      some ((front ++ m.head).length + 1 + inner.length) := by
    rw [henv.braces_eq, ← List.append_assoc]
    exact Pairs.close?_of_level (by decide) hlevel
  have hlen : (front ++ m.head ++ ['{']).length = (front ++ m.head).length + 1 := List.length_append
  refine Draft.finish_hit length henv hfound.at?_eq ?_ (by simp)
  rw [hfound.add_eq]
  simp only [Draft.addMember, hfound.start_eq, hopen, List.head?_cons, hfound.mark_eq,
    Option.any_some, offset_between, hfound.header_eq, hclose, advance_one_between,
    Option.getD_some, hlen, Nat.add_sub_cancel_left, hnested, advanceTo_group]
  rw [if_neg (by decide)]
  simp [Member.parsed, Member.scope, haround]

/-- The pass adds a written member of the contract that is open. -/
theorem finish_member (m : Member) (layout : Layout)
    (hfront : front.getLast?.any isWordChar = false)
    (henv : env.OfText (front ++ (m.chars layout ++ rest))) (haround : d.around = k :: ks)
    (hk : front.length < k.stop) :
    d.finish env length (between front (m.chars layout ++ rest)) =
      { d with blocks := m.block layout env.valueTypes k front.length :: d.blocks }.finish env
        length (between (front ++ m.chars layout) rest) := by
  have htext : m.chars layout ++ rest = m.head ++ '{' :: (m.inside layout ++ '}' :: rest) := by
    simp [Member.chars]
  rw [htext] at henv ⊢
  have hnested : nestedDeclaration.findBefore? (m.inside layout).length
      (between (front ++ m.head ++ ['{']) (m.inside layout ++ '}' :: rest)) = none :=
    ((m.spares_inside layout).lacks (by decide)).findBefore?_nestedDeclaration (by decide)
      (by decide) _ rest
  have hlen : (front ++ m.head ++ ['{']).length = front.length + m.head.length + 1 := by simp; omega
  rw [finish_closed length m hfront henv haround hk (m.level_inside layout) hnested,
    m.statements_inside layout _ (by simpa using henv), hlen]
  rfl

/-- A member at the given offset of a contract in which another declaration starts at `stop`. -/
def Member.torn (k : ContractAudit.Contract) (start stop : Nat) (m : Member) : Block :=
  { Draft.asMember (some k) m.header with
    start := start
    stop := stop
    contract := some k
    body := some (start + m.head.length + 1, stop)
    statements := []
    fault := some .unbalancedBraces }

/-- The pass adds a member in which another declaration starts with its fault, and goes on
inside. -/
theorem finish_torn (m : Member) (hfront : front.getLast?.any isWordChar = false)
    (henv : env.OfText (front ++ (m.head ++ '{' :: rest))) (haround : d.around = k :: ks)
    (hk : front.length < k.stop) {close : Nat}
    (hclose : env.braces.close? (front ++ m.head).length = some close) {nested : Hit}
    (hnested : nestedDeclaration.findBefore? (close - (front ++ m.head ++ ['{']).length)
      (between (front ++ m.head ++ ['{']) rest) = some nested) :
    d.finish env length (between front (m.head ++ '{' :: rest)) =
      { d with blocks := m.torn k front.length nested.start.offset :: d.blocks }.finish env length
        (between (front ++ m.head ++ ['{']) rest) := by
  obtain ⟨hit, hfound⟩ := m.exists_found hfront henv
  have hopen : Draft.openAt front.length d.around = k :: ks := by
    rw [haround, Draft.openAt, if_neg (by omega)]
  refine Draft.finish_hit length henv hfound.at?_eq ?_ (by simp)
  rw [hfound.add_eq]
  simp only [Draft.addMember, hfound.start_eq, hopen, List.head?_cons, hfound.mark_eq,
    Option.any_some, offset_between, hfound.header_eq, hclose, advance_one_between,
    Option.getD_some, hnested]
  rw [if_neg (by decide)]
  simp [Member.torn, haround]
  omega

end Members

/-- The pass adds a function whose name is too long with a fault, and goes on behind the keyword. -/
theorem finish_bare (n : Name) (hlong : headerLimit ≤ n.chars.length)
    (hfront : front.getLast?.any isWordChar = false)
    (henv : env.OfText (front ++ (BlockKind.function.label.toList ++ (' ' :: n.chars ++ rest))))
    (d : Draft) :
    ∃ b around, b.isParsed = false ∧
      d.finish env length
        (between front (BlockKind.function.label.toList ++ (' ' :: n.chars ++ rest))) =
        { d with around := around, blocks := b :: d.blocks }.finish env length
          (between (front ++ BlockKind.function.label.toList) (' ' :: n.chars ++ rest)) := by
  obtain ⟨hit, hhit, hstart, hstop, hmember, hnone⟩ :=
    at?_member .function hfront
      (show (' ' :: n.chars ++ rest).head?.any isWordChar = false from rfl)
  have hmark : bodyMark? env.parens hit.stop = none := by
    rw [hstop]
    refine bodyMark?_eq_none (List.forall_mem_cons.2 ⟨by decide, fun a ha => ?_⟩)
      (Nat.le_succ_of_le hlong)
    exact unmarked_of_isWordChar (n.isWordChar_of_mem a ha)
  have hadd : d.add env length hit = d.addMember env length .function hit := by
    rw [Draft.add, hnone, if_neg (by decide), hmember, String.ofList_toList, ofKeyword?_label]
    rfl
  obtain ⟨b, around, hb, hbare⟩ : ∃ b around, b.isParsed = false ∧
    d.addMember env length .function hit =
      ({ d with around := around, blocks := b :: d.blocks }, hit.stop) := by
    rw [Draft.addMember]
    simp only [hmark]
    exact ⟨_, _, rfl, rfl⟩
  refine ⟨b, around, hb, Draft.finish_hit length henv hhit ?_ (by simp)⟩
  rw [hadd, hbare, hstop]

end Written

end ContractAudit
