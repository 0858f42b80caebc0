import ContractAudit.Proofs.Written.Outline

/-!
# A member without its closing brace

Where the brace that closes a member is missing, the brace of the contract takes its place, and the
contract stays open. If a function, a modifier or a constructor follows, it is seen to be nested in
the member : the member has a fault, the pass goes on inside it, and all other members are found as
before.
-/

namespace ContractAudit

open Pattern Cursor

variable {env : Surroundings} (length : Nat) {front rest w : List Char}

namespace Written

/-- Functions, modifiers and constructors are recognised inside the body of another member. -/
def Role.isNested : Role → Bool
  | function _ | modifier _ | constructor => true
  | fallback | receive => false

/-- The header of such a member is a nested declaration. -/
theorem Member.isSome_nestedDeclaration (m : Member) (h : m.role.isNested)
    (hfront : front.getLast?.any isWordChar = false) (rest : List Char) :
    (nestedDeclaration.at? (between front (m.head ++ rest))).isSome := by
  obtain ⟨tail, htail⟩ : ∃ tail, tail =
    m.paramChars ++ ')' :: (m.attributes.flatMap (' ' :: ·) ++ [' ']) ++ rest := ⟨_, rfl⟩
  have hhead : m.head ++ rest = m.role.kind.label.toList ++
      (m.role.name?.toList.flatMap (fun n => ' ' :: n.chars) ++ '(' :: tail) := by
    simp [head, keyword, m.signature_eq, htail]
  have hedge (u : String) (behind : List Char) (hu : u.toList.head?.any isWordChar) :
      (edge ++ Pattern.text u).Takes (between front (u.toList ++ behind)) []
        (between (front ++ u.toList) behind) [] := by
    refine (takes_edge_before ?_ hfront []).append (takes_text u front behind [])
    rw [List.head?_append]
    cases hword : u.toList.head? <;> simp_all
  have hname (n : Name) (front : List Char) : blanks1.Takes
      (between front (' ' :: ([] ++ (n.chars ++ '(' :: tail)))) []
      (between (front ++ [' ']) (n.chars ++ '(' :: tail)) [] := by
    obtain ⟨a, cs, hchars, -⟩ := n.exists_cons
    refine takes_stretch1 (by decide) ?_ front []
    rw [hchars]
    exact n.not_isBlank_of_mem a (by simp [hchars])
  -- One of the options matches, as its parts do one behind the other.
  suffices hreads : ∃ d, nestedDeclaration.Reads (between front (m.head ++ rest)) [] d [] by
    obtain ⟨d, hreads⟩ := hreads
    exact isSome_read_of_reads _ hreads rfl
  have hblanks (front : List Char) : blanks.Takes (between front ('(' :: tail)) []
      (between front ('(' :: tail)) [] := takes_stretch_nil rfl front []
  have hbracket (front : List Char) : (Pattern.text "(").Takes (between front ('(' :: tail)) []
      (between (front ++ ['(']) tail) [] := takes_symbol rfl front tail []
  cases hrole : m.role with
  | function n =>
    have htext : m.head ++ rest = "function".toList ++ ' ' :: ([] ++ (n.chars ++ '(' :: tail)) := by
      rw [hhead, hrole]
      simp [Role.kind, Role.name?, BlockKind.label]
    have hall := ((((hedge "function" _ rfl).append (hname n _)).append
      (takes_ident n.isIdentifier_chars rfl _ [])).append (hblanks _)).append (hbracket _)
    rw [htext]
    exact ⟨_, reads_oneOf_iff.2 ⟨_, List.mem_cons_self, hall.reads⟩⟩
  | modifier n =>
    have htext : m.head ++ rest = "modifier".toList ++ ' ' :: ([] ++ (n.chars ++ '(' :: tail)) := by
      rw [hhead, hrole]
      simp [Role.kind, Role.name?, BlockKind.label]
    have hall := ((hedge "modifier" _ rfl).append (hname n _)).append
      (takes_ident n.isIdentifier_chars rfl _ [])
    rw [htext]
    exact ⟨_, reads_oneOf_iff.2 ⟨_, List.mem_cons_of_mem _ List.mem_cons_self, hall.reads⟩⟩
  | constructor =>
    have htext : m.head ++ rest = "constructor".toList ++ '(' :: tail := by
      rw [hhead, hrole]
      simp [Role.kind, Role.name?, BlockKind.label]
    have hall := ((hedge "constructor" _ rfl).append (hblanks _)).append (hbracket _)
    rw [htext]
    exact ⟨_, reads_oneOf_iff.2
      ⟨_, List.mem_cons_of_mem _ (List.mem_cons_of_mem _ List.mem_cons_self), hall.reads⟩⟩
  | fallback => simp [hrole, Role.isNested] at h
  | receive => simp [hrole, Role.isNested] at h

/-! ## What follows the missing brace -/

/-- What follows the brace of the member `m` whose closing brace is missing, up to the brace of the
contract. The members `after` stand behind it. -/
def behindTorn (layout : Layout) (m : Member) (after : List Member) : List Char :=
  m.inside layout ++ (membersChars layout after ++ layout.foot)

theorem level_behindTorn (layout : Layout) (m : Member) (after : List Member) :
    level '{' '}' 0 (behindTorn layout m after) = some 0 := by
  have hadd := additive_level '{' '}'
  exact hadd.append (m.level_inside layout) (hadd.append (level_membersChars layout after)
    (level_of_isBlank layout.isBlank_foot))

/-- A member that is recognised is found behind the missing brace. -/
theorem isSome_findBefore?_behindTorn (layout : Layout) (m : Member) {after : List Member}
    (hnested : ∃ j ∈ after, j.role.isNested) (hfront : front.getLast?.any isWordChar = false)
    (rest : List Char) :
    (nestedDeclaration.findBefore? (behindTorn layout m after).length
      (between front (behindTorn layout m after ++ rest))).isSome := by
  obtain ⟨j, hj, hrole⟩ := hnested
  obtain ⟨before, later, rfl⟩ := List.append_of_mem hj
  obtain ⟨w, hw⟩ : ∃ w, w = m.inside layout ++ (membersChars layout before ++ layout.member) :=
    ⟨_, rfl⟩
  have htext : behindTorn layout m (before ++ j :: later) ++ rest = w ++ (j.head ++
      ('{' :: (j.inside layout ++ '}' ::
        (membersChars layout later ++ (layout.foot ++ rest))))) := by
    simp [hw, behindTorn, membersChars, Member.chars]
  have hsettled : Settled w := by
    have hadd := additive_settled
    rw [hw]
    exact hadd.append (hadd.append (settled_bodyChars layout m.body)
      (settled_of_blanks layout.isBlank_member)) (hadd.append (settled_members layout before)
        (settled_of_blanks layout.isBlank_member))
  have hlen : w.length < (behindTorn layout m (before ++ j :: later)).length := by
    have hlength := congrArg List.length htext
    simp only [List.length_append, List.length_cons] at hlength ⊢
    omega
  rw [htext]
  exact isSome_findBefore? hlen (j.isSome_nestedDeclaration hrole (hsettled front hfront) _)

theorem Param.declares (p : Param) : Lacks declarationWords p.chars := by
  rw [chars, typeChars, lacks_append_cons (by decide)]
  refine ⟨lacks_append_flatMap (fun place _ => ?_) p.type.unreserved_chars.of_declarationWords,
    p.name.undeclaring⟩
  refine ⟨' ', _, rfl, by decide, ?_⟩
  cases place <;> decide

theorem Member.declares_of_mem_attributes (m : Member) :
    ∀ w ∈ m.attributes, Lacks declarationWords w := by
  simp only [attributes, Written.attributes, List.forall_mem_append, List.forall_mem_map]
  refine ⟨⟨fun v _ => ?_, fun v _ => ?_⟩, fun n _ => n.undeclaring⟩
  · cases v <;> decide
  · cases v <;> decide

theorem lacks_intercalate {ws : List String} (hws : "" ∉ ws) : ∀ {ls : List (List Char)},
    (∀ l ∈ ls, Lacks ws l) → Lacks ws ([',', ' '].intercalate ls)
  | [], _ => lacks_nil hws
  | [l], hls => by simpa using hls l List.mem_cons_self
  | l :: l' :: ls, hls => by
    rw [List.intercalate_cons_cons, List.append_assoc, List.cons_append, List.cons_append,
      lacks_append_cons (by decide), List.nil_append, lacks_cons hws (by decide)]
    exact ⟨hls l List.mem_cons_self, lacks_intercalate hws fun k hk =>
      hls k (List.mem_cons_of_mem l hk)⟩

/-- Nothing in the header of another member opens a declaration that is recognised. -/
theorem Member.spares_head (m : Member) (h : m.role.isNested = false) :
    Spares nestedWords (m.head ++ ['{']) := by
  have hname : m.role.name? = none := by
    cases hrole : m.role <;> simp_all [Role.isNested, Role.name?]
  have hkeyword : Lacks nestedWords m.keyword := by
    rw [keyword]
    cases hrole : m.role <;> simp_all [Role.isNested, Role.kind] <;> decide
  have hnil : Lacks nestedWords [] := lacks_nil (by decide)
  have hparams : Lacks nestedWords m.paramChars := by
    refine lacks_intercalate (by decide) fun l hl => ?_
    obtain ⟨p, -, rfl⟩ := List.mem_map.1 hl
    exact p.declares.of_nestedWords
  have hattributes : Lacks nestedWords ([] ++ m.attributes.flatMap (' ' :: ·)) :=
    lacks_append_flatMap (fun w hw => ⟨' ', w, rfl, by decide,
      (m.declares_of_mem_attributes w hw).of_nestedWords⟩) hnil
  have hadd := additive_spares nestedWords
  have hall := hadd.append (hkeyword.spares (a := '(') (by decide)) (hadd.append
    (hparams.spares (a := ')') (by decide)) (hadd.append (hattributes.spares (a := ' ') (by decide))
      (hnil.spares (a := '{') (by decide))))
  simpa [head, m.signature_eq, hname] using hall

/-- No declaration is recognised behind the missing brace if no such member follows. -/
theorem findBefore?_behindTorn (layout : Layout) (m : Member) {after : List Member}
    (hnested : ∀ j ∈ after, j.role.isNested = false) (front rest : List Char) :
    nestedDeclaration.findBefore? (behindTorn layout m after).length
      (between front (behindTorn layout m after ++ '}' :: rest)) = none := by
  have hadd := additive_spares nestedWords
  have hgap {gap : List Char} (h : ∀ a ∈ gap, isBlank a) : Spares nestedWords gap :=
    spares_of_blanks (by decide) h
  have hbrace : Spares nestedWords ['}'] := (lacks_nil (by decide)).spares (by decide)
  have hafter : Spares nestedWords (membersChars layout after) := by
    refine hadd.flatMap fun j hj => hadd.append (hgap layout.isBlank_member) ?_
    have hall :=
      hadd.append (j.spares_head (hnested j hj)) (hadd.append (j.spares_inside layout) hbrace)
    simpa [Member.chars] using hall
  have hspares : Spares nestedWords (behindTorn layout m after) :=
    hadd.append (m.spares_inside layout) (hadd.append hafter (hgap layout.isBlank_foot))
  exact (hspares.lacks (by decide)).findBefore?_nestedDeclaration (by decide) (by decide) _ _

/-! ## The pass over the torn text -/

/-- The text of a contract up to the member whose closing brace is missing. -/
def Contract.upToTorn (layout : Layout) (before : List Member) (c : Contract) : List Char :=
  c.upTo layout before ++ layout.member

/-- The text of a contract with the members `before`, `m` and `after`, without the brace that closes
`m`. -/
def Contract.tornChars (layout : Layout) (before : List Member) (m : Member) (after : List Member)
    (c : Contract) : List Char :=
  c.upToTorn layout before ++ (m.head ++ '{' :: (behindTorn layout m after ++ '}' :: layout.apart))

section Torn

variable (c : Contract) (layout : Layout) (before : List Member) (m : Member) (after : List Member)

theorem Contract.settled_upToTorn : (c.upToTorn layout before).getLast?.any isWordChar = false := by
  have hsettled : Settled (variablesChars layout c.stateVars ++
      (membersChars layout before ++ layout.member)) :=
    additive_settled.append (settled_variables layout c.stateVars) (additive_settled.append
      (settled_members layout before) (settled_of_blanks layout.isBlank_member))
  have hlast := hsettled (c.head ++ ['{']) (by rw [List.getLast?_concat]; rfl)
  simpa [upToTorn, upTo] using hlast

/-- The brace of the contract stays open. -/
theorem close?_tornChars (henv : env.OfText (c.tornChars layout before m after)) :
    env.braces.close? c.head.length = none := by
  have hadd := additive_level '{' '}'
  have hlevel : level '{' '}' 0 (variablesChars layout c.stateVars ++ (membersChars layout before ++
      (layout.member ++ (m.head ++ '{' :: (behindTorn layout m after ++ '}' :: layout.apart))))) =
        some 0 := by
    refine hadd.append (level_variablesChars layout c.stateVars) (hadd.append
      (level_membersChars layout before) (hadd.append (level_of_isBlank layout.isBlank_member) ?_))
    rw [level_append_balanced (level_of_isHeaderChar m.isHeaderChar_of_mem_head),
      level_group (by decide) (level_behindTorn layout m after),
      level_of_isBlank layout.isBlank_apart]
  have htext : c.tornChars layout before m after =
      c.head ++ '{' :: (variablesChars layout c.stateVars ++ (membersChars layout before ++
        (layout.member ++
          (m.head ++ '{' :: (behindTorn layout m after ++ '}' :: layout.apart))))) := by
    simp [Contract.tornChars, Contract.upToTorn, Contract.upTo]
  rw [henv.braces_eq, htext]
  exact Pairs.close?_eq_none_of_level hlevel

/-- The draft at the member whose closing brace is missing. -/
structure Reached (env : Surroundings) (length : Nat) (k : ContractAudit.Contract) (d : Draft) :
    Prop where
  name_eq : k.name = c.name.text
  stop_eq : k.stop = length
  around_eq : d.around = [k]
  blocks_eq : d.blocks = (c.blocksUpTo layout env.valueTypes k 0 before).reverse

theorem exists_reached (hshort : c.heritage.length < headerLimit)
    (henv : env.OfText (c.tornChars layout before m after)) :
    ∃ k d, Reached c layout before env (c.tornChars layout before m after).length k d ∧
      Draft.finish env (c.tornChars layout before m after).length ⟨[], [], []⟩
          (between [] (c.tornChars layout before m after)) =
        d.finish env (c.tornChars layout before m after).length (between (c.upToTorn layout before)
          (m.head ++ '{' :: (behindTorn layout m after ++ '}' :: layout.apart))) := by
  obtain ⟨length, hlength⟩ : ∃ length, length = (c.tornChars layout before m after).length :=
    ⟨_, rfl⟩
  obtain ⟨rest, hrest⟩ :
    ∃ rest, rest = m.head ++ '{' :: (behindTorn layout m after ++ '}' :: layout.apart) :=
    ⟨_, rfl⟩
  have htext : c.tornChars layout before m after =
      c.upTo layout before ++ (layout.member ++ rest) := by
    simp [Contract.tornChars, Contract.upToTorn, hrest]
  obtain ⟨k, hk⟩ : ∃ k, k = c.opened env length [] (variablesChars layout c.stateVars ++
    (membersChars layout before ++ (layout.member ++ rest))) := ⟨_, rfl⟩
  have hstop : k.stop = length := by
    simp [hk, Contract.opened, close?_tornChars c layout before m after henv]
  have hle : ([] ++ c.upTo layout before).length ≤ k.stop := by
    rw [hstop, hlength, htext, List.nil_append, List.length_append]
    omega
  rw [htext] at henv
  have hfront := finish_upTo length c layout before k hshort rfl henv hk hle ⟨[], [], []⟩
  obtain ⟨d, hd⟩ : ∃ d, d = { Draft.enter ⟨[], [], []⟩ k with
    blocks := (c.blocksUpTo layout env.valueTypes k 0 before).reverse ++ [] } := ⟨_, rfl⟩
  have hgap := Draft.finish_quiet length henv (quiet_of_blanks layout.isBlank_member) d
  refine ⟨k, d, ⟨by rw [hk]; rfl, hstop.trans hlength, by rw [hd]; rfl, by simp [hd]⟩, ?_⟩
  rw [← hlength, htext, ← hrest, hfront, List.length_nil, ← hd]
  exact hgap

variable {c before m after}

/-- The pass goes over the statements of the torn member and adds the members behind it. -/
theorem finish_behindTorn {d : Draft} {k : ContractAudit.Contract}
    {ks : List ContractAudit.Contract} (hfront : front.getLast?.any isWordChar = false)
    (henv : env.OfText (front ++ (behindTorn layout m after ++ '}' :: layout.apart)))
    (haround : d.around = k :: ks)
    (hstop : front.length + (behindTorn layout m after).length ≤ k.stop) :
    d.finish env length (between front (behindTorn layout m after ++ '}' :: layout.apart)) =
      { d with
        blocks :=
          (blocks layout env.valueTypes k (front ++ m.inside layout).length after).reverse ++
            d.blocks } := by
  obtain ⟨inside, hinside⟩ : ∃ inside, inside = m.inside layout := ⟨_, rfl⟩
  obtain ⟨tail, htail⟩ : ∃ tail, tail = layout.foot ++ (['}'] ++ layout.apart) := ⟨_, rfl⟩
  have hbehind : behindTorn layout m after ++ '}' :: layout.apart =
      inside ++ (membersChars layout after ++ tail) := by
    simp [behindTorn, hinside, htail]
  have hquiet : Quiet inside := by
    rw [hinside]
    exact additive_quiet.append (quiet_bodyChars layout m.body)
      (quiet_of_blanks layout.isBlank_member)
  have hsettled : Settled inside := by
    rw [hinside]
    exact additive_settled.append (settled_bodyChars layout m.body)
      (settled_of_blanks layout.isBlank_member)
  have hend : Quiet tail := by
    rw [htail]
    exact additive_quiet.append (quiet_of_blanks layout.isBlank_foot) (additive_quiet.append
      (quiet_mark (by decide) (by decide)) (quiet_of_blanks layout.isBlank_apart))
  have hmembers : (front ++ inside).length + (membersChars layout after).length ≤ k.stop := by
    rw [behindTorn, ← hinside] at hstop
    simp only [List.length_append] at hstop ⊢
    omega
  rw [hbehind] at henv ⊢
  obtain ⟨d', hd'⟩ : ∃ d', d' = { d with
      blocks := (blocks layout env.valueTypes k (front ++ inside).length after).reverse ++
        d.blocks } := ⟨_, rfl⟩
  rw [← hinside, ← hd']
  calc d.finish env length (between front (inside ++ (membersChars layout after ++ tail)))
    _ = d.finish env length (between (front ++ inside) (membersChars layout after ++ tail)) :=
        Draft.finish_quiet length henv hquiet d
    _ = d'.finish env length
      (between (front ++ inside ++ membersChars layout after) (tail ++ [])) := by
        rw [finish_members length layout after _ d (hsettled front hfront)
          (by simpa using henv) haround hmembers, ← hd', List.append_nil]
    _ = d'.finish env length (between (front ++ inside ++ membersChars layout after ++ tail) []) :=
        Draft.finish_quiet length (by simpa using henv) hend d'
    _ = d' := Draft.finish_nil length d'

/-- If a member that is recognised follows, the member has a fault and all others are found. -/
theorem exists_blocks_torn (hshort : c.heritage.length < headerLimit)
    (hnested : ∃ j ∈ after, j.role.isNested) : ∃ types k start stop later, k.name = c.name.text ∧
      (Outline.of (c.tornChars layout before m after)).blocks =
        c.blocksUpTo layout types k 0 before ++ m.torn k start stop ::
          blocks layout types k later after := by
  obtain ⟨env, henv, -, houtline⟩ := Draft.exists_outline_eq (c.tornChars layout before m after)
  obtain ⟨k, d, hd, hreach⟩ := exists_reached c layout before m after hshort henv
  obtain ⟨front, hfront⟩ : ∃ front, front = c.upToTorn layout before := ⟨_, rfl⟩
  obtain ⟨behind, hbehind⟩ : ∃ behind, behind = behindTorn layout m after := ⟨_, rfl⟩
  have htext : c.tornChars layout before m after =
      front ++ (m.head ++ '{' :: (behind ++ '}' :: layout.apart)) := by
    rw [hfront, hbehind, Contract.tornChars]
  have hlast : (front ++ m.head ++ ['{']).getLast?.any isWordChar = false := by
    rw [List.getLast?_concat]
    rfl
  have hlen : (front ++ m.head ++ ['{']).length = (front ++ m.head).length + 1 := List.length_append
  have hstop : (front ++ m.head ++ ['{']).length + behind.length ≤ k.stop := by
    rw [hd.stop_eq, htext]
    simp only [List.length_append, List.length_cons, List.length_nil]
    omega
  rw [htext] at henv
  -- The brace of the contract is taken for that of the member.
  have hclose : env.braces.close? (front ++ m.head).length =
      some ((front ++ m.head).length + 1 + behind.length) := by
    rw [henv.braces_eq, ← List.append_assoc, hbehind]
    exact Pairs.close?_of_level (by decide) (level_behindTorn layout m after)
  obtain ⟨nested, hfind⟩ := Option.isSome_iff_exists.1
    (isSome_findBefore?_behindTorn layout m hnested hlast ('}' :: layout.apart))
  have hnext := finish_torn (c.tornChars layout before m after).length m
    (hfront ▸ c.settled_upToTorn layout before) henv hd.around_eq
    (by rw [hlen, List.length_append] at hstop; omega) hclose
    (by rw [hlen, Nat.add_sub_cancel_left, hbehind, hfind])
  have hlater := finish_behindTorn (c.tornChars layout before m after).length layout hlast
    (by rw [← hbehind]; simpa using henv)
    (show { d with blocks := m.torn k front.length nested.start.offset :: d.blocks }.around =
      [k] from hd.around_eq) (hbehind ▸ hstop)
  rw [hbehind] at hnext
  refine ⟨env.valueTypes, k, front.length, nested.start.offset,
    (front ++ m.head ++ ['{'] ++ m.inside layout).length, hd.name_eq, ?_⟩
  rw [houtline, hreach, ← hfront, hnext, hlater, Draft.outline, hd.blocks_eq]
  simp

/-- If none follows, the member ends with the contract, and the members behind it are lost. -/
theorem exists_blocks_swallowed (hshort : c.heritage.length < headerLimit)
    (hnested : ∀ j ∈ after, j.role.isNested = false) :
    ∃ types k start size statements, k.name = c.name.text ∧
      (Outline.of (c.tornChars layout before m after)).blocks =
        c.blocksUpTo layout types k 0 before ++ [m.parsed k start size statements] := by
  obtain ⟨env, henv, -, houtline⟩ := Draft.exists_outline_eq (c.tornChars layout before m after)
  obtain ⟨k, d, hd, hreach⟩ := exists_reached c layout before m after hshort henv
  obtain ⟨front, hfront⟩ : ∃ front, front = c.upToTorn layout before := ⟨_, rfl⟩
  have htext : c.tornChars layout before m after =
      front ++ (m.head ++ '{' :: (behindTorn layout m after ++ '}' :: layout.apart)) := by
    rw [hfront, Contract.tornChars]
  have hlt : front.length < k.stop := by
    rw [hd.stop_eq, htext, List.length_append, List.length_append, List.length_cons]
    omega
  rw [htext] at henv
  have hnext := finish_closed (c.tornChars layout before m after).length m
    (hfront ▸ c.settled_upToTorn layout before) henv hd.around_eq hlt
      (level_behindTorn layout m after)
    (findBefore?_behindTorn layout m hnested _ layout.apart)
  obtain ⟨statements, hstatements⟩ : ∃ statements, statements =
    Body.statements env (m.scope env.valueTypes k)
      (between (front ++ m.head ++ ['{']) (behindTorn layout m after ++ '}' :: layout.apart))
      ((front ++ m.head ++ ['{']).length + (behindTorn layout m after).length) := ⟨_, rfl⟩
  have henv' : env.OfText (front ++ (m.head ++ '{' :: (behindTorn layout m after ++ ['}'])) ++
      (layout.apart ++ [])) := by
    simpa using henv
  have hend := Draft.finish_quiet (c.tornChars layout before m after).length henv'
    (quiet_of_blanks layout.isBlank_apart) { d with
      blocks := m.parsed k front.length (behindTorn layout m after).length statements :: d.blocks }
  rw [List.append_nil, Draft.finish_nil] at hend
  refine ⟨env.valueTypes, k, front.length, (behindTorn layout m after).length, statements,
    hd.name_eq, ?_⟩
  rw [houtline, hreach, ← hfront, hnext, ← hstatements, hend, Draft.outline, hd.blocks_eq]
  simp

end Torn

/-! ## What becomes of the members -/

/-- What a reader sees of a member : its kind, its name, its statements, and why they could not be
read. -/
def outcome (b : Block) : BlockKind × String × List String × Option String :=
  (b.kind, b.name, b.statements.map (·.text), b.fault.map Fault.reason)

/-- The kind of a member of the contract with the given name. -/
def Member.kindIn (contract : String) (m : Member) : BlockKind :=
  if m.role.kind == .function && m.role.name == contract then .constructor else m.role.kind

/-- What a reader should see of a written member. -/
def Member.outcome (contract : String) (m : Member) :
    BlockKind × String × List String × Option String :=
  (m.kindIn contract, m.role.name, m.body.map fun s => String.ofList s.chars, none)

/-- What is said of a member without regard to its statements. -/
def heading (b : Block) : BlockKind × String × Bool :=
  (b.kind, b.name, b.isParsed)

/-- What a reader should see of a written member without regard to its statements. -/
def Member.heading (contract : String) (m : Member) : BlockKind × String × Bool :=
  (m.kindIn contract, m.role.name, true)

section Outcome

variable {layout : Layout} {types : List String} {k : ContractAudit.Contract} {start : Nat}

theorem kind_asMember (k : ContractAudit.Contract) (m : Member) :
    (Draft.asMember (some k) m.header).kind = m.kindIn k.name := by
  show (if m.role.kind == .function && m.role.name == k.name then _ else m.header).kind = _
  rw [Member.kindIn]
  split <;> rfl

theorem name_asMember (k : ContractAudit.Contract) (m : Member) :
    (Draft.asMember (some k) m.header).name = m.role.name := by
  rw [Draft.asMember]
  split <;> rfl

theorem outcome_block (m : Member) : outcome (m.block layout types k start) = m.outcome k.name := by
  simp [outcome, Member.outcome, Member.block, Member.parsed, kind_asMember, name_asMember,
    text_records]

theorem outcome_torn (m : Member) (stop : Nat) :
    outcome (m.torn k start stop) =
      (m.kindIn k.name, m.role.name, [], some "unbalanced braces") := by
  simp [outcome, Member.torn, kind_asMember, name_asMember, Fault.reason]

theorem outcome_blocks (layout : Layout) (types : List String) (k : ContractAudit.Contract) :
    ∀ (start : Nat) (ms : List Member),
      (blocks layout types k start ms).map outcome = ms.map (Member.outcome k.name)
  | _, [] => rfl
  | start, m :: ms => by
    rw [blocks, List.map_cons, outcome_block, outcome_blocks layout types k, List.map_cons]

theorem heading_of_outcome {bs : List Block} {ms : List Member} {contract : String}
    (h : bs.map outcome = ms.map (Member.outcome contract)) :
    bs.map heading = ms.map (Member.heading contract) := by
  have hmap := congrArg (List.map fun o => (o.1, o.2.1, o.2.2.2.isNone)) h
  simp only [List.map_map, Function.comp_def, outcome, Member.outcome, Option.isNone_map] at hmap
  exact hmap

theorem heading_parsed (m : Member) (size : Nat) (statements : List ContractAudit.Statement) :
    heading (m.parsed k start size statements) = m.heading k.name := by
  simp [heading, Member.heading, Member.parsed, kind_asMember, name_asMember, Block.isParsed]

theorem blocks_append (layout : Layout) (types : List String) (k : ContractAudit.Contract)
    (later : List Member) : ∀ (start : Nat) (ms : List Member),
      blocks layout types k start (ms ++ later) = blocks layout types k start ms ++
        blocks layout types k (start + (membersChars layout ms).length) later
  | _, [] => rfl
  | start, m :: ms => by
    have hcons : membersChars layout (m :: ms) =
        layout.member ++ m.chars layout ++ membersChars layout ms := rfl
    rw [List.cons_append, blocks, blocks_append layout types k later, blocks, hcons, Nat.add_assoc,
      ← List.length_append, List.cons_append]

end Outcome

/-! ## Erasing the brace -/

section Erase

variable (layout : Layout) {c : Contract} {before after : List Member} {m : Member}

/-- The text of a contract up to the brace that closes the member `m`. -/
def Contract.upToBrace (layout : Layout) (before : List Member) (m : Member) (c : Contract) :
    List Char :=
  c.upToTorn layout before ++ (m.head ++ '{' :: m.inside layout)

theorem source_eq_upToBrace (hmembers : c.members = before ++ m :: after) : source layout [c] =
    c.upToBrace layout before m ++
      '}' :: (membersChars layout after ++ (layout.foot ++ '}' :: layout.apart)) := by
  simp [source, Contract.chars, Contract.inside, Contract.upToBrace, Contract.upToTorn,
    Contract.upTo, hmembers, membersChars, Member.chars]

theorem eraseIdx_source (hmembers : c.members = before ++ m :: after) :
    (source layout [c]).eraseIdx (c.upToBrace layout before m).length =
      c.tornChars layout before m after := by
  rw [source_eq_upToBrace layout hmembers, List.eraseIdx_append_of_length_le (Nat.le_refl _),
    Nat.sub_self, List.eraseIdx_cons_zero]
  simp [Contract.upToBrace, Contract.tornChars, behindTorn]

theorem stable_tornChars : Stable (c.tornChars layout before m after) := by
  have hadd := additive_stable
  have hbrace : Stable ['}'] := stable_mark (by decide)
  have hbehind : Stable (behindTorn layout m after) := hadd.append (m.stable_inside layout)
    (hadd.append (stable_members layout after) (stable_of_isBlank layout.isBlank_foot))
  have hfront := hadd.append (c.stable_upTo layout before) (stable_of_isBlank layout.isBlank_member)
  exact hadd.append hfront (hadd.append (stable_of_isHeaderChar m.isHeaderChar_of_mem_head)
    (hadd.append (stable_mark (by decide)) (hadd.append hbehind
      (hadd.append hbrace (stable_of_isBlank layout.isBlank_apart)))))

/-- The members of the whole contract, with the place of the brace that closes `m`. -/
theorem exists_blocks_source (hshort : c.heritage.length < headerLimit)
    (hmembers : c.members = before ++ m :: after) : ∃ b lo,
      (Outline.of (source layout [c])).blocks[before.length]? = some b ∧
        b.body = some (lo, (c.upToBrace layout before m).length) ∧
        outcome b = m.outcome c.name.text ∧
        (Outline.of (source layout [c])).blocks.map outcome =
          c.members.map (Member.outcome c.name.text) := by
  obtain ⟨types, htypes⟩ : ∃ types, types = ContractAudit.valueTypes (source layout [c]) := ⟨_, rfl⟩
  obtain ⟨k, hk⟩ : ∃ k, k = c.record layout 0 := ⟨_, rfl⟩
  obtain ⟨start, hstart⟩ : ∃ start,
    start = 0 + c.head.length + 1 + (variablesChars layout c.stateVars).length := ⟨_, rfl⟩
  have hblocks : (Outline.of (source layout [c])).blocks =
      blocks layout types k start c.members := by
    rw [outline_source layout [c] (by simpa using hshort), ← htypes, outlineOf, outlineOf,
      Contract.blocks, Contract.blocksUpTo, ← hk, ← hstart]
    exact List.append_nil _
  have hname : k.name = c.name.text := by rw [hk]; rfl
  have hlen : (blocks layout types k start before).length = before.length := by
    simpa using congrArg List.length (outcome_blocks layout types k start before)
  have hfirst : (c.upToBrace layout before m).length = start + (membersChars layout before).length +
      layout.member.length + m.head.length + 1 + (m.inside layout).length := by
    simp only [Contract.upToBrace, Contract.upToTorn, Contract.upTo, List.length_append,
      List.length_cons, hstart]
    omega
  refine ⟨m.block layout types k
    (start + (membersChars layout before).length + layout.member.length),
    start + (membersChars layout before).length + layout.member.length + m.head.length + 1, ?_, ?_,
    ?_, ?_⟩
  · rw [hblocks, hmembers, blocks_append, blocks, List.getElem?_append_right (Nat.le_of_eq hlen),
      hlen, Nat.sub_self, List.getElem?_cons_zero]
  · rw [hfirst]
    rfl
  · rw [outcome_block, hname]
  · rw [hblocks, outcome_blocks, hname]

/-- The members without the brace that closes `m`, if one that is recognised in a body follows. -/
theorem outcome_tornChars (hshort : c.heritage.length < headerLimit)
    (hnested : ∃ m ∈ after, m.role.isNested) :
    (Outline.of (c.tornChars layout before m after)).blocks.map outcome =
      before.map (Member.outcome c.name.text) ++
        (m.kindIn c.name.text, m.role.name, [], some "unbalanced braces") ::
          after.map (Member.outcome c.name.text) := by
  obtain ⟨types, k, start, stop, later, hk, hblocks⟩ :=
    exists_blocks_torn (m := m) layout hshort hnested
  rw [hblocks, List.map_append, List.map_cons, Contract.blocksUpTo, outcome_blocks, outcome_blocks,
    outcome_torn, hk]

/-- The members without the brace that closes `m`, if only such follow that are not recognised. -/
theorem heading_tornChars (hshort : c.heritage.length < headerLimit)
    (hnested : ∀ m ∈ after, m.role.isNested = false) :
    (Outline.of (c.tornChars layout before m after)).blocks.map heading =
      (before ++ [m]).map (Member.heading c.name.text) := by
  obtain ⟨types, k, start, size, statements, hk, hblocks⟩ :=
    exists_blocks_swallowed (m := m) layout hshort hnested
  rw [hblocks, List.map_append, Contract.blocksUpTo, heading_of_outcome (outcome_blocks ..),
    List.map_singleton, heading_parsed, hk, List.map_append, List.map_singleton]

end Erase

end Written

open Written in
/-- Without the brace that closes the `k`-th member of a contract, that member is read with a fault
and all others as before, if a function, a modifier or a constructor follows. If only fallback and
receive functions follow, they are taken for statements of the member. -/
theorem Source.outline_torn (layout : Layout) (c : Written.Contract) (k : Nat) (limit : Int)
    (hk : k < c.members.length) (hshort : c.heritage.length < headerLimit)
    (hlimit : ((source layout [c]).length : Int) ≤ limit) :
    ∃ s t b lo hi,
      Source.of? limit (String.ofList (source layout [c])) = .ok s ∧
      s.outline.blocks.map outcome = c.members.map (Member.outcome c.name.text) ∧
      s.outline.blocks[k]? = some b ∧ b.body = some (lo, hi) ∧ (source layout [c])[hi]? = some '}' ∧
      Source.of? limit (String.ofList ((source layout [c]).eraseIdx hi)) = .ok t ∧
      ((∃ m ∈ c.members.drop (k + 1), m.role.isNested) → t.outline.blocks.map outcome =
        (s.outline.blocks.map outcome).set k (b.kind, b.name, [], some "unbalanced braces")) ∧
      ((∀ m ∈ c.members.drop (k + 1), m.role.isNested = false) →
        t.outline.blocks.map heading = (s.outline.blocks.map heading).take (k + 1)) := by
  obtain ⟨before, m, after, hmembers, rfl⟩ : ∃ before m after,
      c.members = before ++ m :: after ∧ before.length = k := by
    refine ⟨c.members.take k, c.members[k], c.members.drop (k + 1), ?_, by simp; omega⟩
    rw [← List.drop_eq_getElem_cons hk, List.take_append_drop]
  have hdrop : c.members.drop (before.length + 1) = after := by
    rw [hmembers, ← List.drop_drop, List.drop_left, List.drop_one, List.tail_cons]
  obtain ⟨b, lo, hb, hbody, hm, hall⟩ := exists_blocks_source layout hshort hmembers
  have htext := source_eq_upToBrace layout hmembers
  have herase := eraseIdx_source layout hmembers
  have hless : ((c.tornChars layout before m after).length : Int) ≤ limit := by
    have hle := List.length_eraseIdx_le (source layout [c]) (c.upToBrace layout before m).length
    rw [herase] at hle
    omega
  have hkind : b.kind = m.kindIn c.name.text := congrArg Prod.fst hm
  have hname : b.name = m.role.name := congrArg (·.2.1) hm
  refine ⟨Source.ofChars (source layout [c]), Source.ofChars (c.tornChars layout before m after), b,
    lo, (c.upToBrace layout before m).length, Source.of?_ofList hlimit, ?_, ?_, hbody, ?_, ?_, ?_,
    ?_⟩
  · rw [Source.outline, (stable_source _ _).toList_text, hall]
  · rw [Source.outline, (stable_source _ _).toList_text, hb]
  · rw [htext, List.getElem?_append_right (Nat.le_refl _), Nat.sub_self, List.getElem?_cons_zero]
  · rw [herase, Source.of?_ofList hless]
  · rw [hdrop, Source.outline, Source.outline, (stable_tornChars layout).toList_text,
      (stable_source _ _).toList_text, hall]
    intro hnested
    rw [outcome_tornChars layout hshort hnested, hkind, hname, hmembers]
    simp
  · rw [hdrop, Source.outline, Source.outline, (stable_tornChars layout).toList_text,
      (stable_source _ _).toList_text, heading_of_outcome hall]
    intro hnested
    rw [heading_tornChars layout hshort hnested, hmembers]
    simp [List.take_append, List.take_of_length_le]

open Written in
theorem Source.outline_torn_vault :
    0 < vault.members.length ∧ vault.heritage.length < headerLimit ∧
      ((source spaced [vault]).length : Int) ≤ 200000 ∧
      ∃ t hi, (source spaced [vault])[hi]? = some '}' ∧
        Source.of? 200000 (String.ofList ((source spaced [vault]).eraseIdx hi)) = .ok t ∧
        t.outline.blocks.map outcome = [(.function, "put", [], some "unbalanced braces"),
          (.modifier, "only", ["require(msg.sender == owner)", "_"], none),
          (.receive, "receive", [], none)] := by
  have hmember : 0 < vault.members.length := by decide
  have hshort : vault.heritage.length < headerLimit := by decide
  have hlimit : ((source spaced [vault]).length : Int) ≤ 200000 := by decide +kernel
  have hnested : ∃ m ∈ vault.members.drop 1, m.role.isNested := by decide
  obtain ⟨s, t, b, lo, hi, -, hall, hb, -, hbrace, ht, htorn, -⟩ :=
    Source.outline_torn spaced vault 0 200000 hmember hshort hlimit
  refine ⟨hmember, hshort, hlimit, t, hi, hbrace, ht, ?_⟩
  have hwhole : vault.members.map (Member.outcome vault.name.text) =
      [(.function, "put",
          ["m[a] = f(b, (1 + 2))", "(bool ok, ) = msg.sender.call\x7bvalue: a\x7d(\"\")"], none),
        (.modifier, "only", ["require(msg.sender == owner)", "_"], none),
        (.receive, "receive", [], none)] := by
    decide
  have hfirst : (s.outline.blocks.map outcome)[0]? = some (outcome b) := by
    rw [List.getElem?_map, hb, Option.map_some]
  rw [hall, hwhole, List.getElem?_cons_zero, Option.some_inj] at hfirst
  have hkind : BlockKind.function = b.kind := congrArg Prod.fst hfirst
  have hname : "put" = b.name := congrArg (·.2.1) hfirst
  rw [htorn hnested, hall, hwhole, ← hkind, ← hname, List.set_cons_zero]

namespace Written

/-- A contract with a function, and a receive function behind it. -/
def wallet : Contract where
  kind := .contract
  name := name "Wallet"
  bases := []
  stateVars := []
  members := [
    { role := .function (name "f")
      params := []
      visibility := some .everyone
      mutability := []
      modifiers := []
      nodup := List.nodup_nil
      body := [.simple "x = 1".toList (by decide)]
      short := by decide },
    receiving [.simple "y = 2".toList (by decide)]]

end Written

open Written in
/-- Without the brace that closes the function, the receive function is lost, and the function is
read without a fault. -/
theorem Source.outline_torn_wallet :
    (Source.ofChars (source spaced [wallet])).outline.blocks.map (fun b => (b.name, b.body)) =
        [("f", some (39, 47)), ("receive", some (77, 85))] ∧
      (source spaced [wallet])[47]? = some '}' ∧
      (Source.ofChars ((source spaced [wallet]).eraseIdx 47)).outline.blocks.map outcome =
        [(.function, "f", ["x = 1", "receive() external payable", "y = 2"], none)] := by
  decide +kernel

end ContractAudit
