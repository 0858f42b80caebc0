import ContractAudit.Proofs.Written.Pass

/-!
# The outline of written contracts

Writing contracts down and taking the outline of the text gives them back : `outlineOf` is the
outline that the author expects, with the offsets that follow from the lengths of the texts, and it
is the one that is found (`outline_source`). As the neutral text of a written source is the source
itself, this is so for a source that is read, too (`Source.outline_written`).
-/

namespace ContractAudit

variable {cs : List Char}

namespace Written

open Pattern Cursor

variable {env : Surroundings} (length : Nat) {front rest : List Char}

/-! ## The expected outline -/

/-- The contract as an outline has it, at the given offset. -/
def Contract.record (layout : Layout) (start : Nat) (c : Contract) : ContractAudit.Contract :=
  { name := c.name.text
    kind := c.kind
    start := start
    stop := start + (c.chars layout).length
    bases := c.bases.map Name.text
    stateVars := c.stateVars.map Variable.record
    unparsable := false }

/-- The members of a contract from the given offset on, as an outline has them. -/
def blocks (layout : Layout) (types : List String) (k : ContractAudit.Contract) :
    Nat → List Member → List Block
  | _, [] => []
  | start, m :: ms =>
    m.block layout types k (start + layout.member.length) ::
      blocks layout types k (start + (layout.member ++ m.chars layout).length) ms

/-- The first members of a contract that starts at the given offset. -/
def Contract.blocksUpTo (layout : Layout) (types : List String) (k : ContractAudit.Contract)
    (start : Nat) (ms : List Member) (c : Contract) : List Block :=
  Written.blocks layout types k
    (start + c.head.length + 1 + (variablesChars layout c.stateVars).length) ms

/-- The members of a contract at the given offset, as an outline has them. -/
def Contract.blocks (layout : Layout) (types : List String) (start : Nat) (c : Contract) :
    List Block :=
  c.blocksUpTo layout types (c.record layout start) start c.members

/-- Contracts from the given offset on, as an outline has them. -/
def outlineOf (layout : Layout) (types : List String) : Nat → List Contract → Outline
  | _, [] => ⟨[], []⟩
  | start, c :: cs =>
    let later := outlineOf layout types (start + (c.chars layout ++ layout.apart).length) cs
    ⟨c.record layout start :: later.contracts, c.blocks layout types start ++ later.blocks⟩

/-! ## Members and contracts one by one -/

variable {k : ContractAudit.Contract}

theorem finish_members (layout : Layout) {ks : List ContractAudit.Contract} :
    ∀ (ms : List Member) (front : List Char) (d : Draft), front.getLast?.any isWordChar = false →
      env.OfText (front ++ (membersChars layout ms ++ rest)) → d.around = k :: ks →
      front.length + (membersChars layout ms).length ≤ k.stop →
        d.finish env length (between front (membersChars layout ms ++ rest)) =
          { d with
            blocks := (blocks layout env.valueTypes k front.length ms).reverse ++
              d.blocks }.finish env length (between (front ++ membersChars layout ms) rest)
  | [], front, d, _, _, _, _ => by simp [membersChars, blocks]
  | m :: ms, front, d, hfront, henv, haround, hk => by
    have hcons : membersChars layout (m :: ms) =
        layout.member ++ (m.chars layout ++ membersChars layout ms) := by
      simp [membersChars]
    rw [hcons] at henv hk ⊢
    have hlen : front.length + layout.member.length + (m.chars layout).length +
        (membersChars layout ms).length ≤ k.stop := by
      simp only [List.length_append] at hk
      omega
    have hpos : 0 < (m.chars layout).length := by
      simp only [Member.chars, List.length_append, List.length_cons]
      omega
    have hgap := settled_of_blanks layout.isBlank_member front hfront
    have hquiet :=
      Draft.finish_quiet length (by simpa using henv) (quiet_of_blanks layout.isBlank_member) d
    have hstep := finish_member length m layout hgap (by simpa using henv) haround
      (by rw [List.length_append]; omega)
    have hlater := finish_members layout ms (front ++ (layout.member ++ m.chars layout))
      { d with
        blocks := m.block layout env.valueTypes k (front ++ layout.member).length :: d.blocks }
      (by rw [← List.append_assoc]; exact settled_braced m.head (m.inside layout) _ hgap)
      (by simpa using henv) haround
      (by simp only [List.length_append]; omega)
    simp only [List.append_assoc] at hquiet hstep hlater ⊢
    rw [hquiet, hstep, hlater, blocks]
    simp

/-- The text of a contract up to the end of its first members. -/
def Contract.upTo (layout : Layout) (ms : List Member) (c : Contract) : List Char :=
  c.head ++ '{' :: (variablesChars layout c.stateVars ++ membersChars layout ms)

/-- The pass enters a contract and adds its first members, wherever it ends. -/
theorem finish_upTo (c : Contract) (layout : Layout) (ms : List Member) (k : ContractAudit.Contract)
    (hshort : c.heritage.length < headerLimit) (hfront : front.getLast?.any isWordChar = false)
    (henv : env.OfText (front ++ (c.upTo layout ms ++ rest)))
    (hk : k = c.opened env length front
      (variablesChars layout c.stateVars ++ (membersChars layout ms ++ rest)))
    (hstop : (front ++ c.upTo layout ms).length ≤ k.stop) (d : Draft) :
    d.finish env length (between front (c.upTo layout ms ++ rest)) =
      { d.enter k with
        blocks := (c.blocksUpTo layout env.valueTypes k front.length ms).reverse ++
          d.blocks }.finish
          env length (between (front ++ c.upTo layout ms) rest) := by
  obtain ⟨vars, hvars⟩ : ∃ vars, vars = variablesChars layout c.stateVars := ⟨_, rfl⟩
  obtain ⟨members, hmembers⟩ : ∃ members, members = membersChars layout ms := ⟨_, rfl⟩
  obtain ⟨inner, hinner⟩ : ∃ inner, inner = front ++ c.head ++ ['{'] := ⟨_, rfl⟩
  have htext : c.upTo layout ms ++ rest = c.head ++ '{' :: (vars ++ (members ++ rest)) := by
    simp [Contract.upTo, hvars, hmembers]
  have hwhole : front ++ c.upTo layout ms = inner ++ vars ++ members := by
    simp [Contract.upTo, hvars, hmembers, hinner]
  have henv' : env.OfText (inner ++ (vars ++ (members ++ rest))) := by
    rw [htext] at henv
    simpa [hinner] using henv
  have hlast : inner.getLast?.any isWordChar = false := by
    rw [hinner, List.getLast?_concat]
    rfl
  have hstart : (inner ++ vars).length = front.length + c.head.length + 1 + vars.length := by
    simp only [hinner, List.length_append, List.length_singleton]
  rw [hwhole, List.length_append] at hstop
  rw [← hvars, ← hmembers] at hk
  calc d.finish env length (between front (c.upTo layout ms ++ rest))
    _ = (d.enter k).finish env length (between inner (vars ++ (members ++ rest))) := by
        rw [htext, finish_contract length c hshort hfront (htext ▸ henv) d, ← hk, hinner]
    _ = (d.enter k).finish env length (between (inner ++ vars) (members ++ rest)) :=
        Draft.finish_quiet length henv' (hvars ▸ quiet_variables layout c.stateVars) _
    _ = { d.enter k with
          blocks := (c.blocksUpTo layout env.valueTypes k front.length ms).reverse ++
            d.blocks }.finish
            env length (between (inner ++ vars ++ members) rest) := by
        rw [hmembers] at henv' hstop ⊢
        rw [finish_members length layout ms (inner ++ vars) (d.enter k)
          (hvars ▸ settled_variables layout c.stateVars inner hlast)
            (by simpa using henv') rfl hstop,
          hstart, Contract.blocksUpTo, ← hvars]
        rfl
    _ = _ := by rw [hwhole]

/-- The braces of a written contract are closed where it ends. -/
theorem Contract.opened_eq_record (c : Contract) (layout : Layout)
    (henv : env.OfText (front ++ (c.chars layout ++ rest))) :
    c.opened env length front (c.inside layout ++ '}' :: rest) = c.record layout front.length := by
  have htext : front ++ (c.chars layout ++ rest) =
      front ++ c.head ++ '{' :: (c.inside layout ++ '}' :: rest) := by
    simp [chars]
  have hclose : env.braces.close? (front ++ c.head).length =
      some ((front ++ c.head).length + 1 + (c.inside layout).length) := by
    rw [henv.braces_eq, htext]
    exact Pairs.close?_of_level (by decide) (c.level_inside layout)
  have hvars :
      stateVariables env.braces
        (between (front ++ c.head ++ ['{']) (c.inside layout ++ '}' :: rest))
      ((front ++ c.head).length + 1 + (c.inside layout).length) =
        c.stateVars.map Variable.record := by
    have hlen : (front ++ c.head).length + 1 = (front ++ c.head ++ ['{']).length := by simp; omega
    rw [hlen]
    exact c.stateVariables_inside layout (by rw [henv.braces_eq, htext]; simp)
  simp only [opened, hclose, Option.getD_some, hvars]
  simp only [record, chars, List.length_append, List.length_cons, List.length_nil]
  congr 1
  omega

/-- The pass goes over a whole contract. -/
theorem finish_whole (c : Contract) (layout : Layout) (hshort : c.heritage.length < headerLimit)
    (hfront : front.getLast?.any isWordChar = false)
    (henv : env.OfText (front ++ (c.chars layout ++ rest))) (d : Draft) :
    d.finish env length (between front (c.chars layout ++ rest)) =
      { d.enter (c.record layout front.length) with
        blocks := (c.blocks layout env.valueTypes front.length).reverse ++ d.blocks }.finish env
    length (between (front ++ c.chars layout) rest) := by
  obtain ⟨text, htext⟩ : ∃ text, text = c.upTo layout c.members := ⟨_, rfl⟩
  have hchars : c.chars layout = text ++ (layout.foot ++ ['}']) := by
    simp [htext, Contract.upTo, Contract.chars, Contract.inside]
  have hopened : c.record layout front.length = c.opened env length front
      (variablesChars layout c.stateVars ++
        (membersChars layout c.members ++ (layout.foot ++ ['}'] ++ rest))) := by
    rw [← c.opened_eq_record length layout henv]
    simp [Contract.inside]
  have hstop : (front ++ text).length ≤ (c.record layout front.length).stop := by
    simp only [Contract.record, hchars, List.length_append]
    omega
  have hfoot : Quiet (layout.foot ++ ['}']) :=
    additive_quiet.append (quiet_of_blanks layout.isBlank_foot) (quiet_mark (by decide) (by decide))
  rw [hchars, List.append_assoc] at henv ⊢
  rw [htext] at henv hstop ⊢
  rw [finish_upTo length c layout c.members _ hshort hfront henv hopened hstop d,
    Draft.finish_quiet length (by simpa using henv) hfoot, List.append_assoc]
  rfl

/-- The pass goes over contracts one behind the other. -/
theorem finish_source (layout : Layout) : ∀ (cs : List Contract) (front : List Char) (d : Draft),
    (∀ c ∈ cs, c.heritage.length < headerLimit) → front.getLast?.any isWordChar = false →
      env.OfText (front ++ source layout cs) →
        ∃ around, d.finish env length (between front (source layout cs)) =
          ⟨(outlineOf layout env.valueTypes front.length cs).contracts.reverse ++ d.contracts,
            around, (outlineOf layout env.valueTypes front.length cs).blocks.reverse ++ d.blocks⟩
  | [], front, d, _, _, _ => ⟨d.around, by simp [outlineOf, source, Draft.finish_nil]⟩
  | c :: cs, front, d, hshort, hfront, henv => by
    have hcons : source layout (c :: cs) =
        c.chars layout ++ (layout.apart ++ source layout cs) := by
      simp [source]
    obtain ⟨hc, hcs⟩ := List.forall_mem_cons.1 hshort
    rw [hcons] at henv ⊢
    obtain ⟨d', hd'⟩ : ∃ d', d' = { d.enter (c.record layout front.length) with
      blocks := (c.blocks layout env.valueTypes front.length).reverse ++ d.blocks } := ⟨_, rfl⟩
    have hwhole := finish_whole length c layout hc hfront henv d
    have henv' : env.OfText (front ++ c.chars layout ++ (layout.apart ++ source layout cs)) := by
      simpa using henv
    have hapart := Draft.finish_quiet length henv' (quiet_of_blanks layout.isBlank_apart) d'
    have hlast := settled_braced c.head (c.inside layout) front hfront
    obtain ⟨around, hlater⟩ :=
      finish_source layout cs (front ++ c.chars layout ++ layout.apart) d' hcs
      (settled_of_blanks layout.isBlank_apart _ hlast) (by simpa using henv)
    refine ⟨around, ?_⟩
    rw [hwhole, ← hd', hapart, hlater, hd']
    simp [outlineOf, Draft.enter]

/-- The outline of written contracts is the expected one. -/
theorem outline_source (layout : Layout) (cs : List Contract)
    (hshort : ∀ c ∈ cs, c.heritage.length < headerLimit) :
    Outline.of (source layout cs) =
      outlineOf layout (ContractAudit.valueTypes (source layout cs)) 0 cs := by
  obtain ⟨env, henv, htypes, houtline⟩ := Draft.exists_outline_eq (source layout cs)
  obtain ⟨around, hfinish⟩ :=
    finish_source (source layout cs).length layout cs [] ⟨[], [], []⟩ hshort rfl henv
  rw [houtline, hfinish, ← htypes]
  simp [Draft.outline]

/-! ## Reading a written source -/

theorem stable_of_isHeaderChar (h : ∀ a ∈ cs, isHeaderChar a) : Stable cs :=
  stable_of_forall fun a ha => isSober_of_isHeaderChar (h a ha)

theorem stable_of_isBlank (h : ∀ a ∈ cs, isBlank a) : Stable cs :=
  stable_of_isHeaderChar fun a ha => isHeaderChar_of_isBlank (h a ha)

theorem stable_mark {a : Char} (ha : isSober a) : Stable [a] :=
  stable_of_forall (by simpa using ha)

theorem Member.stable_inside (m : Member) (layout : Layout) : Stable (m.inside layout) := by
  have hadd := additive_stable
  exact hadd.append (hadd.flatMap fun s _ =>
    hadd.append (stable_of_isBlank layout.isBlank_statement)
    s.stable_chars) (stable_of_isBlank layout.isBlank_member)

theorem Member.stable_chars (m : Member) (layout : Layout) : Stable (m.chars layout) := by
  have hadd := additive_stable
  exact hadd.append (stable_of_isHeaderChar m.isHeaderChar_of_mem_head) (hadd.append
    (stable_mark (by decide)) (hadd.append (m.stable_inside layout) (stable_mark (by decide))))

theorem stable_members (layout : Layout) (ms : List Member) : Stable (membersChars layout ms) :=
  additive_stable.flatMap fun m _ =>
    additive_stable.append (stable_of_isBlank layout.isBlank_member) (m.stable_chars layout)

theorem Contract.isHeaderChar_of_mem_head (c : Contract) : ∀ a ∈ c.head, isHeaderChar a := by
  simp only [head, List.forall_mem_append, List.forall_mem_cons]
  refine ⟨?_, by decide, c.name.isHeaderChar_of_mem, c.isHeaderChar_of_mem_heritage⟩
  cases c.kind <;> decide

theorem Contract.stable_upTo (c : Contract) (layout : Layout) (ms : List Member) :
    Stable (c.upTo layout ms) := by
  have hadd := additive_stable
  have hvars : Stable (variablesChars layout c.stateVars) := hadd.flatMap fun v _ =>
    hadd.append (stable_of_isBlank layout.isBlank_member)
      (hadd.append (stable_of_isHeaderChar v.isHeaderChar_of_mem) (stable_mark (by decide)))
  exact hadd.append (stable_of_isHeaderChar c.isHeaderChar_of_mem_head)
    (hadd.append (stable_mark (by decide)) (hadd.append hvars (stable_members layout ms)))

/-- Nothing of a text that is stable is blanked out. -/
theorem Stable.toList_text (h : Stable cs) : (Source.ofChars cs).text.toList = cs := by
  have hneutral := h []
  rw [List.append_nil] at hneutral
  rw [Source.toList_text_ofChars, hneutral]
  simp [neutralChars]

theorem stable_source (layout : Layout) (cs : List Contract) : Stable (source layout cs) := by
  have hadd := additive_stable
  have hbrace : Stable ['}'] := stable_mark (by decide)
  refine hadd.flatMap fun c _ => ?_
  have hchars : c.chars layout ++ layout.apart =
      c.upTo layout c.members ++ (layout.foot ++ (['}'] ++ layout.apart)) := by
    simp [Contract.chars, Contract.inside, Contract.upTo]
  rw [hchars]
  exact hadd.append (c.stable_upTo layout c.members)
    (hadd.append (stable_of_isBlank layout.isBlank_foot)
    (hadd.append hbrace (stable_of_isBlank layout.isBlank_apart)))

/-! ## What comes back -/

variable {c : Contract}

/-- A member keeps its kind if it is no function with the name of the contract. -/
theorem asMember_header {m : Member} (hk : k.name = c.name.text) (h : m.role ≠ .function c.name) :
    Draft.asMember (some k) m.header = m.header := by
  have hne : (m.header.kind == .function && m.header.name == k.name) = false := by
    cases hrole : m.role with
    | function n =>
      have hname : n.text ≠ c.name.text := fun heq => h (by rw [hrole, Name.text_injective heq])
      simpa [Member.header, Role.kind, Role.name, Role.name?, hrole, hk] using hname
    | _ => simp [Member.header, Role.kind, hrole]
  rw [Draft.asMember, hne, if_neg Bool.false_ne_true]

theorem text_records (layout : Layout) : ∀ (ss : List Statement) (scope : Scope) (start : Nat),
    (records layout scope start ss).map (·.text) = ss.map fun s => String.ofList s.chars
  | [], _, _ => rfl
  | s :: ss, scope, start => by
    rw [records, List.map_cons, text_records layout ss, List.map_cons]
    rfl

/-- What is read of a member : its header, the contract around it, its statements and its fault. -/
def view (b : Block) : Header × Option ContractAudit.Contract × List String × Option Fault :=
  (b.toHeader, b.contract, b.statements.map (·.text), b.fault)

/-- What should be read of a written member of the given contract. -/
def Member.view (k : ContractAudit.Contract) (m : Member) :
    Header × Option ContractAudit.Contract × List String × Option Fault :=
  (m.header, some k, m.body.map fun s => String.ofList s.chars, none)

theorem view_blocks (layout : Layout) (types : List String) (hk : k.name = c.name.text) :
    ∀ (ms : List Member) (start : Nat),
      (∀ m ∈ ms, m.role ≠ .function c.name) →
        (blocks layout types k start ms).map view = ms.map (Member.view k)
  | [], _, _ => rfl
  | m :: ms, start, hnames => by
    obtain ⟨hm, hms⟩ := List.forall_mem_cons.1 hnames
    rw [blocks, List.map_cons, view_blocks layout types hk ms _ hms, List.map_cons]
    simp [view, Member.view, Member.block, Member.parsed, asMember_header hk hm, text_records]

theorem view_outlineOf (layout : Layout) (types : List String) :
    ∀ (cs : List Contract) (start : Nat), (∀ c ∈ cs, ∀ m ∈ c.members, m.role ≠ .function c.name) →
      (outlineOf layout types start cs).blocks.map view =
        ((outlineOf layout types start cs).contracts.zip cs).flatMap fun (k, c) =>
          c.members.map (Member.view k)
  | [], _, _ => rfl
  | c :: cs, start, hnames => by
    obtain ⟨hc, hcs⟩ := List.forall_mem_cons.1 hnames
    have hblocks : (c.blocks layout types start).map view =
        c.members.map (Member.view (c.record layout start)) :=
          view_blocks layout types rfl c.members _ hc
    simp only [outlineOf, List.map_append, List.zip_cons_cons, List.flatMap_cons, hblocks,
      view_outlineOf layout types cs _ hcs]

theorem contracts_outlineOf (layout : Layout) (types : List String) :
    ∀ (cs : List Contract) (start : Nat), (outlineOf layout types start cs).contracts.map
        (fun k => (k.name, k.kind, k.bases, k.stateVars, k.unparsable)) =
      cs.map fun c =>
        (c.name.text, c.kind, c.bases.map Name.text, c.stateVars.map Variable.record, false)
  | [], _ => rfl
  | c :: cs, start => by
    simp only [outlineOf, List.map_cons, contracts_outlineOf layout types cs]
    rfl

/-- A contract with a base whose name is too long is not found. -/
theorem outline_long (layout : Layout) {n : Name} (hbases : c.bases = [n])
    (hmembers : c.members = []) (hlong : headerLimit ≤ n.chars.length) :
    Outline.of (source layout [c]) = ⟨[], []⟩ := by
  obtain ⟨text, htext⟩ : ∃ text, text = source layout [c] := ⟨_, rfl⟩
  obtain ⟨env, henv, -, houtline⟩ := Draft.exists_outline_eq text
  obtain ⟨vars, hvars⟩ : ∃ vars, vars = variablesChars layout c.stateVars := ⟨_, rfl⟩
  obtain ⟨named, hnamed⟩ : ∃ named, named = c.kind.label.toList ++ ' ' :: c.name.chars := ⟨_, rfl⟩
  have hsource : text = c.head ++ '{' :: (vars ++ (layout.foot ++ (['}'] ++ layout.apart))) := by
    simp [htext, hvars, source, Contract.chars, Contract.inside, hmembers, membersChars]
  have hheritage : c.heritage = " is ".toList ++ n.chars ++ [' '] := by
    simp [Contract.heritage, hbases]
  have hlacks : Lacks declarationWords c.heritage := by
    have his : " is ".toList ++ n.chars = [' ', 'i', 's'] ++ ' ' :: n.chars := by simp
    rw [hheritage, his, lacks_append_cons (by decide), lacks_append_cons (by decide)]
    exact ⟨⟨by decide, n.undeclaring⟩, by decide +kernel⟩
  have hquiet :
      Quiet (c.heritage ++ ['{'] ++ (vars ++ (layout.foot ++ (['}'] ++ layout.apart)))) := by
    have hadd := additive_quiet
    refine hadd.append (hlacks.quiet (by decide) (by decide)) (hadd.append ?_ (hadd.append ?_
      (hadd.append (quiet_mark (by decide) (by decide)) (quiet_of_blanks layout.isBlank_apart))))
    · exact hvars ▸ quiet_variables layout c.stateVars
    · exact quiet_of_blanks layout.isBlank_foot
  have hof :
      env.OfText ([] ++ (c.head ++ '{' :: (vars ++ (layout.foot ++ (['}'] ++ layout.apart))))) := by
    rwa [List.nil_append, ← hsource]
  have hrest : env.OfText (named ++ (c.heritage ++ ['{'] ++
      (vars ++ (layout.foot ++ (['}'] ++ layout.apart))) ++ [])) := by
    simpa [hnamed, Contract.head] using hof
  have hname : c.heritage.length = n.chars.length + 5 := by simp [hheritage]
  have hskip := finish_long text.length c (by omega) rfl hof ⟨[], [], []⟩
  have hend := Draft.finish_quiet text.length hrest hquiet ⟨[], [], []⟩
  rw [← hsource, ← hnamed] at hskip
  rw [← htext, houtline, hskip]
  simp only [List.append_nil, List.append_assoc, List.nil_append, List.cons_append] at hend ⊢
  rw [hend, Draft.finish_nil]
  rfl

end Written

theorem Source.of?_ofList {limit : Int} (h : (cs.length : Int) ≤ limit) :
    Source.of? limit (String.ofList cs) = .ok (Source.ofChars cs) := by
  simp only [Source.of?, String.toList_ofList, if_neg (Int.not_lt.2 h)]
  rfl

open Written in
/-- Writing contracts down and taking the outline gives them back : each contract with its name,
kind, bases and state variables, and one parsed member for each one written, in order, with its
header, its contract and its statements. -/
theorem Source.outline_written (layout : Layout) (cs : List Written.Contract) (limit : Int)
    (hshort : ∀ c ∈ cs, c.heritage.length < headerLimit)
    (hnames : ∀ c ∈ cs, ∀ m ∈ c.members, m.role ≠ .function c.name)
    (hlimit : ((source layout cs).length : Int) ≤ limit) :
    ∃ s, Source.of? limit (String.ofList (source layout cs)) = .ok s ∧
      s.outline.contracts.map (fun k => (k.name, k.kind, k.bases, k.stateVars, k.unparsable)) =
        cs.map (fun c =>
          (c.name.text, c.kind, c.bases.map Name.text, c.stateVars.map Variable.record, false)) ∧
      s.outline.blocks.map view =
        (s.outline.contracts.zip cs).flatMap fun (k, c) => c.members.map (Member.view k) := by
  refine ⟨_, Source.of?_ofList hlimit, ?_⟩
  rw [Source.outline, (stable_source _ _).toList_text, outline_source layout cs hshort]
  exact ⟨contracts_outlineOf layout _ cs 0, view_outlineOf layout _ cs 0 hnames⟩

namespace Written

/-- A name from its text. -/
def name (text : String) (h : isName text.toList := by decide) : Name :=
  ⟨text.toList, h⟩

/-- The name of the type of an address. -/
def address : Name :=
  name "address"

/-- The name of the type of an amount. -/
def uint256 : Name :=
  name "uint256"

/-- One space in front of everything, and a newline behind each contract. -/
def spaced : Layout :=
  ⟨['\n'], [' '], [' '], [' '], by decide⟩

/-- A receive function with the given body. -/
def receiving (body : List Statement) : Member where
  role := .receive
  params := []
  visibility := some .outside
  mutability := [.payable]
  modifiers := []
  nodup := List.nodup_nil
  body := body
  short := by decide

/-- A contract with two bases, two variables, a function, a modifier and a receive function. -/
def vault : Contract where
  kind := .abstractContract
  name := name "Vault"
  bases := [name "Owned", name "is"]
  stateVars := [
    ⟨.mapping (.plain address [] []) (.plain uint256 [] [⟨[], rfl⟩]), name "m", by decide⟩,
    ⟨.plain (name "Lib") [name "Token"] [], name "token", by decide⟩]
  members := [
    { role := .function (name "put")
      params := [⟨.plain uint256 [] [], none, name "a"⟩,
        ⟨.plain (name "bytes") [] [], some .memory, name "b"⟩]
      visibility := some .outside
      mutability := [.payable]
      modifiers := [name "only", name "locked"]
      nodup := by decide
      body := [.simple "m[a] = f(b, (1 + 2))".toList (by decide), .payment (name "a")]
      short := by decide },
    { role := .modifier (name "only")
      params := []
      visibility := none
      mutability := []
      modifiers := []
      nodup := List.nodup_nil
      body := [.simple "require(msg.sender == owner)".toList (by decide),
        .simple "_".toList (by decide)]
      short := by decide },
    receiving []]

/-- A library with a function that has the name of the contract before it. -/
def tools : Contract where
  kind := .library
  name := name "Tools"
  bases := []
  stateVars := []
  members := [
    { role := .function (name "Vault")
      params := []
      visibility := none
      mutability := [.pure]
      modifiers := []
      nodup := List.nodup_nil
      body := [.simple "return 1".toList (by decide)]
      short := by decide }]

theorem isName_replicate (n : Nat) : isName (List.replicate (n + 1) 'A') := by
  have hhead : ∀ w ∈ reservedWords, w.toList.head? ≠ some 'A' := by decide
  have hnot : String.ofList (List.replicate (n + 1) 'A') ∉ reservedWords := fun hmem =>
    hhead _ hmem (by rw [String.toList_ofList]; rfl)
  have hall : (List.replicate (n + 1) 'A').all isWordChar := by
    rw [List.all_eq_true]
    intro a ha
    rw [List.eq_of_mem_replicate ha]
    decide
  simp only [isName, hall, List.contains_eq_mem, hnot, decide_false]
  rfl

/-- A contract with a base whose name is longer than a header may be. -/
def longBase : Contract where
  kind := .contract
  name := name "C"
  bases := [⟨List.replicate (headerLimit + 1) 'A', isName_replicate headerLimit⟩]
  stateVars := []
  members := []

end Written

open Written in
theorem Source.outline_vault :
    (∀ c ∈ [vault, tools], c.heritage.length < headerLimit) ∧
      (∀ c ∈ [vault, tools], ∀ m ∈ c.members, m.role ≠ .function c.name) ∧
      ((source spaced [vault, tools]).length : Int) ≤ 200000 ∧
      ∃ s, Source.of? 200000 (String.ofList (source spaced [vault, tools])) = .ok s ∧
        s.outline.contracts.map (fun k => (k.name, k.kind, k.bases, k.stateVars, k.unparsable)) =
          [("Vault", .abstractContract, ["Owned", "is"],
            [⟨"m", "mapping(address => uint256[])"⟩, ⟨"token", "Lib.Token"⟩], false),
            ("Tools", .library, [], [], false)] ∧
        s.outline.blocks.map view =
          (s.outline.contracts.zip [vault, tools]).flatMap fun (k, c) =>
            c.members.map (Member.view k) := by
  have hshort : ∀ c ∈ [vault, tools], c.heritage.length < headerLimit := by decide
  have hnames : ∀ c ∈ [vault, tools], ∀ m ∈ c.members, m.role ≠ .function c.name := by decide
  have hlimit : ((source spaced [vault, tools]).length : Int) ≤ 200000 := by decide +kernel
  exact ⟨hshort, hnames, hlimit,
    Source.outline_written spaced [vault, tools] 200000 hshort hnames hlimit⟩

open Written in
/-- The base may be too long for the contract to be found. -/
theorem Source.outline_longBase :
    (∀ c ∈ [longBase], ∀ m ∈ c.members, m.role ≠ .function c.name) ∧
      ∃ s, Source.of? 200000 (String.ofList (source spaced [longBase])) = .ok s ∧
        s.outline.contracts = [] := by
  have hlimit : ((source spaced [longBase]).length : Int) ≤ 200000 := by decide +kernel
  refine ⟨by decide, _, Source.of?_ofList hlimit, ?_⟩
  rw [Source.outline, (stable_source _ _).toList_text, outline_long spaced rfl rfl (by simp)]

end ContractAudit
