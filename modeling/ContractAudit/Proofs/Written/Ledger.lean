import ContractAudit.Proofs.Rule.Reentrancy
import ContractAudit.Proofs.Written.Outline
import ContractAudit.Proofs.Written.Withdrawal

/-!
# Ledgers

A ledger is a contract with a mapping and one function, whose body pays out an amount and takes it
off the mapping later (`Ledger.body`). Where no other statement declares the name of the mapping,
the payment is a call that can be reentered, and the withdrawal writes to storage unless a statement
is misread as such a declaration (`Ledger.Hidden`, `Ledger.exists_call`). The length of the
signature decides whether the function is parsed at all (`Ledger.exists_blocks_eq`,
`Ledger.exists_bare`).
-/

namespace ContractAudit

open Pattern Cursor

namespace Written

/-! ## Scopes behind a part of a body -/

/-- The statements behind a part of a body are read in the scope behind that part. -/
theorem exists_records_append (layout : Layout) (later : List Statement) :
    ∀ (earlier : List Statement) (scope : Scope) (start : Nat), ∃ start',
      records layout scope start (earlier ++ later) = records layout scope start earlier ++
        records layout (scope.behind (earlier.map (·.chars))) start' later
  | [], _, start => ⟨start, rfl⟩
  | s :: earlier, scope, start => by
    obtain ⟨start', hrecords⟩ := exists_records_append layout later earlier (s.scopeBehind scope)
      (start + (layout.statement ++ (s.chars ++ [';'])).length)
    exact ⟨start', by rw [List.cons_append, records, hrecords, records, List.cons_append]; rfl⟩

/-- A name stands for storage behind statements unless one of them is taken for a declaration of a
local variable and none for a declaration that keeps the name in storage. -/
theorem isStorage_behind_iff {n : Name} {ss : List Statement} {scope : Scope}
    (hn : n.text ∉ Scope.reservedNames) (hlocal : n.text ∉ scope.locals)
    (hrefs : n.text ∉ scope.storageRefs) : (scope.behind (ss.map (·.chars))).isStorage n.text ↔
      ¬((∃ s ∈ ss, s.MakesLocal n) ∧ ∀ s ∈ ss, ¬s.MakesReference n) := by
  simp only [Scope.isStorage, Bool.and_eq_true, Bool.or_eq_true, Bool.not_eq_true',
    List.contains_eq_mem, decide_eq_true_iff, decide_eq_false_iff_not, mem_locals_behind,
    mem_storageRefs_behind, hn, hlocal, hrefs, false_or, not_false_eq_true, true_and]
  grind

/-! ## Payments and withdrawals as statements -/

section Statements

variable (m amount : Name) (scope : Scope) (start : Nat)

/-- A payment can be reentered. -/
theorem reenters_payment : ((Statement.payment amount).record scope start).reenters := by
  have hlow := lowLevelCall_occursIn_payment amount
  have hcall : (scope.record (Statement.payment amount).chars).isExternalCall
      (Statement.payment amount).chars := by
    rw [Scope.isExternalCall, hlow]
    rfl
  refine ContractAudit.Statement.reenters_of_lowLevelCall ?_ ?_
  · simpa [ContractAudit.Statement.isExternalCall, Statement.record] using
      Scope.kind_classify_of_isExternalCall (emitWord_starts_payment amount) hcall
  · simpa [ContractAudit.Statement.shows, ContractAudit.Statement.chars, Statement.record]
      using hlow

/-- The statement that takes the amount off the sender's entry. -/
def withdrawal : Statement :=
  .simple (withdrawalChars m amount) (simple_withdrawalChars m amount).isSimple

variable {m amount scope}

/-- A withdrawal writes to its mapping, where that stands for storage. -/
theorem target_withdrawal (hne : m ≠ amount) : ((withdrawal m amount).record scope start).target =
    if scope.isStorage m.text then some m.text else none := by
  have hnothing (stored : Bool) :
      ¬∃ d ∈ declarations (withdrawalChars m amount), d.isStored = stored ∧
        d.name = m.text := fun h => by
    obtain ⟨front, hfront, -⟩ := exists_mem_declarations_iff.1 h
    exact not_resembles_withdrawal hne front hfront
  have hstorage : (scope.record (withdrawalChars m amount)).isStorage m.text =
      scope.isStorage m.text := by
    simp only [Scope.isStorage, List.contains_eq_mem, Scope.record, Scope.mem_locals_foldl_declare,
      Scope.mem_storageRefs_foldl_declare, hnothing, or_false]
  exact (Scope.target_classify (emitWord_starts_withdrawal m amount)).trans
    ((writeTarget_withdrawal m amount _).trans (by rw [hstorage]))

end Statements

/-! ## Ledgers -/

/-- The names in a ledger. -/
structure Ledger where
  contract : Name
  balances : Name
  function : Name
  amount : Name
  /-- The function is no constructor. -/
  function_ne : function ≠ contract
  /-- The parameter of the function does not hide the mapping. -/
  balances_ne : balances ≠ amount
  /-- The flag of a payment does not hide the mapping. -/
  text_ne : balances.text ≠ "ok"
  /-- The mapping has a name that can stand for storage. -/
  text_not_mem : balances.text ∉ Scope.reservedNames

namespace Ledger

variable (l : Ledger) (layout : Layout) (ss : List Statement)

/-- A body that pays the amount and takes it off the mapping, with other statements in between. -/
def body (earlier mid later : List Statement) : List Statement :=
  earlier ++ .payment l.amount :: (mid ++ withdrawal l.balances l.amount :: later)

/-- The parameter that holds the amount. -/
def param : Param :=
  ⟨.plain uint256 [] [], none, l.amount⟩

/-- The contract around the function, without what is in it. -/
def shell : Contract :=
  ⟨.contract, l.contract, [], [], []⟩

/-- The declaration of the mapping, as it is written. -/
def mappingChars : List Char :=
  (TypeName.mapping (.plain address [] []) (.plain uint256 [] [])).chars ++ ' ' :: l.balances.chars

/-- The text between the brace of the contract and the function. -/
def gap : List Char :=
  layout.member ++ (l.mappingChars ++ [';'] ++ layout.member)

/-- The text in front of the function. -/
def front : List Char :=
  l.shell.head ++ '{' :: l.gap layout

/-- The text between the keyword of the function and its brace. -/
def signature : List Char :=
  Written.signature (.function l.function) [l.param] (attributes (some .outside) [] []) ++ [' ']

/-- The text of the function in front of its brace. -/
def head : List Char :=
  BlockKind.function.label.toList ++ l.signature

/-- The text behind the brace of a function with the given body. -/
def back : List Char :=
  bodyChars layout ss ++ (layout.member ++ (['}'] ++ (layout.foot ++ (['}'] ++ layout.apart))))

/-- The text of a ledger whose function has the given body. -/
def chars : List Char :=
  l.front layout ++ (l.head ++ '{' :: back layout ss)

/-- The function, if its signature is not too long. -/
def member (h : l.signature.length < headerLimit) : Member where
  role := .function l.function
  params := [l.param]
  visibility := some .outside
  mutability := []
  modifiers := []
  nodup := List.nodup_nil
  body := ss
  short := h

/-! ### The body -/

theorem length_records (scope : Scope) (start : Nat) :
    (records layout scope start ss).length = ss.length := by
  have htext := congrArg List.length (text_records layout ss scope start)
  rwa [List.length_map, List.length_map] at htext

/-- Statements around the payment hide the mapping if one of them is misread as a declaration of a
local variable of that name, and none is taken for a declaration that keeps the name in storage. -/
def Hidden (ss : List Statement) : Prop :=
  (∃ s ∈ ss, s.Misread l.balances) ∧ ∀ s ∈ ss, ¬s.MakesReference l.balances

section Body

variable {earlier mid : List Statement} {scope : Scope} (hlocal : l.balances.text ∉ scope.locals)
  (hrefs : l.balances.text ∉ scope.storageRefs)
  (hdeclares : ∀ s ∈ earlier ++ mid, ¬s.Declares l.balances)

include hlocal hrefs hdeclares

/-- The mapping stands for storage behind the payment, unless it is hidden. -/
theorem isStorage_iff_not_hidden :
    (scope.behind ((earlier ++ .payment l.amount :: mid).map (·.chars))).isStorage l.balances.text ↔
      ¬l.Hidden (earlier ++ mid) := by
  have hmisread : (∃ s ∈ earlier ++ mid, s.Misread l.balances) ↔
      ∃ s ∈ earlier ++ mid, s.MakesLocal l.balances :=
    exists_congr fun s => and_congr_right fun hs => and_iff_left (hdeclares s hs)
  have hnot : ¬(Statement.payment l.amount).MakesLocal l.balances :=
    fun ⟨_, front, h, _⟩ => not_resembles_payment l.amount l.text_ne front h
  have hnot' : ¬(Statement.payment l.amount).MakesReference l.balances :=
    fun ⟨_, front, h, _⟩ => not_resembles_payment l.amount l.text_ne front h
  rw [isStorage_behind_iff l.text_not_mem hlocal hrefs, Hidden, hmisread]
  simp only [List.mem_append, List.mem_cons, or_and_right, exists_or, exists_eq_left, or_imp,
    forall_and, forall_eq, hnot, hnot', not_false_eq_true, true_and, false_or]

/-- One of the statements up to the payment can be reentered, and the withdrawal writes to storage
unless the mapping is hidden. -/
theorem exists_call (later : List Statement) (start : Nat) (rs : List ContractAudit.Statement)
    (hrs : rs = records layout scope start (l.body earlier mid later)) :
    (∃ call, (rs.take (earlier.length + 1)).find? (·.reenters) = some call) ∧
      ∃ write, rs[earlier.length + 1 + mid.length]? = some write ∧
        (write.target.isSome ↔ ¬l.Hidden (earlier ++ mid)) := by
  constructor
  · obtain ⟨start', hsplit⟩ := exists_records_append layout
      (.payment l.amount :: (mid ++ withdrawal l.balances l.amount :: later)) earlier scope start
    have hpay := reenters_payment l.amount (scope.behind (earlier.map (·.chars)))
      (start' + layout.statement.length)
    refine Option.isSome_iff_exists.1 (List.find?_isSome.2 ⟨_, ?_, hpay⟩)
    rw [hrs, body, hsplit, records, ← length_records layout earlier scope start,
      List.take_length_add_append]
    simp
  · obtain ⟨start', hsplit⟩ :=
      exists_records_append layout (withdrawal l.balances l.amount :: later)
      (earlier ++ .payment l.amount :: mid) scope start
    have hbody : l.body earlier mid later =
        earlier ++ .payment l.amount :: mid ++ withdrawal l.balances l.amount :: later := by
      simp [body]
    have hindex : earlier.length + 1 + mid.length =
        (records layout scope start (earlier ++ .payment l.amount :: mid)).length := by
      rw [length_records, List.length_append, List.length_cons]
      omega
    have hwrite : rs[earlier.length + 1 + mid.length]? =
        some ((withdrawal l.balances l.amount).record
        (scope.behind ((earlier ++ .payment l.amount :: mid).map (·.chars)))
        (start' + layout.statement.length)) := by
      rw [hrs, hbody, hsplit, hindex, records, List.getElem?_append_right (Nat.le_refl _),
        Nat.sub_self]
      rfl
    refine ⟨_, hwrite, ?_⟩
    rw [target_withdrawal _ l.balances_ne, ← l.isStorage_iff_not_hidden hlocal hrefs hdeclares]
    split
    next h => exact iff_of_true rfl h
    next h => exact iff_of_false Bool.false_ne_true h

end Body

/-! ### The function -/

section Member

variable (types : List String) {k : ContractAudit.Contract} (hk : k.name = l.contract.text)
  (h : l.signature.length < headerLimit)

include hk

theorem asMember_member : Draft.asMember (some k) (l.member ss h).header = (l.member ss h).header :=
  have hrole : (l.member ss h).role ≠ .function l.shell.name := fun heq =>
    l.function_ne (Role.function.inj heq)
  asMember_header hk hrole

/-- The mapping is not declared where the function starts. -/
theorem not_mem_initial : l.balances.text ∉ ((l.member ss h).scope types k).locals ∧
    l.balances.text ∉ ((l.member ss h).scope types k).storageRefs := by
  have hparam (hmem : ∃ p ∈ (l.member ss h).header.params, p.name = some l.balances.text) :
      False := by
    obtain ⟨p, hp, hname⟩ := hmem
    rw [List.mem_singleton.1 hp] at hname
    exact l.balances_ne (Name.text_injective (Option.some.inj hname)).symm
  rw [Member.scope, l.asMember_member ss hk h]
  exact ⟨fun hmem => hparam (Scope.exists_param_of_mem_locals_initial hmem),
    fun hmem => hparam (Scope.exists_param_of_mem_storageRefs_initial hmem)⟩

/-- The function can be called from outside and has no guard. -/
theorem exposed_block (start : Nat) {b : Block}
    (hb : b = (l.member ss h).block layout types k start) : b.isExposed := by
  have hheader : b.toHeader = (l.member ss h).header := hb ▸ l.asMember_member ss hk h
  obtain ⟨header, start, stop, contract, body, statements, fault⟩ := b
  obtain rfl : header = _ := hheader
  have hparsed := congrArg (fun b : Block => b.isParsed) hb
  rw [Block.isExposed, Bool.and_eq_true, Bool.and_eq_true]
  exact ⟨⟨hparsed, rfl⟩, rfl⟩

end Member

/-! ### The text -/

/-- The text behind the name of the function. -/
def paramChars : List Char :=
  '(' :: ("uint256".toList ++ ' ' :: (l.amount.chars ++ ')' :: " external ".toList))

theorem signature_eq : l.signature = ' ' :: l.function.chars ++ l.paramChars := by
  simp [signature, Written.signature, Role.name?, param, Param.chars, Param.typeChars,
    TypeName.chars, uint256, name, attributes, Visibility.keyword, paramChars]

theorem isHeaderChar_of_mem_head : ∀ a ∈ l.head, isHeaderChar a := by
  rw [head, signature_eq, paramChars]
  simp only [List.forall_mem_append, List.forall_mem_cons]
  exact ⟨by decide, ⟨by decide, l.function.isHeaderChar_of_mem⟩, by decide, by decide +kernel,
    by decide, l.amount.isHeaderChar_of_mem, by decide, by decide⟩

theorem isHeaderChar_of_mem_mappingChars : ∀ a ∈ l.mappingChars, isHeaderChar a := by
  simp only [mappingChars, List.forall_mem_append, List.forall_mem_cons]
  exact ⟨TypeName.even_chars _ |>.chars, by decide, l.balances.isHeaderChar_of_mem⟩

theorem quiet_gap : Quiet (l.gap layout) := by
  have hadd := additive_quiet
  have hmapping : Lacks reservedWords l.mappingChars :=
    (lacks_append_cons (by decide)).2 ⟨TypeName.unreserved_chars _, l.balances.unreserved⟩
  exact hadd.append (quiet_of_blanks layout.isBlank_member) (hadd.append
    (hmapping.of_declarationWords.quiet (by decide) (by decide))
      (quiet_of_blanks layout.isBlank_member))

theorem settled_gap : Settled (l.gap layout) := by
  have hadd := additive_settled
  exact hadd.append (settled_of_blanks layout.isBlank_member) (hadd.append
    (settled_concat (by decide) _) (settled_of_blanks layout.isBlank_member))

theorem settled_front : (l.front layout).getLast?.any isWordChar = false := by
  have hlast := l.settled_gap layout (l.shell.head ++ ['{']) (by rw [List.getLast?_concat]; rfl)
  simpa [front] using hlast

theorem level_gap : level '{' '}' 0 (l.gap layout) = some 0 := by
  have hadd := additive_level '{' '}'
  have hblank := level_of_isBlank layout.isBlank_member
  exact hadd.append hblank (hadd.append (hadd.append
    (level_of_isHeaderChar l.isHeaderChar_of_mem_mappingChars) (by decide)) hblank)

theorem stable_back : Stable (back layout ss) := by
  have hadd := additive_stable
  have hbrace : Stable ['}'] := stable_mark (by decide)
  have hbody : Stable (bodyChars layout ss) := hadd.flatMap fun s _ =>
    hadd.append (stable_of_isBlank layout.isBlank_statement) s.stable_chars
  exact hadd.append hbody (hadd.append (stable_of_isBlank layout.isBlank_member) (hadd.append hbrace
    (hadd.append (stable_of_isBlank layout.isBlank_foot)
      (hadd.append hbrace (stable_of_isBlank layout.isBlank_apart)))))

theorem stable_chars : Stable (l.chars layout ss) := by
  have hadd := additive_stable
  have hmember := stable_of_isBlank layout.isBlank_member
  have hgap : Stable (l.gap layout) := hadd.append hmember (hadd.append (hadd.append
    (stable_of_isHeaderChar l.isHeaderChar_of_mem_mappingChars) (stable_mark (by decide))) hmember)
  have hfront : Stable (l.front layout) := hadd.append
    (stable_of_isHeaderChar l.shell.isHeaderChar_of_mem_head)
      (hadd.append (stable_mark (by decide)) hgap)
  have hbrace : Stable ['{'] := stable_mark (by decide)
  exact hadd.append hfront (hadd.append (stable_of_isHeaderChar l.isHeaderChar_of_mem_head)
    (hadd.append hbrace (stable_back layout ss)))

theorem quiet_back : Quiet (back layout ss) := by
  have hadd := additive_quiet
  have hbrace : Quiet ['}'] := quiet_mark (by decide) (by decide)
  exact hadd.append (quiet_bodyChars layout ss) (hadd.append (quiet_of_blanks layout.isBlank_member)
    (hadd.append hbrace (hadd.append (quiet_of_blanks layout.isBlank_foot)
      (hadd.append hbrace (quiet_of_blanks layout.isBlank_apart)))))

/-- No declaration follows in the header behind the keyword. -/
theorem quiet_signature : Quiet (l.signature ++ ['{']) := by
  have htext : l.signature ++ ['{'] =
      [] ++ ' ' :: (l.function.chars ++ '(' :: ("uint256".toList ++ ' ' :: (l.amount.chars ++ ')' ::
        " external ".toList))) ++ ['{'] := by
    simp [signature_eq, paramChars]
  rw [htext]
  refine Lacks.quiet ?_ (by decide) (by decide)
  rw [lacks_append_cons (by decide), lacks_append_cons (by decide), lacks_append_cons (by decide),
    lacks_append_cons (by decide)]
  exact ⟨by decide, l.function.undeclaring, by decide +kernel, l.amount.undeclaring,
    by decide⟩

/-! ### The pass -/

section Pass

variable {env : Surroundings} (length : Nat) {rest : List Char}

/-- The pass enters the contract and goes on at the function. -/
theorem finish_front (henv : env.OfText (l.front layout ++ rest)) (d : Draft) :
    d.finish env length (between [] (l.front layout ++ rest)) =
      (d.enter (l.shell.opened env length [] (l.gap layout ++ rest))).finish env length
        (between (l.front layout) rest) := by
  have htext : l.front layout ++ rest = [] ++ (l.shell.head ++ '{' :: (l.gap layout ++ rest)) := by
    simp [front]
  have hgap : l.front layout ++ rest = l.shell.head ++ ['{'] ++ (l.gap layout ++ rest) := by
    simp [front]
  have hheritage : l.shell.heritage.length < headerLimit := show 1 < headerLimit by decide
  have hfront : l.shell.head ++ ['{'] ++ l.gap layout = l.front layout := by
    simp [front]
  have hcontract := finish_contract length l.shell hheritage rfl (htext ▸ henv) d
  have hquiet := Draft.finish_quiet length (hgap ▸ henv) (l.quiet_gap layout)
    (d.enter (l.shell.opened env length [] (l.gap layout ++ rest)))
  rw [List.nil_append] at htext hcontract
  rw [htext, hcontract, hquiet, hfront]

/-- The contract is closed behind the function. -/
theorem length_front_lt_stop {inner : List Char} (hlevel : level '{' '}' 0 inner = some 0)
    (henv : env.OfText (l.front layout ++ (inner ++ '}' :: rest))) :
    (l.front layout).length <
      (l.shell.opened env length [] (l.gap layout ++ (inner ++ '}' :: rest))).stop := by
  have htext : l.front layout ++ (inner ++ '}' :: rest) =
      l.shell.head ++ '{' :: (l.gap layout ++ inner ++ '}' :: rest) := by
    simp [front]
  have hclose : env.braces.close? ([] ++ l.shell.head).length =
      some (l.shell.head.length + 1 + (l.gap layout ++ inner).length) := by
    rw [henv.braces_eq, htext]
    exact Pairs.close?_of_level (by decide)
      ((additive_level '{' '}').append (l.level_gap layout) hlevel)
  simp only [Contract.opened, hclose]
  simp only [front, List.length_append, List.length_cons]
  omega

/-- A function with a signature that is not too long is the only member. -/
theorem exists_blocks_eq (h : l.signature.length < headerLimit) :
    ∃ types k, k.name = l.contract.text ∧ (Outline.of (l.chars layout ss)).blocks =
      [(l.member ss h).block layout types k (l.front layout).length] := by
  obtain ⟨env, henv, -, houtline⟩ := Draft.exists_outline_eq (l.chars layout ss)
  obtain ⟨length, hlength⟩ : ∃ length, length = (l.chars layout ss).length := ⟨_, rfl⟩
  obtain ⟨m, hm⟩ : ∃ m, m = l.member ss h := ⟨_, rfl⟩
  obtain ⟨foot, hfoot⟩ : ∃ foot, foot = layout.foot ++ ['}'] ++ layout.apart := ⟨_, rfl⟩
  have htext : l.chars layout ss = l.front layout ++ (m.chars layout ++ foot) := by
    simp [chars, back, hm, hfoot, Member.chars, Member.head, Member.keyword, Member.signature,
      Member.inside, member, head, signature, Role.kind, Member.attributes]
  obtain ⟨k, hk⟩ : ∃ k,
    k = l.shell.opened env length [] (l.gap layout ++ (m.chars layout ++ foot)) :=
    ⟨_, rfl⟩
  have hstop : (l.front layout).length < k.stop := by
    have hclosed : m.chars layout ++ foot =
        m.chars layout ++ layout.foot ++ '}' :: layout.apart := by
      simp [hfoot]
    rw [hk, hclosed]
    refine l.length_front_lt_stop layout _ ?_ (hclosed ▸ htext ▸ henv)
    exact (additive_level '{' '}').append (m.level_braces layout)
      (level_of_isBlank layout.isBlank_foot)
  have hquiet : Quiet foot := by
    have hadd := additive_quiet
    rw [hfoot]
    exact hadd.append (hadd.append (quiet_of_blanks layout.isBlank_foot)
      (quiet_mark (by decide) (by decide))) (quiet_of_blanks layout.isBlank_apart)
  rw [← hlength, htext] at houtline
  rw [htext] at henv
  have hend : env.OfText (l.front layout ++ m.chars layout ++ (foot ++ [])) := by simpa using henv
  have hmember := finish_member length m layout (l.settled_front layout) henv
    (show (Draft.enter ⟨[], [], []⟩ k).around = k :: [] from rfl) hstop
  refine ⟨env.valueTypes, k, by rw [hk]; rfl, ?_⟩
  rw [htext, houtline, l.finish_front layout length henv, ← hk, hmember,
    ← List.append_nil foot, Draft.finish_quiet length hend hquiet, Draft.finish_nil, hm]
  rfl

/-- A function whose name is too long is the only member, and it is not parsed. -/
theorem exists_bare (h : headerLimit ≤ l.function.chars.length) :
    ∃ b, b.isParsed = false ∧ (Outline.of (l.chars layout ss)).blocks = [b] := by
  obtain ⟨env, henv, -, houtline⟩ := Draft.exists_outline_eq (l.chars layout ss)
  obtain ⟨length, hlength⟩ : ∃ length, length = (l.chars layout ss).length := ⟨_, rfl⟩
  obtain ⟨keyword, hkeyword⟩ : ∃ keyword, keyword = BlockKind.function.label.toList := ⟨_, rfl⟩
  obtain ⟨rest, hrest⟩ : ∃ rest, rest = ' ' :: l.function.chars ++
    (l.paramChars ++ '{' :: back layout ss) := ⟨_, rfl⟩
  have htext : l.chars layout ss = l.front layout ++ (keyword ++ rest) := by
    simp [chars, head, signature_eq, hkeyword, hrest]
  have hquiet : Quiet rest := by
    have hsplit : rest = l.signature ++ ['{'] ++ back layout ss := by
      simp [hrest, signature_eq]
    rw [hsplit]
    exact additive_quiet.append l.quiet_signature (quiet_back layout ss)
  rw [← hlength, htext] at houtline
  rw [htext] at henv
  obtain ⟨k, hk⟩ : ∃ k, k = l.shell.opened env length [] (l.gap layout ++ (keyword ++ rest)) :=
    ⟨_, rfl⟩
  obtain ⟨b, around, hb, hbare⟩ := finish_bare length l.function h (l.settled_front layout)
    (hrest ▸ hkeyword ▸ henv) (Draft.enter ⟨[], [], []⟩ k)
  rw [← hrest, ← hkeyword] at hbare
  have hend : env.OfText (l.front layout ++ keyword ++ (rest ++ [])) := by simpa using henv
  have hlast := Draft.finish_quiet length hend hquiet
    { Draft.enter ⟨[], [], []⟩ k with around := around, blocks := [b] }
  rw [List.append_nil, Draft.finish_nil] at hlast
  refine ⟨b, hb, ?_⟩
  rw [htext, houtline, l.finish_front layout length henv, ← hk, hbare]
  exact congrArg (fun d : Draft => d.blocks.reverse) hlast

end Pass

end Ledger

end Written

end ContractAudit
