import ContractAudit.Proofs.Contract.Outline
import ContractAudit.Proofs.Contract.Scope
import ContractAudit.Proofs.Text.Spelling

/-!
# Names in an outline

What an outline calls by a name consists of word characters, and of dots where a path is meant
(`Worded`) : contracts and their variables, members, parameters, modifiers, and the variables that
statements write. Each of these texts is a part of a match, of a pattern that keeps nothing else
there. So all members of an outline have such names (`Outline.named_of_mem`), whatever the source
holds.
-/

namespace ContractAudit

open Pattern

/-- The text consists of word characters and dots. -/
def Worded (s : String) : Prop :=
  ∀ a ∈ s.toList, isNameChar a

instance (s : String) : Decidable (Worded s) :=
  inferInstanceAs (Decidable (∀ a ∈ s.toList, isNameChar a))

theorem worded_ofList {cs : List Char} (h : ∀ a ∈ cs, isNameChar a) :
    Worded (String.ofList cs) := by
  rwa [Worded, String.toList_ofList]

theorem isNameChar_of_isWordChar {a : Char} (h : isWordChar a) : isNameChar a := by
  rw [isNameChar, h, Bool.true_or]

theorem isNameChar_of_isIdentStart {a : Char} (h : isIdentStart a) : isNameChar a :=
  isNameChar_of_isWordChar (isWordChar_of_isIdentStart h)

theorem spells_ident : ident.Spells isNameChar :=
  ⟨fun _ => isNameChar_of_isIdentStart, fun _ => isNameChar_of_isWordChar⟩

theorem spells_dotted : dotted.Spells isNameChar :=
  ⟨fun _ => isNameChar_of_isIdentStart, fun _ h => h⟩

/-! ## Declarations -/

theorem keeps_paramPattern : paramPattern.Keeps "name" isNameChar :=
  (((keeps_other (by decide) rfl).append_right rfl).append (spells_ident.keeps rfl)).append_right
    rfl

theorem worded_parseParam (part : List Char) : ∀ n ∈ (parseParam part).name, Worded n := by
  intro n hn
  unfold parseParam at hn
  dsimp only at hn
  split at hn
  next h hstart =>
    split at hn
    · cases hn
    · obtain rfl := Option.some.inj hn
      exact worded_ofList (keeps_paramPattern.part_of_startOf? hstart)
  next => cases hn

theorem keeps_localPattern : localPattern.Keeps "name" isNameChar :=
  (((((keeps_other (by decide) rfl).append_right rfl).append
    ((keeps_other (by decide) rfl).append_right rfl).maybe).append
    (spells_ident.keeps rfl)).append_right
      rfl).append_right rfl

theorem worded_localDeclaration? {stmt : List Char} {d : Declared}
    (h : localDeclaration? stmt = some d) : Worded d.name := by
  unfold localDeclaration? at h
  split at h
  next hit hstart =>
    split at h
    · cases h
    · obtain rfl := Option.some.inj h
      exact worded_ofList (keeps_localPattern.part_of_startOf? hstart)
  next => cases h

theorem keeps_variablePattern : variablePattern.Keeps "name" isNameChar :=
  ((((keeps_other (by decide) rfl).append_right rfl).append_right rfl).append
    (spells_ident.keeps rfl)).append_right rfl

theorem worded_stateVariable? {segment : List Char} {v : Variable}
    (h : stateVariable? segment = some v) : Worded v.name := by
  unfold stateVariable? at h
  dsimp only at h
  split at h
  · cases h
  · split at h
    next hit hstart =>
      split at h
      · cases h
      · obtain rfl := Option.some.inj h
        exact worded_ofList (keeps_variablePattern.part_of_startOf? hstart)
    next => cases h

/-- The variables found so far, and those found later, have names. -/
theorem worded_of_mem_stateVariablesFrom {braces : Pairs} {stop : Nat} :
    ∀ (fuel : Nat) {found : List Variable} (member c : Cursor), (∀ v ∈ found, Worded v.name) →
      ∀ v ∈ stateVariablesFrom braces stop found member fuel c, Worded v.name
  | 0, _, _, _, hfound => fun v hv => hfound v (List.mem_reverse.1 hv)
  | fuel + 1, found, member, c, hfound => by
    have hdone : ∀ v ∈ found.reverse, Worded v.name := fun v hv => hfound v (List.mem_reverse.1 hv)
    unfold stateVariablesFrom
    split
    · split
      · exact hdone
      · split
        · exact hdone
        · split
          · exact worded_of_mem_stateVariablesFrom fuel _ _ hfound
          · exact hdone
      · refine worded_of_mem_stateVariablesFrom fuel _ _ fun v hv => ?_
        split at hv
        next new hnew =>
          rcases List.mem_cons.1 hv with rfl | hv
          · exact worded_stateVariable? hnew
          · exact hfound v hv
        next => exact hfound v hv
      · exact worded_of_mem_stateVariablesFrom fuel _ _ hfound
      · exact worded_of_mem_stateVariablesFrom fuel _ _ hfound
    · exact hdone

/-! ## Headers -/

/-- The member, its parameters and its modifiers have names. -/
structure Header.Named (h : Header) : Prop where
  name : Worded h.name
  params : ∀ p ∈ h.params, ∀ n ∈ p.name, Worded n
  modifiers : ∀ m ∈ h.modifiers, Worded m

theorem BlockKind.worded_label (kind : BlockKind) : Worded kind.label := by
  cases kind <;> exact worded_ofList (by decide)

theorem Header.Named.addWord {h : Header} (hh : h.Named) {w : String} (hw : Worded w) :
    (h.addWord w).Named := by
  unfold Header.addWord
  split
  · exact ⟨hh.name, hh.params, hh.modifiers⟩
  · split
    · exact ⟨hh.name, hh.params, hh.modifiers⟩
    · split
      · exact hh
      · refine ⟨hh.name, hh.params, fun m hm => ?_⟩
        rcases List.mem_append.1 hm with hm | hm
        · exact hh.modifiers m hm
        · exact List.mem_singleton.1 hm ▸ hw

theorem worded_of_mem_attributeWords {text : List Char} : ∀ w ∈ attributeWords text, Worded w := by
  intro w hw
  obtain ⟨h, hh, rfl⟩ := List.mem_map.1 hw
  exact worded_ofList (spells_dotted.of_mem_allIn hh)

theorem worded_leadingName? {text rest : List Char} {name : String}
    (h : leadingName? text = some (name, rest)) : Worded name := by
  have hkeeps : (blanks1 ++ named "name" ident).Keeps "name" isNameChar :=
    (spells_ident.keeps rfl).append_left rfl
  obtain ⟨hit, hstart, heq⟩ := Option.map_eq_some_iff.1 h
  obtain ⟨rfl, -⟩ := Prod.mk.inj heq
  exact worded_ofList (hkeeps.part_of_startOf? hstart)

theorem named_parseHeader (kind : BlockKind) (text : List Char) :
    (parseHeader kind text).Named := by
  have hwords : ∀ (ws : List String) (h : Header), h.Named → (∀ w ∈ ws, Worded w) →
      (ws.foldl Header.addWord h).Named := by
    intro ws h hh hws
    exact List.foldlRecOn ws _ hh fun h' hh' w hw => hh'.addWord (hws w hw)
  unfold parseHeader
  dsimp only
  refine hwords _ _ ?_ worded_of_mem_attributeWords
  refine ⟨?_, ?_, List.forall_mem_nil _⟩
  · split
    · exact kind.worded_label
    · split
      next name rest hname => exact worded_leadingName? hname
      next => exact worded_ofList (List.forall_mem_nil _)
  · generalize leadingGroup? _ = group
    cases group with
    | none => exact List.forall_mem_nil _
    | some group =>
      intro p hp
      obtain ⟨part, -, rfl⟩ := List.mem_map.1 hp
      exact worded_parseParam part

/-! ## Statements -/

namespace Scope

theorem keeps_deletion : deletion.Keeps "name" isNameChar :=
  (spells_ident.keeps rfl).append_left rfl

theorem worded_writeTarget {s : Scope} {stmt : List Char} {t : String}
    (h : s.writeTarget stmt = some t) : Worded t := by
  rcases (writeTarget_cases h).2 with ⟨hit, hstart, rfl⟩ | ⟨path, hit, hstart, rfl⟩
  · exact worded_ofList (keeps_deletion.part_of_startOf? hstart)
  · exact worded_ofList (spells_ident.of_startOf? hstart)

theorem worded_target_classify (s : Scope) (stmt : List Char) :
    ∀ t ∈ (s.classify stmt).2.1, Worded t := by
  intro t ht
  have hclassified := s.classified_classify stmt
  generalize s.classify stmt = r at ht hclassified
  cases hclassified with
  | call => exact worded_writeTarget ht
  | write _ htarget => exact worded_writeTarget (htarget.trans ht)
  | event | caught | other => cases ht

end Scope

namespace Body

/-- What the statement writes has a name. -/
def TargetNamed (s : Statement) : Prop :=
  ∀ t ∈ s.target, Worded t

theorem targetNamed_statements (env : Surroundings) (scope : Scope) (c : Cursor) (stop : Nat) :
    ∀ s ∈ statements env scope c stop, TargetNamed s := by
  intro s hs
  cases made_statements env scope c stop s hs with
  | header => exact fun t ht => by cases ht
  | assembly => exact fun t ht => by cases ht
  | plain scope => exact scope.worded_target_classify _

end Body

/-! ## Members -/

/-- The contract and its variables have names. -/
structure Contract.Named (c : Contract) : Prop where
  name : Worded c.name
  stateVars : ∀ v ∈ c.stateVars, Worded v.name

/-- The member, its contract, its parameters and modifiers, and what its statements write have
names. -/
structure Block.Named (b : Block) : Prop where
  header : b.toHeader.Named
  contract : ∀ c ∈ b.contract, c.Named
  targets : ∀ s ∈ b.statements, ∀ t ∈ s.target, Worded t

namespace Draft

/-- All that was found has names. -/
structure Named (d : Draft) : Prop where
  around : ∀ c ∈ d.around, c.Named
  blocks : ∀ b ∈ d.blocks, b.Named

variable {text : List Char} {env : Surroundings} {hit : Hit} {d : Draft}

theorem keeps_declaration : declaration.Keeps "name" isNameChar := by
  refine Keeps.append_left (keeps_oneOf fun p hp => ?_) rfl
  rcases List.mem_cons.1 hp with rfl | hp
  · exact ((keeps_other (by decide) rfl).append_right rfl).append (spells_ident.keeps rfl)
  · obtain rfl := List.mem_singleton.1 hp
    exact (keeps_other (by decide) rfl).append_right rfl

theorem mem_of_mem_openAt {offset : Nat} {c : Contract} :
    ∀ {cs : List Contract}, c ∈ openAt offset cs → c ∈ cs
  | [], h => h
  | c' :: cs, h => by
    unfold openAt at h
    split at h
    · exact List.mem_cons_of_mem _ (mem_of_mem_openAt h)
    · exact h

theorem Named.addContract (hd : d.Named) (hname : Worded (String.ofList (hit.part "name")))
    (length : Nat) : (d.addContract env length hit).1.Named := by
  unfold Draft.addContract
  split
  · refine ⟨List.forall_mem_cons.2 ⟨⟨hname, ?_⟩, hd.around⟩, hd.blocks⟩
    exact worded_of_mem_stateVariablesFrom _ _ _ (List.forall_mem_nil _)
  · exact hd

theorem named_asMember {contract : Option Contract} {h : Header} (hh : h.Named) :
    (asMember contract h).Named := by
  unfold asMember
  split
  · split
    · exact ⟨hh.name, hh.params, hh.modifiers⟩
    · exact hh
  · exact hh

theorem Named.addMember (hd : d.Named) (length : Nat) (kind : BlockKind) :
    (d.addMember env length kind hit).1.Named := by
  have haround : ∀ c ∈ openAt hit.start.offset d.around, c.Named := fun c hc =>
    hd.around c (mem_of_mem_openAt hc)
  have hcontract : ∀ c ∈ (openAt hit.start.offset d.around).head?, c.Named := fun c hc =>
    haround c (List.mem_of_head? hc)
  have hheader : ∀ text, (asMember (openAt hit.start.offset d.around).head?
      (parseHeader kind text)).Named := fun text => named_asMember (named_parseHeader kind text)
  have hadd : ∀ b : Block, b.Named → ({ d with
      around := openAt hit.start.offset d.around, blocks := b :: d.blocks } :
      Draft).Named := fun b hb =>
    ⟨haround, List.forall_mem_cons.2 ⟨hb, hd.blocks⟩⟩
  simp only [Draft.addMember]
  split
  · exact ⟨haround, hd.blocks⟩
  · split
    · split
      · exact hadd _ ⟨hheader _, hcontract, Body.targetNamed_statements _ _ _ _⟩
      · exact hadd _ ⟨hheader _, hcontract, List.forall_mem_nil _⟩
    · exact hadd _ ⟨hheader _, hcontract, List.forall_mem_nil _⟩

theorem Named.add (hd : d.Named) (hname : Worded (String.ofList (hit.part "name"))) (length : Nat) :
    (d.add env length hit).1.Named := by
  unfold Draft.add
  split
  · exact hd.addContract hname length
  · split
    · exact hd
    · split
      · exact hd
      · exact hd.addMember length _

end Draft

/-- Whatever a source holds, its members are called by names. -/
theorem Outline.named_of_mem {text : List Char} {b : Block} (hb : b ∈ (Outline.of text).blocks) :
    b.Named := by
  obtain ⟨d, -, -, hd, heq⟩ := Outline.of_induction (P := fun _ d => d.Named) text
    ⟨List.forall_mem_nil _, List.forall_mem_nil _⟩ fun env hit o d _ hstart hreads _ _ hd =>
      hd.add (worded_ofList (Draft.keeps_declaration.part hstart hreads)) text.length
  rw [heq] at hb
  exact hd.blocks b (List.mem_reverse.1 hb)

theorem Block.Named.displayName {b : Block} (hb : b.Named) : Worded b.displayName := by
  have hcontract : Worded b.contractName := by
    unfold Block.contractName
    split
    next c hc => exact (hb.contract c hc).name
    next => exact worded_ofList (List.forall_mem_nil _)
  have hown : Worded (if b.name.isEmpty then b.kind.label else b.name) := by
    split
    · exact b.kind.worded_label
    · exact hb.header.name
  unfold Block.displayName
  dsimp only
  split
  · exact hown
  · unfold Worded
    rw [String.toList_append, String.toList_append, List.forall_mem_append, List.forall_mem_append]
    exact ⟨⟨hcontract, by decide⟩, hown⟩

end ContractAudit
