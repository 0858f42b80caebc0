import ContractAudit.Proofs.Contract.Scope
import ContractAudit.Proofs.Rule.Sign

/-!
# Runs of statements

Statements are classified one after another, each in the scope behind the one before it
(`Scope.behind`). A run does nothing to the scope but declare what its parameters and statements
declare (`Scope.behind_initial_eq`). So the names of a scope are known from the text that was read
(`Scope.Holds`), they only get more (`Scope.within_behind`), and what a statement is said to write
is no local variable (`Scope.classify_consistent`).
-/

namespace ContractAudit

namespace Scope

/-- The scope behind statements that are classified one after another. -/
def behind (s : Scope) (stmts : List (List Char)) : Scope :=
  stmts.foldl (fun s stmt => (s.classify stmt).2.2) s

/-- What a statement declares, which is what the patterns of `declarations` recognise and not what
the language means by it. An event declares nothing. -/
def declaredIn (stmt : List Char) : List Declared :=
  if Written.startsWithWord stmt "emit" then [] else declarations stmt

/-- What parameters and statements declare, in order. -/
def declaredBy (params : List Parameter) (stmts : List (List Char)) : List Declared :=
  params.filterMap Parameter.declared? ++ stmts.flatMap declaredIn

/-- The names in the scope are those that are declared, and the state variables that hold a
contract. -/
structure Holds (types : List String) (vars : List Variable) (ds : List Declared) (s : Scope) :
    Prop where
  mem_locals : ∀ x, x ∈ s.locals ↔ ∃ d ∈ ds, d.isStored = false ∧ d.name = x
  mem_storageRefs : ∀ x, x ∈ s.storageRefs ↔ ∃ d ∈ ds, d.isStored = true ∧ d.name = x
  mem_callables : ∀ x, x ∈ s.callables ↔
    (∃ v ∈ vars, namesContract types v.typeText.toList ∧ v.name = x) ∨
    ∃ d ∈ ds, namesContract types d.typeText ∧ d.name = x

/-- Every name in the one scope has the same part in the other. -/
structure Within (s t : Scope) : Prop where
  locals : s.locals ⊆ t.locals
  storageRefs : s.storageRefs ⊆ t.storageRefs
  callables : s.callables ⊆ t.callables

variable {s : Scope} {stmt : List Char} {types : List String} {vars : List Variable}
    {params : List Parameter}

/-! ## One statement -/

theorem emitWord_starts_iff : emitWord.starts stmt ↔ Written.startsWithWord stmt "emit" :=
  starts_word_iff (by decide)

/-- A statement does nothing to the scope but declare what it declares. -/
theorem scope_classify (s : Scope) (stmt : List Char) :
    (s.classify stmt).2.2 = (declaredIn stmt).foldl declare s := by
  have hclassified := s.classified_classify stmt
  generalize s.classify stmt = r at hclassified ⊢
  cases hclassified with
  | event hemit => rw [declaredIn, if_pos (emitWord_starts_iff.1 hemit)]; rfl
  | call hemit | write hemit | caught hemit | other hemit =>
    have hnot : ¬Written.startsWithWord stmt "emit" := fun h => by
      rw [emitWord_starts_iff.2 h] at hemit
      cases hemit
    rw [declaredIn, if_neg hnot]
    rfl

theorem classify_event (h : Written.startsWithWord stmt "emit") :
    s.classify stmt = (.eventEmit, none, s) := by
  rw [classify, if_pos (emitWord_starts_iff.2 h)]

/-- What is written is neither reserved nor known to be local only. -/
theorem unlocal_of_target {t : String} (h : (s.classify stmt).2.1 = some t) :
    t ∉ reservedNames ∧
    (t ∈ (s.classify stmt).2.2.storageRefs ∨ t ∉ (s.classify stmt).2.2.locals) := by
  have hwritten {u : Scope} (hu : u.writeTarget stmt = some t) :
      t ∉ reservedNames ∧ (t ∈ u.storageRefs ∨ t ∉ u.locals) := by
    have hstorage := (writeTarget_cases hu).1
    simpa [isStorage] using hstorage
  have hclassified := s.classified_classify stmt
  generalize s.classify stmt = r at h hclassified ⊢
  cases hclassified with
  | call => exact hwritten h
  | write _ htarget => exact hwritten (htarget.trans h)
  | event | caught | other => cases h

theorem target_eq_none (h : (s.classify stmt).1 = .eventEmit ∨ (s.classify stmt).1 = .controlFlow) :
    (s.classify stmt).2.1 = none := by
  have hclassified := s.classified_classify stmt
  generalize s.classify stmt = r at h hclassified ⊢
  cases hclassified with
  | event | caught | other => rfl
  | call | write => simp at h

/-! ## A run -/

theorem behind_append (s : Scope) (earlier later : List (List Char)) :
    s.behind (earlier ++ later) = (s.behind earlier).behind later :=
  List.foldl_append

/-- A run does nothing to the scope but declare what its statements declare. -/
theorem behind_eq : ∀ (stmts : List (List Char)) (s : Scope),
    s.behind stmts = (stmts.flatMap declaredIn).foldl declare s
  | [], s => rfl
  | stmt :: stmts, s => by
    have hstep : s.behind (stmt :: stmts) = (s.classify stmt).2.2.behind stmts := rfl
    rw [hstep, behind_eq stmts, scope_classify, List.flatMap_cons, List.foldl_append]

theorem behind_initial_eq (stmts : List (List Char)) : (initial types vars params).behind stmts =
    (declaredBy params stmts).foldl declare (initial types vars []) := by
  rw [behind_eq, initial_eq, declaredBy, List.foldl_append]

theorem within_behind (s : Scope) (stmts : List (List Char)) : s.Within (s.behind stmts) := by
  rw [behind_eq]
  exact ⟨fun _ hx => mem_locals_foldl_declare.2 (Or.inl hx),
    fun _ hx => mem_storageRefs_foldl_declare.2 (Or.inl hx),
    fun _ hx => mem_callables_foldl_declare.2 (Or.inl hx)⟩

/-- The names in the scope behind a run are those that were declared. -/
theorem holds_behind (stmts : List (List Char)) :
    Holds types vars (declaredBy params stmts) ((initial types vars params).behind stmts) := by
  obtain ⟨callables, hinitial, hmem⟩ := initial_nil types vars
  rw [behind_initial_eq, hinitial]
  refine ⟨fun x => ?_, fun x => ?_, fun x => ?_⟩
  · rw [mem_locals_foldl_declare, or_iff_right List.not_mem_nil]
  · rw [mem_storageRefs_foldl_declare, or_iff_right List.not_mem_nil]
  · rw [mem_callables_foldl_declare, hmem]

/-- However statements are classified one after another, the scope behind them holds what parameters
and statements declare and keeps it. What a statement writes is not reserved, and it was declared as
a reference into storage or was never declared as local, up to and with the statement itself. Only a
statement that writes is a state write, an event and what belongs to the control flow write nothing,
and an event leaves the scope as it is. -/
theorem classify_consistent (types : List String) (vars : List Variable) (params : List Parameter)
    (earlier : List (List Char)) (stmt : List Char) :
    let before := (initial types vars params).behind earlier
    let after := (initial types vars params).behind (earlier ++ [stmt])
    let declared := declaredBy params (earlier ++ [stmt])
    ∃ kind target, before.classify stmt = (kind, target, after) ∧ after.Holds types vars declared ∧
      (∀ later, before.Within ((initial types vars params).behind (earlier ++ later))) ∧
      (∀ t, target = some t → t ∉ reservedNames ∧
        ((∃ d ∈ declared, d.isStored = true ∧ d.name = t) ∨
          ∀ d ∈ declared, d.isStored = false → d.name ≠ t)) ∧
      (kind = .stateWrite → target.isSome) ∧
      (kind = .eventEmit ∨ kind = .controlFlow → target = none) ∧
      (Written.startsWithWord stmt "emit" → kind = .eventEmit ∧ after = before) := by
  intro before after declared
  have hafter : (before.classify stmt).2.2 = after := (behind_append _ earlier [stmt]).symm
  have hholds : after.Holds types vars declared := holds_behind (earlier ++ [stmt])
  refine ⟨(before.classify stmt).1, (before.classify stmt).2.1,
    by rw [← hafter], hholds, fun later => ?_,
    fun t ht => ?_, isSome_target_classify, target_eq_none, fun hemit => ?_⟩
  · rw [behind_append]
    exact within_behind before later
  · obtain ⟨hreserved, hplace⟩ := unlocal_of_target ht
    rw [hafter] at hplace
    refine ⟨hreserved, hplace.imp (hholds.mem_storageRefs t).1 fun hnot d hd hstored hname => ?_⟩
    exact hnot ((hholds.mem_locals t).2 ⟨d, hd, hstored, hname⟩)
  · have hevent := @classify_event before stmt hemit
    exact ⟨congrArg Prod.fst hevent, hafter.symm.trans (congrArg (·.2.2) hevent)⟩

end Scope

end ContractAudit
