import ContractAudit.Contract.Scope

/-!
# The names of a scope

Declaring variables one behind the other makes those names local, references into storage or
callable that are declared so, and no others (`Scope.mem_foldl_declare`). What one statement can be
classified as is said once (`Scope.Classified`). A name that no statement declares outside storage
stays one of storage.
-/

namespace ContractAudit

/-- Is the variable kept in storage? -/
def Declared.isStored (d : Declared) : Bool :=
  d.place == some "storage".toList || (words d.typeText).contains "storage".toList

/-- What a parameter with a name declares. -/
def Parameter.declared? (p : Parameter) : Option Declared :=
  p.name.map (⟨p.typeText.toList, none, ·⟩)

namespace Scope

variable {s : Scope} {x : String}

/-! ## Declaring names -/

section Declare

variable (s : Scope) (d : Declared)

/-- The scope with the name among the local variables or among the references into storage. -/
def enter : Scope :=
  if d.isStored then { s with storageRefs := s.storageRefs.insert d.name }
  else { s with locals := s.locals.insert d.name }

theorem declare_eq : s.declare d = if s.isContractType d.typeText then
    { s.enter d with callables := s.callables.insert d.name } else s.enter d := by
  have hcallables : (s.enter d).callables = s.callables := by
    unfold enter
    split <;> rfl
  have htypes : (s.enter d).isContractType d.typeText = s.isContractType d.typeText := by
    unfold enter
    split <;> rfl
  rw [← hcallables, ← htypes]
  rfl

theorem locals_declare : (s.declare d).locals = if d.isStored then s.locals else
    s.locals.insert d.name := by
  rw [declare_eq, enter]
  split <;> split <;> rfl

theorem storageRefs_declare :
    (s.declare d).storageRefs = if d.isStored then s.storageRefs.insert d.name else
      s.storageRefs := by
  rw [declare_eq, enter]
  split <;> split <;> rfl

theorem callables_declare : (s.declare d).callables =
    if s.isContractType d.typeText then s.callables.insert d.name else s.callables := by
  rw [declare_eq, enter]
  split <;> split <;> rfl

theorem valueTypes_declare : (s.declare d).valueTypes = s.valueTypes := by
  rw [declare_eq, enter]
  split <;> split <;> rfl

end Declare

/-- Declaring variables one behind the other enters, into a set to which each declaration of some
kind adds the name it declares, the names of all declarations of that kind. -/
theorem mem_foldl_declare {field : Scope → List String} {types : List String} {P : Declared → Prop}
    (hstep : ∀ (s : Scope) (d : Declared), s.valueTypes = types →
      (x ∈ field (s.declare d) ↔ x ∈ field s ∨ P d ∧ d.name = x)) :
    ∀ {ds : List Declared} {s : Scope}, s.valueTypes = types →
      (x ∈ field (ds.foldl declare s) ↔ x ∈ field s ∨ ∃ d ∈ ds, P d ∧ d.name = x)
  | [], s, _ => by simp
  | d :: ds, s, hs => by
    rw [List.foldl_cons, mem_foldl_declare hstep ((valueTypes_declare s d).trans hs), hstep s d hs,
      or_assoc]
    simp

variable {ds : List Declared}

theorem mem_locals_foldl_declare :
    x ∈ (ds.foldl declare s).locals ↔ x ∈ s.locals ∨ ∃ d ∈ ds, d.isStored = false ∧ d.name = x := by
  refine mem_foldl_declare (fun t d _ => ?_) rfl
  rw [locals_declare]
  cases d.isStored <;> grind

theorem mem_storageRefs_foldl_declare :
    x ∈ (ds.foldl declare s).storageRefs ↔ x ∈ s.storageRefs ∨ ∃ d ∈ ds, d.isStored = true ∧
      d.name = x := by
  refine mem_foldl_declare (fun t d _ => ?_) rfl
  rw [storageRefs_declare]
  cases d.isStored <;> grind

/-- Does the type name a contract, where the given types are none? -/
def namesContract (types : List String) (typeText : List Char) : Bool :=
  (Scope.mk types [] [] []).isContractType typeText

theorem mem_callables_foldl_declare : x ∈ (ds.foldl declare s).callables ↔
    x ∈ s.callables ∨ ∃ d ∈ ds, namesContract s.valueTypes d.typeText = true ∧ d.name = x := by
  refine mem_foldl_declare (fun t d ht => ?_) rfl
  have htype : t.isContractType d.typeText = namesContract s.valueTypes d.typeText := ht ▸ rfl
  rw [callables_declare, htype]
  cases namesContract s.valueTypes d.typeText <;> grind

/-! ## Where a body starts -/

section Initial

variable {types : List String} {vars : List Variable} {params : List Parameter}

/-- The parameters are declared in the scope of the state variables. -/
theorem initial_eq : initial types vars params =
    (params.filterMap Parameter.declared?).foldl declare (initial types vars []) := by
  unfold initial
  dsimp only [List.foldl_nil]
  generalize vars.foldl _ _ = s
  induction params generalizing s with
  | nil => rfl
  | cons p params ih =>
    rw [List.foldl_cons, ih]
    cases hname : p.name with
    | none =>
      have hnone : p.declared? = none := by rw [Parameter.declared?, hname, Option.map_none]
      rw [List.filterMap_cons_none hnone]
    | some name =>
      have hsome : p.declared? = some ⟨p.typeText.toList, none, name⟩ := by
        rw [Parameter.declared?, hname, Option.map_some]
      rw [List.filterMap_cons_some hsome, List.foldl_cons]

/-- State variables can be callable, but they are neither local nor references into storage. -/
theorem initial_nil (types : List String) (vars : List Variable) :
    ∃ callables, initial types vars [] = ⟨types, [], [], callables⟩ ∧
      ∀ x, x ∈ callables ↔ ∃ v ∈ vars, namesContract types v.typeText.toList ∧ v.name = x := by
  have hfold (callables : List String) : ∃ callables', vars.foldl
      (fun s v => if s.isContractType v.typeText.toList then
        { s with callables := s.callables.insert v.name } else s) (Scope.mk types [] [] callables) =
        ⟨types, [], [], callables'⟩ ∧ ∀ x, x ∈ callables' ↔
          x ∈ callables ∨ ∃ v ∈ vars, namesContract types v.typeText.toList ∧ v.name = x := by
    induction vars generalizing callables with
    | nil => exact ⟨callables, rfl, fun x => by simp⟩
    | cons v vars ih =>
      rw [List.foldl_cons]
      have htype : (Scope.mk types [] [] callables).isContractType v.typeText.toList =
        namesContract types v.typeText.toList := rfl
      rw [htype]
      cases hv : namesContract types v.typeText.toList with
      | false =>
        obtain ⟨callables', heq, hmem⟩ := ih callables
        refine ⟨callables', heq, fun x => ?_⟩
        rw [hmem]
        simp [hv]
      | true =>
        obtain ⟨callables', heq, hmem⟩ := ih (callables.insert v.name)
        refine ⟨callables', heq, fun x => ?_⟩
        rw [hmem]
        rw [List.mem_insert_iff, @eq_comm _ x, @or_comm (v.name = x), or_assoc]
        simp [hv]
  obtain ⟨callables, heq, hmem⟩ := hfold []
  exact ⟨callables, heq, fun x => by rw [hmem]; simp⟩

theorem exists_param_of_mem_declared {stored : Bool}
    (h : ∃ d ∈ params.filterMap Parameter.declared?, d.isStored = stored ∧ d.name = x) :
    ∃ p ∈ params, p.name = some x := by
  obtain ⟨d, hd, -, rfl⟩ := h
  obtain ⟨p, hp, hd⟩ := List.mem_filterMap.1 hd
  obtain ⟨name, hname, rfl⟩ := Option.map_eq_some_iff.1 hd
  exact ⟨p, hp, hname⟩

/-- Only parameters are local where a body starts. -/
theorem exists_param_of_mem_locals_initial (h : x ∈ (initial types vars params).locals) :
    ∃ p ∈ params, p.name = some x := by
  obtain ⟨callables, heq, -⟩ := initial_nil types vars
  rw [initial_eq, mem_locals_foldl_declare, heq] at h
  exact exists_param_of_mem_declared (h.resolve_left List.not_mem_nil)

/-- Only parameters are references into storage where a body starts. -/
theorem exists_param_of_mem_storageRefs_initial (h : x ∈ (initial types vars params).storageRefs) :
    ∃ p ∈ params, p.name = some x := by
  obtain ⟨callables, heq, -⟩ := initial_nil types vars
  rw [initial_eq, mem_storageRefs_foldl_declare, heq] at h
  exact exists_param_of_mem_declared (h.resolve_left List.not_mem_nil)

end Initial

/-! ## What a statement writes -/

/-- What is written is a name that stands for storage, and the text has it behind `delete` or at the
start of a path. -/
theorem writeTarget_cases {stmt : List Char} {t : String} (h : s.writeTarget stmt = some t) :
    s.isStorage t ∧
    ((∃ hit, deletion.startOf? (trimLeft stmt) = some hit ∧ String.ofList (hit.part "name") = t) ∨
      ∃ path hit, Pattern.ident.startOf? path = some hit ∧ String.ofList hit.text = t) := by
  have hstorage {name : List Char}
      (hname : (if s.isStorage (String.ofList name) then some (String.ofList name)
      else none) = some t) : s.isStorage t ∧ String.ofList name = t := by
    split at hname
    next hstored =>
      obtain rfl := Option.some.inj hname
      exact ⟨hstored, rfl⟩
    next => cases hname
  unfold writeTarget at h
  dsimp only at h
  split at h
  next hit hstart => exact ⟨(hstorage h).1, Or.inl ⟨hit, hstart, (hstorage h).2⟩⟩
  next =>
    split at h
    next => cases h
    next base hstart =>
      split at h
      next => cases h
      next =>
        split at h
        next => exact ⟨(hstorage h).1, Or.inr ⟨_, base, hstart, (hstorage h).2⟩⟩
        next => cases h

/-! ## Classification -/

/-- What a statement can be classified as, and why. -/
inductive Classified (s : Scope) (stmt : List Char) : StatementKind × Option String × Scope → Prop
  | event (hemit : emitWord.starts stmt = true) : Classified s stmt (.eventEmit, none, s)
  | call (hemit : emitWord.starts stmt = false) (hcall : (s.record stmt).isExternalCall stmt) :
    Classified s stmt (.externalCall, (s.record stmt).writeTarget stmt, s.record stmt)
  | write (hemit : emitWord.starts stmt = false) {t : String}
    (htarget : (s.record stmt).writeTarget stmt = some t) :
    Classified s stmt (.stateWrite, some t, s.record stmt)
  | caught (hemit : emitWord.starts stmt = false)
      (htarget : (s.record stmt).writeTarget stmt = none)
    (hcatch : catchWord.starts stmt) : Classified s stmt (.controlFlow, none, s.record stmt)
  | other (hemit : emitWord.starts stmt = false)
      (htarget : (s.record stmt).writeTarget stmt = none) :
    Classified s stmt (.other, none, s.record stmt)

theorem classified_classify (s : Scope) (stmt : List Char) :
    Classified s stmt (s.classify stmt) := by
  unfold classify
  split
  next hemit => exact .event hemit
  next hemit =>
    rw [Bool.not_eq_true] at hemit
    dsimp only
    split
    next hcall => exact .call hemit hcall
    next =>
      cases htarget : (s.record stmt).writeTarget stmt with
      | some t => exact .write hemit htarget
      | none =>
        rw [Option.isSome_none, if_neg Bool.false_ne_true]
        split
        next hcatch => exact .caught hemit htarget hcatch
        next => exact .other hemit htarget

section Classify

variable {stmt : List Char}

/-- Among the statements that have no header, only what is caught belongs to the control flow. -/
theorem catchWord_starts_of_classify (h : (s.classify stmt).1 = .controlFlow) :
    catchWord.starts stmt := by
  have hclassified := s.classified_classify stmt
  generalize s.classify stmt = r at h hclassified
  cases hclassified with
  | caught _ _ hcatch => exact hcatch
  | event | call | write | other => cases h

/-- A statement that is a state write has a variable that it writes. -/
theorem isSome_target_classify (h : (s.classify stmt).1 = .stateWrite) :
    (s.classify stmt).2.1.isSome := by
  have hclassified := s.classified_classify stmt
  generalize s.classify stmt = r at h hclassified ⊢
  cases hclassified with
  | write => rfl
  | event | call | caught | other => cases h

section NoEvent

variable (h : emitWord.starts stmt = false)

include h

/-- A statement that emits no event writes what its text writes, whatever it calls. -/
theorem target_classify : (s.classify stmt).2.1 = (s.record stmt).writeTarget stmt := by
  have hclassified := s.classified_classify stmt
  generalize s.classify stmt = r at hclassified ⊢
  cases hclassified with
  | event hemit => rw [h] at hemit; cases hemit
  | call => rfl
  | write _ htarget | caught _ htarget | other _ htarget => exact htarget.symm

theorem kind_classify_of_isExternalCall (hcall : (s.record stmt).isExternalCall stmt) :
    (s.classify stmt).1 = .externalCall := by
  unfold classify
  rw [h, if_neg Bool.false_ne_true]
  dsimp only
  rw [if_pos hcall]

end NoEvent

end Classify

end Scope

end ContractAudit
