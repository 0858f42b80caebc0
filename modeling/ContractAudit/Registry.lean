import ContractAudit.Catalog
import Std.Data.HashMap

/-!
# Registries

Rules are entered into a `Registry` one by one. It keeps them under their ids, to look them up, and
beside them the ids in the order in which they were entered. An id that is taken is refused, and
what was entered before stays.
-/

namespace ContractAudit

/-- The rules a scan can run, looked up by hash; `Catalog` is the same as a list. -/
structure Registry where
  byId : Std.HashMap String Rule
  /-- The ids in order of registration. -/
  order : List String

namespace Registry

/-- The registry before any rule is registered. -/
def empty : Registry :=
  ⟨∅, []⟩

/-- How many rules are registered. -/
def size (s : Registry) : Nat :=
  s.order.length

/-- Whether a rule is registered under an id. -/
def contains (s : Registry) (id : String) : Bool :=
  s.byId.contains id

/-- The rule of an id; an id that nobody registered is an error. -/
def get (s : Registry) (id : String) : Except UnknownRule Rule :=
  match s.byId[id]? with
  | some r => pure r
  | none => throw ⟨id⟩

/-- The rules in order of registration. -/
def rules (s : Registry) : Except UnknownRule (List Rule) :=
  s.order.mapM s.get

/-- The rules as they are gone through one after the other. -/
def iterate (s : Registry) : Except UnknownRule (List Rule) :=
  s.rules

/-- What a scan by the registry goes by. -/
def catalog (s : Registry) : Except UnknownRule Catalog := do
  return ⟨← s.rules⟩

/-- Enters a rule under its id, and then the id behind the others, unless the id is taken. -/
def register (r : Rule) : ExceptT DuplicateRule (StateM Registry) Unit := do
  if (← getThe Registry).contains r.id then throw ⟨r.id⟩
  modify fun s => { s with byId := s.byId.insert r.id r }
  modify fun s => { s with order := s.order ++ [r.id] }

/-- The registry of the given rules, entered one after the other. -/
def ofRules (rs : List Rule) : Except DuplicateRule Registry :=
  let (entered, s) := (forM rs register).run.run empty
  entered.map fun _ => s

end Registry

end ContractAudit
