import ContractAudit.Rule.Builtin

/-!
# Catalogs

A `Catalog` holds rules in the order in which they were registered, one for each id.
`Catalog.builtin` is the one a scan goes by unless it is given another.
-/

namespace ContractAudit

/-- An id that is registered already. -/
structure DuplicateRule where
  id : String
  deriving DecidableEq, Repr

/-- What the one who registers is told. -/
def DuplicateRule.message (e : DuplicateRule) : String :=
  "Rule id already registered: " ++ e.id

/-- An id that no rule goes by. -/
structure UnknownRule where
  id : String
  deriving DecidableEq, Repr

/-- What the one who looks up is told : the id, quoted. -/
def UnknownRule.message (e : UnknownRule) : String :=
  quoted e.id

/-- The rules a scan can run, as a plain list. -/
structure Catalog where
  /-- In order of registration. -/
  rules : List Rule

namespace Catalog

/-- The catalog before any rule is registered. -/
def empty : Catalog :=
  ⟨[]⟩

/-- How many rules are registered. -/
def size (c : Catalog) : Nat :=
  c.rules.length

/-- The ids of the rules, in order of registration. -/
def ids (c : Catalog) : List String :=
  c.rules.map (·.id)

/-- The rule of an id, if it is registered. -/
def get? (c : Catalog) (id : String) : Option Rule :=
  c.rules.find? (·.id == id)

/-- The rule of an id; an id that nobody registered is an error. -/
def get (c : Catalog) (id : String) : Except UnknownRule Rule :=
  match c.get? id with
  | some r => pure r
  | none => throw ⟨id⟩

/-- Whether a rule is registered under an id. -/
def contains (c : Catalog) (id : String) : Bool :=
  (c.get? id).isSome

/-- Adds a rule behind the others, unless its id is taken. -/
def register (c : Catalog) (r : Rule) : Except DuplicateRule Catalog :=
  if c.contains r.id then throw ⟨r.id⟩ else pure ⟨c.rules ++ [r]⟩

/-- The catalog of the given rules. -/
def ofRules (rs : List Rule) : Except DuplicateRule Catalog :=
  rs.foldlM register empty

/-- The catalog of the built-in rules. -/
def builtin : Catalog :=
  ⟨Rule.builtin⟩

end Catalog

end ContractAudit
