import ContractAudit.Text.Quoted
import ContractAudit.Text.Trim

/-!
# Disks

What a run needs of a file system (`Disk`), and a file system that is a value (`FileTree`),
on which a run is a function. Paths are texts : names with slashes between them, from the
root if they start with one and else from the home directory.
-/

namespace ContractAudit

/-- What a path leads to. -/
inductive Node where
  | directory
  | file (bytes : List UInt8)
  deriving DecidableEq, Repr

/-- Why the disk refuses a path. -/
inductive DiskFault where
  | notFound
  | alreadyExists
  | notADirectory
  | isADirectory
  /-- A name or a whole path is too long. -/
  | nameTooLong
  /-- The path holds the character that ends paths. -/
  | endInPath
  /-- Too many directories are missing on the way. -/
  | tooDeep
  deriving DecidableEq, Repr

/-- A fault and the path that led to it. -/
structure DiskError where
  fault : DiskFault
  path : String
  deriving DecidableEq, Repr

/-- The text of the error, with its number where the system gives one. -/
def DiskError.message (e : DiskError) : String :=
  match e.fault with
  | .notFound => "[Errno 2] No such file or directory: " ++ quoted e.path
  | .alreadyExists => "[Errno 17] File exists: " ++ quoted e.path
  | .notADirectory => "[Errno 20] Not a directory: " ++ quoted e.path
  | .isADirectory => "[Errno 21] Is a directory: " ++ quoted e.path
  | .nameTooLong => "[Errno 36] File name too long: " ++ quoted e.path
  | .endInPath => "embedded null byte"
  | .tooDeep => "maximum recursion depth exceeded"

/-- The operations of a file system. -/
structure Disk (m : Type → Type) where
  /-- What a path leads to, if it leads anywhere. -/
  node? : String → m (Option Node)
  /-- Makes a directory, and those on the way to it. -/
  makeDirectories : String → m (Except DiskError Unit)
  /-- Writes a file. -/
  write : String → String → m (Except DiskError Unit)

/-! ## Trees -/

/-- A file, or a directory with what it holds by name. -/
inductive Tree where
  | directory (entries : List (String × Tree))
  | file (bytes : List UInt8)
  deriving Repr

namespace Tree

/-- What a tree is at its top. -/
def node : Tree → Node
  | directory _ => .directory
  | file bytes => .file bytes

/-- The entries of a directory; a file has none. -/
def entries : Tree → List (String × Tree)
  | directory es => es
  | file _ => []

/-- Puts a tree at the place that names lead to, with directories on the way to it. -/
def put (new : Tree) : List String → Tree → Tree
  | [], _ => new
  | name :: later, t =>
    let old := (t.entries.lookup name).getD (directory [])
    directory ((name, put new later old) :: t.entries.filter (·.1 != name))

mutual

/-- The places of the files below a tree, itself at the place `here` (kept reversed). -/
def files (here : List String) : Tree → List (List String)
  | file _ => [here.reverse]
  | directory es => filesIn here es

/-- The files under the entries of a directory, each as the names that lead to it. -/
def filesIn (here : List String) : List (String × Tree) → List (List String)
  | [] => []
  | (name, t) :: later => files (name :: here) t ++ filesIn here later

end

end Tree

/-! ## Paths -/

/-- The names of a path, among them empty ones. -/
def pathNames (path : String) : List String :=
  (splitAt (· == '/') path.toList).map String.ofList

/-- The character that no path may hold. -/
def pathEnd : Char := '\x00'

/-- The most bytes a name may have. -/
def nameLimit : Nat := 255

/-- The most bytes a path may have. -/
def pathLimit : Nat := 4095

/-- The most directories that are made for one path. -/
def nestingLimit : Nat := 990

/-- Where names lead in a tree : perhaps to nothing, but then to a place in a directory. -/
structure Spot where
  /-- The names that lead there, the last one first. -/
  names : List String
  /-- The directories passed on the way, the last one first. -/
  passed : List Tree
  tree : Option Tree

namespace Spot

/-- The place at the root, with nothing walked yet. -/
def root (t : Tree) : Spot :=
  ⟨[], [], some t⟩

/-- The spot one level up; above the root there is the root. -/
def up (s : Spot) : Spot :=
  match s.passed with
  | [] => s
  | t :: passed => ⟨s.names.tail, passed, some t⟩

/-- Goes on by one name, for which one has to stand in a directory. -/
def step (s : Spot) (name : String) : Except DiskFault Spot :=
  match s.tree with
  | none => throw .notFound
  | some (.file _) => throw .notADirectory
  | some (.directory es) =>
    if name == "" || name == "." then pure s
    else if name == ".." then pure s.up
    else if nameLimit < name.utf8ByteSize then throw .nameTooLong
    else pure ⟨name :: s.names, .directory es :: s.passed, es.lookup name⟩

/-- Goes on by one name after the other. -/
def walk (s : Spot) : List String → Except DiskFault Spot
  | [] => pure s
  | name :: later => do (← s.step name).walk later

end Spot

/-! ## Trees of files -/

/-- A disk as a value : the tree of its files and the directory that relative paths start from. -/
structure FileTree where
  /-- The names that lead to the home directory. -/
  home : List String
  root : Tree
  deriving Repr

namespace FileTree

/-- The tree in which nothing but the home directory exists. -/
def empty (home : String) : FileTree :=
  ⟨[home], .directory [(home, .directory [])]⟩

/-- The files below the home directory. -/
def files (t : FileTree) : List (List String) :=
  (t.root.files []).filterMap fun place =>
    if t.home.isPrefixOf place then some (place.drop t.home.length) else none

/-- Where a path starts. -/
def origin (t : FileTree) (path : String) : List String :=
  if path.toList.head? == some '/' then [] else t.home

/-- What stands at a path, if anything does and the path can be asked for. -/
def node? (t : FileTree) (path : String) : Option Node :=
  if path.isEmpty || pathLimit < path.utf8ByteSize then none
  else
    match (Spot.root t.root).walk (t.origin path ++ pathNames path) with
    | .ok s => s.tree.map (·.node)
    | .error _ => none

/-- Puts a tree at a spot. -/
def put (t : FileTree) (s : Spot) (new : Tree) : FileTree :=
  { t with root := Tree.put new s.names.reverse t.root }

/-- Makes one directory. -/
def makeDirectory (t : FileTree) (path : String) : Except DiskFault FileTree :=
  if path.toList.contains pathEnd then throw .endInPath
  else if path.isEmpty then throw .notFound
  else if pathLimit < path.utf8ByteSize then throw .nameTooLong
  else do
    let names := ((pathNames path).reverse.dropWhile (· == "")).reverse
    let s ← (Spot.root t.root).walk (t.origin path ++ names)
    if s.tree.isSome then throw .alreadyExists else return t.put s (.directory [])

/-- A path without its last name, and that name. -/
def splitLast (path : List Char) : List Char × List Char :=
  let before := path.reverse.dropWhile (· != '/')
  let bare := before.dropWhile (· == '/')
  ((if bare.isEmpty then before else bare).reverse, (path.reverse.takeWhile (· != '/')).reverse)

/-- Makes a directory unless there is one. -/
def ensureDirectory (t : FileTree) (path : String) : Except DiskError Unit × FileTree :=
  match t.makeDirectory path with
  | .ok t => (.ok (), t)
  | .error fault =>
    if t.node? path == some .directory then (.ok (), t) else (.error ⟨fault, path⟩, t)

/-- Makes a directory and those on the way to it, unless there are more than `depth`. What was
made before a fault stays, and a file in the way is no fault before the last name. -/
def makeAll (t : FileTree) : Nat → List Char → Except DiskError Unit × FileTree
  | 0, path => (.error ⟨.tooDeep, String.ofList path⟩, t)
  | depth + 1, path =>
    let (before, name) := splitLast path
    let (before, name) := if name.isEmpty then splitLast before else (before, name)
    if before.isEmpty || name.isEmpty || (t.node? (String.ofList before)).isSome then
      t.ensureDirectory (String.ofList path)
    else
      let (made, t) := t.makeAll depth before
      match made with
      | .error e =>
        if e.fault != .alreadyExists then (.error e, t)
        else if name == ['.'] then (.ok (), t)
        else t.ensureDirectory (String.ofList path)
      | .ok () => if name == ['.'] then (.ok (), t) else t.ensureDirectory (String.ofList path)

/-- Makes the directory at a path and those above it that are missing. -/
def makeDirectories (t : FileTree) (path : String) : Except DiskError Unit × FileTree :=
  t.makeAll nestingLimit path.toList

/-- Writes a file, over the old one if there is one; its directory has to exist. -/
def write (t : FileTree) (path : String) (bytes : List UInt8) : Except DiskError FileTree :=
  if path.toList.contains pathEnd then throw ⟨.endInPath, path⟩
  else if pathLimit < path.utf8ByteSize then throw ⟨.nameTooLong, path⟩
  else
    match (Spot.root t.root).walk (t.origin path ++ pathNames path) with
    | .error fault => throw ⟨fault, path⟩
    | .ok s =>
      match s.tree with
      | some (.directory _) => throw ⟨.isADirectory, path⟩
      | _ => pure (t.put s (.file bytes))

/-- Writes a file and makes the directories on the way to it. -/
def plant (t : FileTree) (path : String) (bytes : List UInt8) : Except DiskError FileTree :=
  let (directory, _) := splitLast path.toList
  let (made, t) :=
    if directory.isEmpty then (.ok (), t) else t.makeDirectories (String.ofList directory)
  match made with
  | .error e => throw e
  | .ok () => t.write path bytes

/-- The tree as a disk. -/
def disk : Disk (StateM FileTree) where
  node? path := do return (← get).node? path
  makeDirectories path := fun t => t.makeDirectories path
  write path contents := fun t =>
    match t.write path contents.toUTF8.toList with
    | .ok t => (.ok (), t)
    | .error e => (.error e, t)

end FileTree

end ContractAudit
