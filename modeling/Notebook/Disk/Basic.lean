/-
  Notebook.Disk.Basic — a file system as a value.

  Files and directories stand in one table under the names that lead to them; the top directory is
  not in it, and going up from there leads nowhere else.  A path is followed step by step, and every
  step but the last has to lead to a directory: one that is missing is "not found", a file is "not a
  directory".  What an operation makes of the last step is its own matter.  A path with a NUL or
  with too many bytes is refused before its first step, a name with too many bytes when it is
  looked up.
-/
import Notebook.Disk.Path
import Notebook.Error

namespace Notebook

/-- What a path leads to. -/
inductive Node where
  | file (content : List UInt8)
  | directory
deriving DecidableEq

/-- Files and directories by the names that lead to them. -/
structure Disk where
  nodes : Table (List String) Node := .empty

namespace Disk

/-! ## §1. Following a path. -/

/-- How many bytes a name may have. -/
def maxNameSize : Nat := 255

/-- How many bytes a path may have. -/
def maxPathSize : Nat := 4095

/-- What the names lead to, the top directory being where no name leads. -/
def node? (d : Disk) (names : List String) : Option Node :=
  if names.isEmpty then some .directory else d.nodes.get? names

/-- What stands at a name in a directory that is there. -/
def lookup (d : Disk) (directory : List String) (name : String) : Except IoError (Option Node) :=
  if maxNameSize < name.utf8ByteSize then .error .nameTooLong
  else .ok (d.node? (directory ++ [name]))

/-- Where steps end. -/
inductive Place where
  /-- In a directory that is there. -/
  | directory (names : List String)
  /-- At a name in a directory that is there; there may be nothing of that name. -/
  | entry (directory : List String) (name : String)

/-- Where steps end that start in the directory `names`. -/
def follow (d : Disk) (names : List String) : List Path.Step → Except IoError Place
  | [] => .ok (.directory names)
  | .stay :: rest => d.follow names rest
  | .up :: rest => d.follow names.dropLast rest
  | [.down name] => .ok (.entry names name)
  | .down name :: rest =>
    match d.lookup names name with
    | .error e => .error e
    | .ok (some .directory) => d.follow (names ++ [name]) rest
    | .ok (some (.file _)) => .error .notADirectory
    | .ok none => .error .notFound

/-- Where a path ends.  One without steps ends nowhere. -/
def locate (d : Disk) (p : Path) : Except IoError Place :=
  if p.text.contains '\x00' then .error .nulInPath
  else if maxPathSize < p.text.utf8ByteSize then .error .nameTooLong
  else if p.steps.isEmpty then .error .notFound
  else d.follow [] p.steps

/-- What a path leads to, and the names that lead there.  Behind a slash a file is not meant. -/
def resolve (d : Disk) (p : Path) : Except IoError (List String × Node) :=
  match d.locate p with
  | .error e => .error e
  | .ok (.directory names) => .ok (names, .directory)
  | .ok (.entry directory name) =>
    match d.lookup directory name with
    | .error e => .error e
    | .ok none => .error .notFound
    | .ok (some .directory) => .ok (directory ++ [name], .directory)
    | .ok (some (.file content)) =>
      if p.meansDirectory then .error .notADirectory
      else .ok (directory ++ [name], .file content)

/-- Whether a path leads to anything. -/
def pathExists (d : Disk) (p : Path) : Bool := (d.resolve p).toBool

/-- Whether a path leads to a file. -/
def isFile (d : Disk) (p : Path) : Bool :=
  match d.resolve p with
  | .ok (_, .file _) => true
  | _ => false

/-- Whether a path leads to a directory. -/
def isDirectory (d : Disk) (p : Path) : Bool :=
  match d.resolve p with
  | .ok (_, .directory) => true
  | _ => false

/-! ## §2. Reading. -/

/-- The content of a file. -/
def readBytes (d : Disk) (p : Path) : Except IoError (List UInt8) :=
  match d.resolve p with
  | .ok (_, .file content) => .ok content
  | .ok (_, .directory) => .error .isADirectory
  | .error e => .error e

/-- The content of a file as text. -/
def readText (d : Disk) (p : Path) : Except IoError String :=
  match d.readBytes p with
  | .error e => .error e
  | .ok content =>
    match String.fromUTF8? ⟨content.toArray⟩ with
    | some text => .ok text
    | none => .error .invalidUtf8

/-- The names below a directory, each with what it leads to, in order. -/
def below (d : Disk) (names : List String) : List (List String × Node) :=
  d.nodes.entries.filterMap fun (way, node) =>
    if names.isPrefixOf way && way.length != names.length then
      some (way.drop names.length, node)
    else none

/-- The entries of a directory, in order. -/
def entries (d : Disk) (p : Path) : Except IoError (List Path) :=
  match d.resolve p with
  | .ok (names, .directory) =>
    .ok ((d.below names).filterMap fun (way, _) =>
      match way with
      | [name] => some (p.entry name)
      | _ => none)
  | .ok (_, .file _) => .error .notADirectory
  | .error e => .error e

/-- Every file that a path leads to or that is below it, in order. -/
def files (d : Disk) (p : Path) : Except IoError (List Path) :=
  match d.resolve p with
  | .ok (names, .directory) =>
    .ok ((d.below names).filterMap fun (way, node) =>
      match node with
      | .file _ => some (p.below way)
      | .directory => none)
  | .ok (_, .file _) => .ok [p]
  | .error e => .error e

/-! ## §3. Files. -/

/-- The disk with something else where the names lead. -/
def put (d : Disk) (names : List String) (node : Node) : Disk :=
  { d with nodes := d.nodes.insert names node }

/-- Writes a file, over one that is there. -/
def write (d : Disk) (p : Path) (content : List UInt8) : Except IoError Disk :=
  match d.locate p with
  | .error e => .error e
  | .ok (.directory _) => .error .isADirectory
  | .ok (.entry directory name) =>
    if p.meansDirectory then .error .isADirectory else
    match d.lookup directory name with
    | .error e => .error e
    | .ok (some .directory) => .error .isADirectory
    | .ok _ => .ok (d.put (directory ++ [name]) (.file content))

/-- Removes a file. -/
def remove (d : Disk) (p : Path) : Except IoError Disk :=
  match d.locate p with
  | .error e => .error e
  | .ok (.directory _) => .error .isADirectory
  | .ok (.entry directory name) =>
    match d.lookup directory name with
    | .error e => .error e
    | .ok none => .error .notFound
    | .ok (some .directory) => .error .isADirectory
    | .ok (some (.file _)) =>
      if p.meansDirectory then .error .notADirectory
      else .ok { d with nodes := d.nodes.erase (directory ++ [name]) }

/-- Removes what a path leads to, and everything below it. -/
def removeAll (d : Disk) (p : Path) : Except IoError Disk :=
  (d.resolve p).map fun (names, _) =>
    { d with nodes := d.nodes.filter fun way _ => !names.isPrefixOf way }

/-- Moves a file, over one that is there. -/
def rename (d : Disk) (source target : Path) : Except IoError Disk :=
  match d.locate source, d.locate target with
  | .error e, _ => .error e
  | .ok _, .error e => .error e
  | .ok (.entry oldDirectory old), .ok (.entry newDirectory new) =>
    match d.lookup oldDirectory old, d.lookup newDirectory new with
    | .error e, _ => .error e
    | .ok none, _ => .error .notFound
    | .ok (some _), .error e => .error e
    | .ok (some .directory), .ok _ => .error .isADirectory
    | .ok (some (.file content)), .ok there =>
      if source.meansDirectory || target.meansDirectory then .error .notADirectory
      else if there = some .directory then .error .isADirectory
      else
        let cleared : Disk := { d with nodes := d.nodes.erase (oldDirectory ++ [old]) }
        .ok (cleared.put (newDirectory ++ [new]) (.file content))
  | .ok _, .ok _ => .error .busy

/-! ## §4. Directories. -/

/-- Makes one directory. -/
def makeDirectory (d : Disk) (p : Path) : Except IoError Disk :=
  match d.locate p with
  | .error e => .error e
  | .ok (.directory _) => .error .alreadyExists
  | .ok (.entry directory name) =>
    match d.lookup directory name with
    | .error e => .error e
    | .ok (some _) => .error .alreadyExists
    | .ok none => .ok (d.put (directory ++ [name]) .directory)

/-- Makes a directory unless it is there. -/
def ensureDirectory (d : Disk) (p : Path) : Except IoError Unit × Disk :=
  match d.makeDirectory p with
  | .ok d => (.ok (), d)
  | .error e => if d.isDirectory p then (.ok (), d) else (.error e, d)

/-- Makes the first of the directories, and before it those of the others on the way to it that
are missing.  Directories that were made before a failure stay. -/
def makeWays (d : Disk) : (ways : List Path) → Except IoError Unit × Disk
  | [] => (.ok (), d)
  | p :: outer =>
    match d.ensureDirectory p with
    | (.error .notFound, _) =>
      match d.makeWays outer with
      | (.ok (), d) => d.ensureDirectory p
      | (.error e, d) => (.error e, d)
    | made => made

/-- Makes a directory, and those on the way that are missing. -/
def makeDirectories (d : Disk) (p : Path) : Except IoError Unit × Disk := d.makeWays p.ways

/-- Writes a file, and first makes the directories on the way. -/
def place (d : Disk) (p : Path) (content : List UInt8) : Except IoError Unit × Disk :=
  match d.makeWays p.parents with
  | (.error e, d) => (.error e, d)
  | (.ok (), d) =>
    match d.write p content with
    | .error e => (.error e, d)
    | .ok d => (.ok (), d)

end Disk

end Notebook
