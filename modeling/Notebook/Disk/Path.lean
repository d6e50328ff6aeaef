/-
  Notebook.Disk.Path — relative paths.

  A path keeps the text it was given as, and that text is what is shown.  What is looked up are its
  steps, one for each piece between slashes: a name goes down, two points go up, one point stays.
  An empty piece is no step; a slash at the end only says that a directory is meant.
-/
import Notebook.Table

namespace Notebook

/-- A relative path. -/
structure Path where
  text : String
deriving DecidableEq, Repr, Inhabited

namespace Path

/-! ## §1. Steps. -/

/-- One step along a path. -/
inductive Step where
  | stay
  | up
  | down (name : String)
deriving DecidableEq, Repr

/-- The pieces between the slashes of a text. -/
def piecesOf : List Char → List (List Char)
  | [] => [[]]
  | '/' :: rest => [] :: piecesOf rest
  | c :: rest =>
    match piecesOf rest with
    | [] => [[c]]
    | piece :: later => (c :: piece) :: later

/-- The pieces between the slashes. -/
def pieces (p : Path) : List String := (piecesOf p.text.toList).map String.ofList

/-- The step that a piece stands for. -/
def stepOf? : String → Option Step
  | "" => none
  | "." => some .stay
  | ".." => some .up
  | name => some (.down name)

/-- The steps along the path. -/
def steps (p : Path) : List Step := p.pieces.filterMap stepOf?

/-- Whether the text ends with a slash. -/
def meansDirectory (p : Path) : Bool := p.text.toList.getLast? == some '/'

/-! ## §2. Longer paths. -/

/-- The path of an entry of the directory `p`. -/
def entry (p : Path) (name : String) : Path :=
  if p.text.isEmpty || p.meansDirectory then ⟨p.text ++ name⟩ else ⟨p.text ++ "/" ++ name⟩

/-- The path of something below the directory `p`. -/
def below (p : Path) (names : List String) : Path := names.foldl entry p

/-! ## §3. Shorter paths. -/

/-- Whether a piece leads away from where it stands. -/
def leads (piece : String) : Bool := piece != "" && piece != "."

/-- The path of pieces that are given from the last one back. -/
def ofPiecesBack (pieces : List String) : Path := ⟨"/".intercalate pieces.reverse⟩

/-- The path of pieces that are given from the last one back, and every path on the way there. -/
def waysBack : List String → List Path
  | [] => []
  | piece :: before =>
    if leads piece then ofPiecesBack (piece :: before) :: waysBack before else waysBack before

/-- The path up to its last piece that leads on, and every path on the way there, the longest
first. -/
def ways (p : Path) : List Path := waysBack p.pieces.reverse

/-- The paths of the directories on the way, the longest first. -/
def parents (p : Path) : List Path := p.ways.drop 1

/-! ## §4. Extensions. -/

/-- A name up to its last point, if there is one after the first character. -/
def stem? (name : String) : Option String :=
  match name.toList.reverse.dropWhile (· ≠ '.') with
  | '.' :: before => if before.isEmpty then none else some (String.ofList before.reverse)
  | _ => none

/-- A name with its extension replaced, or with one added. -/
def replaceExtension (name extension : String) : String :=
  (stem? name).getD name ++ "." ++ extension

/-- The path without the pieces at its end that name nothing. -/
def trimmedPieces (p : Path) : List String :=
  (p.pieces.reverse.dropWhile fun piece => !leads piece).reverse

/-- The path with the extension of its last name replaced.  A path that does not end in a name is
left alone; so is one that ends in two points once the old extension is cut off. -/
def withExtension (p : Path) (extension : String) : Path :=
  let pieces := p.trimmedPieces
  match pieces.getLast? with
  | none => p
  | some ".." => p
  | some name =>
    let last := if stem? name = some "." ∧ pieces = p.pieces then ".."
      else replaceExtension name extension
    ⟨"/".intercalate (pieces.dropLast ++ [last])⟩

end Path

end Notebook
