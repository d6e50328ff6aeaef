/-
  Notebook.Text.Lines — source texts up to layout that does not matter.

  Two sources are alike when they have the same lines after blanks at the ends of lines and blank
  lines are gone.  Lines end at line feeds; a carriage return in front of one is a blank at the end
  of its line.  `normalSource` is the text that stands for all sources alike.
-/
import Notebook.Text.Blank

namespace Notebook

/-- The pieces between line feeds; a text without one is a single piece. -/
def splitLines : List Char → List (List Char)
  | [] => [[]]
  | '\n' :: rest => [] :: splitLines rest
  | c :: rest =>
    match splitLines rest with
    | [] => [[c]]
    | line :: lines => (c :: line) :: lines

/-- A line without the blanks at its end. -/
def trimEnd (line : List Char) : List Char := (line.reverse.dropWhile isBlank).reverse

/-- The lines that matter: trimmed at the end, empty ones left out. -/
def significantLines (source : List Char) : List (List Char) :=
  ((splitLines source).map trimEnd).filter fun line => !line.isEmpty

/-- Lines one after the other, with a line feed between neighbours. -/
def joinLines : List (List Char) → List Char
  | [] => []
  | [line] => line
  | line :: lines => line ++ '\n' :: joinLines lines

/-- The text that stands for all sources with the same significant lines. -/
def normalSource (source : String) : String :=
  String.ofList (joinLines (significantLines source.toList))

end Notebook
