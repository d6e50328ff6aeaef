/-
  Notebook.Text.Passes — normal sources, made in passes over the text.

  `significantLines` says at once which lines of a source matter.  They are found step by step: the
  ends of lines are made alike, the text is taken apart at them, every line is trimmed, the blank
  ones are left out, and the others are joined.  Two of these steps know about carriage returns.
  The first pass takes out one in front of each line feed, which can bring another one there, and
  this one still counts as part of the end of its line.
-/
import Notebook.Text.Lines

namespace Notebook

/-- Writes a line feed for a carriage return and a line feed. -/
def unifyEnds : List Char → List Char
  | [] => []
  | '\r' :: '\n' :: rest => '\n' :: unifyEnds rest
  | c :: rest => c :: unifyEnds rest

/-- A line without a carriage return at its end. -/
def dropReturn (line : List Char) : List Char :=
  if line.getLast? = some '\r' then line.dropLast else line

/-- The lines that pieces between line feeds stand for.  All but the last are ended by a line feed,
with or without a carriage return; behind the last line feed there is a line only if something is
left. -/
def endedLines : List (List Char) → List (List Char)
  | [] => []
  | [rest] => if rest.isEmpty then [] else [rest]
  | piece :: next :: pieces => dropReturn piece :: endedLines (next :: pieces)

/-- The lines of a text. -/
def textLines (text : List Char) : List (List Char) := endedLines (splitLines text)

/-- A source with its ends of lines made alike, without blanks at the ends of lines and without
blank lines. -/
def normalizeSource (source : String) : String :=
  String.ofList (joinLines (((textLines (unifyEnds source.toList)).map trimEnd).filter
    fun line => !line.isEmpty))

end Notebook
