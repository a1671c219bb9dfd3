/-!
# Lines and fields

A line ends at a line feed, and a carriage return right before it belongs to the ending. Text after
the last line feed is a line of its own, which keeps its carriage return; an empty rest is no line.
A line is divided into fields by tabs.
-/

namespace Constituency.Text

/-- A finished line from its characters, last one first, without the carriage return that belongs
to the line ending. -/
def lineOf : List Char → String
  | '\r' :: taken => String.ofList taken.reverse
  | taken => String.ofList taken.reverse

/-- The lines of a text, the first of which begins with the characters already taken. -/
def linesFrom (taken : List Char) : List Char → List String
  | [] => if taken.isEmpty then [] else [String.ofList taken.reverse]
  | c :: rest => if c = '\n' then lineOf taken :: linesFrom [] rest else linesFrom (c :: taken) rest

/-- The lines of a text, without their endings. -/
def lines (text : String) : List String := linesFrom [] text.toList

/-- Writes every line with a line feed after it. -/
def unlines (lines : List String) : String := String.join (lines.map (· ++ "\n"))

/-- The fields of a line; a line with no tab is one field. -/
def fields (line : String) : List String := (line.toList.splitOn '\t').map String.ofList

/-- The text before the first tab and the text after it, if there is a tab. -/
def cutAtTab (line : String) : Option (String × String) :=
  match line.toList.span (· != '\t') with
  | (before, _ :: after) => some (String.ofList before, String.ofList after)
  | (_, []) => none

end Constituency.Text
