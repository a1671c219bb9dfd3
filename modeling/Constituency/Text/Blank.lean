/-!
# Blanks and words

A blank is a character with the Unicode property `White_Space`. Words are the maximal runs of
other characters; a list of words is written with single spaces between them, and a list of
non-empty blank-free words is read back from that text.
-/

namespace Constituency.Text

/-- The characters with the property `White_Space`, twenty-five in all. -/
def isBlank (c : Char) : Bool :=
  let n := c.toNat
  (0x09 ≤ n && n ≤ 0x0D) || n == 0x20 || n == 0x85 || n == 0xA0 || n == 0x1680 ||
    (0x2000 ≤ n && n ≤ 0x200A) || n == 0x2028 || n == 0x2029 || n == 0x202F || n == 0x205F ||
    n == 0x3000

/-- The word whose characters have been taken so far, last character first; no characters make no
word. -/
def wordOf : List Char → List String
  | [] => []
  | taken => [String.ofList taken.reverse]

/-- The words of a text, the first of which begins with the characters already taken. -/
def wordsFrom (taken : List Char) : List Char → List String
  | [] => wordOf taken
  | c :: rest =>
    if isBlank c then wordOf taken ++ wordsFrom [] rest else wordsFrom (c :: taken) rest

/-- The maximal runs of characters that are not blank, in order. -/
def words (text : String) : List String := wordsFrom [] text.toList

/-- Writes words with a single space between neighbours. -/
def unwords (words : List String) : String := " ".intercalate words

/-- Holds of a text without any character but blanks. -/
def isBlankText (text : String) : Bool := text.toList.all isBlank

/-- Removes the blanks at both ends. -/
def trim (text : String) : String :=
  String.ofList ((text.toList.dropWhile isBlank).reverse.dropWhile isBlank).reverse

end Constituency.Text
