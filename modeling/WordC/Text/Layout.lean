import WordC.Text.Blank
/-!
# Lines, words and columns

How a text is cut into lines and words, how blanks around it are dropped, and
where a trailing comment is placed.
-/

namespace WordC

namespace Text

/-- The lines of a text, given the reversed beginning of the current one. A
line ends at a line feed, and a carriage return directly before it is dropped.
A text that ends in a line feed has no empty line after it. -/
def linesFrom : List Char → List Char → List (List Char)
  | [], [] => []
  | current, [] => [current.reverse]
  | '\r' :: current, '\n' :: cs => current.reverse :: linesFrom [] cs
  | current, '\n' :: cs => current.reverse :: linesFrom [] cs
  | current, c :: cs => linesFrom (c :: current) cs

/-- The lines of a text. -/
def lines (s : String) : List (List Char) :=
  linesFrom [] s.toList

/-- A text without the white space around it. -/
def trim (cs : List Char) : List Char :=
  ((cs.dropWhile isBlank).reverse.dropWhile isBlank).reverse

/-- The non-empty pieces between separators. -/
def words (isSeparator : Char → Bool) (cs : List Char) : List (List Char) :=
  (cs.splitOnP isSeparator).filter fun w => !w.isEmpty

/-- `s` filled up with spaces to `width` characters. -/
def padRight (width : Nat) (s : String) : String :=
  s.pushn ' ' (width - s.length)

/-- The column at which trailing comments begin. -/
def commentColumn : Nat := 40

/-- A line with its comment. The comment begins at the comment column, or one
column past the encoded size of a longer line. -/
def withComment (line comment : String) : String :=
  padRight (max commentColumn (line.utf8ByteSize + 1)) line ++ "; " ++ comment

end Text

end WordC
