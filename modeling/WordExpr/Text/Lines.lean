/-
  WordExpr.Text.Lines

  Splitting a text into lines. A line ends with a line feed, a carriage return or both,
  and keeps a line feed as its last character; only the last line may lack it.
-/

namespace WordExpr.Text

/-- The text with every line end written as a line feed, in reverse, behind what was
    written so far. -/
def unifyOnto (written : List Char) : List Char → List Char
  | [] => written
  | '\r' :: '\n' :: r => unifyOnto ('\n' :: written) r
  | '\r' :: r => unifyOnto ('\n' :: written) r
  | c :: r => unifyOnto (c :: written) r

/-- The text with every line end written as a line feed. -/
def unifyLineEnds (cs : List Char) : List Char := (unifyOnto [] cs).reverse

/-- The lines of a text whose lines end with line feeds, when the current line has begun
    with some characters, in reverse, and other lines came before it. -/
def splitLinesOnto (lines : Array String) (begun : List Char) : List Char → Array String
  | [] => if begun.isEmpty then lines else lines.push (String.ofList begun.reverse)
  | '\n' :: r => splitLinesOnto (lines.push (String.ofList ('\n' :: begun).reverse)) [] r
  | c :: r => splitLinesOnto lines (c :: begun) r

/-- The lines of a text. -/
def lines (cs : List Char) : Array String := splitLinesOnto #[] [] (unifyLineEnds cs)

end WordExpr.Text
