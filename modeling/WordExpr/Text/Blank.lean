/-
  WordExpr.Text.Blank

  White space of any script, and trimming by it.
-/

namespace WordExpr.Text

/-- The white space that separates words in any script: the tab, line and page controls,
    the four information separators, the next-line control and Unicode's spaces. -/
def isBlank (c : Char) : Bool :=
  let n := c.toNat
  (9 ≤ n && n ≤ 13) || (28 ≤ n && n ≤ 32) || n == 0x85 || n == 0xA0 || n == 0x1680
    || (0x2000 ≤ n && n ≤ 0x200A) || n == 0x2028 || n == 0x2029 || n == 0x202F
    || n == 0x205F || n == 0x3000

/-- The white space of ASCII texts that may surround a numeral: as `isBlank`, but without
    the information separators. -/
def isAsciiSpace (c : Char) : Bool :=
  let n := c.toNat
  (9 ≤ n && n ≤ 13) || n == 32

/-- A list without its last elements that satisfy `p`. -/
def dropEndWhile {α : Type} (p : α → Bool) (cs : List α) : List α :=
  (cs.reverse.dropWhile p).reverse

/-- A text without the blanks before it. -/
def stripStart (cs : List Char) : List Char := cs.dropWhile isBlank

/-- A text without the blanks after it. -/
def stripEnd (cs : List Char) : List Char := dropEndWhile isBlank cs

/-- A text without the blanks around it. -/
def strip (cs : List Char) : List Char := stripEnd (stripStart cs)

end WordExpr.Text
