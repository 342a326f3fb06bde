/-
  WordExpr.CaseLine

  Test cases, one to a line: the expected value, a space, and the expression.
-/
import WordExpr.Numeral

namespace WordExpr

/-- A test case. -/
structure Case where
  expected : Int
  text : String
  deriving DecidableEq, Repr

namespace Case

/-- Why a line is no test case. -/
inductive Failure where
  /-- A part is missing. -/
  | malformed (line : String)
  /-- The expected value is no decimal numeral. -/
  | numeral (e : Numeral.Failure)
  deriving DecidableEq, Repr

/-- The wording of a failure. -/
def Failure.message : Failure → String
  | malformed line => "Malformed case line: '" ++ line ++ "'"
  | numeral e => e.message

/-- The line of a case. -/
def format (c : Case) : String := toString c.expected ++ " " ++ c.text

/-- The case of a line. Blanks around the line and around the expression do not count. -/
def parse (line : String) : Except Failure Case :=
  let cs := Text.strip line.toList
  let head := cs.takeWhile (· ≠ ' ')
  let text := Text.strip ((cs.dropWhile (· ≠ ' ')).drop 1)
  if head.isEmpty || text.isEmpty then .error (.malformed (String.ofList cs))
  else match Numeral.read .decimal (String.ofList head) with
    | .error e => .error (.numeral e)
    | .ok expected => .ok ⟨expected, String.ofList text⟩

end Case

end WordExpr
