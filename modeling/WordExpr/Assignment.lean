/-
  WordExpr.Assignment

  Assignments of values to registers, written `NAME=VALUE`. The value is a literal of
  expressions. The name may carry a `$`, which is dropped unless the register's own name
  starts with it.
-/
import WordExpr.Literal
import WordExpr.RegisterFile
import WordExpr.Text.Blank

namespace WordExpr

/-- A register name and the word to store under it. -/
structure Assignment where
  name : String
  value : Nat
  deriving DecidableEq, Repr

namespace Assignment

/-- Why a text is no assignment. -/
inductive Failure where
  /-- A part is missing. -/
  | malformed (item : String)
  /-- The value is no literal, or the width is none. -/
  | literal (e : Literal.Failure)
  deriving DecidableEq, Repr

/-- The wording of a failure. -/
def Failure.message : Failure → String
  | malformed item => "expected NAME=VALUE, got '" ++ item ++ "'"
  | literal e => e.message

/-- The name of a register without the `$` that expressions write before it. -/
def bareName (cs : List Char) : List Char :=
  match cs with
  | '$' :: c :: r => if cs = RegisterFile.hardwired.toList then cs else c :: r
  | _ => cs

/-- The assignment that a text states. -/
def parse (bits : Int) (item : String) : Except Failure Assignment :=
  let cs := item.toList
  let name := bareName (Text.strip (cs.takeWhile (· ≠ '=')))
  let value := Text.strip ((cs.dropWhile (· ≠ '=')).drop 1)
  if name.isEmpty || value.isEmpty then .error (.malformed item)
  else match Literal.value (String.ofList value) bits with
    | .error e => .error (.literal e)
    | .ok v => .ok ⟨String.ofList name, v⟩

/-- The assignments that texts state, or the failure of the first that states none. -/
def parseAll (bits : Int) : List String → Except Failure (List Assignment)
  | [] => .ok []
  | item :: rest =>
    match parse bits item with
    | .error e => .error e
    | .ok a =>
      match parseAll bits rest with
      | .error e => .error e
      | .ok as => .ok (a :: as)

end Assignment

end WordExpr
