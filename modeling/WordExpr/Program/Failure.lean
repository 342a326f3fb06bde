/-
  WordExpr.Program.Failure

  Why a command fails. A `CommandError` is the user's to mend; anything else is reported as
  unexpected, with the class that it belongs to.
-/
import WordExpr.Assignment
import WordExpr.CaseLine
import WordExpr.Eval.Error
import WordExpr.Generator
import WordExpr.Random.Twister
import WordExpr.Text.Utf8

namespace WordExpr.Program

/-- Why a file is not read. -/
inductive Unreadable where
  | notFound
  | isDirectory
  | other (reason : String)
  deriving DecidableEq, Repr

/-- The wording of a reason. -/
def Unreadable.message : Unreadable → String
  | notFound => "No such file or directory"
  | isDirectory => "Is a directory"
  | other reason => reason

/-- What a user can do wrong in a command. -/
inductive CommandError where
  | expr (e : ExprError)
  | assignment (e : Assignment.Failure)
  | unknownRegister (name : String)
  | unreadable (path : String) (reason : Unreadable)
  | badCase (path : String) (line : Nat) (e : Case.Failure)
  deriving DecidableEq, Repr

/-- The wording of an error. -/
def CommandError.message : CommandError → String
  | expr e => e.message
  | assignment e => e.message
  | unknownRegister name => "unknown register '" ++ name ++ "'"
  | unreadable path reason => "cannot read '" ++ path ++ "': " ++ reason.message
  | badCase path line e => path ++ ":" ++ toString line ++ ": " ++ e.message

/-- The class of an error that nobody expected. -/
inductive ErrorClass where
  | value
  | index
  | runtime
  | decoding
  | wrongType
  | noAttribute
  deriving DecidableEq, Repr

/-- The name of a class. -/
def ErrorClass.name : ErrorClass → String
  | value => "ValueError"
  | index => "IndexError"
  | runtime => "RuntimeError"
  | decoding => "UnicodeDecodeError"
  | wrongType => "TypeError"
  | noAttribute => "AttributeError"

/-- What the value of an option was needed for that was given without one. -/
inductive MissingValue where
  /-- An assignment, to be taken apart. -/
  | assignment
  /-- The width, to look it up among those of words. -/
  | width
  /-- The width, to count the digits of a word. -/
  | digits
  /-- The width, to count the literals to choose from. -/
  | literals
  /-- The limit of nesting, to compare a depth with it. -/
  | maxDepth
  /-- The size of the buffer, to take a part of it. -/
  | maxLen
  /-- The seed, to start from it. -/
  | seed
  deriving DecidableEq, Repr

namespace MissingValue

/-- The class of a failure for want of a value. -/
def errorClass : MissingValue → ErrorClass
  | assignment => .noAttribute
  | seed => .value
  | _ => .wrongType

/-- The wording of a failure for want of a value, in whose place an empty list is found. -/
def message : MissingValue → String
  | assignment => "'list' object has no attribute 'partition'"
  | width => "unhashable type: 'list'"
  | digits | maxLen => "unsupported operand type(s) for //: 'list' and 'int'"
  | literals => "unsupported operand type(s) for <<: 'int' and 'list'"
  | maxDepth => "'>' not supported between instances of 'int' and 'list'"
  | seed => "Seed must be non-empty"

end MissingValue

/-- Why a command fails. -/
inductive Failure where
  | command (e : CommandError)
  | unexpected (cls : ErrorClass) (message : String)
  deriving DecidableEq, Repr

namespace Failure

/-- The failure of an evaluation. -/
def ofEval : EvalError → Failure
  | .expr e => .command (.expr e)
  | .missingToken m => .unexpected .index m.message
  | e => .unexpected .value e.message

/-- The failure for want of a value. -/
def ofMissing (m : MissingValue) : Failure := .unexpected m.errorClass m.message

/-- The failure to look for a file whose name holds a null character. -/
def nullInName : Failure := .unexpected .value "embedded null byte"

/-- The failure to read a text. -/
def ofUtf8 (e : Text.Utf8.Error) : Failure := .unexpected .decoding e.message

/-- The failure to start a generator. -/
def ofSeed (e : Random.SeedError) : Failure := .unexpected .value e.message

/-- The class of a generator's failure. -/
def generatorClass : Generator.Failure → ErrorClass
  | .exhausted | .unfinished => .runtime
  | _ => .value

/-- The failure of a generator. -/
def ofGenerator (e : Generator.Failure) : Failure := .unexpected (generatorClass e) e.message

/-- The exit code of a failure. -/
def exitCode : Failure → Nat
  | command _ => 1
  | unexpected _ _ => 2

/-- What a failure prints. -/
def report : Failure → String
  | command e => "Error: " ++ e.message ++ "\n"
  | unexpected cls message => "\nUnexpected error: " ++ cls.name ++ ": " ++ message ++ "\n"

end Failure

end WordExpr.Program
