/-
  WordExpr.Program.Check

  Checking cases. Every line that is neither blank nor a comment is a case; its expression
  is evaluated and compared with the expected value as a word. A line that should be a case
  and is none ends the check.
-/
import WordExpr.CaseLine
import WordExpr.Eval.Text
import WordExpr.RegisterFile

namespace WordExpr.Program

/-- Is the line no case: blank, or a comment? -/
def isSkipped (line : String) : Bool :=
  let cs := Text.stripStart line.toList
  cs.isEmpty || cs.head? = some '#'

/-- The result of checking a case. -/
inductive CaseResult where
  | passed
  | mismatched (expected got : Nat) (text : String)
  | failed (e : ExprError)
  deriving DecidableEq, Repr

/-- How many cases passed, had another value, and had none. -/
structure Tally where
  passed : Nat
  mismatched : Nat
  failed : Nat
  deriving DecidableEq, Repr

namespace Tally

/-- The tally of nothing. -/
def zero : Tally := ⟨0, 0, 0⟩

/-- The number of cases. -/
def total (t : Tally) : Nat := t.passed + t.mismatched + t.failed

/-- The tally with one more result. -/
def add (t : Tally) : CaseResult → Tally
  | .passed => { t with passed := t.passed + 1 }
  | .mismatched _ _ _ => { t with mismatched := t.mismatched + 1 }
  | .failed _ => { t with failed := t.failed + 1 }

/-- Did every case pass? -/
def isClean (t : Tally) : Bool := t.passed = t.total

end Tally

/-- A case that did not pass, with the number of its line. -/
structure Complaint where
  line : Nat
  result : CaseResult
  deriving DecidableEq, Repr

/-- A number in a field of a least width, blanks before it. -/
def padStart (width : Nat) (s : String) : String :=
  String.ofList (List.replicate (width - s.length) ' ') ++ s

/-- What the result of a case prints; nothing when it passed. -/
def Complaint.report (c : Complaint) : String :=
  match c.result with
  | .passed => ""
  | .mismatched expected got text =>
    head ++ "MISMATCH expected " ++ toString expected ++ ", got " ++ toString got ++ ": "
      ++ text ++ "\n"
  | .failed e => head ++ "FAIL " ++ e.message ++ "\n"
where
  head : String := "  " ++ padStart 5 (toString c.line) ++ " | "

/-- Why a check ends before the last line. -/
inductive CheckStop where
  | badCase (line : Nat) (e : Case.Failure)
  | broken (e : EvalError)
  deriving DecidableEq, Repr

/-- What is known in the course of a check. -/
structure Checked where
  tally : Tally
  complaints : Array Complaint
  log : Array LogLine

/-- Before the first line. -/
def Checked.start : Checked := ⟨.zero, #[], #[]⟩

/-- The setting in which cases are evaluated. -/
def checkSetting (regs : RegisterFile) : Setting Unit :=
  ⟨regs.bits, defaultMaxDepth, some (.pure regs.read)⟩

/-- The result of a case whose evaluation has a verdict. -/
def caseResult (expected : Nat) (text : String) (v : Verdict) : CaseResult :=
  match v.failure with
  | some e => .failed e
  | none => if v.value = expected then .passed else .mismatched expected v.value text

/-- The check with one more result. -/
def Checked.add (c : Checked) (line : Nat) (r : CaseResult) (log : List LogLine) : Checked where
  tally := c.tally.add r
  complaints := if r = .passed then c.complaints else c.complaints.push ⟨line, r⟩
  log := c.log ++ log

/-- Checks one line. -/
def checkLine (regs : RegisterFile) (number : Nat) (line : String) (c : Checked) :
    Except CheckStop Checked :=
  if isSkipped line then .ok c
  else match Case.parse line with
    | .error e => .error (.badCase number e)
    | .ok case =>
      let evaluation := (checkSetting regs).evaluate case.text Lexer.defaultMaxTokens ()
      match evaluation.verdict, Word.reduce regs.bits case.expected with
      | .error e, _ => .error (.broken e)
      | .ok _, .error e => .error (.broken (.width e))
      | .ok v, .ok expected =>
        .ok (c.add number (caseResult expected case.text v) (evaluation.verdictLog case.text))

/-- Checks lines, the first of which has this number. Answers what is known in the end,
    and why the check stopped before the last line if it did. -/
def checkFrom (regs : RegisterFile) (number : Nat) :
    List String → Checked → Checked × Option CheckStop
  | [], c => (c, none)
  | line :: rest, c =>
    match checkLine regs number line c with
    | .error stop => (c, some stop)
    | .ok c => checkFrom regs (number + 1) rest c

/-- Checks all lines. -/
def checkLines (regs : RegisterFile) (lines : List String) : Checked × Option CheckStop :=
  checkFrom regs 1 lines .start

end WordExpr.Program
