/-
  WordExpr.Program.Run

  Carrying out a request. All a command needs from outside is the contents of a file and a
  random word; the outcome is an exit code and what is printed, in which the time that a
  check took is left open.
-/
import WordExpr.Program.Check
import WordExpr.Program.Failure
import WordExpr.Program.Request
import WordExpr.Text.Lines

namespace WordExpr.Program

/-- What is printed: text, or the time taken. -/
inductive Piece where
  | text (s : String)
  | elapsed
  deriving DecidableEq, Repr

/-- The text of what is printed, given the time taken. -/
def renderPieces (elapsed : String) (ps : List Piece) : String :=
  String.join (ps.map fun
    | .text s => s
    | .elapsed => elapsed)

/-- The outcome of a run. -/
structure Outcome where
  exit : Nat
  stdout : List Piece
  stderr : String
  deriving DecidableEq, Repr

/-- The contents of a file, or why it is not read. -/
abbrev Contents : Type := Except Unreadable (List UInt8)

/-- The file that a request reads; a dash is the standard input. -/
def Request.file? (r : Request) : Option String :=
  match r.command with
  | .check s => some s.file
  | _ => none

/-- The file name that stands for the standard input. -/
def stdinName : String := "-"

/-- What a command has printed and logged, and why it failed if it did. -/
structure Run where
  exit : Nat
  printed : List Piece
  log : List LogLine
  failure : Option Failure

/-- The run of a command that fails before it prints anything. -/
def Run.failed (e : Failure) : Run := ⟨0, [], [], some e⟩

/-- The run of a command that does its work. -/
def Run.done (printed : List Piece) (log : List LogLine) : Run := ⟨0, printed, log, none⟩

/-! ## Values that are missing

A setting without a value fails where it is first used. A width or a limit of nesting is used
in the midst of an evaluation, so one that fails at its first use stands in for it, and the
failure is named for what is missing. -/

/-- Stands for a width or a limit that was given without a value: it is the width of no word,
    and every depth exceeds it. -/
def standIn : Int := -1

/-- The failure of an assignment. -/
def assignmentFailure (bits : CommandLine.Given Int) (e : Assignment.Failure) : Failure :=
  match e, bits with
  | .literal (.width _), none => .ofMissing .width
  | e, _ => .command (.assignment e)

/-- The failure of an evaluation. -/
def evalFailure (s : EvalSettings) (e : EvalError) : Failure :=
  match e, s.maxDepth, s.bits with
  | .expr (.nestingTooDeep _), none, _ => .ofMissing .maxDepth
  | .width _, _, none => .ofMissing .width
  | e, _, _ => .ofEval e

/-! ## Registers -/

/-- The registers after words were stored in them in order, each of which has to exist. -/
def storeAll (r : RegisterFile) : List Assignment → Except Failure RegisterFile
  | [] => .ok r
  | a :: rest =>
    match r.set a.name a.value with
    | .ok r => storeAll r rest
    | .error (.unknown name) => .error (.command (.unknownRegister name))
    | .error (.width e) => .error (.unexpected .value e.message)

/-- The assignments asked for, up to the first one without a text. -/
def RegisterSettings.items (s : RegisterSettings) : List String :=
  (s.assignments.takeWhile Option.isSome).filterMap id

/-- If every assignment has a text, all texts are there. -/
theorem RegisterSettings.items_map_some (texts : List String) (bits : CommandLine.Given Int) :
    (RegisterSettings.mk (texts.map some) bits).items = texts := by
  induction texts with
  | nil => rfl
  | cons t rest ih => simpa [items] using ih

/-- The register file that a command works on. -/
def buildRegisters (s : RegisterSettings) : Except Failure RegisterFile :=
  let bits := s.bits.getD standIn
  match Assignment.parseAll bits s.items with
  | .error e => .error (assignmentFailure s.bits e)
  | .ok assignments =>
    if s.assignments.contains none then .error (.ofMissing .assignment)
    else storeAll (.create RegisterFile.riscv bits) assignments

/-! ## Commands -/

/-- A word in hexadecimal, padded to the width. -/
def hexWord (bits : Int) (value : Nat) : String :=
  "0x" ++ String.ofList (Text.hexDigits (bits.toNat / 4) value)

/-- A word as it is printed. -/
def showWord (bits : Int) (hex : Bool) (value : Nat) : String :=
  if hex then hexWord bits value else toString value

/-- Evaluates expressions and prints their values until one fails. -/
def evalAll (s : EvalSettings) (regs : RegisterFile) : List String → Run
  | [] => .done [] []
  | text :: rest =>
    let bits := s.bits.getD standIn
    let setting : Setting Unit := ⟨bits, s.maxDepth.getD standIn, some (.pure regs.read)⟩
    let evaluation := setting.evaluate text Lexer.defaultMaxTokens ()
    match evaluation.result with
    | .error e => ⟨0, [], evaluation.log, some (evalFailure s e)⟩
    | .ok value =>
      let more := evalAll s regs rest
      { more with
        printed := .text (showWord bits s.hex value ++ "\n") :: more.printed
        log := evaluation.log ++ more.log }

/-- The command `eval`. -/
def runEval (s : EvalSettings) : Run :=
  match buildRegisters s.toRegisterSettings with
  | .error e => .failed e
  | .ok regs => evalAll s regs s.texts

/-- The generator of a seed, or of a random word if there is none. -/
def twisterOf (seed : Option (CommandLine.Given Int)) (entropy : UInt32) :
    Except Failure Random.Twister :=
  match seed with
  | none => .ok (.ofWord entropy)
  | some none => .error (.ofMissing .seed)
  | some (some seed) => (Random.Twister.ofSeed seed).mapError .ofSeed

/-- Generates so many cases. -/
def generateAll (g : Generator) (count : Nat) (twister : Random.Twister) : Run :=
  let (cases, failure, _) := g.cases Random.Twister.source count twister
  { exit := 0
    printed := cases.map fun c => .text (c.format ++ "\n")
    log := []
    failure := failure.map .ofGenerator }

/-- The command `gen`. The first draft is measured before its first literal is chosen, so the
    size of the buffer is used before the width. -/
def runGen (s : GenSettings) (entropy : UInt32) : Run :=
  match twisterOf s.seed entropy with
  | .error e => .failed e
  | .ok twister =>
    match s.count.toNat, s.maxLen, s.bits with
    | 0, _, _ => .done [] []
    | _ + 1, none, _ => .failed (.ofMissing .maxLen)
    | _ + 1, some _, none => .failed (.ofMissing .literals)
    | count + 1, some maxLen, some bits =>
      generateAll ⟨maxLen, Generator.defaultOps, bits, Generator.defaultLevels⟩ (count + 1) twister

/-- The last line of a check. -/
def summary (t : Tally) : List Piece :=
  [.text ("\n" ++ toString t.total ++ " cases: " ++ toString t.passed ++ " passed, "
    ++ toString t.mismatched ++ " mismatched, " ++ toString t.failed ++ " failed ("),
   .elapsed, .text ")\n"]

/-- What a check prints. -/
def checkRun (file : String) (c : Checked) (stop : Option CheckStop) : Run :=
  let complaints := c.complaints.toList.map fun c => Piece.text c.report
  match stop with
  | some (.badCase line e) =>
    ⟨0, complaints, c.log.toList, some (.command (.badCase file line e))⟩
  | some (.broken e) => ⟨0, complaints, c.log.toList, some (.ofEval e)⟩
  | none =>
    ⟨if c.tally.isClean then 0 else 1, complaints ++ summary c.tally, c.log.toList, none⟩

/-- The lines of a file. A name with a null character is refused before any file is looked
    for. -/
def readLines (path : String) (contents : Contents) : Except Failure (List String) :=
  if path.toList.contains '\x00' then .error .nullInName
  else match contents with
    | .error reason => .error (.command (.unreadable path reason))
    | .ok bytes =>
      match Text.Utf8.decode bytes with
      | .error e => .error (.ofUtf8 e)
      | .ok cs => .ok (Text.lines cs).toList

/-- The command `check`. -/
def runCheck (s : CheckSettings) (contents : Contents) : Run :=
  match buildRegisters s.toRegisterSettings, s.bits with
  | .error e, _ => .failed e
  | .ok _, none => .failed (.ofMissing .width)
  | .ok regs, some _ =>
    match readLines s.file contents with
    | .error e => .failed e
    | .ok lines =>
      let (c, stop) := checkLines regs lines
      checkRun s.file c stop

/-- A text in a field of a least width, blanks behind it. -/
def padEnd (width : Nat) (s : String) : String :=
  s ++ String.ofList (List.replicate (width - s.length) ' ')

/-- The line of a register. -/
def registerLine (bits : Int) (name : String) (value : Nat) : String :=
  padEnd 4 name ++ " " ++ hexWord bits value ++ " " ++ toString value ++ "\n"

/-- The command `regs`. -/
def runRegs (s : RegisterSettings) : Run :=
  match buildRegisters s, s.bits with
  | .error e, _ => .failed e
  | .ok _, none => .failed (.ofMissing .digits)
  | .ok regs, some bits =>
    .done (regs.dump.map fun (name, value) => .text (registerLine bits name value)) []

/-! ## The program -/

/-- A line of the log as it is printed. -/
def logText (l : LogLine) : String := l.channel.name ++ " - DEBUG - " ++ l.message ++ "\n"

/-- The outcome of a run: the log comes out on the standard error if it is asked for, and
    a failure behind it. -/
def Run.outcome (r : Run) (verbose : Bool) : Outcome where
  exit := (r.failure.map Failure.exitCode).getD r.exit
  stdout := r.printed
  stderr := (if verbose then String.join (r.log.map logText) else "")
    ++ (r.failure.map Failure.report).getD ""

/-- Carries out a request, given the contents of the file that it reads and a random word. -/
def Request.run (r : Request) (contents : Contents) (entropy : UInt32) : Outcome :=
  let run := match r.command with
    | .eval s => runEval s
    | .gen s => runGen s entropy
    | .check s => runCheck s contents
    | .regs s => runRegs s
  run.outcome r.verbose

/-- What a command needs to be told, in short. -/
def helpText (command : String) : String := "usage: " ++ command ++ " [-h] ...\n"

/-- The outcome of a command line that is not carried out. -/
def stopOutcome : CommandLine.Stop → Outcome
  | .usage command e => ⟨2, [], command ++ ": error: " ++ e.message ++ "\n"⟩
  | .help command => ⟨0, [.text (helpText command)], ""⟩
  | .version => ⟨0, [.text (name ++ " " ++ version ++ "\n")], ""⟩

end WordExpr.Program
