/-
  WordExpr.Program.Request

  The commands of the program and their settings: `eval` evaluates expressions, `gen`
  generates random cases, `check` checks the cases of a file, `regs` shows the registers.
  An option that was given without a value leaves its setting without one.
-/
import WordExpr.CommandLine.Parse
import WordExpr.Eval.Evaluator
import WordExpr.Generator

namespace WordExpr.Program

open CommandLine

/-- The name of the program. -/
def name : String := "exprmon"

/-- The version of the program. -/
def version : String := "1.0.0"

/-- Registers to set, and the word width. -/
structure RegisterSettings where
  assignments : List (Given String) := []
  bits : Given Int := some Word.defaultBits
  deriving DecidableEq, Repr

/-- Settings of `eval`. -/
structure EvalSettings extends RegisterSettings where
  texts : List String := []
  hex : Bool := false
  maxDepth : Given Int := some defaultMaxDepth
  deriving DecidableEq, Repr

/-- Settings of `gen`. -/
structure GenSettings where
  count : Int := 1
  /-- The seed, if one is asked for. -/
  seed : Option (Given Int) := none
  maxLen : Given Int := some Generator.defaultMaxLen
  bits : Given Int := some Word.defaultBits
  deriving DecidableEq, Repr

/-- Settings of `check`. -/
structure CheckSettings extends RegisterSettings where
  file : String := ""
  deriving DecidableEq, Repr

/-- A command with its settings. -/
inductive Command where
  | eval (s : EvalSettings)
  | gen (s : GenSettings)
  | check (s : CheckSettings)
  | regs (s : RegisterSettings)
  deriving DecidableEq, Repr

/-- What the program is asked to do, with or without a log. -/
structure Request where
  verbose : Bool
  command : Command
  deriving DecidableEq, Repr

/-! ## Grammars -/

/-- The name under which messages speak of a command. -/
def commandName (sub : String) : String := name ++ " " ++ sub

/-- The switch that asks for help. -/
def helpParam {α : Type} (command : String) : Param α :=
  .stopping ["-h", "--help"] (.help command)

/-- Widths that may be asked for. -/
def widthChoices : List Int := Width.all.map fun w => (w.size : Int)

/-- The option that assigns a register, which may be repeated. -/
def assignParam {α : Type} (add : Given String → α → α) : Param α := .text ["-r", "--reg"] add

/-- The option of the word width. -/
def bitsParam {α : Type} (command : String) (set : Given Int → α → α) : Param α :=
  .int command ["--bits"] widthChoices set

/-- What `eval` accepts. -/
def evalGrammar : Grammar EvalSettings :=
  let command := commandName "eval"
  { command := command
    options := [
      helpParam command,
      .switch ["-x", "--hex"] fun s => { s with hex := true },
      .int command ["--max-depth"] [] fun n s => { s with maxDepth := n },
      assignParam fun a s => { s with assignments := s.assignments ++ [a] },
      bitsParam command fun n s => { s with bits := n }]
    positional := some ⟨"expr", [], .several, fun ts s => .ok { s with texts := ts }⟩ }

/-- What `gen` accepts. -/
def genGrammar : Grammar GenSettings :=
  let command := commandName "gen"
  { command := command
    options := [
      helpParam command,
      .int command ["--seed"] [] fun n s => { s with seed := some n },
      .int command ["--max-len"] [] fun n s => { s with maxLen := n },
      bitsParam command fun n s => { s with bits := n }]
    positional := some ⟨"count", [], .optional, fun ts s =>
      match ts with
      | [] => .ok s
      | t :: _ => (Param.readInt command "count" t).map fun n => { s with count := n }⟩ }

/-- What `check` accepts. -/
def checkGrammar : Grammar CheckSettings :=
  let command := commandName "check"
  { command := command
    options := [
      helpParam command,
      assignParam fun a s => { s with assignments := s.assignments ++ [a] },
      bitsParam command fun n s => { s with bits := n }]
    positional := some ⟨"file", [], .one, fun ts s => .ok { s with file := ts.headD "" }⟩ }

/-- What `regs` accepts. -/
def regsGrammar : Grammar RegisterSettings :=
  let command := commandName "regs"
  { command := command
    options := [
      helpParam command,
      assignParam fun a s => { s with assignments := s.assignments ++ [a] },
      bitsParam command fun n s => { s with bits := n }]
    positional := none }

/-- How a command reads the arguments behind its name: the command with its settings, and
    what was left over. -/
abbrev CommandReader : Type := List String → Except Stop (Command × List String)

/-- The reader of a command with a grammar. -/
def readerOf {α : Type} (g : Grammar α) (defaults : α) (make : α → Command) : CommandReader :=
  fun line => (parse g defaults line).map fun (settings, rest) => (make settings, rest)

/-- The commands by their names, in the order in which they are listed. -/
def readers : List (String × CommandReader) := [
  ("eval", readerOf evalGrammar {} .eval),
  ("gen", readerOf genGrammar {} .gen),
  ("check", readerOf checkGrammar {} .check),
  ("regs", readerOf regsGrammar {} .regs)]

/-- The settings of the whole program: those before the command, and the command with what
    it left over. -/
structure MainSettings where
  verbose : Bool := false
  command : Option (Command × List String) := none

/-- Reads the command and everything behind it. -/
def takeCommand (texts : List String) (s : MainSettings) : Except Stop MainSettings :=
  let chosen := texts.headD ""
  match readers.lookup chosen with
  | none =>
    .error (.usage name (.invalidChoice "command" (Text.quoted chosen)
      (readers.map fun r => Text.quoted r.1)))
  | some read => (read (texts.drop 1)).map fun c => { s with command := some c }

/-- What the program accepts. -/
def mainGrammar : Grammar MainSettings where
  command := name
  options := [
    helpParam name,
    .stopping ["--version"] .version,
    .switch ["-v", "--verbose"] fun s => { s with verbose := true }]
  positional := some ⟨"command", [], .command, takeCommand⟩

/-- A usage error that only a whole command shows. -/
def Command.usageError? : Command → Option UsageError
  | .gen s => if s.count < 0 then some (.negativeCount s.count) else none
  | _ => none

/-- The request that a command line states. Arguments that nobody took are refused, those
    left over by the program before those left over by the command. -/
def Request.ofArguments (line : List String) : Except Stop Request :=
  match parse mainGrammar {} line with
  | .error stop => .error stop
  | .ok (s, rest) =>
    match s.command with
    | none => .error (.usage name (.missing "command"))
    | some (command, more) =>
      match rest ++ more with
      | [] =>
        match command.usageError? with
        | some e => .error (.usage name e)
        | none => .ok ⟨s.verbose, command⟩
      | texts => .error (.usage name (.unrecognized texts))

end WordExpr.Program
