/-
  WordExpr.CommandLine.Grammar

  What a command accepts: options, which are introduced by their own strings, and at most
  one parameter that is given by its place. Reading a parameter changes the settings, a
  value of the command's own type, or stops the program.
-/
import WordExpr.Numeral

namespace WordExpr.CommandLine

/-- What is wrong with a command line. -/
inductive UsageError where
  /-- A shortened option could be several options. -/
  | ambiguous (option : String) (candidates : List String)
  /-- A switch was given an argument. -/
  | ignoredArgument (parameter text : String)
  /-- An option lacks its argument. -/
  | noArgument (parameter : String)
  | notAnInteger (parameter text : String)
  /-- A value is not among those that will do, which are listed. -/
  | invalidChoice (parameter shown : String) (choices : List String)
  | missing (parameter : String)
  | unrecognized (texts : List String)
  | negativeCount (count : Int)
  deriving DecidableEq, Repr

/-- The wording of an error. -/
def UsageError.message : UsageError → String
  | ambiguous option candidates =>
    "ambiguous option: " ++ option ++ " could match " ++ ", ".intercalate candidates
  | ignoredArgument parameter text =>
    of parameter ("ignored explicit argument " ++ Text.quoted text)
  | noArgument parameter => of parameter "expected one argument"
  | notAnInteger parameter text => of parameter ("invalid int value: " ++ Text.quoted text)
  | invalidChoice parameter shown choices =>
    of parameter
      ("invalid choice: " ++ shown ++ " (choose from " ++ ", ".intercalate choices ++ ")")
  | missing parameter => "the following arguments are required: " ++ parameter
  | unrecognized texts => "unrecognized arguments: " ++ " ".intercalate texts
  | negativeCount count => "count must be >= 0, got " ++ toString count
where
  of (parameter message : String) : String := "argument " ++ parameter ++ ": " ++ message

/-- Why a command line is not carried out. -/
inductive Stop where
  /-- A command of this name is used wrongly. -/
  | usage (command : String) (e : UsageError)
  /-- The help for a command is asked for. -/
  | help (command : String)
  /-- The version is asked for. -/
  | version
  deriving DecidableEq, Repr

/-- How many arguments a parameter takes. -/
inductive Arity where
  /-- None: a switch. -/
  | switch
  /-- Exactly one. -/
  | one
  /-- One or none. -/
  | optional
  /-- One or more, until the next option. -/
  | several
  /-- One, and everything behind it. -/
  | command
  deriving DecidableEq, Repr

/-- The argument behind which there are no options. -/
def separator : String := "--"

/-- The value of an option that was given: none if no argument is left for it. -/
abbrev Given (α : Type) : Type := Option α

/-- A parameter of a command with settings in `α`. -/
structure Param (α : Type) where
  /-- The name under which messages speak of it. -/
  name : String
  /-- The strings that introduce it; none if it is given by its place. -/
  options : List String
  arity : Arity
  /-- The settings after these arguments of the parameter were taken up. -/
  take : List String → α → Except Stop α

/-- What a command accepts. -/
structure Grammar (α : Type) where
  /-- The command's name. -/
  command : String
  options : List (Param α)
  positional : Option (Param α)

namespace Grammar

variable {α : Type}

/-- Every string that introduces an option, with the option, in order. -/
def optionStrings (g : Grammar α) : List (String × Param α) :=
  g.options.flatMap fun p => p.options.map (·, p)

/-- The option that a string introduces. -/
def option? (g : Grammar α) (s : String) : Option (Param α) := g.optionStrings.lookup s

end Grammar

namespace Param

variable {α : Type}

/-- Fails with a usage error of a command. -/
def refuse {β : Type} (command : String) (e : UsageError) : Except Stop β :=
  .error (.usage command e)

/-- A switch. -/
def switch (options : List String) (set : α → α) : Param α :=
  ⟨"/".intercalate options, options, .switch, fun _ a => .ok (set a)⟩

/-- A switch that stops the program. -/
def stopping (options : List String) (stop : Stop) : Param α :=
  ⟨"/".intercalate options, options, .switch, fun _ _ => .error stop⟩

/-- The settings after a parameter was given these arguments. The first separator among them
    is dropped, unless they are for a command of its own; so an option to which the separator
    is attached is given without a value. -/
def read (p : Param α) (texts : List String) : α → Except Stop α :=
  p.take (if p.arity = .command then texts else texts.erase separator)

/-- An option with one text. -/
def text (options : List String) (set : Given String → α → α) : Param α :=
  ⟨"/".intercalate options, options, .one, fun ss a => .ok (set ss.head? a)⟩

/-- The integer that an argument of a command's parameter states. -/
def readInt (command parameter s : String) : Except Stop Int :=
  match Numeral.read .decimal s with
  | .ok n => .ok n
  | .error _ => refuse command (.notAnInteger parameter s)

/-- An option with one integer, which has to be among the choices if there are any. -/
def int (command : String) (options : List String) (choices : List Int)
    (set : Given Int → α → α) : Param α :=
  let name := "/".intercalate options
  ⟨name, options, .one, fun ss a =>
    match ss with
    | [] => .ok (set none a)
    | s :: _ =>
      match readInt command name s with
      | .error stop => .error stop
      | .ok n =>
        if choices.isEmpty || choices.contains n then .ok (set (some n) a)
        else refuse command (.invalidChoice name (toString n) (choices.map toString))⟩

end Param

end WordExpr.CommandLine
