/-
  WordExpr.CommandLine.Parse

  Reading a command line by a grammar. Arguments are taken from left to right: an option
  takes its arguments from behind it, and the parameter that is given by its place takes
  the first plain arguments it can. What nobody takes is left over, in order.
-/
import WordExpr.CommandLine.Classify

namespace WordExpr.CommandLine

variable {α : Type}

/-! ## How many arguments a parameter takes -/

/-- The number of arguments at the start for which a test holds. -/
def runLength (test : Role α → Bool) (args : List (Argument α)) : Nat :=
  (args.takeWhile fun a => test a.role).length

/-- Is this the separator? -/
def Role.isSeparator : Role α → Bool
  | .separator => true
  | _ => false

/-- Is this an argument that is no option? -/
def Role.isPlain : Role α → Bool
  | .plain => true
  | _ => false

/-- How many arguments at the start a parameter takes by its place, separators included;
    nothing if it cannot be satisfied. -/
def placeCount? (arity : Arity) (args : List (Argument α)) : Option Nat :=
  let before := runLength Role.isSeparator args
  let rest := args.drop before
  let first := runLength Role.isPlain (rest.take 1)
  let after := runLength Role.isSeparator (rest.drop 1)
  match arity with
  | .switch => some before
  | .optional => some (if first = 0 then before else before + 1 + after)
  | .one => if first = 0 then none else some (before + 1 + after)
  | .several =>
    if first = 0 then none else some (before + runLength (fun r => !r.isOption) rest)
  | .command => if first = 0 then none else some args.length

/-! ## Options -/

/-- What an argument with an option asks for: options with their arguments, then perhaps
    an option whose argument, if it needs one, is still to come. -/
structure Bundle (α : Type) where
  complete : List (Param α × List String)
  pending : Option (Param α)

/-- The refusal of a text that is attached to a switch. -/
def refuseAttached (g : Grammar α) (p : Param α) (text : List Char) : Except Stop (Bundle α) :=
  Param.refuse g.command (.ignoredArgument p.name (String.ofList text))

/-- Resolves what is attached to a switch of one letter. It is one more option of one letter,
    which takes what is attached in turn if it needs an argument, and is resolved in the same
    way if it is a switch. -/
def bundleLetters (g : Grammar α) (p : Param α) : List Char → Except Stop (Bundle α)
  | [] => refuseAttached g p []
  | c :: rest =>
    match g.option? (String.ofList ['-', c]) with
    | none => refuseAttached g p (c :: rest)
    | some q =>
      let behind : Except Stop (Bundle α) :=
        if rest.isEmpty then .ok ⟨[], some q⟩
        else if q.arity = .one then .ok ⟨[(q, [String.ofList rest])], none⟩
        else bundleLetters g q rest
      behind.map fun b => { b with complete := (p, []) :: b.complete }

/-- Is this the string of an option with two dashes? -/
def isLong (option : String) : Bool := "--".toList.isPrefixOf option.toList

/-- Resolves an option. -/
def bundle (g : Grammar α) (f : Found α) : Except Stop (Bundle α) :=
  match f.attached with
  | none => .ok ⟨[], some f.param⟩
  | some text =>
    if f.param.arity = .one then .ok ⟨[(f.param, [String.ofList text])], none⟩
    else if isLong f.option then refuseAttached g f.param text
    else bundleLetters g f.param text

/-- The settings after parameters were read one after the other. -/
def takeAll : List (Param α × List String) → α → Except Stop α
  | [], a => .ok a
  | (p, texts) :: rest, a =>
    match p.read texts a with
    | .error e => .error e
    | .ok a => takeAll rest a

/-! ## The whole line -/

/-- What is known in the course of reading: the settings, the parameter that is still to
    be given by its place, and what was left over. -/
structure Progress (α : Type) where
  settings : α
  open? : Option (Param α)
  leftOver : List String

/-- Reads the arguments of an option. Answers the progress and how many of the arguments
    behind it were taken. -/
def takeOption (g : Grammar α) (f : Found α) (behind : List (Argument α)) (p : Progress α) :
    Except Stop (Progress α × Nat) :=
  match bundle g f with
  | .error e => .error e
  | .ok b =>
    let pending : Except Stop (List (Param α × List String) × Nat) :=
      match b.pending with
      | none => .ok ([], 0)
      | some q =>
        match q.arity, behind with
        | .switch, _ => .ok ([(q, [])], 0)
        | _, ⟨text, .plain⟩ :: _ => .ok ([(q, [text])], 1)
        | _, _ => .error (.usage g.command (.noArgument q.name))
    match pending with
    | .error e => .error e
    | .ok (last, taken) =>
      match takeAll (b.complete ++ last) p.settings with
      | .error e => .error e
      | .ok settings => .ok ({ p with settings := settings }, taken)

/-- Reads the parameter that is given by its place, if it can be satisfied here. Answers
    the progress and how many arguments were taken. -/
def takePlace (args : List (Argument α)) (p : Progress α) : Except Stop (Progress α × Nat) :=
  match p.open? with
  | none => .ok (p, 0)
  | some q =>
    match placeCount? q.arity args with
    | none => .ok (p, 0)
    | some n =>
      match q.read ((args.take n).map Argument.text) p.settings with
      | .error e => .error e
      | .ok settings => .ok ({ p with settings := settings, open? := none }, n)

/-- Reads what is left of a command line. -/
def readArguments (g : Grammar α) (args : List (Argument α)) (p : Progress α) :
    Except Stop (Progress α) :=
  if args.any fun a => a.role.isOption then
    -- As long as options follow, plain arguments go to the parameter given by its place.
    match args with
    | [] => .ok p
    | ⟨_, .option f⟩ :: behind =>
      match takeOption g f behind p with
      | .error e => .error e
      | .ok (p, taken) => readArguments g (behind.drop taken) p
    | ⟨text, .unknownOption⟩ :: behind =>
      readArguments g behind { p with leftOver := p.leftOver ++ [text] }
    | first :: behind =>
      match takePlace (first :: behind) p with
      | .error e => .error e
      | .ok (p, taken + 1) => readArguments g (behind.drop taken) p
      | .ok (p, 0) => readArguments g behind { p with leftOver := p.leftOver ++ [first.text] }
  else
    match takePlace args p with
    | .error e => .error e
    | .ok (p, taken) =>
      .ok { p with leftOver := p.leftOver ++ (args.drop taken).map Argument.text }
termination_by args.length
decreasing_by all_goals simp only [List.length_drop, List.length_cons]; omega

/-- Must the parameter be given? -/
def Arity.isRequired : Arity → Bool
  | .one | .several | .command => true
  | .switch | .optional => false

/-- Reads a command line, starting from default settings. Answers the settings and the
    arguments that nobody took. -/
def parse (g : Grammar α) (defaults : α) (line : List String) :
    Except Stop (α × List String) :=
  match classify g line with
  | .error e => .error e
  | .ok args =>
    match readArguments g args ⟨defaults, g.positional, []⟩ with
    | .error e => .error e
    | .ok p =>
      match p.open? with
      | some q =>
        if q.arity.isRequired then .error (.usage g.command (.missing q.name))
        else .ok (p.settings, p.leftOver)
      | none => .ok (p.settings, p.leftOver)

end WordExpr.CommandLine
