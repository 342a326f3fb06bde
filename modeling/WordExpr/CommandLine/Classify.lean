/-
  WordExpr.CommandLine.Classify

  Which arguments of a command line are options. An argument that starts with a dash is
  one, unless it is a dash alone, looks like a negative number or holds a space; options
  may be shortened as long as that is unambiguous, and may carry an argument in the same
  string. After the separator `--` there are no options.
-/
import WordExpr.CommandLine.Grammar

namespace WordExpr.CommandLine

variable {α : Type}

/-- An option as it is found in an argument. -/
structure Found (α : Type) where
  param : Param α
  /-- The string that introduces it, in full. -/
  option : String
  /-- What the same argument holds behind that string, an equals sign left out. -/
  attached : Option (List Char)

/-- What an argument is. -/
inductive Role (α : Type) where
  | plain
  | separator
  | option (f : Found α)
  /-- An option that the command does not have. -/
  | unknownOption

/-- An argument of a command line with its role. -/
structure Argument (α : Type) where
  text : String
  role : Role α

/-- Is this the role of an option? -/
def Role.isOption : Role α → Bool
  | .option _ | .unknownOption => true
  | _ => false

/-- A text at its first equals sign, if it has one. -/
def splitEquals (cs : List Char) : List Char × Option (List Char) :=
  (cs.takeWhile (· ≠ '='), (cs.dropWhile (· ≠ '=')).tail?)

/-- Options that an argument with two dashes may be short for. -/
def longCandidates (g : Grammar α) (cs : List Char) : List (Found α) :=
  let (name, rest) := splitEquals cs
  (g.optionStrings.filter fun o => name.isPrefixOf o.1.toList).map fun o =>
    ⟨o.2, o.1, rest⟩

/-- Options that an argument with one dash may stand for: an option of one letter with its
    argument behind it, or a longer one that is cut short. -/
def shortCandidates (g : Grammar α) (cs : List Char) : List (Found α) :=
  g.optionStrings.filterMap fun o =>
    if o.1.toList = cs.take 2 then some ⟨o.2, o.1, some (cs.drop 2)⟩
    else if cs.isPrefixOf o.1.toList then some ⟨o.2, o.1, none⟩
    else none

/-- Does a text look like a negative number: a dash, then digits, perhaps with a point
    among them or before them? A line feed at the end does not count. -/
def looksNegative (cs : List Char) : Bool :=
  match cs with
  | '-' :: body =>
    let body := if body.getLast? = some '\n' then body.dropLast else body
    match (body.dropWhile Text.isDecimal) with
    | [] => !body.isEmpty
    | '.' :: digits => !digits.isEmpty && digits.all Text.isDecimal
    | _ => false
  | _ => false

/-- The role of an argument before the separator. -/
def roleOf (g : Grammar α) (s : String) : Except Stop (Role α) :=
  let cs := s.toList
  match cs with
  | '-' :: second :: _ =>
    match g.option? s with
    | some p => .ok (.option ⟨p, s, none⟩)
    | none =>
      let (name, rest) := splitEquals cs
      match g.option? (String.ofList name), rest with
      | some p, some text => .ok (.option ⟨p, String.ofList name, some text⟩)
      | _, _ =>
        match if second = '-' then longCandidates g cs else shortCandidates g cs with
        | [f] => .ok (.option f)
        | [] =>
          if looksNegative cs || cs.contains ' ' then .ok .plain else .ok .unknownOption
        | fs => .error (.usage g.command (.ambiguous s (fs.map Found.option)))
  | _ => .ok .plain

/-- The arguments of a command line with their roles. -/
def classify (g : Grammar α) : List String → Except Stop (List (Argument α))
  | [] => .ok []
  | s :: rest =>
    if s = separator then .ok (⟨s, .separator⟩ :: rest.map (⟨·, .plain⟩))
    else match roleOf g s with
      | .error e => .error e
      | .ok role =>
        match classify g rest with
        | .error e => .error e
        | .ok args => .ok (⟨s, role⟩ :: args)

end WordExpr.CommandLine
