/-
  WordExpr.Lexer.Pattern

  Lexical patterns as data. A pattern is a sequence of pieces; a piece takes as many
  characters of its class as it can, up to its limit, and fails when it cannot take its
  least number. A piece never gives characters back, so matching is one pass over the
  text, and the result is the length of the match.

  `Pattern.source` writes a pattern as a regular expression, which is how traces name it.
-/

namespace WordExpr.Lexer

/-- A class of characters: the closed ranges that it consists of. -/
structure CharClass where
  ranges : List (Char × Char)
  deriving DecidableEq, Repr

namespace CharClass

/-- The class of one character. -/
def single (c : Char) : CharClass := ⟨[(c, c)]⟩

/-- Does the class hold the character? -/
def contains (k : CharClass) (c : Char) : Bool :=
  k.ranges.any fun r => r.1 ≤ c && c ≤ r.2

/-- Characters that mean something else in a regular expression when they stand alone. -/
def special : List Char :=
  ['\\', '.', '^', '$', '*', '+', '?', '(', ')', '[', ']', '|', '\x7b', '\x7d']

/-- One character of a regular expression outside brackets. -/
def sourceChar (c : Char) : String :=
  if special.contains c then String.ofList ['\\', c] else c.toString

/-- One character of a regular expression inside brackets. -/
def sourceRangeChar (c : Char) : String :=
  if c = '\t' then "\\t" else c.toString

/-- The class as a regular expression. -/
def source (k : CharClass) : String :=
  match k.ranges with
  | [(lo, hi)] => if lo = hi then sourceChar lo else bracketed
  | _ => bracketed
where
  bracketed : String :=
    "[" ++ String.join (k.ranges.map fun r =>
      if r.1 = r.2 then sourceRangeChar r.1
      else sourceRangeChar r.1 ++ "-" ++ sourceRangeChar r.2) ++ "]"

end CharClass

/-- A run of characters of one class. -/
structure Piece where
  chars : CharClass
  least : Nat
  most : Option Nat
  deriving DecidableEq, Repr

namespace Piece

/-- Exactly this character. -/
def char (c : Char) : Piece := ⟨.single c, 1, some 1⟩

/-- One or more characters of a class. -/
def many (ranges : List (Char × Char)) : Piece := ⟨⟨ranges⟩, 1, none⟩

/-- Between `least` and `most` characters of a class. -/
def between (least most : Nat) (ranges : List (Char × Char)) : Piece :=
  ⟨⟨ranges⟩, least, some most⟩

/-- This character, or nothing. -/
def maybe (c : Char) : Piece := ⟨.single c, 0, some 1⟩

/-- How many characters the piece takes at the start of a text. -/
def matchLength? (p : Piece) (cs : List Char) : Option Nat :=
  let run := (cs.takeWhile p.chars.contains).length
  if run < p.least then none
  else match p.most with
    | none => some run
    | some m => some (min run m)

/-- The piece as a regular expression. -/
def source (p : Piece) : String :=
  p.chars.source ++
    match p.least, p.most with
    | 1, some 1 => ""
    | 1, none => "+"
    | 0, none => "*"
    | 0, some 1 => "?"
    | n, none => "\x7b" ++ toString n ++ ",\x7d"
    | n, some m => "\x7b" ++ toString n ++ "," ++ toString m ++ "\x7d"

theorem matchLength?_le {p : Piece} {cs : List Char} {n : Nat}
    (h : p.matchLength? cs = some n) : n ≤ cs.length := by
  have hrun : (cs.takeWhile p.chars.contains).length ≤ cs.length :=
    (List.takeWhile_sublist _).length_le
  simp only [matchLength?] at h
  split at h
  · simp at h
  · split at h <;> simp only [Option.some.injEq] at h <;> omega

end Piece

/-- A sequence of pieces. -/
abbrev Pattern : Type := List Piece

namespace Pattern

/-- The pattern of a fixed text. -/
def literal (s : String) : Pattern := s.toList.map Piece.char

/-- How many characters the pattern takes at the start of a text. -/
def matchLength? : Pattern → List Char → Option Nat
  | [], _ => some 0
  | p :: ps, cs =>
    match p.matchLength? cs with
    | none => none
    | some n => (matchLength? ps (cs.drop n)).map (n + ·)

/-- The pattern as a regular expression. -/
def source (ps : Pattern) : String := String.join (ps.map Piece.source)

theorem matchLength?_le {ps : Pattern} {cs : List Char} {n : Nat}
    (h : matchLength? ps cs = some n) : n ≤ cs.length := by
  induction ps generalizing cs n with
  | nil =>
    simp only [matchLength?, Option.some.injEq] at h
    omega
  | cons p ps ih =>
    simp only [matchLength?] at h
    split at h
    · simp at h
    · rename_i k hk
      obtain ⟨m, hm, rfl⟩ := Option.map_eq_some_iff.1 h
      have h₁ := Piece.matchLength?_le hk
      have h₂ := ih hm
      simp only [List.length_drop] at h₂
      omega

end Pattern

end WordExpr.Lexer
