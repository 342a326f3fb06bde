/-
  WordExpr.Lexer.Rule

  The lexical rules, and the two ways to choose among those that match at a position: the
  first one, which is what lexing does, and the one with the longest match.

  A rule without a kind skips what it matches. Rules of length zero never match.
-/
import WordExpr.Token
import WordExpr.Lexer.Pattern

namespace WordExpr.Lexer

/-- A lexical rule. -/
structure Rule where
  pattern : Pattern
  kind : Option TokenKind
  deriving DecidableEq, Repr

/-- A match of a rule: the rule, its index, and the number of characters matched. -/
structure Hit where
  index : Nat
  rule : Rule
  length : Nat
  deriving DecidableEq, Repr

namespace Rule

/-- The rule of an operator or bracket, which matches its spelling. -/
def spelled (kind : TokenKind) : Rule := ⟨Pattern.literal kind.spelling, some kind⟩

/-- How many characters the rule matches at the start of a text; at least one. -/
def matchLength? (r : Rule) (cs : List Char) : Option Nat :=
  (r.pattern.matchLength? cs).filter fun n => 0 < n

theorem matchLength?_pos {r : Rule} {cs : List Char} {n : Nat}
    (h : r.matchLength? cs = some n) : 0 < n := by
  simp only [matchLength?, Option.filter_eq_some_iff] at h
  simpa using h.2

theorem matchLength?_le {r : Rule} {cs : List Char} {n : Nat}
    (h : r.matchLength? cs = some n) : n ≤ cs.length := by
  simp only [matchLength?, Option.filter_eq_some_iff] at h
  exact Pattern.matchLength?_le h.1

end Rule

/-- The ASCII digits. -/
def digits : List (Char × Char) := [('0', '9')]

/-- The hexadecimal digits. -/
def hexDigits : List (Char × Char) := [('0', '9'), ('a', 'f'), ('A', 'F')]

/-- The characters of register names. -/
def nameChars : List (Char × Char) := [('A', 'Z'), ('a', 'z'), ('0', '9')]

/-- The rules of expressions, in the order in which they are tried. Hexadecimal literals
    come before decimal ones, which would otherwise take their leading zero. -/
def rules : List Rule := [
  ⟨[.many [(' ', ' '), ('\t', '\t')]], none⟩,
  .spelled (.op .add),
  .spelled (.op .sub),
  .spelled (.op .mul),
  .spelled (.op .div),
  .spelled (.op .mod),
  .spelled .lparen,
  .spelled .rparen,
  .spelled (.op .eq),
  .spelled (.op .ne),
  .spelled (.op .and),
  .spelled (.op .or),
  ⟨Pattern.literal "0x" ++ [.between 1 8 hexDigits], some .hex⟩,
  ⟨[.many digits, .maybe 'u'], some .dec⟩,
  ⟨[.char '$', .many nameChars], some .reg⟩]

/-- All matches at the start of a text, in the order of the rules. -/
def hits (rs : List Rule) (cs : List Char) : List Hit :=
  rs.zipIdx.filterMap fun (r, i) => (r.matchLength? cs).map fun n => ⟨i, r, n⟩

/-- The match of the first rule that matches. -/
def firstHit? (rs : List Rule) (cs : List Char) : Option Hit :=
  rs.zipIdx.findSome? fun (r, i) => (r.matchLength? cs).map fun n => ⟨i, r, n⟩

/-- The longest match; of several, the one of the first rule. -/
def longestHit? (rs : List Rule) (cs : List Char) : Option Hit :=
  (hits rs cs).foldl
    (fun best hit => match best with
      | none => some hit
      | some b => if b.length < hit.length then some hit else some b)
    none

theorem length_pos_of_firstHit? {rs : List Rule} {cs : List Char} {hit : Hit}
    (h : firstHit? rs cs = some hit) : 0 < hit.length := by
  obtain ⟨⟨r, i⟩, _, hr⟩ := List.exists_of_findSome?_eq_some h
  obtain ⟨n, hn, rfl⟩ := Option.map_eq_some_iff.1 hr
  exact Rule.matchLength?_pos hn

end WordExpr.Lexer
