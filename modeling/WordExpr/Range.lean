/-
  WordExpr.Range

  The shape of token ranges. A range `[lo, hi)` of a token list is analysed in place: is
  it one pair of brackets, and which operator is applied last in it? Both analyses read
  the tokens in ascending order and fail when they touch an index past the end.
-/
import WordExpr.Token

namespace WordExpr

/-- A token index past the end of the list that was touched. -/
structure MissingToken where
  index : Nat
  deriving DecidableEq, Repr

/-- The wording of a missing token. -/
def MissingToken.message (_ : MissingToken) : String := "list index out of range"

namespace Range

/-- The token at an index. -/
def tokenAt (ts : Array Token) (i : Nat) : Except MissingToken Token :=
  match ts[i]? with
  | some t => .ok t
  | none => .error ⟨i⟩

/-! ## Brackets -/

/-- Do the brackets of the `n` tokens from index `i` on pair with each other, when `depth`
    brackets are open before them? -/
def closesAll (ts : Array Token) : (i n depth : Nat) → Except MissingToken Bool
  | _, 0, depth => .ok (depth == 0)
  | i, n + 1, depth =>
    match ts[i]? with
    | none => .error ⟨i⟩
    | some t =>
      match t.kind, depth with
      | .lparen, depth => closesAll ts (i + 1) n (depth + 1)
      | .rparen, 0 => .ok false
      | .rparen, depth + 1 => closesAll ts (i + 1) n depth
      | _, depth => closesAll ts (i + 1) n depth

/-- Is the range one pair of brackets with a range inside? The first and the last token
    have to be brackets that pair with each other: `(1+2)` is such a range and `(1)+(2)`
    is not. -/
def isBracketed (ts : Array Token) (lo hi : Nat) : Except MissingToken Bool :=
  match ts[lo]? with
  | none => .error ⟨lo⟩
  | some first =>
    if first.kind ≠ .lparen then .ok false
    else match ts[hi - 1]? with
      | none => .error ⟨hi - 1⟩
      | some last =>
        if last.kind ≠ .rparen then .ok false
        else closesAll ts (lo + 1) (hi - 1 - (lo + 1)) 0

/-! ## The main operator -/

/-- An operator outside all brackets: where it is, and how loosely it binds. -/
structure Candidate where
  index : Nat
  looseness : Nat
  deriving DecidableEq, Repr

/-- Of the best candidate so far and a later one, the one that binds more loosely; the
    later one on ties, which is what makes chains associate to the left. -/
def Candidate.later (best : Option Candidate) (next : Candidate) : Option Candidate :=
  match best with
  | none => some next
  | some b => if b.looseness ≤ next.looseness then some next else some b

/-- The search for the main operator in the `n` tokens from index `i` on, when `depth`
    brackets are open before them and `best` is the best candidate so far. -/
def scanOperators (ts : Array Token) :
    (i n depth : Nat) → (best : Option Candidate) → Except MissingToken (Option Candidate)
  | _, 0, _, best => .ok best
  | i, n + 1, depth, best =>
    match ts[i]? with
    | none => .error ⟨i⟩
    | some t =>
      match t.kind, depth with
      | .lparen, depth => scanOperators ts (i + 1) n (depth + 1) best
      | .rparen, 0 => .ok none
      | .rparen, depth + 1 => scanOperators ts (i + 1) n depth best
      | .op o, 0 => scanOperators ts (i + 1) n 0 (Candidate.later best ⟨i, o.looseness⟩)
      | _, depth => scanOperators ts (i + 1) n depth best

/-- The index of the operator that a range is split on: of those outside all brackets the
    loosest, and the rightmost of several. There is none when no operator stands outside
    brackets, or when a bracket closes that was not opened in the range. -/
def mainOperator? (ts : Array Token) (lo hi : Nat) : Except MissingToken (Option Nat) :=
  (Option.map Candidate.index) <$> scanOperators ts lo (hi - lo) 0 none

/-! ## The main operator lies in the range -/

theorem Candidate.later_index {best : Option Candidate} {next c : Candidate}
    (h : later best next = some c) : best = some c ∨ c = next := by
  unfold later at h
  split at h
  · exact .inr (Option.some.inj h).symm
  · split at h
    · exact .inr (Option.some.inj h).symm
    · exact .inl h

theorem scanOperators_bounds {ts : Array Token} {i n depth : Nat} {best : Option Candidate}
    {c : Candidate} (h : scanOperators ts i n depth best = .ok (some c)) :
    best = some c ∨ (i ≤ c.index ∧ c.index < i + n) := by
  induction n generalizing i depth best with
  | zero =>
    simp only [scanOperators, Except.ok.injEq] at h
    exact .inl h
  | succ n ih =>
    simp only [scanOperators] at h
    split at h
    · simp at h
    · split at h
      · rcases ih h with h | h
        · exact .inl h
        · exact .inr (by omega)
      · simp at h
      · rcases ih h with h | h
        · exact .inl h
        · exact .inr (by omega)
      · rcases ih h with h | h
        · rcases Candidate.later_index h with h | rfl
          · exact .inl h
          · exact .inr (by simp)
        · exact .inr (by omega)
      · rcases ih h with h | h
        · exact .inl h
        · exact .inr (by omega)

theorem mainOperator?_bounds {ts : Array Token} {lo hi op : Nat}
    (h : mainOperator? ts lo hi = .ok (some op)) : lo ≤ op ∧ op < hi := by
  unfold mainOperator? at h
  cases hs : scanOperators ts lo (hi - lo) 0 none with
  | error e => rw [hs] at h; cases h
  | ok best =>
    rw [hs] at h
    cases best with
    | none => cases h
    | some c =>
      have hc : c.index = op := by
        change Except.ok (some c.index) = Except.ok (some op) at h
        simpa using h
      rcases scanOperators_bounds hs with h | h
      · cases h
      · omega

end Range

end WordExpr
