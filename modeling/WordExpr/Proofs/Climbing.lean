/-
  WordExpr.Proofs.Climbing

  Climbing precedences reads trees of numerals. On the lexemes of a canonical tree it computes
  the value of the tree from the bottom up, whatever stands behind them that does not bind
  tighter (`Climb.read_binary_lexemes`); lexemes that have a value at all are those of a
  canonical tree (`Climb.exists_tree_of_valueOf`), and of one only (`Tree.lexemes_injective`).

  Both directions carry the same condition along: a call that reads operators of strength
  `least` or more stops before an operator that is weaker. Ranks and strengths order the
  operators in opposite directions, and add up to 4.

  The functions of climbing answer readings, which know how much of a list is left; `read`
  forgets that, and its equations are all that the proofs use of these functions.
-/
import WordExpr.Proofs.Expression
import WordExpr.Proofs.Meaning

namespace WordExpr

namespace Climb

variable {bits : Int} {least left : Nat} {ls rest : List Lexeme} {o : BinOp}

/-! ## Equations -/

/-- A reading as the value read and the lexemes left. -/
def read {n : Nat} (e : Except Failure (Reading n)) : Except Failure (Nat × List Lexeme) :=
  (fun r => (r.value, r.rest)) <$> e

theorem length_lt_of_read {n v : Nat} {e : Except Failure (Reading n)}
    (h : read e = .ok (v, rest)) : rest.length < n := by
  cases e with
  | error e => cases h
  | ok r =>
    cases h
    exact r.fits

theorem read_binary (bits : Int) (least : Nat) (ls : List Lexeme) :
    read (binary bits least ls)
      = read (atom bits ls) >>= fun r => read (chain bits least r.1 r.2) := by
  rw [binary.eq_def]
  cases atom bits ls with
  | error e => rfl
  | ok r =>
    show _ = read (chain bits least r.value r.rest)
    simp only
    cases chain bits least r.value r.rest <;> rfl

theorem read_atom_lparen (bits : Int) (rest : List Lexeme) :
    read (atom bits (.lparen :: rest))
      = read (binary bits 0 rest) >>= fun r => match r with
        | (v, .rparen :: after) => .ok (v, after)
        | _ => .error .missingParenthesis := by
  rw [atom.eq_def]
  simp only
  cases binary bits 0 rest with
  | error e => rfl
  | ok r =>
    obtain ⟨v, ls, fits⟩ := r
    cases ls with
    | nil => rfl
    | cons l ls => cases l <;> rfl

theorem read_atom_numeral (bits : Int) (text : String) (rest : List Lexeme) :
    read (atom bits (.numeral text :: rest))
      = numeralValue bits text >>= fun v => .ok (v, rest) := by
  rw [atom.eq_def]
  simp only
  cases numeralValue bits text <;> rfl

/-- No operator of this strength or more comes next. -/
def Stops (least : Nat) (ls : List Lexeme) : Prop :=
  ∀ o strength, ls.head? = some (.op o) → strength? o = some strength → strength < least

theorem stops_nil (least : Nat) : Stops least [] := by
  intro o strength h
  cases h

theorem stops_rparen (least : Nat) (rest : List Lexeme) : Stops least (.rparen :: rest) := by
  intro o strength h
  cases h

theorem stops_op {strength : Nat} (hs : strength? o = some strength) (hlt : strength < least)
    (rest : List Lexeme) : Stops least (.op o :: rest) := by
  intro o' strength' ho hs'
  cases ho
  rw [hs, Option.some.injEq] at hs'
  rwa [← hs']

theorem Stops.mono {most : Nat} (h : Stops least ls) (hle : least ≤ most) : Stops most ls :=
  fun o strength ho hs => Nat.lt_of_lt_of_le (h o strength ho hs) hle

theorem read_chain_of_stops (h : Stops least ls) :
    read (chain bits least left ls) = .ok (left, ls) := by
  rw [chain.eq_def]
  split
  · rename_i o rest
    cases hs : strength? o with
    | none => rfl
    | some strength =>
      simp only
      rw [if_pos (h o strength rfl hs)]
      rfl
  · rfl

theorem exists_op_of_not_stops (h : ¬ Stops least ls) :
    ∃ o strength rest, ls = .op o :: rest ∧ strength? o = some strength ∧ least ≤ strength := by
  rw [Stops, not_forall] at h
  obtain ⟨o, h⟩ := h
  rw [not_forall] at h
  obtain ⟨strength, h⟩ := h
  rw [Classical.not_imp, Classical.not_imp] at h
  obtain ⟨hhead, hs, hle⟩ := h
  obtain ⟨rest, hls⟩ := List.head?_eq_some_iff.mp hhead
  exact ⟨o, strength, rest, hls, hs, Nat.le_of_not_lt hle⟩

theorem read_chain_op {strength : Nat} (hs : strength? o = some strength)
    (hle : least ≤ strength) :
    read (chain bits least left (.op o :: rest))
      = read (binary bits (strength + 1) rest) >>= fun r =>
          (o.apply bits left r.1).mapError .operator >>= fun v =>
            read (chain bits least v r.2) := by
  rw [chain.eq_def]
  simp only [hs]
  rw [if_neg (Nat.not_lt.mpr hle)]
  cases binary bits (strength + 1) rest with
  | error e => rfl
  | ok r =>
    obtain ⟨right, after, fits⟩ := r
    show _ = (o.apply bits left right).mapError Failure.operator >>= fun v =>
      read (chain bits least v after)
    simp only
    cases o.apply bits left right with
    | error e => rfl
    | ok v =>
      show _ = read (chain bits least v after)
      simp only
      cases chain bits least v after <;> rfl

theorem valueOf_eq (bits : Int) (ls : List Lexeme) :
    valueOf bits ls = read (binary bits 0 ls) >>= fun r => match r with
      | (v, []) => .ok v
      | (_, rest) => .error (.trailing (rest.map Lexeme.text)) := by
  rw [valueOf]
  cases binary bits 0 ls with
  | error e => rfl
  | ok r =>
    obtain ⟨v, rest, fits⟩ := r
    cases rest <;> rfl

/-! ## Ranks -/

/-- How loosely an operator binds in plain arithmetic: the weaker, the looser. The operators
    that it lacks come last. -/
def rank (o : BinOp) : Nat := 4 - (strength? o).getD 0

/-- On the operators of plain arithmetic the ranks are the classes of evaluation. -/
theorem rank_eq_looseness : rank = BinOp.looseness := by
  funext o
  cases o <;> rfl

theorem rank_le (o : BinOp) : rank o ≤ 4 := Nat.sub_le _ _

theorem rank_add_strength {strength : Nat} (h : strength? o = some strength) :
    rank o + strength = 4 ∧ 0 < rank o := by
  cases o <;> cases h <;> decide

end Climb

/-! ## Trees of numerals -/

namespace Tree

variable {t u l r : Tree String} {op : BinOp}

/-- The lexemes of a tree of numerals. -/
def lexemes : Tree String → List Climb.Lexeme := flatten .numeral .op .lparen .rparen

@[simp] theorem lexemes_leaf (a : String) : (leaf a).lexemes = [.numeral a] := rfl

@[simp] theorem lexemes_group (t : Tree String) :
    (group t).lexemes = .lparen :: (t.lexemes ++ [.rparen]) := rfl

@[simp] theorem lexemes_node (op : BinOp) (l r : Tree String) :
    (node op l r).lexemes = l.lexemes ++ .op op :: r.lexemes := rfl

theorem rank_le (t : Tree String) : t.looseness Climb.rank ≤ 4 := by
  cases t with
  | node op l r => exact Climb.rank_le op
  | _ => exact Nat.zero_le 4

/-- All operators of the tree are those of plain arithmetic. -/
def HasStrengths (t : Tree String) : Prop :=
  ∀ o, .op o ∈ t.lexemes → (Climb.strength? o).isSome = true

theorem hasStrengths_group : (group t).HasStrengths ↔ t.HasStrengths := by
  simp [HasStrengths]

theorem hasStrengths_node :
    (node op l r).HasStrengths
      ↔ l.HasStrengths ∧ (Climb.strength? op).isSome = true ∧ r.HasStrengths := by
  simp only [HasStrengths, lexemes_node, List.mem_append, List.mem_cons, Climb.Lexeme.op.injEq]
  constructor
  · intro h
    exact ⟨fun o ho => h o (.inl ho), h op (.inr (.inl rfl)), fun o ho => h o (.inr (.inr ho))⟩
  · rintro ⟨hl, hop, hr⟩ o (ho | rfl | ho)
    · exact hl o ho
    · exact hop
    · exact hr o ho

/-- The value of a tree of numerals on words of so many bits, from the bottom up. -/
def climbed (bits : Int) : Tree String → Except Climb.Failure Nat :=
  value (Climb.numeralValue bits) fun op a b => (op.apply bits a b).mapError .operator

theorem climbed_group (bits : Int) (t : Tree String) :
    (group t).climbed bits = t.climbed bits := rfl

theorem climbed_node (bits : Int) (op : BinOp) (l r : Tree String) :
    (node op l r).climbed bits
      = l.climbed bits >>= fun a => r.climbed bits >>= fun b =>
          (op.apply bits a b).mapError .operator := rfl

/-! ### A canonical tree is determined by its lexemes -/

/-- A token for a lexeme, the same for all numerals of one text. -/
def tokenOfLexeme : Climb.Lexeme → Token
  | .numeral text => ⟨.dec, text⟩
  | .op o => .spelled (.op o)
  | .lparen => .spelled .lparen
  | .rparen => .spelled .rparen

theorem tokens_map_dec (t : Tree String) :
    (t.map (Token.mk .dec)).tokens = t.lexemes.map tokenOfLexeme := by
  induction t with
  | leaf a => rfl
  | group t ih => simp [map, ih, tokenOfLexeme]
  | node op l r ihl ihr => simp [map, ihl, ihr, tokenOfLexeme]

theorem lexemes_injective (ht : t.Canonical Climb.rank) (hu : u.Canonical Climb.rank)
    (h : t.lexemes = u.lexemes) : t = u := by
  have hexpression {t : Tree String} (ht : t.Canonical Climb.rank) :
      (t.map (Token.mk .dec)).IsExpression := by
    rw [Climb.rank_eq_looseness] at ht
    refine ⟨(canonical_map _ _ t).mpr ht, ?_⟩
    rw [leaves_map]
    intro a ha
    obtain ⟨text, -, rfl⟩ := List.mem_map.mp ha
    rfl
  -- As trees of tokens the two have the same tokens, so they are the same expression.
  have hmap : t.map (Token.mk .dec) = u.map (Token.mk .dec) := by
    apply tokens_injective (hexpression ht) (hexpression hu)
    rw [tokens_map_dec, tokens_map_dec, h]
  exact map_injective (fun a b hab => congrArg Token.text hab) hmap

end Tree

namespace Climb

variable {bits : Int} {least left : Nat} {t : Tree String} {ls rest : List Lexeme}

/-! ## Trees are read -/

/-- At the lexemes of a tree whose operators are strong enough, the value of the tree is read,
    and reading goes on behind it. What stands there must not bind tighter than the tree. -/
theorem read_binary_lexemes (ht : t.Canonical rank) (hops : t.HasStrengths)
    (hleast : t.looseness rank + least ≤ 4) (hrest : Stops (5 - t.looseness rank) rest) :
    read (binary bits least (t.lexemes ++ rest))
      = t.climbed bits >>= fun v => read (chain bits least v rest) := by
  induction t generalizing least rest with
  | leaf a =>
    show read (binary bits least (.numeral a :: rest)) = numeralValue bits a >>= _
    rw [read_binary, read_atom_numeral]
    cases numeralValue bits a <;> rfl
  | group t ih =>
    have hlist : (Tree.group t).lexemes ++ rest = .lparen :: (t.lexemes ++ .rparen :: rest) := by
      simp
    rw [hlist, read_binary, read_atom_lparen,
      ih ht (Tree.hasStrengths_group.mp hops) t.rank_le (stops_rparen _ _), Tree.climbed_group]
    cases t.climbed bits with
    | error e => rfl
    | ok v =>
      -- Inside brackets all operators are read, and none is left before the bracket.
      show (read (chain bits 0 v (.rparen :: rest)) >>= _) >>= _ = _
      rw [read_chain_of_stops (stops_rparen 0 rest)]
      rfl
  | node op l r ihl ihr =>
    obtain ⟨hl, hr, hle, hlt⟩ := ht
    obtain ⟨hopsl, hop, hopsr⟩ := Tree.hasStrengths_node.mp hops
    obtain ⟨strength, hs⟩ := Option.isSome_iff_exists.mp hop
    have hsum := rank_add_strength hs
    have hrank : (Tree.node op l r).looseness rank = rank op := rfl
    rw [hrank] at hleast hrest
    have hlist : (Tree.node op l r).lexemes ++ rest
        = l.lexemes ++ .op op :: (r.lexemes ++ rest) := by
      simp
    -- The operator binds no tighter than what is left of it, and what is right of it ends
    -- before the next operator that binds no tighter than this one.
    have hstops : Stops (5 - l.looseness rank) (.op op :: (r.lexemes ++ rest)) :=
      stops_op hs (by omega) _
    rw [hlist, ihl hl hopsl (by omega) hstops, Tree.climbed_node]
    cases l.climbed bits with
    | error e => rfl
    | ok a =>
      show read (chain bits least a (.op op :: (r.lexemes ++ rest))) = _
      rw [read_chain_op hs (by omega), ihr hr hopsr (by omega) (hrest.mono (by omega))]
      cases r.climbed bits with
      | error e => rfl
      | ok b =>
        show (read (chain bits (strength + 1) b rest) >>= _) = _
        rw [read_chain_of_stops (hrest.mono (by omega))]
        rfl

/-- The lexemes of a tree have the value of the tree. -/
theorem valueOf_lexemes (ht : t.Canonical rank) (hops : t.HasStrengths) :
    valueOf bits t.lexemes = t.climbed bits := by
  have hread : read (binary bits 0 (t.lexemes ++ []))
      = t.climbed bits >>= fun v => read (chain bits 0 v []) :=
    read_binary_lexemes ht hops t.rank_le (stops_nil _)
  rw [List.append_nil] at hread
  rw [valueOf_eq, hread]
  cases t.climbed bits with
  | error e => rfl
  | ok v =>
    show (read (chain bits 0 v []) >>= _) = _
    rw [read_chain_of_stops (stops_nil 0)]
    rfl

/-! ## Only trees are read -/

/-- The lexemes are those of a canonical tree, whose operators outside brackets have this
    strength or more, and `rest`, before which reading stops. -/
def StartsWith (least : Nat) (ls rest : List Lexeme) : Prop :=
  ∃ t : Tree String, t.Canonical rank ∧ t.looseness rank + least ≤ 4
    ∧ ls = t.lexemes ++ rest ∧ Stops least rest

/-- Where an atom is read, a tree without an operator at its top is. -/
def AtomReads (bits : Int) (ls : List Lexeme) : Prop :=
  ∀ v rest, read (atom bits ls) = .ok (v, rest) →
    ∃ t : Tree String, t.Canonical rank ∧ t.looseness rank = 0 ∧ ls = t.lexemes ++ rest

def BinaryReads (bits : Int) (least : Nat) (ls : List Lexeme) : Prop :=
  ∀ v rest, read (binary bits least ls) = .ok (v, rest) → StartsWith least ls rest

/-- Where a chain is read behind a tree, the tree becomes a larger one. -/
def ChainReads (bits : Int) (least left : Nat) (ls : List Lexeme) : Prop :=
  ∀ (t : Tree String) v rest, t.Canonical rank → t.looseness rank + least ≤ 4 →
    Stops (5 - t.looseness rank) ls → read (chain bits least left ls) = .ok (v, rest) →
    StartsWith least (t.lexemes ++ ls) rest

theorem atomReads (hbinary : ∀ inside : List Lexeme, inside.length < ls.length →
    BinaryReads bits 0 inside) : AtomReads bits ls := by
  intro v rest h
  cases ls with
  | nil =>
    rw [atom.eq_def] at h
    cases h
  | cons l ls =>
    cases l with
    | numeral text =>
      rw [read_atom_numeral] at h
      obtain ⟨n, -, hn⟩ := exists_of_bind_eq_ok h
      cases hn
      exact ⟨.leaf text, trivial, rfl, rfl⟩
    | lparen =>
      rw [read_atom_lparen] at h
      obtain ⟨⟨n, after⟩, hread, hafter⟩ := exists_of_bind_eq_ok h
      obtain ⟨t, ht, -, rfl, -⟩ := hbinary ls (Nat.lt_succ_self _) n after hread
      -- The bracket that closes is the first lexeme behind the tree.
      split at hafter
      · rename_i v' after' heq
        cases heq
        cases hafter
        exact ⟨.group t, ht, rfl, by simp⟩
      · cases hafter
    | op o =>
      rw [atom.eq_def] at h
      cases h
    | rparen =>
      rw [atom.eq_def] at h
      cases h

theorem binaryReads (hleast : least ≤ 4) (hatom : AtomReads bits ls)
    (hchain : ∀ after : List Lexeme, after.length < ls.length →
      ∀ left, ChainReads bits least left after) : BinaryReads bits least ls := by
  intro v rest h
  rw [read_binary] at h
  obtain ⟨⟨n, after⟩, hread, hrest⟩ := exists_of_bind_eq_ok h
  obtain ⟨t, ht, hrank, rfl⟩ := hatom n after hread
  -- A tree without an operator at its top may be the left operand of every operator.
  refine hchain after (length_lt_of_read hread) n t v rest ht (by omega) ?_ hrest
  intro o strength _ hs
  have := rank_add_strength hs
  omega

theorem chainReads
    (hbinary : ∀ after : List Lexeme, after.length < ls.length →
      ∀ least, least ≤ 4 → BinaryReads bits least after)
    (hchain : ∀ after : List Lexeme, after.length < ls.length →
      ∀ left, ChainReads bits least left after) : ChainReads bits least left ls := by
  intro t v rest ht hrank hstops h
  by_cases hstop : Stops least ls
  · rw [read_chain_of_stops hstop] at h
    cases h
    exact ⟨t, ht, hrank, rfl, hstop⟩
  · -- The next operator is strong enough: it takes the tree as its left operand.
    obtain ⟨o, strength, after, rfl, hs, hle⟩ := exists_op_of_not_stops hstop
    rw [read_chain_op hs hle] at h
    obtain ⟨⟨n, after'⟩, hread, hrest⟩ := exists_of_bind_eq_ok h
    obtain ⟨n', -, hrest⟩ := exists_of_bind_eq_ok hrest
    have hsum := rank_add_strength hs
    have hlt := hstops o strength rfl hs
    -- What is read behind the operator is its right operand, of stronger operators only.
    have hlen := length_lt_of_read hread
    obtain ⟨r, hr, hrank', rfl, hstops'⟩ :=
      hbinary after (Nat.lt_succ_self _) (strength + 1) (by omega) n after' hread
    have hnode : (Tree.node o t r).Canonical rank := ⟨ht, hr, by omega, by omega⟩
    have hrank'' : (Tree.node o t r).looseness rank = rank o := rfl
    have hlist : t.lexemes ++ .op o :: (r.lexemes ++ after')
        = (Tree.node o t r).lexemes ++ after' := by
      simp
    rw [hlist]
    exact hchain after' (Nat.lt_trans hlen (Nat.lt_succ_self _)) n' (.node o t r) v rest hnode
      (by omega) (hstops'.mono (by omega)) hrest

theorem binaryReads_chainReads (bits : Int) (ls : List Lexeme) :
    (∀ least, least ≤ 4 → BinaryReads bits least ls)
      ∧ ∀ least left, ChainReads bits least left ls := by
  induction hlen : ls.length using Nat.strongRecOn generalizing ls with
  | ind n ih =>
    subst hlen
    -- Every call that one of these functions makes has fewer lexemes left to read.
    have hbinary : ∀ after : List Lexeme, after.length < ls.length →
        ∀ least, least ≤ 4 → BinaryReads bits least after :=
      fun after h => (ih _ h after rfl).1
    have hchain : ∀ after : List Lexeme, after.length < ls.length →
        ∀ least left, ChainReads bits least left after :=
      fun after h => (ih _ h after rfl).2
    have hatom := atomReads fun after h => hbinary after h 0 (Nat.zero_le 4)
    refine ⟨fun least hleast => ?_, fun least left => ?_⟩
    · exact binaryReads hleast hatom fun after h => hchain after h least
    · exact chainReads hbinary fun after h => hchain after h least

/-- Lexemes that have a value are those of a canonical tree. -/
theorem exists_tree_of_valueOf {v : Nat} (h : valueOf bits ls = .ok v) :
    ∃ t : Tree String, t.Canonical rank ∧ t.lexemes = ls := by
  rw [valueOf_eq] at h
  obtain ⟨⟨n, rest⟩, hread, hrest⟩ := exists_of_bind_eq_ok h
  cases rest with
  | cons l rest => cases hrest
  | nil =>
    obtain ⟨t, ht, -, rfl, -⟩ :=
      (binaryReads_chainReads bits _).1 0 (Nat.zero_le 4) n [] hread
    exact ⟨t, ht, (List.append_nil _).symm⟩

end Climb

end WordExpr
