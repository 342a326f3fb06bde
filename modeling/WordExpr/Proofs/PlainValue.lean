/-
  WordExpr.Proofs.PlainValue

  The value of expressions without registers and logical operators. Such an expression has
  it as its meaning in every evaluation (`Tree.meaning_of_isPlain`), and by climbing on its
  lexemes (`Climb.valueOf_tokens`); and lexemes of tokens that have a value are those of an
  expression (`Climb.exists_expression_of_valueOf`).

  Behind both is that the texts of the literals are all that climbing sees of the leaves: the
  lexemes of a tree of tokens are those of the tree of its literals' texts
  (`Tree.map_lexeme_tokens`), and every tree of numerals whose lexemes are those of tokens
  comes from a tree of tokens in this way (`Tree.exists_tokens_of_lexemes`).
-/
import WordExpr.Proofs.Climbing
import WordExpr.Proofs.Scanning

namespace WordExpr

/-! ## The value of plain expressions -/

namespace Tree

variable {w : Width} {t : Tree Token}

/-- The value of an expression without registers. -/
def plainValue (w : Width) : Tree Token → Except ZeroDivisor Nat :=
  value (fun a => .ok (w.wrap a.number).toNat) fun op a b => op.onWords w a b

theorem plainValue_node (op : BinOp) (l r : Tree Token) :
    (node op l r).plainValue w
      = l.plainValue w >>= fun a => r.plainValue w >>= fun b => op.onWords w a b := rfl

/-- The value of a tree is a word. -/
theorem plainValue_lt {v : Nat} (h : t.plainValue w = .ok v) : v < 2 ^ w.size := by
  induction t generalizing v with
  | leaf a =>
    cases h
    exact w.toNat_wrap_lt _
  | group t ih => exact ih h
  | node op l r =>
    rw [plainValue_node] at h
    obtain ⟨a, -, h⟩ := exists_of_bind_eq_ok h
    obtain ⟨b, -, h⟩ := exists_of_bind_eq_ok h
    exact BinOp.onWords_lt h

/-- Without registers, an expression has its value as its meaning. -/
theorem meaning_of_isPlain {known : String → Option Int}
    (h : ∀ a ∈ t.tokens, a.isPlain = true) :
    t.meaning w known = (t.plainValue w).mapError .zeroDivisor := by
  induction t with
  | leaf a =>
    have ha : a.isPlain = true := h a (List.mem_singleton_self a)
    rw [meaning_leaf, Token.meaning]
    split
    · rename_i hk
      rw [Token.isPlain, hk] at ha
      cases ha
    · rfl
  | group t ih =>
    obtain ⟨-, hinside, -⟩ := forall_mem_tokens_group.mp h
    exact ih hinside
  | node op l r ihl ihr =>
    obtain ⟨hl, -, hr⟩ := forall_mem_tokens_node.mp h
    rw [meaning_node, plainValue_node, ihl hl, ihr hr]
    cases l.plainValue w with
    | error z => rfl
    | ok a => cases r.plainValue w <;> rfl

/-! ## Tokens and texts -/

/-- The leaves of a plain expression are literals. -/
theorem literal_leaves (ht : t.IsExpression) (hplain : ∀ a ∈ t.tokens, a.isPlain = true) :
    ∀ a ∈ t.leaves, a.kind.isLiteral = true ∧ a.lexeme = .numeral a.text := by
  intro a ha
  exact Token.literal_of_isPlain (ht.2 a ha) (hplain a (mem_tokens_of_mem_leaves ha))

/-- The lexemes of a tree of literals are those of the tree of their texts. -/
theorem map_lexeme_tokens (h : ∀ a ∈ t.leaves, a.lexeme = .numeral a.text) :
    t.tokens.map Token.lexeme = (t.map Token.text).lexemes := by
  induction t with
  | leaf a => simp [map, h a (List.mem_singleton_self a)]
  | group t ih => simp [map, ih h, Token.lexeme, Token.spelled]
  | node op l r ihl ihr =>
    obtain ⟨hl, hr⟩ := List.forall_mem_append.mp h
    simp [map, ihl hl, ihr hr, Token.lexeme, Token.spelled]

/-- A tree of numerals whose lexemes are those of tokens comes from a tree of tokens. -/
theorem exists_tokens_of_lexemes {u : Tree String} {ts : List Token}
    (hts : ∀ a ∈ ts, a.Lexable) (h : ts.map Token.lexeme = u.lexemes) :
    ∃ t : Tree Token, t.map Token.text = u ∧ t.tokens = ts
      ∧ ∀ a ∈ t.leaves, a.kind.isOperand = true := by
  induction u generalizing ts with
  | leaf text =>
    obtain ⟨a, rest, rfl, ha, hrest⟩ := List.map_eq_cons_iff.mp h
    obtain ⟨hlex, -⟩ := List.forall_mem_cons.mp hts
    have hop := hlex.of_lexeme
    have htext := hlex.text_lexeme
    rw [ha] at hop htext
    rw [List.map_eq_nil_iff.mp hrest]
    exact ⟨.leaf a, congrArg Tree.leaf htext.symm, rfl, List.forall_mem_singleton.mpr hop⟩
  | group u ih =>
    obtain ⟨a, rest, rfl, ha, hrest⟩ := List.map_eq_cons_iff.mp h
    obtain ⟨inside, last, rfl, hinside, hlast⟩ := List.map_eq_append_iff.mp hrest
    obtain ⟨b, nothing, rfl, hb, hnothing⟩ := List.map_eq_cons_iff.mp hlast
    obtain ⟨hlexa, hts'⟩ := List.forall_mem_cons.mp hts
    obtain ⟨hlexin, hlexlast⟩ := List.forall_mem_append.mp hts'
    obtain ⟨hlexb, -⟩ := List.forall_mem_cons.mp hlexlast
    have hopen := hlexa.of_lexeme
    have hclose := hlexb.of_lexeme
    rw [ha] at hopen
    rw [hb] at hclose
    obtain ⟨t, rfl, rfl, hleaves⟩ := ih hlexin hinside
    rw [hopen, hclose, List.map_eq_nil_iff.mp hnothing]
    exact ⟨.group t, rfl, rfl, hleaves⟩
  | node op l r ihl ihr =>
    obtain ⟨left, rest, rfl, hleft, hrest⟩ := List.map_eq_append_iff.mp h
    obtain ⟨a, right, rfl, ha, hright⟩ := List.map_eq_cons_iff.mp hrest
    obtain ⟨hlexl, hts'⟩ := List.forall_mem_append.mp hts
    obtain ⟨hlexa, hlexr⟩ := List.forall_mem_cons.mp hts'
    have hop := hlexa.of_lexeme
    rw [ha] at hop
    obtain ⟨t, rfl, rfl, hleavesl⟩ := ihl hlexl hleft
    obtain ⟨u, rfl, rfl, hleavesr⟩ := ihr hlexr hright
    rw [hop]
    exact ⟨.node op t u, rfl, rfl, List.forall_mem_append.mpr ⟨hleavesl, hleavesr⟩⟩

end Tree

namespace Climb

variable {w : Width} {t : Tree Token}

/-! ## Plain expressions are read -/

/-- How climbing reports a failed operator. -/
def ofZeroDivisor (z : ZeroDivisor) : Failure := .operator (.zeroDivisor z)

theorem apply_size (w : Width) (op : BinOp) (a b : Nat) :
    (op.apply w.size a b).mapError Failure.operator
      = (op.onWords w a b).mapError ofZeroDivisor := by
  rw [BinOp.apply_size]
  cases op.onWords w a b <;> rfl

/-- Climbing on the texts of literals gives the value of the literals. -/
theorem climbed_map_text (hlex : ∀ a ∈ t.leaves, a.Lexable)
    (hliteral : ∀ a ∈ t.leaves, a.kind.isLiteral = true) :
    (t.map Token.text).climbed w.size = (t.plainValue w).mapError ofZeroDivisor := by
  induction t with
  | leaf a =>
    have ha := List.mem_singleton_self a
    exact (hlex a ha).numeralValue (hliteral a ha) w
  | group t ih => exact ih hlex hliteral
  | node op l r ihl ihr =>
    obtain ⟨hlexl, hlexr⟩ := List.forall_mem_append.mp hlex
    obtain ⟨hliterall, hliteralr⟩ := List.forall_mem_append.mp hliteral
    rw [Tree.map, Tree.climbed_node, ihl hlexl hliterall, ihr hlexr hliteralr,
      Tree.plainValue_node]
    simp only [apply_size]
    cases l.plainValue w with
    | error z => rfl
    | ok a => cases r.plainValue w <;> rfl

theorem hasStrengths_map_text (hplain : ∀ a ∈ t.tokens, a.isPlain = true) :
    (t.map Token.text).HasStrengths := by
  induction t with
  | leaf a =>
    intro o ho
    cases List.mem_singleton.mp ho
  | group t ih =>
    obtain ⟨-, hinside, -⟩ := Tree.forall_mem_tokens_group.mp hplain
    exact Tree.hasStrengths_group.mpr (ih hinside)
  | node op l r ihl ihr =>
    obtain ⟨hl, hop, hr⟩ := Tree.forall_mem_tokens_node.mp hplain
    exact Tree.hasStrengths_node.mpr ⟨ihl hl, hop, ihr hr⟩

/-- The value of the lexemes of an expression. -/
theorem valueOf_tokens (ht : t.IsExpression) (hlex : ∀ a ∈ t.tokens, a.Lexable)
    (hplain : ∀ a ∈ t.tokens, a.isPlain = true) :
    valueOf w.size (t.tokens.map Token.lexeme) = (t.plainValue w).mapError ofZeroDivisor := by
  have hliteral := Tree.literal_leaves ht hplain
  have hcanonical : (t.map Token.text).Canonical rank := by
    rw [rank_eq_looseness]
    exact (Tree.canonical_map _ _ t).mpr ht.1
  rw [Tree.map_lexeme_tokens fun a ha => (hliteral a ha).2,
    valueOf_lexemes hcanonical (hasStrengths_map_text hplain)]
  exact climbed_map_text (fun a ha => hlex a (Tree.mem_tokens_of_mem_leaves ha))
    fun a ha => (hliteral a ha).1

/-- Lexemes that have a value are those of an expression. -/
theorem exists_expression_of_valueOf {bits : Int} {ts : List Token} {v : Nat}
    (hts : ∀ a ∈ ts, a.Lexable) (h : valueOf bits (ts.map Token.lexeme) = .ok v) :
    ∃ t : Tree Token, t.IsExpression ∧ t.tokens = ts := by
  obtain ⟨u, hu, hlexemes⟩ := exists_tree_of_valueOf h
  obtain ⟨t, rfl, rfl, hleaves⟩ := Tree.exists_tokens_of_lexemes hts hlexemes.symm
  rw [rank_eq_looseness] at hu
  exact ⟨t, ⟨(Tree.canonical_map _ _ t).mp hu, hleaves⟩, rfl⟩

end Climb

end WordExpr
