/-
  WordExpr.Proofs.Expression

  The expressions of the language as trees, and what the analyses of a range say about the
  tokens of one. The search for the main operator finds the root of an expression that is
  an operator at its top (`scanList_node`), and the test for one pair of brackets holds of
  the bracketed expressions only (`Holds.group`, `Holds.node`). An expression is therefore
  determined by its tokens (`tokens_injective`).
-/
import WordExpr.Proofs.Slice
import WordExpr.Tree

namespace WordExpr

open Range

theorem BinOp.looseness_pos (op : BinOp) : 0 < op.looseness := by
  cases op <;> decide

theorem BinOp.looseness_le (op : BinOp) : op.looseness ≤ 4 := by
  cases op <;> decide

namespace Tree

/-- The tree is the one that a ranking reads out of its tokens, and its leaves are operands. -/
def IsReadBy (rank : BinOp → Nat) (t : Tree Token) : Prop :=
  t.Canonical rank ∧ ∀ a ∈ t.leaves, a.kind.isOperand = true

instance (rank : BinOp → Nat) (t : Tree Token) : Decidable (t.IsReadBy rank) := instDecidableAnd

/-- A tree is an expression if its leaves are operands and if it is the one that the
    binding classes of the operators read out of its tokens. -/
def IsExpression (t : Tree Token) : Prop :=
  t.Canonical BinOp.looseness ∧ ∀ a ∈ t.leaves, a.kind.isOperand = true

instance (t : Tree Token) : Decidable t.IsExpression := instDecidableAnd

variable {op : BinOp} {a : Token} {t u l r : Tree Token}

/-! ## Tokens and expressions, constructor by constructor -/

@[simp] theorem tokens_leaf (a : Token) : (leaf a).tokens = [a] := rfl

@[simp] theorem tokens_group (t : Tree Token) :
    (group t).tokens = .spelled .lparen :: (t.tokens ++ [.spelled .rparen]) := rfl

@[simp] theorem tokens_node (op : BinOp) (l r : Tree Token) :
    (node op l r).tokens = l.tokens ++ .spelled (.op op) :: r.tokens := rfl

theorem tokens_length_pos (t : Tree Token) : 0 < t.tokens.length :=
  List.length_pos_iff.mpr (flatten_ne_nil _ _ _ _ t)

theorem looseness_le (t : Tree Token) : t.looseness BinOp.looseness ≤ 4 := by
  cases t with
  | node op l r => exact op.looseness_le
  | _ => exact Nat.zero_le 4

/-- What holds of the tokens of a tree holds of those of its parts. -/
theorem forall_mem_tokens_group {P : Token → Prop} :
    (∀ a ∈ (group t).tokens, P a)
      ↔ P (.spelled .lparen) ∧ (∀ a ∈ t.tokens, P a) ∧ P (.spelled .rparen) := by
  rw [tokens_group, List.forall_mem_cons, List.forall_mem_append, List.forall_mem_singleton]

theorem forall_mem_tokens_node {P : Token → Prop} :
    (∀ a ∈ (node op l r).tokens, P a)
      ↔ (∀ a ∈ l.tokens, P a) ∧ P (.spelled (.op op)) ∧ ∀ a ∈ r.tokens, P a := by
  rw [tokens_node, List.forall_mem_append, List.forall_mem_cons]

theorem mem_tokens_of_mem_leaves {a : Token} (h : a ∈ t.leaves) : a ∈ t.tokens := by
  induction t with
  | leaf b => exact h
  | group t ih =>
    rw [tokens_group]
    exact List.mem_cons_of_mem _ (List.mem_append_left _ (ih h))
  | node op l r ihl ihr =>
    rw [tokens_node]
    rcases List.mem_append.mp h with h | h
    · exact List.mem_append_left _ (ihl h)
    · exact List.mem_append_right _ (List.mem_cons_of_mem _ (ihr h))

section Ranking

variable {rank : BinOp → Nat}

theorem isReadBy_leaf : (leaf a).IsReadBy rank ↔ a.kind.isOperand = true := by
  simp [IsReadBy, Canonical, leaves]

theorem isReadBy_group : (group t).IsReadBy rank ↔ t.IsReadBy rank := Iff.rfl

theorem isReadBy_node :
    (node op l r).IsReadBy rank ↔ l.IsReadBy rank ∧ r.IsReadBy rank
      ∧ l.looseness rank ≤ rank op ∧ r.looseness rank < rank op := by
  simp only [IsReadBy, Canonical, leaves, List.forall_mem_append]
  constructor
  · rintro ⟨⟨hl, hr, hle, hlt⟩, hol, hor⟩
    exact ⟨⟨hl, hol⟩, ⟨hr, hor⟩, hle, hlt⟩
  · rintro ⟨⟨hl, hol⟩, ⟨hr, hor⟩, hle, hlt⟩
    exact ⟨⟨hl, hr, hle, hlt⟩, hol, hor⟩

end Ranking

theorem isExpression_leaf : (leaf a).IsExpression ↔ a.kind.isOperand = true := isReadBy_leaf

theorem isExpression_group : (group t).IsExpression ↔ t.IsExpression := Iff.rfl

theorem isExpression_node :
    (node op l r).IsExpression ↔ l.IsExpression ∧ r.IsExpression
      ∧ l.looseness BinOp.looseness ≤ op.looseness
      ∧ r.looseness BinOp.looseness < op.looseness := isReadBy_node

/-! ## Brackets -/

/-- The tokens of a tree of operands close the brackets that they open, and no others. -/
theorem depthAfter_tokens (h : ∀ a ∈ t.leaves, a.kind.isOperand = true) (depth : Nat) :
    depthAfter depth t.tokens = some depth := by
  induction t generalizing depth with
  | leaf a =>
    have ha : a.kind.isOperand = true := h a (List.mem_singleton_self a)
    rw [tokens_leaf, depthAfter, depthStep_of_isOperand ha]
    rfl
  | group t ih =>
    have hinside : depthAfter (depth + 1) (t.tokens ++ [.spelled .rparen]) = some depth := by
      rw [depthAfter_append, ih h]
      rfl
    rw [tokens_group, depthAfter]
    exact hinside
  | node op l r ihl ihr =>
    obtain ⟨hl, hr⟩ := List.forall_mem_append.mp h
    rw [tokens_node, depthAfter_append, ihl hl]
    exact ihr hr depth

/-- A pair of brackets around tokens that leave no bracket open has no main operator. -/
theorem scanList_of_bracketed {first last : Token} {inner : List Token} {i : Nat}
    (hfirst : first.kind = .lparen) (hlast : last.kind = .rparen)
    (hinner : depthAfter 0 inner = some 0) :
    scanList i 0 none (first :: (inner ++ [last])) = none := by
  have hstart : scanList i 0 none (first :: (inner ++ [last]))
      = scanList (i + 1) 1 none (inner ++ [last]) := by
    rw [scanList, hfirst]
    rfl
  rw [hstart, scanList_append_of_depthAfter hinner, scanList, hlast]
  rfl

end Tree

namespace Range.Candidate

/-- The better one of two candidates, the second of which stands further right. -/
def merge (best : Option Candidate) : Option Candidate → Option Candidate
  | none => best
  | some next => later best next

/-- A candidate that binds no more loosely than one further right is forgotten. -/
theorem later_merge {best first : Option Candidate} {next : Candidate}
    (h : ∀ c, first = some c → c.looseness ≤ next.looseness) :
    later (merge best first) next = later best next := by
  cases first with
  | none => rfl
  | some c =>
    have hc := h c rfl
    cases best with
    | none => simp [merge, later, hc]
    | some b =>
      by_cases hb : b.looseness ≤ c.looseness
      · have hbn : b.looseness ≤ next.looseness := Nat.le_trans hb hc
        simp [merge, later, hb, hc, hbn]
      · simp [merge, later, hb]

/-- A candidate that binds tighter than one further left is forgotten. -/
theorem merge_later {best last : Option Candidate} {next : Candidate}
    (h : ∀ c, last = some c → c.looseness < next.looseness) :
    merge (later best next) last = later best next := by
  cases last with
  | none => rfl
  | some c =>
    have hc : ¬ next.looseness ≤ c.looseness := Nat.not_le.mpr (h c rfl)
    cases best with
    | none => simp [merge, later, hc]
    | some b =>
      by_cases hb : b.looseness ≤ next.looseness
      · simp [merge, later, hb, hc]
      · have hbc : ¬ b.looseness ≤ c.looseness := by omega
        simp [merge, later, hb, hbc]

/-- A candidate that wins against one before it and one behind it binds at least as loosely
    as the first and more loosely than the second. -/
theorem looseness_of_merge_later {first last : Option Candidate} {next : Candidate}
    (h : merge (later first next) last = some next)
    (hfirst : ∀ c, first = some c → c.index ≠ next.index)
    (hlast : ∀ c, last = some c → c.index ≠ next.index) :
    (∀ c, first = some c → c.looseness ≤ next.looseness)
      ∧ (∀ c, last = some c → c.looseness < next.looseness) := by
  have hlater : later first next = some next := by
    cases last with
    | none => exact h
    | some c =>
      rcases later_index h with hbest | hnext
      · exact hbest
      · exact absurd (congrArg index hnext.symm) (hlast c rfl)
  constructor
  · rintro c rfl
    by_cases hc : c.looseness ≤ next.looseness
    · exact hc
    · rw [later, if_neg hc, Option.some.injEq] at hlater
      exact absurd (congrArg index hlater) (hfirst c rfl)
  · rintro c rfl
    by_cases hc : next.looseness ≤ c.looseness
    · rw [hlater, merge, later, if_pos hc, Option.some.injEq] at h
      exact absurd (congrArg index h) (hlast c rfl)
    · exact Nat.lt_of_not_le hc

end Range.Candidate

namespace Tree

variable {op : BinOp} {a : Token} {t u l r : Tree Token}

/-! ## The main operator -/

/-- The operator at the top of a tree, the first token of which has index `i`. -/
def top? (i : Nat) : Tree Token → Option Candidate
  | node op l _ => some ⟨i + l.tokens.length, op.looseness⟩
  | _ => none

theorem looseness_of_top? {i : Nat} {c : Candidate} (h : t.top? i = some c) :
    c.looseness = t.looseness BinOp.looseness := by
  cases t with
  | node op l r =>
    cases h
    rfl
  | _ => cases h

theorem index_of_top? {i : Nat} {c : Candidate} (h : t.top? i = some c) :
    i ≤ c.index ∧ c.index < i + t.tokens.length := by
  cases t with
  | node op l r =>
    cases h
    refine ⟨Nat.le_add_right _ _, ?_⟩
    show i + l.tokens.length < i + (node op l r).tokens.length
    rw [tokens_node, List.length_append, List.length_cons]
    omega
  | _ => cases h

/-- A bound on the operator at the top bounds how loosely a tree binds. -/
theorem looseness_le_of_top? {i n : Nat} (h : ∀ c, t.top? i = some c → c.looseness ≤ n) :
    t.looseness BinOp.looseness ≤ n := by
  cases t with
  | node op l r => exact h _ rfl
  | _ => exact Nat.zero_le n

/-- Of the operators of an expression outside its brackets the search keeps the one at the
    top, and compares it with the best candidate before. -/
theorem scanList_tokens (h : t.IsExpression) (i : Nat) (best : Option Candidate)
    (rest : List Token) :
    scanList i 0 best (t.tokens ++ rest)
      = scanList (i + t.tokens.length) 0 (Candidate.merge best (t.top? i)) rest := by
  induction t generalizing i best rest with
  | leaf a =>
    have ha := isExpression_leaf.mp h
    rw [tokens_leaf, List.singleton_append, scanList, depthStep_of_isOperand ha,
      bestStep_of_isOperand ha]
    rfl
  | group t ih =>
    -- The brackets hide the operators of the expression between them.
    have hdepth := depthAfter_tokens (isExpression_group.mp h).2 0
    have hlen : i + 1 + t.tokens.length + 1 = i + (group t).tokens.length := by
      rw [tokens_group, List.length_cons, List.length_append, List.length_singleton]
      omega
    have hopen : scanList i 0 best ((group t).tokens ++ rest)
        = scanList (i + 1) 1 best (t.tokens ++ (.spelled .rparen :: rest)) := by
      rw [tokens_group, List.cons_append, List.append_assoc]
      rfl
    rw [hopen, scanList_append_of_depthAfter hdepth, ← hlen]
    rfl
  | node op l r ihl ihr =>
    obtain ⟨hl, hr, hle, hlt⟩ := isExpression_node.mp h
    have hlen : i + l.tokens.length + 1 + r.tokens.length
        = i + (node op l r).tokens.length := by
      rw [tokens_node, List.length_append, List.length_cons]
      omega
    have hop : ∀ best, scanList (i + l.tokens.length) 0 best
          (.spelled (.op op) :: (r.tokens ++ rest))
        = scanList (i + l.tokens.length + 1) 0
            (Candidate.later best ⟨i + l.tokens.length, op.looseness⟩) (r.tokens ++ rest) :=
      fun _ => rfl
    -- The operator wins against the top of the left operand, which binds no more loosely,
    -- and loses to none of the right operand, whose top binds tighter.
    rw [tokens_node, List.append_assoc, List.cons_append, ihl hl, hop, ihr hr,
      Candidate.later_merge, Candidate.merge_later, hlen]
    · rfl
    · intro c hc
      rw [looseness_of_top? hc]
      exact hlt
    · intro c hc
      rw [looseness_of_top? hc]
      exact hle

theorem scanList_expression (h : t.IsExpression) (i : Nat) :
    scanList i 0 none t.tokens = t.top? i := by
  have hscan := scanList_tokens h i none []
  rw [List.append_nil, scanList] at hscan
  rw [hscan]
  cases t <;> rfl

/-! ## An expression is determined by its tokens -/

theorem top?_eq_of_tokens_eq (ht : t.IsExpression) (hu : u.IsExpression)
    (h : t.tokens = u.tokens) (i : Nat) : t.top? i = u.top? i := by
  rw [← scanList_expression ht, ← scanList_expression hu, h]

theorem tokens_injective (ht : t.IsExpression) (hu : u.IsExpression)
    (h : t.tokens = u.tokens) : t = u := by
  induction t generalizing u with
  | leaf a =>
    cases u with
    | leaf b =>
      cases h
      rfl
    | group u =>
      have hlen := congrArg List.length h
      simp at hlen
    -- Only an operator at the top is found by the search.
    | node op l r => cases top?_eq_of_tokens_eq ht hu h 0
  | group t ih =>
    cases u with
    | leaf b =>
      have hlen := congrArg List.length h
      simp at hlen
    | group u =>
      have htokens : t.tokens = u.tokens :=
        List.append_cancel_right (List.cons.inj h).2
      rw [ih (isExpression_group.mp ht) (isExpression_group.mp hu) htokens]
    | node op l r => cases top?_eq_of_tokens_eq ht hu h 0
  | node op l r ihl ihr =>
    cases u with
    | leaf b => cases top?_eq_of_tokens_eq ht hu h 0
    | group u => cases top?_eq_of_tokens_eq ht hu h 0
    | node op' l' r' =>
      obtain ⟨hl, hr, -, -⟩ := isExpression_node.mp ht
      obtain ⟨hl', hr', -, -⟩ := isExpression_node.mp hu
      -- The main operators stand at the same index, so the operands have the same tokens.
      have hlen : l.tokens.length = l'.tokens.length := by
        have htop := top?_eq_of_tokens_eq ht hu h 0
        simp only [top?, Option.some.injEq, Candidate.mk.injEq] at htop
        omega
      obtain ⟨hleft, hrest⟩ := List.append_inj h hlen
      obtain ⟨hop, hright⟩ := List.cons.inj hrest
      have hop' : op = op' := TokenKind.op.inj (congrArg Token.kind hop)
      rw [hop', ihl hl hl' hleft, ihr hr hr' hright]

end Tree

end WordExpr
