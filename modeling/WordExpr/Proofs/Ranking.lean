/-
  WordExpr.Proofs.Ranking

  Two rankings of the operators. In C `||` has a class of its own, looser than that of `&&`;
  here the two share a class. For every ranking the tokens determine the tree that the ranking
  reads out of them (`Tree.IsReadBy.unique`), because an operator outside the brackets of a tree
  never binds more loosely than the one at its top (`Tree.IsReadBy.rank_le`).

  The tree that C reads is made of an expression by putting each `&&` below the `||` that ends
  in its left operand (`Tree.sunk`). It is the expression itself unless, in some pair of brackets
  or outside of all, a `||` stands before a `&&` (`Tree.isReadBy_cLooseness_iff`).
-/
import WordExpr.Proofs.Defects
import WordExpr.Proofs.Printing

namespace WordExpr

open Range Lexer

/-- How loosely an operator binds in C. Only `||` binds more loosely there than here. -/
def BinOp.cLooseness : BinOp → Nat
  | mul | div | mod => 1
  | add | sub => 2
  | eq | ne => 3
  | and => 4
  | or => 5

/-! ## Operators outside brackets -/

/-- The operator stands among the tokens, outside all brackets that they open. -/
def Outside (o : BinOp) (ts : List Token) : Prop :=
  ∃ before after, ts = before ++ .spelled (.op o) :: after ∧ depthAfter 0 before = some 0

/-- One operator stands before another one, and the brackets between them are closed: both
    stand in the same pair of brackets, or outside of all. -/
def Precedes (o o' : BinOp) (ts : List Token) : Prop :=
  ∃ before between after,
    ts = before ++ .spelled (.op o) :: (between ++ .spelled (.op o') :: after)
      ∧ depthAfter 0 between = some 0

section Lists

variable {α : Type} {xs ys before after : List α} {a b : α}

/-- An element of a list that is split at another place is that place, or stands before it, or
    behind it. -/
theorem append_cons_cases (h : xs ++ a :: ys = before ++ b :: after) :
    (∃ mid, xs = before ++ b :: mid ∧ after = mid ++ a :: ys)
    ∨ (xs = before ∧ a = b ∧ ys = after)
    ∨ ∃ mid, before = xs ++ a :: mid ∧ ys = mid ++ b :: after := by
  rcases List.append_eq_append_iff.mp h with ⟨mid, rfl, hmid⟩ | ⟨mid, rfl, hmid⟩
  · rcases List.cons_eq_append_iff.mp hmid with ⟨rfl, hcons⟩ | ⟨more, rfl, rfl⟩
    · cases hcons
      exact .inr (.inl ⟨(List.append_nil _).symm, rfl, rfl⟩)
    · exact .inr (.inr ⟨more, rfl, rfl⟩)
  · rcases List.cons_eq_append_iff.mp hmid with ⟨rfl, hcons⟩ | ⟨more, rfl, rfl⟩
    · cases hcons
      exact .inr (.inl ⟨List.append_nil _, rfl, rfl⟩)
    · exact .inl ⟨more, rfl, rfl⟩

end Lists

section Depth

variable {xs ys : List Token} {o : BinOp}

@[simp] theorem depthAfter_op_cons (o : BinOp) (depth : Nat) (ts : List Token) :
    depthAfter depth (.spelled (.op o) :: ts) = depthAfter depth ts := rfl

/-- Where tokens are closed as a whole, the first of them are closed if the others close no
    bracket that they do not open, and then the others are closed too. -/
theorem depthAfter_of_append {after : Nat} (h : depthAfter 0 (xs ++ ys) = some 0)
    (hys : depthAfter 0 ys = some after) : depthAfter 0 xs = some 0 ∧ after = 0 := by
  rw [depthAfter_append] at h
  obtain ⟨depth, hxs, hrest⟩ := Option.bind_eq_some_iff.mp h
  have hshift := depthAfter_add hys depth
  rw [Nat.zero_add, hrest, Option.some.injEq] at hshift
  have hdepth : depth = 0 := by omega
  exact ⟨by rw [hxs, hdepth], by omega⟩

theorem depthAfter_append_of_closed (hxs : depthAfter 0 xs = some 0) :
    depthAfter 0 (xs ++ ys) = depthAfter 0 ys := by
  rw [depthAfter_append, hxs]
  rfl

/-- Tokens that are closed as a whole are closed behind each operator outside brackets. -/
theorem depthAfter_behind_op (h : depthAfter 0 (xs ++ .spelled (.op o) :: ys) = some 0)
    (hxs : depthAfter 0 xs = some 0) : depthAfter 0 ys = some 0 := by
  rwa [depthAfter_append_of_closed hxs, depthAfter_op_cons] at h

theorem exists_depthAfter_of_append {after : Nat} (h : depthAfter 0 (xs ++ ys) = some after) :
    ∃ depth, depthAfter 0 xs = some depth := by
  rw [depthAfter_append] at h
  obtain ⟨depth, hxs, -⟩ := Option.bind_eq_some_iff.mp h
  exact ⟨depth, hxs⟩

end Depth

/-! ## Trees that a ranking reads -/

namespace Tree

variable {rank : BinOp → Nat} {op o o' : BinOp} {a : Token} {t u l r : Tree Token}

theorem looseness_node (rank : BinOp → Nat) (op : BinOp) (l r : Tree Token) :
    (node op l r).looseness rank = rank op := rfl

/-! ### Which operators stand outside the brackets of a tree -/

theorem not_outside_leaf (ha : a.kind.isOperand = true) : ¬ Outside o (leaf a).tokens := by
  rintro ⟨before, after, h, -⟩
  rw [tokens_leaf] at h
  rcases List.singleton_eq_append_iff.mp h with ⟨-, hop⟩ | ⟨-, hop⟩
  · cases hop
    cases ha
  · cases hop

/-- The brackets of a group are open before every operator in it. -/
theorem not_outside_group (ht : ∀ a ∈ t.leaves, a.kind.isOperand = true) :
    ¬ Outside o (group t).tokens := by
  rintro ⟨before, after, h, hdepth⟩
  rw [tokens_group] at h
  rcases List.cons_eq_append_iff.mp h with ⟨-, hop⟩ | ⟨inside, rfl, hinside⟩
  · cases hop
  · rcases append_cons_cases hinside with ⟨mid, hmid, -⟩ | ⟨-, hop, -⟩ | ⟨mid, -, hnil⟩
    -- Between the brackets one more is open than the tokens there tell.
    · have hclosed := depthAfter_tokens ht 0
      rw [hmid] at hclosed
      obtain ⟨depth, hopen⟩ := exists_depthAfter_of_append hclosed
      have hone : depthAfter 0 (.spelled .lparen :: inside) = depthAfter (0 + 1) inside := rfl
      rw [hone, depthAfter_add hopen 1, Option.some.injEq] at hdepth
      omega
    · cases hop
    · exact absurd hnil (by simp)

theorem outside_node (hl : ∀ a ∈ l.leaves, a.kind.isOperand = true) :
    Outside o (node op l r).tokens
      ↔ Outside o l.tokens ∨ o = op ∨ Outside o r.tokens := by
  have hclosed := depthAfter_tokens hl 0
  constructor
  · rintro ⟨before, after, h, hdepth⟩
    rw [tokens_node] at h
    rcases append_cons_cases h with ⟨mid, hmid, -⟩ | ⟨-, hop, -⟩ | ⟨mid, rfl, hmid⟩
    · exact .inl ⟨before, mid, hmid, hdepth⟩
    · cases hop
      exact .inr (.inl rfl)
    · rw [depthAfter_append_of_closed hclosed, depthAfter_op_cons] at hdepth
      exact .inr (.inr ⟨mid, after, hmid, hdepth⟩)
  · rintro (⟨before, after, h, hdepth⟩ | rfl | ⟨before, after, h, hdepth⟩)
    · exact ⟨before, after ++ .spelled (.op op) :: r.tokens, by simp [h], hdepth⟩
    · exact ⟨l.tokens, r.tokens, rfl, hclosed⟩
    · refine ⟨l.tokens ++ .spelled (.op op) :: before, after, by simp [h], ?_⟩
      rw [depthAfter_append_of_closed hclosed, depthAfter_op_cons, hdepth]

/-- No operator outside the brackets of a tree binds more loosely than the top of the tree. -/
theorem IsReadBy.rank_le (ht : t.IsReadBy rank) (h : Outside o t.tokens) :
    rank o ≤ t.looseness rank := by
  induction t with
  | leaf a => exact absurd h (not_outside_leaf (isReadBy_leaf.mp ht))
  | group t => exact absurd h (not_outside_group ht.2)
  | node op l r ihl ihr =>
    obtain ⟨hl, hr, hle, hlt⟩ := isReadBy_node.mp ht
    rw [looseness_node]
    rcases (outside_node hl.2).mp h with h | rfl | h
    · exact Nat.le_trans (ihl hl h) hle
    · exact Nat.le_refl _
    · exact Nat.le_trans (ihr hr h) (Nat.le_of_lt hlt)

/-! ### Two operators in the same brackets -/

theorem not_precedes_leaf (a : Token) : ¬ Precedes o o' (leaf a).tokens := by
  rintro ⟨before, between, after, h, -⟩
  have hlength := congrArg List.length h
  simp at hlength
  omega

theorem precedes_group : Precedes o o' (group t).tokens ↔ Precedes o o' t.tokens := by
  constructor
  · rintro ⟨before, between, after, h, hdepth⟩
    rw [tokens_group] at h
    rcases List.cons_eq_append_iff.mp h with ⟨-, hop⟩ | ⟨inside, rfl, hinside⟩
    · cases hop
    · rcases append_cons_cases hinside with ⟨mid, hmid, hrest⟩ | ⟨-, hop, -⟩ | ⟨mid, -, hnil⟩
      · rcases append_cons_cases hrest.symm with ⟨more, rfl, -⟩ | ⟨-, hop, -⟩ | ⟨more, -, hnil⟩
        · exact ⟨inside, between, more, hmid, hdepth⟩
        · cases hop
        · exact absurd hnil (by simp)
      · cases hop
      · exact absurd hnil (by simp)
  · rintro ⟨before, between, after, h, hdepth⟩
    exact ⟨.spelled .lparen :: before, between, after ++ [.spelled .rparen], by simp [h], hdepth⟩

/-- Two operators in the same brackets of a tree stand so in an operand of its top, or one of
    them stands outside the brackets on the left and the other one at the top or on the right,
    or one at the top and the other one on the right. -/
theorem precedes_node (hl : ∀ a ∈ l.leaves, a.kind.isOperand = true) :
    Precedes o o' (node op l r).tokens
      ↔ Precedes o o' l.tokens ∨ Precedes o o' r.tokens
        ∨ (Outside o l.tokens ∧ o' = op)
        ∨ ((o = op ∨ Outside o l.tokens) ∧ Outside o' r.tokens) := by
  have hclosed := depthAfter_tokens hl 0
  constructor
  · rintro ⟨before, between, after, h, hdepth⟩
    rw [tokens_node] at h
    rcases append_cons_cases h with ⟨mid, hmid, hrest⟩ | ⟨-, hop, hrest⟩ | ⟨mid, -, hmid⟩
    -- If the first one stands on the left, the second one may be anywhere behind it.
    · rw [hmid] at hclosed
      rcases append_cons_cases hrest.symm with ⟨more, rfl, -⟩ | ⟨rfl, hop, -⟩ | ⟨more, rfl, hmore⟩
      · exact .inl ⟨before, between, more, hmid, hdepth⟩
      · cases hop
        exact .inr (.inr (.inl ⟨⟨before, mid, hmid, (depthAfter_of_append hclosed hdepth).1⟩, rfl⟩))
      · -- What is left of the top closes its brackets, and so does what is right of it.
        obtain ⟨depth, hopen⟩ := exists_depthAfter_of_append hdepth
        obtain ⟨hbefore, rfl⟩ := depthAfter_of_append hclosed hopen
        rw [depthAfter_append_of_closed hopen, depthAfter_op_cons] at hdepth
        exact .inr (.inr (.inr ⟨.inr ⟨before, mid, hmid, hbefore⟩, more, after, hmore, hdepth⟩))
    · cases hop
      exact .inr (.inr (.inr ⟨.inl rfl, between, after, hrest, hdepth⟩))
    · exact .inr (.inl ⟨mid, between, after, hmid, hdepth⟩)
  · rintro (⟨before, between, after, h, hdepth⟩ | ⟨before, between, after, h, hdepth⟩
      | ⟨⟨before, after, h, hdepth⟩, rfl⟩
      | ⟨rfl | ⟨before, after, h, hdepth⟩, before', after', h', hdepth'⟩)
    · exact ⟨before, between, after ++ .spelled (.op op) :: r.tokens, by simp [h], hdepth⟩
    · exact ⟨l.tokens ++ .spelled (.op op) :: before, between, after, by simp [h], hdepth⟩
    · rw [h] at hclosed
      exact ⟨before, after, r.tokens, by simp [h], depthAfter_behind_op hclosed hdepth⟩
    · exact ⟨l.tokens, before', after', by simp [h'], hdepth'⟩
    · rw [h] at hclosed
      refine ⟨before, after ++ .spelled (.op op) :: before', after', by simp [h, h'], ?_⟩
      rw [depthAfter_append_of_closed (depthAfter_behind_op hclosed hdepth), depthAfter_op_cons,
        hdepth']

/-! ### The tokens determine the tree -/

/-- In two trees with the same tokens the top of one does not stand left of that of the other:
    it would stand outside the brackets of its left operand, and the other top outside those of
    the right operand of this one. -/
theorem IsReadBy.not_split {op' : BinOp} {l' r' : Tree Token} {mid : List Token}
    (ht : (node op l r).IsReadBy rank) (hu : (node op' l' r').IsReadBy rank)
    (hl : l.tokens = l'.tokens ++ .spelled (.op op') :: mid)
    (hr : r'.tokens = mid ++ .spelled (.op op) :: r.tokens) : False := by
  obtain ⟨htl, -, hle, -⟩ := isReadBy_node.mp ht
  obtain ⟨hul, hur, -, hlt⟩ := isReadBy_node.mp hu
  have hclosed := depthAfter_tokens hul.2 0
  have hmid := depthAfter_tokens htl.2 0
  rw [hl] at hmid
  have hleft : rank op' ≤ l.looseness rank := htl.rank_le ⟨l'.tokens, mid, hl, hclosed⟩
  have hright : rank op ≤ r'.looseness rank :=
    hur.rank_le ⟨mid, r.tokens, hr, depthAfter_behind_op hmid hclosed⟩
  omega

/-- A group has other tokens than a tree with an operator at its top. -/
theorem tokens_group_ne_tokens_node (ht : ∀ a ∈ t.leaves, a.kind.isOperand = true)
    (hl : ∀ a ∈ l.leaves, a.kind.isOperand = true) :
    (group t).tokens ≠ (node op l r).tokens := by
  intro h
  have houtside := (outside_node (r := r) hl).mpr (.inr (.inl (rfl : op = op)))
  rw [← h] at houtside
  exact not_outside_group ht houtside

theorem tokens_leaf_ne_tokens_group (a : Token) (t : Tree Token) :
    (leaf a).tokens ≠ (group t).tokens := by
  intro h
  have hlength := congrArg List.length h
  simp at hlength

theorem tokens_leaf_ne_tokens_node (a : Token) (op : BinOp) (l r : Tree Token) :
    (leaf a).tokens ≠ (node op l r).tokens := by
  intro h
  have hlength := congrArg List.length h
  have hpos := l.tokens_length_pos
  simp at hlength
  omega

/-- A ranking reads one tree out of the tokens. -/
theorem IsReadBy.unique (ht : t.IsReadBy rank) (hu : u.IsReadBy rank)
    (h : t.tokens = u.tokens) : t = u := by
  induction t generalizing u with
  | leaf a =>
    cases u with
    | leaf b =>
      cases h
      rfl
    | group u => exact absurd h (tokens_leaf_ne_tokens_group a u)
    | node op l r => exact absurd h (tokens_leaf_ne_tokens_node a op l r)
  | group t ih =>
    cases u with
    | leaf b => exact absurd h.symm (tokens_leaf_ne_tokens_group b t)
    | group u =>
      have htokens : t.tokens = u.tokens := List.append_cancel_right (List.cons.inj h).2
      rw [ih (isReadBy_group.mp ht) (isReadBy_group.mp hu) htokens]
    | node op l r =>
      exact absurd h (tokens_group_ne_tokens_node ht.2 (isReadBy_node.mp hu).1.2)
  | node op l r ihl ihr =>
    cases u with
    | leaf b => exact absurd h.symm (tokens_leaf_ne_tokens_node b op l r)
    | group u =>
      exact absurd h.symm (tokens_group_ne_tokens_node hu.2 (isReadBy_node.mp ht).1.2)
    | node op' l' r' =>
      -- The tops stand at the same place, so the operands have the same tokens.
      rcases append_cons_cases h with ⟨mid, hl, hr⟩ | ⟨hl, hop, hr⟩ | ⟨mid, hl, hr⟩
      · exact (IsReadBy.not_split ht hu hl hr).elim
      · cases hop
        obtain ⟨htl, htr, -, -⟩ := isReadBy_node.mp ht
        obtain ⟨hul, hur, -, -⟩ := isReadBy_node.mp hu
        rw [ihl htl hul hl, ihr htr hur hr]
      · exact (IsReadBy.not_split hu ht hl hr).elim

end Tree

/-! ## The ranking of C -/

namespace BinOp

theorem cLooseness_le (o : BinOp) : o.cLooseness ≤ 5 := by
  cases o <;> decide

theorem looseness_le_cLooseness (o : BinOp) : o.looseness ≤ o.cLooseness := by
  cases o <;> decide

theorem cLooseness_of_ne_or {o : BinOp} (h : o ≠ .or) : o.cLooseness = o.looseness := by
  cases o with
  | or => exact absurd rfl h
  | _ => rfl

end BinOp

namespace Tree

variable {op : BinOp} {t l r : Tree Token}

theorem cLooseness_le (t : Tree Token) : t.looseness BinOp.cLooseness ≤ 5 := by
  cases t with
  | node op l r => exact op.cLooseness_le
  | _ => exact Nat.zero_le 5

/-- A tree binds as loosely in C as here, if `||` is not at its top. -/
theorem looseness_cLooseness (t : Tree Token) :
    t.looseness BinOp.cLooseness = t.looseness BinOp.looseness ∨ ∃ a b, t = node .or a b := by
  cases t with
  | leaf a => exact .inl rfl
  | group t => exact .inl rfl
  | node op l r =>
    by_cases hor : op = .or
    · exact .inr ⟨l, r, by rw [hor]⟩
    · exact .inl (BinOp.cLooseness_of_ne_or hor)

/-- A tree that binds tighter than `||` binds as loosely in C as here. -/
theorem cLooseness_eq_of_lt (h : t.looseness BinOp.looseness < 4) :
    t.looseness BinOp.cLooseness = t.looseness BinOp.looseness := by
  refine t.looseness_cLooseness.resolve_right ?_
  rintro ⟨a, b, rfl⟩
  rw [looseness_node] at h
  exact absurd h (by decide)

/-- `&&` and a right operand behind a tree. A `||` at the top of the tree keeps its left operand
    and leaves the right one to the `&&`. -/
def sink (x : Tree Token) : Tree Token → Tree Token
  | node .or a b => node .or a (node .and b x)
  | t => node .and t x

/-- The tree that C reads out of the tokens of an expression. -/
def sunk : Tree Token → Tree Token
  | leaf a => leaf a
  | group t => group t.sunk
  | node .and l r => sink r.sunk l.sunk
  | node op l r => node op l.sunk r.sunk

theorem sink_of_not_or (x : Tree Token) (h : ∀ a b, t ≠ node .or a b) :
    sink x t = node .and t x := by
  cases t with
  | leaf a => rfl
  | group t => rfl
  | node op a b =>
    cases op with
    | or => exact absurd rfl (h a b)
    | _ => rfl

theorem sunk_node_of_ne_and (h : op ≠ .and) (l r : Tree Token) :
    (node op l r).sunk = node op l.sunk r.sunk := by
  cases op with
  | and => exact absurd rfl h
  | _ => rfl

theorem tokens_sink (x t : Tree Token) :
    (sink x t).tokens = t.tokens ++ .spelled (.op .and) :: x.tokens := by
  by_cases hor : ∃ a b, t = node .or a b
  · obtain ⟨a, b, rfl⟩ := hor
    simp [sink]
  · rw [sink_of_not_or x fun a b h => hor ⟨a, b, h⟩, tokens_node]

theorem isReadBy_sink {x : Tree Token} (hx : x.IsReadBy BinOp.cLooseness)
    (ht : t.IsReadBy BinOp.cLooseness) (hlt : x.looseness BinOp.cLooseness < 4) :
    (sink x t).IsReadBy BinOp.cLooseness := by
  rcases t.looseness_cLooseness with hsame | ⟨a, b, rfl⟩
  · have hle := t.looseness_le
    have hnot : ∀ a b, t ≠ node .or a b := by
      rintro a b rfl
      cases hsame
    rw [sink_of_not_or x hnot]
    exact isReadBy_node.mpr ⟨ht, hx, by rw [hsame]; exact hle, hlt⟩
  -- What a `||` has on its right binds tighter, and may stand on the left of the `&&`.
  · obtain ⟨ha, hb, -, hblt⟩ := isReadBy_node.mp ht
    have hb' : (node .and b x).IsReadBy BinOp.cLooseness :=
      isReadBy_node.mpr ⟨hb, hx, Nat.le_of_lt_succ hblt, hlt⟩
    have htight : (node .and b x).looseness BinOp.cLooseness < BinOp.or.cLooseness := by
      rw [looseness_node]
      decide
    exact isReadBy_node.mpr ⟨ha, hb', a.cLooseness_le, htight⟩

theorem tokens_sunk (t : Tree Token) : t.sunk.tokens = t.tokens := by
  induction t with
  | leaf a => rfl
  | group t ih => rw [sunk, tokens_group, tokens_group, ih]
  | node op l r ihl ihr =>
    by_cases hand : op = .and
    · subst hand
      rw [sunk, tokens_sink, ihl, ihr, tokens_node]
    · rw [sunk_node_of_ne_and hand, tokens_node, tokens_node, ihl, ihr]

/-- Operators that bind tighter than `&&` and `||` stay where they are. -/
theorem looseness_sunk (h : t.looseness BinOp.looseness < 4) :
    t.sunk.looseness BinOp.cLooseness = t.looseness BinOp.looseness := by
  rw [← cLooseness_eq_of_lt h]
  cases t with
  | leaf a => rfl
  | group t => rfl
  | node op l r =>
    have hand : op ≠ .and := by
      rintro rfl
      rw [looseness_node] at h
      exact absurd h (by decide)
    rw [sunk_node_of_ne_and hand]
    rfl

theorem isReadBy_sunk (ht : t.IsExpression) : t.sunk.IsReadBy BinOp.cLooseness := by
  induction t with
  | leaf a => exact ht
  | group t ih => exact isReadBy_group.mpr (ih (isExpression_group.mp ht))
  | node op l r ihl ihr =>
    obtain ⟨hl, hr, hle, hlt⟩ := isExpression_node.mp ht
    have hop := op.looseness_le
    have hright := looseness_sunk (t := r) (by omega)
    by_cases hand : op = .and
    · subst hand
      exact isReadBy_sink (ihr hr) (ihl hl) (by rw [hright]; exact hlt)
    · rw [sunk_node_of_ne_and hand]
      have hc := op.looseness_le_cLooseness
      refine isReadBy_node.mpr ⟨ihl hl, ihr hr, ?_, by omega⟩
      -- In a `||` everything may stand on the left; other operators bind tighter.
      by_cases hor : op = .or
      · rw [hor]
        exact l.sunk.cLooseness_le
      · have htight : op.looseness < 4 := by
          cases op with
          | and => exact absurd rfl hand
          | or => exact absurd rfl hor
          | _ => decide
        rw [looseness_sunk (t := l) (by omega)]
        omega

/-- C reads the expression itself out of its tokens, unless a `||` stands before a `&&` in the
    same brackets. -/
theorem isReadBy_cLooseness_iff (ht : t.IsExpression) :
    t.IsReadBy BinOp.cLooseness ↔ ¬ Precedes .or .and t.tokens := by
  induction t with
  | leaf a => exact iff_of_true ht (not_precedes_leaf a)
  | group t ih => rw [isReadBy_group, precedes_group, ih (isExpression_group.mp ht)]
  | node op l r ihl ihr =>
    obtain ⟨hl, hr, hle, hlt⟩ := isExpression_node.mp ht
    have hop := op.looseness_le
    have hc := op.looseness_le_cLooseness
    -- No operator of the loosest class stands on the right, outside brackets.
    have hnoAnd : ¬ Outside .and r.tokens := by
      intro h
      have hle' : 4 ≤ r.looseness BinOp.looseness := IsReadBy.rank_le hr h
      omega
    have hright := cLooseness_eq_of_lt (t := r) (by omega)
    rw [isReadBy_node, precedes_node hl.2, ihl hl, ihr hr]
    constructor
    · rintro ⟨hnl, hnr, hle', -⟩ (h | h | ⟨h, rfl⟩ | ⟨-, h⟩)
      · exact hnl h
      · exact hnr h
      · have hread := IsReadBy.rank_le ((ihl hl).mpr hnl) h
        exact absurd (Nat.le_trans hread hle') (by decide)
      · exact hnoAnd h
    · intro h
      rw [not_or, not_or, not_or] at h
      obtain ⟨hnl, hnr, hcross, -⟩ := h
      refine ⟨hnl, hnr, ?_, by omega⟩
      rcases l.looseness_cLooseness with hsame | ⟨a, b, rfl⟩
      · omega
      · -- A `||` on the left is at the top of its side, and only a `||` takes it as it is.
        have houtside : Outside .or (node .or a b).tokens :=
          (outside_node (isExpression_node.mp hl).1.2).mpr (.inr (.inl rfl))
        rw [looseness_node] at hle ⊢
        cases op with
        | or => exact Nat.le_refl _
        | and => exact absurd ⟨houtside, rfl⟩ hcross
        | _ => exact absurd hle (by decide)

/-- A tree in so many pairs of brackets. -/
def enclosed (t : Tree Token) : Nat → Tree Token
  | 0 => t
  | n + 1 => group (t.enclosed n)

theorem nesting_enclosed (t : Tree Token) (n : Nat) :
    (t.enclosed n).nesting = t.nesting + n := by
  induction n with
  | zero => rfl
  | succ n ih => exact congrArg (· + 1) ih

theorem length_tokens_enclosed (t : Tree Token) (n : Nat) :
    (t.enclosed n).tokens.length = t.tokens.length + 2 * n := by
  induction n with
  | zero => rfl
  | succ n ih =>
    rw [enclosed, tokens_group, List.length_cons, List.length_append, ih, List.length_singleton]
    omega

theorem isExpression_enclosed (ht : t.IsExpression) (n : Nat) : (t.enclosed n).IsExpression := by
  induction n with
  | zero => exact ht
  | succ n ih => exact isExpression_group.mpr ih

theorem precedes_enclosed (t : Tree Token) (n : Nat) :
    Precedes .or .and (t.enclosed n).tokens ↔ Precedes .or .and t.tokens := by
  induction n with
  | zero => exact Iff.rfl
  | succ n ih => rw [enclosed, precedes_group, ih]

theorem meaning_enclosed {w : Width} {known : String → Option Int} (t : Tree Token) (n : Nat) :
    (t.enclosed n).meaning w known = t.meaning w known := by
  induction n with
  | zero => rfl
  | succ n ih => exact ih

theorem lexable_enclosed (ht : ∀ a ∈ t.tokens, a.Lexable) (n : Nat) :
    ∀ a ∈ (t.enclosed n).tokens, a.Lexable := by
  induction n with
  | zero => exact ht
  | succ n ih =>
    exact forall_mem_tokens_group.mpr ⟨.spelled rfl, ih, .spelled rfl⟩

end Tree

namespace Setting

variable {ts : Array Token}

/-- The tree that evaluation goes through is the one that C reads out of the same tokens exactly
    if no `||` stands before a `&&` in the same brackets. Then evaluating a text with these tokens
    gives the value of that tree, with both sides of every operator evaluated, or fails like it.
    If the tree has a value and nests deeper than the limit, the limit is reported instead. -/
theorem reads_as_c_unless_or_precedes_and (h : Token.WellFormed ts.toList) :
    ∃ t u : Tree Token, t.IsExpression ∧ t.tokens = ts.toList
      ∧ (∀ (σ : Type) (s : Setting σ), s.evalTokens ts = s.runTree (s.levels 0) 0 t)
      ∧ u.IsReadBy BinOp.cLooseness ∧ u.tokens = ts.toList
      ∧ (∀ v : Tree Token, v.IsReadBy BinOp.cLooseness → v.tokens = ts.toList → v = u)
      ∧ (t = u ↔ ¬ Precedes .or .and ts.toList)
      ∧ (¬ Precedes .or .and ts.toList →
        ∀ (text : String) (maxTokens : Int), tokenize text maxTokens = .ok ts →
        ∀ (w : Width) (maxDepth : Int) (resolver : Option (String → Option Int)),
          ((u.nesting : Int) ≤ maxDepth →
            (stateless w maxDepth resolver).valueOf text maxTokens
              = (u.meaning w (knownBy resolver)).mapError .expr)
          ∧ ∀ value, u.meaning w (knownBy resolver) = .ok value →
            maxDepth < (u.nesting : Int) →
            (stateless w maxDepth resolver).valueOf text maxTokens
              = .error (.expr (.nestingTooDeep maxDepth))) := by
  obtain ⟨t, ht, htokens⟩ := h
  have hc := Tree.isReadBy_sunk ht
  have hsunk : t.sunk.tokens = ts.toList := by rw [Tree.tokens_sunk, htokens]
  have hiff : t = t.sunk ↔ ¬ Precedes .or .and ts.toList := by
    rw [← htokens, ← Tree.isReadBy_cLooseness_iff ht]
    constructor
    · intro h
      rw [h]
      exact hc
    · intro h
      exact h.unique hc (Tree.tokens_sunk t).symm
  refine ⟨t, t.sunk, ht, htokens, fun σ s => evalTokens_of_tokens ht htokens, hc, hsunk,
    fun v hv h => hv.unique hc (h.trans hsunk.symm), hiff, ?_⟩
  intro hnone text maxTokens hlex w maxDepth resolver
  rw [← hiff.mpr hnone]
  exact ⟨valueOf_of_tokens hlex ht htokens,
    fun value hvalue hdeep => valueOf_of_tooDeep hlex ht htokens hdeep hvalue⟩

/-- `1` in 513 pairs of brackets is an expression without any operator, and its tree has the
    value 1, but it nests deeper than the limit that is used if none is given. -/
theorem nestingTooDeep_without_operators :
    let t := (Tree.leaf (.decimal 1)).enclosed 513
    tokenize (Token.compact t.tokens) defaultMaxTokens = .ok t.tokens.toArray
    ∧ t.IsExpression ∧ t.IsReadBy BinOp.cLooseness ∧ ¬ Precedes .or .and t.tokens
    ∧ t.meaning .w32 (knownBy none) = .ok 1
    ∧ (stateless .w32 defaultMaxDepth none).valueOf (Token.compact t.tokens) defaultMaxTokens
        = .error (.expr (.nestingTooDeep 512)) := by
  intro t
  have ht : t.IsExpression := Tree.isExpression_enclosed (Tree.isExpression_leaf.mpr rfl) 513
  have hnone : ¬ Precedes .or .and t.tokens := by
    rw [Tree.precedes_enclosed]
    exact Tree.not_precedes_leaf _
  have hlength : (t.tokens.length : Int) ≤ defaultMaxTokens := by
    rw [Tree.length_tokens_enclosed]
    decide
  have hlexable : ∀ a ∈ t.tokens, a.Lexable := by
    refine Tree.lexable_enclosed (fun a ha => ?_) 513
    rw [Tree.tokens_leaf, List.mem_singleton] at ha
    rw [ha]
    exact Token.lexable_decimal (by decide)
  have hlex := tokenize_compact_of_lexable hlexable t.apart_tokens hlength
  have hvalue : t.meaning .w32 (knownBy none) = .ok 1 := by
    rw [Tree.meaning_enclosed]
    decide
  have hdeep : defaultMaxDepth < (t.nesting : Int) := by
    rw [Tree.nesting_enclosed]
    decide
  exact ⟨hlex, ht, (Tree.isReadBy_cLooseness_iff ht).mpr hnone, hnone, hvalue,
    valueOf_of_tooDeep hlex ht rfl hdeep hvalue⟩

/-- `1||0&&0` is read in two ways, and `1&&0||1` in one, by which it has its value. -/
theorem readings_of_or_and :
    (∃ t u : Tree Token, t.IsExpression ∧ u.IsReadBy BinOp.cLooseness ∧ t ≠ u
      ∧ t.tokens = [⟨.dec, "1"⟩, .spelled (.op .or), ⟨.dec, "0"⟩, .spelled (.op .and), ⟨.dec, "0"⟩]
      ∧ u.tokens = t.tokens)
    ∧ (stateless .w32 2 none).valueOf "1&&0||1" 9 = .ok 1 := by
  constructor
  · let ts : Array Token := #[⟨.dec, "1"⟩, .spelled (.op .or), ⟨.dec, "0"⟩, .spelled (.op .and),
      ⟨.dec, "0"⟩]
    have hts : Token.WellFormed ts.toList :=
      ⟨.node .and (.node .or (.leaf ⟨.dec, "1"⟩) (.leaf ⟨.dec, "0"⟩)) (.leaf ⟨.dec, "0"⟩),
        by decide, rfl⟩
    have hprecedes : Precedes .or .and ts.toList :=
      ⟨[⟨.dec, "1"⟩], [⟨.dec, "0"⟩], [⟨.dec, "0"⟩], rfl, rfl⟩
    obtain ⟨t, u, ht, htokens, -, hu, hutokens, -, hiff, -⟩ :=
      reads_as_c_unless_or_precedes_and hts
    exact ⟨t, u, ht, hu, fun h => hiff.mp h hprecedes, htokens, hutokens.trans htokens.symm⟩
  · let x : Tree Token := .node .or
      (.node .and (.leaf ⟨.dec, "1"⟩) (.leaf ⟨.dec, "0"⟩)) (.leaf ⟨.dec, "1"⟩)
    have hx : x.IsExpression := by decide
    have hwell : Token.WellFormed x.tokens.toArray.toList := ⟨x, hx, rfl⟩
    have hnone : ¬ Precedes .or .and x.tokens := (Tree.isReadBy_cLooseness_iff hx).mp (by decide)
    obtain ⟨t, u, -, -, -, -, -, hunique, -, hvalue⟩ := reads_as_c_unless_or_precedes_and hwell
    obtain rfl := hunique x (by decide) rfl
    exact (hvalue hnone "1&&0||1" 9 (by decide +kernel) .w32 2 none).1 (by decide)

end Setting

end WordExpr
