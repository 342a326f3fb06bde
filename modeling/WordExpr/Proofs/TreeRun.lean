/-
  WordExpr.Proofs.TreeRun

  Evaluating a tree. `runTree` goes through a tree from the left to the right and from the
  bottom up, with the limit of nesting, the registers asked for and the findings of an
  evaluation, but without looking at tokens or ranges.

  On a range that holds an expression, evaluation is the run of that expression, whatever
  the resolver (`evalPlain_of_holds`); and only a range that holds an expression has a value
  (`exists_holds_of_evalPlain`). What an evaluation does on well-formed input is therefore
  proved about `runTree`, by induction on the tree.
-/
import WordExpr.Proofs.PlainRecursion
import WordExpr.Proofs.RangeTree

namespace WordExpr

open Range

namespace EvalM

variable {σ α β : Type} {state : Session σ}

/-- A sequence of two evaluations has a value if both of them have one. -/
theorem bind_eq_ok {m : EvalM σ α} {f : α → EvalM σ β} {b : β} {last : Session σ}
    (h : (m >>= f) state = .ok b last) :
    ∃ a next, m state = .ok a next ∧ f a next = .ok b last := by
  cases hm : m state with
  | ok a next =>
    rw [bind_of_ok hm] at h
    exact ⟨a, next, rfl, h⟩
  | error e next =>
    rw [bind_of_error hm] at h
    cases h

theorem noted_eq_ok {m : EvalM σ Nat} {lo hi value : Nat} {last : Session σ}
    (h : noted lo hi m state = .ok value last) : ∃ next, m state = .ok value next := by
  obtain ⟨v, next, hm, hrest⟩ := bind_eq_ok h
  obtain ⟨u, after, -, hpure⟩ := bind_eq_ok hrest
  cases hpure
  exact ⟨next, hm⟩

end EvalM

namespace Setting

variable {σ : Type} {s : Setting σ} {ts : Array Token} {levels lo hi : Nat}

/-- The evaluation of a tree, the first token of which has index `lo`, with so many levels
    of nesting left. -/
def runTree (s : Setting σ) : (levels lo : Nat) → Tree Token → EvalM σ Nat
  | 0, _, _ => .fail (.nestingTooDeep s.maxDepth)
  | _ + 1, lo, .leaf a => .noted lo (lo + 1) (s.operand a lo)
  | levels + 1, lo, .group t =>
    .noted lo (lo + (Tree.group t).tokens.length) (runTree s levels (lo + 1) t)
  | levels + 1, lo, .node op l r =>
    .noted lo (lo + (Tree.node op l r).tokens.length)
      (runTree s (levels + 1) lo l >>= fun left =>
        runTree s levels (lo + l.tokens.length + 1) r >>= fun right =>
          .lift .ofOperator (op.apply s.bits left right))

/-- Applying an operator that stands at an index. -/
theorem applyAt_spelled {i : Nat} {op : BinOp} (h : ts[i]? = some (.spelled (.op op)))
    (left right : Nat) :
    s.applyAt ts i left right = .lift .ofOperator (op.apply s.bits left right) := by
  have htoken : tokenAt ts i = .ok (.spelled (.op op)) := by rw [tokenAt, h]
  have happly : BinOp.applySpelled (Token.spelled (.op op)).text s.bits left right
      = op.apply s.bits left right := BinOp.applySpelled_spelling op s.bits left right
  rw [applyAt, htoken, EvalM.lift_ok, pure_bind, happly]

/-- Evaluating a range that holds an expression is evaluating the expression. -/
theorem evalPlain_of_holds {t : Tree Token} (h : Holds ts lo hi t) (ht : t.IsExpression) :
    s.evalPlain ts levels lo hi = s.runTree levels lo t := by
  induction t generalizing levels lo hi with
  | leaf a =>
    obtain ⟨rfl, ha⟩ := h.leaf
    obtain ⟨hlt, rfl⟩ := Array.getElem?_eq_some_iff.mp ha
    cases levels with
    | zero => rw [evalPlain_zero, runTree]
    | succ levels => rw [evalPlain_operand hlt, runTree]
  | group t ih =>
    have hin := Tree.isExpression_group.mp ht
    obtain ⟨hseveral, hb, hinside⟩ := h.group hin
    cases levels with
    | zero => rw [evalPlain_zero, runTree]
    | succ levels =>
      rw [evalPlain_bracketed hseveral hb, ih hinside hin, runTree, ← h.hi_eq]
  | node op l r ihl ihr =>
    obtain ⟨hl, hr, -, -⟩ := Tree.isExpression_node.mp ht
    obtain ⟨hseveral, hb, hm⟩ := h.node ht
    cases levels with
    | zero => rw [evalPlain_zero, runTree]
    | succ levels =>
      obtain ⟨hop, hright⟩ := h.operator_right
      rw [evalPlain_split hseveral hb hm, ihl h.left hl, ihr hright hr, runTree, ← h.hi_eq]
      simp only [applyAt_spelled hop]

/-- A token that is no operand has no value. -/
theorem operand_of_not_isOperand {t : Token} (h : t.kind.isOperand = false) (index : Nat) :
    s.operand t index = .fail (.notANumber t index) := by
  unfold operand
  cases hk : t.kind with
  | dec | hex | reg =>
    rw [hk] at h
    cases h
  | _ => rfl

/-- A token that has a value is an operand. -/
theorem isOperand_of_operand_eq_ok {t : Token} {index value : Nat} {state last : Session σ}
    (h : s.operand t index state = .ok value last) : t.kind.isOperand = true := by
  cases hop : t.kind.isOperand with
  | true => rfl
  | false =>
    rw [operand_of_not_isOperand hop] at h
    cases h

/-- A range that has a value holds an expression, and one that does not nest too deep. -/
theorem exists_holds_of_evalPlain
    (hspelled : ∀ t ∈ ts, t.kind.isOperand = false → t = .spelled t.kind)
    (hs : hi ≤ ts.size) {value : Nat} {state last : Session σ}
    (h : s.evalPlain ts levels lo hi state = .ok value last) :
    ∃ t : Tree Token, t.IsExpression ∧ Holds ts lo hi t ∧ t.nesting < levels := by
  induction levels, lo, hi, hs using range_induction generalizing value state last with
  | deep lo hi hs =>
    rw [evalPlain_zero] at h
    cases h
  | empty levels lo hi hs hempty =>
    rw [evalPlain_empty hempty] at h
    cases h
  | operand levels lo hlt =>
    rw [evalPlain_operand hlt] at h
    obtain ⟨next, hvalue⟩ := EvalM.noted_eq_ok h
    exact ⟨.leaf ts[lo], Tree.isExpression_leaf.mpr (isOperand_of_operand_eq_ok hvalue),
      .of_leaf hlt, Nat.succ_pos levels⟩
  | bracketed levels lo hi hs hseveral hb ih =>
    rw [evalPlain_bracketed hseveral hb] at h
    obtain ⟨next, hvalue⟩ := EvalM.noted_eq_ok h
    obtain ⟨t, ht, hholds, hnesting⟩ := ih hvalue
    exact ⟨.group t, Tree.isExpression_group.mpr ht, .of_group hseveral hs hspelled hb hholds,
      Nat.succ_lt_succ hnesting⟩
  | noOperator levels lo hi hs hseveral hb hm =>
    rw [evalPlain_noOperator hseveral hb hm] at h
    cases h
  | split levels lo hi hs op hseveral hb hm ihl ihr =>
    rw [evalPlain_split hseveral hb hm] at h
    obtain ⟨next, hvalue⟩ := EvalM.noted_eq_ok h
    -- Both sides have values, so that both hold expressions, and so does the whole.
    obtain ⟨left, afterLeft, hleft, hrest⟩ := EvalM.bind_eq_ok hvalue
    obtain ⟨right, afterRight, hright, -⟩ := EvalM.bind_eq_ok hrest
    obtain ⟨l, htl, hl, hnl⟩ := ihl hleft
    obtain ⟨r, htr, hr, hnr⟩ := ihr hright
    obtain ⟨o, hholds, ht⟩ := Holds.of_node hs hspelled hm hl hr htl htr
    refine ⟨.node o l r, ht, hholds, ?_⟩
    rw [Tree.nesting]
    omega

end Setting

end WordExpr
