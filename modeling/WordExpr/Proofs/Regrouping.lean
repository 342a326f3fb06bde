/-
  WordExpr.Proofs.Regrouping

  Every tree of operands is written like an expression. An operator and an operand behind an
  expression go down its right edge until the operator does not bind tighter than what is
  there (`Tree.push`); what an expression is made of is so put behind another one, piece by
  piece (`Tree.join`), and any tree is regrouped from the bottom up (`Tree.regroup`).

  How deep an expression nests is bounded by the room before its last opening bracket: every
  level down to there costs an operator or a bracket. Behind it only right operands nest, and
  each of them binds tighter than the one before (`Tree.nesting_le_of_opensWithin`).
-/
import WordExpr.Proofs.Expression

namespace WordExpr

namespace Tree

variable {op : BinOp} {t a b : Tree Token}

/-! ## Joining two expressions -/

/-- The tree with an operator and an operand behind it. The operand belongs to the last
    operators of the tree only as far as the operator binds tighter than they do. -/
def push (op : BinOp) (x : Tree Token) : Tree Token → Tree Token
  | leaf a => node op (leaf a) x
  | group t => node op (group t) x
  | node o l r =>
    if op.looseness < o.looseness then node o l (push op x r) else node op (node o l r) x

/-- The tree with an operator and another tree behind it. -/
def join (op : BinOp) (a : Tree Token) : Tree Token → Tree Token
  | leaf x => push op (leaf x) a
  | group t => push op (group t) a
  | node o l r => join o (join op a l) r

variable {x : Tree Token}

theorem tokens_push (op : BinOp) (x a : Tree Token) :
    (push op x a).tokens = a.tokens ++ .spelled (.op op) :: x.tokens := by
  induction a with
  | leaf y => rfl
  | group t => rfl
  | node o l r _ ih =>
    rw [push]
    split
    · rw [tokens_node, ih, tokens_node, List.append_assoc, List.cons_append]
    · rfl

theorem tokens_join (op : BinOp) (a b : Tree Token) :
    (join op a b).tokens = a.tokens ++ .spelled (.op op) :: b.tokens := by
  induction b generalizing op a with
  | leaf x => exact tokens_push op (leaf x) a
  | group t => exact tokens_push op (group t) a
  | node o l r ihl ihr =>
    rw [join, ihr, ihl, tokens_node, List.append_assoc, List.cons_append]

/-- The top of a tree binds no more loosely for an operand behind it, unless the new operator
    does. -/
theorem looseness_push_le {n : Nat} (ha : a.looseness BinOp.looseness ≤ n)
    (hop : op.looseness ≤ n) : (push op x a).looseness BinOp.looseness ≤ n := by
  cases a with
  | leaf y => exact hop
  | group t => exact hop
  | node o l r =>
    rw [push]
    split
    · exact ha
    · exact hop

theorem isExpression_push (ha : a.IsExpression) (hx : x.IsExpression)
    (hoperand : x.looseness BinOp.looseness = 0) : (push op x a).IsExpression := by
  have hpos : x.looseness BinOp.looseness < op.looseness := by
    rw [hoperand]
    exact op.looseness_pos
  induction a with
  | leaf y => exact isExpression_node.mpr ⟨ha, hx, Nat.zero_le _, hpos⟩
  | group t => exact isExpression_node.mpr ⟨ha, hx, Nat.zero_le _, hpos⟩
  | node o l r _ ih =>
    obtain ⟨hl, hr, hle, hlt⟩ := isExpression_node.mp ha
    rw [push]
    split
    -- The operand goes down the right edge, where all operators bind tighter than this one.
    · rename_i htight
      have hbelow : (push op x r).looseness BinOp.looseness ≤ o.looseness - 1 :=
        looseness_push_le (by omega) (by omega)
      exact isExpression_node.mpr ⟨hl, ih hr, hle, by omega⟩
    · rename_i hloose
      exact isExpression_node.mpr ⟨ha, hx, Nat.le_of_not_lt hloose, hpos⟩

theorem isExpression_join (ha : a.IsExpression) (hb : b.IsExpression) :
    (join op a b).IsExpression := by
  induction b generalizing op a with
  | leaf x => exact isExpression_push ha hb rfl
  | group t => exact isExpression_push ha hb rfl
  | node o l r ihl ihr =>
    obtain ⟨hl, hr, -, -⟩ := isExpression_node.mp hb
    exact ihr (ihl ha hl) hr

/-! ## Regrouping -/

/-- The expression that is written like a tree. -/
def regroup : Tree Token → Tree Token
  | leaf a => leaf a
  | group t => group (regroup t)
  | node op l r => join op (regroup l) (regroup r)

theorem tokens_regroup (t : Tree Token) : t.regroup.tokens = t.tokens := by
  induction t with
  | leaf a => rfl
  | group t ih => rw [regroup, tokens_group, tokens_group, ih]
  | node op l r ihl ihr => rw [regroup, tokens_join, tokens_node, ihl, ihr]

theorem isExpression_regroup (h : ∀ a ∈ t.leaves, a.kind.isOperand = true) :
    t.regroup.IsExpression := by
  induction t with
  | leaf a => exact isExpression_leaf.mpr (h a (List.mem_singleton_self a))
  | group t ih => exact isExpression_group.mpr (ih h)
  | node op l r ihl ihr =>
    obtain ⟨hl, hr⟩ := List.forall_mem_append.mp h
    exact isExpression_join (ihl hl) (ihr hr)

end Tree

/-! ## Where brackets open -/

/-- The room that tokens take at least where operators and brackets stand between blanks:
    three characters for each of them. Operands are not counted. -/
def roomOf (ts : List Token) : Nat := 3 * ts.countP fun t => !t.kind.isOperand

theorem roomOf_append (xs ys : List Token) : roomOf (xs ++ ys) = roomOf xs + roomOf ys := by
  rw [roomOf, List.countP_append, Nat.mul_add]
  rfl

theorem roomOf_spelled_cons {k : TokenKind} (hk : k.isOperand = false) (ts : List Token) :
    roomOf (.spelled k :: ts) = roomOf ts + 3 := by
  have hcount : (!(Token.spelled k).kind.isOperand) = true := by
    show (!k.isOperand) = true
    rw [hk]
    rfl
  rw [roomOf, List.countP_cons_of_pos (p := fun t : Token => !t.kind.isOperand) hcount]
  rfl

/-- Every opening bracket among the tokens stands within the limit, when there is room for
    `start` characters before the first token. -/
def OpensWithin (limit : Int) : (start : Nat) → List Token → Prop
  | _, [] => True
  | start, t :: ts =>
    (t.kind = .lparen → (start : Int) ≤ limit) ∧ OpensWithin limit (start + roomOf [t]) ts

namespace OpensWithin

variable {limit : Int} {start first : Nat} {xs ys : List Token}

theorem append : OpensWithin limit start (xs ++ ys)
    ↔ OpensWithin limit start xs ∧ OpensWithin limit (start + roomOf xs) ys := by
  induction xs generalizing start with
  | nil =>
    show OpensWithin limit start ys ↔ True ∧ OpensWithin limit start ys
    rw [true_and]
  | cons t xs ih =>
    have hroom : start + roomOf [t] + roomOf xs = start + roomOf (t :: xs) := by
      rw [Nat.add_assoc, ← roomOf_append, List.singleton_append]
    rw [List.cons_append, OpensWithin, OpensWithin, ih, hroom, and_assoc]

/-- Tokens that come earlier open their brackets earlier. -/
theorem mono {limit' : Int} (h : OpensWithin limit start xs) (hle : first ≤ start)
    (hlimit : limit ≤ limit') : OpensWithin limit' first xs := by
  induction xs generalizing first start with
  | nil => trivial
  | cons t xs ih =>
    obtain ⟨ht, hxs⟩ := h
    refine ⟨fun hk => ?_, ih hxs (Nat.add_le_add_right hle _)⟩
    have := ht hk
    omega

end OpensWithin

namespace Tree

variable {t : Tree Token} {k : Nat}

theorem looseness_le_of_ops (h : ∀ op, .spelled (.op op) ∈ t.tokens → op.looseness ≤ k) :
    t.looseness BinOp.looseness ≤ k := by
  cases t with
  | node op l r => exact h op (List.mem_append_right _ List.mem_cons_self)
  | _ => exact Nat.zero_le k

/-- The bound on nesting, for an expression before which there is room for `start` characters,
    three for each level that it is nested already. -/
theorem add_nesting_le {limit start n : Nat} (ht : t.IsExpression)
    (hops : ∀ op, .spelled (.op op) ∈ t.tokens → op.looseness ≤ k)
    (h : OpensWithin limit start t.tokens) (hlimit : limit + 3 * (k + 1) ≤ n)
    (hn : start + 3 * t.looseness BinOp.looseness ≤ n) : start + 3 * t.nesting ≤ n := by
  induction t generalizing start with
  | leaf a => exact hn
  | group t ih =>
    rw [tokens_group] at h hops
    obtain ⟨hopen, hinside⟩ := h
    have hstart := hopen rfl
    have hops' : ∀ op, .spelled (.op op) ∈ t.tokens → op.looseness ≤ k :=
      fun op hop => hops op (List.mem_cons_of_mem _ (List.mem_append_left _ hop))
    have hbelow := looseness_le_of_ops hops'
    -- A bracket opens within the limit, and behind it `n` has room for all classes again.
    have hdeep : start + 3 + 3 * t.nesting ≤ n :=
      ih (isExpression_group.mp ht) hops' (OpensWithin.append.mp hinside).1 (by omega)
    show start + 3 * (t.nesting + 1) ≤ n
    omega
  | node op l r ihl ihr =>
    obtain ⟨hl, hr, hle, hlt⟩ := isExpression_node.mp ht
    rw [tokens_node] at h hops
    obtain ⟨hleft, -, hright⟩ := OpensWithin.append.mp h
    have hn' : start + 3 * op.looseness ≤ n := hn
    have hdeepl := ihl hl (fun o ho => hops o (List.mem_append_left _ ho)) hleft (by omega)
    -- The operator in front of the right operand makes up for the level that it costs.
    have hnext : OpensWithin limit (start + 3) r.tokens := by
      refine hright.mono ?_ (Int.le_refl _)
      exact Nat.add_le_add_right (Nat.le_add_right start _) 3
    have hdeepr := ihr hr
      (fun o ho => hops o (List.mem_append_right _ (List.mem_cons_of_mem _ ho))) hnext (by omega)
    show start + 3 * max l.nesting (r.nesting + 1) ≤ n
    omega

/-- An expression nests one level for each three characters before its last opening bracket,
    one level in the bracket, and one for each class of operators that stand behind it. -/
theorem nesting_le_of_opensWithin {limit : Nat} (ht : t.IsExpression)
    (hops : ∀ op, .spelled (.op op) ∈ t.tokens → op.looseness ≤ k)
    (h : OpensWithin limit 0 t.tokens) : t.nesting ≤ limit / 3 + 1 + k := by
  have hbelow := looseness_le_of_ops hops
  have hdeep := add_nesting_le ht hops h (Nat.le_refl (limit + 3 * (k + 1))) (by omega)
  omega

end Tree

end WordExpr
