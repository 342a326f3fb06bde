/-
  WordExpr.Proofs.Meaning

  What an expression means: the value of its tree from the bottom up and from left to right,
  where a literal is the word that its digits denote, a register is what is known under its
  name, and operators are those of words. A tree has no meaning for the reason of the first
  of its subtrees, in post-order, that fails by itself (`Tree.firstFailure?_eq`).

  Evaluating the tokens of an expression yields its meaning, if the expression does not nest
  too deep (`Setting.yields_runTree`); if it does and has a value, the limit is reported
  (`Setting.yields_runTree_of_tooDeep`).
-/
import WordExpr.Proofs.Literals
import WordExpr.Proofs.TreeRun

namespace WordExpr

open Range

/-- A computation with a result has one at each of its steps. -/
theorem exists_of_bind_eq_ok {ε α β : Type} {x : Except ε α} {f : α → Except ε β} {b : β}
    (h : (x >>= f) = .ok b) : ∃ a, x = .ok a ∧ f a = .ok b := by
  cases x with
  | error e => cases h
  | ok a => exact ⟨a, rfl, h⟩

theorem mapError_eq_ok_iff {ε ε' α : Type} {x : Except ε α} {f : ε → ε'} {a : α} :
    x.mapError f = .ok a ↔ x = .ok a := by
  cases x with
  | error e => exact ⟨nofun, nofun⟩
  | ok b => rw [Except.mapError, Except.ok.injEq, Except.ok.injEq]

/-! ## Words and registers -/

/-- The value of an operator on two numbers that are taken as words. -/
def BinOp.onWords (w : Width) (op : BinOp) (a b : Nat) : Except ZeroDivisor Nat :=
  BitVec.toNat <$> op.compute w (w.wrap a) (w.wrap b)

theorem BinOp.apply_size (w : Width) (op : BinOp) (a b : Nat) :
    op.apply w.size a b = (op.onWords w a b).mapError .zeroDivisor := by
  rw [apply, Word.width_size, onWords]
  simp only
  cases op.compute w (w.wrap a) (w.wrap b) <;> rfl

theorem BinOp.onWords_lt {w : Width} {op : BinOp} {a b v : Nat} (h : op.onWords w a b = .ok v) :
    v < 2 ^ w.size := by
  rw [onWords] at h
  cases hop : op.compute w (w.wrap a) (w.wrap b) with
  | error z =>
    rw [hop] at h
    cases h
  | ok x =>
    rw [hop] at h
    cases h
    exact x.isLt

/-- The name of a register token's register. -/
def Token.register (t : Token) : String := String.ofList (t.text.toList.drop 1)

/-- What is known of registers: what a resolver without state answers, or nothing. -/
def knownBy (resolver : Option (String → Option Int)) (name : String) : Option Int :=
  resolver.bind fun f => f name

/-- The setting with a supported width and a resolver without state, or none. -/
def Setting.stateless (w : Width) (maxDepth : Int) (resolver : Option (String → Option Int)) :
    Setting Unit :=
  ⟨w.size, maxDepth, resolver.map Resolver.pure⟩

/-! ## Meaning -/

/-- The meaning of an operand. -/
def Token.meaning (w : Width) (known : String → Option Int) (t : Token) : Except ExprError Nat :=
  match t.kind with
  | .reg =>
    match known t.register with
    | none => .error (.unknownRegister t.register)
    | some value => .ok (w.wrap value).toNat
  | _ => .ok (w.wrap t.number).toNat

namespace Token

variable {w : Width} {known : String → Option Int} {a : Token} {n v : Nat}

theorem meaning_of_isLiteral (h : a.kind.isLiteral = true) :
    a.meaning w known = .ok (w.wrap a.number).toNat := by
  rcases Lexable.isLiteral_cases h with hk | hk <;> rw [meaning, hk]

theorem meaning_of_register {value : Int} (hk : a.kind = .reg)
    (hvalue : known a.register = some value) :
    a.meaning w known = .ok (w.wrap value).toNat := by
  rw [meaning, hk]
  simp only [hvalue]

theorem meaning_decimal (h : n < 2 ^ w.size) : (decimal n).meaning w known = .ok n := by
  rw [meaning_of_isLiteral rfl, number_decimal, w.toNat_wrap_natCast h]

/-- The meaning of an operand is a word. -/
theorem meaning_lt (h : a.meaning w known = .ok v) : v < 2 ^ w.size := by
  unfold meaning at h
  split at h
  · split at h
    · cases h
    · cases h
      exact w.toNat_wrap_lt _
  · cases h
    exact w.toNat_wrap_lt _

end Token

namespace Tree

variable {w : Width} {known : String → Option Int} {t l r : Tree Token} {op : BinOp}

/-- The meaning of an expression. -/
def meaning (w : Width) (known : String → Option Int) : Tree Token → Except ExprError Nat :=
  value (Token.meaning w known) fun op a b => (op.onWords w a b).mapError .zeroDivisor

theorem meaning_leaf (a : Token) : (leaf a).meaning w known = a.meaning w known := rfl

theorem meaning_group (t : Tree Token) : (group t).meaning w known = t.meaning w known := rfl

theorem meaning_node (op : BinOp) (l r : Tree Token) :
    (node op l r).meaning w known = l.meaning w known >>= fun a =>
      r.meaning w known >>= fun b => (op.onWords w a b).mapError .zeroDivisor := rfl

/-- The subtrees of a tree, the tree itself last: operands before operators, and what is
    left before what is right. -/
def postorder {α : Type} : Tree α → List (Tree α)
  | leaf a => [leaf a]
  | group t => postorder t ++ [group t]
  | node op l r => postorder l ++ postorder r ++ [node op l r]

/-- The error of a result, if it is one. -/
def failureOf? {ε α : Type} : Except ε α → Option ε
  | .error e => some e
  | .ok _ => none

theorem failureOf?_mapError {ε ε' α : Type} (x : Except ε α) (f : ε → ε') :
    failureOf? (x.mapError f) = (failureOf? x).map f := by
  cases x <;> rfl

section Failures

variable {α ε : Type} (leafValue : α → Except ε Nat) (apply : BinOp → Nat → Nat → Except ε Nat)

/-- How a tree fails by itself: an operand without a value, or an operator that has none on
    the values of its operands. -/
def ownFailure? : Tree α → Option ε
  | leaf a => failureOf? (leafValue a)
  | group _ => none
  | node op l r =>
    match l.value leafValue apply, r.value leafValue apply with
    | .ok a, .ok b => failureOf? (apply op a b)
    | _, _ => none

/-- A tree fails as the first of its subtrees does that fails by itself. -/
theorem findSome?_ownFailure? (t : Tree α) :
    t.postorder.findSome? (ownFailure? leafValue apply)
      = failureOf? (t.value leafValue apply) := by
  induction t with
  | leaf a =>
    rw [postorder, List.findSome?_singleton]
    rfl
  | group t ih =>
    rw [postorder, List.findSome?_append, ih, List.findSome?_singleton]
    exact Option.or_none
  | node op l r ihl ihr =>
    have hnode : (node op l r).value leafValue apply
        = l.value leafValue apply >>= fun a => r.value leafValue apply >>= fun b =>
            apply op a b := rfl
    rw [postorder, List.findSome?_append, List.findSome?_append, ihl, ihr,
      List.findSome?_singleton, hnode, ownFailure?]
    -- The operator is asked only if both operands have values.
    cases l.value leafValue apply with
    | error e => rfl
    | ok a =>
      cases r.value leafValue apply with
      | error e => rfl
      | ok b => exact Option.none_or

end Failures

/-- How an expression fails by itself: an operand without a value, or an operator that has none
    on the values of its operands. -/
def failure? (w : Width) (known : String → Option Int) : Tree Token → Option ExprError
  | leaf a => failureOf? (a.meaning w known)
  | group _ => none
  | node op l r =>
    match l.meaning w known, r.meaning w known with
    | .ok a, .ok b => (failureOf? (op.onWords w a b)).map .zeroDivisor
    | _, _ => none

/-- The failure of the first subtree in post-order that fails by itself. -/
def firstFailure? (w : Width) (known : String → Option Int) (t : Tree Token) :
    Option ExprError :=
  t.postorder.findSome? (failure? w known)

theorem failure?_eq (w : Width) (known : String → Option Int) :
    failure? w known = ownFailure? (Token.meaning w known)
      fun op a b => (op.onWords w a b).mapError .zeroDivisor := by
  funext t
  cases t with
  | node op l r =>
    rw [failure?, ownFailure?, ← meaning]
    cases l.meaning w known with
    | error e => rfl
    | ok a =>
      cases r.meaning w known with
      | error e => rfl
      | ok b => exact (failureOf?_mapError _ _).symm
  | _ => rfl

/-- An expression fails as the first of its subtrees does. -/
theorem firstFailure?_eq (w : Width) (known : String → Option Int) (t : Tree Token) :
    t.firstFailure? w known = failureOf? (t.meaning w known) := by
  rw [firstFailure?, failure?_eq, findSome?_ownFailure?]
  rfl

/-- An operator tree has a meaning only if both operands have one. -/
theorem exists_meaning_of_node {v : Nat} (h : (node op l r).meaning w known = .ok v) :
    ∃ a b, l.meaning w known = .ok a ∧ r.meaning w known = .ok b := by
  rw [meaning_node] at h
  obtain ⟨a, hl, h⟩ := exists_of_bind_eq_ok h
  obtain ⟨b, hr, -⟩ := exists_of_bind_eq_ok h
  exact ⟨a, b, hl, hr⟩

/-- The meaning of an expression is a word. -/
theorem meaning_lt {v : Nat} (h : t.meaning w known = .ok v) : v < 2 ^ w.size := by
  induction t with
  | leaf a => exact Token.meaning_lt h
  | group t ih => exact ih h
  | node op l r =>
    rw [meaning_node] at h
    obtain ⟨a, -, h⟩ := exists_of_bind_eq_ok h
    obtain ⟨b, -, h⟩ := exists_of_bind_eq_ok h
    exact BinOp.onWords_lt (mapError_eq_ok_iff.mp h)

/-- An expression fails for want of a register or by a division by zero only. -/
theorem meaning_eq_error {e : ExprError} (h : t.meaning w known = .error e) :
    (∃ name, e = .unknownRegister name ∧ known name = none) ∨ ∃ z, e = .zeroDivisor z := by
  induction t with
  | leaf a =>
    rw [meaning_leaf, Token.meaning] at h
    split at h
    · split at h
      · rename_i hknown
        cases h
        exact .inl ⟨_, rfl, hknown⟩
      · cases h
    · cases h
  | group t ih => exact ih h
  | node op l r ihl ihr =>
    rw [meaning_node] at h
    cases hl : l.meaning w known with
    | error e' =>
      rw [hl] at h
      cases h
      exact ihl hl
    | ok a =>
      cases hr : r.meaning w known with
      | error e' =>
        rw [hl, hr] at h
        cases h
        exact ihr hr
      | ok b =>
        rw [hl, hr] at h
        change (op.onWords w a b).mapError ExprError.zeroDivisor = .error e at h
        cases hop : op.onWords w a b with
        | error z =>
          rw [hop] at h
          cases h
          exact .inr ⟨z, rfl⟩
        | ok v =>
          rw [hop] at h
          cases h

end Tree

/-! ## Results that do not depend on the session -/

namespace EvalM

variable {σ α β : Type} {m : EvalM σ α} {r : Except ExprError α}

/-- In every session the evaluation has this result. -/
def Yields (m : EvalM σ α) (r : Except ExprError α) : Prop :=
  ∀ state, ∃ last, m state = match r with
    | .ok a => .ok a last
    | .error e => .error (.expr e) last

theorem yields_pure (a : α) : (pure a : EvalM σ α).Yields (.ok a) :=
  fun state => ⟨state, rfl⟩

theorem yields_fail (e : ExprError) : (fail e : EvalM σ α).Yields (.error e) :=
  fun state => ⟨state, rfl⟩

theorem Yields.bind {f : α → EvalM σ β} {g : α → Except ExprError β} (hm : m.Yields r)
    (hf : ∀ a, r = .ok a → (f a).Yields (g a)) : (m >>= f).Yields (r >>= g) := by
  intro state
  obtain ⟨next, hnext⟩ := hm state
  cases r with
  | error e => exact ⟨next, bind_of_error hnext⟩
  | ok a =>
    obtain ⟨last, hlast⟩ := hf a rfl next
    exact ⟨last, (bind_of_ok hnext).trans hlast⟩

theorem Yields.noted {m : EvalM σ Nat} {r : Except ExprError Nat} (hm : m.Yields r)
    (lo hi : Nat) : (noted lo hi m).Yields r := by
  have hnote (value : Nat) :
      (note ⟨lo, hi, value⟩ >>= fun _ => pure value : EvalM σ Nat).Yields (.ok value) :=
    fun state => ⟨_, rfl⟩
  have hbind := hm.bind fun value _ => hnote value
  cases r <;> exact hbind

/-- The result of an evaluation in a session. -/
def result (m : EvalM σ α) (state : Session σ) : Except EvalError α :=
  match m state with
  | .ok a _ => .ok a
  | .error e _ => .error e

theorem Yields.result_eq (h : m.Yields r) (state : Session σ) :
    m.result state = r.mapError .expr := by
  obtain ⟨last, hlast⟩ := h state
  rw [result, hlast]
  cases r <;> rfl

theorem Yields.eq_ok {a : α} {state last : Session σ} (h : m.Yields r)
    (hrun : m state = .ok a last) : r = .ok a := by
  obtain ⟨next, hnext⟩ := h state
  rw [hrun] at hnext
  cases r with
  | error e => cases hnext
  | ok b =>
    cases hnext
    rfl

theorem exists_of_result_eq_ok {a : α} {state : Session σ} (h : m.result state = .ok a) :
    ∃ last, m state = .ok a last := by
  unfold result at h
  split at h
  · cases h
    exact ⟨_, by assumption⟩
  · cases h

theorem exists_of_result_eq_error {e : EvalError} {state : Session σ}
    (h : m.result state = .error e) : ∃ last, m state = .error e last := by
  unfold result at h
  split at h
  · cases h
  · cases h
    exact ⟨_, by assumption⟩

end EvalM

/-! ## Evaluating expressions -/

theorem Range.Holds.lexable {ts : Array Token} {lo hi : Nat} {t : Tree Token}
    (h : Holds ts lo hi t) (hts : ∀ a ∈ ts, a.Lexable) : ∀ a ∈ t.tokens, a.Lexable := by
  intro a ha
  rw [← h.tokens] at ha
  exact hts a (mem_of_mem_slice ha)

namespace Setting

open EvalM

variable {w : Width} {maxDepth : Int} {resolver : Option (String → Option Int)}

theorem yields_operand {a : Token} (ha : a.Lexable) (hop : a.kind.isOperand = true)
    (index : Nat) :
    ((stateless w maxDepth resolver).operand a index).Yields
      (a.meaning w (knownBy resolver)) := by
  have hliteral (hk : a.kind.isLiteral = true) :
      (EvalM.lift .ofLiteral (Literal.value a.text w.size) : EvalM Unit Nat).Yields
        (.ok (w.wrap a.number).toNat) := by
    rw [ha.literal_value hk]
    exact yields_pure _
  cases hk : a.kind with
  | dec =>
    rw [operand, Token.meaning, hk]
    exact hliteral (by rw [hk]; rfl)
  | hex =>
    rw [operand, Token.meaning, hk]
    exact hliteral (by rw [hk]; rfl)
  | reg =>
    have hask : (ask (stateless w maxDepth resolver).resolver a.register).Yields
        (.ok (knownBy resolver a.register)) := by
      cases resolver with
      | none => exact yields_pure _
      | some f => exact fun state => ⟨_, rfl⟩
    rw [operand, Token.meaning, hk]
    refine hask.bind (g := fun value? => match value? with
      | none => .error (.unknownRegister a.register)
      | some value => .ok (w.wrap value).toNat) fun value? _ => ?_
    cases value? with
    | none => exact yields_fail _
    | some value =>
      show (EvalM.lift .width (Word.reduce w.size value) : EvalM Unit Nat).Yields _
      rw [Word.reduce_size]
      exact yields_pure _
  | _ =>
    rw [hk] at hop
    cases hop

theorem yields_apply (op : BinOp) (a b : Nat) :
    (EvalM.lift .ofOperator (op.apply w.size a b) : EvalM Unit Nat).Yields
      ((op.onWords w a b).mapError .zeroDivisor) := by
  rw [BinOp.apply_size]
  cases op.onWords w a b with
  | error z => exact yields_fail (.zeroDivisor z)
  | ok v => exact yields_pure v

/-- Evaluating an expression that does not nest too deep yields its meaning. -/
theorem yields_runTree {t : Tree Token} (ht : t.IsExpression)
    (hlex : ∀ a ∈ t.leaves, a.Lexable) {levels lo : Nat} (h : t.nesting < levels) :
    ((stateless w maxDepth resolver).runTree levels lo t).Yields
      (t.meaning w (knownBy resolver)) := by
  induction t generalizing levels lo with
  | leaf a =>
    cases levels with
    | zero => exact absurd h (Nat.not_lt_zero _)
    | succ levels =>
      rw [runTree]
      exact (yields_operand (hlex a (List.mem_singleton_self a))
        (Tree.isExpression_leaf.mp ht) lo).noted _ _
  | group t ih =>
    cases levels with
    | zero => exact absurd h (Nat.not_lt_zero _)
    | succ levels =>
      rw [runTree]
      exact (ih (Tree.isExpression_group.mp ht) hlex (Nat.lt_of_succ_lt_succ h)).noted _ _
  | node op l r ihl ihr =>
    obtain ⟨hl, hr, -, -⟩ := Tree.isExpression_node.mp ht
    rw [Tree.nesting] at h
    obtain ⟨hlexl, hlexr⟩ := List.forall_mem_append.mp hlex
    cases levels with
    | zero => exact absurd h (Nat.not_lt_zero _)
    | succ levels =>
      -- Left operands are on the level of the operator, right ones on the level below.
      rw [runTree, Tree.meaning_node]
      refine Yields.noted ?_ _ _
      refine (ihl hl hlexl (by omega)).bind fun left _ => ?_
      refine (ihr hr hlexr (by omega)).bind fun right _ => ?_
      exact yields_apply op left right

/-- Evaluating a range that holds an expression yields the meaning of the expression. -/
theorem yields_evalPlain {ts : Array Token} {levels lo hi : Nat} {t : Tree Token}
    (hts : ∀ a ∈ ts, a.Lexable) (h : Holds ts lo hi t) (ht : t.IsExpression)
    (hnesting : t.nesting < levels) :
    ((stateless w maxDepth resolver).evalPlain ts levels lo hi).Yields
      (t.meaning w (knownBy resolver)) := by
  rw [evalPlain_of_holds h ht]
  exact yields_runTree ht (fun a ha => h.lexable hts a (Tree.mem_tokens_of_mem_leaves ha)) hnesting

/-- If an expression that nests too deep has a meaning, the limit is what is reported. -/
theorem yields_runTree_of_tooDeep {t : Tree Token} (ht : t.IsExpression)
    (hlex : ∀ a ∈ t.leaves, a.Lexable) {levels lo value : Nat} (h : levels ≤ t.nesting)
    (hvalue : t.meaning w (knownBy resolver) = .ok value) :
    ((stateless w maxDepth resolver).runTree levels lo t).Yields
      (.error (.nestingTooDeep maxDepth)) := by
  induction t generalizing levels lo value with
  | leaf a =>
    cases Nat.le_zero.mp h
    rw [runTree]
    exact yields_fail _
  | group t ih =>
    cases levels with
    | zero =>
      rw [runTree]
      exact yields_fail _
    | succ levels =>
      rw [runTree]
      exact (ih (Tree.isExpression_group.mp ht) hlex (Nat.le_of_succ_le_succ h) hvalue).noted _ _
  | node op l r ihl ihr =>
    obtain ⟨hl, hr, -, -⟩ := Tree.isExpression_node.mp ht
    obtain ⟨hlexl, hlexr⟩ := List.forall_mem_append.mp hlex
    obtain ⟨left, right, hleft, hright⟩ := Tree.exists_meaning_of_node hvalue
    rw [Tree.nesting] at h
    cases levels with
    | zero =>
      rw [runTree]
      exact yields_fail _
    | succ levels =>
      rw [runTree]
      refine Yields.noted ?_ _ _
      -- Either the left operand is too deep, or it has its value and the right one is.
      by_cases hdeep : levels + 1 ≤ l.nesting
      · exact (ihl hl hlexl hdeep hleft).bind (g := fun _ => .error (.nestingTooDeep maxDepth))
          fun a ha => by cases ha
      · have hfirst : ((stateless w maxDepth resolver).runTree (levels + 1) lo l).Yields
            (l.meaning w (knownBy resolver)) :=
          yields_runTree hl hlexl (Nat.lt_of_not_le hdeep)
        rw [hleft] at hfirst
        refine hfirst.bind (g := fun _ => .error (.nestingTooDeep maxDepth)) fun a _ => ?_
        exact (ihr hr hlexr (by omega) hright).bind
          (g := fun _ => .error (.nestingTooDeep maxDepth)) fun b hb => by cases hb

end Setting

end WordExpr
