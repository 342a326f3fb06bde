/-
  WordExpr.Tree

  Expression trees. A tree keeps its brackets, so it has exactly one written form, its
  flattening. A tree is canonical for a ranking of the operators if it is the one that the
  ranking reads out of that form: what an operator has on its left binds at least as tight
  as the operator itself, and what it has on its right binds tighter, which makes chains
  associate to the left.
-/
import WordExpr.Token

namespace WordExpr

/-- An expression tree with operands in `α`. -/
inductive Tree (α : Type) where
  | leaf (a : α)
  | group (inside : Tree α)
  | node (op : BinOp) (left right : Tree α)
  deriving DecidableEq, Repr

namespace Tree

variable {α β : Type}

/-- How loosely the top of a tree binds: not at all for operands and brackets. -/
def looseness (rank : BinOp → Nat) : Tree α → Nat
  | leaf _ => 0
  | group _ => 0
  | node op _ _ => rank op

/-- Is the tree the one that the ranking reads out of its flattening? -/
def Canonical (rank : BinOp → Nat) : Tree α → Prop
  | leaf _ => True
  | group t => Canonical rank t
  | node op l r =>
    Canonical rank l ∧ Canonical rank r
      ∧ l.looseness rank ≤ rank op ∧ r.looseness rank < rank op

/-- Whether a tree is canonical can be computed. -/
def decideCanonical (rank : BinOp → Nat) : (t : Tree α) → Decidable (t.Canonical rank)
  | leaf _ => .isTrue trivial
  | group t => decideCanonical rank t
  | node op l r =>
    have := decideCanonical rank l
    have := decideCanonical rank r
    inferInstanceAs (Decidable
      (Canonical rank l ∧ Canonical rank r
        ∧ l.looseness rank ≤ rank op ∧ r.looseness rank < rank op))

instance (rank : BinOp → Nat) (t : Tree α) : Decidable (t.Canonical rank) :=
  decideCanonical rank t

/-- The written form of a tree, given how operands, operators and brackets are written. -/
def flatten (leafOf : α → β) (opOf : BinOp → β) (opening closing : β) : Tree α → List β
  | leaf a => [leafOf a]
  | group t => opening :: (flatten leafOf opOf opening closing t ++ [closing])
  | node op l r =>
    flatten leafOf opOf opening closing l
      ++ opOf op :: flatten leafOf opOf opening closing r

/-- The tree with other operands in the places of its own. -/
def map (f : α → β) : Tree α → Tree β
  | leaf a => leaf (f a)
  | group t => group (map f t)
  | node op l r => node op (map f l) (map f r)

/-- The operands of a tree from left to right. -/
def leaves : Tree α → List α
  | leaf a => [a]
  | group t => t.leaves
  | node _ l r => l.leaves ++ r.leaves

/-- How deep a tree nests: brackets and right operands count, left operands do not. -/
def nesting : Tree α → Nat
  | leaf _ => 0
  | group t => t.nesting + 1
  | node _ l r => max l.nesting (r.nesting + 1)

/-- The value of a tree from the bottom up and from left to right, in a monad in which
    operands and operators are evaluated. -/
def value {m : Type → Type} [Monad m] (leafValue : α → m Nat) (apply : BinOp → Nat → Nat → m Nat) :
    Tree α → m Nat
  | leaf a => leafValue a
  | group t => value leafValue apply t
  | node op l r => do
    let a ← value leafValue apply l
    let b ← value leafValue apply r
    apply op a b

/-- The tokens of a tree of operand tokens. -/
def tokens : Tree Token → List Token :=
  flatten id (fun op => .spelled (.op op)) (.spelled .lparen) (.spelled .rparen)

theorem flatten_ne_nil (leafOf : α → β) (opOf : BinOp → β) (opening closing : β) (t : Tree α) :
    t.flatten leafOf opOf opening closing ≠ [] := by
  cases t <;> simp [flatten]

/-! ## Other operands -/

theorem map_injective {f : α → β} (hf : Function.Injective f) : Function.Injective (map f) := by
  intro t u h
  induction t generalizing u with
  | leaf a =>
    cases u with
    | leaf b =>
      injection h with hab
      rw [hf hab]
    | _ => cases h
  | group t ih =>
    cases u with
    | group u =>
      injection h with htu
      rw [ih htu]
    | _ => cases h
  | node op l r ihl ihr =>
    cases u with
    | node op' l' r' =>
      injection h with hop hl hr
      rw [hop, ihl hl, ihr hr]
    | _ => cases h

@[simp] theorem looseness_map (rank : BinOp → Nat) (f : α → β) (t : Tree α) :
    (t.map f).looseness rank = t.looseness rank := by
  cases t <;> rfl

@[simp] theorem canonical_map (rank : BinOp → Nat) (f : α → β) (t : Tree α) :
    (t.map f).Canonical rank ↔ t.Canonical rank := by
  induction t with
  | leaf a => exact Iff.rfl
  | group t ih => exact ih
  | node op l r ihl ihr => simp only [map, Canonical, ihl, ihr, looseness_map]

theorem leaves_map (f : α → β) (t : Tree α) : (t.map f).leaves = t.leaves.map f := by
  induction t with
  | leaf a => rfl
  | group t ih => exact ih
  | node op l r ihl ihr => simp only [map, leaves, ihl, ihr, List.map_append]

end Tree

end WordExpr
