/-
  WordExpr.Proofs.PlainRecursion

  The walk along the left spine is plain recursion. `evalLevels` splits a range until its
  leftmost operand is left and applies the operators met on the way afterwards; a run of it
  does the same as a run of `evalPlain`, step by step: the same value or error, the same
  registers asked for, the same findings (`evalLevels_eq_evalPlain`).

  What the induction carries is the list of links that are still to be applied: walking a
  range with links behind it is evaluating the range plainly and folding the links over the
  value (`walk_bind_evalSpine`). Said with the depth of nesting instead of the levels that are
  left of it, the same holds of evaluation by the rules (`evalRange_eq_evalByRules`).

  The equations of `evalPlain`, one for each kind of range, come first; later proofs use
  them and not its definition.
-/
import WordExpr.Eval.Recursive
import WordExpr.Proofs.Slice

namespace WordExpr

open Range

namespace EvalM

variable {σ α β ε : Type}

@[simp] theorem lift_ok (f : ε → EvalError) (a : α) :
    (lift f (.ok a) : EvalM σ α) = pure a := rfl

theorem bind_of_ok {m : EvalM σ α} {f : α → EvalM σ β} {state next : Session σ} {a : α}
    (h : m state = .ok a next) : (m >>= f) state = f a next := by
  show EStateM.bind m f state = f a next
  rw [EStateM.bind, h]

theorem bind_of_error {m : EvalM σ α} {f : α → EvalM σ β} {state next : Session σ}
    {e : EvalError} (h : m state = .error e next) : (m >>= f) state = .error e next := by
  show EStateM.bind m f state = .error e next
  rw [EStateM.bind, h]

/-- An evaluation whose value is noted as found for the range `[lo, hi)`. -/
def noted (lo hi : Nat) (m : EvalM σ Nat) : EvalM σ Nat := do
  let value ← m
  note ⟨lo, hi, value⟩
  pure value

theorem noted_bind (lo hi : Nat) (m : EvalM σ Nat) (f : Nat → EvalM σ α) :
    noted lo hi m >>= f = m >>= fun value => note ⟨lo, hi, value⟩ >>= fun _ => f value := by
  simp only [noted, bind_assoc, pure_bind]

end EvalM

namespace Setting

variable {σ : Type} {s : Setting σ} {ts : Array Token} {levels lo hi op : Nat} {depth : Int}

/-! ## Plain recursion, range by range -/

theorem evalPlain_zero : s.evalPlain ts 0 lo hi = .fail (.nestingTooDeep s.maxDepth) := by
  rw [evalPlain]

theorem evalPlain_empty (h : hi ≤ lo) :
    s.evalPlain ts (levels + 1) lo hi
      = .fail (if ts.isEmpty then .emptyExpression else .emptyOperand lo) := by
  rw [evalPlain, if_pos h]

theorem evalPlain_operand (h : lo < ts.size) :
    s.evalPlain ts (levels + 1) lo (lo + 1) = .noted lo (lo + 1) (s.operand ts[lo] lo) := by
  have htoken : tokenAt ts lo = .ok ts[lo] := by
    rw [tokenAt, Array.getElem?_eq_getElem h]
  rw [evalPlain, if_neg (by omega), if_pos rfl, htoken]
  rfl

theorem evalPlain_bracketed (h : lo + 1 < hi) (hb : isBracketed ts lo hi = .ok true) :
    s.evalPlain ts (levels + 1) lo hi
      = .noted lo hi (s.evalPlain ts levels (lo + 1) (hi - 1)) := by
  rw [evalPlain, if_neg (by omega), if_neg (by omega), hb]
  rfl

theorem evalPlain_noOperator (h : lo + 1 < hi) (hb : isBracketed ts lo hi = .ok false)
    (hm : mainOperator? ts lo hi = .ok none) :
    s.evalPlain ts (levels + 1) lo hi
      = .fail (.noMainOperator (Token.compactRange ts lo hi)) := by
  rw [evalPlain, if_neg (by omega), if_neg (by omega), hb]
  simp only
  split
  · simp_all
  · rfl
  · simp_all

theorem evalPlain_split (h : lo + 1 < hi) (hb : isBracketed ts lo hi = .ok false)
    (hm : mainOperator? ts lo hi = .ok (some op)) :
    s.evalPlain ts (levels + 1) lo hi
      = .noted lo hi (s.evalPlain ts (levels + 1) lo op >>= fun left =>
          s.evalPlain ts levels (op + 1) hi >>= fun right => s.applyAt ts op left right) := by
  rw [evalPlain, if_neg (by omega), if_neg (by omega), hb]
  simp only
  split
  · simp_all
  · simp_all
  · rename_i op' hm'
    rw [hm] at hm'
    cases hm'
    simp only [EvalM.noted, bind_assoc]

/-! Outside the token list an index is touched that it does not have. -/

theorem evalPlain_unclosed {m : MissingToken} (h : lo + 1 < hi)
    (hb : isBracketed ts lo hi = .error m) :
    s.evalPlain ts (levels + 1) lo hi = throw (.missingToken m) := by
  rw [evalPlain, if_neg (by omega), if_neg (by omega), hb]

theorem evalPlain_unscanned {m : MissingToken} (h : lo + 1 < hi)
    (hb : isBracketed ts lo hi = .ok false) (hm : mainOperator? ts lo hi = .error m) :
    s.evalPlain ts (levels + 1) lo hi = throw (.missingToken m) := by
  rw [evalPlain, if_neg (by omega), if_neg (by omega), hb]
  simp only
  split
  · simp_all
  · simp_all
  · simp_all

/-! ## The spine and plain recursion -/

/-- The value of what a spine starts with. -/
def evalHead (s : Setting σ) (ts : Array Token) (levels lo : Nat) (spine : Spine) :
    EvalM σ Nat :=
  match spine.head with
  | .operand t => s.operand t lo
  | .bracketed => s.evalLevels ts levels (lo + 1) (spine.stop - 1)

/-- A link applied to the value of what stands left of it. -/
def evalLink (s : Setting σ) (ts : Array Token) (levels lo value : Nat) (link : SpineLink) :
    EvalM σ Nat :=
  .noted lo link.stop (s.evalLevels ts levels (link.op + 1) link.stop >>= fun rhs =>
    s.applyAt ts link.op value rhs)

/-- The value of a spine: the head first, then the links. -/
def evalSpine (s : Setting σ) (ts : Array Token) (levels lo : Nat) (spine : Spine) :
    EvalM σ Nat := do
  let value ← s.evalHead ts levels lo spine
  .note ⟨lo, spine.stop, value⟩
  spine.links.foldlM (s.evalLink ts levels lo) value

theorem evalLevels_succ (s : Setting σ) (ts : Array Token) (levels lo hi : Nat) :
    s.evalLevels ts (levels + 1) lo hi
      = .lift id (Spine.ofRange ts lo hi) >>= s.evalSpine ts levels lo := by
  have hlink : s.evalLink ts levels lo = fun value link => (do
      let rhs ← s.evalLevels ts levels (link.op + 1) link.stop
      let value ← s.applyAt ts link.op value rhs
      .note ⟨lo, link.stop, value⟩
      pure value) := by
    funext value link
    simp only [evalLink, EvalM.noted, bind_assoc]
  rw [evalLevels]
  refine bind_congr fun spine => ?_
  rw [evalSpine, evalHead, hlink]
  cases spine.head <;> rfl

/-- Walking along a range with links behind it is evaluating the range plainly and applying
    the links to its value, if both ways agree one level deeper. -/
theorem walk_bind_evalSpine
    (ih : ∀ lo hi, s.evalLevels ts levels lo hi = s.evalPlain ts levels lo hi)
    (lo hi : Nat) (links : List SpineLink) :
    (.lift id (Spine.walk ts lo hi links) >>= s.evalSpine ts levels lo)
      = s.evalPlain ts (levels + 1) lo hi >>= links.foldlM (s.evalLink ts levels lo) := by
  fun_induction Spine.walk ts lo hi links with
  | case1 hi links hempty =>
    rw [evalPlain_empty hempty]
    rfl
  | case2 links hmissing hne =>
    have htoken : tokenAt ts lo = .error ⟨lo⟩ := by rw [tokenAt, hmissing]
    rw [evalPlain, if_neg hne, if_pos rfl, htoken]
    rfl
  | case3 links t ht hne =>
    obtain ⟨hlt, rfl⟩ := Array.getElem?_eq_some_iff.mp ht
    rw [evalPlain_operand hlt]
    simp only [EvalM.lift_ok, pure_bind, EvalM.noted_bind, evalSpine, evalHead]
  | case4 hi links hne hone m hb =>
    rw [evalPlain_unclosed (by omega) hb]
    rfl
  | case5 hi links hne hone hb =>
    -- Inside brackets both ways are one level deeper.
    rw [evalPlain_bracketed (by omega) hb]
    simp only [EvalM.lift_ok, pure_bind, EvalM.noted_bind, evalSpine, evalHead, ih]
  | case6 hi links hne hone hb m hm =>
    rw [evalPlain_unscanned (by omega) hb hm]
    rfl
  | case7 hi links hne hone hb hm =>
    rw [evalPlain_noOperator (by omega) hb hm]
    rfl
  | case8 hi links hne hone hb op hm ihwalk =>
    -- The operator becomes the first of the links behind what is left of it.
    rw [ihwalk, evalPlain_split (by omega) hb hm]
    simp only [bind_assoc, EvalM.noted_bind, List.foldlM_cons, evalLink, ih]

theorem evalLevels_eq_evalPlain (s : Setting σ) (ts : Array Token) (levels lo hi : Nat) :
    s.evalLevels ts levels lo hi = s.evalPlain ts levels lo hi := by
  induction levels generalizing lo hi with
  | zero => rw [evalLevels, evalPlain_zero]
  | succ levels ih =>
    rw [evalLevels_succ, Spine.ofRange, walk_bind_evalSpine ih]
    simp only [List.foldlM_nil, bind_pure]

/-! ## Depth and levels -/

theorem levels_eq_zero (h : s.maxDepth < depth) : s.levels depth = 0 := by
  rw [levels]
  omega

/-- One deeper there is one level less. -/
theorem levels_eq_succ (h : ¬ s.maxDepth < depth) :
    s.levels depth = s.levels (depth + 1) + 1 := by
  rw [levels, levels]
  omega

/-- Counting the levels that are left is counting the depth reached. -/
theorem evalPlain_levels (s : Setting σ) (ts : Array Token) (lo hi : Nat) (depth : Int) :
    s.evalPlain ts (s.levels depth) lo hi = s.evalByRules ts lo hi depth := by
  fun_induction evalByRules s ts lo hi depth with
  | case1 lo hi depth hdeep => rw [levels_eq_zero hdeep, evalPlain_zero]
  | case2 lo hi depth hdepth hempty => rw [levels_eq_succ hdepth, evalPlain_empty hempty]
  | case3 lo depth hdepth hne => rw [levels_eq_succ hdepth, evalPlain, if_neg hne, if_pos rfl]
  | case4 lo hi depth hdepth hne hone m hb =>
    rw [levels_eq_succ hdepth, evalPlain_unclosed (by omega) hb]
  | case5 lo hi depth hdepth hne hone hb ih =>
    rw [levels_eq_succ hdepth, evalPlain_bracketed (by omega) hb, ih]
    rfl
  | case6 lo hi depth hdepth hne hone hb m hm =>
    rw [levels_eq_succ hdepth, evalPlain_unscanned (by omega) hb hm]
  | case7 lo hi depth hdepth hne hone hb hm =>
    rw [levels_eq_succ hdepth, evalPlain_noOperator (by omega) hb hm]
  | case8 lo hi depth hdepth hne hone hb op hm ihl ihr =>
    -- The left operand is on the level of the whole range, the right one on the next.
    rw [levels_eq_succ hdepth] at ihl ⊢
    rw [evalPlain_split (by omega) hb hm, ihl, ihr]
    simp only [EvalM.noted, bind_assoc]

/-- The walk along the left spine does what plain recursion by the rules does, on every range of
    every token list, at every depth, with every resolver: in each session it comes to the same
    value or the same error and leaves the same session behind, in which the same registers were
    asked for and the same values found, in the same order. -/
theorem evalRange_eq_evalByRules (s : Setting σ) (ts : Array Token) (lo hi : Nat) (depth : Int) :
    s.evalRange ts lo hi depth = s.evalByRules ts lo hi depth := by
  rw [evalRange, evalLevels_eq_evalPlain, evalPlain_levels]

end Setting

end WordExpr
