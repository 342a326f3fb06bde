/-
  WordExpr.Proofs.Defects

  Syntax errors are genuine and point at the defect. Evaluation reports one only of tokens that
  are not those of an expression, and what it names is to blame: an index at which an operand is
  missing, an operator or bracket that stands where an operand should, or a range of several
  tokens that is no expression (`Setting.syntaxErrors_point_at_defects`).

  What carries the indices is what stands just outside a range that evaluation comes to: on its
  left the list starts or an operator or opening bracket stands, on its right the list ends or
  an operator or closing bracket stands (`Range.Visited.enclosed`).
-/
import WordExpr.Proofs.Safety

namespace WordExpr

open Range Lexer

/-- The tokens are those of an expression. -/
def Token.WellFormed (ts : List Token) : Prop :=
  ∃ t : Tree Token, t.IsExpression ∧ t.tokens = ts

/-! ## What stands around a range -/

namespace Range

variable {ts : Array Token} {lo hi : Nat}

/-- An operand should stand in the range `[lo, hi)`, by what stands on either side of it. -/
structure Enclosed (ts : Array Token) (lo hi : Nat) : Prop where
  left : lo = 0 ∨ ∃ a, ts[lo - 1]? = some a ∧ (a.kind.isOperator = true ∨ a.kind = .lparen)
  right : hi = ts.size ∨ ∃ a, ts[hi]? = some a ∧ (a.kind.isOperator = true ∨ a.kind = .rparen)

/-- Every range that evaluation comes to is the place of an operand. -/
theorem Visited.enclosed (h : Visited ts lo hi) : Enclosed ts lo hi := by
  induction h with
  | whole => exact ⟨.inl rfl, .inl rfl⟩
  | @inside lo hi hv hseveral hb _ =>
    have hs := hv.bounds.2
    obtain ⟨hfirst, hlast, -⟩ := (isBracketed_eq_true_iff hseveral hs).mp hb
    refine ⟨.inr ⟨ts[lo], ?_, .inr hfirst⟩, .inr ⟨ts[hi - 1], ?_, .inr hlast⟩⟩
    · rw [Nat.add_sub_cancel, Array.getElem?_eq_getElem]
    · rw [Array.getElem?_eq_getElem]
  | left hv _ _ hm ih =>
    obtain ⟨a, ha, hop⟩ := exists_isOperator hv.bounds.1 hv.bounds.2 hm
    exact ⟨ih.left, .inr ⟨a, ha, .inl hop⟩⟩
  | right hv _ _ hm ih =>
    obtain ⟨a, ha, hop⟩ := exists_isOperator hv.bounds.1 hv.bounds.2 hm
    exact ⟨.inr ⟨a, by rw [Nat.add_sub_cancel, ha], .inl hop⟩, ih.right⟩

/-- A range of several tokens that is no pair of brackets and has no main operator does not
    hold an expression. -/
theorem not_wellFormed_slice (hs : hi ≤ ts.size) (hseveral : lo + 1 < hi)
    (hb : isBracketed ts lo hi = .ok false) (hm : mainOperator? ts lo hi = .ok none) :
    ¬ Token.WellFormed (slice ts lo hi) := by
  rintro ⟨t, ht, htokens⟩
  have hholds : Holds ts lo hi t := ⟨hs, htokens.symm⟩
  cases t with
  | leaf a =>
    have hone := hholds.leaf.1
    omega
  | group t =>
    rw [(hholds.group (Tree.isExpression_group.mp ht)).2.1] at hb
    cases hb
  | node op l r =>
    rw [(hholds.node ht).2.2] at hm
    cases hm

end Range

/-! ## Syntax errors -/

namespace ExprError

/-- Does the error blame the order of the tokens? -/
def isSyntactic : ExprError → Bool
  | emptyExpression | emptyOperand _ | notANumber _ _ | noMainOperator _ => true
  | _ => false

/-- Does the error come of a value, looked up or computed? -/
def isSemantic : ExprError → Bool
  | unknownRegister _ | zeroDivisor _ => true
  | _ => false

theorem not_isSyntactic_of_isSemantic {e : ExprError} (h : e.isSemantic = true) :
    e.isSyntactic = false := by
  cases e with
  | unknownRegister name => rfl
  | zeroDivisor z => rfl
  | _ => simp [isSemantic] at h

/-- What a syntax error names is a defect of the tokens. Errors of other kinds name none. -/
def PointsAtDefect (ts : Array Token) : ExprError → Prop
  | emptyExpression => ts.size = 0
  | emptyOperand i => 0 < ts.size ∧ i ≤ ts.size ∧ Enclosed ts i i
  | notANumber a i => ts[i]? = some a ∧ a.kind.isOperand = false ∧ Enclosed ts i (i + 1)
  | noMainOperator range => ∃ lo hi, lo + 2 ≤ hi ∧ hi ≤ ts.size
      ∧ range = Token.compactRange ts lo hi ∧ Enclosed ts lo hi
      ∧ ¬ Token.WellFormed (slice ts lo hi)
  | _ => True

theorem pointsAtDefect_of_not_isSyntactic {ts : Array Token} {e : ExprError}
    (h : e.isSyntactic = false) : e.PointsAtDefect ts := by
  cases e with
  | emptyExpression => cases h
  | emptyOperand i => cases h
  | notANumber a i => cases h
  | noMainOperator range => cases h
  | _ => trivial

end ExprError

namespace EvalM

variable {σ α β ε : Type} {P Q : ExprError → Prop}

/-- In every session, if the evaluation fails with an expression error, then with one that has
    the property. -/
def FailsOnly (P : ExprError → Prop) (m : EvalM σ α) : Prop :=
  ∀ state e last, m state = .error (.expr e) last → P e

theorem failsOnly_pure (a : α) : FailsOnly P (pure a : EvalM σ α) :=
  fun _ _ _ h => by cases h

theorem failsOnly_fail {e : ExprError} (h : P e) : FailsOnly P (fail e : EvalM σ α) := by
  intro state e' last he
  cases he
  exact h

theorem failsOnly_lift {f : ε → EvalError} (h : ∀ x e, f x = .expr e → P e) (x : Except ε α) :
    FailsOnly P (lift f x : EvalM σ α) := by
  intro state e last he
  cases x with
  | ok a => cases he
  | error x =>
    injection he with hx
    exact h x e hx

theorem failsOnly_ask (resolver : Option (Resolver σ)) (name : String) :
    FailsOnly P (ask resolver name) := by
  intro state e last he
  cases resolver with
  | none => cases he
  | some resolve => cases he

theorem FailsOnly.bind {m : EvalM σ α} {f : α → EvalM σ β} (hm : FailsOnly P m)
    (hf : ∀ a, FailsOnly P (f a)) : FailsOnly P (m >>= f) := by
  intro state e last he
  cases hrun : m state with
  | ok a next =>
    rw [bind_of_ok hrun] at he
    exact hf a next e last he
  | error e' next =>
    rw [bind_of_error hrun] at he
    cases he
    exact hm state e last hrun

theorem FailsOnly.noted {m : EvalM σ Nat} (hm : FailsOnly P m) (lo hi : Nat) :
    FailsOnly P (noted lo hi m) :=
  hm.bind fun value => (show FailsOnly P (note ⟨lo, hi, value⟩ : EvalM σ Unit)
    from fun _ _ _ h => by cases h).bind fun _ => failsOnly_pure value

theorem FailsOnly.mono {m : EvalM σ α} (hm : FailsOnly P m) (h : ∀ e, P e → Q e) :
    FailsOnly Q m :=
  fun state e last he => h e (hm state e last he)

end EvalM

namespace Setting

open EvalM

variable {σ : Type} {s : Setting σ} {ts : Array Token}

/-- An operand fails for syntax only if it is none. -/
theorem failsOnly_operand (a : Token) (i : Nat) :
    FailsOnly (fun e => e.isSemantic = true ∨ e = .notANumber a i ∧ a.kind.isOperand = false)
      (s.operand a i) := by
  have hliteral (x : Literal.Failure) (e : ExprError) : EvalError.ofLiteral x ≠ .expr e := by
    cases x <;> exact fun h => by cases h
  unfold operand
  cases hk : a.kind with
  | dec => exact failsOnly_lift (fun x e h => absurd h (hliteral x e)) _
  | hex => exact failsOnly_lift (fun x e h => absurd h (hliteral x e)) _
  | reg =>
    refine (failsOnly_ask s.resolver _).bind fun value? => ?_
    cases value? with
    | none => exact failsOnly_fail (.inl rfl)
    | some value => exact failsOnly_lift (fun _ _ h => by cases h) _
  | _ => exact failsOnly_fail (.inr ⟨rfl, rfl⟩)

theorem failsOnly_apply (op : BinOp) (bits lhs rhs : Int) :
    FailsOnly (fun e => e.isSemantic = true)
      (.lift .ofOperator (op.apply bits lhs rhs) : EvalM σ Nat) := by
  refine failsOnly_lift (fun x e h => ?_) _
  cases x with
  | zeroDivisor z =>
    cases h
    rfl
  | _ => cases h

theorem failsOnly_applyAt (index lhs rhs : Nat) :
    FailsOnly (fun e => e.isSemantic = true) (s.applyAt ts index lhs rhs) := by
  have htoken : FailsOnly (fun e => e.isSemantic = true)
      (.lift .missingToken (tokenAt ts index) : EvalM σ Token) :=
    failsOnly_lift (fun _ _ h => by cases h) _
  refine htoken.bind fun a => ?_
  unfold BinOp.applySpelled
  cases BinOp.ofSpelling? a.text with
  | none => exact fun _ _ _ h => by cases h
  | some op => exact failsOnly_apply op s.bits lhs rhs

/-! ## Well-formed tokens -/

/-- An expression fails because of a value, or because it nests too deep for the levels left. -/
theorem failsOnly_runTree_of_nesting {t : Tree Token} (ht : t.IsExpression) (levels lo : Nat) :
    FailsOnly (fun e => e.isSemantic = true
        ∨ levels ≤ t.nesting ∧ e = .nestingTooDeep s.maxDepth)
      (s.runTree levels lo t) := by
  induction t generalizing levels lo with
  | leaf a =>
    cases levels with
    | zero => exact failsOnly_fail (.inr ⟨Nat.zero_le _, rfl⟩)
    | succ levels =>
      have ha := Tree.isExpression_leaf.mp ht
      refine (((failsOnly_operand a lo).mono fun e he => ?_).noted _ _ :)
      refine .inl (he.resolve_right fun hnot => ?_)
      simp [ha] at hnot
  | group t ih =>
    cases levels with
    | zero => exact failsOnly_fail (.inr ⟨Nat.zero_le _, rfl⟩)
    | succ levels =>
      refine ((ih (Tree.isExpression_group.mp ht) levels (lo + 1)).mono fun e he => ?_).noted _ _
      exact he.imp_right fun hdeep => ⟨Nat.succ_le_succ hdeep.1, hdeep.2⟩
  | node op l r ihl ihr =>
    obtain ⟨hl, hr, -, -⟩ := Tree.isExpression_node.mp ht
    cases levels with
    | zero => exact failsOnly_fail (.inr ⟨Nat.zero_le _, rfl⟩)
    | succ levels =>
      -- The left operand has all the levels, the right one has one less.
      have hleft := (ihl hl (levels + 1) lo).mono (Q := fun e => e.isSemantic = true
          ∨ levels + 1 ≤ (Tree.node op l r).nesting ∧ e = .nestingTooDeep s.maxDepth)
        fun e he => he.imp_right fun hdeep => ⟨Nat.le_trans hdeep.1 (Nat.le_max_left _ _), hdeep.2⟩
      refine FailsOnly.noted (hleft.bind fun left => ?_) _ _
      refine ((ihr hr levels (lo + l.tokens.length + 1)).mono fun e he => ?_).bind fun right => ?_
      · refine he.imp_right fun hdeep => ⟨?_, hdeep.2⟩
        exact Nat.le_trans (Nat.succ_le_succ hdeep.1) (Nat.le_max_right _ _)
      · exact (failsOnly_apply op s.bits left right).mono fun _ => .inl

/-- An expression has no syntax error. -/
theorem failsOnly_runTree {t : Tree Token} (ht : t.IsExpression) (levels lo : Nat) :
    FailsOnly (fun e => e.isSyntactic = false) (s.runTree levels lo t) := by
  refine (failsOnly_runTree_of_nesting ht levels lo).mono fun e he => ?_
  rcases he with hvalue | ⟨-, rfl⟩
  · exact ExprError.not_isSyntactic_of_isSemantic hvalue
  · rfl

/-- A text that has no tokens but those of an expression that nests no deeper than the limit is
    not found to nest too deep, whatever else keeps it from having a value. -/
theorem result_ne_nestingTooDeep {t : Tree Token} (ht : t.IsExpression) {text : String}
    {maxTokens : Int} (hlex : ∀ us, tokenize text maxTokens = .ok us → us = t.tokens.toArray)
    (hdeep : (t.nesting : Int) ≤ s.maxDepth) (state : σ) (limit : Int) :
    (s.evaluate text maxTokens state).result ≠ .error (.expr (.nestingTooDeep limit)) := by
  rw [evaluate_result]
  intro h
  cases hlex' : tokenize text maxTokens with
  | error e =>
    rw [hlex'] at h
    simp at h
  | ok us =>
    obtain rfl := hlex us hlex'
    rw [hlex'] at h
    obtain ⟨last, hlast⟩ := EvalM.exists_of_result_eq_error h
    have hrun : s.evalTokens t.tokens.toArray = s.runTree (s.levels 0) 0 t :=
      evalTokens_of_tokens ht rfl
    rw [hrun] at hlast
    rcases failsOnly_runTree_of_nesting ht _ _ _ _ last hlast with hvalue | ⟨hlevels, -⟩
    · simp [ExprError.isSemantic] at hvalue
    · exact absurd (lt_levels_iff.mpr hdeep) (Nat.not_lt.mpr hlevels)

/-! ## Tokens of any text -/

/-- In a range that evaluation comes to, a syntax error names a defect. -/
theorem failsOnly_evalPlain (levels lo hi : Nat) (hs : hi ≤ ts.size) (hv : Visited ts lo hi) :
    FailsOnly (ExprError.PointsAtDefect ts) (s.evalPlain ts levels lo hi) := by
  induction levels, lo, hi, hs using range_induction with
  | deep lo hi hs =>
    rw [evalPlain_zero]
    exact failsOnly_fail trivial
  | empty levels lo hi hs hempty =>
    -- The range ends where it starts, so that one index has both neighbours.
    obtain rfl : lo = hi := Nat.le_antisymm hv.bounds.1 hempty
    rw [evalPlain_empty hempty]
    refine failsOnly_fail ?_
    by_cases hnone : ts.isEmpty = true
    · rw [if_pos hnone]
      exact Array.isEmpty_iff_size_eq_zero.mp hnone
    · rw [if_neg hnone]
      rw [Array.isEmpty_iff_size_eq_zero] at hnone
      exact ⟨Nat.pos_of_ne_zero hnone, hs, hv.enclosed⟩
  | operand levels lo hlt =>
    rw [evalPlain_operand hlt]
    refine ((failsOnly_operand ts[lo] lo).mono fun e he => ?_).noted _ _
    rcases he with he | ⟨rfl, hop⟩
    · exact ExprError.pointsAtDefect_of_not_isSyntactic
        (ExprError.not_isSyntactic_of_isSemantic he)
    · exact ⟨Array.getElem?_eq_getElem hlt, hop, hv.enclosed⟩
  | bracketed levels lo hi hs hseveral hb ih =>
    rw [evalPlain_bracketed hseveral hb]
    exact (ih (hv.inside hseveral hb)).noted _ _
  | noOperator levels lo hi hs hseveral hb hm =>
    rw [evalPlain_noOperator hseveral hb hm]
    exact failsOnly_fail
      ⟨lo, hi, hseveral, hs, rfl, hv.enclosed, not_wellFormed_slice hs hseveral hb hm⟩
  | split levels lo hi hs op hseveral hb hm ihl ihr =>
    rw [evalPlain_split hseveral hb hm]
    refine FailsOnly.noted ?_ _ _
    refine (ihl (hv.left hseveral hb hm)).bind fun left => ?_
    refine (ihr (hv.right hseveral hb hm)).bind fun right => ?_
    exact (failsOnly_applyAt op left right).mono fun _ he =>
      ExprError.pointsAtDefect_of_not_isSyntactic (ExprError.not_isSyntactic_of_isSemantic he)

theorem failsOnly_evalTokens (s : Setting σ) (ts : Array Token) :
    FailsOnly (ExprError.PointsAtDefect ts) (s.evalTokens ts) := by
  rw [evalTokens, evalRange, evalLevels_eq_evalPlain]
  exact failsOnly_evalPlain _ 0 ts.size (Nat.le_refl _) .whole

/-- Syntax errors are genuine and point at the defect, whatever the width, the limits and the
    resolver. If evaluating a text ends with one, the tokens of the text are not those of an
    expression. An operand is reported missing, and a token reported to be none, where one should
    stand by its neighbours; and a range is quoted for want of an operator that has several
    tokens, stands where an operand should and is no expression. -/
theorem syntaxErrors_point_at_defects (s : Setting σ) {text : String} {capacity : Int}
    {ts : Array Token} (hlex : tokenize text capacity = .ok ts) (maxTokens : Int) (state : σ)
    {e : ExprError} (h : (s.evaluate text maxTokens state).result = .error (.expr e))
    (he : e.isSyntactic = true) :
    ¬ Token.WellFormed ts.toList ∧ e.PointsAtDefect ts := by
  rw [evaluate_result] at h
  cases hlex' : tokenize text maxTokens with
  | error e' =>
    -- Errors of lexing are no syntax errors.
    rw [hlex'] at h
    cases h
    cases he
  | ok us =>
    obtain rfl := tokenize_unique hlex hlex'
    rw [hlex'] at h
    obtain ⟨last, hlast⟩ := EvalM.exists_of_result_eq_error h
    refine ⟨?_, failsOnly_evalTokens s ts _ e last hlast⟩
    rintro ⟨t, ht, htokens⟩
    rw [evalTokens_of_tokens ht htokens] at hlast
    rw [failsOnly_runTree ht _ _ _ e last hlast] at he
    cases he

/-- In `3*(-)` the operator between the brackets is no operand, and the brackets of `1+(2 3)`
    enclose two operands and no operator. -/
theorem syntaxErrors_of_lone_operator_and_pair :
    (¬ Token.WellFormed [⟨.dec, "3"⟩, .spelled (.op .mul), .spelled .lparen, .spelled (.op .sub),
        .spelled .rparen]
      ∧ (ExprError.notANumber (.spelled (.op .sub)) 3).PointsAtDefect #[⟨.dec, "3"⟩,
        .spelled (.op .mul), .spelled .lparen, .spelled (.op .sub), .spelled .rparen])
    ∧ ¬ Token.WellFormed [⟨.dec, "1"⟩, .spelled (.op .add), .spelled .lparen, ⟨.dec, "2"⟩,
        ⟨.dec, "3"⟩, .spelled .rparen]
      ∧ (ExprError.noMainOperator "23").PointsAtDefect #[⟨.dec, "1"⟩, .spelled (.op .add),
        .spelled .lparen, ⟨.dec, "2"⟩, ⟨.dec, "3"⟩, .spelled .rparen] := by
  constructor
  · have hlex : tokenize "3*(-)" 5 = .ok #[⟨.dec, "3"⟩, .spelled (.op .mul), .spelled .lparen,
        .spelled (.op .sub), .spelled .rparen] := by decide +kernel
    exact syntaxErrors_point_at_defects (stateless .w32 2 none) hlex 9 () (by decide +kernel) rfl
  · have hlex : tokenize "1+(2 3)" 6 = .ok #[⟨.dec, "1"⟩, .spelled (.op .add), .spelled .lparen,
        ⟨.dec, "2"⟩, ⟨.dec, "3"⟩, .spelled .rparen] := by decide +kernel
    exact syntaxErrors_point_at_defects (stateless .w64 2 none) hlex 6 () (by decide +kernel) rfl

end Setting

end WordExpr
