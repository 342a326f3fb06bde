/-
  WordExpr.Proofs.Safety

  Evaluation fails cleanly. Whatever the text, the limits and the resolver, evaluation with a
  supported width ends with a word or with an expression error; no token past the end of the
  list is touched, every literal is read, and every operator that is applied is one
  (`Setting.evaluate_clean`).

  `Visited` are the ranges that evaluation comes to, brackets, left and right operands alike,
  and what is known of each of them (`Range.Visited.bounds`, `Range.Visited.analysed`) is what
  keeps the indices inside the list. `EvalM.Ensures` carries words and expression errors
  through an evaluation whose resolver may have a state.
-/
import WordExpr.Proofs.Agreement

namespace WordExpr

open Range Lexer

/-! ## The ranges of an evaluation -/

namespace Range

variable {ts : Array Token} {lo hi op : Nat}

/-- The ranges that evaluation comes to: the whole list, what a pair of brackets encloses, and
    both sides of a main operator. -/
inductive Visited (ts : Array Token) : Nat → Nat → Prop
  | whole : Visited ts 0 ts.size
  | inside {lo hi : Nat} : Visited ts lo hi → lo + 1 < hi → isBracketed ts lo hi = .ok true →
      Visited ts (lo + 1) (hi - 1)
  | left {lo hi op : Nat} : Visited ts lo hi → lo + 1 < hi → isBracketed ts lo hi = .ok false →
      mainOperator? ts lo hi = .ok (some op) → Visited ts lo op
  | right {lo hi op : Nat} : Visited ts lo hi → lo + 1 < hi → isBracketed ts lo hi = .ok false →
      mainOperator? ts lo hi = .ok (some op) → Visited ts (op + 1) hi

/-- A range may be empty, but it never ends before it starts or behind the list. -/
theorem Visited.bounds (h : Visited ts lo hi) : lo ≤ hi ∧ hi ≤ ts.size := by
  induction h with
  | whole => exact ⟨Nat.zero_le _, Nat.le_refl _⟩
  | inside _ hseveral _ ih => omega
  | left _ _ _ hm ih =>
    have := mainOperator?_bounds hm
    omega
  | right _ _ _ hm ih =>
    have := mainOperator?_bounds hm
    omega

/-- The token at an index that lies in the list. -/
theorem tokenAt_eq (h : lo < ts.size) : tokenAt ts lo = .ok ts[lo] := by
  rw [tokenAt, Array.getElem?_eq_getElem h]

/-- The main operator of a range is a token of the range that is written as an operator. -/
theorem getElem?_mainOperator (hts : ∀ a ∈ ts, a.Lexable) (hlo : lo ≤ hi) (hs : hi ≤ ts.size)
    (hm : mainOperator? ts lo hi = .ok (some op)) : ∃ o, ts[op]? = some (.spelled (.op o)) := by
  obtain ⟨o, -, hkind⟩ := mainOperator?_eq_some hlo hs hm
  obtain ⟨a, ha, hk⟩ := Option.map_eq_some_iff.mp hkind
  have hspelled := (hts a (Array.mem_of_getElem? ha)).eq_spelled (by rw [hk]; rfl)
  rw [hk] at hspelled
  exact ⟨o, by rw [ha, hspelled]⟩

theorem tokenAt_mainOperator (hts : ∀ a ∈ ts, a.Lexable) (hlo : lo ≤ hi) (hs : hi ≤ ts.size)
    (hm : mainOperator? ts lo hi = .ok (some op)) :
    ∃ o, tokenAt ts op = .ok (.spelled (.op o)) := by
  obtain ⟨o, ho⟩ := getElem?_mainOperator hts hlo hs hm
  exact ⟨o, by rw [tokenAt, ho]⟩

/-- Both analyses of a range of several tokens come to an answer. -/
theorem Visited.analysed (h : Visited ts lo hi) (hseveral : lo + 1 < hi) :
    (∃ b, isBracketed ts lo hi = .ok b) ∧ ∃ op?, mainOperator? ts lo hi = .ok op? := by
  obtain ⟨hlo, hs⟩ := h.bounds
  exact ⟨⟨_, isBracketed_eq hseveral hs⟩, ⟨_, mainOperator?_eq hlo hs⟩⟩

end Range

/-! ## Words and expression errors -/

namespace EvalM

variable {σ α β : Type} {P : α → Prop} {Q : β → Prop}

/-- In every session the evaluation has a value with the property, or fails with an expression
    error. -/
def Ensures (m : EvalM σ α) (P : α → Prop) : Prop :=
  ∀ state, match m state with
    | .ok a _ => P a
    | .error e _ => ∃ x, e = .expr x

theorem ensures_pure {a : α} (h : P a) : (pure a : EvalM σ α).Ensures P :=
  fun _ => h

theorem ensures_fail (e : ExprError) (P : α → Prop) : (fail e : EvalM σ α).Ensures P :=
  fun _ => ⟨e, rfl⟩

theorem Ensures.bind {m : EvalM σ α} {f : α → EvalM σ β} (hm : m.Ensures P)
    (hf : ∀ a, P a → (f a).Ensures Q) : (m >>= f).Ensures Q := by
  intro state
  have hstate := hm state
  cases hrun : m state with
  | ok a next =>
    rw [hrun] at hstate
    rw [bind_of_ok hrun]
    exact hf a hstate next
  | error e next =>
    rw [hrun] at hstate
    rw [bind_of_error hrun]
    exact hstate

theorem Ensures.noted {m : EvalM σ Nat} {P : Nat → Prop} (hm : m.Ensures P) (lo hi : Nat) :
    (noted lo hi m).Ensures P :=
  hm.bind fun value hvalue => (show (note ⟨lo, hi, value⟩ : EvalM σ Unit).Ensures fun _ => True
    from fun _ => trivial).bind fun _ _ => ensures_pure hvalue

theorem Ensures.result {m : EvalM σ α} (h : m.Ensures P) (state : Session σ) :
    (∃ a, m.result state = .ok a ∧ P a) ∨ ∃ x, m.result state = .error (.expr x) := by
  have hstate := h state
  unfold EvalM.result
  cases hrun : m state with
  | ok a next =>
    rw [hrun] at hstate
    exact .inl ⟨a, rfl, hstate⟩
  | error e next =>
    rw [hrun] at hstate
    obtain ⟨x, rfl⟩ := hstate
    exact .inr ⟨x, rfl⟩

end EvalM

namespace Setting

open EvalM

variable {σ : Type} {w : Width} {maxDepth : Int} {resolver : Option (Resolver σ)}
  {ts : Array Token}

theorem ensures_operand {a : Token} (ha : a.Lexable) (index : Nat) :
    ((Setting.mk w.size maxDepth resolver).operand a index).Ensures (· < 2 ^ w.size) := by
  cases hk : a.kind with
  | dec =>
    rw [operand, hk]
    simp only
    rw [ha.literal_value (by rw [hk]; rfl)]
    exact ensures_pure (w.toNat_wrap_lt _)
  | hex =>
    rw [operand, hk]
    simp only
    rw [ha.literal_value (by rw [hk]; rfl)]
    exact ensures_pure (w.toNat_wrap_lt _)
  | reg =>
    have hask : (ask resolver a.register).Ensures fun _ => True := by
      cases resolver with
      | none => exact fun _ => trivial
      | some f => exact fun _ => trivial
    rw [operand, hk]
    refine hask.bind fun value? _ => ?_
    cases value? with
    | none => exact ensures_fail _ _
    | some value =>
      show (EvalM.lift .width (Word.reduce w.size value) : EvalM σ Nat).Ensures _
      rw [Word.reduce_size]
      exact ensures_pure (w.toNat_wrap_lt value)
  | _ =>
    rw [operand, hk]
    exact ensures_fail _ _

theorem ensures_applyAt {index : Nat} {o : BinOp} (h : ts[index]? = some (.spelled (.op o)))
    (left right : Nat) :
    ((Setting.mk w.size maxDepth resolver).applyAt ts index left right).Ensures
      (· < 2 ^ w.size) := by
  rw [applyAt_spelled h]
  show (EvalM.lift .ofOperator (o.apply w.size left right) : EvalM σ Nat).Ensures _
  rw [BinOp.apply_size, BinOp.onWords]
  cases o.compute w (w.wrap left) (w.wrap right) with
  | error z => exact ensures_fail (.zeroDivisor z) _
  | ok v => exact ensures_pure v.isLt

/-- Evaluating a range of the tokens of a text. -/
theorem ensures_evalPlain (hts : ∀ a ∈ ts, a.Lexable) {levels lo hi : Nat} (hs : hi ≤ ts.size) :
    ((Setting.mk w.size maxDepth resolver).evalPlain ts levels lo hi).Ensures
      (· < 2 ^ w.size) := by
  induction levels, lo, hi, hs using range_induction with
  | deep lo hi hs =>
    rw [evalPlain_zero]
    exact ensures_fail _ _
  | empty levels lo hi hs hempty =>
    rw [evalPlain_empty hempty]
    exact ensures_fail _ _
  | operand levels lo hlt =>
    rw [evalPlain_operand hlt]
    exact (ensures_operand (hts ts[lo] (Array.getElem_mem hlt)) lo).noted _ _
  | bracketed levels lo hi hs hseveral hb ih =>
    rw [evalPlain_bracketed hseveral hb]
    exact ih.noted _ _
  | noOperator levels lo hi hs hseveral hb hm =>
    rw [evalPlain_noOperator hseveral hb hm]
    exact ensures_fail _ _
  | split levels lo hi hs op hseveral hb hm ihl ihr =>
    -- The operator is applied to two words, and it is one that the table has.
    obtain ⟨o, ho⟩ := getElem?_mainOperator hts (by omega) hs hm
    rw [evalPlain_split hseveral hb hm]
    refine Ensures.noted ?_ _ _
    exact ihl.bind fun left _ => ihr.bind fun right _ => ensures_applyAt ho left right

theorem ensures_evalTokens (hts : ∀ a ∈ ts, a.Lexable) :
    ((Setting.mk w.size maxDepth resolver).evalTokens ts).Ensures (· < 2 ^ w.size) := by
  rw [evalTokens, evalRange, evalLevels_eq_evalPlain]
  exact ensures_evalPlain hts (Nat.le_refl _)

/-! ## Texts -/

theorem result_of_size (w : Width) (maxDepth maxTokens : Int) (resolver : Option (Resolver σ))
    (text : String) (state : σ) :
    (∃ v, ((Setting.mk w.size maxDepth resolver).evaluate text maxTokens state).result = .ok v
      ∧ v < 2 ^ w.size)
    ∨ ∃ x, ((Setting.mk w.size maxDepth resolver).evaluate text maxTokens state).result
      = .error (.expr x) := by
  rw [evaluate_result]
  cases hlex : tokenize text maxTokens with
  | error e => exact .inr ⟨.lex e, rfl⟩
  | ok ts => exact (ensures_evalTokens (lexable_of_tokenize hlex)).result _

/-- Evaluating a text with a supported width ends with a word or an expression error, so that
    it has a verdict, which is good exactly if it names no failure. Every literal of the text
    is read. Every range that evaluation comes to lies in the token list; a range of one token
    has that token, and a range of several tokens is analysed to the end: its main operator, if
    there is one, is a token of the range that is written as an operator. -/
theorem evaluate_clean (w : Width) (maxDepth maxTokens : Int) (resolver : Option (Resolver σ))
    (text : String) (state : σ) :
    ((∃ v, ((Setting.mk w.size maxDepth resolver).evaluate text maxTokens state).result = .ok v
        ∧ v < 2 ^ w.size)
      ∨ ∃ x, ((Setting.mk w.size maxDepth resolver).evaluate text maxTokens state).result
        = .error (.expr x))
    ∧ (∃ v : Verdict,
        ((Setting.mk w.size maxDepth resolver).evaluate text maxTokens state).verdict = .ok v
        ∧ (v.ok = true ↔ v.failure = none))
    ∧ ∀ ts, tokenize text maxTokens = .ok ts →
        (∀ a ∈ ts, a.kind.isLiteral = true → ∃ n, Literal.read a.text = .ok n)
        ∧ ∀ lo hi, Visited ts lo hi → lo ≤ hi ∧ hi ≤ ts.size
          ∧ (lo + 1 = hi → ∃ a, tokenAt ts lo = .ok a)
          ∧ (lo + 1 < hi → (∃ b, isBracketed ts lo hi = .ok b)
            ∧ ∃ op?, mainOperator? ts lo hi = .ok op?
              ∧ ∀ op ∈ op?, lo ≤ op ∧ op < hi ∧ ∃ a o, tokenAt ts op = .ok a
                ∧ a.kind = .op o ∧ BinOp.ofSpelling? a.text = some o) := by
  have hresult := result_of_size w maxDepth maxTokens resolver text state
  refine ⟨hresult, ?_, fun ts hlex => ⟨fun a ha hk => ?_, fun lo hi h => ?_⟩⟩
  -- The verdict is made from the result, which is one of the two.
  · rcases hresult with ⟨v, hv, -⟩ | ⟨x, hx⟩
    · exact ⟨⟨v, true, none⟩, by rw [Evaluation.verdict, hv], by simp⟩
    · exact ⟨⟨0, false, some x⟩, by rw [Evaluation.verdict, hx], by simp⟩
  · exact ⟨_, (lexable_of_tokenize hlex a ha).literal_read hk⟩
  · obtain ⟨hlo, hs⟩ := h.bounds
    refine ⟨hlo, hs, fun hone => ⟨_, tokenAt_eq (by omega)⟩, fun hseveral => ?_⟩
    obtain ⟨hbracketed, op?, hm⟩ := h.analysed hseveral
    refine ⟨hbracketed, op?, hm, fun op hop => ?_⟩
    rw [Option.mem_def.mp hop] at hm
    obtain ⟨hle, hlt⟩ := mainOperator?_bounds hm
    obtain ⟨o, ho⟩ := tokenAt_mainOperator (lexable_of_tokenize hlex) hlo hs hm
    exact ⟨hle, hlt, _, o, ho, rfl, BinOp.ofSpelling?_spelling o⟩

/-- In `(1)+(2` evaluation comes to the range of the last two tokens, which has no main
    operator. -/
theorem evaluate_clean_of_unclosed :
    Visited #[.spelled .lparen, ⟨.dec, "1"⟩, .spelled .rparen, .spelled (.op .add),
      .spelled .lparen, ⟨.dec, "2"⟩] 4 6
    ∧ (∃ v : Verdict, ((Setting.mk (σ := Unit) Width.w64.size (-1) none).evaluate "(1)+(2" 6
        ()).verdict = .ok v ∧ (v.ok = true ↔ v.failure = none))
    ∧ ∃ op?, mainOperator? #[.spelled .lparen, ⟨.dec, "1"⟩, .spelled .rparen,
        .spelled (.op .add), .spelled .lparen, ⟨.dec, "2"⟩] 4 6 = .ok op? := by
  have hvisited : Visited #[.spelled .lparen, ⟨.dec, "1"⟩, .spelled .rparen, .spelled (.op .add),
      .spelled .lparen, ⟨.dec, "2"⟩] 4 6 :=
    .right (show Visited _ 0 6 from .whole) (by decide) (by decide +kernel)
      (show mainOperator? _ 0 6 = .ok (some 3) by decide +kernel)
  have hlex : tokenize "(1)+(2" 6 = .ok #[.spelled .lparen, ⟨.dec, "1"⟩, .spelled .rparen,
      .spelled (.op .add), .spelled .lparen, ⟨.dec, "2"⟩] := by decide +kernel
  obtain ⟨-, hverdict, hranges⟩ :=
    evaluate_clean (σ := Unit) .w64 (-1) 6 none "(1)+(2" ()
  obtain ⟨-, hvisit⟩ := hranges _ hlex
  obtain ⟨-, -, -, hseveral⟩ := hvisit 4 6 hvisited
  obtain ⟨-, op?, hop, -⟩ := hseveral (by decide)
  exact ⟨hvisited, hverdict, op?, hop⟩

end Setting

end WordExpr
