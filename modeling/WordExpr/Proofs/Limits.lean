/-
  WordExpr.Proofs.Limits

  Limits decide whether a text is evaluated to its end, and nothing else. With a higher limit
  of tokens or of nesting the outcome is the same, unless the lower one was what stopped the
  evaluation (`Lexer.tokenize_of_le`, `Setting.evalTokens_outlasted`). For an expression with a
  meaning it is known which limits are high enough: its number of tokens and its nesting, and
  the number of tokens is looked at first (`Setting.limits_are_exact`).

  `EvalM.OutlastedBy` relates two evaluations of one range under different limits. It holds of
  malformed ranges too, so it is proved by induction over ranges, not over trees.
-/
import WordExpr.Proofs.Defects

namespace WordExpr

open Range

/-! ## The limit of tokens -/

namespace Lexer

variable {max max' : Int} {text : String}

/-- A token is refused under a higher limit only if it is refused for its length. -/
theorem accept_of_le (h : max ≤ max') (tokens : Array Token) (kind : TokenKind)
    (lexeme : String) :
    accept max tokens kind lexeme = .error (.tooManyTokens max)
      ∨ accept max' tokens kind lexeme = accept max tokens kind lexeme := by
  by_cases hlong : (kind.isOperand && decide (maxLexeme < lexeme.length)) = true
  · right
    rw [accept, accept, if_pos hlong, if_pos hlong]
  · by_cases hfull : max ≤ (tokens.size : Int)
    · left
      rw [accept, if_neg hlong, if_pos hfull]
    · right
      rw [accept, accept, if_neg hlong, if_neg hlong, if_neg hfull, if_neg (by omega)]

/-- Under a higher limit of tokens lexing comes to the same end, unless the lower limit was
    what ended it. -/
theorem lexFrom_of_le (h : max ≤ max') (choose : List Char → Option Hit) (text : String)
    (position : Nat) (cs : List Char) (tokens : Array Token) (log : Array Match) :
    (lexFrom choose max text position cs tokens log).result = .error (.tooManyTokens max)
      ∨ lexFrom choose max' text position cs tokens log
        = lexFrom choose max text position cs tokens log := by
  fun_induction lexFrom choose max text position cs tokens log with
  | case1 =>
    right
    rw [lexFrom]
  | case2 position tokens log c more hnone =>
    right
    rw [lexFrom, hnone]
  | case3 position tokens log c more hit hhit hzero =>
    right
    rw [lexFrom, hhit]
    simp only
    rw [dif_pos hzero]
  | case4 position tokens log c more hit hhit hpos lexeme rest log' hkind ih =>
    refine ih.imp_right fun hrest => ?_
    rw [lexFrom_step max' text position tokens log hhit hpos, hkind]
    exact hrest
  | case5 position tokens log c more hit hhit hpos lexeme log' kind hkind e haccept =>
    -- The token is refused by this limit, or under both limits for its length.
    rcases accept_of_le h tokens kind lexeme with hfull | hsame
    · left
      rw [hfull] at haccept
      cases haccept
      rfl
    · right
      have hrefused : accept max' tokens kind lexeme = .error e := hsame.trans haccept
      rw [lexFrom_step max' text position tokens log hhit hpos, hkind]
      simp only [hrefused, lexeme, log']
  | case6 position tokens log c more hit hhit hpos lexeme rest log' kind hkind tokens' haccept ih =>
    refine ih.imp_right fun hrest => ?_
    have hsame : accept max' tokens kind lexeme = .ok tokens' := by
      rcases accept_of_le h tokens kind lexeme with hfull | hsame
      · rw [hfull] at haccept
        cases haccept
      · rw [hsame, haccept]
    rw [lexFrom_step max' text position tokens log hhit hpos, hkind]
    simp only [hsame, lexeme]
    exact hrest

theorem tokenize_of_le (h : max ≤ max') (text : String) :
    tokenize text max = .error (.tooManyTokens max)
      ∨ tokenize text max' = tokenize text max := by
  refine (lexFrom_of_le h _ text 0 text.toList #[] #[]).imp_right fun hsame => ?_
  exact congrArg Lexing.result hsame

end Lexer

open Lexer

/-! ## The limit of nesting -/

namespace EvalM

variable {σ α β : Type} {m m' : EvalM σ α}

/-- The second evaluation does what the first one does, unless the first one is stopped by its
    limit of nesting. -/
def OutlastedBy (m m' : EvalM σ α) : Prop :=
  ∀ state, (∃ limit last, m state = .error (.expr (.nestingTooDeep limit)) last)
    ∨ m' state = m state

theorem outlasted_refl (m : EvalM σ α) : m.OutlastedBy m :=
  fun _ => .inr rfl

theorem outlasted_tooDeep (limit : Int) (m' : EvalM σ α) :
    (fail (.nestingTooDeep limit) : EvalM σ α).OutlastedBy m' :=
  fun state => .inl ⟨limit, state, rfl⟩

theorem OutlastedBy.bind {f f' : α → EvalM σ β} (hm : m.OutlastedBy m')
    (hf : ∀ a, (f a).OutlastedBy (f' a)) : (m >>= f).OutlastedBy (m' >>= f') := by
  intro state
  rcases hm state with ⟨limit, last, hdeep⟩ | hsame
  · exact .inl ⟨limit, last, bind_of_error hdeep⟩
  · cases hrun : m state with
    | error e next =>
      rw [hrun] at hsame
      rw [bind_of_error hrun, bind_of_error hsame]
      exact .inr rfl
    | ok a next =>
      rw [hrun] at hsame
      rw [bind_of_ok hrun, bind_of_ok hsame]
      exact hf a next

theorem OutlastedBy.noted {m m' : EvalM σ Nat} (h : m.OutlastedBy m') (lo hi : Nat) :
    (noted lo hi m).OutlastedBy (noted lo hi m') :=
  h.bind fun _ => outlasted_refl _

end EvalM

namespace Setting

open EvalM

variable {σ : Type} {s : Setting σ} {ts : Array Token} {d' : Int}

/-- With more levels of nesting left, and under a higher limit, a range is evaluated as before,
    unless the levels did not suffice. -/
theorem evalPlain_outlasted (more levels lo hi : Nat) (hs : hi ≤ ts.size) :
    (s.evalPlain ts levels lo hi).OutlastedBy
      ({ s with maxDepth := d' }.evalPlain ts (levels + more) lo hi) := by
  induction levels, lo, hi, hs using range_induction with
  | deep lo hi hs =>
    rw [evalPlain_zero]
    exact outlasted_tooDeep _ _
  | empty levels lo hi hs hempty =>
    rw [Nat.add_right_comm, evalPlain_empty hempty, evalPlain_empty hempty]
    exact outlasted_refl _
  | operand levels lo hlt =>
    rw [Nat.add_right_comm, evalPlain_operand hlt, evalPlain_operand hlt]
    exact outlasted_refl _
  | bracketed levels lo hi hs hseveral hb ih =>
    rw [Nat.add_right_comm, evalPlain_bracketed hseveral hb, evalPlain_bracketed hseveral hb]
    exact ih.noted lo hi
  | noOperator levels lo hi hs hseveral hb hm =>
    rw [Nat.add_right_comm, evalPlain_noOperator hseveral hb hm, evalPlain_noOperator hseveral hb hm]
    exact outlasted_refl _
  | split levels lo hi hs op hseveral hb hm ihl ihr =>
    rw [Nat.add_right_comm, evalPlain_split hseveral hb hm, evalPlain_split hseveral hb hm]
    refine OutlastedBy.noted ?_ lo hi
    rw [Nat.add_right_comm] at ihl
    exact ihl.bind fun left => ihr.bind fun right => outlasted_refl _

theorem evalTokens_outlasted (h : s.maxDepth ≤ d') :
    (s.evalTokens ts).OutlastedBy ({ s with maxDepth := d' }.evalTokens ts) := by
  have hlevels : s.levels 0 ≤ { s with maxDepth := d' }.levels 0 := by
    show (s.maxDepth + 1 - 0).toNat ≤ (d' + 1 - 0).toNat
    omega
  obtain ⟨more, hmore⟩ := Nat.exists_eq_add_of_le hlevels
  rw [evalTokens, evalTokens, evalRange, evalRange, evalLevels_eq_evalPlain,
    evalLevels_eq_evalPlain, hmore]
  exact evalPlain_outlasted more _ 0 ts.size (Nat.le_refl _)

/-- Under higher limits the result of a text is the same, unless one of the lower limits was
    the reason why there is no value. -/
theorem evaluate_of_le (s : Setting σ) (text : String) {max max' : Int} (hd : s.maxDepth ≤ d')
    (hmax : max ≤ max') (state : σ) :
    (s.evaluate text max state).result = .error (.expr (.lex (.tooManyTokens max)))
    ∨ (∃ limit, (s.evaluate text max state).result = .error (.expr (.nestingTooDeep limit)))
    ∨ ({ s with maxDepth := d' }.evaluate text max' state).result
      = (s.evaluate text max state).result := by
  rw [evaluate_result, evaluate_result]
  rcases tokenize_of_le hmax text with hfull | hsame
  · left
    rw [hfull]
  · right
    rw [hsame]
    cases tokenize text max with
    | error e => exact .inr rfl
    | ok ts =>
      simp only [EvalM.result]
      rcases evalTokens_outlasted hd (.start state) with ⟨limit, last, hdeep⟩ | hsame
      · rw [hdeep]
        exact .inl ⟨limit, rfl⟩
      · rw [hsame]
        exact .inr rfl

end Setting

/-! ## Chains -/

/-- A chain of operands: the first one, and the others behind their operators. -/
def chainTokens (a : Token) (links : List (BinOp × Token)) : List Token :=
  a :: links.flatMap fun link => [.spelled (.op link.1), link.2]

namespace Tree

/-- A tree with further operands on its right, one operator after the other. -/
def chain (t : Tree Token) (links : List (BinOp × Token)) : Tree Token :=
  links.foldl (fun t link => .node link.1 t (.leaf link.2)) t

variable {t : Tree Token} {links : List (BinOp × Token)} {c : Nat}

theorem tokens_chain :
    (chain t links).tokens
      = t.tokens ++ links.flatMap fun link => [.spelled (.op link.1), link.2] := by
  induction links generalizing t with
  | nil => exact (List.append_nil _).symm
  | cons link links ih =>
    have hstep := ih (t := .node link.1 t (.leaf link.2))
    rw [tokens_node, tokens_leaf, List.append_assoc] at hstep
    exact hstep

/-- Operators of one class make an expression, with the last of them at its top. -/
theorem isExpression_chain (ht : t.IsExpression) (hc : t.looseness BinOp.looseness ≤ c)
    (hlinks : ∀ link ∈ links, link.1.looseness = c ∧ link.2.kind.isOperand = true) :
    (chain t links).IsExpression := by
  induction links generalizing t with
  | nil => exact ht
  | cons link links ih =>
    obtain ⟨⟨hop, hoperand⟩, hlinks'⟩ := List.forall_mem_cons.mp hlinks
    refine ih ?_ (Nat.le_of_eq hop) hlinks'
    refine isExpression_node.mpr ⟨ht, isExpression_leaf.mpr hoperand, ?_, link.1.looseness_pos⟩
    rwa [hop]

/-- However long a chain is, its operands are one level deep. -/
theorem nesting_chain_le (ht : t.nesting ≤ 1) : (chain t links).nesting ≤ 1 := by
  induction links generalizing t with
  | nil => exact ht
  | cons link links ih =>
    refine ih ?_
    rw [nesting, nesting]
    omega

end Tree

/-! ## Exact limits -/

namespace Setting

variable {w : Width} {resolver : Option (String → Option Int)} {text : String}
  {capacity d m : Int} {ts : Array Token}

/-- What becomes of an expression with a meaning under any limits. -/
theorem valueOf_of_meaning {t : Tree Token} {v : Nat}
    (hlex : tokenize text capacity = .ok ts) (ht : t.IsExpression)
    (htokens : t.tokens = ts.toList) (hv : t.meaning w (knownBy resolver) = .ok v) :
    (stateless w d resolver).valueOf text m
      = if (ts.size : Int) ≤ m then
          if (t.nesting : Int) ≤ d then .ok v else .error (.expr (.nestingTooDeep d))
        else .error (.expr (.lex (.tooManyTokens m))) := by
  have hspells := spells_of_tokenize hlex
  have hne : ¬ ts.toList = [] := by
    rw [← htokens]
    exact List.ne_nil_of_length_pos t.tokens_length_pos
  have hall : tokenize text m
      = if (ts.size : Int) ≤ m then .ok ts else .error (.tooManyTokens m) := by
    rw [tokenize_of_spells hspells]
    simp only [hne, false_or]
    rfl
  by_cases hm : (ts.size : Int) ≤ m
  · rw [if_pos hm] at hall
    rw [if_pos hm]
    by_cases hd : (t.nesting : Int) ≤ d
    · rw [if_pos hd, valueOf_of_tokens hall ht htokens hd, hv]
      rfl
    · rw [if_neg hd, valueOf_of_tooDeep hall ht htokens (Int.not_le.mp hd) hv]
  · rw [if_neg hm] at hall
    rw [if_neg hm, valueOf, evaluate_result, hall]

/-- A chain of operands is never stopped by a limit of nesting of at least one. -/
theorem valueOf_chain_ne_tooDeep {a : Token} {links : List (BinOp × Token)} {c : Nat}
    (hlex : tokenize text capacity = .ok ts) (hts : ts.toList = chainTokens a links)
    (ha : a.kind.isOperand = true)
    (hlinks : ∀ link ∈ links, link.1.looseness = c ∧ link.2.kind.isOperand = true)
    (hd : 1 ≤ d) (limit : Int) :
    (stateless w d resolver).valueOf text m ≠ .error (.expr (.nestingTooDeep limit)) := by
  have ht : ((Tree.leaf a).chain links).IsExpression :=
    Tree.isExpression_chain (Tree.isExpression_leaf.mpr ha) (Nat.zero_le c) hlinks
  have htokens : tokenize text capacity = .ok ((Tree.leaf a).chain links).tokens.toArray := by
    have hchain : ((Tree.leaf a).chain links).tokens = ts.toList := by
      rw [Tree.tokens_chain, hts]
      rfl
    rw [hchain, Array.toArray_toList, hlex]
  have hnesting : (((Tree.leaf a).chain links).nesting : Int) ≤ d := by
    have hone : ((Tree.leaf a).chain links).nesting ≤ 1 := Tree.nesting_chain_le (Nat.zero_le 1)
    omega
  exact result_ne_nestingTooDeep ht (fun us hus => tokenize_unique hus htokens) hnesting () limit

/-- A result that names no limit stays the same under higher limits. -/
theorem valueOf_of_le {d d' m m' : Int} (hd : d ≤ d') (hm : m ≤ m')
    {r : Except EvalError Nat} (h : (stateless w d resolver).valueOf text m = r)
    (hdeep : ∀ limit, r ≠ .error (.expr (.nestingTooDeep limit)))
    (hfull : ∀ limit, r ≠ .error (.expr (.lex (.tooManyTokens limit)))) :
    (stateless w d' resolver).valueOf text m' = r := by
  have hcases := evaluate_of_le (stateless w d resolver) text hd hm ()
  rw [← valueOf, h] at hcases
  rcases hcases with htokens | ⟨limit, hnesting⟩ | hsame
  · exact absurd htokens (hfull m)
  · exact absurd hnesting (hdeep limit)
  · exact hsame

/-- Limits are transparent and exact. A value, or an error other than that of a limit, stays
    the same under higher limits. An expression with a meaning has its value exactly if neither
    its number of tokens nor its nesting exceeds its limit; otherwise the limit of tokens is
    reported first. And a chain of operands whose operators are of one class does not exceed a
    limit of nesting of at least one, however long it is. -/
theorem limits_are_exact (w : Width) (resolver : Option (String → Option Int)) (text : String) :
    (∀ (d m d' m' : Int) (v : Nat), d ≤ d' → m ≤ m' →
      (stateless w d resolver).valueOf text m = .ok v →
      (stateless w d' resolver).valueOf text m' = .ok v)
    ∧ (∀ (d m d' m' : Int) (e : EvalError), d ≤ d' → m ≤ m' →
        (stateless w d resolver).valueOf text m = .error e →
        (∀ limit, e ≠ .expr (.nestingTooDeep limit)) →
        (∀ limit, e ≠ .expr (.lex (.tooManyTokens limit))) →
        (stateless w d' resolver).valueOf text m' = .error e)
    ∧ ∀ (capacity : Int) (ts : Array Token), tokenize text capacity = .ok ts →
        (∀ (t : Tree Token) (v : Nat), t.IsExpression → t.tokens = ts.toList →
          t.meaning w (knownBy resolver) = .ok v → ∀ d m : Int,
          ((stateless w d resolver).valueOf text m = .ok v
            ↔ (ts.size : Int) ≤ m ∧ (t.nesting : Int) ≤ d)
          ∧ (m < ts.size → (stateless w d resolver).valueOf text m
              = .error (.expr (.lex (.tooManyTokens m))))
          ∧ ((ts.size : Int) ≤ m → d < t.nesting → (stateless w d resolver).valueOf text m
              = .error (.expr (.nestingTooDeep d))))
        ∧ ∀ (a : Token) (links : List (BinOp × Token)) (c : Nat),
            ts.toList = chainTokens a links → a.kind.isOperand = true →
            (∀ link ∈ links, link.1.looseness = c ∧ link.2.kind.isOperand = true) →
            ∀ d m limit : Int, 1 ≤ d → (stateless w d resolver).valueOf text m
              ≠ .error (.expr (.nestingTooDeep limit)) := by
  refine ⟨?_, ?_, ?_⟩
  · intro d m d' m' v hd hm hv
    exact valueOf_of_le hd hm hv nofun nofun
  · intro d m d' m' e hd hm he hdeep hfull
    refine valueOf_of_le hd hm he ?_ ?_
    · exact fun limit h => hdeep limit (Except.error.inj h)
    · exact fun limit h => hfull limit (Except.error.inj h)
  · intro capacity ts hlex
    refine ⟨?_, ?_⟩
    · intro t v ht htokens hv d m
      rw [valueOf_of_meaning hlex ht htokens hv]
      refine ⟨?_, ?_, ?_⟩
      · constructor
        · intro h
          split at h
          · rename_i hm
            split at h
            · rename_i hd
              exact ⟨hm, hd⟩
            · cases h
          · cases h
        · rintro ⟨hm, hd⟩
          rw [if_pos hm, if_pos hd]
      · intro hm
        rw [if_neg (Int.not_le.mpr hm)]
      · intro hm hd
        rw [if_pos hm, if_neg (Int.not_le.mpr hd)]
    · intro a links c hts ha hlinks d m limit hd
      exact valueOf_chain_ne_tooDeep hlex hts ha hlinks hd limit

/-- `1+(2*$a)` has seven tokens and nests three deep, `4%0` fails under higher limits as under
    lower ones, and `8/4/2` is a chain. -/
theorem limits_of_bracketed_product :
    let known : String → Option Int := fun name => if name = "a" then some 5 else none
    (stateless .w32 5 (some known)).valueOf "1+(2*$a)" 4096 = .ok 11
    ∧ (stateless .w32 9 (some known)).valueOf "1+(2*$a)" 6
      = .error (.expr (.lex (.tooManyTokens 6)))
    ∧ (stateless .w32 2 (some known)).valueOf "1+(2*$a)" 7
      = .error (.expr (.nestingTooDeep 2))
    ∧ (stateless .w32 5 none).valueOf "4%0" 9 = .error (.expr (.zeroDivisor .remainder))
    ∧ (stateless .w32 1 none).valueOf "8/4/2" 9 ≠ .error (.expr (.nestingTooDeep 1)) := by
  intro known
  have hlex : tokenize "1+(2*$a)" 7 = .ok #[⟨.dec, "1"⟩, .spelled (.op .add), .spelled .lparen,
      ⟨.dec, "2"⟩, .spelled (.op .mul), ⟨.reg, "$a"⟩, .spelled .rparen] := by decide +kernel
  let t : Tree Token := .node .add (.leaf ⟨.dec, "1"⟩)
    (.group (.node .mul (.leaf ⟨.dec, "2"⟩) (.leaf ⟨.reg, "$a"⟩)))
  have hv : t.meaning .w32 (knownBy (some known)) = .ok 11 := by decide +kernel
  obtain ⟨hvalue, -, hexact⟩ := limits_are_exact .w32 (some known) "1+(2*$a)"
  have hlimits := (hexact 7 _ hlex).1 t 11 (by decide) rfl hv
  obtain ⟨-, herror, -⟩ := limits_are_exact .w32 none "4%0"
  obtain ⟨-, -, hchain⟩ := limits_are_exact .w32 none "8/4/2"
  refine ⟨?_, ?_, ?_, ?_, ?_⟩
  · exact hvalue 3 7 5 4096 11 (by decide) (by decide) ((hlimits 3 7).1.mpr (by decide))
  · exact (hlimits 9 6).2.1 (by decide)
  · exact (hlimits 2 7).2.2 (by decide) (by decide)
  · exact herror 1 3 5 9 _ (by decide) (by decide) (by decide +kernel) nofun nofun
  · have hlex' : tokenize "8/4/2" 9 = .ok #[⟨.dec, "8"⟩, .spelled (.op .div), ⟨.dec, "4"⟩,
        .spelled (.op .div), ⟨.dec, "2"⟩] := by decide +kernel
    exact (hchain 9 _ hlex').2 ⟨.dec, "8"⟩ [(.div, ⟨.dec, "4"⟩), (.div, ⟨.dec, "2"⟩)] 1 rfl rfl
      (by decide) 1 9 1 (by decide)

end Setting

end WordExpr
