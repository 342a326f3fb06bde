/-
  WordExpr.Proofs.Grammar

  Evaluation is the meaning of expressions. A token list has a value exactly if it is the
  tokens of an expression that does not nest too deep and has a meaning; there is one such
  expression only, and the value is its meaning. An expression without a meaning fails as
  the first of its subtrees in post-order does (`Setting.evalTokens_eq_ok_iff`).

  Ranges do not appear any more: the lemmas on whole token lists below are all that later
  modules use of them.
-/
import WordExpr.Proofs.Meaning

namespace WordExpr

open Range

namespace Tree

variable {t : Tree Token}

/-- A whole token list holds the tree whose tokens it consists of. -/
theorem holds_of_tokens_eq {ts : Array Token} (h : t.tokens = ts.toList) :
    Holds ts 0 ts.size t where
  fits := Nat.le_refl _
  tokens := by rw [slice_size, h]

end Tree

namespace Setting

variable {w : Width} {maxDepth : Int} {resolver : Option (String → Option Int)}
  {ts : Array Token} {t : Tree Token}

/-! ## Whole token lists -/

theorem evalTokens_of_tokens {σ : Type} {s : Setting σ} (ht : t.IsExpression)
    (htokens : t.tokens = ts.toList) : s.evalTokens ts = s.runTree (s.levels 0) 0 t := by
  rw [evalTokens, evalRange, evalLevels_eq_evalPlain,
    evalPlain_of_holds (Tree.holds_of_tokens_eq htokens) ht]

theorem lt_levels_iff {σ : Type} {s : Setting σ} {n : Nat} :
    n < s.levels 0 ↔ (n : Int) ≤ s.maxDepth := by
  rw [levels]
  omega

theorem lexable_leaves (hts : ∀ a ∈ ts, a.Lexable) (htokens : t.tokens = ts.toList) :
    ∀ a ∈ t.leaves, a.Lexable := by
  intro a ha
  have hmem := Tree.mem_tokens_of_mem_leaves ha
  rw [htokens] at hmem
  exact hts a (Array.mem_def.mpr hmem)

theorem yields_evalTokens (hts : ∀ a ∈ ts, a.Lexable) (ht : t.IsExpression)
    (htokens : t.tokens = ts.toList) (hdeep : (t.nesting : Int) ≤ maxDepth) :
    ((stateless w maxDepth resolver).evalTokens ts).Yields
      (t.meaning w (knownBy resolver)) := by
  rw [evalTokens_of_tokens ht htokens]
  exact yields_runTree ht (lexable_leaves hts htokens) (lt_levels_iff.mpr hdeep)

theorem yields_evalTokens_of_tooDeep (hts : ∀ a ∈ ts, a.Lexable) (ht : t.IsExpression)
    (htokens : t.tokens = ts.toList) (hdeep : maxDepth < (t.nesting : Int)) {v : Nat}
    (hv : t.meaning w (knownBy resolver) = .ok v) :
    ((stateless w maxDepth resolver).evalTokens ts).Yields
      (.error (.nestingTooDeep maxDepth)) := by
  rw [evalTokens_of_tokens ht htokens]
  refine yields_runTree_of_tooDeep ht (lexable_leaves hts htokens) ?_ hv
  exact Nat.le_of_not_lt fun h => Int.not_le.mpr hdeep (lt_levels_iff.mp h)

/-- A token list with a value is the tokens of an expression that does not nest too deep. -/
theorem exists_tokens_of_evalTokens {σ : Type} {s : Setting σ} (hts : ∀ a ∈ ts, a.Lexable)
    {v : Nat} {state last : Session σ} (h : s.evalTokens ts state = .ok v last) :
    ∃ t : Tree Token, t.IsExpression ∧ t.tokens = ts.toList ∧ t.nesting < s.levels 0 := by
  rw [evalTokens, evalRange, evalLevels_eq_evalPlain] at h
  obtain ⟨t, ht, hholds, hnesting⟩ :=
    exists_holds_of_evalPlain (fun a ha => (hts a ha).eq_spelled) (Nat.le_refl _) h
  refine ⟨t, ht, ?_, hnesting⟩
  rw [← hholds.tokens, slice_size]

/-- A token list with a value is the tokens of an expression, and the value is its meaning. -/
theorem exists_expression_of_evalTokens (hts : ∀ a ∈ ts, a.Lexable) {v : Nat}
    {state : Session Unit}
    (h : ((stateless w maxDepth resolver).evalTokens ts).result state = .ok v) :
    ∃ t : Tree Token, t.IsExpression ∧ t.tokens = ts.toList ∧ (t.nesting : Int) ≤ maxDepth
      ∧ t.meaning w (knownBy resolver) = .ok v := by
  obtain ⟨last, hlast⟩ := EvalM.exists_of_result_eq_ok h
  obtain ⟨t, ht, htokens, hnesting⟩ := exists_tokens_of_evalTokens hts hlast
  have hdeep : (t.nesting : Int) ≤ maxDepth := lt_levels_iff.mp hnesting
  -- The run of this expression is the one that had the value.
  exact ⟨t, ht, htokens, hdeep, (yields_evalTokens hts ht htokens hdeep).eq_ok hlast⟩

/-! ## The value of a token list -/

/-- Evaluation has a value exactly on the tokens of an expression that does not nest too deep
    and has a meaning. The expression is the only one with these tokens, and the value is its
    meaning. An expression that does not nest too deep and has no meaning fails as the first
    subtree in post-order that fails by itself, for want of a register or by a division by
    zero. -/
theorem evalTokens_eq_ok_iff (w : Width) (maxDepth : Int)
    (resolver : Option (String → Option Int)) (ts : Array Token)
    (hts : ∀ a ∈ ts, a.Lexable) (state : Session Unit) :
    (∀ v, ((stateless w maxDepth resolver).evalTokens ts).result state = .ok v
      ↔ ∃ t : Tree Token, t.IsExpression ∧ t.tokens = ts.toList
          ∧ (∀ u : Tree Token, u.IsExpression → u.tokens = ts.toList → u = t)
          ∧ (t.nesting : Int) ≤ maxDepth ∧ t.meaning w (knownBy resolver) = .ok v)
    ∧ (∀ t : Tree Token, t.IsExpression → t.tokens = ts.toList → (t.nesting : Int) ≤ maxDepth →
        match t.firstFailure? w (knownBy resolver) with
        | none => ∃ v, t.meaning w (knownBy resolver) = .ok v
            ∧ ((stateless w maxDepth resolver).evalTokens ts).result state = .ok v
        | some e => ((∃ name, e = .unknownRegister name ∧ knownBy resolver name = none)
              ∨ ∃ z, e = .zeroDivisor z)
            ∧ ((stateless w maxDepth resolver).evalTokens ts).result state
              = .error (.expr e)) := by
  constructor
  · intro v
    constructor
    · intro h
      obtain ⟨t, ht, htokens, hdeep, hv⟩ := exists_expression_of_evalTokens hts h
      refine ⟨t, ht, htokens, fun u hu hutokens => ?_, hdeep, hv⟩
      -- An expression is determined by its tokens.
      exact Tree.tokens_injective hu ht (by rw [hutokens, htokens])
    · rintro ⟨t, ht, htokens, -, hdeep, hv⟩
      rw [(yields_evalTokens hts ht htokens hdeep).result_eq, hv]
      rfl
  · intro t ht htokens hdeep
    rw [Tree.firstFailure?_eq, (yields_evalTokens hts ht htokens hdeep).result_eq state]
    cases hm : t.meaning w (knownBy resolver) with
    | error e => exact ⟨Tree.meaning_eq_error hm, rfl⟩
    | ok v => exact ⟨v, rfl, rfl⟩

/-- In `7%($a-0x2)+$b`, where `$a` is 2 and `$b` unknown, the remainder is what fails. -/
theorem evalTokens_remainder_before_register :
    let ts : Array Token := #[⟨.dec, "7"⟩, .spelled (.op .mod), .spelled .lparen, ⟨.reg, "$a"⟩,
      .spelled (.op .sub), ⟨.hex, "0x2"⟩, .spelled .rparen, .spelled (.op .add), ⟨.reg, "$b"⟩]
    let known : String → Option Int := fun name => if name = "a" then some 2 else none
    (∀ a ∈ ts, a.Lexable)
      ∧ ((stateless .w32 3 (some known)).evalTokens ts).result (.start ())
        = .error (.expr (.zeroDivisor .remainder)) := by
  intro ts known
  have hts : ∀ a ∈ ts, a.Lexable := by
    have hseven : Token.Lexable ⟨.dec, String.ofList (['7'] ++ [])⟩ :=
      .dec (by decide) (List.forall_mem_singleton.mpr (by decide)) (.inl rfl) (by decide)
    have ha : Token.Lexable ⟨.reg, String.ofList ['$', 'a']⟩ :=
      .reg (by decide) (by decide) (List.forall_mem_singleton.mpr (by decide))
    have htwo : Token.Lexable ⟨.hex, String.ofList ['0', 'x', '2']⟩ :=
      .hex (by decide) (by decide) (List.forall_mem_singleton.mpr (by decide))
    have hb : Token.Lexable ⟨.reg, String.ofList ['$', 'b']⟩ :=
      .reg (by decide) (by decide) (List.forall_mem_singleton.mpr (by decide))
    intro a hmem
    have hcases : a ∈ ts.toList := Array.mem_def.mp hmem
    simp only [ts, List.mem_cons, List.not_mem_nil, or_false] at hcases
    rcases hcases with rfl | rfl | rfl | rfl | rfl | rfl | rfl | rfl | rfl
    · exact hseven
    · exact .spelled rfl
    · exact .spelled rfl
    · exact ha
    · exact .spelled rfl
    · exact htwo
    · exact .spelled rfl
    · exact .spelled rfl
    · exact hb
  let t : Tree Token := .node .add (.node .mod (.leaf ⟨.dec, "7"⟩)
    (.group (.node .sub (.leaf ⟨.reg, "$a"⟩) (.leaf ⟨.hex, "0x2"⟩)))) (.leaf ⟨.reg, "$b"⟩)
  have hfails : t.firstFailure? .w32 (knownBy (some known)) = some (.zeroDivisor .remainder) := by
    decide +kernel
  have h := (evalTokens_eq_ok_iff .w32 3 (some known) ts hts (.start ())).2 t (by decide) rfl
    (by decide)
  rw [hfails] at h
  exact ⟨hts, h.2⟩

end Setting

end WordExpr
