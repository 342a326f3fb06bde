/-
  WordExpr.Proofs.RangeTree

  The kinds of ranges, and ranges that hold the tokens of a tree.

  A range inside a token list is empty, a single token, one pair of brackets, split by its
  main operator, or none of these. `range_induction` is induction over these kinds, in the
  order in which evaluation takes a range apart: brackets and right operands use up a level
  of nesting, left operands become shorter. It is the only induction over ranges; what
  evaluation keeps, range by range, is proved with it.

  `Holds ts lo hi t` says that the range `[lo, hi)` holds the tokens of `t`. For each
  constructor there is a lemma that takes a range apart and one that puts it together.
-/
import WordExpr.Proofs.Expression

namespace WordExpr

namespace Range

variable {ts : Array Token} {lo hi op : Nat}

/-! ## The main operator is an operator -/

/-- What a search for operators finds is the candidate it had or one of the tokens. -/
theorem scanList_eq_some {xs : List Token} {i depth : Nat} {best : Option Candidate}
    {c : Candidate} (h : scanList i depth best xs = some c) :
    best = some c ∨ ∃ k o, xs[k]?.map Token.kind = some (.op o)
      ∧ c = ⟨i + k, o.looseness⟩ := by
  induction xs generalizing i depth best with
  | nil => exact .inl h
  | cons t xs ih =>
    obtain ⟨next, -, hrest⟩ := Option.bind_eq_some_iff.mp h
    rcases ih hrest with hbest | ⟨k, o, hk, rfl⟩
    -- What is found without the other tokens is the candidate before, or this token.
    · cases hkind : t.kind with
      | op o =>
        rw [hkind, bestStep] at hbest
        split at hbest
        · rcases Candidate.later_index hbest with hb | rfl
          · exact .inl hb
          · refine .inr ⟨0, o, ?_, rfl⟩
            rw [List.getElem?_cons_zero, Option.map_some, hkind]
        · exact .inl hbest
      | _ =>
        rw [hkind] at hbest
        exact .inl hbest
    · refine .inr ⟨k + 1, o, ?_, ?_⟩
      · rw [List.getElem?_cons_succ, hk]
      · rw [Nat.add_assoc, Nat.add_comm 1 k]

theorem mainOperator?_eq_some (hlo : lo ≤ hi) (hs : hi ≤ ts.size)
    (h : mainOperator? ts lo hi = .ok (some op)) :
    ∃ o, scanList lo 0 none (slice ts lo hi) = some ⟨op, o.looseness⟩
      ∧ ts[op]?.map Token.kind = some (.op o) := by
  rw [mainOperator?_eq hlo hs, Except.ok.injEq] at h
  obtain ⟨c, hc, rfl⟩ := Option.map_eq_some_iff.mp h
  rcases scanList_eq_some hc with hnone | ⟨k, o, hk, rfl⟩
  · cases hnone
  · refine ⟨o, hc, ?_⟩
    obtain ⟨t, ht, htk⟩ := Option.map_eq_some_iff.mp hk
    have hlt : k < (slice ts lo hi).length := (List.getElem?_eq_some_iff.mp ht).1
    rw [slice_eq_take_drop, List.getElem?_take, List.getElem?_drop] at ht
    rw [length_slice hs] at hlt
    rw [if_pos hlt, Array.getElem?_toList] at ht
    rw [ht, Option.map_some, htk]

/-- The main operator of a range is an operator. -/
theorem exists_isOperator (hlo : lo ≤ hi) (hs : hi ≤ ts.size)
    (hm : mainOperator? ts lo hi = .ok (some op)) :
    ∃ a, ts[op]? = some a ∧ a.kind.isOperator = true := by
  obtain ⟨o, -, hkind⟩ := mainOperator?_eq_some hlo hs hm
  obtain ⟨a, ha, hk⟩ := Option.map_eq_some_iff.mp hkind
  exact ⟨a, ha, by rw [hk]; rfl⟩

/-! ## Induction over ranges -/

theorem range_induction {motive : (levels lo hi : Nat) → hi ≤ ts.size → Prop}
    (deep : ∀ lo hi hs, motive 0 lo hi hs)
    (empty : ∀ levels lo hi hs, hi ≤ lo → motive (levels + 1) lo hi hs)
    (operand : ∀ levels lo (hlt : lo < ts.size), motive (levels + 1) lo (lo + 1) hlt)
    (bracketed : ∀ levels lo hi hs, lo + 1 < hi → isBracketed ts lo hi = .ok true →
      motive levels (lo + 1) (hi - 1) (Nat.le_trans (Nat.sub_le hi 1) hs) →
      motive (levels + 1) lo hi hs)
    (noOperator : ∀ levels lo hi hs, lo + 1 < hi → isBracketed ts lo hi = .ok false →
      mainOperator? ts lo hi = .ok none → motive (levels + 1) lo hi hs)
    (split : ∀ levels lo hi hs op, lo + 1 < hi → isBracketed ts lo hi = .ok false →
      (hm : mainOperator? ts lo hi = .ok (some op)) →
      motive (levels + 1) lo op (Nat.le_trans (Nat.le_of_lt (mainOperator?_bounds hm).2) hs) →
      motive levels (op + 1) hi hs → motive (levels + 1) lo hi hs)
    (levels lo hi : Nat) (hs : hi ≤ ts.size) : motive levels lo hi hs := by
  induction levels generalizing lo hi with
  | zero => exact deep lo hi hs
  | succ levels ih =>
    induction hi using Nat.strongRecOn with
    | ind hi ihleft =>
      by_cases hempty : hi ≤ lo
      · exact empty levels lo hi hs hempty
      by_cases hone : hi = lo + 1
      · subst hone
        exact operand levels lo hs
      have hseveral : lo + 1 < hi := by omega
      by_cases hb : isBracketed ts lo hi = .ok true
      · exact bracketed levels lo hi hs hseveral hb (ih _ _ _)
      have hb' := isBracketed_eq_false hseveral hs hb
      cases hm : mainOperator? ts lo hi with
      | error m =>
        rw [mainOperator?_eq (by omega) hs] at hm
        cases hm
      | ok main =>
        cases main with
        | none => exact noOperator levels lo hi hs hseveral hb' hm
        | some op =>
          exact split levels lo hi hs op hseveral hb' hm
            (ihleft op (mainOperator?_bounds hm).2 _) (ih _ _ hs)

/-! ## Ranges that hold a tree -/

/-- The range `[lo, hi)` holds the tokens of a tree. -/
structure Holds (ts : Array Token) (lo hi : Nat) (t : Tree Token) : Prop where
  fits : hi ≤ ts.size
  tokens : slice ts lo hi = t.tokens

namespace Holds

variable {t l r : Tree Token} {a : Token} {o : BinOp}

theorem hi_eq (h : Holds ts lo hi t) : hi = lo + t.tokens.length := by
  have hlen := congrArg List.length h.tokens
  have hpos := t.tokens_length_pos
  rw [length_slice h.fits] at hlen
  omega

/-! ### One token -/

theorem leaf (h : Holds ts lo hi (.leaf a)) : hi = lo + 1 ∧ ts[lo]? = some a := by
  have hhi : hi = lo + 1 := h.hi_eq
  subst hhi
  have hlt : lo < ts.size := h.fits
  have htokens := h.tokens
  rw [slice_singleton hlt, Tree.tokens_leaf, List.cons.injEq] at htokens
  rw [Array.getElem?_eq_getElem hlt, htokens.1]
  exact ⟨rfl, rfl⟩

theorem of_leaf (h : lo < ts.size) : Holds ts lo (lo + 1) (.leaf ts[lo]) where
  fits := h
  tokens := slice_singleton h

/-! ### Brackets -/

theorem group (h : Holds ts lo hi (.group t)) (ht : t.IsExpression) :
    lo + 1 < hi ∧ isBracketed ts lo hi = .ok true ∧ Holds ts (lo + 1) (hi - 1) t := by
  have hhi := h.hi_eq
  have hpos := t.tokens_length_pos
  rw [Tree.tokens_group, List.length_cons, List.length_append, List.length_singleton] at hhi
  have hseveral : lo + 1 < hi := by omega
  have htokens := h.tokens
  rw [slice_ends hseveral h.fits, Tree.tokens_group] at htokens
  obtain ⟨hfirst, hrest⟩ := List.cons.inj htokens
  obtain ⟨hinside, hlast⟩ := List.append_inj' hrest rfl
  refine ⟨hseveral, (isBracketed_eq_true_iff hseveral h.fits).mpr ⟨?_, ?_, ?_⟩,
    ⟨Nat.le_trans (Nat.sub_le hi 1) h.fits, hinside⟩⟩
  · rw [hfirst]
    rfl
  · rw [List.cons.inj hlast |>.1]
    rfl
  · rw [hinside]
    exact Tree.depthAfter_tokens ht.2 0

/-- A range that is one pair of brackets holds a bracketed tree, if its inside holds a tree
    and its brackets have the text of brackets. -/
theorem of_group (hseveral : lo + 1 < hi) (hs : hi ≤ ts.size)
    (hspelled : ∀ t ∈ ts, t.kind.isOperand = false → t = .spelled t.kind)
    (hb : isBracketed ts lo hi = .ok true) (h : Holds ts (lo + 1) (hi - 1) t) :
    Holds ts lo hi (.group t) where
  fits := hs
  tokens := by
    obtain ⟨hfirst, hlast, -⟩ := (isBracketed_eq_true_iff hseveral hs).mp hb
    have hopen := hspelled ts[lo] (Array.getElem_mem _) (by rw [hfirst]; rfl)
    have hclose := hspelled ts[hi - 1] (Array.getElem_mem _) (by rw [hlast]; rfl)
    rw [hfirst] at hopen
    rw [hlast] at hclose
    rw [slice_ends hseveral hs, hopen, hclose, h.tokens, Tree.tokens_group]

/-! ### Operators -/

theorem left (h : Holds ts lo hi (.node o l r)) : Holds ts lo (lo + l.tokens.length) l := by
  have hhi := h.hi_eq
  rw [Tree.tokens_node, List.length_append, List.length_cons] at hhi
  have hfits : lo + l.tokens.length ≤ ts.size := by
    have := h.fits
    omega
  refine ⟨hfits, ?_⟩
  have htokens := h.tokens
  rw [← slice_append (Nat.le_add_right lo l.tokens.length) (by omega), Tree.tokens_node]
    at htokens
  refine (List.append_inj htokens ?_).1
  rw [length_slice hfits]
  omega

theorem operator_right (h : Holds ts lo hi (.node o l r)) :
    ts[lo + l.tokens.length]? = some (.spelled (.op o))
      ∧ Holds ts (lo + l.tokens.length + 1) hi r := by
  have hhi := h.hi_eq
  rw [Tree.tokens_node, List.length_append, List.length_cons] at hhi
  have hlt : lo + l.tokens.length < ts.size := by
    have := h.fits
    omega
  have htokens := h.tokens
  rw [slice_split (Nat.le_add_right lo l.tokens.length) (by omega) h.fits, h.left.tokens,
    Tree.tokens_node] at htokens
  obtain ⟨hop, hright⟩ := List.cons.inj (List.append_cancel_left htokens)
  rw [Array.getElem?_eq_getElem hlt, hop]
  exact ⟨rfl, h.fits, hright⟩

/-- An expression with an operator at its top is split on that operator. -/
theorem node (h : Holds ts lo hi (.node o l r)) (ht : (Tree.node o l r).IsExpression) :
    lo + 1 < hi ∧ isBracketed ts lo hi = .ok false
      ∧ mainOperator? ts lo hi = .ok (some (lo + l.tokens.length)) := by
  have hhi := h.hi_eq
  have hpos := l.tokens_length_pos
  have hpos' := r.tokens_length_pos
  rw [Tree.tokens_node, List.length_append, List.length_cons] at hhi
  have hseveral : lo + 1 < hi := by omega
  have hscan : scanList lo 0 none (slice ts lo hi)
      = some ⟨lo + l.tokens.length, o.looseness⟩ := by
    rw [h.tokens, Tree.scanList_expression ht]
    rfl
  refine ⟨hseveral, ?_, ?_⟩
  · refine isBracketed_eq_false hseveral h.fits fun hb => ?_
    obtain ⟨hfirst, hlast, hinside⟩ := (isBracketed_eq_true_iff hseveral h.fits).mp hb
    -- In a pair of brackets there would be no operator to split on.
    rw [slice_ends hseveral h.fits, Tree.scanList_of_bracketed hfirst hlast hinside] at hscan
    cases hscan
  · rw [mainOperator?_eq (by omega) h.fits, hscan]
    rfl

/-- A range that is split on an operator holds an operator tree, if both sides hold
    expressions and the operator has the text of one. -/
theorem of_node (hs : hi ≤ ts.size)
    (hspelled : ∀ t ∈ ts, t.kind.isOperand = false → t = .spelled t.kind)
    (hm : mainOperator? ts lo hi = .ok (some op))
    (hl : Holds ts lo op l) (hr : Holds ts (op + 1) hi r)
    (htl : l.IsExpression) (htr : r.IsExpression) :
    ∃ o, Holds ts lo hi (.node o l r) ∧ (Tree.node o l r).IsExpression := by
  obtain ⟨hle, hlt⟩ := mainOperator?_bounds hm
  obtain ⟨o, hscan, hkind⟩ := mainOperator?_eq_some (by omega) hs hm
  have hopsize : op < ts.size := by omega
  rw [map_kind_eq_some_iff hopsize] at hkind
  have hop : ts[op] = .spelled (.op o) := by
    have hspell := hspelled ts[op] (Array.getElem_mem hopsize) (by rw [hkind]; rfl)
    rw [hspell, hkind]
  have htokens : slice ts lo hi = (Tree.node o l r).tokens := by
    rw [slice_split hle hlt hs, hop, hl.tokens, hr.tokens, Tree.tokens_node]
  -- The operator won against those at the top of both sides.
  have hop_eq := hl.hi_eq
  have hmerge : Candidate.merge (Candidate.later (l.top? lo) ⟨op, o.looseness⟩)
      (r.top? (op + 1)) = some ⟨op, o.looseness⟩ := by
    have hstep : ∀ best, scanList op 0 best (.spelled (.op o) :: r.tokens)
        = scanList (op + 1) 0 (Candidate.later best ⟨op, o.looseness⟩) r.tokens :=
      fun _ => rfl
    have hrest := Tree.scanList_tokens htr (op + 1)
      (Candidate.later (l.top? lo) ⟨op, o.looseness⟩) []
    rw [List.append_nil, scanList] at hrest
    have hnone : Candidate.merge none (l.top? lo) = l.top? lo := by
      cases l <;> rfl
    rw [← hrest, ← hscan, htokens, Tree.tokens_node, Tree.scanList_tokens htl, ← hop_eq, hstep,
      hnone]
  obtain ⟨hle', hlt'⟩ := Candidate.looseness_of_merge_later hmerge
    (fun c hc => by
      have := (Tree.index_of_top? hc).2
      show c.index ≠ op
      omega)
    (fun c hc => by
      have := (Tree.index_of_top? hc).1
      show c.index ≠ op
      omega)
  have hright : r.looseness BinOp.looseness ≤ o.looseness - 1 :=
    Tree.looseness_le_of_top? fun c hc => Nat.le_sub_one_of_lt (hlt' c hc)
  have hpos : 0 < o.looseness := o.looseness_pos
  exact ⟨o, ⟨hs, htokens⟩, Tree.isExpression_node.mpr
    ⟨htl, htr, Tree.looseness_le_of_top? hle', by omega⟩⟩

end Holds

end Range

end WordExpr
