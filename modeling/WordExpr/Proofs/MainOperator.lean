/-
  WordExpr.Proofs.MainOperator

  What the analyses of a range find, said of its tokens alone. The main operator of a range
  stands outside its brackets, no such operator before it binds more loosely, and every one
  behind it binds tighter (`Range.IsMain`). There is none if a part of the range, from its start
  on, closes more brackets than it opens, or if no operator stands outside brackets
  (`Range.analyses_are_exact`).

  The search keeps the best of the operators that it has come by. `Range.BestSoFar` says so of
  every place that it reaches; one token keeps it (`Range.BestSoFar.step`), and so does the rest
  of the range (`Range.BestSoFar.run`).
-/
import WordExpr.Proofs.Brackets

namespace WordExpr.Range

open Token

variable {ts : Array Token} {lo hi mid i j depth after : Nat} {o o' : BinOp}
  {best : Option Candidate}

/-! ## Operators outside brackets -/

/-- An operator stands at the index, and before it the range from `lo` on closes as many
    brackets as it opens. -/
structure OutsideAt (ts : Array Token) (lo i : Nat) (o : BinOp) : Prop where
  kind : ts[i]?.map Token.kind = some (.op o)
  counts : opened (slice ts lo i) = closed (slice ts lo i)

/-- An operator is outside brackets if none is open before it. -/
theorem outsideAt_iff (hlt : i < ts.size) (h : depthAfter 0 (slice ts lo i) = some depth) :
    OutsideAt ts lo i o ↔ ts[i].kind = .op o ∧ depth = 0 := by
  have hcount := add_opened_of_depthAfter h
  constructor
  · rintro ⟨hkind, hcounts⟩
    exact ⟨(map_kind_eq_some_iff hlt).mp hkind, by omega⟩
  · rintro ⟨hkind, rfl⟩
    exact ⟨(map_kind_eq_some_iff hlt).mpr hkind, by omega⟩

theorem OutsideAt.unique (h : OutsideAt ts lo i o) (h' : OutsideAt ts lo i o') : o = o' := by
  have hkind := h.kind
  rw [h'.kind, Option.some.injEq, TokenKind.op.injEq] at hkind
  exact hkind.symm

/-- The operator of the range `[lo, hi)` that is applied last: it stands outside brackets, none
    before it binds more loosely, and all behind it bind tighter. -/
structure IsMain (ts : Array Token) (lo hi i : Nat) (o : BinOp) : Prop where
  le : lo ≤ i
  lt : i < hi
  outside : OutsideAt ts lo i o
  before : ∀ j o', lo ≤ j → j < i → OutsideAt ts lo j o' → o'.looseness ≤ o.looseness
  behind : ∀ j o', i < j → j < hi → OutsideAt ts lo j o' → o'.looseness < o.looseness

namespace IsMain

/-- No operator of the range outside brackets binds more loosely than the main one. -/
theorem looseness_le (h : IsMain ts lo hi i o) (hlo : lo ≤ j) (hhi : j < hi)
    (hj : OutsideAt ts lo j o') : o'.looseness ≤ o.looseness := by
  rcases Nat.lt_trichotomy j i with hlt | rfl | hgt
  · exact h.before j o' hlo hlt hj
  · rw [hj.unique h.outside]
  · exact Nat.le_of_lt (h.behind j o' hgt hhi hj)

/-- A range has one main operator at most. -/
theorem unique (h : IsMain ts lo hi i o) (h' : IsMain ts lo hi j o') : i = j := by
  rcases Nat.lt_trichotomy i j with hlt | rfl | hgt
  · have hle := h'.before i o h.le hlt h.outside
    have hless := h.behind j o' hlt h'.lt h'.outside
    omega
  · rfl
  · have hle := h.before j o' h'.le hgt h'.outside
    have hless := h'.behind i o hgt h.lt h.outside
    omega

/-- The main operator stays the main one in front of a token that binds tighter, or that is no
    operator outside brackets. -/
theorem extend (h : IsMain ts lo mid i o)
    (hmid : ∀ o', OutsideAt ts lo mid o' → o'.looseness < o.looseness) :
    IsMain ts lo (mid + 1) i o := by
  refine { h with lt := Nat.lt_succ_of_lt h.lt, behind := fun j o' hj hlt houtside => ?_ }
  rcases Nat.lt_succ_iff_lt_or_eq.mp hlt with hlt | rfl
  · exact h.behind j o' hj hlt houtside
  · exact hmid o' houtside

/-- What stands before the main operator is balanced, if it does not close too many brackets. -/
theorem balanced (h : IsMain ts lo hi i o) (hfirst : ¬ Overcloses (slice ts lo hi)) :
    Balanced (slice ts lo i) := by
  rw [← slice_append h.le (Nat.le_of_lt h.lt)] at hfirst
  exact balanced_iff_counts.mpr ⟨fun hover => hfirst hover.append, h.outside.counts⟩

end IsMain

/-! ## The search -/

/-- The best candidate of the range `[lo, hi)`: its main operator, or nothing if no operator of
    the range stands outside brackets. -/
def BestSoFar (ts : Array Token) (lo hi : Nat) : Option Candidate → Prop
  | none => ∀ i o, lo ≤ i → i < hi → ¬ OutsideAt ts lo i o
  | some c => ∃ o, c.looseness = o.looseness ∧ IsMain ts lo hi c.index o

namespace BestSoFar

/-- A token that is no operator outside brackets changes nothing. -/
theorem skip (h : BestSoFar ts lo mid best) (hmid : ∀ o, ¬ OutsideAt ts lo mid o) :
    BestSoFar ts lo (mid + 1) best := by
  cases best with
  | none =>
    intro i o hlo hlt
    rcases Nat.lt_succ_iff_lt_or_eq.mp hlt with hlt | rfl
    · exact h i o hlo hlt
    · exact hmid o
  | some c =>
    obtain ⟨o, ho, hmain⟩ := h
    exact ⟨o, ho, hmain.extend fun o' houtside => absurd houtside (hmid o')⟩

/-- An operator outside brackets becomes the best candidate, unless the one before it binds more
    loosely. -/
theorem later (h : BestSoFar ts lo mid best) (hlo : lo ≤ mid) (hmid : OutsideAt ts lo mid o) :
    BestSoFar ts lo (mid + 1) (Candidate.later best ⟨mid, o.looseness⟩) := by
  -- Nothing stands behind the last token.
  have hmain (hbefore : ∀ j o', lo ≤ j → j < mid → OutsideAt ts lo j o' →
      o'.looseness ≤ o.looseness) : IsMain ts lo (mid + 1) mid o :=
    ⟨hlo, Nat.lt_succ_self mid, hmid, hbefore, fun j o' hj hlt _ => by omega⟩
  cases best with
  | none =>
    exact ⟨o, rfl, hmain fun j o' hj hlt houtside => absurd houtside (h j o' hj hlt)⟩
  | some c =>
    obtain ⟨b, hb, hbest⟩ := h
    by_cases hle : c.looseness ≤ o.looseness
    · rw [Candidate.later, if_pos hle]
      refine ⟨o, rfl, hmain fun j o' hj hlt houtside => ?_⟩
      have hbound := hbest.looseness_le hj hlt houtside
      omega
    · rw [Candidate.later, if_neg hle]
      refine ⟨b, hb, hbest.extend fun o' houtside => ?_⟩
      rw [houtside.unique hmid]
      omega

/-- One token of the search. -/
theorem step (h : BestSoFar ts lo mid best) (hlo : lo ≤ mid) (hlt : mid < ts.size)
    (hdepth : depthAfter 0 (slice ts lo mid) = some depth) :
    BestSoFar ts lo (mid + 1) (bestStep mid depth best ts[mid].kind) := by
  cases hkind : ts[mid].kind with
  | op o =>
    by_cases hzero : depth = 0
    · rw [bestStep, if_pos hzero]
      exact h.later hlo ((outsideAt_iff hlt hdepth).mpr ⟨hkind, hzero⟩)
    · rw [bestStep, if_neg hzero]
      exact h.skip fun o' houtside => hzero ((outsideAt_iff hlt hdepth).mp houtside).2
  | _ =>
    refine h.skip fun o' houtside => ?_
    have hop := ((outsideAt_iff hlt hdepth).mp houtside).1
    rw [hkind] at hop
    cases hop

/-- The rest of the search, if none of the tokens closes too many brackets. -/
theorem run (h : BestSoFar ts lo mid best) (hlo : lo ≤ mid) (hmid : mid ≤ hi)
    (hs : hi ≤ ts.size) (hdepth : depthAfter 0 (slice ts lo mid) = some depth)
    (hrest : depthAfter depth (slice ts mid hi) = some after) :
    BestSoFar ts lo hi (scanList mid depth best (slice ts mid hi)) := by
  induction hlen : hi - mid generalizing mid depth best with
  | zero =>
    obtain rfl : mid = hi := by omega
    rw [slice_of_le (Nat.le_refl mid)]
    exact h
  | succ n ih =>
    have hlt : mid < hi := by omega
    rw [slice_eq_cons hlt hs] at hrest ⊢
    obtain ⟨next, hstep, hrest⟩ := Option.bind_eq_some_iff.mp hrest
    have hnext : depthAfter 0 (slice ts lo (mid + 1)) = some next := by
      rw [← slice_append hlo (Nat.le_succ mid), slice_singleton (by omega), depthAfter_append,
        hdepth, Option.bind_some, depthAfter, hstep]
      rfl
    rw [scanList, hstep]
    exact ih (h.step hlo (by omega) hdepth) (by omega) hlt hnext hrest (by omega)

end BestSoFar

/-! ## The main operator of a range -/

theorem mainOperator?_of_overcloses (hlo : lo ≤ hi) (hs : hi ≤ ts.size)
    (h : Overcloses (slice ts lo hi)) : mainOperator? ts lo hi = .ok none := by
  rw [mainOperator?_eq hlo hs, scanList_eq_none (depthAfter_zero_eq_none_iff.mpr h)]
  rfl

theorem exists_bestSoFar (hlo : lo ≤ hi) (hs : hi ≤ ts.size) (h : ¬ Overcloses (slice ts lo hi)) :
    ∃ best, mainOperator? ts lo hi = .ok (best.map Candidate.index) ∧ BestSoFar ts lo hi best := by
  obtain ⟨after, hafter, -⟩ := exists_depthAfter h
  have hstart : depthAfter 0 (slice ts lo lo) = some 0 := by
    rw [slice_of_le (Nat.le_refl lo)]
    rfl
  have hnone : BestSoFar ts lo lo none := fun i o hle hlt => absurd hlt (Nat.not_lt.mpr hle)
  exact ⟨_, mainOperator?_eq hlo hs, hnone.run (Nat.le_refl lo) hlo hs hstart hafter⟩

/-- A range has no main operator if a part of it from its start on closes more brackets than it
    opens, or if no operator stands outside brackets. -/
theorem mainOperator?_eq_none_iff (hlo : lo ≤ hi) (hs : hi ≤ ts.size) :
    mainOperator? ts lo hi = .ok none
      ↔ Overcloses (slice ts lo hi) ∨ ∀ i o, lo ≤ i → i < hi → ¬ OutsideAt ts lo i o := by
  by_cases hover : Overcloses (slice ts lo hi)
  · exact ⟨fun _ => .inl hover, fun _ => mainOperator?_of_overcloses hlo hs hover⟩
  obtain ⟨best, hmain, hbest⟩ := exists_bestSoFar hlo hs hover
  rw [hmain, or_iff_right hover]
  cases best with
  | none => exact ⟨fun _ => hbest, fun _ => rfl⟩
  | some c =>
    obtain ⟨o, -, hc⟩ := hbest
    constructor
    · intro h
      cases h
    · intro h
      exact absurd hc.outside (h c.index o hc.le hc.lt)

/-- What is found as the main operator of a range is the main operator. -/
theorem mainOperator?_eq_some_iff (hlo : lo ≤ hi) (hs : hi ≤ ts.size) :
    mainOperator? ts lo hi = .ok (some i)
      ↔ ¬ Overcloses (slice ts lo hi) ∧ ∃ o, IsMain ts lo hi i o := by
  by_cases hover : Overcloses (slice ts lo hi)
  · rw [mainOperator?_of_overcloses hlo hs hover]
    constructor
    · intro h
      cases h
    · intro h
      exact absurd hover h.1
  obtain ⟨best, hmain, hbest⟩ := exists_bestSoFar hlo hs hover
  rw [hmain, and_iff_right hover]
  cases best with
  | none =>
    constructor
    · intro h
      cases h
    · rintro ⟨o, ho⟩
      exact absurd ho.outside (hbest i o ho.le ho.lt)
  | some c =>
    obtain ⟨o, -, hc⟩ := hbest
    constructor
    · intro h
      cases h
      exact ⟨o, hc⟩
    · rintro ⟨o', ho'⟩
      rw [← hc.unique ho']
      rfl

/-- One pair of brackets hides every operator. -/
theorem mainOperator?_of_isBracketed (hseveral : lo + 1 < hi) (hs : hi ≤ ts.size)
    (hb : isBracketed ts lo hi = .ok true) : mainOperator? ts lo hi = .ok none := by
  obtain ⟨hfirst, hlast, hinside⟩ := (isBracketed_eq_true_iff hseveral hs).mp hb
  rw [mainOperator?_eq (by omega) hs, slice_ends hseveral hs,
    Tree.scanList_of_bracketed hfirst hlast hinside]
  rfl

/-! ## Both analyses -/

/-- Both analyses of a range of several tokens are exact, whatever the tokens are.

    The range is found to be one pair of brackets exactly if its first and its last token match,
    which is the case if they are brackets of the right kinds and every bracket between them is
    matched between them; and otherwise it is found not to be one.

    It is found to have no main operator exactly if a part of it, from its start on, closes more
    brackets than it opens, or if no operator stands outside brackets. Otherwise its main operator
    is found, before which the range is balanced. One pair of brackets has none. -/
theorem analyses_are_exact (hseveral : lo + 1 < hi) (hs : hi ≤ ts.size) :
    (isBracketed ts lo hi = .ok true ↔ Matched ts lo (hi - 1))
    ∧ (isBracketed ts lo hi = .ok false ↔ ¬ Matched ts lo (hi - 1))
    ∧ (Matched ts lo (hi - 1) ↔ ts[lo]?.map Token.kind = some .lparen
        ∧ ts[hi - 1]?.map Token.kind = some .rparen
        ∧ ∀ k, lo < k → k < hi - 1 → BracketAt ts k → MatchedWithin ts (lo + 1) (hi - 1) k)
    ∧ (mainOperator? ts lo hi = .ok none
        ↔ Overcloses (slice ts lo hi) ∨ ∀ i o, lo ≤ i → i < hi → ¬ OutsideAt ts lo i o)
    ∧ (¬ (Overcloses (slice ts lo hi) ∨ ∀ i o, lo ≤ i → i < hi → ¬ OutsideAt ts lo i o) →
        ∃ i o, mainOperator? ts lo hi = .ok (some i) ∧ IsMain ts lo hi i o)
    ∧ (∀ i, mainOperator? ts lo hi = .ok (some i) →
        (∃ o, IsMain ts lo hi i o) ∧ Balanced (slice ts lo i))
    ∧ (isBracketed ts lo hi = .ok true → mainOperator? ts lo hi = .ok none) := by
  have hlo : lo ≤ hi := by omega
  refine ⟨isBracketed_eq_true_iff_matched hseveral hs, isBracketed_eq_false_iff hseveral hs,
    matched_iff_inside (by omega) (by omega), mainOperator?_eq_none_iff hlo hs,
    fun hsome => ?_, fun i hmain => ?_, mainOperator?_of_isBracketed hseveral hs⟩
  · obtain ⟨best, hmain, hbest⟩ := exists_bestSoFar hlo hs fun hover => hsome (.inl hover)
    cases best with
    | none => exact absurd (.inr hbest) hsome
    | some c =>
      obtain ⟨o, -, ho⟩ := hbest
      exact ⟨c.index, o, hmain, ho⟩
  · obtain ⟨hfirst, o, ho⟩ := (mainOperator?_eq_some_iff hlo hs).mp hmain
    exact ⟨⟨o, ho⟩, ho.balanced hfirst⟩

/-- The range `(8-5)-2*(3-1)` starts and ends with brackets that do not match each other, and its
    main operator is the second minus; `(3-1)`, at its end, is one pair of brackets. -/
theorem analyses_of_brackets_at_both_ends :
    let ts : Array Token := #[.spelled .lparen, ⟨.dec, "8"⟩, .spelled (.op .sub), ⟨.dec, "5"⟩,
      .spelled .rparen, .spelled (.op .sub), ⟨.dec, "2"⟩, .spelled (.op .mul), .spelled .lparen,
      ⟨.dec, "3"⟩, .spelled (.op .sub), ⟨.dec, "1"⟩, .spelled .rparen]
    ¬ Matched ts 0 12
    ∧ mainOperator? ts 0 13 = .ok (some 5) ∧ (∃ o, IsMain ts 0 13 5 o) ∧ Balanced (slice ts 0 5)
    ∧ Matched ts 8 12 ∧ mainOperator? ts 8 13 = .ok none := by
  intro ts
  have hmain : mainOperator? ts 0 13 = .ok (some 5) := by decide
  have hpair : isBracketed ts 8 13 = .ok true := by decide
  obtain ⟨-, hnoPair, -, -, -, hfound, -⟩ :=
    @analyses_are_exact ts 0 13 (by decide) (by decide)
  obtain ⟨hmatched, -, -, -, -, -, hnone⟩ :=
    @analyses_are_exact ts 8 13 (by decide) (by decide)
  exact ⟨hnoPair.mp (by decide), hmain, (hfound 5 hmain).1, (hfound 5 hmain).2,
    hmatched.mp hpair, hnone hpair⟩

end WordExpr.Range
