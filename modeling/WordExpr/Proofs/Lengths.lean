/-
  WordExpr.Proofs.Lengths

  How long random expressions get. The threshold stops a draft from branching, but it looks only
  at what is written already, and an operator's left operand is drafted before anything of the
  operator is written. So when the threshold is passed there may be a right operand and an
  operator still to be written for each level of recursion, and no more: the length is bounded
  by the threshold and the number of levels (`Generator.length_le_of_extend`).

  The buffer alone bounds nothing. A source that asks for operators only at the beginning
  (`Generator.descent`) leaves as many right operands pending as it likes
  (`Generator.extend_descent`).
-/
import WordExpr.Proofs.Drafting
import WordExpr.Proofs.Termination

namespace WordExpr

namespace Generator

variable {σ : Type} {source : Source σ} {g : Generator} {s s' : σ} {d d' : Draft}
  {levels : Nat} {text : String}

/-! ## Pieces -/

/-- A literal of 32 bits has at most ten digits, and its suffix. -/
theorem length_le_of_literal (hs : source.IsFair) (hbits : g.bits = 32)
    (h : g.literal source d s = .ok d' s') : d'.length ≤ d.length + 11 := by
  obtain ⟨value, hchoose, rfl⟩ := literal_eq_ok h
  have hlt : value < 1 <<< g.bits.toNat := choose_lt hs hchoose
  rw [hbits] at hlt
  have hten : (Nat.toDigits 10 value).length ≤ 10 := by
    rw [Nat.length_toDigits_le_iff (by decide) (by decide)]
    exact Nat.lt_of_lt_of_le hlt (by decide)
  rw [Draft.length_add, String.length_append, Nat.toString_eq_ofList_toDigits,
    String.length_ofList]
  exact Nat.add_le_add_left (Nat.add_le_add_right hten 1) _

theorem length_operator_le (op? : Option BinOp) :
    (" " ++ (op?.map BinOp.spelling).getD "" ++ " ").length ≤ 4 := by
  cases op? with
  | none => decide
  | some op => cases op <;> decide

theorem length_le_of_operator (h : g.operator source d s = .ok d' s') :
    d'.length ≤ d.length + 4 := by
  obtain ⟨i, -, rfl⟩ := operator_eq_ok h
  exact Nat.add_le_add_left (length_operator_le _) _

/-! ## What is still written behind the threshold -/

/-- Behind the threshold a literal is all that is added. -/
theorem length_le_of_beyond (hs : source.IsFair) (hbits : g.bits = 32)
    (hlong : g.threshold < (d.length : Int)) (h : g.extend source levels d s = .ok d' s') :
    d'.length ≤ d.length + 11 ∧ 0 < levels := by
  cases levels with
  | zero => cases h
  | succ levels =>
    obtain ⟨kind, s₁, -, ⟨-, hliteral⟩ | ⟨hshort, -⟩ | ⟨hshort, -⟩⟩ := extend_cases h
    · exact ⟨length_le_of_literal hs hbits hliteral, Nat.succ_pos levels⟩
    · omega
    · omega

/-- Each level of recursion adds at most an operator and a literal to the literal with which the
    threshold is passed. -/
theorem length_le_of_extend (hs : source.IsFair) (hbits : g.bits = 32)
    (hshort : (d.length : Int) ≤ g.threshold) (h : g.extend source levels d s = .ok d' s') :
    (d'.length : Int) + 4 ≤ g.threshold + 15 * levels := by
  induction levels generalizing d d' s s' with
  | zero => cases h
  | succ levels ih =>
    -- In each case either the threshold is passed on the way, so that there is but a literal left
    -- to be written, or what is written next starts in front of it again.
    obtain ⟨kind, s₁, -, ⟨-, hliteral⟩ | ⟨-, -, d₁, hinside, rfl⟩
      | ⟨-, -, d₁, s₂, d₂, s₃, hleft, hmiddle, hright⟩⟩ := extend_cases h
    · have hlength := length_le_of_literal hs hbits hliteral
      omega
    · have hopen : (d.add " ( ").length = d.length + 3 := rfl
      have hclose : (d₁.add " ) ").length = d₁.length + 3 := rfl
      by_cases hpassed : g.threshold < ((d.add " ( ").length : Int)
      · obtain ⟨hlength, hlevels⟩ := length_le_of_beyond hs hbits hpassed hinside
        omega
      · have hlength := ih (by omega) hinside
        omega
    · have hoperand := ih hshort hleft
      have hoperator := length_le_of_operator hmiddle
      by_cases hpassed : g.threshold < (d₂.length : Int)
      · obtain ⟨hlength, -⟩ := length_le_of_beyond hs hbits hpassed hright
        omega
      · have hlength := ih (by omega) hright
        omega

/-- A random expression is the text of what the empty draft is extended to within the levels. -/
theorem exists_extend_of_expression (h : g.expression source s = .ok text s') :
    ∃ d', g.extend source g.levels .empty s = .ok d' s' ∧ d'.length = text.length := by
  rw [expression, map_eq_pure_bind] at h
  obtain ⟨d', s₁, hextend, htext⟩ := exists_of_bind h
  cases htext
  exact ⟨d', hextend, d'.length_eq⟩

/-! ## Pending operands -/

/-- The numbers that ask for so many operators at the beginning, and are all the same then. -/
def descent (n : Nat) (x : Int) (k : Nat) : Int := if k < n then 2 else x

/-- The literal of a number. -/
def literalText (g : Generator) (x : Int) : String :=
  toString (x % 2 ^ g.bits.toNat).toNat ++ "u"

/-- The operator of the pool that a number chooses, as it is drafted. -/
def operatorText (g : Generator) (x : Int) : String :=
  " " ++ (g.ops[(x % g.ops.length).toNat]?.map BinOp.spelling).getD "" ++ " "

variable {n j k : Nat} {x : Int}

theorem descent_of_lt (h : k < n) : descent n x k = 2 := if_pos h

theorem descent_of_le (h : n ≤ k) : descent n x k = x := if_neg (Nat.not_lt.mpr h)

/-- Behind the descent a number that is divisible by four is drafted as a literal. -/
theorem extend_behind_descent (hbits : 0 ≤ g.bits) (hx : x % 4 = 0) (hk : n ≤ k) (d : Draft) :
    g.extend (.ofSequence (descent n x)) (levels + 1) d k
      = .ok (d.add (g.literalText x)) (k + 2) := by
  have hkind : choose (.ofSequence (descent n x)) 4 k = .ok 0 (k + 1) := by
    rw [choose_kind, descent_of_le hk, hx]
    rfl
  rw [extend_literal hkind (.inr rfl), literal_ofSequence hbits,
    descent_of_le (Nat.le_succ_of_le hk), literalText]

theorem operator_behind_descent (hops : g.ops ≠ []) (hk : n ≤ k) (d : Draft) :
    g.operator (.ofSequence (descent n x)) d k = .ok (d.add (g.operatorText x)) (k + 1) := by
  rw [operator, bind_of_ok (choose_ofSequence (List.length_pos_iff.mpr hops) k),
    descent_of_le hk, operatorText]
  rfl

/-- Every level of a descent to the left is an operator and a right operand of the text. -/
theorem extend_descent (hbits : 0 ≤ g.bits) (hops : g.ops ≠ []) (hmax : 0 ≤ g.maxLen)
    (hx : x % 4 = 0) (hj : j ≤ n) :
    ∃ d', g.extend (.ofSequence (descent n x)) (j + 1) .empty (n - j) = .ok d' (n + 2 + 3 * j)
      ∧ d'.length
        = (g.literalText x).length
          + j * ((g.operatorText x).length + (g.literalText x).length) := by
  have hshort : ((Draft.empty.length : Nat) : Int) ≤ g.threshold :=
    Int.fdiv_nonneg hmax (by decide)
  -- By induction from the innermost level outwards, which is where drafting starts to write.
  induction j with
  | zero =>
    refine ⟨_, extend_behind_descent hbits hx (Nat.le_refl n) _, ?_⟩
    rw [Draft.length_add, Nat.zero_mul]
    exact Nat.zero_add _
  | succ j ih =>
    obtain ⟨d₁, hleft, hlength⟩ := ih (Nat.le_of_succ_le hj)
    have hkind : choose (.ofSequence (descent n x)) 4 (n - (j + 1)) = .ok 2 (n - j) := by
      rw [choose_kind, descent_of_lt (by omega), show n - (j + 1) + 1 = n - j by omega]
      rfl
    have hmiddle := operator_behind_descent (x := x) hops (show n ≤ n + 2 + 3 * j by omega) d₁
    refine ⟨(d₁.add (g.operatorText x)).add (g.literalText x), ?_, ?_⟩
    · rw [extend_joined hkind hshort (Nat.le_refl 2), bind_of_ok hleft, bind_of_ok hmiddle,
        extend_behind_descent hbits hx (by omega)]
      rfl
    · rw [Draft.length_add, Draft.length_add, hlength, Nat.succ_mul]
      omega

/-- The descent is a random expression of this length. -/
theorem expression_descent (hbits : 0 ≤ g.bits) (hops : g.ops ≠ []) (hmax : 0 ≤ g.maxLen)
    (hx : x % 4 = 0) (n : Nat) :
    ∃ text, { g with levels := n + 1 }.expression (.ofSequence (descent n x)) 0
        = .ok text (n + 2 + 3 * n)
      ∧ text.length
        = (g.literalText x).length
          + n * ((g.operatorText x).length + (g.literalText x).length) := by
  obtain ⟨d', hextend, hlength⟩ := extend_descent hbits hops hmax hx (Nat.le_refl n)
  rw [Nat.sub_self] at hextend
  refine ⟨d'.text, ?_, d'.length_eq.symm.trans hlength⟩
  rw [expression_with_levels, map_eq_pure_bind, bind_of_ok hextend]
  rfl

/-- From 133 numbers that ask for an operator, and the largest number that is divisible by four
    from then on, an expression of 134 equal literals is generated. It has more characters than
    ten buffers of 200. -/
theorem expression_longer_than_buffers :
    ∃ text stop, (Generator.mk 200 [.eq] Width.w32.size 134).expression
        (.ofSequence (descent 133 4294967292)) 0 = .ok text stop
      ∧ text.length = 2006 ∧ ¬ (text.length : Int) < 10 * 200 := by
  obtain ⟨text, htext, hlength⟩ := expression_descent (g := ⟨200, [.eq], Width.w32.size, 0⟩)
    (x := 4294967292) (by decide) (by decide) (by decide) (by decide) 133
  have hliteral :
      ((Generator.mk 200 [.eq] Width.w32.size 0).literalText 4294967292).length = 11 := by
    decide +kernel
  have hoperator :
      ((Generator.mk 200 [.eq] Width.w32.size 0).operatorText 4294967292).length = 4 := by
    decide +kernel
  rw [hliteral, hoperator] at hlength
  exact ⟨text, _, htext, hlength, by omega⟩

/-! ## The length of random expressions -/

/-- Whatever is drawn, a random expression with literals of 32 bits has at most fifteen
    characters for each level of recursion that it took beside a tenth of the buffer, so it is
    shorter than ten buffers if the levels are no more than 66 in a hundred characters of the
    buffer. The buffer alone is no bound: with any buffer and any pool, some sources make
    expressions longer than any number. -/
theorem length_of_expression :
    (∀ (σ : Type) (source : Source σ) (g : Generator) (s s' : σ) (text : String),
      source.IsFair → g.bits = 32 → 0 ≤ g.maxLen →
      g.expression source s = .ok text s' →
      (text.length : Int) + 4 ≤ g.maxLen / 10 + 15 * g.levels
      ∧ (100 * (g.levels : Int) ≤ 66 * g.maxLen → (text.length : Int) < 10 * g.maxLen))
    ∧ ∀ (maxLen : Int) (ops : List BinOp) (bound : Nat), 0 ≤ maxLen → ops ≠ [] →
        ∃ levels draws text stop, (Generator.mk maxLen ops 32 levels).expression
            (.ofSequence draws) 0 = .ok text stop ∧ bound < text.length := by
  constructor
  · intro σ source g s s' text hs hbits hmax h
    have hthreshold : g.threshold = g.maxLen / 10 := Int.fdiv_eq_ediv_of_nonneg _ (by decide)
    have hshort : ((Draft.empty.length : Nat) : Int) ≤ g.threshold := by
      rw [hthreshold]
      exact Int.ediv_nonneg hmax (by decide)
    obtain ⟨d', hextend, hlength⟩ := exists_extend_of_expression h
    have hbound := length_le_of_extend hs hbits hshort hextend
    rw [hlength, hthreshold] at hbound
    exact ⟨hbound, fun hlevels => by omega⟩
  · intro maxLen ops bound hmax hops
    have hbits : 0 ≤ (Generator.mk maxLen ops 32 0).bits := by
      show (0 : Int) ≤ 32
      decide
    obtain ⟨text, htext, hlength⟩ := expression_descent hbits hops hmax (x := 0) (by decide) bound
    have hliteral : ((Generator.mk maxLen ops 32 0).literalText 0).length = 2 := by
      show (toString (0 : Nat) ++ "u").length = 2
      decide
    refine ⟨_, _, text, _, htext, ?_⟩
    have hmany : bound * 2 ≤ bound * (((Generator.mk maxLen ops 32 0).operatorText 0).length + 2) :=
      Nat.mul_le_mul_left bound (Nat.le_add_left 2 _)
    rw [hlength, hliteral]
    omega

/-- Two operators were asked for before the first literal was drafted. -/
theorem length_of_expression_of_chain :
    (Generator.mk 203 [.ne, .div] Width.w32.size 3).expression
        (.ofSequence fun k => [2, 3, 0, 7, 1, 0, 8, 0, 4, 9].getD k 0) 0
      = .ok "7u / 8u != 9u" 10
    ∧ (("7u / 8u != 9u".length : Nat) : Int) + 4 ≤ 203 / 10 + 15 * 3
    ∧ (("7u / 8u != 9u".length : Nat) : Int) < 10 * 203
    ∧ ∃ levels draws text stop, (Generator.mk 4096 [.mod] 32 levels).expression
        (.ofSequence draws) 0 = .ok text stop ∧ 40960 < text.length := by
  have htext : (Generator.mk 203 [.ne, .div] Width.w32.size 3).expression
      (.ofSequence fun k => [2, 3, 0, 7, 1, 0, 8, 0, 4, 9].getD k 0) 0
        = .ok "7u / 8u != 9u" 10 := by rfl
  obtain ⟨hbounded, hunbounded⟩ := length_of_expression
  obtain ⟨hlength, hshorter⟩ := hbounded _ _ _ _ _ _ (Source.isFair_ofSequence _) rfl (by decide)
    htext
  exact ⟨htext, hlength, hshorter (by decide), hunbounded 4096 [.mod] 40960 (by decide) (by decide)⟩

end Generator

end WordExpr
