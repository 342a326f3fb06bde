/-
  WordExpr.Proofs.Slice

  Token ranges as lists. The analyses of a range read an array in place; on a range that
  lies inside the array they touch no index outside it, and each of them is a fold over
  the list of the range's tokens.

  `depthAfter` is the depth of brackets behind a list of tokens, `scanList` the search for
  the main operator in one. Everything that is proved about the shape of ranges is proved
  about these two; `isBracketed_eq_true_iff` and `mainOperator?_eq` carry it over to arrays.
-/
import WordExpr.Range

namespace WordExpr.Range

/-! ## The tokens of a range -/

/-- The kind of the token at an index that lies in the list. -/
theorem map_kind_eq_some_iff {ts : Array Token} {i : Nat} (h : i < ts.size) {kind : TokenKind} :
    ts[i]?.map Token.kind = some kind ↔ ts[i].kind = kind := by
  rw [Array.getElem?_eq_getElem h, Option.map_some, Option.some.injEq]

/-- The tokens of the range `[lo, hi)`. -/
def slice (ts : Array Token) (lo hi : Nat) : List Token := (ts.extract lo hi).toList

theorem slice_eq_take_drop (ts : Array Token) (lo hi : Nat) :
    slice ts lo hi = (ts.toList.drop lo).take (hi - lo) := by
  rw [slice, Array.toList_extract, List.extract_eq_take_drop]

theorem length_slice {ts : Array Token} {lo hi : Nat} (h : hi ≤ ts.size) :
    (slice ts lo hi).length = hi - lo := by
  rw [slice_eq_take_drop, List.length_take, List.length_drop, Array.length_toList]
  omega

theorem mem_of_mem_slice {ts : Array Token} {lo hi : Nat} {a : Token}
    (h : a ∈ slice ts lo hi) : a ∈ ts := by
  rw [slice_eq_take_drop] at h
  exact Array.mem_def.mpr (List.mem_of_mem_drop (List.mem_of_mem_take h))

theorem slice_of_le {ts : Array Token} {lo hi : Nat} (h : hi ≤ lo) : slice ts lo hi = [] := by
  rw [slice_eq_take_drop, Nat.sub_eq_zero_of_le h, List.take_zero]

theorem slice_size (ts : Array Token) : slice ts 0 ts.size = ts.toList := by
  rw [slice, Array.extract_size]

theorem slice_append {ts : Array Token} {lo mid hi : Nat} (h₁ : lo ≤ mid) (h₂ : mid ≤ hi) :
    slice ts lo mid ++ slice ts mid hi = slice ts lo hi := by
  obtain ⟨m, rfl⟩ := Nat.exists_eq_add_of_le h₁
  obtain ⟨n, rfl⟩ := Nat.exists_eq_add_of_le h₂
  simp only [slice_eq_take_drop]
  have h : lo + m + n - lo = m + n := by omega
  rw [Nat.add_sub_cancel_left, Nat.add_sub_cancel_left, h, List.take_add, List.drop_drop]

theorem slice_eq_cons {ts : Array Token} {lo hi : Nat} (h : lo < hi) (hs : hi ≤ ts.size) :
    slice ts lo hi = ts[lo] :: slice ts (lo + 1) hi := by
  have hlt : lo < ts.toList.length := by rw [Array.length_toList]; omega
  have hsub : hi - lo = (hi - (lo + 1)) + 1 := by omega
  rw [slice_eq_take_drop, slice_eq_take_drop, List.drop_eq_getElem_cons hlt, hsub,
    List.take_succ_cons, Array.getElem_toList]

theorem slice_singleton {ts : Array Token} {lo : Nat} (h : lo < ts.size) :
    slice ts lo (lo + 1) = [ts[lo]] := by
  rw [slice_eq_cons (Nat.lt_succ_self lo) h, slice_of_le (Nat.le_refl _)]

/-- A range around an index is what is left of it, the token there, and what is right of it. -/
theorem slice_split {ts : Array Token} {lo i hi : Nat} (h₁ : lo ≤ i) (h₂ : i < hi)
    (hs : hi ≤ ts.size) :
    slice ts lo hi = slice ts lo i ++ ts[i] :: slice ts (i + 1) hi := by
  rw [← slice_append h₁ (Nat.le_of_lt h₂), slice_eq_cons h₂ hs]

/-- A range of several tokens is its first token, the range between, and its last token. -/
theorem slice_ends {ts : Array Token} {lo hi : Nat} (h : lo + 1 < hi) (hs : hi ≤ ts.size) :
    slice ts lo hi = ts[lo] :: (slice ts (lo + 1) (hi - 1) ++ [ts[hi - 1]]) := by
  have hlast : slice ts (hi - 1) hi = [ts[hi - 1]] := by
    have hi_eq : hi - 1 + 1 = hi := by omega
    have hsingle := slice_singleton (show hi - 1 < ts.size by omega)
    rw [hi_eq] at hsingle
    exact hsingle
  rw [slice_eq_cons (by omega) hs, ← hlast, slice_append (by omega) (by omega)]

/-! ## Brackets of a list -/

/-- The number of brackets that are open behind a token, when `depth` of them are open
    before it; none if the token closes a bracket that was not opened. -/
def depthStep (depth : Nat) : TokenKind → Option Nat
  | .lparen => some (depth + 1)
  | .rparen => if depth = 0 then none else some (depth - 1)
  | _ => some depth

/-- One more open bracket before a token is one more behind it. -/
theorem depthStep_succ {depth next : Nat} {kind : TokenKind}
    (h : depthStep depth kind = some next) : depthStep (depth + 1) kind = some (next + 1) := by
  cases kind with
  | rparen =>
    simp only [depthStep] at h ⊢
    split at h
    · exact absurd h (by simp)
    · cases h
      rw [if_neg (by omega), Nat.add_sub_cancel, Nat.sub_add_cancel (by omega)]
  | _ =>
    cases h
    rfl

/-- Only a bracket that closes can close one too many. -/
theorem depthStep_eq_none_iff {depth : Nat} {kind : TokenKind} :
    depthStep depth kind = none ↔ kind = .rparen ∧ depth = 0 := by
  cases kind with
  | rparen => simp [depthStep]
  | _ => simp [depthStep]

theorem depthStep_of_ne {kind : TokenKind} (hopen : kind ≠ .lparen) (hclose : kind ≠ .rparen)
    (depth : Nat) : depthStep depth kind = some depth := by
  cases kind with
  | lparen => exact absurd rfl hopen
  | rparen => exact absurd rfl hclose
  | _ => rfl

theorem depthStep_of_isOperand {kind : TokenKind} (h : kind.isOperand = true) (depth : Nat) :
    depthStep depth kind = some depth := by
  refine depthStep_of_ne ?_ ?_ depth
  · rintro rfl
    cases h
  · rintro rfl
    cases h

/-- The number of brackets that are open behind some tokens, if none closes too many. -/
def depthAfter (depth : Nat) : List Token → Option Nat
  | [] => some depth
  | t :: rest => (depthStep depth t.kind).bind (depthAfter · rest)

theorem depthAfter_append (depth : Nat) (xs ys : List Token) :
    depthAfter depth (xs ++ ys) = (depthAfter depth xs).bind (depthAfter · ys) := by
  induction xs generalizing depth with
  | nil => rfl
  | cons t xs ih =>
    rw [List.cons_append, depthAfter, depthAfter]
    cases depthStep depth t.kind with
    | none => rfl
    | some next => exact ih next

/-- With more brackets open before some tokens, as many more are open behind them. -/
theorem depthAfter_add {depth after : Nat} {xs : List Token}
    (h : depthAfter depth xs = some after) (k : Nat) :
    depthAfter (depth + k) xs = some (after + k) := by
  have hstep {depth next : Nat} {kind : TokenKind} (hstep : depthStep depth kind = some next) :
      depthStep (depth + k) kind = some (next + k) := by
    induction k with
    | zero => exact hstep
    | succ k ih => exact depthStep_succ ih
  induction xs generalizing depth with
  | nil =>
    cases h
    rfl
  | cons t xs ih =>
    obtain ⟨next, hnext, hrest⟩ := Option.bind_eq_some_iff.mp h
    rw [depthAfter, hstep hnext]
    exact ih hrest

/-- One step of the analysis of brackets in an array. -/
theorem closesAll_succ {ts : Array Token} {i n depth : Nat} (h : i < ts.size) :
    closesAll ts i (n + 1) depth
      = match depthStep depth ts[i].kind with
        | none => .ok false
        | some next => closesAll ts (i + 1) n next := by
  rw [closesAll]
  simp only [Array.getElem?_eq_getElem h]
  cases ts[i].kind with
  -- Only a closing bracket looks at the depth.
  | rparen => cases depth <;> rfl
  | _ => rfl

/-- The analysis of brackets on a range that lies inside the array. -/
theorem closesAll_eq {ts : Array Token} {i n depth : Nat} (h : i + n ≤ ts.size) :
    closesAll ts i n depth = .ok (depthAfter depth (slice ts i (i + n)) == some 0) := by
  induction n generalizing i depth with
  | zero =>
    rw [slice_of_le (by omega), closesAll, depthAfter]
    rfl
  | succ n ih =>
    have hi : i < ts.size := by omega
    have hsum : i + 1 + n = i + (n + 1) := by omega
    rw [slice_eq_cons (by omega) h, closesAll_succ hi, depthAfter]
    cases depthStep depth ts[i].kind with
    | none => rfl
    | some next =>
      rw [← hsum]
      exact ih (by omega)

/-- The test for one pair of brackets touches no token outside a range of several tokens. -/
theorem isBracketed_eq {ts : Array Token} {lo hi : Nat} (h : lo + 1 < hi) (hs : hi ≤ ts.size) :
    isBracketed ts lo hi = .ok (ts[lo].kind == .lparen && ts[hi - 1].kind == .rparen
      && depthAfter 0 (slice ts (lo + 1) (hi - 1)) == some 0) := by
  have hinner : lo + 1 + (hi - 1 - (lo + 1)) = hi - 1 := by omega
  have hfirst : lo < ts.size := by omega
  have hlast : hi - 1 < ts.size := by omega
  simp only [isBracketed, Array.getElem?_eq_getElem hfirst, Array.getElem?_eq_getElem hlast]
  by_cases hopen : ts[lo].kind = .lparen
  · by_cases hclose : ts[hi - 1].kind = .rparen
    · rw [if_neg (not_not_intro hopen), if_neg (not_not_intro hclose),
        closesAll_eq (by omega), hinner, hopen, hclose]
      rfl
    · rw [if_neg (not_not_intro hopen), if_pos hclose, beq_eq_false_iff_ne.mpr hclose,
        Bool.and_false, Bool.false_and]
  · rw [if_pos hopen, beq_eq_false_iff_ne.mpr hopen, Bool.false_and, Bool.false_and]

theorem isBracketed_eq_true_iff {ts : Array Token} {lo hi : Nat} (h : lo + 1 < hi)
    (hs : hi ≤ ts.size) :
    isBracketed ts lo hi = .ok true ↔ ts[lo].kind = .lparen ∧ ts[hi - 1].kind = .rparen
      ∧ depthAfter 0 (slice ts (lo + 1) (hi - 1)) = some 0 := by
  rw [isBracketed_eq h hs, Except.ok.injEq, Bool.and_eq_true, Bool.and_eq_true, beq_iff_eq,
    beq_iff_eq, beq_iff_eq, and_assoc]

theorem isBracketed_eq_false {ts : Array Token} {lo hi : Nat} (h : lo + 1 < hi)
    (hs : hi ≤ ts.size) (hne : isBracketed ts lo hi ≠ .ok true) :
    isBracketed ts lo hi = .ok false := by
  rw [isBracketed_eq h hs] at hne ⊢
  rw [Except.ok.injEq, Bool.eq_false_iff]
  exact fun htrue => hne (congrArg Except.ok htrue)

/-! ## Operators of a list -/

/-- The best candidate behind a token with index `i`, when `depth` brackets are open. -/
def bestStep (i depth : Nat) (best : Option Candidate) : TokenKind → Option Candidate
  | .op o => if depth = 0 then Candidate.later best ⟨i, o.looseness⟩ else best
  | _ => best

theorem bestStep_of_isOperand {kind : TokenKind} (h : kind.isOperand = true) (i depth : Nat)
    (best : Option Candidate) : bestStep i depth best kind = best := by
  cases kind with
  | op o => exact absurd h (by simp [TokenKind.isOperand])
  | _ => rfl

/-- The search for the main operator in a list of tokens, the first of which has index
    `i`, when `depth` brackets are open before them and `best` is the best candidate. -/
def scanList (i depth : Nat) (best : Option Candidate) : List Token → Option Candidate
  | [] => best
  | t :: rest =>
    (depthStep depth t.kind).bind
      (scanList (i + 1) · (bestStep i depth best t.kind) rest)

/-- One step of the search for operators in an array. -/
theorem scanOperators_succ {ts : Array Token} {i n depth : Nat} {best : Option Candidate}
    (h : i < ts.size) :
    scanOperators ts i (n + 1) depth best
      = match depthStep depth ts[i].kind with
        | none => .ok none
        | some next => scanOperators ts (i + 1) n next (bestStep i depth best ts[i].kind) := by
  rw [scanOperators]
  simp only [Array.getElem?_eq_getElem h]
  cases ts[i].kind with
  | rparen => cases depth <;> rfl
  | op o => cases depth <;> rfl
  | _ => rfl

/-- The search for operators on a range that lies inside the array. -/
theorem scanOperators_eq {ts : Array Token} {i n depth : Nat} {best : Option Candidate}
    (h : i + n ≤ ts.size) :
    scanOperators ts i n depth best = .ok (scanList i depth best (slice ts i (i + n))) := by
  induction n generalizing i depth best with
  | zero =>
    rw [slice_of_le (by omega), scanOperators, scanList]
  | succ n ih =>
    have hi : i < ts.size := by omega
    have hsum : i + 1 + n = i + (n + 1) := by omega
    rw [slice_eq_cons (by omega) h, scanOperators_succ hi, scanList]
    cases depthStep depth ts[i].kind with
    | none => rfl
    | some next =>
      show scanOperators ts (i + 1) n next _ = _
      rw [ih (by omega), hsum]
      rfl

/-- The search for the main operator touches no token outside the range. -/
theorem mainOperator?_eq {ts : Array Token} {lo hi : Nat} (h : lo ≤ hi) (hs : hi ≤ ts.size) :
    mainOperator? ts lo hi = .ok ((scanList lo 0 none (slice ts lo hi)).map Candidate.index) := by
  have hsum : lo + (hi - lo) = hi := by omega
  rw [mainOperator?, scanOperators_eq (by omega), hsum]
  rfl

/-- A bracket that closes too many ends the search without a result. -/
theorem scanList_eq_none {xs : List Token} {i depth : Nat} {best : Option Candidate}
    (h : depthAfter depth xs = none) : scanList i depth best xs = none := by
  induction xs generalizing i depth best with
  | nil => cases h
  | cons t xs ih =>
    rw [depthAfter] at h
    rw [scanList]
    cases hstep : depthStep depth t.kind with
    | none => rfl
    | some next =>
      rw [hstep] at h
      exact ih h

/-- Nothing inside brackets is a candidate: behind tokens that close none of the brackets
    before them, the search goes on with the best candidate that it had. -/
theorem scanList_append_of_depthAfter {xs ys : List Token} {i depth after : Nat}
    {best : Option Candidate} (h : depthAfter depth xs = some after) :
    scanList i (depth + 1) best (xs ++ ys) = scanList (i + xs.length) (after + 1) best ys := by
  induction xs generalizing i depth with
  | nil =>
    cases h
    rfl
  | cons t xs ih =>
    obtain ⟨next, hstep, hrest⟩ := Option.bind_eq_some_iff.mp h
    have hindex : i + (t :: xs).length = i + 1 + xs.length := by
      rw [List.length_cons]; omega
    -- With a bracket open, no operator counts.
    have hbest : bestStep i (depth + 1) best t.kind = best := by
      cases t.kind <;> rfl
    rw [List.cons_append, scanList, depthStep_succ hstep, hbest, hindex]
    exact ih hrest

end WordExpr.Range
