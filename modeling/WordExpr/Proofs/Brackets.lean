/-
  WordExpr.Proofs.Brackets

  Matching brackets, said without the depth that the analyses of a range keep. Tokens are
  balanced by a grammar (`Token.Balanced`), and brackets at two indices match if the tokens
  between them are balanced (`Range.Matched`).

  The depth behind some tokens is what their brackets amount to: it is undefined exactly if the
  first of them, up to some place, close more brackets than they open
  (`Range.depthAfter_eq_none_iff`), and it comes back to zero exactly behind balanced tokens
  (`Token.balanced_iff`). Those are the ranges in which every bracket is matched
  (`Range.balanced_slice_iff`).
-/
import WordExpr.Proofs.Folding
import WordExpr.Proofs.Trace

namespace WordExpr

open Range

/-! ## Balanced tokens -/

namespace Token

/-- The brackets among the tokens pair with each other. -/
inductive Balanced : List Token → Prop
  | nil : Balanced []
  | cons {t : Token} {ts : List Token} : t.kind ≠ .lparen → t.kind ≠ .rparen → Balanced ts →
      Balanced (t :: ts)
  | pair {opening closing : Token} {inside after : List Token} : opening.kind = .lparen →
      closing.kind = .rparen → Balanced inside → Balanced after →
      Balanced (opening :: (inside ++ closing :: after))

/-- The tokens close `n` brackets that are open before them, and all that they open. -/
def Completes : Nat → List Token → Prop
  | 0, ts => Balanced ts
  | n + 1, ts => ∃ inside closing after, ts = inside ++ closing :: after ∧ Balanced inside
      ∧ closing.kind = .rparen ∧ Completes n after

variable {t : Token} {ts : List Token} {n : Nat}

theorem Completes.cons (hopen : t.kind ≠ .lparen) (hclose : t.kind ≠ .rparen)
    (h : Completes n ts) : Completes n (t :: ts) := by
  cases n with
  | zero => exact Balanced.cons hopen hclose h
  | succ n =>
    obtain ⟨inside, closing, after, rfl, hinside, hclosing, hafter⟩ := h
    exact ⟨t :: inside, closing, after, rfl, hinside.cons hopen hclose, hclosing, hafter⟩

/-- An opening bracket is paired with the first of the brackets that are closed. -/
theorem Completes.opening (hopen : t.kind = .lparen) (h : Completes (n + 1) ts) :
    Completes n (t :: ts) := by
  obtain ⟨inside, closing, after, rfl, hinside, hclosing, hafter⟩ := h
  cases n with
  | zero => exact Balanced.pair hopen hclosing hinside hafter
  | succ n =>
    obtain ⟨inside', closing', after', rfl, hinside', hclosing', hafter'⟩ := hafter
    refine ⟨t :: (inside ++ closing :: inside'), closing', after', ?_,
      .pair hopen hclosing hinside hinside', hclosing', hafter'⟩
    rw [List.cons_append, List.append_assoc, List.cons_append]

theorem completes_of_depthAfter (h : depthAfter n ts = some 0) : Completes n ts := by
  induction ts generalizing n with
  | nil =>
    cases h
    exact Balanced.nil
  | cons t ts ih =>
    obtain ⟨next, hstep, hrest⟩ := Option.bind_eq_some_iff.mp h
    by_cases hopen : t.kind = .lparen
    · rw [hopen] at hstep
      cases hstep
      exact (ih hrest).opening hopen
    by_cases hclose : t.kind = .rparen
    · rw [hclose] at hstep
      cases n with
      | zero => cases hstep
      | succ n =>
        cases hstep
        exact ⟨[], t, ts, rfl, .nil, hclose, ih hrest⟩
    · rw [depthStep_of_ne hopen hclose] at hstep
      cases hstep
      exact (ih hrest).cons hopen hclose

/-- Tokens are balanced if no bracket is open behind them, and none of them closes too many. -/
theorem balanced_iff : Balanced ts ↔ depthAfter 0 ts = some 0 := by
  refine ⟨fun h => ?_, completes_of_depthAfter⟩
  induction h with
  | nil => rfl
  | cons hopen hclose _ ih =>
    rw [depthAfter, depthStep_of_ne hopen hclose]
    exact ih
  | @pair opening closing inside after hopen hclose _ _ ihinside ihafter =>
    have hinside : depthAfter 1 (inside ++ closing :: after) = some 0 := by
      rw [depthAfter_append, depthAfter_add ihinside 1, Option.bind_some, depthAfter, hclose]
      exact ihafter
    rw [depthAfter, hopen]
    exact hinside

instance (ts : List Token) : Decidable (Balanced ts) := decidable_of_iff _ balanced_iff.symm

/-! ## Counting brackets -/

/-- How many brackets some tokens open. -/
def opened (ts : List Token) : Nat := ts.countP (fun t => t.kind = .lparen)

/-- How many brackets some tokens close. -/
def closed (ts : List Token) : Nat := ts.countP (fun t => t.kind = .rparen)

/-- The first of the tokens, up to some place, close more brackets than they open. -/
def Overcloses (ts : List Token) : Prop :=
  ∃ first, first <+: ts ∧ opened first < closed first

end Token

namespace Range

open Token

variable {t : Token} {xs first : List Token} {depth next after : Nat}

theorem opened_append (xs ys : List Token) : opened (xs ++ ys) = opened xs + opened ys :=
  List.countP_append

theorem closed_append (xs ys : List Token) : closed (xs ++ ys) = closed xs + closed ys :=
  List.countP_append

/-- Behind some tokens as many brackets are open as were open before or opened, and not closed. -/
theorem add_opened_of_depthAfter (h : depthAfter depth xs = some after) :
    depth + opened xs = after + closed xs :=
  countP_brackets h

/-- There is no depth behind tokens of which the first close more brackets than they open and
    than were open before. -/
theorem depthAfter_eq_none_iff :
    depthAfter depth xs = none ↔ ∃ first, first <+: xs ∧ depth + opened first < closed first := by
  induction xs generalizing depth with
  | nil =>
    simp only [List.prefix_nil, exists_eq_left]
    exact ⟨fun h => (by cases h), fun h => absurd h (Nat.not_lt_zero _)⟩
  | cons t xs ih =>
    rw [depthAfter]
    cases hstep : depthStep depth t.kind with
    | none =>
      obtain ⟨hclose, rfl⟩ := depthStep_eq_none_iff.mp hstep
      refine ⟨fun _ => ⟨[t], ?_, ?_⟩, fun _ => rfl⟩
      · exact List.cons_prefix_cons.mpr ⟨rfl, List.nil_prefix⟩
      · simp [opened, closed, hclose]
    | some next =>
      have htoken : depth + opened [t] = next + closed [t] :=
        add_opened_of_depthAfter (by rw [depthAfter, hstep]; rfl)
      rw [Option.bind_some, ih]
      constructor
      · rintro ⟨first, hfirst, hlt⟩
        refine ⟨[t] ++ first, List.cons_prefix_cons.mpr ⟨rfl, hfirst⟩, ?_⟩
        rw [opened_append, closed_append]
        omega
      · rintro ⟨first, hfirst, hlt⟩
        -- No bracket is closed before the first token.
        rcases List.prefix_cons_iff.mp hfirst with rfl | ⟨rest, rfl, hrest⟩
        · exact absurd hlt (Nat.not_lt_zero _)
        · refine ⟨rest, hrest, ?_⟩
          rw [← List.singleton_append, opened_append, closed_append] at hlt
          omega

theorem depthAfter_zero_eq_none_iff : depthAfter 0 xs = none ↔ Overcloses xs := by
  rw [depthAfter_eq_none_iff, Overcloses]
  simp only [Nat.zero_add]

/-- Tokens of which the first never close more brackets than they open have a depth behind them,
    which is what they open and do not close. -/
theorem exists_depthAfter (h : ¬ Overcloses xs) :
    ∃ after, depthAfter 0 xs = some after ∧ opened xs = after + closed xs := by
  rw [← depthAfter_zero_eq_none_iff, ← ne_eq, Option.ne_none_iff_exists'] at h
  obtain ⟨after, hafter⟩ := h
  have hcount := add_opened_of_depthAfter hafter
  exact ⟨after, hafter, by omega⟩

end Range

namespace Token

variable {ts us : List Token}

theorem Overcloses.append (h : Overcloses ts) : Overcloses (ts ++ us) := by
  obtain ⟨first, hfirst, hlt⟩ := h
  exact ⟨first, hfirst.trans (List.prefix_append ts us), hlt⟩

/-- Balanced tokens close exactly the brackets that they open, each of them behind the one that
    it closes. -/
theorem balanced_iff_counts : Balanced ts ↔ ¬ Overcloses ts ∧ opened ts = closed ts := by
  rw [balanced_iff]
  constructor
  · intro h
    have hcount := add_opened_of_depthAfter h
    rw [← depthAfter_zero_eq_none_iff, h]
    exact ⟨by simp, by omega⟩
  · rintro ⟨hfirst, hcount⟩
    obtain ⟨after, hafter, hopened⟩ := exists_depthAfter hfirst
    obtain rfl : after = 0 := by omega
    exact hafter

end Token

/-! ## Matching brackets -/

namespace Range

open Token

variable {ts : Array Token} {lo hi i j k : Nat}

/-- The brackets at two indices match: the tokens between them are balanced. -/
structure Matched (ts : Array Token) (i j : Nat) : Prop where
  lt : i < j
  opening : ts[i]?.map Token.kind = some .lparen
  closing : ts[j]?.map Token.kind = some .rparen
  inside : Balanced (slice ts (i + 1) j)

/-- The token at an index is a bracket. -/
def BracketAt (ts : Array Token) (i : Nat) : Prop :=
  ts[i]?.map Token.kind = some .lparen ∨ ts[i]?.map Token.kind = some .rparen

/-- A bracket in the range `[lo, hi)` matches the one at the index. -/
def MatchedWithin (ts : Array Token) (lo hi i : Nat) : Prop :=
  ∃ j, lo ≤ j ∧ j < hi ∧ (Matched ts i j ∨ Matched ts j i)

theorem matched_iff_bracketPair : Matched ts i j ↔ BracketPair ts i j :=
  ⟨fun h => ⟨h.lt, h.opening, h.closing, balanced_iff.mp h.inside⟩,
    fun h => ⟨h.lt, h.opening, h.closing, balanced_iff.mpr h.inside⟩⟩

theorem bracketAt_iff (h : i < ts.size) :
    BracketAt ts i ↔ ts[i].kind = .lparen ∨ ts[i].kind = .rparen := by
  rw [BracketAt, map_kind_eq_some_iff h, map_kind_eq_some_iff h]

/-- Only brackets match. -/
theorem bracketAt_of_matched (h : Matched ts i j ∨ Matched ts j i) : BracketAt ts j :=
  h.elim (fun hp => .inr hp.closing) fun hp => .inl hp.opening

theorem MatchedWithin.mono {lo' hi' : Nat} (h : MatchedWithin ts lo hi i) (hlo : lo' ≤ lo)
    (hhi : hi ≤ hi') : MatchedWithin ts lo' hi' i := by
  obtain ⟨j, hj, hj', hmatched⟩ := h
  exact ⟨j, by omega, by omega, hmatched⟩

/-- A range that starts with a pair of brackets, taken apart. -/
theorem exists_of_slice_eq_pair {opening closing : Token} {inside after : List Token}
    (hs : hi ≤ ts.size) (h : slice ts lo hi = opening :: (inside ++ closing :: after)) :
    ∃ mid, lo < mid ∧ mid < hi ∧ ts[lo]? = some opening ∧ ts[mid]? = some closing
      ∧ slice ts (lo + 1) mid = inside ∧ slice ts (mid + 1) hi = after := by
  have hlen : (slice ts lo hi).length = hi - lo := length_slice hs
  rw [h, List.length_cons, List.length_append, List.length_cons] at hlen
  obtain ⟨mid, hmid⟩ : ∃ mid, mid = lo + 1 + inside.length := ⟨_, rfl⟩
  rw [slice_eq_cons (by omega) hs, List.cons.injEq,
    slice_split (show lo + 1 ≤ mid by omega) (show mid < hi by omega) hs] at h
  obtain ⟨hfirst, hrest⟩ := h
  have hinside : (slice ts (lo + 1) mid).length = inside.length := by
    rw [length_slice (by omega)]
    omega
  obtain ⟨htokens, hrest⟩ := List.append_inj hrest hinside
  obtain ⟨hlast, hbehind⟩ := List.cons.inj hrest
  refine ⟨mid, by omega, by omega, ?_, ?_, htokens, hbehind⟩
  · rw [Array.getElem?_eq_getElem (by omega), hfirst]
  · rw [Array.getElem?_eq_getElem (by omega), hlast]

/-- Every bracket among balanced tokens is matched by one of them. -/
theorem matchedWithin_of_balanced (hs : hi ≤ ts.size) (h : Balanced (slice ts lo hi))
    (hlo : lo ≤ k) (hhi : k < hi) (hk : BracketAt ts k) : MatchedWithin ts lo hi k := by
  generalize hxs : slice ts lo hi = xs at h
  induction h generalizing lo hi with
  | nil =>
    have hlen : (slice ts lo hi).length = hi - lo := length_slice hs
    rw [hxs, List.length_nil] at hlen
    omega
  | @cons t xs hopen hclose _ ih =>
    rw [slice_eq_cons (by omega) hs, List.cons.injEq] at hxs
    obtain ⟨rfl, htail⟩ := hxs
    have hne : lo ≠ k := by
      rintro rfl
      exact ((bracketAt_iff (by omega)).mp hk).elim hopen hclose
    exact (ih hs (by omega) hhi htail).mono (Nat.le_succ lo) (Nat.le_refl hi)
  | pair hopen hclose hinside _ ihinside ihafter =>
    obtain ⟨mid, hlt, hlt', hfirst, hlast, rfl, hbehind⟩ := exists_of_slice_eq_pair hs hxs
    have hpair : Matched ts lo mid := by
      refine ⟨hlt, ?_, ?_, hinside⟩
      · rw [hfirst, Option.map_some, hopen]
      · rw [hlast, Option.map_some, hclose]
    rcases Nat.lt_trichotomy k mid with hinner | rfl | houter
    · rcases Nat.eq_or_lt_of_le hlo with rfl | hafter
      · exact ⟨mid, Nat.le_of_lt hlt, hlt', .inl hpair⟩
      · exact (ihinside (by omega) hafter hinner rfl).mono (Nat.le_succ lo) (Nat.le_of_lt hlt')
    · exact ⟨lo, Nat.le_refl lo, by omega, .inr hpair⟩
    · exact (ihafter hs houter hhi hbehind).mono (by omega) (Nat.le_refl hi)

/-- Pairs of matching brackets do not cross: what matches a bracket behind a pair stands behind
    the pair, or in front of it. -/
theorem Matched.lt_of_behind (hp : Matched ts i j) (hk : j < k) {l : Nat} (hl : i ≤ l)
    (h : Matched ts k l ∨ Matched ts l k) : j < l := by
  rcases h with h | h
  · exact Nat.lt_trans hk h.lt
  have hpair := matched_iff_bracketPair.mp hp
  have hpair' := matched_iff_bracketPair.mp h
  refine Nat.lt_of_not_le fun hle => ?_
  rcases Nat.eq_or_lt_of_le hle with rfl | hlt
  · have hkind := h.opening
    rw [hp.closing] at hkind
    cases hkind
  rcases Nat.eq_or_lt_of_le hl with rfl | hlt'
  · -- Between a bracket and one behind its match stands one that closes too many.
    have := hpair.le_of_balanced (Nat.le_of_lt hpair'.lt_size) hpair'.inside hp.lt hk
    omega
  · have := hpair'.lt_of_balanced (Nat.le_of_lt hpair.lt_size) hpair.inside hlt' hlt
    omega

/-- Tokens are balanced if every bracket among them is matched by one of them. -/
theorem balanced_of_matchedWithin (hs : hi ≤ ts.size)
    (h : ∀ k, lo ≤ k → k < hi → BracketAt ts k → MatchedWithin ts lo hi k) :
    Balanced (slice ts lo hi) := by
  induction hlen : hi - lo using Nat.strongRecOn generalizing lo with
  | ind n ih =>
    by_cases hempty : hi ≤ lo
    · rw [slice_of_le hempty]
      exact .nil
    have hlt : lo < ts.size := by omega
    by_cases hopen : ts[lo].kind = .lparen
    · obtain ⟨j, hj, hj', hmatched⟩ :=
        h lo (Nat.le_refl lo) (by omega) ((bracketAt_iff hlt).mpr (.inl hopen))
      have hp : Matched ts lo j := hmatched.resolve_right fun hp => Nat.not_lt.mpr hj hp.lt
      have hclose := (map_kind_eq_some_iff (by omega)).mp hp.closing
      have hafter : Balanced (slice ts (j + 1) hi) := by
        refine ih (hi - (j + 1)) (by omega) (fun k hk hk' hbracket => ?_) rfl
        obtain ⟨l, hl, hl', hkl⟩ := h k (by omega) hk' hbracket
        exact ⟨l, hp.lt_of_behind hk hl hkl, hl', hkl⟩
      rw [slice_eq_cons (by omega) hs, slice_split hp.lt hj' hs]
      exact .pair hopen hclose hp.inside hafter
    by_cases hclose : ts[lo].kind = .rparen
    · -- A bracket that closes cannot be the first.
      obtain ⟨j, hj, -, hmatched⟩ :=
        h lo (Nat.le_refl lo) (by omega) ((bracketAt_iff hlt).mpr (.inr hclose))
      rcases hmatched with hp | hp
      · exact absurd ((map_kind_eq_some_iff hlt).mp hp.opening) hopen
      · exact absurd hp.lt (Nat.not_lt.mpr hj)
    · have hafter : Balanced (slice ts (lo + 1) hi) := by
        refine ih (hi - (lo + 1)) (by omega) (fun k hk hk' hbracket => ?_) rfl
        obtain ⟨l, hl, hl', hkl⟩ := h k (by omega) hk' hbracket
        have hne : lo ≠ l := by
          rintro rfl
          exact ((bracketAt_iff hlt).mp (bracketAt_of_matched hkl)).elim hopen hclose
        exact ⟨l, by omega, hl', hkl⟩
      rw [slice_eq_cons (by omega) hs]
      exact .cons hopen hclose hafter

/-- The brackets of a range pair with each other exactly if each of them is matched by a bracket
    of the range. -/
theorem balanced_slice_iff (hs : hi ≤ ts.size) :
    Balanced (slice ts lo hi)
      ↔ ∀ k, lo ≤ k → k < hi → BracketAt ts k → MatchedWithin ts lo hi k :=
  ⟨fun h _ hlo hhi hk => matchedWithin_of_balanced hs h hlo hhi hk, balanced_of_matchedWithin hs⟩

/-- Brackets match exactly if every bracket between them is matched between them. -/
theorem matched_iff_inside (hlt : i < j) (hj : j < ts.size) :
    Matched ts i j ↔ ts[i]?.map Token.kind = some .lparen ∧ ts[j]?.map Token.kind = some .rparen
      ∧ ∀ k, i < k → k < j → BracketAt ts k → MatchedWithin ts (i + 1) j k := by
  have hinside : Balanced (slice ts (i + 1) j)
      ↔ ∀ k, i < k → k < j → BracketAt ts k → MatchedWithin ts (i + 1) j k :=
    balanced_slice_iff (Nat.le_of_lt hj)
  exact ⟨fun h => ⟨h.opening, h.closing, hinside.mp h.inside⟩,
    fun ⟨hopen, hclose, h⟩ => ⟨hlt, hopen, hclose, hinside.mpr h⟩⟩

/-! ## The test for one pair of brackets -/

/-- A range is found to be one pair of brackets exactly if its first and its last token match. -/
theorem isBracketed_eq_true_iff_matched (hseveral : lo + 1 < hi) (hs : hi ≤ ts.size) :
    isBracketed ts lo hi = .ok true ↔ Matched ts lo (hi - 1) := by
  rw [isBracketed_eq_true_iff hseveral hs, ← balanced_iff]
  constructor
  · rintro ⟨hopen, hclose, hinside⟩
    exact ⟨by omega, (map_kind_eq_some_iff (by omega)).mpr hopen,
      (map_kind_eq_some_iff (by omega)).mpr hclose, hinside⟩
  · rintro ⟨-, hopen, hclose, hinside⟩
    exact ⟨(map_kind_eq_some_iff (by omega)).mp hopen,
      (map_kind_eq_some_iff (by omega)).mp hclose, hinside⟩

/-- The test always comes to an answer. -/
theorem isBracketed_eq_false_iff (hseveral : lo + 1 < hi) (hs : hi ≤ ts.size) :
    isBracketed ts lo hi = .ok false ↔ ¬ Matched ts lo (hi - 1) := by
  rw [← isBracketed_eq_true_iff_matched hseveral hs]
  constructor
  · intro h
    rw [h]
    simp
  · exact isBracketed_eq_false hseveral hs

end Range

end WordExpr
