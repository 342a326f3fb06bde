/-
  WordExpr.Proofs.Folding

  Brackets are transparent and can be folded. A text with a value keeps it in a pair of brackets
  of its own, one level deeper and with two more tokens. And wherever a pair of brackets stands
  in it, what they enclose has a value alone, and a literal of this value can stand in the place
  of the pair (`Setting.brackets_are_transparent_and_foldable`).

  Which brackets pair with each other is nowhere recorded. `Range.BracketPair` says it of the
  tokens, by counting; `Tree.exists_context` finds the pair in the tree of an expression, which
  is then the tree of the pair in a context. What else stands in the text, to its left and to its
  right, belongs to the context, and stays the same when another tree is filled in.
-/
import WordExpr.Proofs.Printing

namespace WordExpr

open Range Lexer

/-! ## Pairs of brackets -/

namespace Range

variable {ts : Array Token} {lo hi i j : Nat}

/-- The brackets at two indices pair with each other: those between them pair among
    themselves. -/
structure BracketPair (ts : Array Token) (i j : Nat) : Prop where
  lt : i < j
  opening : ts[i]?.map Token.kind = some .lparen
  closing : ts[j]?.map Token.kind = some .rparen
  inside : depthAfter 0 (slice ts (i + 1) j) = some 0

instance (ts : Array Token) (i j : Nat) : Decidable (BracketPair ts i j) :=
  decidable_of_iff (i < j ∧ ts[i]?.map Token.kind = some .lparen
      ∧ ts[j]?.map Token.kind = some .rparen ∧ depthAfter 0 (slice ts (i + 1) j) = some 0)
    ⟨fun h => ⟨h.1, h.2.1, h.2.2.1, h.2.2.2⟩, fun h => ⟨h.lt, h.opening, h.closing, h.inside⟩⟩

namespace BracketPair

theorem kind_opening (h : BracketPair ts i j) (hi : i < ts.size) : ts[i].kind = .lparen :=
  (map_kind_eq_some_iff hi).mp h.opening

theorem kind_closing (h : BracketPair ts i j) (hj : j < ts.size) : ts[j].kind = .rparen :=
  (map_kind_eq_some_iff hj).mp h.closing

theorem lt_size (h : BracketPair ts i j) : j < ts.size := by
  obtain ⟨a, ha, -⟩ := Option.map_eq_some_iff.mp h.closing
  exact (Array.getElem?_eq_some_iff.mp ha).1

/-- A bracket that opens in a range that closes all of its brackets is closed there. -/
theorem lt_of_balanced (h : BracketPair ts i j) (hs : hi ≤ ts.size)
    (hbalanced : depthAfter 0 (slice ts lo hi) = some 0) (hlo : lo ≤ i) (hhi : i < hi) :
    j < hi := by
  refine Nat.lt_of_not_le fun hle => ?_
  rw [slice_split hlo hhi hs, depthAfter_append] at hbalanced
  obtain ⟨depth, -, hrest⟩ := Option.bind_eq_some_iff.mp hbalanced
  rw [depthAfter, h.kind_opening (by omega)] at hrest
  have hopened : depthAfter (depth + 1) (slice ts (i + 1) hi) = some 0 := hrest
  -- The bracket is still open where the range ends, because none behind it closes it.
  have hinside := h.inside
  rw [← slice_append (show i + 1 ≤ hi by omega) hle, depthAfter_append] at hinside
  obtain ⟨after, hafter, -⟩ := Option.bind_eq_some_iff.mp hinside
  have hopen := depthAfter_add hafter (depth + 1)
  rw [Nat.zero_add, hopened, Option.some.injEq] at hopen
  omega

/-- A bracket that closes in a range that closes all of its brackets is opened there. -/
theorem le_of_balanced (h : BracketPair ts i j) (hs : hi ≤ ts.size)
    (hbalanced : depthAfter 0 (slice ts lo hi) = some 0) (hlo : lo ≤ j) (hhi : j < hi) :
    lo ≤ i := by
  refine Nat.le_of_not_lt fun hlt => ?_
  rw [slice_split hlo hhi hs, depthAfter_append] at hbalanced
  obtain ⟨depth, hdepth, hrest⟩ := Option.bind_eq_some_iff.mp hbalanced
  rw [depthAfter, h.kind_closing (by omega)] at hrest
  -- As many brackets are open where the range starts as it leaves open before this one: none.
  have hinside := h.inside
  rw [← slice_append (show i + 1 ≤ lo by omega) hlo, depthAfter_append] at hinside
  obtain ⟨before, -, hbefore⟩ := Option.bind_eq_some_iff.mp hinside
  have hadded := depthAfter_add hdepth before
  rw [Nat.zero_add, hbefore, Option.some.injEq] at hadded
  obtain rfl : depth = 0 := by omega
  cases hrest

end BracketPair

end Range

/-! ## Trees in a context -/

namespace Tree

/-- A tree of tokens with a hole in the place of one of its subtrees. -/
inductive Context where
  | hole
  | group (inside : Context)
  | left (op : BinOp) (left : Context) (right : Tree Token)
  | right (op : BinOp) (left : Tree Token) (right : Context)

namespace Context

/-- The tree with a tree in the place of the hole. -/
def fill (t : Tree Token) : Context → Tree Token
  | hole => t
  | group c => .group (fill t c)
  | left op c r => .node op (fill t c) r
  | right op l c => .node op l (fill t c)

/-- The tokens on the left of the hole. -/
def before : Context → List Token
  | hole => []
  | group c => .spelled .lparen :: before c
  | left _ c _ => before c
  | right op l c => l.tokens ++ .spelled (.op op) :: before c

/-- The tokens on the right of the hole. -/
def after : Context → List Token
  | hole => []
  | group c => after c ++ [.spelled .rparen]
  | left op c r => after c ++ .spelled (.op op) :: r.tokens
  | right _ _ c => after c

variable {c : Context} {t u : Tree Token} {w : Width} {known : String → Option Int} {v : Nat}

theorem tokens_fill (c : Context) (t : Tree Token) :
    (c.fill t).tokens = c.before ++ (t.tokens ++ c.after) := by
  induction c with
  | hole => simp [fill, before, after]
  | group c ih => simp [fill, before, after, ih]
  | left op c r ih => simp [fill, before, after, ih]
  | right op l c ih => simp [fill, before, after, ih]

theorem length_tokens_le_fill (c : Context) (t : Tree Token) :
    t.tokens.length ≤ (c.fill t).tokens.length := by
  rw [tokens_fill, List.length_append, List.length_append]
  omega

theorem length_tokens_fill_le (c : Context) (h : u.tokens.length ≤ t.tokens.length) :
    (c.fill u).tokens.length ≤ (c.fill t).tokens.length := by
  rw [tokens_fill, tokens_fill, List.length_append, List.length_append, List.length_append,
    List.length_append]
  omega

theorem isExpression_of_fill (h : (c.fill t).IsExpression) : t.IsExpression := by
  induction c with
  | hole => exact h
  | group c ih => exact ih (isExpression_group.mp h)
  | left op c r ih => exact ih (isExpression_node.mp h).1
  | right op l c ih => exact ih (isExpression_node.mp h).2.1

theorem looseness_fill (c : Context)
    (h : u.looseness BinOp.looseness = t.looseness BinOp.looseness) :
    (c.fill u).looseness BinOp.looseness = (c.fill t).looseness BinOp.looseness := by
  cases c with
  | hole => exact h
  | _ => rfl

/-- A tree that binds as another one does can stand in its place. -/
theorem isExpression_fill (ht : (c.fill t).IsExpression) (hu : u.IsExpression)
    (h : u.looseness BinOp.looseness = t.looseness BinOp.looseness) :
    (c.fill u).IsExpression := by
  induction c with
  | hole => exact hu
  | group c ih => exact isExpression_group.mpr (ih (isExpression_group.mp ht))
  | left op c r ih =>
    obtain ⟨hl, hr, hle, hlt⟩ := isExpression_node.mp ht
    rw [← looseness_fill c h] at hle
    exact isExpression_node.mpr ⟨ih hl, hr, hle, hlt⟩
  | right op l c ih =>
    obtain ⟨hl, hr, hle, hlt⟩ := isExpression_node.mp ht
    rw [← looseness_fill c h] at hlt
    exact isExpression_node.mpr ⟨hl, ih hr, hle, hlt⟩

theorem nesting_le_fill (c : Context) (t : Tree Token) : t.nesting ≤ (c.fill t).nesting := by
  induction c with
  | hole => exact Nat.le_refl _
  | group c ih => exact Nat.le_succ_of_le ih
  | left op c r ih => exact Nat.le_trans ih (Nat.le_max_left _ _)
  | right op l c ih => exact Nat.le_trans (Nat.le_succ_of_le ih) (Nat.le_max_right _ _)

theorem nesting_fill_le (c : Context) (h : u.nesting ≤ t.nesting) :
    (c.fill u).nesting ≤ (c.fill t).nesting := by
  induction c with
  | hole => exact h
  | group c ih => exact Nat.succ_le_succ ih
  | left op c r ih => exact max_le_max_right _ ih
  | right op l c ih => exact max_le_max_left _ (Nat.succ_le_succ ih)

/-- A tree with a meaning has one in the place of each of its subtrees. -/
theorem exists_meaning_of_fill (h : (c.fill t).meaning w known = .ok v) :
    ∃ x, t.meaning w known = .ok x := by
  induction c generalizing v with
  | hole => exact ⟨v, h⟩
  | group c ih => exact ih h
  | left op c r ih =>
    obtain ⟨a, -, ha, -⟩ := exists_meaning_of_node h
    exact ih ha
  | right op l c ih =>
    obtain ⟨-, b, -, hb⟩ := exists_meaning_of_node h
    exact ih hb

/-- Trees of the same meaning have it in every context. -/
theorem meaning_fill (c : Context) (h : u.meaning w known = t.meaning w known) :
    (c.fill u).meaning w known = (c.fill t).meaning w known := by
  induction c with
  | hole => exact h
  | group c ih => exact ih
  | left op c r ih => rw [fill, fill, meaning_node, meaning_node, ih]
  | right op l c ih => rw [fill, fill, meaning_node, meaning_node, ih]

end Context

variable {ts : Array Token} {lo hi i j k : Nat} {t u : Tree Token}

theorem depthAfter_of_holds (h : Holds ts lo hi t) (ht : t.IsExpression) :
    depthAfter 0 (slice ts lo hi) = some 0 := by
  rw [h.tokens]
  exact depthAfter_tokens ht.2 0

/-- A pair of brackets among the tokens of an expression is one of its subtrees. -/
theorem exists_context (h : Holds ts lo hi t) (ht : t.IsExpression) (hp : BracketPair ts i j)
    (hlo : lo ≤ i) (hhi : j < hi) :
    ∃ (c : Context) (g : Tree Token), t = c.fill (.group g) ∧ lo + c.before.length = i
      ∧ Holds ts i (j + 1) (.group g) := by
  have hlt := hp.lt
  induction t generalizing lo hi with
  | leaf a =>
    have hone := h.leaf.1
    omega
  | group t ih =>
    have hin := isExpression_group.mp ht
    obtain ⟨hseveral, -, hinside⟩ := h.group hin
    have hbalanced := depthAfter_of_holds hinside hin
    by_cases hi_lo : i = lo
    · -- The bracket in front is closed by the last one.
      have hj : ¬ j < hi - 1 := fun hj => by
        have := hp.le_of_balanced hinside.fits hbalanced (by omega) hj
        omega
      obtain rfl : hi = j + 1 := by omega
      subst hi_lo
      exact ⟨.hole, t, rfl, rfl, h⟩
    · have hj := hp.lt_of_balanced hinside.fits hbalanced (by omega) (by omega)
      obtain ⟨c, g, rfl, hlen, hg⟩ := ih hinside hin (by omega) hj
      refine ⟨.group c, g, rfl, ?_, hg⟩
      rw [Context.before, List.length_cons]
      omega
  | node op l r ihl ihr =>
    obtain ⟨hl, hr, -, -⟩ := isExpression_node.mp ht
    obtain ⟨hop, hright⟩ := h.operator_right
    by_cases hside : i < lo + l.tokens.length
    · have hj := hp.lt_of_balanced h.left.fits (depthAfter_of_holds h.left hl) hlo hside
      obtain ⟨c, g, rfl, hlen, hg⟩ := ihl h.left hl hlo hj
      exact ⟨.left op c r, g, rfl, hlen, hg⟩
    · -- The pair starts behind the operator, which is no bracket.
      have hne : i ≠ lo + l.tokens.length := by
        rintro rfl
        have hopening := hp.opening
        rw [hop] at hopening
        cases hopening
      obtain ⟨c, g, rfl, hlen, hg⟩ := ihr hright hr (by omega) hhi
      refine ⟨.right op l c, g, rfl, ?_, hg⟩
      rw [Context.before, List.length_append, List.length_cons]
      omega

/-- Filling another tree into a context leaves the tokens on both sides as they are. -/
theorem tokens_refill {c : Context} (h : Holds ts lo hi (c.fill t))
    (hlen : lo + c.before.length = i) (hin : Holds ts i k t) (u : Tree Token) :
    (c.fill u).tokens = slice ts lo i ++ (u.tokens ++ slice ts k hi) := by
  have hhi := h.hi_eq
  have hk := hin.hi_eq
  rw [Context.tokens_fill, List.length_append, List.length_append] at hhi
  have htokens := h.tokens
  rw [← slice_append (show lo ≤ i by omega) (show i ≤ hi by omega),
    ← slice_append (show i ≤ k by omega) (show k ≤ hi by omega), hin.tokens,
    Context.tokens_fill] at htokens
  have hbefore : (slice ts lo i).length = c.before.length := by
    rw [length_slice (Nat.le_trans (by omega) h.fits)]
    omega
  obtain ⟨hleft, hrest⟩ := List.append_inj htokens hbefore
  rw [Context.tokens_fill, hleft, List.append_cancel_left hrest]

end Tree

/-! ## Texts -/

namespace Setting

open EvalM

variable {w : Width} {maxDepth maxTokens : Int} {resolver : Option (String → Option Int)}
  {text : String} {ts : Array Token} {t : Tree Token} {v : Nat}

/-- A text with a value has it in brackets too, with one more level and two more tokens. -/
theorem valueOf_bracketed (h : (stateless w maxDepth resolver).valueOf text maxTokens = .ok v) :
    (stateless w (maxDepth + 1) resolver).valueOf ("(" ++ text ++ ")") (maxTokens + 2)
      = .ok v := by
  obtain ⟨ts, hlex, t, ht, htokens, hdeep, hv⟩ := exists_expression_of_valueOf h
  have hw := writes_of_tokenize hlex
  rw [← htokens] at hw
  have hwrites : Writes ("(" ++ text ++ ")").toList (Tree.group t).tokens := by
    have hopening : Token.Lexable (.spelled .lparen) := .spelled rfl
    have hclosing : Token.Lexable (.spelled .rparen) := .spelled rfl
    have hboth : Writes ('(' :: (text.toList ++ [')'])) (Tree.group t).tokens :=
      Writes.token hopening (hw.append (Writes.of_token hclosing))
    rw [String.toList_append, String.toList_append, List.append_assoc]
    exact hboth
  have hlen : ((Tree.group t).tokens.length : Int) ≤ maxTokens + 2 := by
    have hpos := t.tokens_length_pos
    rw [htokens, Array.length_toList] at hpos
    have hsize := size_le_of_tokenize hlex hpos
    rw [Tree.tokens_group, List.length_cons, List.length_append, List.length_singleton, htokens,
      Array.length_toList]
    omega
  have hbracketed := tokenize_of_writes hwrites (Tree.apart_tokens _) hlen
  have hnesting : ((Tree.group t).nesting : Int) ≤ maxDepth + 1 := by
    rw [Tree.nesting]
    omega
  rw [valueOf_of_tokens hbracketed (Tree.isExpression_group.mpr ht) rfl hnesting,
    Tree.meaning_group, hv]
  rfl

/-- An expression that is printed with spaces has its meaning as its value. -/
theorem valueOf_separated (ht : t.IsExpression) (hlexable : ∀ a ∈ t.tokens, a.Lexable)
    (hlen : (t.tokens.length : Int) ≤ maxTokens) (hdeep : (t.nesting : Int) ≤ maxDepth)
    (hv : t.meaning w (knownBy resolver) = .ok v) :
    (stateless w maxDepth resolver).valueOf (Token.separated t.tokens) maxTokens = .ok v := by
  have hlex := tokenize_separated hlexable maxTokens
  rw [if_pos (.inr hlen)] at hlex
  rw [valueOf_of_tokens hlex ht rfl hdeep, hv]
  rfl

/-- A range that holds an expression with a meaning is evaluated to it. -/
theorem result_evalRange {lo hi : Nat} {state : Session Unit} (hts : ∀ a ∈ ts, a.Lexable)
    (h : Holds ts lo hi t) (ht : t.IsExpression) (hdeep : (t.nesting : Int) ≤ maxDepth)
    (hv : t.meaning w (knownBy resolver) = .ok v) :
    ((stateless w maxDepth resolver).evalRange ts lo hi 0).result state = .ok v := by
  have hyields : ((stateless w maxDepth resolver).evalRange ts lo hi 0).Yields
      (t.meaning w (knownBy resolver)) := by
    rw [evalRange, evalLevels_eq_evalPlain]
    exact yields_evalPlain hts h ht (lt_levels_iff.mpr hdeep)
  rw [hyields.result_eq, hv]
  rfl

/-- Folding a pair of brackets in a text with a value. -/
theorem valueOf_folded (h : (stateless w maxDepth resolver).valueOf text maxTokens = .ok v)
    (hlex : tokenize text maxTokens = .ok ts) {i j : Nat} (hp : BracketPair ts i j) :
    ∃ u, ((stateless w maxDepth resolver).evalRange ts i (j + 1) 0).result (.start ()) = .ok u
      ∧ (stateless w maxDepth resolver).valueOf (Token.separated (slice ts i (j + 1))) maxTokens
        = .ok u
      ∧ (stateless w maxDepth resolver).valueOf (Token.separated
          (slice ts 0 i ++ .decimal u :: slice ts (j + 1) ts.size)) maxTokens = .ok v := by
  obtain ⟨us, hus, t, ht, htokens, hdeep, hv⟩ := exists_expression_of_valueOf h
  obtain rfl := tokenize_unique hlex hus
  have hts := lexable_of_tokenize hlex
  have hholds := Tree.holds_of_tokens_eq htokens
  obtain ⟨c, g, rfl, hlen, hg⟩ := Tree.exists_context hholds ht hp (Nat.zero_le i) hp.lt_size
  -- The pair has a meaning of its own, which is a word.
  obtain ⟨u, hu⟩ := c.exists_meaning_of_fill hv
  have hlt := Tree.meaning_lt hu
  have htg := Tree.Context.isExpression_of_fill ht
  have hnesting : ((Tree.group g).nesting : Int) ≤ maxDepth :=
    Int.le_trans (Int.ofNat_le.mpr (c.nesting_le_fill _)) hdeep
  have hsize : ((c.fill (.group g)).tokens.length : Int) ≤ maxTokens := by
    have hpos := (c.fill (.group g)).tokens_length_pos
    rw [htokens, Array.length_toList] at hpos ⊢
    exact size_le_of_tokenize hlex hpos
  refine ⟨u, result_evalRange hts hg htg hnesting hu, ?_, ?_⟩
  · rw [hg.tokens]
    exact valueOf_separated htg (hg.lexable hts)
      (Int.le_trans (Int.ofNat_le.mpr (c.length_tokens_le_fill _)) hsize) hnesting hu
  · -- The literal is a smaller tree that binds as brackets do and has the same meaning.
    have hleaf : (Tree.leaf (.decimal u)).meaning w (knownBy resolver)
        = (Tree.group g).meaning w (knownBy resolver) := by
      rw [Tree.meaning_leaf, Token.meaning_decimal hlt, hu]
    have hrefill := Tree.tokens_refill hholds hlen hg (.leaf (.decimal u))
    rw [Tree.tokens_leaf, List.singleton_append] at hrefill
    have hfolded := Tree.Context.isExpression_fill ht
      (Tree.isExpression_leaf.mpr (rfl : (Token.decimal u).kind.isOperand = true)) rfl
    have hlexable : ∀ a ∈ (c.fill (.leaf (.decimal u))).tokens, a.Lexable := by
      rw [hrefill, List.forall_mem_append, List.forall_mem_cons]
      exact ⟨fun a ha => hts a (mem_of_mem_slice ha), Token.lexable_decimal_of_lt hlt,
        fun a ha => hts a (mem_of_mem_slice ha)⟩
    have hshorter := c.length_tokens_fill_le (u := .leaf (.decimal u))
      (Tree.tokens_length_pos (.group g))
    have hflatter := c.nesting_fill_le (u := .leaf (.decimal u))
      (Nat.zero_le (Tree.group g).nesting)
    rw [← hrefill]
    exact valueOf_separated hfolded hlexable (Int.le_trans (Int.ofNat_le.mpr hshorter) hsize)
      (Int.le_trans (Int.ofNat_le.mpr hflatter) hdeep) ((c.meaning_fill hleaf).trans hv)

/-- Brackets are transparent and can be folded. If a text has a value, it has the same value in
    brackets, with one more level of nesting and two more tokens. And every pair of brackets among
    its tokens, evaluated alone, has a value; if the decimal literal of that value stands in the
    place of the pair, the tokens, printed with spaces, have the value of the text, under the
    same limits. -/
theorem brackets_are_transparent_and_foldable (w : Width) (maxDepth maxTokens : Int)
    (resolver : Option (String → Option Int)) {text : String} {v : Nat}
    (h : (stateless w maxDepth resolver).valueOf text maxTokens = .ok v) :
    (stateless w (maxDepth + 1) resolver).valueOf ("(" ++ text ++ ")") (maxTokens + 2) = .ok v
    ∧ ∃ ts, tokenize text maxTokens = .ok ts ∧ ∀ i j, BracketPair ts i j →
        ∃ u, ((stateless w maxDepth resolver).evalRange ts i (j + 1) 0).result (.start ()) = .ok u
          ∧ (stateless w maxDepth resolver).valueOf (Token.separated (slice ts i (j + 1)))
              maxTokens = .ok u
          ∧ (stateless w maxDepth resolver).valueOf (Token.separated
              (slice ts 0 i ++ .decimal u :: slice ts (j + 1) ts.size)) maxTokens = .ok v := by
  obtain ⟨ts, hlex, -⟩ := exists_expression_of_valueOf h
  exact ⟨valueOf_bracketed h, ts, hlex, fun i j hp => valueOf_folded h hlex hp⟩

/-- `8/($a-(2))*(3)`, where `$a` is 4, has its value in brackets too. The brackets around `$a-(2)`
    enclose others; alone they have the value 2, and folded they leave `8 / 2 * ( 3 )`. -/
theorem folding_of_nested_brackets :
    let known : String → Option Int := fun name => if name = "a" then some 4 else none
    let s := stateless .w32 4 (some known)
    (stateless .w32 5 (some known)).valueOf "(8/($a-(2))*(3))" 15 = .ok 12
    ∧ s.valueOf "( $a - ( 2 ) )" 13 = .ok 2 ∧ s.valueOf "8 / 2 * ( 3 )" 13 = .ok 12 := by
  intro known s
  have hvalue : s.valueOf "8/($a-(2))*(3)" 13 = .ok 12 := by decide +kernel
  have hlex : tokenize "8/($a-(2))*(3)" 13 = .ok #[⟨.dec, "8"⟩, .spelled (.op .div),
      .spelled .lparen, ⟨.reg, "$a"⟩, .spelled (.op .sub), .spelled .lparen, ⟨.dec, "2"⟩,
      .spelled .rparen, .spelled .rparen, .spelled (.op .mul), .spelled .lparen, ⟨.dec, "3"⟩,
      .spelled .rparen] := by decide +kernel
  obtain ⟨hbracketed, ts, hts, hpairs⟩ :=
    brackets_are_transparent_and_foldable .w32 4 13 (some known) hvalue
  rw [hlex] at hts
  cases hts
  obtain ⟨u, hu, halone, hfolded⟩ := hpairs 2 8 (by decide +kernel)
  have htwo : (s.evalRange #[⟨.dec, "8"⟩, .spelled (.op .div), .spelled .lparen, ⟨.reg, "$a"⟩,
      .spelled (.op .sub), .spelled .lparen, ⟨.dec, "2"⟩, .spelled .rparen, .spelled .rparen,
      .spelled (.op .mul), .spelled .lparen, ⟨.dec, "3"⟩, .spelled .rparen] 2 9 0).result
        (.start ()) = .ok 2 := by decide +kernel
  rw [htwo] at hu
  cases hu
  exact ⟨hbracketed, halone, hfolded⟩

end Setting

end WordExpr
