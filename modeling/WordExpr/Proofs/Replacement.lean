/-
  WordExpr.Proofs.Replacement

  Only the shape of a text and the values of its operands matter. If every register is replaced
  by the decimal digits of its word and every literal by another one of the same word, the new
  text has the same value without a resolver; and if the text fails, the new one fails in the
  same way (`Setting.valueOf_of_replaced`). The text need not be well-formed.

  The analyses of a range look at operands only to pass over them, so that both evaluations take
  the same ranges apart (`Range.isBracketed_congr`, `Range.mainOperator?_congr`). They run side
  by side, and `EvalM.SameOutcome` is what they keep.
-/
import WordExpr.Proofs.Printing
import WordExpr.Proofs.Safety

namespace WordExpr

open Range Lexer

/-! ## The shape of tokens -/

/-- The tokens are operands both, or one and the same operator or bracket. -/
def Token.SameShape (a b : Token) : Prop :=
  a = b ∨ a.kind.isOperand = true ∧ b.kind.isOperand = true

open Token (SameShape)

namespace Token.SameShape

variable {a b : Token}

theorem kind_beq (h : SameShape a b) {k : TokenKind} (hk : k.isOperand = false) :
    (a.kind == k) = (b.kind == k) := by
  have hne {c : Token} (hc : c.kind.isOperand = true) : (c.kind == k) = false := by
    refine beq_eq_false_iff_ne.mpr fun heq => ?_
    rw [heq, hk] at hc
    cases hc
  rcases h with rfl | ⟨ha, hb⟩
  · rfl
  · rw [hne ha, hne hb]

theorem eq_of_not_isOperand (h : SameShape a b) (ha : a.kind.isOperand = false) : a = b := by
  rcases h with rfl | ⟨hop, -⟩
  · rfl
  · rw [ha] at hop
    cases hop

theorem depthStep (h : SameShape a b) (depth : Nat) :
    Range.depthStep depth a.kind = Range.depthStep depth b.kind := by
  rcases h with rfl | ⟨ha, hb⟩
  · rfl
  · rw [depthStep_of_isOperand ha, depthStep_of_isOperand hb]

theorem bestStep (h : SameShape a b) (i depth : Nat) (best : Option Candidate) :
    Range.bestStep i depth best a.kind = Range.bestStep i depth best b.kind := by
  rcases h with rfl | ⟨ha, hb⟩
  · rfl
  · rw [bestStep_of_isOperand ha, bestStep_of_isOperand hb]

end Token.SameShape

namespace Range

variable {xs ys : List Token} {ts us : Array Token} {lo hi i : Nat}

theorem depthAfter_congr (h : List.Forall₂ SameShape xs ys) (depth : Nat) :
    depthAfter depth xs = depthAfter depth ys := by
  induction h generalizing depth with
  | nil => rfl
  | cons hab _ ih =>
    rw [depthAfter, depthAfter, hab.depthStep]
    exact congrArg _ (funext fun next => ih next)

theorem scanList_congr (h : List.Forall₂ SameShape xs ys) (i depth : Nat)
    (best : Option Candidate) : scanList i depth best xs = scanList i depth best ys := by
  induction h generalizing i depth best with
  | nil => rfl
  | cons hab _ ih =>
    rw [scanList, scanList, hab.depthStep, hab.bestStep]
    exact congrArg _ (funext fun next => ih (i + 1) next _)

theorem getElem_of_forall₂ {R : Token → Token → Prop} (h : List.Forall₂ R ts.toList us.toList)
    (hi : i < ts.size) (hi' : i < us.size) : R ts[i] us[i] := h.get hi hi'

theorem slice_of_forall₂ {R : Token → Token → Prop} (h : List.Forall₂ R ts.toList us.toList)
    (lo hi : Nat) : List.Forall₂ R (slice ts lo hi) (slice us lo hi) := by
  rw [slice_eq_take_drop, slice_eq_take_drop]
  exact List.forall₂_take _ (List.forall₂_drop _ h)

/-- Lists of the same shape have the same pairs of brackets. -/
theorem isBracketed_congr (h : List.Forall₂ SameShape ts.toList us.toList)
    (hseveral : lo + 1 < hi) (hs : hi ≤ ts.size) :
    isBracketed ts lo hi = isBracketed us lo hi := by
  have hs' : hi ≤ us.size := Nat.le_trans hs h.length_eq.le
  have hfirst := getElem_of_forall₂ h (show lo < ts.size by omega) (by omega)
  have hlast := getElem_of_forall₂ h (show hi - 1 < ts.size by omega) (by omega)
  rw [isBracketed_eq hseveral hs, isBracketed_eq hseveral hs', hfirst.kind_beq rfl,
    hlast.kind_beq rfl, depthAfter_congr (slice_of_forall₂ h _ _)]

/-- Lists of the same shape have the same main operators. -/
theorem mainOperator?_congr (h : List.Forall₂ SameShape ts.toList us.toList) (hle : lo ≤ hi)
    (hs : hi ≤ ts.size) : mainOperator? ts lo hi = mainOperator? us lo hi := by
  have hs' : hi ≤ us.size := Nat.le_trans hs h.length_eq.le
  rw [mainOperator?_eq hle hs, mainOperator?_eq hle hs',
    scanList_congr (slice_of_forall₂ h _ _)]

end Range

/-! ## Outcomes -/

/-- The errors are of one kind and blame the same, but for the text of a range that is quoted. -/
inductive ExprError.Like : ExprError → ExprError → Prop
  | same (e : ExprError) : Like e e
  | noMainOperator (range range' : String) : Like (.noMainOperator range) (.noMainOperator range')

/-- Both outcomes are the same value, or errors that are alike. -/
def LikeOutcomes {α : Type} : Except ExprError α → Except ExprError α → Prop
  | .ok a, .ok b => a = b
  | .error e, .error e' => e.Like e'
  | _, _ => False

namespace EvalM

variable {σ τ α β : Type}

/-- The two evaluations have outcomes that are alike, whatever the sessions. -/
def SameOutcome (m : EvalM σ α) (m' : EvalM τ α) : Prop :=
  ∃ r r', m.Yields r ∧ m'.Yields r' ∧ LikeOutcomes r r'

theorem sameOutcome_of_yields {m : EvalM σ α} {m' : EvalM τ α} {r : Except ExprError α}
    (h : m.Yields r) (h' : m'.Yields r) : SameOutcome m m' := by
  refine ⟨r, r, h, h', ?_⟩
  cases r with
  | ok a => exact rfl
  | error e => exact .same e

theorem sameOutcome_fail {e e' : ExprError} (h : e.Like e') :
    SameOutcome (fail e : EvalM σ α) (fail e' : EvalM τ α) :=
  ⟨.error e, .error e', yields_fail e, yields_fail e', h⟩

theorem SameOutcome.bind {m : EvalM σ α} {m' : EvalM τ α} {f : α → EvalM σ β}
    {f' : α → EvalM τ β} (hm : SameOutcome m m') (hf : ∀ a, SameOutcome (f a) (f' a)) :
    SameOutcome (m >>= f) (m' >>= f') := by
  obtain ⟨r, r', hr, hr', hlike⟩ := hm
  match r, r', hlike with
  | .error e, .error e', hlike =>
    exact ⟨.error e, .error e', hr.bind (g := fun _ => .error e) nofun,
      hr'.bind (g := fun _ => .error e') nofun, hlike⟩
  | .ok a, .ok _, rfl =>
    -- Both go on with the value.
    obtain ⟨q, q', hq, hq', hlike⟩ := hf a
    refine ⟨q, q', hr.bind (g := fun _ => q) ?_, hr'.bind (g := fun _ => q') ?_, hlike⟩
    · rintro _ ⟨⟩
      exact hq
    · rintro _ ⟨⟩
      exact hq'

theorem SameOutcome.result {m : EvalM σ α} {m' : EvalM τ α} (h : SameOutcome m m')
    (state : Session σ) (state' : Session τ) :
    (∃ a, m.result state = .ok a ∧ m'.result state' = .ok a)
      ∨ ∃ e e', m.result state = .error (.expr e) ∧ m'.result state' = .error (.expr e')
        ∧ e.Like e' := by
  obtain ⟨r, r', hr, hr', hlike⟩ := h
  rw [hr.result_eq, hr'.result_eq]
  match r, r', hlike with
  | .ok a, .ok _, rfl => exact .inl ⟨a, rfl, rfl⟩
  | .error e, .error e', hlike => exact .inr ⟨e, e', rfl, rfl, hlike⟩

theorem SameOutcome.noted {m : EvalM σ Nat} {m' : EvalM τ Nat} (h : SameOutcome m m')
    (lo hi : Nat) : SameOutcome (noted lo hi m) (noted lo hi m') := by
  obtain ⟨r, r', hr, hr', hlike⟩ := h
  exact ⟨r, r', hr.noted lo hi, hr'.noted lo hi, hlike⟩

end EvalM

/-! ## Tokens in the place of others -/

/-- The tokens have one shape and, if they are operands, one meaning, each with what is known of
    registers in its own place. -/
structure Token.Alike (w : Width) (known known' : Option (String → Option Int))
    (a b : Token) : Prop where
  shape : SameShape a b
  meaning : a.kind.isOperand = true → a.meaning w (knownBy known) = b.meaning w (knownBy known')

/-- A register is replaced by the decimal digits of its word, a literal by any literal of the
    same word, and operators and brackets by themselves. -/
inductive Token.ReplacedBy (w : Width) (known : String → Option Int) : Token → Token → Prop
  | register {a : Token} {value : Int} {n : Nat} : a.kind = .reg →
      known a.register = some value → (n : Int) = value % 2 ^ w.size →
      ReplacedBy w known a (.decimal n)
  | literal {a b : Token} : a.kind.isLiteral = true → b.kind.isLiteral = true → b.Lexable →
      Literal.value b.text w.size = Literal.value a.text w.size → ReplacedBy w known a b
  | spelled {a : Token} : a.kind.isOperand = false → ReplacedBy w known a a

namespace Token

variable {w : Width} {known : String → Option Int} {a b : Token} {n : Nat}

theorem ReplacedBy.lexable (ha : a.Lexable) (h : ReplacedBy w known a b) : b.Lexable := by
  cases h with
  | register _ _ hn =>
    rw [← Width.toNat_wrap_of_emod hn]
    exact lexable_decimal_of_lt (w.toNat_wrap_lt _)
  | literal _ _ hb _ => exact hb
  | spelled _ => exact ha

theorem ReplacedBy.alike (ha : a.Lexable) (h : ReplacedBy w known a b) :
    Alike w (some known) none a b := by
  cases h with
  | @register value n hk hvalue hn =>
    refine ⟨.inr ⟨by rw [hk]; rfl, rfl⟩, fun _ => ?_⟩
    have hknown : knownBy (some known) a.register = some value := hvalue
    rw [meaning_of_register hk hknown, ← Width.toNat_wrap_of_emod hn,
      meaning_decimal (w.toNat_wrap_lt value)]
  | literal hk hk' hb hvalue =>
    refine ⟨.inr ⟨TokenKind.isOperand_of_isLiteral hk, TokenKind.isOperand_of_isLiteral hk'⟩,
      fun _ => ?_⟩
    rw [hb.literal_value hk', ha.literal_value hk] at hvalue
    rw [meaning_of_isLiteral hk, meaning_of_isLiteral hk', Except.ok.inj hvalue]
  | spelled hk =>
    refine ⟨.inl rfl, fun hop => ?_⟩
    rw [hk] at hop
    cases hop

theorem forall₂_alike {xs ys : List Token} (hxs : ∀ a ∈ xs, a.Lexable)
    (h : List.Forall₂ (ReplacedBy w known) xs ys) :
    (∀ b ∈ ys, b.Lexable) ∧ List.Forall₂ (Alike w (some known) none) xs ys := by
  induction h with
  | nil => exact ⟨nofun, .nil⟩
  | cons hab _ ih =>
    obtain ⟨ha, hxs⟩ := List.forall_mem_cons.mp hxs
    obtain ⟨hys, htail⟩ := ih hxs
    exact ⟨List.forall_mem_cons.mpr ⟨hab.lexable ha, hys⟩, .cons (hab.alike ha) htail⟩

end Token

/-! ## Two evaluations side by side -/

namespace Setting

open EvalM

variable {w : Width} {maxDepth maxTokens : Int} {known known' : Option (String → Option Int)}
  {ts us : Array Token}

theorem sameOutcome_operand {a b : Token} (ha : a.Lexable) (hb : b.Lexable)
    (h : Token.Alike w known known' a b) (index : Nat) :
    SameOutcome ((stateless w maxDepth known).operand a index)
      ((stateless w maxDepth known').operand b index) := by
  cases hop : a.kind.isOperand with
  | true =>
    have hop' : b.kind.isOperand = true := by
      rcases h.shape with rfl | ⟨-, hb⟩
      · exact hop
      · exact hb
    have hyields : ((stateless w maxDepth known').operand b index).Yields
        (a.meaning w (knownBy known)) := by
      rw [h.meaning hop]
      exact yields_operand hb hop' index
    exact sameOutcome_of_yields (yields_operand ha hop index) hyields
  | false =>
    obtain rfl := h.shape.eq_of_not_isOperand hop
    rw [operand_of_not_isOperand hop, operand_of_not_isOperand hop]
    exact sameOutcome_fail (.same _)

/-- The two evaluations take the same ranges apart. -/
theorem sameOutcome_evalPlain (hts : ∀ a ∈ ts, a.Lexable) (hus : ∀ b ∈ us, b.Lexable)
    (h : List.Forall₂ (Token.Alike w known known') ts.toList us.toList) (levels lo hi : Nat)
    (hs : hi ≤ ts.size) :
    SameOutcome ((stateless w maxDepth known).evalPlain ts levels lo hi)
      ((stateless w maxDepth known').evalPlain us levels lo hi) := by
  have hsize : ts.size = us.size := h.length_eq
  have hshape : List.Forall₂ SameShape ts.toList us.toList := h.imp fun _ _ hab => hab.shape
  induction levels, lo, hi, hs using range_induction with
  | deep lo hi hs =>
    rw [evalPlain_zero, evalPlain_zero]
    exact sameOutcome_fail (.same _)
  | empty levels lo hi hs hempty =>
    have hnone : ts.isEmpty = us.isEmpty := by
      rw [Array.isEmpty, Array.isEmpty, hsize]
    rw [evalPlain_empty hempty, evalPlain_empty hempty, hnone]
    exact sameOutcome_fail (.same _)
  | operand levels lo hlt =>
    have hlt' : lo < us.size := hsize ▸ hlt
    rw [evalPlain_operand hlt, evalPlain_operand hlt']
    exact (sameOutcome_operand (hts _ (Array.getElem_mem hlt)) (hus _ (Array.getElem_mem hlt'))
      (getElem_of_forall₂ h hlt hlt') lo).noted lo (lo + 1)
  | bracketed levels lo hi hs hseveral hb ih =>
    have hb' := hb
    rw [isBracketed_congr hshape hseveral hs] at hb'
    rw [evalPlain_bracketed hseveral hb, evalPlain_bracketed hseveral hb']
    exact ih.noted lo hi
  | noOperator levels lo hi hs hseveral hb hm =>
    have hb' := hb
    have hm' := hm
    rw [isBracketed_congr hshape hseveral hs] at hb'
    rw [mainOperator?_congr hshape (by omega) hs] at hm'
    rw [evalPlain_noOperator hseveral hb hm, evalPlain_noOperator hseveral hb' hm']
    exact sameOutcome_fail (.noMainOperator _ _)
  | split levels lo hi hs op hseveral hb hm ihl ihr =>
    have hb' := hb
    have hm' := hm
    rw [isBracketed_congr hshape hseveral hs] at hb'
    rw [mainOperator?_congr hshape (by omega) hs] at hm'
    rw [evalPlain_split hseveral hb hm, evalPlain_split hseveral hb' hm']
    refine SameOutcome.noted (ihl.bind fun left => ihr.bind fun right => ?_) lo hi
    obtain ⟨o, ho⟩ := getElem?_mainOperator hts (by omega) hs hm
    -- The operators are no operands, so that they are the same.
    obtain ⟨hlt, hop⟩ := Array.getElem?_eq_some_iff.mp ho
    have hlt' : op < us.size := hsize ▸ hlt
    have hsame := (getElem_of_forall₂ hshape hlt hlt').eq_of_not_isOperand (by rw [hop]; rfl)
    have ho' : us[op]? = some (.spelled (.op o)) := by
      rw [Array.getElem?_eq_getElem hlt', ← hsame, hop]
    rw [applyAt_spelled ho, applyAt_spelled ho']
    exact sameOutcome_of_yields (yields_apply o left right) (yields_apply o left right)

theorem sameOutcome_evalTokens (hts : ∀ a ∈ ts, a.Lexable) (hus : ∀ b ∈ us, b.Lexable)
    (h : List.Forall₂ (Token.Alike w known known') ts.toList us.toList) :
    SameOutcome ((stateless w maxDepth known).evalTokens ts)
      ((stateless w maxDepth known').evalTokens us) := by
  have hsize : ts.size = us.size := h.length_eq
  rw [evalTokens, evalTokens, evalRange, evalRange, evalLevels_eq_evalPlain,
    evalLevels_eq_evalPlain, ← hsize]
  exact sameOutcome_evalPlain hts hus h _ 0 ts.size (Nat.le_refl _)

/-- Only the shape of a text and the words of its operands matter. Let every register of a text
    be replaced by the decimal digits of the word that the resolver knows for it, and every
    literal by any literal of the same word. Printed with spaces between them, the new tokens
    have the value of the text without any resolver; and if the text fails, so do they, with an
    error of the same kind that blames the same. -/
theorem valueOf_of_replaced (w : Width) (maxDepth maxTokens : Int) (known : String → Option Int)
    {text : String} {capacity : Int} {ts : Array Token} (hlex : tokenize text capacity = .ok ts)
    {us : List Token} (hus : List.Forall₂ (Token.ReplacedBy w known) ts.toList us) :
    (∃ v, (stateless w maxDepth (some known)).valueOf text maxTokens = .ok v
        ∧ (stateless w maxDepth none).valueOf (Token.separated us) maxTokens = .ok v)
      ∨ ∃ e e', (stateless w maxDepth (some known)).valueOf text maxTokens = .error (.expr e)
        ∧ (stateless w maxDepth none).valueOf (Token.separated us) maxTokens = .error (.expr e')
        ∧ e.Like e' := by
  have hts : ∀ a ∈ ts.toList, a.Lexable := (spells_of_tokenize hlex).writes.lexable
  obtain ⟨hlexable, halike⟩ := Token.forall₂_alike hts hus
  have hfits : (ts.toList = [] ∨ (ts.toList.length : Int) ≤ maxTokens)
      ↔ (us = [] ∨ (us.length : Int) ≤ maxTokens) := by
    rw [← List.length_eq_zero_iff, hus.length_eq, List.length_eq_zero_iff]
  have htext : tokenize text maxTokens
      = if ts.toList = [] ∨ (ts.toList.length : Int) ≤ maxTokens then .ok ts.toList.toArray
        else .error (.tooManyTokens maxTokens) := tokenize_of_spells (spells_of_tokenize hlex)
  have hseparated := tokenize_separated hlexable maxTokens
  by_cases hmax : us = [] ∨ (us.length : Int) ≤ maxTokens
  · rw [if_pos (hfits.mpr hmax)] at htext
    rw [if_pos hmax] at hseparated
    have hsame : SameOutcome ((stateless w maxDepth (some known)).evalTokens ts.toList.toArray)
        ((stateless w maxDepth none).evalTokens us.toArray) :=
      sameOutcome_evalTokens (lexable_of_tokenize htext) (lexable_of_tokenize hseparated) halike
    rw [valueOf_of_tokenize htext, valueOf_of_tokenize hseparated]
    exact hsame.result _ _
  · -- Neither text may have so many tokens.
    rw [if_neg (hfits.not.mpr hmax)] at htext
    rw [if_neg hmax] at hseparated
    rw [valueOf, valueOf, evaluate_result, evaluate_result, htext, hseparated]
    exact .inr ⟨_, _, rfl, rfl, .same _⟩

/-- Where `$a` is negative, `16 * 4294967295 - 4294967303u` has the value of `0x10*$a-7` with 32
    bits, and for want of an operator `( 4294967295 1u ) + 2` fails as `($a 0x1)+2` does. -/
theorem valueOf_of_replaced_negative :
    let known : String → Option Int := fun name => if name = "a" then some (-1) else none
    ((stateless .w32 3 (some known)).valueOf "0x10*$a-7" 9 = .ok 4294967273
      ∧ (stateless .w32 3 none).valueOf "16 * 4294967295 - 4294967303u" 9 = .ok 4294967273)
    ∧ (stateless .w32 3 (some known)).valueOf "($a 0x1)+2" 9
      = .error (.expr (.noMainOperator "$a0x1"))
    ∧ ∃ e, (stateless .w32 3 none).valueOf "( 4294967295 1u ) + 2" 9 = .error (.expr e)
      ∧ (ExprError.noMainOperator "$a0x1").Like e := by
  intro known
  have hregister : Token.ReplacedBy .w32 known ⟨.reg, "$a"⟩ ⟨.dec, "4294967295"⟩ :=
    have hknown : known (Token.register ⟨.reg, "$a"⟩) = some (-1) := by decide +kernel
    .register (n := 4294967295) rfl hknown (by decide)
  -- Another literal can be lexed if it is the only token of its own text.
  have hliteral (a b : Token) (ha : a.kind.isLiteral = true) (hb : b.kind.isLiteral = true)
      (hlex : tokenize b.text 1 = .ok #[b])
      (hvalue : Literal.value b.text Width.w32.size = Literal.value a.text Width.w32.size) :
      Token.ReplacedBy .w32 known a b :=
    .literal ha hb (lexable_of_tokenize hlex b (Array.mem_singleton.mpr rfl)) hvalue
  constructor
  · have hlex : tokenize "0x10*$a-7" 5 = .ok #[⟨.hex, "0x10"⟩, .spelled (.op .mul), ⟨.reg, "$a"⟩,
        .spelled (.op .sub), ⟨.dec, "7"⟩] := by decide +kernel
    have hreplaced : List.Forall₂ (Token.ReplacedBy .w32 known)
        [⟨.hex, "0x10"⟩, .spelled (.op .mul), ⟨.reg, "$a"⟩, .spelled (.op .sub), ⟨.dec, "7"⟩]
        [⟨.dec, "16"⟩, .spelled (.op .mul), ⟨.dec, "4294967295"⟩, .spelled (.op .sub),
          ⟨.dec, "4294967303u"⟩] :=
      .cons (hliteral _ _ rfl rfl (by decide +kernel) (by decide +kernel))
        (.cons (.spelled rfl) (.cons hregister (.cons (.spelled rfl)
          (.cons (hliteral _ _ rfl rfl (by decide +kernel) (by decide +kernel)) .nil))))
    have hvalue : (stateless .w32 3 (some known)).valueOf "0x10*$a-7" 9 = .ok 4294967273 := by
      decide +kernel
    rcases valueOf_of_replaced .w32 3 9 known hlex hreplaced with ⟨v, hv, hv'⟩ | ⟨e, e', he, -⟩
    · rw [hvalue] at hv
      cases hv
      exact ⟨hvalue, hv'⟩
    · rw [hvalue] at he
      cases he
  · have hlex : tokenize "($a 0x1)+2" 6 = .ok #[.spelled .lparen, ⟨.reg, "$a"⟩, ⟨.hex, "0x1"⟩,
        .spelled .rparen, .spelled (.op .add), ⟨.dec, "2"⟩] := by decide +kernel
    have hreplaced : List.Forall₂ (Token.ReplacedBy .w32 known)
        [.spelled .lparen, ⟨.reg, "$a"⟩, ⟨.hex, "0x1"⟩, .spelled .rparen, .spelled (.op .add),
          ⟨.dec, "2"⟩]
        [.spelled .lparen, ⟨.dec, "4294967295"⟩, ⟨.dec, "1u"⟩, .spelled .rparen,
          .spelled (.op .add), ⟨.dec, "2"⟩] :=
      .cons (.spelled rfl) (.cons hregister
        (.cons (hliteral _ _ rfl rfl (by decide +kernel) (by decide +kernel))
          (.cons (.spelled rfl) (.cons (.spelled rfl)
            (.cons (hliteral _ _ rfl rfl (by decide +kernel) (by decide +kernel)) .nil)))))
    have hvalue : (stateless .w32 3 (some known)).valueOf "($a 0x1)+2" 9
        = .error (.expr (.noMainOperator "$a0x1")) := by decide +kernel
    rcases valueOf_of_replaced .w32 3 9 known hlex hreplaced with ⟨v, hv, -⟩ | ⟨e, e', he, he', h⟩
    · rw [hvalue] at hv
      cases hv
    · rw [hvalue] at he
      cases he
      exact ⟨hvalue, e', he', h⟩

end Setting

end WordExpr
