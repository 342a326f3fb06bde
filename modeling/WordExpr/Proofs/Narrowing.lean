/-
  WordExpr.Proofs.Narrowing

  Words of 64 bits cut to 32 bits. Cutting commutes with sums, differences and products, and
  with none of the other operators (`BinOp.compute_narrow`). A text without those others is
  therefore evaluated to the same value with 32 bits as with 64, but for the cut, and if it has
  no value it fails in the same way, well-formed or not (`Setting.valueOf_narrow`).

  The two evaluations run side by side over the same ranges. Their sessions hold different
  values, so `EvalM.EndsAlike` compares only how they end.
-/
import WordExpr.Proofs.Safety

namespace WordExpr

open Range Lexer

/-! ## Words -/

namespace Width

/-- The lower half of a word of 64 bits. -/
def narrow (x : w64.Word) : w32.Word := x.setWidth w32.size

theorem toNat_narrow (x : w64.Word) : (narrow x).toNat = x.toNat % 2 ^ 32 :=
  BitVec.toNat_setWidth w32.size x

theorem narrow_add (x y : w64.Word) : narrow (x + y) = narrow x + narrow y :=
  BitVec.setWidth_add x y (by decide)

theorem narrow_mul (x y : w64.Word) : narrow (x * y) = narrow x * narrow y :=
  BitVec.setWidth_mul x y (by decide)

theorem narrow_neg (x : w64.Word) : narrow (-x) = -narrow x :=
  BitVec.setWidth_neg_of_le (by decide)

theorem narrow_sub (x y : w64.Word) : narrow (x - y) = narrow x - narrow y := by
  rw [BitVec.sub_eq_add_neg, narrow_add, narrow_neg, BitVec.sub_eq_add_neg]

/-- Integers with the same residue are the same word of 32 bits. -/
theorem wrap_narrow {a b : Int} (h : a % 2 ^ 32 = b % 2 ^ 32) :
    w32.wrap a = narrow (w64.wrap b) := by
  have ha : ((w32.wrap a).toNat : Int) = a % 2 ^ 32 := w32.toNat_wrap a
  have hb : ((w64.wrap b).toNat : Int) = b % 2 ^ 64 := w64.toNat_wrap b
  apply BitVec.eq_of_toNat_eq
  rw [toNat_narrow]
  omega

end Width

namespace BinOp

/-- The operators that do not commute with cutting words. -/
def wide : List BinOp := [div, mod, eq, ne, and, or]

variable {op : BinOp}

theorem compute_narrow (hop : op ∉ wide) (x y : Width.w64.Word) :
    op.compute .w32 (Width.narrow x) (Width.narrow y) = Width.narrow <$> op.compute .w64 x y := by
  cases op with
  | add => exact congrArg Except.ok (Width.narrow_add x y).symm
  | sub => exact congrArg Except.ok (Width.narrow_sub x y).symm
  | mul => exact congrArg Except.ok (Width.narrow_mul x y).symm
  | _ => exact absurd (by decide) hop

theorem onWords_narrow (hop : op ∉ wide) (a b : Nat) :
    op.onWords .w32 (a % 2 ^ 32 : Nat) (b % 2 ^ 32 : Nat)
      = (· % 2 ^ 32) <$> op.onWords .w64 a b := by
  have hcut (n : Nat) :
      Width.w32.wrap ((n % 2 ^ 32 : Nat) : Int) = Width.narrow (Width.wrap .w64 n) :=
    Width.wrap_narrow (by omega)
  rw [onWords, onWords, hcut, hcut, compute_narrow hop]
  cases op.compute .w64 (Width.w64.wrap a) (Width.w64.wrap b) with
  | error z => rfl
  | ok x => exact congrArg Except.ok (Width.toNat_narrow x)

end BinOp

/-! ## Evaluations side by side -/

namespace EvalM

variable {σ τ α β α' β' : Type} {R : α → β → Prop} {S : α' → β' → Prop}

/-- Both outcomes are values in the relation, or both are the same error. -/
def Alike (R : α → β → Prop) :
    EStateM.Result EvalError (Session σ) α → EStateM.Result EvalError (Session τ) β → Prop
  | .ok a _, .ok b _ => R a b
  | .error e _, .error e' _ => e = e'
  | _, _ => False

theorem Alike.cases {x : EStateM.Result EvalError (Session σ) α}
    {y : EStateM.Result EvalError (Session τ) β} (h : Alike R x y) :
    (∃ a b last last', x = .ok a last ∧ y = .ok b last' ∧ R a b)
      ∨ ∃ e last last', x = .error e last ∧ y = .error e last' := by
  cases x with
  | ok a last =>
    cases y with
    | ok b last' => exact .inl ⟨a, b, last, last', rfl, rfl, h⟩
    | error e last' => exact h.elim
  | error e last =>
    cases y with
    | ok b last' => exact h.elim
    | error e' last' =>
      obtain rfl : e = e' := h
      exact .inr ⟨e, last, last', rfl, rfl⟩

/-- In whatever sessions they run, the two evaluations end alike. -/
def EndsAlike (R : α → β → Prop) (m : EvalM σ α) (m' : EvalM τ β) : Prop :=
  ∀ state state', Alike R (m state) (m' state')

theorem endsAlike_pure {a : α} {b : β} (h : R a b) :
    EndsAlike R (pure a : EvalM σ α) (pure b : EvalM τ β) :=
  fun _ _ => h

theorem endsAlike_throw (R : α → β → Prop) (e : EvalError) :
    EndsAlike R (throw e : EvalM σ α) (throw e : EvalM τ β) :=
  fun _ _ => rfl

theorem EndsAlike.bind {m : EvalM σ α} {m' : EvalM τ β} {f : α → EvalM σ α'} {f' : β → EvalM τ β'}
    (hm : EndsAlike R m m') (hf : ∀ a b, R a b → EndsAlike S (f a) (f' b)) :
    EndsAlike S (m >>= f) (m' >>= f') := by
  intro state state'
  rcases (hm state state').cases with ⟨a, b, next, next', hrun, hrun', hab⟩
    | ⟨e, next, next', hrun, hrun'⟩
  · rw [bind_of_ok hrun, bind_of_ok hrun']
    exact hf a b hab next next'
  · rw [bind_of_error hrun, bind_of_error hrun']
    exact rfl

theorem EndsAlike.noted {R : Nat → Nat → Prop} {m : EvalM σ Nat} {m' : EvalM τ Nat}
    (h : EndsAlike R m m') (lo hi : Nat) : EndsAlike R (noted lo hi m) (noted lo hi m') :=
  h.bind fun a b hab =>
    (show EndsAlike (fun _ _ => True) (note ⟨lo, hi, a⟩) (note ⟨lo, hi, b⟩)
      from fun _ _ => trivial).bind fun _ _ _ => endsAlike_pure hab

theorem EndsAlike.result {m : EvalM σ α} {m' : EvalM τ β} (h : EndsAlike R m m')
    (state : Session σ) (state' : Session τ) :
    (∃ a b, m.result state = .ok a ∧ m'.result state' = .ok b ∧ R a b)
      ∨ ∃ e, m.result state = .error e ∧ m'.result state' = .error e := by
  unfold EvalM.result
  rcases (h state state').cases with ⟨a, b, last, last', hrun, hrun', hab⟩
    | ⟨e, last, last', hrun, hrun'⟩
  · rw [hrun, hrun']
    exact .inl ⟨a, b, rfl, rfl, hab⟩
  · rw [hrun, hrun']
    exact .inr ⟨e, rfl, rfl⟩

end EvalM

/-- The second number cut to 32 bits is the first one. -/
def Narrowed (v wide : Nat) : Prop := v = wide % 2 ^ 32

/-- The two resolvers know the same names, and the values of each name have the same residue
    modulo `2 ^ 32`. -/
def KnowSameResidues (known32 known64 : Option (String → Option Int)) : Prop :=
  ∀ name, (knownBy known32 name).map (· % 2 ^ 32) = (knownBy known64 name).map (· % 2 ^ 32)

namespace Setting

open EvalM

variable {maxDepth maxTokens : Int} {known32 known64 : Option (String → Option Int)}
  {text : String} {ts : Array Token}

/-- Integers with the same residue are reduced alike. -/
theorem endsAlike_reduce {a b : Int} (h : a % 2 ^ 32 = b % 2 ^ 32) (f : WidthError → EvalError) :
    EndsAlike Narrowed (.lift f (Word.reduce Width.w32.size a) : EvalM Unit Nat)
      (.lift f (Word.reduce Width.w64.size b) : EvalM Unit Nat) := by
  rw [Word.reduce_size, Word.reduce_size, Width.wrap_narrow h]
  exact endsAlike_pure (Width.toNat_narrow _)

/-- A literal is read as the same integer before it is reduced. -/
theorem endsAlike_literal (literal : String) :
    EndsAlike Narrowed (.lift .ofLiteral (Literal.value literal Width.w32.size) : EvalM Unit Nat)
      (.lift .ofLiteral (Literal.value literal Width.w64.size) : EvalM Unit Nat) := by
  unfold Literal.value
  cases Literal.read literal with
  | error e => exact endsAlike_throw _ _
  | ok n =>
    simp only [Word.reduce_size, Width.wrap_narrow (rfl : n % 2 ^ 32 = n % 2 ^ 32)]
    exact endsAlike_pure (Width.toNat_narrow _)

/-- Resolvers that know the same names answer alike. -/
theorem endsAlike_ask (hknown : KnowSameResidues known32 known64) (name : String) :
    EndsAlike (fun a b : Option Int => a.map (· % 2 ^ 32) = b.map (· % 2 ^ 32))
      (ask (known32.map Resolver.pure) name) (ask (known64.map Resolver.pure) name) := by
  have hask (known : Option (String → Option Int)) (state : Session Unit) :
      ∃ last, ask (known.map Resolver.pure) name state = .ok (knownBy known name) last := by
    cases known with
    | none => exact ⟨_, rfl⟩
    | some f => exact ⟨_, rfl⟩
  intro state state'
  obtain ⟨last, hlast⟩ := hask known32 state
  obtain ⟨last', hlast'⟩ := hask known64 state'
  rw [hlast, hlast']
  exact hknown name

theorem endsAlike_operand (hknown : KnowSameResidues known32 known64) (a : Token) (index : Nat) :
    EndsAlike Narrowed ((stateless .w32 maxDepth known32).operand a index)
      ((stateless .w64 maxDepth known64).operand a index) := by
  unfold operand
  cases a.kind with
  | dec => exact endsAlike_literal a.text
  | hex => exact endsAlike_literal a.text
  | reg =>
    refine (endsAlike_ask hknown a.register).bind fun value value' h => ?_
    cases value with
    | none =>
      cases value' with
      | none => exact endsAlike_throw _ _
      | some b => cases h
    | some a =>
      cases value' with
      | none => cases h
      | some b => exact endsAlike_reduce (Option.some.inj h) .width
  | _ => exact endsAlike_throw _ _

theorem endsAlike_applyAt {index : Nat} {o : BinOp} (ho : ts[index]? = some (.spelled (.op o)))
    (hop : o ∉ BinOp.wide) {left left' right right' : Nat} (hl : Narrowed left left')
    (hr : Narrowed right right') :
    EndsAlike Narrowed ((stateless .w32 maxDepth known32).applyAt ts index left right)
      ((stateless .w64 maxDepth known64).applyAt ts index left' right') := by
  rw [applyAt_spelled ho, applyAt_spelled ho, stateless, stateless, BinOp.apply_size,
    BinOp.apply_size, hl, hr, BinOp.onWords_narrow hop]
  cases o.onWords .w64 left' right' with
  | error z => exact endsAlike_throw _ _
  | ok v => exact endsAlike_pure rfl

/-- The ranges of a text with none of the other operators. -/
theorem endsAlike_evalPlain (hknown : KnowSameResidues known32 known64)
    (hts : ∀ a ∈ ts, a.Lexable) (hops : ∀ a ∈ ts, ∀ o ∈ BinOp.wide, a.kind ≠ .op o)
    (levels lo hi : Nat) (hs : hi ≤ ts.size) :
    EndsAlike Narrowed ((stateless .w32 maxDepth known32).evalPlain ts levels lo hi)
      ((stateless .w64 maxDepth known64).evalPlain ts levels lo hi) := by
  induction levels, lo, hi, hs using range_induction with
  | deep lo hi hs =>
    rw [evalPlain_zero, evalPlain_zero]
    exact endsAlike_throw _ _
  | empty levels lo hi hs hempty =>
    rw [evalPlain_empty hempty, evalPlain_empty hempty]
    exact endsAlike_throw _ _
  | operand levels lo hlt =>
    rw [evalPlain_operand hlt, evalPlain_operand hlt]
    exact (endsAlike_operand hknown ts[lo] lo).noted lo (lo + 1)
  | bracketed levels lo hi hs hseveral hb ih =>
    rw [evalPlain_bracketed hseveral hb, evalPlain_bracketed hseveral hb]
    exact ih.noted lo hi
  | noOperator levels lo hi hs hseveral hb hm =>
    rw [evalPlain_noOperator hseveral hb hm, evalPlain_noOperator hseveral hb hm]
    exact endsAlike_throw _ _
  | split levels lo hi hs op hseveral hb hm ihl ihr =>
    rw [evalPlain_split hseveral hb hm, evalPlain_split hseveral hb hm]
    refine EndsAlike.noted ?_ lo hi
    refine ihl.bind fun left left' hl => ihr.bind fun right right' hr => ?_
    obtain ⟨o, ho⟩ := getElem?_mainOperator hts (by omega) hs hm
    have hop : o ∉ BinOp.wide := fun hmem => hops _ (Array.mem_of_getElem? ho) o hmem rfl
    exact endsAlike_applyAt ho hop hl hr

/-- The results of a text: a number with 64 bits and what is left of it with 32, or one error. -/
theorem valueOf_alike (maxDepth : Int) (hknown : KnowSameResidues known32 known64)
    (hops : ∀ ts, tokenize text maxTokens = .ok ts →
      ∀ a ∈ ts, ∀ o ∈ BinOp.wide, a.kind ≠ .op o) :
    (∃ v wide, (stateless .w32 maxDepth known32).valueOf text maxTokens = .ok v
        ∧ (stateless .w64 maxDepth known64).valueOf text maxTokens = .ok wide ∧ Narrowed v wide)
      ∨ ∃ e, (stateless .w32 maxDepth known32).valueOf text maxTokens = .error e
        ∧ (stateless .w64 maxDepth known64).valueOf text maxTokens = .error e := by
  cases hlex : tokenize text maxTokens with
  | error e =>
    rw [valueOf, valueOf, evaluate_result, evaluate_result, hlex]
    exact .inr ⟨_, rfl, rfl⟩
  | ok ts =>
    rw [valueOf_of_tokenize hlex, valueOf_of_tokenize hlex, evalTokens, evalTokens, evalRange,
      evalRange, evalLevels_eq_evalPlain, evalLevels_eq_evalPlain]
    exact (endsAlike_evalPlain hknown (lexable_of_tokenize hlex) (hops ts hlex) _ 0 ts.size
      (Nat.le_refl _)).result _ _

/-- Narrowing the words of a text without division, remainder, comparison and logical operators.
    If both resolvers know the same names, with the same residues, the text has a value with 32
    bits exactly if it has one with 64 bits, and it is that value cut to 32 bits. Otherwise both
    report the same error, in the same words. -/
theorem valueOf_narrow (maxDepth maxTokens : Int) (known32 known64 : Option (String → Option Int))
    (hknown : KnowSameResidues known32 known64) (text : String)
    (hops : ∀ ts, tokenize text maxTokens = .ok ts →
      ∀ a ∈ ts, ∀ o ∈ [BinOp.div, .mod, .eq, .ne, .and, .or], a.kind ≠ .op o) :
    (∀ v, (stateless .w32 maxDepth known32).valueOf text maxTokens = .ok v
      ↔ ∃ wide, (stateless .w64 maxDepth known64).valueOf text maxTokens = .ok wide
        ∧ v = wide % 2 ^ 32)
    ∧ ∀ e, (stateless .w32 maxDepth known32).valueOf text maxTokens = .error e
      ↔ (stateless .w64 maxDepth known64).valueOf text maxTokens = .error e := by
  rcases valueOf_alike maxDepth hknown hops with
    ⟨v, wide, hv, hwide, hnarrowed⟩ | ⟨e, he, he'⟩
  · rw [hv, hwide]
    refine ⟨fun u => ⟨?_, ?_⟩, fun e => ⟨nofun, nofun⟩⟩
    · intro h
      exact ⟨wide, rfl, (Except.ok.inj h).symm.trans hnarrowed⟩
    · rintro ⟨wide', hsame, rfl⟩
      rw [← Except.ok.inj hsame, ← hnarrowed]
  · rw [he, he']
    exact ⟨fun v => ⟨nofun, nofun⟩, fun e' => Iff.rfl⟩

/-- With `$a` negative for 32 bits and large for 64, the value of `$a*0x10000001-(7+$a)` is that of
    64 bits cut down, and `$a+($b-1` fails for the missing bracket both times. -/
theorem valueOf_narrow_of_negative :
    let known32 : String → Option Int := fun name => if name = "a" then some (-5) else none
    let known64 : String → Option Int := fun name =>
      if name = "a" then some (2 ^ 63 - 5) else none
    (stateless .w32 512 (some known32)).valueOf "$a*0x10000001-(7+$a)" 4096 = .ok 2952790009
    ∧ (∃ wide, (stateless .w64 512 (some known64)).valueOf "$a*0x10000001-(7+$a)" 4096 = .ok wide
      ∧ 2952790009 = wide % 2 ^ 32)
    ∧ (stateless .w64 512 (some known64)).valueOf "$a+($b-1" 4096
      = .error (.expr (.noMainOperator "($b-1")) := by
  intro known32 known64
  have hknown : KnowSameResidues (some known32) (some known64) := by
    intro name
    show (if name = "a" then some (-5) else none : Option Int).map (· % 2 ^ 32)
      = (if name = "a" then some (2 ^ 63 - 5) else none : Option Int).map (· % 2 ^ 32)
    split
    · decide
    · rfl
  have hvalue : (stateless .w32 512 (some known32)).valueOf "$a*0x10000001-(7+$a)" 4096
      = .ok 2952790009 := by decide +kernel
  refine ⟨hvalue, ?_, ?_⟩
  · have hlex : tokenize "$a*0x10000001-(7+$a)" 4096 = .ok #[⟨.reg, "$a"⟩, .spelled (.op .mul),
        ⟨.hex, "0x10000001"⟩, .spelled (.op .sub), .spelled .lparen, ⟨.dec, "7"⟩,
        .spelled (.op .add), ⟨.reg, "$a"⟩, .spelled .rparen] := by decide +kernel
    refine ((valueOf_narrow 512 4096 (some known32) (some known64) hknown _ fun ts hts => ?_).1
      2952790009).mp hvalue
    rw [hlex] at hts
    cases hts
    decide
  · have hlex : tokenize "$a+($b-1" 4096 = .ok #[⟨.reg, "$a"⟩, .spelled (.op .add),
        .spelled .lparen, ⟨.reg, "$b"⟩, .spelled (.op .sub), ⟨.dec, "1"⟩] := by decide +kernel
    refine ((valueOf_narrow 512 4096 (some known32) (some known64) hknown _ fun ts hts => ?_).2
      _).mp (by decide +kernel)
    rw [hlex] at hts
    cases hts
    decide

end Setting

end WordExpr
