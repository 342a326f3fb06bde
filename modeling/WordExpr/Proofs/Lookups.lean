/-
  WordExpr.Proofs.Lookups

  What an evaluation asks of its resolver: the registers of the text from left to right, each
  token once. Nothing depends on values, so `&&` and `||` ask for both of their operands; and
  an evaluation that fails has asked for the first registers only, up to the one that is unknown
  if that is why it failed (`Setting.lookups_in_order`).

  The resolver may have a state, and the text need not be well-formed. `EvalM.Asks` therefore
  follows an evaluation range by range; the order of the names is the order of the tokens,
  because an operator's left operand is evaluated before its right one.
-/
import WordExpr.Proofs.Agreement

namespace WordExpr

open Range Lexer

/-- The names of the registers among tokens, from left to right. -/
def Token.registers (ts : List Token) : List String :=
  (ts.filter fun t => t.kind = .reg).map Token.register

namespace Token

variable {t first last : Token} {ts us : List Token}

theorem registers_append : registers (ts ++ us) = registers ts ++ registers us := by
  rw [registers, List.filter_append, List.map_append]
  rfl

theorem registers_cons_of_ne (h : t.kind ≠ .reg) : registers (t :: ts) = registers ts := by
  rw [registers, List.filter_cons_of_neg (by simpa using h)]
  rfl

theorem registers_singleton (h : t.kind = .reg) : registers [t] = [t.register] := by
  rw [registers, List.filter_cons_of_pos (by simpa using h)]
  rfl

/-- Brackets are no registers. -/
theorem registers_bracketed (hfirst : first.kind = .lparen) (hlast : last.kind = .rparen) :
    registers (first :: (ts ++ [last])) = registers ts := by
  have hfirst' : first.kind ≠ .reg := by
    rw [hfirst]
    decide
  have hlast' : last.kind ≠ .reg := by
    rw [hlast]
    decide
  rw [registers_cons_of_ne hfirst', registers_append, registers_cons_of_ne hlast']
  exact List.append_nil _

end Token

/-! ## Sessions and what was asked in them -/

/-- The state of a resolver after it was asked for registers in turn. -/
def stateAfter {σ : Type} (resolver : Option (Resolver σ)) (names : List String) (state : σ) :
    σ :=
  match resolver with
  | none => state
  | some resolve => names.foldl (fun state name => (resolve name state).2) state

theorem stateAfter_append {σ : Type} (resolver : Option (Resolver σ)) (xs ys : List String)
    (state : σ) :
    stateAfter resolver (xs ++ ys) state = stateAfter resolver ys (stateAfter resolver xs state) := by
  cases resolver with
  | none => rfl
  | some resolve => exact List.foldl_append

/-- Between two sessions the registers `names` were asked for, and nothing else. -/
structure Session.Asked {σ : Type} (resolver : Option (Resolver σ)) (before : Session σ)
    (names : List String) (after : Session σ) : Prop where
  asked : after.asked.toList = before.asked.toList ++ names
  state : after.state = stateAfter resolver names before.state

namespace Session.Asked

variable {σ : Type} {resolver : Option (Resolver σ)} {first second third : Session σ}
  {xs ys : List String}

theorem refl (session : Session σ) : Asked resolver session [] session where
  asked := (List.append_nil _).symm
  state := by cases resolver <;> rfl

theorem trans (h : Asked resolver first xs second) (h' : Asked resolver second ys third) :
    Asked resolver first (xs ++ ys) third where
  asked := by rw [h'.asked, h.asked, List.append_assoc]
  state := by rw [h'.state, h.state, stateAfter_append]

end Session.Asked

open Session (Asked)

/-- If the error is that of an unknown register, it is the last one of those that the resolver
    was asked for, and the resolver did not know it then. -/
def UnknownIsLast {σ : Type} (resolver : Option (Resolver σ)) (state : σ) (asked : List String)
    (e : EvalError) : Prop :=
  ∀ name resolve, e = .expr (.unknownRegister name) → resolver = some resolve →
    ∃ earlier, asked = earlier ++ [name]
      ∧ (resolve name (stateAfter resolver earlier state)).1 = none

namespace EvalM

variable {σ α β : Type} {resolver : Option (Resolver σ)} {xs ys : List String}

/-- Up to this outcome the registers `names` were asked for in this order, or the first ones of
    them if it is an error. -/
def AskedUpTo (resolver : Option (Resolver σ)) (names : List String) (session : Session σ) :
    EStateM.Result EvalError (Session σ) α → Prop
  | .ok _ last => Asked resolver session names last
  | .error e last => ∃ asked, asked <+: names ∧ Asked resolver session asked last
      ∧ UnknownIsLast resolver session.state asked e

/-- In every session the evaluation asks for the registers `names`. -/
def Asks (resolver : Option (Resolver σ)) (names : List String) (m : EvalM σ α) : Prop :=
  ∀ session, AskedUpTo resolver names session (m session)

theorem asks_pure (a : α) : Asks resolver [] (pure a : EvalM σ α) :=
  fun session => Asked.refl session

theorem asks_note (f : Finding) : Asks resolver [] (note f : EvalM σ Unit) := by
  intro session
  have hsame : Asked resolver session [] session := .refl session
  exact ⟨hsame.asked, hsame.state⟩

/-- An error that is not about a register comes before any lookup. -/
theorem asks_throw {e : EvalError} (h : ∀ name, e ≠ .expr (.unknownRegister name))
    (names : List String) : Asks resolver names (throw e : EvalM σ α) :=
  fun session => ⟨[], List.nil_prefix, .refl session, fun name _ he => absurd he (h name)⟩

theorem asks_lift {ε : Type} {f : ε → EvalError}
    (h : ∀ e name, f e ≠ .expr (.unknownRegister name)) (x : Except ε α) :
    Asks resolver [] (lift f x : EvalM σ α) := by
  cases x with
  | ok a => exact asks_pure a
  | error e => exact asks_throw (h e) []

/-- What is asked for later comes behind what was asked for before. -/
theorem AskedUpTo.after {first second : Session σ}
    {outcome : EStateM.Result EvalError (Session σ) α} (hfirst : Asked resolver first xs second)
    (h : AskedUpTo resolver ys second outcome) : AskedUpTo resolver (xs ++ ys) first outcome := by
  cases outcome with
  | ok a last => exact hfirst.trans h
  | error e last =>
    obtain ⟨asked, hpart, hasked, hunknown⟩ := h
    refine ⟨xs ++ asked, (List.prefix_append_right_inj xs).mpr hpart, hfirst.trans hasked, ?_⟩
    intro name resolve he hresolve
    obtain ⟨earlier, rfl, hnone⟩ := hunknown name resolve he hresolve
    refine ⟨xs ++ earlier, (List.append_assoc _ _ _).symm, ?_⟩
    rw [stateAfter_append, ← hfirst.state]
    exact hnone

theorem Asks.bind {m : EvalM σ α} {f : α → EvalM σ β} (hm : Asks resolver xs m)
    (hf : ∀ a, Asks resolver ys (f a)) : Asks resolver (xs ++ ys) (m >>= f) := by
  intro session
  have hfirst := hm session
  cases hrun : m session with
  | error e next =>
    rw [hrun] at hfirst
    obtain ⟨asked, hpart, hasked⟩ := hfirst
    rw [bind_of_error hrun]
    exact ⟨asked, hpart.trans (List.prefix_append xs ys), hasked⟩
  | ok a next =>
    rw [hrun] at hfirst
    rw [bind_of_ok hrun]
    exact (hf a next).after hfirst

theorem Asks.noted {m : EvalM σ Nat} (h : Asks resolver xs m) (lo hi : Nat) :
    Asks resolver xs (noted lo hi m) := by
  have hbind := h.bind fun value => (asks_note ⟨lo, hi, value⟩).bind fun _ => asks_pure value
  rwa [List.append_nil, List.append_nil] at hbind

/-- Asking for one register, and going on with its value without asking for more. -/
theorem asks_register (name : String) {f : Int → EvalM σ Nat}
    (hf : ∀ v, Asks resolver [] (f v)) :
    Asks resolver [name] (ask resolver name >>= fun value? => match value? with
      | none => fail (.unknownRegister name)
      | some v => f v) := by
  intro session
  cases resolver with
  | none =>
    -- Without a resolver nothing is asked.
    exact ⟨[], List.nil_prefix, .refl session, fun _ _ _ h => by cases h⟩
  | some resolve =>
    let next : Session σ :=
      ⟨(resolve name session.state).2, session.asked.push name, session.findings⟩
    have hasked : Asked (some resolve) session [name] next := ⟨Array.toList_push, rfl⟩
    have hask : ask (some resolve) name session = .ok (resolve name session.state).1 next := rfl
    rw [bind_of_ok hask]
    cases hvalue : (resolve name session.state).1 with
    | none =>
      refine ⟨[name], List.prefix_rfl, hasked, fun name' resolve' he hresolve => ?_⟩
      cases he
      cases hresolve
      exact ⟨[], rfl, hvalue⟩
    | some v => exact (hf v next).after hasked

end EvalM

/-! ## Lookups of an evaluation -/

namespace Setting

open EvalM

variable {σ : Type} {s : Setting σ} {ts : Array Token}

/-- An operand asks for its register, if it is one. -/
theorem asks_operand (t : Token) (index : Nat) :
    Asks s.resolver (Token.registers [t]) (s.operand t index) := by
  have hliteral (e : Literal.Failure) (name : String) :
      EvalError.ofLiteral e ≠ .expr (.unknownRegister name) := by
    cases e <;> exact fun h => by cases h
  cases hk : t.kind with
  | reg =>
    rw [operand, hk, Token.registers_singleton hk]
    exact asks_register t.register fun v => asks_lift (fun _ _ h => by cases h) _
  | dec =>
    rw [operand, hk, Token.registers_cons_of_ne (by rw [hk]; decide)]
    exact asks_lift hliteral _
  | hex =>
    rw [operand, hk, Token.registers_cons_of_ne (by rw [hk]; decide)]
    exact asks_lift hliteral _
  | _ =>
    rw [operand, hk]
    exact asks_throw (fun _ h => by cases h) _

/-- An operator asks for nothing. -/
theorem asks_applyAt (s : Setting σ) (ts : Array Token) (index lhs rhs : Nat) :
    Asks s.resolver [] (s.applyAt ts index lhs rhs) := by
  have hoperator (e : BinOp.Failure) (name : String) :
      EvalError.ofOperator e ≠ .expr (.unknownRegister name) := by
    cases e <;> exact fun h => by cases h
  have htoken : Asks s.resolver [] (EvalM.lift .missingToken (tokenAt ts index) : EvalM σ Token) :=
    asks_lift (fun _ _ h => by cases h) _
  exact htoken.bind fun t => asks_lift hoperator _

/-- Evaluating a range asks for its registers. -/
theorem asks_evalPlain (levels lo hi : Nat) (hs : hi ≤ ts.size) :
    Asks s.resolver (Token.registers (slice ts lo hi)) (s.evalPlain ts levels lo hi) := by
  induction levels, lo, hi, hs using range_induction with
  | deep lo hi hs =>
    rw [evalPlain_zero]
    exact asks_throw (fun _ h => by cases h) _
  | empty levels lo hi hs hempty =>
    rw [evalPlain_empty hempty]
    refine asks_throw (fun name => ?_) _
    split <;> exact fun h => by cases h
  | operand levels lo hlt =>
    rw [evalPlain_operand hlt, slice_singleton hlt]
    exact (asks_operand ts[lo] lo).noted lo (lo + 1)
  | bracketed levels lo hi hs hseveral hb ih =>
    obtain ⟨hfirst, hlast, -⟩ := (isBracketed_eq_true_iff hseveral hs).mp hb
    rw [evalPlain_bracketed hseveral hb, slice_ends hseveral hs,
      Token.registers_bracketed hfirst hlast]
    exact ih.noted lo hi
  | noOperator levels lo hi hs hseveral hb hm =>
    rw [evalPlain_noOperator hseveral hb hm]
    exact asks_throw (fun _ h => by cases h) _
  | split levels lo hi hs op hseveral hb hm ihl ihr =>
    obtain ⟨hlo, hhi⟩ := mainOperator?_bounds hm
    obtain ⟨o, -, hkind⟩ := mainOperator?_eq_some (by omega) hs hm
    rw [map_kind_eq_some_iff (by omega)] at hkind
    -- The operator parts the registers of its left operand from those of its right one.
    rw [evalPlain_split hseveral hb hm, slice_split hlo hhi hs, Token.registers_append,
      Token.registers_cons_of_ne (by rw [hkind]; exact fun h => by cases h)]
    refine Asks.noted (ihl.bind fun left => ?_) lo hi
    have hright := ihr.bind fun right => asks_applyAt s ts op left right
    rwa [List.append_nil] at hright

theorem asks_evalTokens (s : Setting σ) (ts : Array Token) :
    Asks s.resolver (Token.registers ts.toList) (s.evalTokens ts) := by
  rw [evalTokens, evalRange, evalLevels_eq_evalPlain, ← slice_size]
  exact asks_evalPlain _ 0 ts.size (Nat.le_refl _)

/-- Registers are looked up from left to right, each token once, whatever the operators and the
    values are. An evaluation with a value has asked for all registers of the text; one that
    fails has asked for the first ones, and if it fails because the resolver does not know a
    register, this is the last one. The state of the resolver is what these lookups make it. -/
theorem lookups_in_order (s : Setting σ) {text : String} {capacity : Int} {ts : Array Token}
    (hlex : tokenize text capacity = .ok ts) (maxTokens : Int) (state : σ) :
    (∀ v, (s.evaluate text maxTokens state).result = .ok v →
      (s.evaluate text maxTokens state).session.asked.toList = Token.registers ts.toList)
    ∧ (∀ e, (s.evaluate text maxTokens state).result = .error e →
        (s.evaluate text maxTokens state).session.asked.toList <+: Token.registers ts.toList
        ∧ UnknownIsLast s.resolver state
            (s.evaluate text maxTokens state).session.asked.toList e)
    ∧ (s.evaluate text maxTokens state).session.state
      = stateAfter s.resolver (s.evaluate text maxTokens state).session.asked.toList state := by
  cases hlex' : tokenize text maxTokens with
  | error e =>
    -- The text has too many tokens, and nothing is asked.
    have hsame : Asked s.resolver (.start state) [] (.start state) := .refl _
    rw [evaluate_of_lexError hlex']
    refine ⟨?_, ?_, hsame.state⟩
    · intro v h
      cases h
    · intro e' h
      cases h
      exact ⟨List.nil_prefix, fun _ _ h => by cases h⟩
  | ok us =>
    obtain rfl := tokenize_unique hlex hlex'
    have hasked := asks_evalTokens s ts (.start state)
    cases hrun : s.evalTokens ts (.start state) with
    | ok v last =>
      rw [hrun] at hasked
      have hnames : last.asked.toList = Token.registers ts.toList := hasked.asked
      rw [evaluate_of_ok hlex' hrun, hnames]
      refine ⟨fun _ _ => rfl, ?_, hasked.state⟩
      intro e h
      cases h
    | error e last =>
      rw [hrun] at hasked
      obtain ⟨asked, hpart, hsession, hunknown⟩ := hasked
      have hnames : last.asked.toList = asked := hsession.asked
      rw [evaluate_of_error hlex' hrun, hnames]
      refine ⟨?_, ?_, hsession.state⟩
      · intro v h
        cases h
      · intro e' h
        cases h
        exact ⟨hpart, hunknown⟩

/-- A resolver that answers twice is asked for both registers of `$a && ($b || 1)`, although the
    first one is zero, and fails at the second `$a` of `$a - $b*$a / $c`. -/
theorem lookups_of_counting_resolver :
    let counting : Resolver Nat := fun _ n => (if n < 2 then some n else none, n + 1)
    let s : Setting Nat := ⟨32, 9, some counting⟩
    (s.evaluate "$a && ($b || 1)" 9 0).session.asked.toList = ["a", "b"]
    ∧ ∃ earlier, (s.evaluate "$a - $b*$a / $c" 9 0).session.asked.toList = earlier ++ ["a"]
      ∧ (counting "a" (stateAfter (some counting) earlier 0)).1 = none := by
  intro counting s
  constructor
  · have hlex : tokenize "$a && ($b || 1)" 9 = .ok #[⟨.reg, "$a"⟩, .spelled (.op .and),
        .spelled .lparen, ⟨.reg, "$b"⟩, .spelled (.op .or), ⟨.dec, "1"⟩, .spelled .rparen] := by
      decide +kernel
    exact (lookups_in_order s hlex 9 0).1 0 (by decide +kernel)
  · have hlex : tokenize "$a - $b*$a / $c" 9 = .ok #[⟨.reg, "$a"⟩, .spelled (.op .sub),
        ⟨.reg, "$b"⟩, .spelled (.op .mul), ⟨.reg, "$a"⟩, .spelled (.op .div), ⟨.reg, "$c"⟩] := by
      decide +kernel
    have hresult : (s.evaluate "$a - $b*$a / $c" 9 0).result
        = .error (.expr (.unknownRegister "a")) := by decide +kernel
    exact ((lookups_in_order s hlex 9 0).2.1 _ hresult).2 "a" counting rfl rfl

end Setting

end WordExpr
