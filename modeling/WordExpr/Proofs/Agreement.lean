/-
  WordExpr.Proofs.Agreement

  The two ways to a value agree, text by text. Where a text has a value by evaluation,
  without registers and without logical operators, plain arithmetic gives it the same value;
  where plain arithmetic gives a text a value and both split it into the same lexemes,
  evaluation gives that value, unless its limit of nesting is too low; and on an expression
  within the limit both report a division by zero, or neither does.

  All three come from one correspondence, `Climb.evaluate_of_writes`: a text that is a
  writing of a plain expression has that expression's value as plain arithmetic. The same
  value is the expression's meaning in every evaluation.
-/
import WordExpr.Proofs.Grammar
import WordExpr.Proofs.PlainValue
import WordExpr.Eval.Text

namespace WordExpr

open Lexer

/-! ## What is written in a text -/

theorem Writes.infix_of_mem {cs : List Char} {ts : List Token} {a : Token} (h : Writes cs ts)
    (ha : a ∈ ts) : a.text.toList <:+: cs := by
  induction h with
  | nil => exact absurd ha List.not_mem_nil
  | @blank c cs ts _ _ ih => exact (ih ha).trans ⟨[c], [], List.append_nil _⟩
  | @token t cs ts _ _ ih =>
    rcases List.mem_cons.mp ha with rfl | ha
    · exact ⟨[], cs, rfl⟩
    · exact (ih ha).trans ⟨t.text.toList, [], List.append_nil _⟩

namespace Tree

variable {w : Width} {t : Tree Token}

/-- Where nothing is known of registers, an expression with a meaning has none. -/
theorem kind_ne_reg_of_meaning {v : Nat} (h : t.meaning w (knownBy none) = .ok v) :
    ∀ a ∈ t.tokens, a.kind ≠ .reg := by
  induction t generalizing v with
  | leaf a =>
    intro b hb hk
    rw [tokens_leaf, List.mem_singleton] at hb
    subst hb
    rw [meaning_leaf, Token.meaning, hk] at h
    cases h
  | group t ih =>
    refine forall_mem_tokens_group.mpr ⟨?_, ih h, ?_⟩
    · decide
    · decide
  | node op l r ihl ihr =>
    obtain ⟨x, y, hx, hy⟩ := exists_meaning_of_node h
    refine forall_mem_tokens_node.mpr ⟨ihl hx, ?_, ihr hy⟩
    intro hk
    cases hk

theorem plainValue_eq_ok_iff {known : String → Option Int}
    (hplain : ∀ a ∈ t.tokens, a.isPlain = true) {v : Nat} :
    t.meaning w known = .ok v ↔ t.plainValue w = .ok v := by
  rw [meaning_of_isPlain hplain, mapError_eq_ok_iff]

end Tree

namespace Climb

variable {w : Width} {text : String} {t : Tree Token}

/-- A writing of a plain expression has the value of the expression as plain arithmetic. -/
theorem evaluate_of_writes (hw : Writes text.toList t.tokens) (ht : t.IsExpression)
    (hplain : ∀ a ∈ t.tokens, a.isPlain = true) :
    evaluate w.size text = (t.plainValue w).mapError ofZeroDivisor := by
  rw [evaluate, scan_of_writes hw t.apart_tokens hplain]
  exact valueOf_tokens ht hw.lexable hplain

/-- Lexemes with the texts of tokens are the lexemes of these tokens. -/
theorem map_lexeme_eq {ts : List Token} {ls : List Lexeme} (hts : ∀ a ∈ ts, a.Lexable)
    (hls : ∀ l ∈ ls, l.IsScanned) (h : ts.map Token.text = ls.map Lexeme.text) :
    ts.map Token.lexeme = ls ∧ ∀ a ∈ ts, a.isPlain = true := by
  induction ts generalizing ls with
  | nil =>
    rw [List.map_nil, eq_comm, List.map_eq_nil_iff] at h
    rw [h]
    exact ⟨rfl, fun a ha => absurd ha List.not_mem_nil⟩
  | cons a ts ih =>
    rw [List.map_cons, eq_comm] at h
    obtain ⟨l, ls', rfl, hl, hrest⟩ := List.map_eq_cons_iff.mp h
    obtain ⟨ha, hts'⟩ := List.forall_mem_cons.mp hts
    obtain ⟨hl', hls'⟩ := List.forall_mem_cons.mp hls
    obtain ⟨hplain, hlexeme⟩ := ha.lexeme_eq hl' hl.symm
    obtain ⟨hmap, hplains⟩ := ih hts' hls' hrest.symm
    rw [List.map_cons, hlexeme, hmap]
    exact ⟨rfl, List.forall_mem_cons.mpr ⟨hplain, hplains⟩⟩

/-- Where lexing and scanning split a text alike, plain arithmetic has the value of what was
    lexed. -/
theorem evaluate_of_same_texts {max : Int} {ts : Array Token} {ls : Array Lexeme}
    (hlex : tokenize text max = .ok ts) (hscan : scan text = .ok ls)
    (htexts : ts.toList.map Token.text = ls.toList.map Lexeme.text) :
    (∀ a ∈ ts.toList, a.Lexable) ∧ (∀ a ∈ ts.toList, a.isPlain = true)
      ∧ evaluate w.size text = valueOf w.size (ts.toList.map Token.lexeme) := by
  have hlexable := (writes_of_tokenize hlex).lexable
  have hscanned : ∀ l ∈ ls.toList, l.IsScanned :=
    fun l hl => isScanned_of_scan hscan l (Array.mem_def.mpr hl)
  obtain ⟨hmap, hplain⟩ := map_lexeme_eq hlexable hscanned htexts
  refine ⟨hlexable, hplain, ?_⟩
  rw [evaluate, hscan, hmap]

end Climb

namespace Setting

variable {w : Width} {maxDepth maxTokens : Int} {text : String} {ts : Array Token}
  {resolver : Option (String → Option Int)}

section Evaluate

variable {σ : Type} {s : Setting σ} {state : σ}

/-- A text that is not split into tokens is not evaluated. -/
theorem evaluate_of_lexError {e : LexError} (h : tokenize text maxTokens = .error e) :
    s.evaluate text maxTokens state
      = ⟨lex text maxTokens, .start state, .error (.expr (.lex e))⟩ := by
  have hlex : (lex text maxTokens).result = .error e := h
  simp only [evaluate, hlex]

theorem evaluate_of_ok {v : Nat} {last : Session σ} (h : tokenize text maxTokens = .ok ts)
    (hrun : s.evalTokens ts (.start state) = .ok v last) :
    s.evaluate text maxTokens state = ⟨lex text maxTokens, last, .ok v⟩ := by
  have hlex : (lex text maxTokens).result = .ok ts := h
  simp only [evaluate, hlex, hrun]

theorem evaluate_of_error {e : EvalError} {last : Session σ}
    (h : tokenize text maxTokens = .ok ts)
    (hrun : s.evalTokens ts (.start state) = .error e last) :
    s.evaluate text maxTokens state = ⟨lex text maxTokens, last, .error e⟩ := by
  have hlex : (lex text maxTokens).result = .ok ts := h
  simp only [evaluate, hlex, hrun]

theorem evaluate_result (s : Setting σ) (text : String) (maxTokens : Int) (state : σ) :
    (s.evaluate text maxTokens state).result
      = match tokenize text maxTokens with
        | .error e => .error (.expr (.lex e))
        | .ok ts => (s.evalTokens ts).result (.start state) := by
  cases hlex : tokenize text maxTokens with
  | error e => rw [evaluate_of_lexError hlex]
  | ok ts =>
    simp only [EvalM.result]
    cases hrun : s.evalTokens ts (.start state) with
    | ok v last => rw [evaluate_of_ok hlex hrun]
    | error e last => rw [evaluate_of_error hlex hrun]

end Evaluate

theorem valueOf_of_tokenize {s : Setting Unit} (h : tokenize text maxTokens = .ok ts) :
    s.valueOf text maxTokens = (s.evalTokens ts).result (.start ()) := by
  rw [valueOf, evaluate_result, h]

/-- The value of a text whose tokens are those of an expression within the limit. -/
theorem valueOf_of_tokens {t : Tree Token} (h : tokenize text maxTokens = .ok ts)
    (ht : t.IsExpression) (htokens : t.tokens = ts.toList)
    (hdeep : (t.nesting : Int) ≤ maxDepth) :
    (stateless w maxDepth resolver).valueOf text maxTokens
      = (t.meaning w (knownBy resolver)).mapError .expr := by
  rw [valueOf_of_tokenize h]
  exact (yields_evalTokens (lexable_of_tokenize h) ht htokens hdeep).result_eq _

/-- Where the tokens of a text are those of an expression with a meaning that nests deeper than
    the limit, the limit is reported. -/
theorem valueOf_of_tooDeep {t : Tree Token} {v : Nat} (h : tokenize text maxTokens = .ok ts)
    (ht : t.IsExpression) (htokens : t.tokens = ts.toList) (hdeep : maxDepth < (t.nesting : Int))
    (hv : t.meaning w (knownBy resolver) = .ok v) :
    (stateless w maxDepth resolver).valueOf text maxTokens
      = .error (.expr (.nestingTooDeep maxDepth)) := by
  rw [valueOf_of_tokenize h]
  exact (yields_evalTokens_of_tooDeep (lexable_of_tokenize h) ht htokens hdeep hv).result_eq _

/-- A text with a value has the tokens of an expression within the limit, and the value is its
    meaning. -/
theorem exists_expression_of_valueOf {v : Nat}
    (h : (stateless w maxDepth resolver).valueOf text maxTokens = .ok v) :
    ∃ ts, tokenize text maxTokens = .ok ts ∧ ∃ t : Tree Token, t.IsExpression
      ∧ t.tokens = ts.toList ∧ (t.nesting : Int) ≤ maxDepth
      ∧ t.meaning w (knownBy resolver) = .ok v := by
  cases hlex : tokenize text maxTokens with
  | error e =>
    rw [valueOf, evaluate_result, hlex] at h
    cases h
  | ok ts =>
    rw [valueOf_of_tokenize hlex] at h
    exact ⟨ts, rfl, exists_expression_of_evalTokens (lexable_of_tokenize hlex) h⟩

theorem evaluate_of_valueOf {v : Nat}
    (h : (stateless w maxDepth none).valueOf text maxTokens = .ok v)
    (hand : ¬ ['&', '&'] <:+: text.toList) (hor : ¬ ['|', '|'] <:+: text.toList) :
    Climb.evaluate w.size text = .ok v := by
  obtain ⟨ts, hlex, t, ht, htokens, -, hv⟩ := exists_expression_of_valueOf h
  have hw := writes_of_tokenize hlex
  rw [← htokens] at hw
  -- The text has no logical operators, and registers would have no values.
  have hplain : ∀ a ∈ t.tokens, a.isPlain = true := by
    intro a ha
    have hreg := Tree.kind_ne_reg_of_meaning hv a ha
    have hinfix := hw.infix_of_mem ha
    cases hk : a.kind with
    | reg => exact absurd hk hreg
    | op o =>
      have ha_eq := (hw.lexable a ha).eq_spelled (by rw [hk]; rfl)
      rw [ha_eq, hk] at hinfix
      rw [Token.isPlain, hk]
      cases o with
      | and => exact absurd hinfix hand
      | or => exact absurd hinfix hor
      | _ => rfl
    | _ => rw [Token.isPlain, hk]
  rw [Climb.evaluate_of_writes hw ht hplain, (Tree.plainValue_eq_ok_iff hplain).mp hv]
  rfl

theorem valueOf_of_evaluate {ls : Array Climb.Lexeme} {v : Nat}
    (h : Climb.evaluate w.size text = .ok v) (hlex : tokenize text maxTokens = .ok ts)
    (hscan : Climb.scan text = .ok ls)
    (htexts : ts.toList.map Token.text = ls.toList.map Climb.Lexeme.text) :
    (stateless w maxDepth none).valueOf text maxTokens = .ok v
      ∨ (stateless w maxDepth none).valueOf text maxTokens
        = .error (.expr (.nestingTooDeep maxDepth)) := by
  obtain ⟨hlexable, hplain, hvalue⟩ := Climb.evaluate_of_same_texts (w := w) hlex hscan htexts
  rw [hvalue] at h
  obtain ⟨t, ht, htokens⟩ := Climb.exists_expression_of_valueOf hlexable h
  rw [← htokens] at hlexable hplain h
  -- The value that climbing read is the meaning of the expression.
  have hv : t.meaning w (knownBy none) = .ok v := by
    rw [Tree.plainValue_eq_ok_iff hplain, ← mapError_eq_ok_iff,
      ← Climb.valueOf_tokens ht hlexable hplain]
    exact h
  by_cases hdeep : (t.nesting : Int) ≤ maxDepth
  · rw [valueOf_of_tokens hlex ht htokens hdeep, hv]
    exact .inl rfl
  · exact .inr (valueOf_of_tooDeep hlex ht htokens (Int.not_le.mp hdeep) hv)

theorem zeroDivisor_iff_evaluate {ls : Array Climb.Lexeme} {t : Tree Token}
    (hlex : tokenize text maxTokens = .ok ts) (hscan : Climb.scan text = .ok ls)
    (htexts : ts.toList.map Token.text = ls.toList.map Climb.Lexeme.text)
    (ht : t.IsExpression) (htokens : t.tokens = ts.toList)
    (hdeep : (t.nesting : Int) ≤ maxDepth) (z : ZeroDivisor) :
    (stateless w maxDepth none).valueOf text maxTokens = .error (.expr (.zeroDivisor z))
      ↔ Climb.evaluate w.size text = .error (.operator (.zeroDivisor z)) := by
  obtain ⟨hlexable, hplain, hvalue⟩ := Climb.evaluate_of_same_texts (w := w) hlex hscan htexts
  rw [← htokens] at hlexable hplain hvalue
  rw [hvalue, Climb.valueOf_tokens ht hlexable hplain, valueOf_of_tokens hlex ht htokens hdeep,
    Tree.meaning_of_isPlain hplain]
  cases t.plainValue w with
  | error z' =>
    constructor
    · intro h
      cases h
      rfl
    · intro h
      cases h
      rfl
  | ok v => exact ⟨nofun, nofun⟩

/-! ## Agreement -/

/-- The two ways to a value agree. A value found by evaluation without registers is the value
    by plain arithmetic, if the text has no logical operator. Where both split a text into the
    same lexemes, a value by plain arithmetic is the value by evaluation, or the limit of
    nesting is too low; and if the lexemes are those of an expression within the limit, both
    fail by the same division by zero, in the same words, or neither does. -/
theorem evaluation_agrees_with_climbing (w : Width) (maxDepth maxTokens : Int) (text : String) :
    (∀ v, (stateless w maxDepth none).valueOf text maxTokens = .ok v →
      ¬ ['&', '&'] <:+: text.toList → ¬ ['|', '|'] <:+: text.toList →
      Climb.evaluate w.size text = .ok v)
    ∧ (∀ (ts : Array Token) (ls : Array Climb.Lexeme), tokenize text maxTokens = .ok ts →
        Climb.scan text = .ok ls →
        ts.toList.map Token.text = ls.toList.map Climb.Lexeme.text →
        (∀ v, Climb.evaluate w.size text = .ok v →
          (stateless w maxDepth none).valueOf text maxTokens = .ok v
            ∨ (stateless w maxDepth none).valueOf text maxTokens
              = .error (.expr (.nestingTooDeep maxDepth)))
        ∧ (∀ t : Tree Token, t.IsExpression → t.tokens = ts.toList →
            (t.nesting : Int) ≤ maxDepth → ∀ z,
            ((stateless w maxDepth none).valueOf text maxTokens
                = .error (.expr (.zeroDivisor z))
              ↔ Climb.evaluate w.size text = .error (.operator (.zeroDivisor z)))))
    ∧ (∀ z, (EvalError.expr (.zeroDivisor z)).message = z.message
        ∧ (Climb.Failure.operator (.zeroDivisor z)).message = z.message)
    ∧ ZeroDivisor.quotient.message = "division by zero"
    ∧ ZeroDivisor.remainder.message = "remainder by zero" := by
  refine ⟨fun v => evaluate_of_valueOf, fun ts ls hlex hscan htexts => ⟨fun v h => ?_, ?_⟩,
    fun z => ⟨rfl, rfl⟩, rfl, rfl⟩
  · exact valueOf_of_evaluate h hlex hscan htexts
  · intro t ht htokens hdeep z
    exact zeroDivisor_iff_evaluate hlex hscan htexts ht htokens hdeep z

/-- `7 % (0x3 - 1)` has its value by both ways, and `4/0u` fails by both. -/
theorem agreement_on_remainder_and_quotient :
    (stateless .w32 3 none).valueOf "7 % (0x3 - 1)" 10 = .ok 1
    ∧ Climb.evaluate Width.w32.size "7 % (0x3 - 1)" = .ok 1
    ∧ ((stateless .w32 2 none).valueOf "7 % (0x3 - 1)" 10 = .ok 1
      ∨ (stateless .w32 2 none).valueOf "7 % (0x3 - 1)" 10 = .error (.expr (.nestingTooDeep 2)))
    ∧ Climb.evaluate Width.w32.size "4/0u" = .error (.operator (.zeroDivisor .quotient)) := by
  have hvalue : (stateless .w32 3 none).valueOf "7 % (0x3 - 1)" 10 = .ok 1 := by
    decide +kernel
  have hclimb := (evaluation_agrees_with_climbing .w32 3 10 "7 % (0x3 - 1)").1 1 hvalue
    (by decide +kernel) (by decide +kernel)
  refine ⟨hvalue, hclimb, ?_, ?_⟩
  · exact ((evaluation_agrees_with_climbing .w32 2 10 "7 % (0x3 - 1)").2.1
      #[⟨.dec, "7"⟩, .spelled (.op .mod), .spelled .lparen, ⟨.hex, "0x3"⟩, .spelled (.op .sub),
        ⟨.dec, "1"⟩, .spelled .rparen]
      #[.numeral "7", .op .mod, .lparen, .numeral "0x3", .op .sub, .numeral "1", .rparen]
      (by decide +kernel) (by decide +kernel) (by decide)).1 1 hclimb
  · refine (((evaluation_agrees_with_climbing .w32 1 3 "4/0u").2.1
      #[⟨.dec, "4"⟩, .spelled (.op .div), ⟨.dec, "0u"⟩]
      #[.numeral "4", .op .div, .numeral "0u"]
      (by decide +kernel) (by decide +kernel) (by decide)).2
      (.node .div (.leaf ⟨.dec, "4"⟩) (.leaf ⟨.dec, "0u"⟩)) (by decide) rfl (by decide)
      .quotient).mp ?_
    decide +kernel

end Setting

end WordExpr
