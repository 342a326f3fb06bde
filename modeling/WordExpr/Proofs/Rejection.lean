/-
  WordExpr.Proofs.Rejection

  Which random expressions are thrown away. Whatever is drawn, a random expression is scanned
  into the lexemes of a canonical tree, and plain arithmetic finds its value, which is a word,
  or a division by zero, and nothing else (`Generator.reads_of_expression`). A case is therefore
  made of the first of the expressions drafted one after another (`Generator.Drafts`) that does
  not divide by zero, and there is none if the first thousand do.
-/
import WordExpr.Proofs.Drafting

namespace WordExpr

/-! ## Division by zero -/

/-- Division and remainder are the only operators without a value. -/
theorem BinOp.exists_onWords {op : BinOp} (hdiv : op ≠ .div) (hmod : op ≠ .mod) (w : Width)
    (a b : Nat) : ∃ v, op.onWords w a b = .ok v := by
  cases op with
  | div => exact absurd rfl hdiv
  | mod => exact absurd rfl hmod
  | _ => exact ⟨_, rfl⟩

/-- An expression without divisions and remainders has a value. -/
theorem Tree.exists_plainValue {t : Tree Token} (w : Width)
    (h : ∀ a ∈ t.tokens, ∀ op, a.kind = .op op → op ≠ .div ∧ op ≠ .mod) :
    ∃ v, t.plainValue w = .ok v := by
  induction t with
  | leaf a => exact ⟨_, rfl⟩
  | group t ih =>
    obtain ⟨-, hinside, -⟩ := forall_mem_tokens_group.mp h
    exact ih hinside
  | node op l r ihl ihr =>
    obtain ⟨hl, hop, hr⟩ := forall_mem_tokens_node.mp h
    obtain ⟨hdiv, hmod⟩ := hop op rfl
    obtain ⟨a, ha⟩ := ihl hl
    obtain ⟨b, hb⟩ := ihr hr
    obtain ⟨v, hv⟩ := BinOp.exists_onWords hdiv hmod w a b
    refine ⟨v, ?_⟩
    rw [plainValue_node, ha, hb]
    exact hv

namespace Climb

variable {w : Width} {text : String} {t : Tree Token}

/-- Plain arithmetic finds a division or a remainder by zero in the text. -/
def DividesByZero (bits : Int) (text : String) : Prop :=
  ∃ z, evaluate bits text = .error (.operator (.zeroDivisor z))

/-- A writing of a plain expression is scanned into the lexemes of a canonical tree. -/
theorem exists_lexemes_of_writes (hw : Writes text.toList t.tokens) (ht : t.IsExpression)
    (hplain : ∀ a ∈ t.tokens, a.isPlain = true) :
    ∃ u : Tree String, u.Canonical rank ∧ u.HasStrengths
      ∧ scan text = .ok u.lexemes.toArray := by
  refine ⟨t.map Token.text, ?_, hasStrengths_map_text hplain, ?_⟩
  · rw [rank_eq_looseness]
    exact (Tree.canonical_map _ _ t).mpr ht.1
  · rw [scan_of_writes hw t.apart_tokens hplain,
      Tree.map_lexeme_tokens fun a ha => (Tree.literal_leaves ht hplain a ha).2]

/-- A writing of a plain expression has a word for its value, or divides by zero. -/
theorem value_or_dividesByZero (hw : Writes text.toList t.tokens) (ht : t.IsExpression)
    (hplain : ∀ a ∈ t.tokens, a.isPlain = true) :
    (∃ v, v < 2 ^ w.size ∧ evaluate w.size text = .ok v) ∨ DividesByZero w.size text := by
  have hvalue := evaluate_of_writes (w := w) hw ht hplain
  cases hv : t.plainValue w with
  | ok v =>
    rw [hv] at hvalue
    exact .inl ⟨v, Tree.plainValue_lt hv, hvalue⟩
  | error z =>
    rw [hv] at hvalue
    exact .inr ⟨z, hvalue⟩

end Climb

open Climb

namespace Generator

variable {σ : Type} {source : Source σ} {g : Generator} {w : Width} {s s' s₁ s₂ : σ}
  {text : String} {v : Nat}

/-- A random expression is scanned into the lexemes of a canonical tree, and has a word for its
    value or divides by zero. -/
theorem reads_of_expression (hs : source.IsFair) (hbits : g.bits = w.size)
    (hops : ∀ op ∈ g.ops, (strength? op).isSome = true)
    (h : g.expression source s = .ok text s') :
    (∃ t : Tree String, t.Canonical rank ∧ t.HasStrengths ∧ scan text = .ok t.lexemes.toArray)
      ∧ ((∃ v, v < 2 ^ w.size ∧ evaluate w.size text = .ok v) ∨ DividesByZero w.size text) := by
  obtain ⟨u, hu, hwrites, -, hplain, -, -⟩ := exists_of_expression hs hops h
  have hw := hwrites (bits_le hbits)
  exact ⟨exists_lexemes_of_writes hw hu hplain, value_or_dividesByZero hw hu hplain⟩

/-- A random expression has a value if neither division nor remainder is in the pool. -/
theorem exists_value_of_expression (hs : source.IsFair) (hbits : g.bits = w.size)
    (hops : ∀ op ∈ g.ops, (strength? op).isSome = true) (hdiv : .div ∉ g.ops)
    (hmod : .mod ∉ g.ops) (h : g.expression source s = .ok text s') :
    ∃ v, evaluate w.size text = .ok v := by
  obtain ⟨u, hu, hwrites, -, hplain, -, hpool⟩ := exists_of_expression hs hops h
  have hw := hwrites (bits_le hbits)
  obtain ⟨v, hv⟩ := Tree.exists_plainValue w fun a ha op hop =>
    ⟨ne_of_mem_of_not_mem (hpool a ha op hop) hdiv, ne_of_mem_of_not_mem (hpool a ha op hop) hmod⟩
  refine ⟨v, ?_⟩
  rw [evaluate_of_writes hw hu hplain, hv]
  rfl

/-! ## Drafts that are thrown away -/

/-- Random expressions that are drafted one after another, from the first state to the second. -/
inductive Drafts (g : Generator) (source : Source σ) : σ → List String → σ → Prop
  | nil (s : σ) : Drafts g source s [] s
  | cons {s s₁ s₂ : σ} {text : String} {texts : List String} :
    g.expression source s = .ok text s₁ → Drafts g source s₁ texts s₂ →
    Drafts g source s (text :: texts) s₂

theorem caseWithin_of_value (h : g.expression source s = .ok text s₁)
    (hv : evaluate g.bits text = .ok v) (attempts : Nat) :
    g.caseWithin source (attempts + 1) s = .ok ⟨v, text⟩ s₁ := by
  rw [caseWithin]
  simp only [bind, EStateM.bind, h, hv]
  rfl

theorem caseWithin_of_dividesByZero (h : g.expression source s = .ok text s₁)
    (hzero : DividesByZero g.bits text) (attempts : Nat) :
    g.caseWithin source (attempts + 1) s = g.caseWithin source attempts s₁ := by
  obtain ⟨z, hz⟩ := hzero
  rw [caseWithin]
  simp only [bind, EStateM.bind, h, hz]

/-- Drafts that divide by zero use up as many attempts. -/
theorem caseWithin_of_drafts {texts : List String} (h : Drafts g source s texts s₁)
    (hzero : ∀ t ∈ texts, DividesByZero g.bits t) (attempts : Nat) :
    g.caseWithin source (texts.length + attempts) s = g.caseWithin source attempts s₁ := by
  induction h with
  | nil s => rw [List.length_nil, Nat.zero_add]
  | @cons s s₁ s₂ text texts htext _ ih =>
    obtain ⟨hhead, htail⟩ := List.forall_mem_cons.mp hzero
    rw [List.length_cons, Nat.add_right_comm, caseWithin_of_dividesByZero htext hhead, ih htail]

theorem generate_of_value {rejected : List String} (h : Drafts g source s rejected s₁)
    (hlength : rejected.length < maxAttempts) (hzero : ∀ t ∈ rejected, DividesByZero g.bits t)
    (htext : g.expression source s₁ = .ok text s₂) (hv : evaluate g.bits text = .ok v) :
    g.generate source s = .ok ⟨v, text⟩ s₂ := by
  obtain ⟨more, hmore⟩ := Nat.exists_eq_add_of_lt hlength
  rw [generate, hmore, Nat.add_assoc, caseWithin_of_drafts h hzero,
    caseWithin_of_value htext hv]

theorem generate_of_exhausted {texts : List String} (h : Drafts g source s texts s₁)
    (hlength : texts.length = maxAttempts) (hzero : ∀ t ∈ texts, DividesByZero g.bits t) :
    g.generate source s = .error .exhausted s₁ := by
  rw [generate, ← hlength]
  exact caseWithin_of_drafts h hzero 0

/-- Where a draft follows every few that divide by zero, one of the first so many drafts does
    not divide by zero, or all of them do. -/
theorem exists_drafts (bits : Int) (attempts : Nat)
    (h : ∀ rejected s₁, Drafts g source s rejected s₁ → rejected.length < attempts →
      (∀ t ∈ rejected, DividesByZero bits t) → ∃ text s₂, g.expression source s₁ = .ok text s₂) :
    (∃ rejected s₁ text s₂, Drafts g source s rejected s₁ ∧ rejected.length < attempts
        ∧ (∀ t ∈ rejected, DividesByZero bits t) ∧ g.expression source s₁ = .ok text s₂
        ∧ ¬ DividesByZero bits text)
      ∨ ∃ texts s₁, Drafts g source s texts s₁ ∧ texts.length = attempts
          ∧ ∀ t ∈ texts, DividesByZero bits t := by
  induction attempts generalizing s with
  | zero => exact .inr ⟨[], s, .nil s, rfl, List.forall_mem_nil _⟩
  | succ attempts ih =>
    obtain ⟨text, s₁, htext⟩ := h [] s (.nil s) (Nat.succ_pos attempts)
      (List.forall_mem_nil _)
    by_cases hzero : DividesByZero bits text
    · have hrest := ih (s := s₁) fun rejected s₂ hdrafts hlength hall =>
        h (text :: rejected) s₂ (.cons htext hdrafts) (Nat.succ_lt_succ hlength)
          (List.forall_mem_cons.mpr ⟨hzero, hall⟩)
      rcases hrest with ⟨rejected, s₂, next, s₃, hdrafts, hlength, hall, hnext, hvalue⟩
        | ⟨texts, s₂, hdrafts, hlength, hall⟩
      · exact .inl ⟨text :: rejected, s₂, next, s₃, .cons htext hdrafts,
          Nat.succ_lt_succ hlength, List.forall_mem_cons.mpr ⟨hzero, hall⟩, hnext, hvalue⟩
      · exact .inr ⟨text :: texts, s₂, .cons htext hdrafts, congrArg (· + 1) hlength,
          List.forall_mem_cons.mpr ⟨hzero, hall⟩⟩
    · exact .inl ⟨[], s, text, s₁, .nil s, Nat.succ_pos attempts,
        List.forall_mem_nil _, htext, hzero⟩

/-- Whatever is drawn, a random expression is scanned into the lexemes of a canonical tree and
    has a word for its value, unless it divides by zero. The case that is generated is that of
    the first of the drafts that does not divide by zero, if it is among the first thousand; if
    they all divide by zero, none is generated; and as long as drafts end, one of the two is what
    happens. Without division and remainder in the pool it is always the case of the first. -/
theorem generate_rejects_zero_divisions (w : Width) (maxLen : Int) (ops : List BinOp)
    (hops : ∀ op ∈ ops, (strength? op).isSome = true) (levels : Nat) (draws : Nat → Int) :
    let g : Generator := ⟨maxLen, ops, w.size, levels⟩
    let source := Source.ofSequence draws
    (∀ s text s', g.expression source s = .ok text s' →
      (∃ t : Tree String, t.Canonical rank ∧ t.HasStrengths ∧ scan text = .ok t.lexemes.toArray)
      ∧ ((∃ v, v < 2 ^ w.size ∧ evaluate w.size text = .ok v) ∨ DividesByZero w.size text))
    ∧ (∀ s rejected s₁ text s₂, Drafts g source s rejected s₁ → rejected.length < 1000 →
        (∀ t ∈ rejected, DividesByZero w.size t) → g.expression source s₁ = .ok text s₂ →
        ¬ DividesByZero w.size text →
        ∃ v : Nat, evaluate w.size text = .ok v ∧ g.generate source s = .ok ⟨v, text⟩ s₂)
    ∧ (∀ s texts s₁, Drafts g source s texts s₁ → texts.length = 1000 →
        (∀ t ∈ texts, DividesByZero w.size t) → g.generate source s = .error .exhausted s₁)
    ∧ (∀ s, (∀ rejected s₁, Drafts g source s rejected s₁ → rejected.length < 1000 →
          (∀ t ∈ rejected, DividesByZero w.size t) →
          ∃ text s₂, g.expression source s₁ = .ok text s₂) →
        (∃ rejected s₁ text s₂, Drafts g source s rejected s₁ ∧ rejected.length < 1000
          ∧ (∀ t ∈ rejected, DividesByZero w.size t) ∧ g.expression source s₁ = .ok text s₂
          ∧ ¬ DividesByZero w.size text)
        ∨ ∃ texts s₁, Drafts g source s texts s₁ ∧ texts.length = 1000
          ∧ ∀ t ∈ texts, DividesByZero w.size t)
    ∧ (.div ∉ ops → .mod ∉ ops → ∀ s text s', g.expression source s = .ok text s' →
        ∃ v : Nat, evaluate w.size text = .ok v ∧ g.generate source s = .ok ⟨v, text⟩ s') := by
  intro g source
  have hs : source.IsFair := Source.isFair_ofSequence draws
  have hreads {s s' : Nat} {text : String} (h : g.expression source s = .ok text s') :=
    reads_of_expression (w := w) hs rfl hops h
  refine ⟨fun s text s' h => hreads h, ?_, ?_, ?_, ?_⟩
  · intro s rejected s₁ text s₂ hdrafts hlength hzero htext hvalue
    obtain ⟨v, -, hv⟩ := (hreads htext).2.resolve_right hvalue
    exact ⟨v, hv, generate_of_value hdrafts hlength hzero htext hv⟩
  · intro s texts s₁ hdrafts hlength hzero
    exact generate_of_exhausted hdrafts hlength hzero
  · intro s h
    exact exists_drafts w.size 1000 h
  · intro hdiv hmod s text s' h
    obtain ⟨v, hv⟩ := exists_value_of_expression (w := w) hs rfl hops hdiv hmod h
    exact ⟨v, hv, generate_of_value (.nil s) (by decide)
      (List.forall_mem_nil _) h hv⟩

/-- From the numbers 2, 0, 1, 0, 0 and 0 the quotient `1u / 0u` is drafted and thrown away, and
    from two more zeros `0u`; from 2, 0, 7, 0, 0 and 5 the sum `7u + 5u`, which stays. -/
theorem generate_after_division_by_zero :
    let g : Generator := ⟨100, [.div], Width.w32.size, 3⟩
    let source := Source.ofSequence fun k => [2, 0, 1, 0, 0, 0].getD k 0
    let sums : Generator := ⟨100, [.add], Width.w32.size, 3⟩
    g.generate source 0 = .ok ⟨0, "0u"⟩ 8
    ∧ (∃ t : Tree String, t.Canonical rank ∧ t.HasStrengths
        ∧ scan "1u / 0u" = .ok t.lexemes.toArray)
    ∧ ((∃ c s, g.generate source 0 = .ok c s) ∨ ∃ s, g.generate source 0 = .error .exhausted s)
    ∧ ∃ v : Nat, sums.generate (.ofSequence fun k => [2, 0, 7, 0, 0, 5].getD k 0) 0
        = .ok ⟨v, "7u + 5u"⟩ 6 := by
  have hfirst : (Generator.mk 100 [.div] Width.w32.size 3).expression
      (.ofSequence fun k => [2, 0, 1, 0, 0, 0].getD k 0) 0 = .ok "1u / 0u" 6 := by rfl
  have hnext : (Generator.mk 100 [.div] Width.w32.size 3).expression
      (.ofSequence fun k => [2, 0, 1, 0, 0, 0].getD k 0) 6 = .ok "0u" 8 := by rfl
  have hsum : (Generator.mk 100 [.add] Width.w32.size 3).expression
      (.ofSequence fun k => [2, 0, 7, 0, 0, 5].getD k 0) 0 = .ok "7u + 5u" 6 := by rfl
  intro g source sums
  have hquotient : DividesByZero Width.w32.size "1u / 0u" := by
    have hw := Lexer.writes_of_tokenize (show Lexer.tokenize "1u / 0u" 3
      = .ok #[⟨.dec, "1u"⟩, .spelled (.op .div), ⟨.dec, "0u"⟩] by decide +kernel)
    have hvalue := evaluate_of_writes (w := .w32)
      (t := .node .div (.leaf ⟨.dec, "1u"⟩) (.leaf ⟨.dec, "0u"⟩)) hw (by decide) (by decide)
    exact ⟨.quotient, hvalue⟩
  have hzero : evaluate Width.w32.size "0u" = .ok 0 := by
    have hw := Lexer.writes_of_tokenize (show Lexer.tokenize "0u" 1
      = .ok #[⟨.dec, "0u"⟩] by decide +kernel)
    exact evaluate_of_writes (t := .leaf ⟨.dec, "0u"⟩) hw (by decide) (by decide)
  have hstays : ¬ DividesByZero Width.w32.size "0u" := by
    rintro ⟨z, hz⟩
    rw [hzero] at hz
    cases hz
  have hdrafts : Drafts g source 0 ["1u / 0u"] 6 := .cons hfirst (.nil 6)
  obtain ⟨hreads, hvalue, hexhausted, hcases, -⟩ := generate_rejects_zero_divisions .w32 100 [.div]
    (by decide) 3 fun k => [2, 0, 1, 0, 0, 0].getD k 0
  obtain ⟨-, -, -, -, hsums⟩ := generate_rejects_zero_divisions .w32 100 [.add]
    (by decide) 3 fun k => [2, 0, 7, 0, 0, 5].getD k 0
  refine ⟨?_, (hreads 0 "1u / 0u" 6 hfirst).1, ?_, ?_⟩
  · obtain ⟨v, hv, hgenerate⟩ := hvalue 0 ["1u / 0u"] 6 "0u" 8 hdrafts (by decide)
      (List.forall_mem_singleton.mpr hquotient) hnext hstays
    rw [hzero] at hv
    cases hv
    exact hgenerate
  · have hends : ∀ rejected s₁, Drafts g source 0 rejected s₁ → rejected.length < 1000 →
        (∀ t ∈ rejected, DividesByZero Width.w32.size t) →
        ∃ text s₂, g.expression source s₁ = .ok text s₂ := by
      intro rejected s₁ h _ hall
      cases h with
      | nil => exact ⟨_, _, hfirst⟩
      | cons htext h =>
        cases hfirst.symm.trans htext
        cases h with
        | nil => exact ⟨_, _, hnext⟩
        | cons htext h =>
          cases hnext.symm.trans htext
          exact absurd (hall "0u" (by simp)) hstays
    rcases hcases 0 hends with ⟨rejected, s₁, text, s₂, h, hlength, hall, htext, hnot⟩
      | ⟨texts, s₁, h, hlength, hall⟩
    · obtain ⟨v, -, hgenerate⟩ := hvalue 0 rejected s₁ text s₂ h hlength hall htext hnot
      exact .inl ⟨_, _, hgenerate⟩
    · exact .inr ⟨_, hexhausted 0 texts s₁ h hlength hall⟩
  · obtain ⟨v, -, hgenerate⟩ := hsums (by decide) (by decide) 0 "7u + 5u" 6 hsum
    exact ⟨v, hgenerate⟩

end Generator

end WordExpr
