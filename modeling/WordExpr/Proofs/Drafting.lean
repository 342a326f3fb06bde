/-
  WordExpr.Proofs.Drafting

  What the generator drafts. Every draft is the text of a tree: a literal, brackets
  around a drafted tree, or two drafted trees with an operator of the pool between them
  (`Drafted`, one lemma for each kind). It spells no tokens but those of the tree, and it
  spells these unless a literal is too long to be lexed. A tree that is drafted need not be
  an expression, as `1u + 2u * 3u` may be drafted from a sum, but it is written like one.

  Brackets open only as long as the draft is within the threshold, and a draft has three
  characters for each of its operators and brackets, which bounds how deep the expression
  nests that is written like it.

  A case that is generated is therefore the true case of an expression (`Case.IsTrue`).
-/
import WordExpr.Proofs.Agreement
import WordExpr.Proofs.Extension
import WordExpr.Proofs.Regrouping

namespace WordExpr

/-! ## Pieces of a draft -/

/-- The token of a number's literal as the generator writes it. -/
def Token.ofNat (value : Nat) : Token := ⟨.dec, toString value ++ "u"⟩

theorem Token.lexable_ofNat {value : Nat} (h : value < 2 ^ 64) : (Token.ofNat value).Lexable := by
  have htext : toString value ++ "u" = String.ofList (Nat.toDigits 10 value ++ ['u']) := by
    rw [Nat.toString_eq_ofList_toDigits, String.ofList_append]
  rw [ofNat, htext]
  exact lexable_toDigits h (.inr rfl)

theorem Token.ofNat_eq {t : Token} {value : Nat} (hkind : t.kind = .dec)
    (htext : t.text.toList = (toString value ++ "u").toList) : t = ofNat value := by
  obtain ⟨kind, text⟩ := t
  obtain rfl : kind = .dec := hkind
  obtain rfl : text = toString value ++ "u" := String.toList_inj.mp htext
  rfl

/-- A text that starts with a number's literal is spelled only if the literal is short enough. -/
theorem Spells.exists_of_literal {value : Nat} {rest : List Char} {ts : List Token}
    (h : Spells ((toString value ++ "u").toList ++ rest) ts) :
    ∃ us, ts = .ofNat value :: us ∧ (Token.ofNat value).Lexable ∧ Spells rest us := by
  have htext : (toString value ++ "u").toList = Nat.toDigits 10 value ++ ['u'] := by
    rw [Nat.toString_eq_ofList_toDigits, String.toList_append, String.toList_ofList]
    rfl
  rw [htext] at h
  have hdigits : ∀ c ∈ Nat.toDigits 10 value, Lexer.isDigit c = true :=
    fun c hc => Numeral.isDigit_of_mem_toDigits hc
  have hne : Nat.toDigits 10 value ++ ['u'] ≠ [] :=
    List.append_ne_nil_of_left_ne_nil Nat.toDigits_ne_nil _
  obtain ⟨i, hhit⟩ := Lexer.firstHit?_of_digits Nat.toDigits_ne_nil hdigits rest
  obtain ⟨t, us, rfl, hkind, hwritten, ht, hrest⟩ :=
    Lexer.exists_of_firstHit? (k := .dec) hne h hhit
  obtain rfl : t = .ofNat value := Token.ofNat_eq hkind (hwritten.trans htext.symm)
  exact ⟨us, rfl, ht, hrest⟩

/-- Operators and brackets are drafted with a blank on either side. -/
theorem Writes.spaced {k : TokenKind} (hk : k.isOperand = false) :
    Writes (" " ++ k.spelling ++ " ").toList [.spelled k] := by
  have hafter : Writes (k.spelling.toList ++ [' ']) [.spelled k] :=
    Writes.token (.spelled hk) (.blank (by decide) .nil)
  have hboth : Writes (' ' :: (k.spelling.toList ++ [' '])) [.spelled k] :=
    .blank (by decide) hafter
  rw [String.toList_append, String.toList_append]
  exact hboth

/-- A text that starts with an operator or bracket between blanks spells it first. -/
theorem Spells.exists_of_spaced {k : TokenKind} (hk : k.isOperand = false) {rest : List Char}
    {ts : List Token} (h : Spells ((" " ++ k.spelling ++ " ").toList ++ rest) ts) :
    ∃ us, ts = .spelled k :: us ∧ Spells rest us := by
  have hblank : Lexer.isSeparator ' ' = true := by decide
  rw [String.toList_append, String.toList_append, List.append_assoc, List.append_assoc] at h
  have hafter : Spells (k.spelling.toList ++ (' ' :: rest)) ts := h.of_blank hblank
  have hlexable : (Token.spelled k).Lexable := .spelled hk
  have hend : ∀ c ∈ (' ' :: rest).head?, c ∈ boundaries := by
    rintro c hc
    cases hc
    exact mem_boundaries_of_isSeparator hblank
  obtain ⟨i, hhit⟩ := Lexer.firstHit?_of_takes hlexable
    (Lexer.takes_ruleOf hlexable fun _ => hend) fun c hc => ne_x_of_mem_boundaries (hend c hc)
  obtain ⟨t, us, rfl, hkind, -, ht, hrest⟩ :=
    Lexer.exists_of_firstHit? (k := k) hlexable.toList_ne_nil hafter hhit
  obtain rfl : t = .spelled k := by
    rw [ht.eq_spelled (by rw [hkind, hk]), hkind]
  exact ⟨us, rfl, hrest.of_blank hblank⟩

/-- The operators and brackets of a draft stand between blanks. -/
theorem three_le_length_spaced (op : BinOp) : 3 ≤ (" " ++ op.spelling ++ " ").length := by
  cases op <;> decide

/-- A text of a tree of operands is drafted behind `start` characters if its brackets open
    within the limit and if it has no token that plain arithmetic lacks. The text is a writing
    of the tree if the operands are short enough, and it spells nothing else. -/
structure Drafted (limit : Int) (start : Nat) (piece : String) (t : Tree Token) : Prop where
  writes : (∀ a ∈ t.leaves, a.Lexable) → Writes piece.toList t.tokens
  spelled (rest : List Char) (ts : List Token) : Spells (piece.toList ++ rest) ts →
    ∃ us, ts = t.tokens ++ us ∧ Spells rest us
  operands : ∀ a ∈ t.leaves, a.kind.isOperand = true
  plain : ∀ a ∈ t.tokens, a.isPlain = true
  room : roomOf t.tokens ≤ piece.length
  opens : OpensWithin limit start t.tokens

namespace Drafted

variable {limit : Int} {start : Nat} {p q : String} {t l r : Tree Token}

theorem literal (value : Nat) (limit : Int) (start : Nat) :
    Drafted limit start (toString value ++ "u") (.leaf (.ofNat value)) where
  writes := by
    intro hleaves
    have hlexable : (Token.ofNat value).Lexable := List.forall_mem_singleton.mp hleaves
    have hw := Writes.of_token hlexable
    exact hw
  spelled := by
    intro rest ts h
    obtain ⟨us, rfl, -, hrest⟩ := h.exists_of_literal
    exact ⟨us, rfl, hrest⟩
  operands := List.forall_mem_singleton.mpr rfl
  plain := List.forall_mem_singleton.mpr rfl
  room := Nat.zero_le _
  opens := ⟨nofun, trivial⟩

theorem bracketed (hstart : (start : Int) ≤ limit)
    (h : Drafted limit (start + " ( ".length) p t) :
    Drafted limit start (" ( " ++ p ++ " ) ") (.group t) where
  writes := by
    intro hleaves
    have hopen : Writes " ( ".toList [.spelled .lparen] := Writes.spaced (k := .lparen) rfl
    have hclose : Writes " ) ".toList [.spelled .rparen] := Writes.spaced (k := .rparen) rfl
    have hw := hopen.append ((h.writes hleaves).append hclose)
    rw [String.toList_append, String.toList_append, List.append_assoc]
    exact hw
  spelled := by
    intro rest ts hs
    rw [String.toList_append, String.toList_append, List.append_assoc, List.append_assoc] at hs
    obtain ⟨us, rfl, hinside⟩ := Spells.exists_of_spaced (k := .lparen) rfl hs
    obtain ⟨us, rfl, hclose⟩ := h.spelled _ _ hinside
    obtain ⟨us, rfl, hrest⟩ := Spells.exists_of_spaced (k := .rparen) rfl hclose
    refine ⟨us, ?_, hrest⟩
    rw [Tree.tokens_group, List.cons_append, List.append_assoc]
    rfl
  operands := h.operands
  plain := Tree.forall_mem_tokens_group.mpr ⟨rfl, h.plain, rfl⟩
  room := by
    have hroom := h.room
    rw [Tree.tokens_group, roomOf_spelled_cons rfl, roomOf_append, String.length_append,
      String.length_append]
    show roomOf t.tokens + 3 + 3 ≤ 3 + p.length + 3
    omega
  opens := by
    rw [Tree.tokens_group]
    exact ⟨fun _ => hstart, OpensWithin.append.mpr ⟨h.opens, nofun, trivial⟩⟩

theorem joined {op : BinOp} (hop : (Climb.strength? op).isSome = true)
    (hl : Drafted limit start p l)
    (hr : Drafted limit (start + p.length + (" " ++ op.spelling ++ " ").length) q r) :
    Drafted limit start (p ++ (" " ++ op.spelling ++ " ") ++ q) (.node op l r) where
  writes := by
    intro hleaves
    obtain ⟨hleft, hright⟩ := List.forall_mem_append.mp hleaves
    have hmiddle : Writes (" " ++ op.spelling ++ " ").toList [.spelled (.op op)] :=
      Writes.spaced (k := .op op) rfl
    have hw := (hl.writes hleft).append (hmiddle.append (hr.writes hright))
    rw [String.toList_append, String.toList_append, List.append_assoc]
    exact hw
  spelled := by
    intro rest ts hs
    rw [String.toList_append, String.toList_append, List.append_assoc, List.append_assoc] at hs
    obtain ⟨us, rfl, hmiddle⟩ := hl.spelled _ _ hs
    obtain ⟨us, rfl, hright⟩ := Spells.exists_of_spaced (k := .op op) rfl hmiddle
    obtain ⟨us, rfl, hrest⟩ := hr.spelled _ _ hright
    refine ⟨us, ?_, hrest⟩
    rw [Tree.tokens_node, List.append_assoc]
    rfl
  operands := List.forall_mem_append.mpr ⟨hl.operands, hr.operands⟩
  plain := Tree.forall_mem_tokens_node.mpr ⟨hl.plain, hop, hr.plain⟩
  room := by
    have hroom := hl.room
    have hroom' := hr.room
    have hmiddle := three_le_length_spaced op
    rw [Tree.tokens_node, roomOf_append, roomOf_spelled_cons rfl, String.length_append,
      String.length_append]
    omega
  opens := by
    -- The right operand is drafted no earlier than its room tells.
    have hroom := hl.room
    have hmiddle := three_le_length_spaced op
    rw [Tree.tokens_node]
    refine OpensWithin.append.mpr ⟨hl.opens, nofun, hr.opens.mono ?_ (Int.le_refl _)⟩
    show start + roomOf l.tokens + 3 ≤ _
    omega

/-- What is drafted from the start is written like an expression, and the place of its last
    opening bracket bounds how deep that expression nests. -/
theorem exists_expression (h : Drafted limit 0 p t) :
    ∃ u : Tree Token, u.IsExpression ∧ u.tokens = t.tokens ∧ u.nesting ≤ limit.toNat / 3 + 4 := by
  have hu := Tree.isExpression_regroup h.operands
  have htokens := t.tokens_regroup
  -- Operators of plain arithmetic are of three classes.
  have hops : ∀ op, .spelled (.op op) ∈ t.regroup.tokens → op.looseness ≤ 3 := by
    intro op hop
    rw [htokens] at hop
    have hplain : (Climb.strength? op).isSome = true := h.plain _ hop
    cases op <;> first | decide | cases hplain
  have hopens : OpensWithin limit.toNat 0 t.regroup.tokens := by
    rw [htokens]
    exact h.opens.mono (Nat.le_refl 0) (Int.self_le_toNat limit)
  exact ⟨t.regroup, hu, htokens, Tree.nesting_le_of_opensWithin hu hops hopens⟩

end Drafted

/-! ## Drafts of the generator -/

/-- The numbers that a source draws are below the number of values to choose from. -/
def Source.IsFair {σ : Type} (source : Source σ) : Prop :=
  ∀ n s, 0 < n → (source.draw n s).1 < n

theorem Source.isFair_ofSequence (s : Nat → Int) : (ofSequence s).IsFair :=
  fun _ _ h => ofSequence_draw_lt h

namespace Generator

variable {σ : Type} {source : Source σ} {g : Generator} {w : Width} {s s' : σ} {d d' : Draft}

theorem choose_lt (hs : source.IsFair) {n i : Nat} (h : choose source n s = .ok i s') : i < n := by
  unfold choose at h
  cases hcheck : source.check n with
  | error e =>
    rw [hcheck] at h
    cases h
  | ok _ =>
    rw [hcheck] at h
    have hpos : 0 < n := by
      apply Nat.pos_of_ne_zero
      rintro rfl
      cases hcheck
    cases h
    exact hs n s hpos

theorem bits_le (hbits : g.bits = w.size) : g.bits ≤ 64 := by
  have hsize := w.size_le
  omega

theorem exists_of_literal (hs : source.IsFair) (h : g.literal source d s = .ok d' s') :
    ∃ value, (g.bits ≤ 64 → value < 2 ^ 64) ∧ d' = d.add (toString value ++ "u") := by
  obtain ⟨value, hchoose, hadd⟩ := literal_eq_ok h
  refine ⟨value, fun hbits => ?_, hadd⟩
  have hlt := choose_lt hs hchoose
  have hsize : g.bits.toNat ≤ 64 := by omega
  rw [Nat.one_shiftLeft] at hlt
  exact Nat.lt_of_lt_of_le hlt (Nat.pow_le_pow_right (by decide) hsize)

theorem exists_of_operator (hs : source.IsFair) (h : g.operator source d s = .ok d' s') :
    ∃ op ∈ g.ops, d' = d.add (" " ++ op.spelling ++ " ") := by
  obtain ⟨i, hchoose, hadd⟩ := operator_eq_ok h
  have hi := choose_lt hs hchoose
  refine ⟨g.ops[i], List.getElem_mem hi, ?_⟩
  rw [hadd, List.getElem?_eq_getElem hi]
  rfl

/-- Extending a draft adds the text of a drafted tree, whose operators are from the pool. Its
    literals can be lexed if they have no more than 64 bits. -/
theorem Extends.exists_drafted (hs : source.IsFair)
    (hops : ∀ op ∈ g.ops, (Climb.strength? op).isSome = true) (h : Extends g source d s d' s') :
    ∃ t piece, d' = d.add piece ∧ Drafted g.threshold d.length piece t
      ∧ (g.bits ≤ 64 → ∀ a ∈ t.leaves, a.Lexable)
      ∧ ∀ a ∈ t.tokens, ∀ op, a.kind = .op op → op ∈ g.ops := by
  induction h with
  | @literal d _ _ _ _ _ _ _ hliteral =>
    obtain ⟨value, hvalue, rfl⟩ := exists_of_literal hs hliteral
    refine ⟨_, _, rfl, Drafted.literal value g.threshold d.length, fun hbits => ?_, ?_⟩
    · exact List.forall_mem_singleton.mpr (Token.lexable_ofNat (hvalue hbits))
    · exact List.forall_mem_singleton.mpr nofun
  | bracketed _ hshort _ ih =>
    obtain ⟨t, p, rfl, ht, hlexable, hpool⟩ := ih
    refine ⟨_, _, ?_, Drafted.bracketed hshort ht, hlexable,
      Tree.forall_mem_tokens_group.mpr ⟨nofun, hpool, nofun⟩⟩
    simp only [Draft.add_add, String.append_assoc]
  | joined _ _ _ _ hmiddle _ ihl ihr =>
    obtain ⟨l, p, rfl, hl, hleft, hpooll⟩ := ihl
    obtain ⟨op, hop, rfl⟩ := exists_of_operator hs hmiddle
    obtain ⟨r, q, rfl, hr, hright, hpoolr⟩ := ihr
    refine ⟨_, _, ?_, Drafted.joined (hops op hop) hl hr, fun hbits => ?_,
      Tree.forall_mem_tokens_node.mpr ⟨hpooll, ?_, hpoolr⟩⟩
    · simp only [Draft.add_add, String.append_assoc]
    · exact List.forall_mem_append.mpr ⟨hleft hbits, hright hbits⟩
    · rintro o ho
      cases ho
      exact hop

/-- A random expression is the text that the empty draft is extended to. -/
theorem extends_of_expression {text : String} (h : g.expression source s = .ok text s') :
    ∃ d', Extends g source .empty s d' s' ∧ d'.text = text := by
  rw [expression, map_eq_pure_bind] at h
  obtain ⟨d', s₁, hextend, htext⟩ := exists_of_bind h
  cases htext
  exact ⟨d', extends_of_extend hextend, rfl⟩

end Generator

/-! ## Cases of the generator -/

/-- The case is the true one of an expression of plain arithmetic that does not nest deeper
    than so many levels. -/
structure Case.IsTrue (w : Width) (depth : Nat) (c : Case) (t : Tree Token) : Prop where
  writes : Writes c.text.toList t.tokens
  expression : t.IsExpression
  plain : ∀ a ∈ t.tokens, a.isPlain = true
  nesting : t.nesting ≤ depth
  value : ∃ v : Nat, t.plainValue w = .ok v ∧ c.expected = v

namespace Generator

variable {σ : Type} {source : Source σ} {g : Generator} {w : Width} {s s' : σ}

/-- Deepest nesting of the expressions that are generated. -/
def deepest (g : Generator) : Nat := g.threshold.toNat / 3 + 4

/-- A random expression spells no tokens but those of one expression, which does not nest deep
    and has operators from the pool; it is a writing of them if literals have no more than 64
    bits. -/
theorem exists_of_expression (hs : source.IsFair)
    (hops : ∀ op ∈ g.ops, (Climb.strength? op).isSome = true) {text : String}
    (h : g.expression source s = .ok text s') :
    ∃ u : Tree Token, u.IsExpression
      ∧ (g.bits ≤ 64 → Writes text.toList u.tokens)
      ∧ (∀ ts, Spells text.toList ts → ts = u.tokens)
      ∧ (∀ a ∈ u.tokens, a.isPlain = true) ∧ u.nesting ≤ g.deepest
      ∧ ∀ a ∈ u.tokens, ∀ op, a.kind = .op op → op ∈ g.ops := by
  obtain ⟨d', hextends, htext⟩ := extends_of_expression h
  obtain ⟨t, piece, rfl, ht, hlexable, hpool⟩ := hextends.exists_drafted hs hops
  have hpiece : text = piece := by
    rw [← htext]
    exact String.empty_append
  obtain ⟨u, hu, htokens, hdeep⟩ := Drafted.exists_expression ht
  refine ⟨u, hu, fun hbits => ?_, fun ts hspells => ?_, ?_, hdeep, ?_⟩
  · rw [htokens, hpiece]
    exact ht.writes (hlexable hbits)
  · rw [hpiece, ← List.append_nil piece.toList] at hspells
    obtain ⟨us, rfl, hnil⟩ := ht.spelled _ _ hspells
    obtain rfl : us = [] := List.length_eq_zero_iff.mp (Nat.le_zero.mp hnil.writes.length_le)
    rw [htokens, List.append_nil]
  · rw [htokens]
    exact ht.plain
  · rw [htokens]
    exact hpool

theorem isTrue_of_caseWithin (hs : source.IsFair) (hbits : g.bits = w.size)
    (hops : ∀ op ∈ g.ops, (Climb.strength? op).isSome = true)
    {attempts : Nat} {c : Case} (h : g.caseWithin source attempts s = .ok c s') :
    ∃ t, c.IsTrue w g.deepest t := by
  induction attempts generalizing s with
  | zero => cases h
  | succ attempts ih =>
    obtain ⟨text, s₁, htext, h⟩ := exists_of_bind h
    obtain ⟨t, ht, hwrites, -, hplain, hdeep, -⟩ := exists_of_expression hs hops htext
    have hw := hwrites (bits_le hbits)
    rw [hbits, Climb.evaluate_of_writes hw ht hplain] at h
    -- The only failure that plain arithmetic has here is the one that starts over.
    cases hv : t.plainValue w with
    | error z =>
      rw [hv] at h
      exact ih h
    | ok v =>
      rw [hv] at h
      cases h
      exact ⟨t, hw, ht, hplain, hdeep, v, hv, rfl⟩

/-- The cases that are generated before any failure are as many as asked for, and true. -/
theorem isTrue_of_cases (hs : source.IsFair) (hbits : g.bits = w.size)
    (hops : ∀ op ∈ g.ops, (Climb.strength? op).isSome = true)
    {count : Nat} {cs : List Case} (h : g.cases source count s = (cs, none, s')) :
    cs.length = count ∧ ∀ c ∈ cs, ∃ t, c.IsTrue w g.deepest t := by
  induction count generalizing s cs with
  | zero =>
    cases h
    exact ⟨rfl, fun c hc => absurd hc List.not_mem_nil⟩
  | succ count ih =>
    rw [cases] at h
    split at h
    · cases h
    · rename_i c s₁ hc
      rcases hrest : g.cases source count s₁ with ⟨cs₁, e, s₂⟩
      rw [hrest] at h
      cases h
      obtain ⟨hlen, hall⟩ := ih hrest
      have htrue := isTrue_of_caseWithin hs hbits hops hc
      exact ⟨congrArg (· + 1) hlen, List.forall_mem_cons.mpr ⟨htrue, hall⟩⟩

end Generator

end WordExpr
