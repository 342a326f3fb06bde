/-
  WordExpr.Proofs.Printing

  Lexing undoes printing. `Token.spaced gaps ts` is the tokens `ts` with given gaps around
  them. Whatever blanks the gaps consist of, the tokens are found again; only two operands with
  nothing between them may melt, and they do not if the rule of the first one takes nothing of
  the second (`spells_spaced`). Every text that is split into tokens is printed in this way
  (`Writes.exists_gaps`).

  So blanks around operators and brackets do not matter: the tokens are the same, and with them
  everything that an evaluation does (`Setting.lexing_undoes_printing`).
-/
import WordExpr.Proofs.Agreement

namespace WordExpr

open Lexer

/-! ## Printed tokens -/

/-- The tokens as a text, with the gap 0 before the first of them and a gap behind each one. -/
def Token.spaced : (gaps : Nat → List Char) → List Token → List Char
  | gaps, [] => gaps 0
  | gaps, t :: ts => gaps 0 ++ (t.text.toList ++ spaced (fun i => gaps (i + 1)) ts)

/-- The tokens as a text, with a single space between two of them. -/
def Token.separated (ts : List Token) : String :=
  " ".intercalate (ts.map Token.text)

/-- The gaps with one more in front of them. -/
def consGap (gap : List Char) (gaps : Nat → List Char) (i : Nat) : List Char :=
  if i = 0 then gap else gaps (i - 1)

/-- Gaps of spaces and tabs. -/
def BlankGaps (gaps : Nat → List Char) : Prop :=
  ∀ i, ∀ c ∈ gaps i, c = ' ' ∨ c = '\t'

/-- The tokens at `i` and behind it are operands, so that gap `i + 1` is all that parts them. -/
structure AdjacentOperands (ts : List Token) (i : Nat) (a b : Token) : Prop where
  first : ts[i]? = some a
  second : ts[i + 1]? = some b
  first_isOperand : a.kind.isOperand = true
  second_isOperand : b.kind.isOperand = true

section Printed

variable {gaps : Nat → List Char} {t a b : Token} {ts : List Token} {i : Nat}

theorem BlankGaps.isSeparator (h : BlankGaps gaps) (i : Nat) :
    ∀ c ∈ gaps i, isSeparator c = true :=
  fun c hc => isSeparator_iff.mpr (h i c hc)

theorem BlankGaps.cons {gap : List Char} (hgap : ∀ c ∈ gap, c = ' ' ∨ c = '\t')
    (h : BlankGaps gaps) : BlankGaps (consGap gap gaps) := by
  intro i
  unfold consGap
  split
  · exact hgap
  · exact h (i - 1)

theorem BlankGaps.tail (h : BlankGaps gaps) : BlankGaps fun i => gaps (i + 1) :=
  fun i => h (i + 1)

theorem blankGaps_nil : BlankGaps fun _ => [] :=
  fun _ _ hc => absurd hc List.not_mem_nil

theorem adjacentOperands_succ :
    AdjacentOperands (t :: ts) (i + 1) a b ↔ AdjacentOperands ts i a b :=
  ⟨fun h => ⟨h.first, h.second, h.first_isOperand, h.second_isOperand⟩,
    fun h => ⟨h.first, h.second, h.first_isOperand, h.second_isOperand⟩⟩

/-- No operands are adjacent in a list in which they are apart. -/
theorem Apart.not_adjacentOperands (h : Apart ts) : ¬ AdjacentOperands ts i a b := by
  intro hab
  obtain ⟨hi, rfl⟩ := List.getElem?_eq_some_iff.mp hab.first
  obtain ⟨hi', rfl⟩ := List.getElem?_eq_some_iff.mp hab.second
  have hb := List.isChain_iff_getElem.mp h i hi' hab.first_isOperand
  rw [hab.second_isOperand] at hb
  cases hb

theorem toList_compact (ts : List Token) :
    (Token.compact ts).toList = Token.spaced (fun _ => []) ts := by
  rw [Token.compact, String.toList_join, List.flatMap_map]
  induction ts with
  | nil => rfl
  | cons t ts ih => rw [List.flatMap_cons, ih, Token.spaced, List.nil_append]

/-- Whatever is a writing of tokens is their texts with gaps of blanks. -/
theorem Writes.exists_gaps {cs : List Char} (h : Writes cs ts) :
    ∃ gaps, BlankGaps gaps ∧ cs = Token.spaced gaps ts := by
  induction h with
  | nil => exact ⟨fun _ => [], blankGaps_nil, rfl⟩
  | @blank c cs ts hc _ ih =>
    obtain ⟨gaps, hgaps, rfl⟩ := ih
    -- The blank joins the first gap.
    refine ⟨consGap (c :: gaps 0) fun i => gaps (i + 1), hgaps.tail.cons ?_, ?_⟩
    · exact List.forall_mem_cons.mpr ⟨isSeparator_iff.mp hc, hgaps 0⟩
    · cases ts <;> rfl
  | @token t cs ts _ _ ih =>
    obtain ⟨gaps, hgaps, rfl⟩ := ih
    exact ⟨consGap [] gaps, hgaps.cons fun c hc => absurd hc List.not_mem_nil, rfl⟩

/-! ## What is spelled in a printed text -/

/-- Without a gap a printed text starts like its first token. -/
theorem head?_spaced (ht : t.Lexable) (hgap : gaps 0 = []) :
    (Token.spaced gaps (t :: ts)).head? = t.text.toList.head? := by
  rw [Token.spaced, hgap, List.nil_append, List.head?_append_of_ne_nil _ ht.toList_ne_nil]

/-- A token is all that its rule takes before printed tokens, if it does so before an operand
    that follows without a gap. -/
theorem takes_before_spaced (ht : t.Lexable) (hgaps : BlankGaps gaps)
    (hw : Writes (Token.spaced gaps ts) ts)
    (hnext : ∀ b ∈ ts.head?, t.kind.isOperand = true → b.kind.isOperand = true → gaps 0 = [] →
      Pattern.Takes (ruleOf t.kind).pattern t.text.toList b.text.toList) :
    Pattern.Takes (ruleOf t.kind).pattern t.text.toList (Token.spaced gaps ts) := by
  cases hgap : gaps 0 with
  | cons c cs =>
    -- A blank follows.
    refine takes_ruleOf ht fun _ d hd => mem_boundaries_of_isSeparator ?_
    have hhead : (Token.spaced gaps ts).head? = some c := by
      cases ts with
      | nil => rw [Token.spaced, hgap, List.head?_cons]
      | cons b ts => rw [Token.spaced, hgap, List.cons_append, List.head?_cons]
    rw [hhead, Option.mem_some_iff] at hd
    rw [← hd]
    exact hgaps.isSeparator 0 c (by rw [hgap]; exact List.mem_cons_self)
  | nil =>
    by_cases hop : t.kind.isOperand = true ∧ ∃ b ∈ ts.head?, b.kind.isOperand = true
    · obtain ⟨hfirst, b, hb, hsecond⟩ := hop
      obtain ⟨us, rfl⟩ := List.head?_eq_some_iff.mp hb
      have hlex := hw.lexable b List.mem_cons_self
      exact (hnext b hb hfirst hsecond hgap).of_head?_eq (head?_spaced hlex hgap).symm
    · -- This is no operand, or none follows.
      refine takes_ruleOf ht fun hfirst => hw.head_mem_boundaries fun b hb => ?_
      rw [Bool.eq_false_iff]
      exact fun hsecond => hop ⟨hfirst, b, hb, hsecond⟩

/-- Lexable tokens are spelled where they are printed, if of two operands with nothing between
    them the rule of the first one takes nothing of the second. -/
theorem spells_spaced (hts : ∀ t ∈ ts, t.Lexable) (hgaps : BlankGaps gaps)
    (hadjacent : ∀ i a b, AdjacentOperands ts i a b → gaps (i + 1) = [] →
      Pattern.Takes (ruleOf a.kind).pattern a.text.toList b.text.toList) :
    Spells (Token.spaced gaps ts) ts := by
  induction ts generalizing gaps with
  | nil =>
    have hblanks := Spells.blanks (hgaps.isSeparator 0) .nil
    rwa [List.append_nil] at hblanks
  | cons t ts ih =>
    obtain ⟨ht, hts⟩ := List.forall_mem_cons.mp hts
    have hrest := ih hts hgaps.tail fun i a b hab =>
      hadjacent (i + 1) a b (adjacentOperands_succ.mpr hab)
    refine Spells.blanks (hgaps.isSeparator 0) (.token ht ?_ hrest)
    refine takes_before_spaced ht hgaps.tail hrest.writes fun b hb hfirst hsecond hgap => ?_
    rw [List.head?_eq_getElem?] at hb
    exact hadjacent 0 t b ⟨rfl, hb, hfirst, hsecond⟩ hgap

/-- Lexable tokens are spelled where spaces separate them. -/
theorem spells_separated (hts : ∀ t ∈ ts, t.Lexable) :
    Spells (Token.separated ts).toList ts := by
  rw [Token.separated, String.toList_intercalate, List.map_map]
  induction ts with
  | nil => exact .nil
  | cons t ts ih =>
    obtain ⟨ht, hts⟩ := List.forall_mem_cons.mp hts
    cases ts with
    | nil =>
      have halone := Spells.token ht (takes_ruleOf ht fun _ _ hc => by cases hc) .nil
      rw [List.append_nil] at halone
      rw [List.map_singleton, List.intercalate_singleton]
      exact halone
    | cons b ts =>
      rw [List.map_cons, List.map_cons, List.intercalate_cons_cons, List.append_assoc]
      refine .token ht (takes_ruleOf ht fun _ c hc => ?_) (.blank (by decide) (ih hts))
      -- What follows the token is the space.
      cases hc
      decide

/-- The first token of what is spelled in a printed text, and the others. -/
theorem Spells.of_spaced_cons (h : Spells (Token.spaced gaps (t :: ts)) (t :: ts))
    (hgaps : BlankGaps gaps) :
    t.Lexable
      ∧ Pattern.Takes (ruleOf t.kind).pattern t.text.toList
          (Token.spaced (fun i => gaps (i + 1)) ts)
      ∧ Spells (Token.spaced (fun i => gaps (i + 1)) ts) ts := by
  obtain ⟨run, rest, heq, hrun, ht, htakes, hrest⟩ := h.exists_of_cons
  -- The first gap is what precedes the token, and the rest what follows it.
  obtain ⟨-, hafter⟩ := Piece.append_inj_of_stops (hgaps.isSeparator 0) hrun
    (ht.isSeparator_head _) (ht.isSeparator_head _) heq
  rw [← List.append_cancel_left hafter] at htakes hrest
  exact ⟨ht, htakes, hrest⟩

/-- Where printed tokens are spelled, the rule of an operand takes nothing of another one that
    follows without a gap. -/
theorem Spells.takes_of_adjacent (h : Spells (Token.spaced gaps ts) ts) (hgaps : BlankGaps gaps)
    (hab : AdjacentOperands ts i a b) (hgap : gaps (i + 1) = []) :
    Pattern.Takes (ruleOf a.kind).pattern a.text.toList b.text.toList := by
  induction ts generalizing gaps i with
  | nil => cases hab.first
  | cons t ts ih =>
    obtain ⟨-, htakes, hrest⟩ := h.of_spaced_cons hgaps
    cases i with
    | zero =>
      obtain rfl : t = a := Option.some.inj hab.first
      obtain ⟨us, rfl⟩ := List.head?_eq_some_iff.mp
        (List.head?_eq_getElem?.trans hab.second)
      have hb := hrest.writes.lexable b List.mem_cons_self
      exact htakes.of_head?_eq (head?_spaced hb hgap)
    | succ i => exact ih hrest hgaps.tail (adjacentOperands_succ.mp hab) hgap

end Printed

namespace Lexer

variable {gaps gaps' : Nat → List Char} {text : String} {capacity maxTokens : Int}

/-- Printed tokens are found again, if blanks part the operands among them. -/
theorem tokenize_spaced {ts : List Token} (hts : ∀ t ∈ ts, t.Lexable) (hgaps : BlankGaps gaps)
    (hapart : ∀ i a b, AdjacentOperands ts i a b → gaps (i + 1) ≠ [])
    (hmax : (ts.length : Int) ≤ maxTokens) :
    tokenize (String.ofList (Token.spaced gaps ts)) maxTokens = .ok ts.toArray := by
  have hspells : Spells (String.ofList (Token.spaced gaps ts)).toList ts := by
    rw [String.toList_ofList]
    exact spells_spaced hts hgaps fun i a b hab hgap => absurd hgap (hapart i a b hab)
  rw [tokenize_of_spells hspells, if_pos (.inr hmax)]

/-- Separated tokens are found again, if there may be so many. -/
theorem tokenize_separated {ts : List Token} (hts : ∀ t ∈ ts, t.Lexable) (maxTokens : Int) :
    tokenize (Token.separated ts) maxTokens
      = if ts = [] ∨ (ts.length : Int) ≤ maxTokens then .ok ts.toArray
        else .error (.tooManyTokens maxTokens) :=
  tokenize_of_spells (spells_separated hts)

/-- The tokens of a text stay the same with other gaps around them, if no gap between two
    operands is closed. -/
theorem tokenize_respaced {ts : Array Token} (h : tokenize text capacity = .ok ts)
    (hgaps : BlankGaps gaps) (hgaps' : BlankGaps gaps')
    (htext : text.toList = Token.spaced gaps ts.toList)
    (hclosed : ∀ i a b, AdjacentOperands ts.toList i a b → gaps' (i + 1) = [] →
      gaps (i + 1) = []) (maxTokens : Int) :
    tokenize (String.ofList (Token.spaced gaps' ts.toList)) maxTokens
      = tokenize text maxTokens := by
  have hspells := spells_of_tokenize h
  have hprinted := hspells
  rw [htext] at hprinted
  have hspells' : Spells (String.ofList (Token.spaced gaps' ts.toList)).toList ts.toList := by
    rw [String.toList_ofList]
    exact spells_spaced hspells.writes.lexable hgaps' fun i a b hab hgap =>
      hprinted.takes_of_adjacent hgaps hab (hclosed i a b hab hgap)
  rw [tokenize_of_spells hspells', tokenize_of_spells hspells]

/-- Lexable tokens that are apart are found again without any gaps. -/
theorem tokenize_compact_of_lexable {ts : List Token} (hts : ∀ t ∈ ts, t.Lexable)
    (hapart : Apart ts) (hmax : (ts.length : Int) ≤ maxTokens) :
    tokenize (Token.compact ts) maxTokens = .ok ts.toArray := by
  have hspaced := tokenize_spaced hts blankGaps_nil
    (fun i a b hab => absurd hab hapart.not_adjacentOperands) hmax
  rwa [← toList_compact, String.ofList_toList] at hspaced

/-- Tokens that are apart are found again without any gaps, as often as they are in a text. -/
theorem tokenize_compact {ts : Array Token} (h : tokenize text capacity = .ok ts)
    (hts : Apart ts.toList) (maxTokens : Int) :
    tokenize (Token.compact ts.toList) maxTokens = tokenize text maxTokens := by
  obtain ⟨gaps, hgaps, htext⟩ := (writes_of_tokenize h).exists_gaps
  rw [← tokenize_respaced h hgaps blankGaps_nil htext
    (fun i a b hab => absurd hab hts.not_adjacentOperands), ← toList_compact,
    String.ofList_toList]

end Lexer

namespace Setting

variable {σ : Type} {s : Setting σ} {state : σ} {text text' : String} {maxTokens : Int}

/-- Texts with the same tokens are evaluated alike. -/
theorem evaluate_congr (h : tokenize text maxTokens = tokenize text' maxTokens) :
    (s.evaluate text maxTokens state).result = (s.evaluate text' maxTokens state).result
      ∧ (s.evaluate text maxTokens state).session
        = (s.evaluate text' maxTokens state).session := by
  cases hlex : tokenize text' maxTokens with
  | error e =>
    rw [hlex] at h
    rw [evaluate_of_lexError h, evaluate_of_lexError hlex]
    exact ⟨rfl, rfl⟩
  | ok ts =>
    rw [hlex] at h
    cases hrun : s.evalTokens ts (.start state) with
    | ok v last =>
      rw [evaluate_of_ok h hrun, evaluate_of_ok hlex hrun]
      exact ⟨rfl, rfl⟩
    | error e last =>
      rw [evaluate_of_error h hrun, evaluate_of_error hlex hrun]
      exact ⟨rfl, rfl⟩

/-- A text with a value has the tokens of an expression. -/
theorem apart_of_evaluate {v : Nat} (h : (s.evaluate text maxTokens state).result = .ok v) :
    ∃ ts, tokenize text maxTokens = .ok ts ∧ Apart ts.toList := by
  rw [evaluate_result] at h
  cases hlex : tokenize text maxTokens with
  | error e =>
    rw [hlex] at h
    cases h
  | ok ts =>
    rw [hlex] at h
    obtain ⟨last, hlast⟩ := EvalM.exists_of_result_eq_ok h
    obtain ⟨t, -, htokens, -⟩ := exists_tokens_of_evalTokens (lexable_of_tokenize hlex) hlast
    refine ⟨ts, rfl, ?_⟩
    rw [← htokens]
    exact t.apart_tokens

/-- Lexing undoes printing, with any gaps of spaces and tabs that part adjacent operands. A text
    that has a value has it without any gaps too. And a text that is split into tokens is these
    tokens with such gaps; other gaps, if they close none between two operands, change neither
    the value or error of an evaluation nor what is asked on the way. -/
theorem lexing_undoes_printing :
    (∀ (ts : List Token) (gaps : Nat → List Char) (maxTokens : Int),
      (∀ t ∈ ts, t.Lexable) → (ts.length : Int) ≤ maxTokens → BlankGaps gaps →
      (∀ i a b, AdjacentOperands ts i a b → gaps (i + 1) ≠ []) →
      tokenize (String.ofList (Token.spaced gaps ts)) maxTokens = .ok ts.toArray)
    ∧ (∀ (σ : Type) (s : Setting σ) (text : String) (maxTokens : Int) (state : σ) (v : Nat),
        (s.evaluate text maxTokens state).result = .ok v →
        ∃ ts, tokenize text maxTokens = .ok ts
          ∧ (s.evaluate (Token.compact ts.toList) maxTokens state).result = .ok v)
    ∧ ∀ (text : String) (capacity : Int) (ts : Array Token), tokenize text capacity = .ok ts →
        (∃ gaps, BlankGaps gaps ∧ text.toList = Token.spaced gaps ts.toList)
        ∧ ∀ gaps gaps', BlankGaps gaps → BlankGaps gaps' →
            text.toList = Token.spaced gaps ts.toList →
            (∀ i a b, AdjacentOperands ts.toList i a b → gaps' (i + 1) = [] →
              gaps (i + 1) = []) →
            ∀ (σ : Type) (s : Setting σ) (maxTokens : Int) (state : σ),
              (s.evaluate (String.ofList (Token.spaced gaps' ts.toList)) maxTokens state).result
                = (s.evaluate text maxTokens state).result
              ∧ (s.evaluate (String.ofList (Token.spaced gaps' ts.toList)) maxTokens
                  state).session = (s.evaluate text maxTokens state).session := by
  refine ⟨?_, ?_, ?_⟩
  · intro ts gaps maxTokens hts hmax hgaps hapart
    exact tokenize_spaced hts hgaps hapart hmax
  · intro σ s text maxTokens state v h
    obtain ⟨ts, hlex, hapart⟩ := apart_of_evaluate h
    refine ⟨ts, hlex, ?_⟩
    rw [(evaluate_congr (tokenize_compact hlex hapart maxTokens)).1, h]
  · intro text capacity ts hlex
    refine ⟨(writes_of_tokenize hlex).exists_gaps, ?_⟩
    intro gaps gaps' hgaps hgaps' htext hclosed σ s maxTokens state
    exact evaluate_congr (tokenize_respaced hlex hgaps hgaps' htext hclosed maxTokens)

/-- `7u` and `$a` are found again with blanks between them, `8 / (2 - 1)` has its value without
    blanks, and in `0x123456789*2`, where a decimal literal follows the hexadecimal one, there
    may be blanks around the operator. -/
theorem lexing_undoes_printing_of_touching :
    tokenize "\t7u $a" 2 = .ok #[⟨.dec, "7u"⟩, ⟨.reg, "$a"⟩]
    ∧ (∃ ts, tokenize "8 / (2 - 1)" 9 = .ok ts
        ∧ ((stateless .w32 3 none).evaluate (Token.compact ts.toList) 9 ()).result = .ok 8)
    ∧ tokenize "0x123456789*2" 9
        = .ok #[⟨.hex, "0x12345678"⟩, ⟨.dec, "9"⟩, .spelled (.op .mul), ⟨.dec, "2"⟩]
    ∧ ((stateless .w32 3 none).evaluate "0x123456789 *\t2" 9 ()).result
        = ((stateless .w32 3 none).evaluate "0x123456789*2" 9 ()).result := by
  obtain ⟨hspaced, hcompact, hrespaced⟩ := lexing_undoes_printing
  have hlex : tokenize "0x123456789*2" 9
      = .ok #[⟨.hex, "0x12345678"⟩, ⟨.dec, "9"⟩, .spelled (.op .mul), ⟨.dec, "2"⟩] := by
    decide +kernel
  refine ⟨?_, ?_, hlex, ?_⟩
  · have hdec : Token.Lexable ⟨.dec, String.ofList (['7'] ++ ['u'])⟩ :=
      .dec (by decide) (List.forall_mem_singleton.mpr (by decide)) (.inr rfl) (by decide)
    have hreg : Token.Lexable ⟨.reg, String.ofList ['$', 'a']⟩ :=
      .reg (by decide) (by decide) (List.forall_mem_singleton.mpr (by decide))
    let gaps : Nat → List Char := fun | 0 => ['\t'] | 1 => [' '] | _ => []
    refine hspaced [⟨.dec, "7u"⟩, ⟨.reg, "$a"⟩] gaps 2 ?_ (by decide) ?_ ?_
    · exact List.forall_mem_cons.mpr ⟨hdec, List.forall_mem_singleton.mpr hreg⟩
    · rintro (_ | _ | i) c hc
      · exact .inr (List.mem_singleton.mp hc)
      · exact .inl (List.mem_singleton.mp hc)
      · exact absurd hc List.not_mem_nil
    · rintro (_ | i) a b hab
      · exact List.cons_ne_nil _ _
      · cases hab.second
  · exact hcompact Unit (stateless .w32 3 none) "8 / (2 - 1)" 9 () 8 (by decide +kernel)
  · let gaps : Nat → List Char := fun | 2 => [' '] | 3 => ['\t'] | _ => []
    refine ((hrespaced _ 9 _ hlex).2 (fun _ => []) gaps blankGaps_nil ?_ rfl ?_ Unit _ 9 ()).1
    · intro i c hc
      match i with
      | 2 => exact .inl (List.mem_singleton.mp hc)
      | 3 => exact .inr (List.mem_singleton.mp hc)
      | 0 => exact absurd hc List.not_mem_nil
      | 1 => exact absurd hc List.not_mem_nil
      | _ + 4 => exact absurd hc List.not_mem_nil
    · intro i a b _ _
      rfl

end Setting

end WordExpr
