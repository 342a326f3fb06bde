/-
  WordExpr.Proofs.Nesting

  How deep random expressions nest. A bracket opens only while the draft is within the
  threshold, and nothing that is added later moves it, so in the finished text every opening
  bracket stands near the front (`Generator.Extends.opensBy`). Each bracket and each right
  operand on a path of the expression takes three characters before the last bracket, and
  behind it only the classes of the operators nest. So the threshold bounds the nesting, and
  whatever is drawn, a buffer of 4096 characters never exhausts the limit where no other is
  given (`Generator.nesting_of_expression`).
-/
import WordExpr.Proofs.Defects
import WordExpr.Proofs.Drafting

namespace WordExpr

namespace Generator

variable {σ : Type} {source : Source σ} {g : Generator} {s s' : σ} {d d' : Draft}
  {piece text : String} {limit : Int}

/-! ## Where brackets open -/

/-- Every opening bracket of the draft stands behind a blank that is within the limit. -/
def Draft.OpensBy (limit : Int) (d : Draft) : Prop :=
  ∀ i : Nat, d.text.toList[i]? = some '(' → (i : Int) ≤ limit + 1

theorem Draft.opensBy_empty (limit : Int) : Draft.empty.OpensBy limit := by
  intro i hi
  simp [Draft.empty] at hi

theorem Draft.toList_add (d : Draft) (piece : String) :
    (d.add piece).text.toList = d.text.toList ++ piece.toList := String.toList_append

/-- A piece leaves the brackets of a draft where they are. -/
theorem Draft.OpensBy.add (h : d.OpensBy limit)
    (hpiece : ∀ i : Nat, piece.toList[i]? = some '(' → ((d.length + i : Nat) : Int) ≤ limit + 1) :
    (d.add piece).OpensBy limit := by
  intro i hi
  rw [Draft.toList_add] at hi
  by_cases hbefore : i < d.text.toList.length
  · rw [List.getElem?_append_left hbefore] at hi
    exact h i hi
  · rw [List.getElem?_append_right (Nat.le_of_not_lt hbefore)] at hi
    have hlength : d.length = d.text.toList.length := d.length_eq.trans String.length_toList.symm
    have hplace := hpiece _ hi
    omega

theorem Draft.OpensBy.add_of_not_mem (h : d.OpensBy limit) (hpiece : '(' ∉ piece.toList) :
    (d.add piece).OpensBy limit :=
  h.add fun _ hi => absurd (List.mem_of_getElem? hi) hpiece

theorem Draft.OpensBy.add_opening (h : d.OpensBy limit) (hshort : (d.length : Int) ≤ limit) :
    (d.add " ( ").OpensBy limit := by
  refine h.add fun i hi => ?_
  have hone : i = 1 := by
    match i, hi with
    | 0, hi => simp at hi
    | 1, _ => rfl
    | 2, hi => simp at hi
    | _ + 3, hi => simp at hi
  omega

theorem not_mem_literal (value : Nat) : '(' ∉ (toString value ++ "u").toList := by
  rw [String.toList_append, Nat.toString_eq_ofList_toDigits, String.toList_ofList]
  intro hmem
  rcases List.mem_append.mp hmem with hdigit | hsuffix
  · exact absurd (Numeral.isDigit_of_mem_toDigits hdigit) (by decide)
  · exact absurd hsuffix (by decide)

theorem not_mem_operator (op? : Option BinOp) :
    '(' ∉ (" " ++ (op?.map BinOp.spelling).getD "" ++ " ").toList := by
  cases op? with
  | none => decide
  | some op => cases op <;> decide

/-- Whatever is drawn, brackets open by the threshold. -/
theorem Extends.opensBy (h : Extends g source d s d' s') (hd : d.OpensBy g.threshold) :
    d'.OpensBy g.threshold := by
  induction h with
  | literal _ _ hliteral =>
    obtain ⟨value, -, rfl⟩ := literal_eq_ok hliteral
    exact hd.add_of_not_mem (not_mem_literal value)
  | bracketed _ hshort _ ih =>
    exact (ih (hd.add_opening hshort)).add_of_not_mem (by decide)
  | joined _ _ _ _ hmiddle _ ihl ihr =>
    obtain ⟨i, -, rfl⟩ := operator_eq_ok hmiddle
    exact ihr ((ihl hd).add_of_not_mem (not_mem_operator _))

/-- In a random expression the pieces that open brackets start by the threshold. -/
theorem length_le_of_opening (h : g.expression source s = .ok text s') {before after : String}
    (htext : text = before ++ " ( " ++ after) : (before.length : Int) ≤ g.threshold := by
  obtain ⟨d', hextends, rfl⟩ := extends_of_expression h
  have hopens : d'.OpensBy g.threshold := hextends.opensBy (Draft.opensBy_empty _)
  -- The bracket stands behind the blank that the piece starts with.
  have hbracket : d'.text.toList[before.toList.length + 1]? = some '(' := by
    rw [htext, String.toList_append, String.toList_append, List.append_assoc,
      List.getElem?_append_right (Nat.le_add_right _ 1), Nat.add_sub_cancel_left]
    rfl
  have hplace := hopens _ hbracket
  rw [String.length_toList] at hplace
  omega

/-! ## How deep expressions nest -/

/-- Random expressions nest no deeper than their buffer allows, whatever is drawn. Every piece
    that opens a bracket starts within a tenth of the buffer. The text has no tokens but those of
    one expression, and it has these if literals have no more than 64 bits; a third of that tenth
    and four more levels are enough for it. Evaluation under such a limit, with any width and any
    registers, never finds that the text nests too deep. With a buffer of 4096 characters the
    limit where no other is given is enough. -/
theorem nesting_of_expression (hs : source.IsFair) (hmax : 0 ≤ g.maxLen)
    (hops : ∀ op ∈ g.ops, (Climb.strength? op).isSome = true)
    (h : g.expression source s = .ok text s') :
    (∀ before after, text = before ++ " ( " ++ after → (before.length : Int) ≤ g.maxLen / 10)
    ∧ (∃ u : Tree Token, u.IsExpression
        ∧ (u.nesting : Int) ≤ g.maxLen / 10 / 3 + 4
        ∧ (∀ maxTokens ts, Lexer.tokenize text maxTokens = .ok ts → ts = u.tokens.toArray)
        ∧ (g.bits ≤ 64 → Lexer.tokenize text u.tokens.length = .ok u.tokens.toArray))
    ∧ (∀ (τ : Type) (setting : Setting τ) (maxTokens : Int) (state : τ) (limit : Int),
        g.maxLen / 10 / 3 + 4 ≤ setting.maxDepth →
        (setting.evaluate text maxTokens state).result ≠ .error (.expr (.nestingTooDeep limit)))
    ∧ (g.maxLen = 4096 →
        ∀ (τ : Type) (bits : Int) (resolver : Option (Resolver τ)) (maxTokens : Int) (state : τ)
          (limit : Int),
        ((Setting.mk bits defaultMaxDepth resolver).evaluate text maxTokens state).result
          ≠ .error (.expr (.nestingTooDeep limit))) := by
  have hthreshold : g.threshold = g.maxLen / 10 := Int.fdiv_eq_ediv_of_nonneg _ (by decide)
  obtain ⟨u, hu, hwrites, hspelled, -, hdeepest, -⟩ := exists_of_expression hs hops h
  have hdeep : (u.nesting : Int) ≤ g.maxLen / 10 / 3 + 4 := by
    rw [deepest, hthreshold] at hdeepest
    omega
  have hlex (maxTokens : Int) (ts : Array Token) (hts : Lexer.tokenize text maxTokens = .ok ts) :
      ts = u.tokens.toArray := by
    rw [← hspelled ts.toList (Lexer.spells_of_tokenize hts), Array.toArray_toList]
  refine ⟨?_, ⟨u, hu, hdeep, hlex, ?_⟩, ?_, ?_⟩
  · intro before after htext
    rw [← hthreshold]
    exact length_le_of_opening h htext
  · intro hbits
    exact Lexer.tokenize_of_writes (hwrites hbits) u.apart_tokens (Int.le_refl _)
  · intro τ setting maxTokens state limit hlimit
    exact Setting.result_ne_nestingTooDeep hu (hlex maxTokens) (Int.le_trans hdeep hlimit) state
      limit
  · intro hfull τ bits resolver maxTokens state limit
    refine Setting.result_ne_nestingTooDeep hu (hlex maxTokens) ?_ state limit
    rw [hfull] at hdeep
    show (u.nesting : Int) ≤ 512
    omega

/-- From the numbers 2, 1, 0, 7, 0, 0 and 5 the text ` ( 7u )  + 5u` is generated. -/
theorem nesting_of_bracketed_sum :
    (Generator.mk 4096 [.add] Width.w32.size 4).expression
        (.ofSequence fun k => [2, 1, 0, 7, 0, 0, 5].getD k 0) 0 = .ok " ( 7u )  + 5u" 7
    ∧ (∀ before after, " ( 7u )  + 5u" = before ++ " ( " ++ after → (before.length : Int) ≤ 409)
    ∧ ∀ limit, ((Setting.mk Width.w64.size 140 none : Setting Unit).evaluate " ( 7u )  + 5u" 9
        ()).result ≠ .error (.expr (.nestingTooDeep limit)) := by
  have htext : (Generator.mk 4096 [.add] Width.w32.size 4).expression
      (.ofSequence fun k => [2, 1, 0, 7, 0, 0, 5].getD k 0) 0 = .ok " ( 7u )  + 5u" 7 := by rfl
  obtain ⟨hopens, -, hlevels, -⟩ := nesting_of_expression (Source.isFair_ofSequence _)
    (by decide) (by decide) htext
  exact ⟨htext, hopens, fun limit => hlevels Unit _ 9 () limit (by decide)⟩

end Generator

end WordExpr
