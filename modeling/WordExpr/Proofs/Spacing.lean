/-
  WordExpr.Proofs.Spacing

  Lexing finds the tokens that are spelled in a text and no others, if there may be so many of
  them (`Lexer.tokenize_eq_ok_iff`). Two operands in a row may melt into one: `12` is a writing
  of the literal 12, and of 1 and 2, but spells the first only.

  Where no two operands follow each other every writing of the tokens spells them
  (`Writes.spells`): an operand ends where a blank, an operator or a bracket stands, and so no
  rule can take more than the operand that was written. The tokens of a tree are apart in this
  sense (`Tree.apart_tokens`), so an expression is read back from every writing of it.

  What is spelled in a text starts with the token whose match is chosen there
  (`Lexer.exists_of_firstHit?`), so where parts of a text are known its tokens are too.
-/
import Mathlib.Data.List.Chain
import WordExpr.Proofs.Expression
import WordExpr.Proofs.Lexable

namespace WordExpr

open Lexer

/-! ## Tokens apart -/

/-- No two operands follow each other. -/
def Apart (ts : List Token) : Prop :=
  ts.IsChain fun a b => a.kind.isOperand = true → b.kind.isOperand = false

theorem Tree.apart_tokens (t : Tree Token) : Apart t.tokens := by
  induction t with
  | leaf a => exact .singleton a
  | group t ih =>
    rw [tokens_group]
    refine (ih.append (.singleton _) ?_).cons ?_
    · intro a _ b hb _
      cases hb
      rfl
    · intro b _ hop
      cases hop
  | node op l r ihl ihr =>
    rw [tokens_node]
    refine ihl.append (ihr.cons ?_) ?_
    · intro b _ hop
      cases hop
    · intro a _ b hb _
      cases hb
      rfl

/-! ## Where an operand ends -/

/-- The blanks, and the characters that operators and brackets start with. -/
def boundaries : List Char :=
  [' ', '\t', '+', '-', '*', '/', '%', '(', ')', '=', '!', '&', '|']

/-- No operand goes on with a boundary. -/
theorem stops_of_mem_boundaries {c : Char} (h : c ∈ boundaries) :
    isDigit c = false ∧ c ≠ 'u' ∧ Climb.isHexDigit c = false ∧ isNameChar c = false
      ∧ Text.isDecimal c = false := by
  have hall : (boundaries.all fun c => decide (isDigit c = false ∧ c ≠ 'u'
      ∧ Climb.isHexDigit c = false ∧ isNameChar c = false ∧ Text.isDecimal c = false)) = true := by
    decide
  exact of_decide_eq_true (List.all_eq_true.mp hall c h)

theorem ne_x_of_mem_boundaries {c : Char} (h : c ∈ boundaries) : c ≠ 'x' := by
  rintro rfl
  exact absurd h (by decide)

theorem mem_boundaries_of_isSeparator {c : Char} (h : isSeparator c = true) :
    c ∈ boundaries := by
  rcases isSeparator_iff.mp h with rfl | rfl
  · decide
  · decide

/-- An operator or bracket starts at a boundary. -/
theorem exists_spelling_eq {k : TokenKind} (h : k.isOperand = false) :
    ∃ c cs, k.spelling.toList = c :: cs ∧ c ∈ boundaries := by
  cases k with
  | op o => cases o <;> exact ⟨_, _, rfl, by decide⟩
  | lparen => exact ⟨_, _, rfl, by decide⟩
  | rparen => exact ⟨_, _, rfl, by decide⟩
  | _ => cases h

theorem Token.Lexable.head_ne_x {t : Token} (h : t.Lexable) (rest : List Char) :
    ∀ c ∈ (t.text.toList ++ rest).head?, c ≠ 'x' := by
  cases h with
  | @dec ds suffix hne hds hsuffix hlen =>
    obtain ⟨d, ds, rfl⟩ := List.exists_cons_of_ne_nil hne
    rw [String.toList_ofList]
    rintro c hc rfl
    cases hc
    exact absurd (hds 'x' List.mem_cons_self) (by decide)
  | hex =>
    rw [String.toList_ofList]
    rintro c hc rfl
    cases hc
  | reg =>
    rw [String.toList_ofList]
    rintro c hc rfl
    cases hc
  | spelled hk =>
    obtain ⟨c, cs, htext, hc⟩ := exists_spelling_eq hk
    intro c' hc'
    rw [show (Token.spelled _).text.toList = c :: cs from htext] at hc'
    cases hc'
    exact ne_x_of_mem_boundaries hc

namespace Writes

variable {cs : List Char} {t : Token} {ts : List Token}

theorem isSeparator_of_nil (h : Writes cs []) : ∀ c ∈ cs, isSeparator c = true := by
  generalize hts : ([] : List Token) = ts at h
  induction h with
  | nil => exact fun c hc => absurd hc List.not_mem_nil
  | blank hc _ ih => exact List.forall_mem_cons.mpr ⟨hc, ih hts⟩
  | token => cases hts

theorem exists_of_cons (h : Writes cs (t :: ts)) :
    ∃ run rest, cs = run ++ (t.text.toList ++ rest) ∧ (∀ c ∈ run, isSeparator c = true)
      ∧ t.Lexable ∧ Writes rest ts := by
  generalize hts : t :: ts = us at h
  induction h with
  | nil => cases hts
  | @blank c cs us hc _ ih =>
    obtain ⟨run, rest, rfl, hrun, ht, hrest⟩ := ih hts
    exact ⟨c :: run, rest, rfl, List.forall_mem_cons.mpr ⟨hc, hrun⟩, ht, hrest⟩
  | token ht hrest =>
    cases hts
    exact ⟨[], _, rfl, fun c hc => absurd hc List.not_mem_nil, ht, hrest⟩

/-- No token and no blank starts with an `x`. -/
theorem head_ne_x (h : Writes cs ts) : ∀ c ∈ cs.head?, c ≠ 'x' := by
  cases h with
  | nil => exact fun c hc => by cases hc
  | blank hc _ =>
    rintro c' hc' rfl
    cases hc'
    exact absurd hc (by decide)
  | token ht _ => exact ht.head_ne_x _

/-- What stands behind an operand is a boundary, if no operand follows. -/
theorem head_mem_boundaries (h : Writes cs ts)
    (hts : ∀ t ∈ ts.head?, t.kind.isOperand = false) : ∀ c ∈ cs.head?, c ∈ boundaries := by
  cases h with
  | nil => exact fun c hc => by cases hc
  | blank hc _ =>
    intro c' hc'
    cases hc'
    exact mem_boundaries_of_isSeparator hc
  | @token t cs ts ht _ =>
    -- The token written next is no operand, and starts with its spelling.
    have hop := hts t rfl
    obtain ⟨c, more, htext, hc⟩ := exists_spelling_eq hop
    have hspelled : t.text = t.kind.spelling := congrArg Token.text (ht.eq_spelled hop)
    rw [hspelled, htext]
    intro c' hc'
    cases hc'
    exact hc

end Writes

namespace Spells

variable {cs : List Char} {t : Token} {ts : List Token}

theorem of_blank {c : Char} (hc : isSeparator c = true) (h : Spells (c :: cs) ts) :
    Spells cs ts := by
  generalize hcs : c :: cs = ds at h
  cases h with
  | nil => cases hcs
  | blank _ hrest =>
    cases hcs
    exact hrest
  | token ht _ _ =>
    have hhead := ht.isSeparator_head _ c (by rw [← hcs]; rfl)
    rw [hc] at hhead
    cases hhead

theorem exists_of_cons (h : Spells cs (t :: ts)) :
    ∃ run rest, cs = run ++ (t.text.toList ++ rest) ∧ (∀ c ∈ run, isSeparator c = true)
      ∧ t.Lexable ∧ Pattern.Takes (ruleOf t.kind).pattern t.text.toList rest
      ∧ Spells rest ts := by
  generalize hts : t :: ts = us at h
  induction h with
  | nil => cases hts
  | @blank c cs us hc _ ih =>
    obtain ⟨run, rest, rfl, hrun, hrest⟩ := ih hts
    exact ⟨c :: run, rest, rfl, List.forall_mem_cons.mpr ⟨hc, hrun⟩, hrest⟩
  | token ht htakes hrest =>
    cases hts
    exact ⟨[], _, rfl, fun c hc => absurd hc List.not_mem_nil, ht, htakes, hrest⟩

end Spells

namespace Lexer

variable {c : Char} {xs rest : List Char}

/-! ## Matching what was written -/

theorem takes_many {ranges : List (Char × Char)} (hne : xs ≠ [])
    (hxs : ∀ c ∈ xs, CharClass.contains ⟨ranges⟩ c = true)
    (hrest : ∀ c ∈ rest.head?, CharClass.contains ⟨ranges⟩ c = false) :
    (Piece.many ranges).Takes xs rest where
  all := hxs
  least := List.length_pos_iff.mpr hne
  most := fun m hm => by cases hm
  stops := .inr hrest

theorem takes_between {ranges : List (Char × Char)} {most : Nat} (hne : xs ≠ [])
    (hlen : xs.length ≤ most) (hxs : ∀ c ∈ xs, CharClass.contains ⟨ranges⟩ c = true)
    (hrest : ∀ c ∈ rest.head?, CharClass.contains ⟨ranges⟩ c = false) :
    (Piece.between 1 most ranges).Takes xs rest where
  all := hxs
  least := List.length_pos_iff.mpr hne
  most := fun m hm => by
    cases hm
    exact hlen
  stops := .inr hrest

theorem takes_maybe (h : xs = [] ∧ (∀ d ∈ rest.head?, d ≠ c) ∨ xs = [c]) :
    (Piece.maybe c).Takes xs rest := by
  rcases h with ⟨rfl, hrest⟩ | rfl
  · refine ⟨fun d hd => absurd hd List.not_mem_nil, Nat.zero_le _, fun m hm => ?_, .inr ?_⟩
    · exact Nat.zero_le m
    · intro d hd
      rw [Bool.eq_false_iff]
      exact fun hc => hrest d hd (CharClass.contains_single.mp hc)
  · refine ⟨fun d hd => ?_, Nat.zero_le _, fun m hm => ?_, .inl rfl⟩
    · rw [List.mem_singleton] at hd
      exact CharClass.contains_single.mpr hd
    · cases hm
      exact Nat.le_refl 1

/-- A token that is written before a boundary is matched by its rule. -/
theorem takes_ruleOf {t : Token} (ht : t.Lexable)
    (hrest : t.kind.isOperand = true → ∀ c ∈ rest.head?, c ∈ boundaries) :
    Pattern.Takes (ruleOf t.kind).pattern t.text.toList rest := by
  cases ht with
  | @dec ds suffix hne hds hsuffix hlen =>
    have hend := hrest rfl
    rw [String.toList_ofList]
    refine .cons (takes_many hne hds ?_) ?_
    -- The digits end at the suffix or at the boundary, and so does the suffix.
    · rcases hsuffix with rfl | rfl
      · exact fun c hc => (stops_of_mem_boundaries (hend c hc)).1
      · rintro c hc
        cases hc
        decide
    · rw [← List.append_nil suffix]
      refine .cons (takes_maybe ?_) .nil
      refine hsuffix.imp (fun h => ⟨h, fun c hc => ?_⟩) id
      exact (stops_of_mem_boundaries (hend c hc)).2.1
  | @hex ds hne hlen hds =>
    have hend := hrest rfl
    rw [String.toList_ofList]
    refine .cons (Piece.takes_self _ _) (.cons (Piece.takes_self _ _) ?_)
    rw [← List.append_nil ds]
    refine .cons (takes_between hne hlen hds fun c hc => ?_) .nil
    exact (stops_of_mem_boundaries (hend c hc)).2.2.1
  | @reg cs hne hlen hcs =>
    have hend := hrest rfl
    rw [String.toList_ofList]
    refine .cons (Piece.takes_self _ _) ?_
    rw [← List.append_nil cs]
    refine .cons (takes_many hne hcs fun c hc => ?_) .nil
    exact (stops_of_mem_boundaries (hend c hc)).2.2.2.1
  | @spelled k hk =>
    rw [show ruleOf (Token.spelled k).kind = .spelled k from ruleOf_spelled hk]
    exact Pattern.takes_literal _ _

end Lexer

/-- A writing of tokens that are apart spells them. -/
theorem Writes.spells {cs : List Char} {ts : List Token} (h : Writes cs ts) (hts : Apart ts) :
    Spells cs ts := by
  induction h with
  | nil => exact .nil
  | blank hc _ ih => exact .blank hc (ih hts)
  | @token t cs ts ht hw ih =>
    obtain ⟨hnext, hts'⟩ := List.isChain_cons.mp hts
    have hend : t.kind.isOperand = true → ∀ c ∈ cs.head?, c ∈ boundaries :=
      fun hop => hw.head_mem_boundaries fun b hb => hnext b hb hop
    exact .token ht (takes_ruleOf ht hend) (ih hts')

namespace Lexer

variable {c : Char} {xs rest : List Char}

/-! ## The match chosen -/

/-- A rule starts with other characters than the rules before it. Only decimal literals start
    with a character that hexadecimal ones start with, the zero. -/
theorem rules_pairwise : rules.Pairwise fun q r =>
    r.first.disjoint q.first = true ∨ q = hexRule ∧ r = decRule := by decide

/-- A rule that matches is chosen, unless it is the rule of decimal literals where a
    hexadecimal one stands. -/
theorem firstHit?_rules {r : Rule} {n : Nat} (hr : r ∈ rules) (hc : r.first.contains c = true)
    (hdec : r = decRule → hexRule.matchLength? (c :: xs) = none)
    (h : r.matchLength? (c :: xs) = some n) :
    ∃ i, firstHit? rules (c :: xs) = some ⟨i, r, n⟩ := by
  obtain ⟨before, after, hsplit⟩ := List.append_of_mem hr
  have hpairs := rules_pairwise
  rw [hsplit, List.pairwise_append] at hpairs
  refine ⟨before.length, ?_⟩
  rw [hsplit]
  refine firstHit?_of_starts (fun q hq => ?_) h
  -- A rule before it cannot start here, or it is the one of hexadecimal literals.
  rcases hpairs.2.2 q hq r List.mem_cons_self with hdisjoint | ⟨rfl, hr'⟩
  · have hmem : q ∈ rules := by
      rw [hsplit]
      exact List.mem_append_left _ hq
    exact Rule.matchLength?_eq_none (isStrict_of_mem_rules q hmem)
      (CharClass.contains_eq_false_of_disjoint hdisjoint hc)
  · exact hdec hr'

theorem hexRule_matchLength?_eq_none {cs : List Char} (h : ∀ d ∈ cs.head?, d ≠ 'x') :
    hexRule.matchLength? (c :: cs) = none := by
  rw [Option.eq_none_iff_forall_ne_some]
  intro n hn
  have htakes := Rule.takes_of_matchLength? (by decide) hn
  obtain ⟨ds, htext, -, -, -⟩ := takes_hexRule htakes
  -- A match would start with the announcement, whose second character is an `x`.
  have hsplit : c :: cs = '0' :: 'x' :: (ds ++ (c :: cs).drop n) := by
    rw [← List.cons_append, ← List.cons_append, ← htext, List.take_append_drop]
  have hcs : cs = 'x' :: (ds ++ (c :: cs).drop n) := (List.cons.inj hsplit).2
  exact h 'x' (by rw [hcs]; rfl) rfl

/-- No hexadecimal literal starts where a decimal one is written. -/
theorem head_ne_x_of_dec {ds suffix : List Char} (hds : ∀ d ∈ ds, isDigit d = true)
    (hsuffix : suffix = [] ∨ suffix = ['u']) (hrest : ∀ d ∈ rest.head?, d ≠ 'x') :
    ∀ d ∈ (ds ++ suffix ++ rest).head?, d ≠ 'x' := by
  rintro d hd rfl
  cases ds with
  | cons e ds =>
    cases hd
    exact absurd (hds 'x' List.mem_cons_self) (by decide)
  | nil =>
    rcases hsuffix with rfl | rfl
    · exact hrest 'x' hd rfl
    · cases hd

/-- A token is the match chosen where it is all that its rule takes, and no `x` follows. -/
theorem firstHit?_of_takes {t : Token} (ht : t.Lexable)
    (htakes : Pattern.Takes (ruleOf t.kind).pattern t.text.toList rest)
    (hrest : ∀ c ∈ rest.head?, c ≠ 'x') :
    ∃ i, firstHit? rules (t.text.toList ++ rest)
      = some ⟨i, ruleOf t.kind, t.text.toList.length⟩ := by
  have hr := ruleOf_mem_rules t.kind
  obtain ⟨c, cs, htext, hc⟩ := Rule.exists_head_of_takes (isStrict_of_mem_rules _ hr) htakes
  have hpos : 0 < t.text.toList.length := by
    rw [htext]
    exact Nat.succ_pos _
  have hmatch := Rule.matchLength?_append hpos htakes
  -- Where a decimal literal is written, no `x` follows its first digit.
  have hdec : ruleOf t.kind = decRule → hexRule.matchLength? (c :: (cs ++ rest)) = none := by
    intro hrule
    refine hexRule_matchLength?_eq_none ?_
    cases ht with
    | @dec ds suffix hne hds hsuffix hlen =>
      rw [String.toList_ofList] at htext
      cases ds with
      | nil => exact absurd rfl hne
      | cons e ds =>
        obtain ⟨rfl, rfl⟩ := List.cons.inj htext
        exact head_ne_x_of_dec (List.forall_mem_cons.mp hds).2 hsuffix hrest
    | hex => cases hrule
    | reg => cases hrule
    | @spelled k hk =>
      have hkind : (ruleOf k).kind = decRule.kind := congrArg Rule.kind hrule
      rw [kind_ruleOf] at hkind
      cases hkind
      cases hk
  rw [htext, List.cons_append] at hmatch ⊢
  exact firstHit?_rules hr hc hdec hmatch

/-- Digits with the suffix are matched as a decimal literal, however many there are. -/
theorem firstHit?_of_digits {ds : List Char} (hne : ds ≠ []) (hds : ∀ c ∈ ds, isDigit c = true)
    (rest : List Char) :
    ∃ i, firstHit? rules (ds ++ ['u'] ++ rest) = some ⟨i, decRule, (ds ++ ['u']).length⟩ := by
  have hsuffix : ∀ c ∈ (['u'] ++ rest).head?, isDigit c = false := by
    rintro c hc
    cases hc
    decide
  have htakes : Pattern.Takes decRule.pattern (ds ++ ['u']) rest :=
    .cons (takes_many hne hds hsuffix) (.cons (takes_maybe (.inr rfl)) .nil)
  have hpos : 0 < (ds ++ ['u']).length :=
    List.length_pos_iff.mpr (List.append_ne_nil_of_left_ne_nil hne _)
  have hmatch := Rule.matchLength?_append hpos htakes
  obtain ⟨c, ds, rfl⟩ := List.exists_cons_of_ne_nil hne
  obtain ⟨hc, hmore⟩ := List.forall_mem_cons.mp hds
  refine firstHit?_rules (by decide) hc (fun _ => hexRule_matchLength?_eq_none ?_) hmatch
  -- The second character is another digit or the suffix.
  rintro d hd rfl
  cases ds with
  | nil => cases hd
  | cons e ds =>
    cases hd
    exact absurd (hmore 'x' List.mem_cons_self) (by decide)

theorem disjoint_blanks_ruleOf (k : TokenKind) :
    CharClass.disjoint ⟨blanks⟩ (ruleOf k).first = true := by
  cases k with
  | op o => cases o <;> decide
  | _ => decide

/-- What is spelled in a text starts with the token whose match is chosen there. -/
theorem exists_of_firstHit? {k : TokenKind} {i : Nat} {ts : List Token} (hne : xs ≠ [])
    (h : Spells (xs ++ rest) ts)
    (hhit : firstHit? rules (xs ++ rest) = some ⟨i, ruleOf k, xs.length⟩) :
    ∃ t us, ts = t :: us ∧ t.kind = k ∧ t.text.toList = xs ∧ t.Lexable ∧ Spells rest us := by
  generalize hcs : xs ++ rest = cs at h hhit
  cases h with
  | nil => exact absurd (List.append_eq_nil_iff.mp hcs).1 hne
  | @blank c cs ts hc _ =>
    -- The rule of a token does not match at a blank.
    have hmatch := (matchLength?_of_firstHit? hhit).2
    have hfirst := CharClass.contains_eq_false_of_disjoint (disjoint_blanks_ruleOf k) hc
    rw [Rule.matchLength?_eq_none (isStrict_of_mem_rules _ (ruleOf_mem_rules k)) hfirst] at hmatch
    cases hmatch
  | @token t cs us ht htakes hrest =>
    obtain ⟨j, hhit'⟩ := firstHit?_of_takes ht htakes hrest.writes.head_ne_x
    rw [hhit', Option.some.injEq, Hit.mk.injEq] at hhit
    obtain ⟨-, hrule, hlength⟩ := hhit
    have hkind : some t.kind = some k := by
      rw [← kind_ruleOf, ← kind_ruleOf, hrule]
    obtain ⟨htext, rfl⟩ := List.append_inj hcs hlength.symm
    exact ⟨t, us, rfl, Option.some.inj hkind, htext.symm, ht, hrest⟩

/-! ## Lexing what was written -/

variable (max : Int) (text : String) (position : Nat) (tokens : Array Token)
  (log : Array Match)

/-- One step of lexing, where a match is chosen that takes something. -/
theorem lexFrom_step {choose : List Char → Option Hit} {more : List Char} {hit : Hit}
    (hhit : choose (c :: more) = some hit) (hpos : ¬ hit.length = 0) :
    lexFrom choose max text position (c :: more) tokens log
      = let lexeme := String.ofList ((c :: more).take hit.length)
        let rest := (c :: more).drop hit.length
        let log := log.push ⟨hit.index, hit.rule, position, lexeme⟩
        match hit.rule.kind with
        | none => lexFrom choose max text (position + hit.length) rest tokens log
        | some kind =>
          match accept max tokens kind lexeme with
          | .error e => ⟨log, .error e⟩
          | .ok tokens => lexFrom choose max text (position + hit.length) rest tokens log := by
  rw [lexFrom, hhit]
  exact dif_neg hpos

/-- One step of lexing, when the match takes the characters `xs`. -/
theorem lexFrom_hit {i : Nat} {r : Rule} (hne : xs ≠ [])
    (hhit : firstHit? rules (xs ++ rest) = some ⟨i, r, xs.length⟩) :
    ∃ log', lexFrom (firstHit? rules) max text position (xs ++ rest) tokens log
      = match r.kind with
        | none => lexFrom (firstHit? rules) max text (position + xs.length) rest tokens log'
        | some kind =>
          match accept max tokens kind (String.ofList xs) with
          | .error e => ⟨log', .error e⟩
          | .ok tokens =>
            lexFrom (firstHit? rules) max text (position + xs.length) rest tokens log' := by
  obtain ⟨c, cs, rfl⟩ := List.exists_cons_of_ne_nil hne
  have htake : (c :: (cs ++ rest)).take (c :: cs).length = c :: cs := List.take_left' rfl
  have hdrop : (c :: (cs ++ rest)).drop (c :: cs).length = rest := List.drop_left' rfl
  refine ⟨log.push ⟨i, r, position, String.ofList (c :: cs)⟩, ?_⟩
  rw [List.cons_append] at hhit ⊢
  rw [lexFrom_step max text position tokens log hhit (Nat.succ_ne_zero cs.length)]
  simp only [htake, hdrop]

/-- Blanks are skipped. -/
theorem lexFrom_blanks (hxs : ∀ c ∈ xs, isSeparator c = true)
    (hrest : ∀ c ∈ rest.head?, isSeparator c = false) :
    ∃ position' log', lexFrom (firstHit? rules) max text position (xs ++ rest) tokens log
      = lexFrom (firstHit? rules) max text position' rest tokens log' := by
  cases xs with
  | nil => exact ⟨position, log, rfl⟩
  | cons c xs =>
    have htakes : Pattern.Takes blankRule.pattern (c :: xs) rest := by
      rw [← List.append_nil (c :: xs)]
      exact .cons (takes_many (List.cons_ne_nil c xs) hxs hrest) .nil
    have hpos : 0 < (c :: xs).length := Nat.succ_pos xs.length
    have hmatch := Rule.matchLength?_append (r := blankRule) hpos htakes
    obtain ⟨i, hhit⟩ := firstHit?_rules (r := blankRule) (by decide)
      (hxs c List.mem_cons_self) (fun h => by cases h) hmatch
    obtain ⟨log', hstep⟩ :=
      lexFrom_hit max text position tokens log (List.cons_ne_nil c xs) hhit
    exact ⟨_, log', hstep⟩

theorem accept_lexable (tokens : Array Token) {t : Token} (ht : t.Lexable) :
    accept max tokens t.kind t.text
      = if max ≤ (tokens.size : Int) then .error (.tooManyTokens max)
        else .ok (tokens.push t) := by
  have hshort : ¬ (t.kind.isOperand && decide (maxLexeme < t.text.length)) = true := by
    intro h
    obtain ⟨hop, hlong⟩ := Bool.and_eq_true_iff.mp h
    exact absurd (ht.length_le hop) (Nat.not_le.mpr (of_decide_eq_true hlong))
  have htoken : tokenOf t.kind t.text = t := by
    unfold tokenOf
    split
    · rfl
    · rename_i hop
      exact (ht.eq_spelled (by simpa using hop)).symm
  rw [accept, if_neg hshort, htoken]

/-- Lexing what is spelled finds the tokens, if there may be so many of them. -/
theorem lexFrom_of_spells {cs : List Char} {ts : List Token} (h : Spells cs ts) :
    (lexFrom (firstHit? rules) max text position cs tokens log).result
      = if ts = [] ∨ (tokens.size : Int) + ts.length ≤ max then .ok (tokens ++ ts.toArray)
        else .error (.tooManyTokens max) := by
  induction ts generalizing cs position tokens log with
  | nil =>
    have hblank := h.writes.isSeparator_of_nil
    have hend : ∀ c ∈ ([] : List Char).head?, isSeparator c = false := fun c hc => by cases hc
    obtain ⟨position', log', hskip⟩ :=
      lexFrom_blanks max text position tokens log hblank hend
    rw [List.append_nil] at hskip
    rw [hskip, lexFrom, Array.append_empty, if_pos (.inl rfl)]
  | cons t ts ih =>
    obtain ⟨run, rest, rfl, hrun, ht, htakes, hrest⟩ := h.exists_of_cons
    -- First the blanks before the token, then the token, then the rest.
    obtain ⟨position₁, log₁, hskip⟩ :=
      lexFrom_blanks max text position tokens log hrun (ht.isSeparator_head rest)
    obtain ⟨i, hhit⟩ := firstHit?_of_takes ht htakes hrest.writes.head_ne_x
    obtain ⟨log₂, hstep⟩ := lexFrom_hit max text position₁ tokens log₁ ht.toList_ne_nil hhit
    rw [kind_ruleOf, String.ofList_toList] at hstep
    simp only [accept_lexable max tokens ht] at hstep
    rw [hskip, hstep, List.length_cons]
    by_cases hfull : max ≤ (tokens.size : Int)
    · rw [if_pos hfull, if_neg]
      rintro (hnil | hroom)
      · cases hnil
      · omega
    · rw [if_neg hfull]
      simp only [ih _ _ _ hrest, Array.size_push, reduceCtorEq, false_or]
      -- There is room for this token, and so for the others if there are any.
      by_cases hroom : (tokens.size : Int) + (ts.length + 1 : Nat) ≤ max
      · rw [if_pos (.inr (by omega)), if_pos hroom]
        simp
      · have hmore : ts ≠ [] := by
          rintro rfl
          rw [List.length_nil] at hroom
          omega
        rw [if_neg hroom, if_neg]
        rintro (hnil | hroom')
        · exact hmore hnil
        · omega

variable {max text}

theorem tokenize_of_spells {ts : List Token} (h : Spells text.toList ts) :
    tokenize text max = if ts = [] ∨ (ts.length : Int) ≤ max then .ok ts.toArray
      else .error (.tooManyTokens max) := by
  have hlex := lexFrom_of_spells max text 0 #[] #[] h
  rw [Array.empty_append, List.size_toArray, List.length_nil, Int.natCast_zero, Int.zero_add]
    at hlex
  exact hlex

/-- The tokens of a text are those that are spelled in it, if there may be so many. -/
theorem tokenize_eq_ok_iff {ts : Array Token} :
    tokenize text max = .ok ts
      ↔ Spells text.toList ts.toList ∧ (ts.toList = [] ∨ (ts.size : Int) ≤ max) := by
  constructor
  · intro h
    have hspells := spells_of_tokenize h
    refine ⟨hspells, ?_⟩
    rw [tokenize_of_spells hspells] at h
    split at h
    · assumption
    · cases h
  · rintro ⟨hspells, hroom⟩
    rw [tokenize_of_spells hspells]
    exact if_pos hroom

/-- The tokens of a text do not depend on how many there may be. -/
theorem tokenize_unique {capacity : Int} {ts us : Array Token}
    (h : tokenize text capacity = .ok ts) (h' : tokenize text max = .ok us) : ts = us := by
  rw [tokenize_of_spells (spells_of_tokenize h)] at h'
  split at h'
  · exact Except.ok.inj h'
  · cases h'

/-- There are no more tokens than there may be. -/
theorem size_le_of_tokenize {ts : Array Token} (h : tokenize text max = .ok ts)
    (hne : 0 < ts.size) : (ts.size : Int) ≤ max := by
  refine (tokenize_eq_ok_iff.mp h).2.resolve_left fun hnone => ?_
  rw [← Array.length_toList, hnone] at hne
  exact absurd hne (Nat.lt_irrefl 0)

/-- Lexing a writing of tokens that are apart finds these tokens. -/
theorem tokenize_of_writes {ts : List Token} (h : Writes text.toList ts) (hts : Apart ts)
    (hmax : (ts.length : Int) ≤ max) : tokenize text max = .ok ts.toArray := by
  rw [tokenize_of_spells (h.spells hts), if_pos (.inr hmax)]

end Lexer

end WordExpr
