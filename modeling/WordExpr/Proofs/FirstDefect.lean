/-
  WordExpr.Proofs.FirstDefect

  Lexing loses nothing and stops at the first defect. A text is cut into matches that are chosen
  one behind the other (`Consecutive`), as far as they break no limit (`KeepLimits`), and what
  stands there decides the result: the end of the text, a place where nothing matches, or a
  match that breaks a limit (`tokenize_cases`).

  Which match is chosen does not change when the text behind it is cut off
  (`firstHit?_of_isPrefix`), so a text that is cut off at the place where nothing matches is
  split into tokens, and one that is cut off later fails at the same place
  (`tokenize_accounts_for_text`).
-/
import WordExpr.Proofs.LongestMatch

namespace WordExpr.Lexer

/-! ## Matching in a longer text -/

section Prefixes

variable {cs ds xs : List Char} {n : Nat}

theorem drop_isPrefix_drop_append (h : n ≤ cs.length) (ds : List Char) :
    cs.drop n <+: (cs ++ ds).drop n := by
  rw [List.drop_append_of_le_length h]
  exact List.prefix_append _ _

/-- In a longer text a piece matches as much, or all that there was. -/
theorem Piece.matchLength?_append_right {p : Piece} (h : p.matchLength? cs = some n)
    (ds : List Char) :
    ∃ m, p.matchLength? (cs ++ ds) = some m ∧ n ≤ m ∧ cs.drop n <+: (cs ++ ds).drop m := by
  have hn := matchLength?_le h
  simp only [matchLength?, List.takeWhile_append] at h ⊢
  split at h
  · cases h
  rename_i hleast
  by_cases hall : (cs.takeWhile p.chars.contains).length = cs.length
  · rw [if_pos hall, List.length_append, if_neg (by omega)]
    rw [hall] at h
    cases hm : p.most with
    | none =>
      rw [hm, Option.some.injEq] at h
      refine ⟨_, rfl, by omega, ?_⟩
      rw [List.drop_of_length_le (Nat.le_of_eq h)]
      exact List.nil_prefix
    | some most =>
      simp only [hm, Option.some.injEq] at h
      refine ⟨_, rfl, by omega, ?_⟩
      -- Either the piece is full, or it takes all of the shorter text.
      by_cases hfull : most ≤ cs.length
      · have hsame : min (cs.length + (ds.takeWhile p.chars.contains).length) most = n := by
          omega
        rw [hsame]
        exact drop_isPrefix_drop_append hn ds
      · rw [List.drop_of_length_le (by omega)]
        exact List.nil_prefix
  · rw [if_neg hall, if_neg hleast]
    exact ⟨n, h, Nat.le_refl n, drop_isPrefix_drop_append hn ds⟩

/-- What a pattern matches in a longer text is no shorter. -/
theorem Pattern.exists_matchLength?_of_isPrefix {ps : Pattern} (h : matchLength? ps cs = some n)
    (hcut : cs <+: ds) : ∃ m, matchLength? ps ds = some m ∧ n ≤ m := by
  induction ps generalizing cs ds n with
  | nil =>
    cases h
    exact ⟨0, rfl, Nat.le_refl 0⟩
  | cons p ps ih =>
    obtain ⟨es, rfl⟩ := hcut
    simp only [matchLength?] at h ⊢
    split at h
    · cases h
    rename_i k hk
    obtain ⟨j, hj, rfl⟩ := Option.map_eq_some_iff.mp h
    obtain ⟨k', hk', hle, hrest⟩ := Piece.matchLength?_append_right hk es
    obtain ⟨j', hj', hle'⟩ := ih hj hrest
    rw [hk']
    simp only [hj', Option.map_some]
    exact ⟨k' + j', rfl, Nat.add_le_add hle hle'⟩

theorem Rule.exists_matchLength?_of_isPrefix {r : Rule} (h : r.matchLength? cs = some n)
    (hcut : cs <+: ds) : ∃ m, r.matchLength? ds = some m ∧ n ≤ m := by
  have hpos := matchLength?_pos h
  obtain ⟨hn, -⟩ := Option.filter_eq_some_iff.mp h
  obtain ⟨m, hm, hle⟩ := Pattern.exists_matchLength?_of_isPrefix hn hcut
  refine ⟨m, ?_, hle⟩
  rw [matchLength?, hm, Option.filter_some, decide_eq_true (Nat.lt_of_lt_of_le hpos hle)]
  rfl

/-- What stops a match stops it too where the text ends earlier. -/
theorem Pattern.Takes.of_isPrefix {ps : Pattern} (h : Takes ps xs ds) (hcut : cs <+: ds) :
    Takes ps xs cs := by
  induction h with
  | nil => exact .nil
  | @cons p ps xs ys ds hp _ ih =>
    refine .cons ⟨hp.all, hp.least, hp.most, hp.stops.imp_right fun hstops c hc => ?_⟩
      (ih hcut)
    obtain ⟨es, rfl⟩ := hcut
    refine hstops c ?_
    obtain ⟨more, hmore⟩ := List.head?_eq_some_iff.mp hc
    rw [← List.append_assoc, hmore]
    rfl

theorem exists_firstHit?_of_mem {rs : List Rule} {hit : Hit} (h : hit ∈ hits rs cs) :
    ∃ first, firstHit? rs cs = some first := by
  rw [firstHit?_eq_head?]
  obtain ⟨first, rest, hrest⟩ := List.exists_cons_of_ne_nil (List.ne_nil_of_mem h)
  exact ⟨first, by rw [hrest]; rfl⟩

/-- Where nothing matches, nothing matches if the text ends earlier. -/
theorem firstHit?_eq_none_of_isPrefix (h : firstHit? rules ds = none) (hcut : cs <+: ds) :
    firstHit? rules cs = none := by
  rw [Option.eq_none_iff_forall_ne_some]
  intro hit hhit
  obtain ⟨hrule, hlength⟩ := mem_hits.mp (mem_hits_of_firstHit? hhit)
  obtain ⟨m, hm, -⟩ := Rule.exists_matchLength?_of_isPrefix hlength hcut
  have hmem : ⟨hit.index, hit.rule, m⟩ ∈ hits rules ds := mem_hits.mpr ⟨hrule, hm⟩
  obtain ⟨first, hfirst⟩ := exists_firstHit?_of_mem hmem
  rw [h] at hfirst
  cases hfirst

/-- The match chosen stays the same if the text behind it ends earlier. -/
theorem firstHit?_of_isPrefix {i : Nat} {r : Rule}
    (h : firstHit? rules (xs ++ ds) = some ⟨i, r, xs.length⟩) (hcut : cs <+: ds) :
    firstHit? rules (xs ++ cs) = some ⟨i, r, xs.length⟩ := by
  have hhits : rules[i]? = some r ∧ r.matchLength? (xs ++ ds) = some xs.length :=
    mem_hits.mp (mem_hits_of_firstHit? h)
  obtain ⟨hrule, hlength⟩ := hhits
  have hstrict := isStrict_of_mem_rules r (List.mem_of_getElem? hrule)
  have htakes := Rule.takes_of_matchLength? hstrict hlength
  rw [List.take_left' rfl, List.drop_left' rfl] at htakes
  have hpos : 0 < xs.length := length_pos_of_firstHit? h
  have hmatch := Rule.matchLength?_append hpos (htakes.of_isPrefix hcut)
  have hmem : ⟨i, r, xs.length⟩ ∈ hits rules (xs ++ cs) := mem_hits.mpr ⟨hrule, hmatch⟩
  obtain ⟨⟨i', r', n⟩, hhit⟩ := exists_firstHit?_of_mem hmem
  have hhits' : rules[i']? = some r' ∧ r'.matchLength? (xs ++ cs) = some n :=
    mem_hits.mp (mem_hits_of_firstHit? hhit)
  obtain ⟨hrule', hlength'⟩ := hhits'
  by_cases hi : i = i'
  · subst hi
    obtain rfl : r = r' := Option.some.inj (hrule.symm.trans hrule')
    obtain rfl : xs.length = n := Option.some.inj (hmatch.symm.trans hlength')
    exact hhit
  · -- Another rule would match more here, and so in the longer text too.
    have hlt : xs.length < n := ranked_rules.lt_length hhit hrule hmatch hi
    obtain ⟨m, hm, hle⟩ := Rule.exists_matchLength?_of_isPrefix hlength'
      ((List.prefix_append_right_inj xs).mpr hcut)
    have hlt' : m < xs.length := ranked_rules.lt_length h hrule' hm fun heq => hi heq.symm
    omega

end Prefixes

/-! ## Consecutive matches -/

/-- The token of a match, if it is not skipped. -/
def Match.token? (m : Match) : Option Token := m.rule.kind.map (tokenOf · m.lexeme)

/-- The tokens of some matches. -/
def tokensOf (ms : List Match) : List Token := ms.filterMap Match.token?

/-- What some matches take, one behind the other. -/
def taken (ms : List Match) : List Char := ms.flatMap fun m => m.lexeme.toList

/-- Each of the matches is the one that is chosen where the matches before it end, when the
    first of them starts at the position and the text goes on with `rest` behind the last. -/
def Consecutive : (position : Nat) → List Match → (rest : List Char) → Prop
  | _, [], _ => True
  | position, m :: ms, rest =>
    m.position = position
    ∧ firstHit? rules (m.lexeme.toList ++ (taken ms ++ rest))
        = some ⟨m.index, m.rule, m.lexeme.toList.length⟩
    ∧ Consecutive (position + m.lexeme.toList.length) ms rest

/-- The match is an operand with more characters than operands may have. -/
def Match.IsTooLong (m : Match) : Prop :=
  ∃ k, m.rule.kind = some k ∧ k.isOperand = true ∧ maxLexeme < m.lexeme.length

/-- The match is a token for which there is no room behind `count` tokens. -/
def Match.HasNoRoom (max : Int) (count : Nat) (m : Match) : Prop :=
  m.rule.kind ≠ none ∧ max ≤ (count : Int)

/-- None of the matches breaks a limit, when there are `count` tokens before the first one. -/
def KeepLimits (max : Int) : (count : Nat) → List Match → Prop
  | _, [] => True
  | count, m :: ms =>
    ¬ m.IsTooLong ∧ ¬ m.HasNoRoom max count ∧ KeepLimits max (count + (tokensOf [m]).length) ms

section Consecutive

variable {max : Int} {text : String} {position count : Nat} {m : Match} {ms : List Match}
  {rest cs : List Char} {tokens : Array Token} {log : Array Match}

theorem taken_cons (m : Match) (ms : List Match) :
    taken (m :: ms) = m.lexeme.toList ++ taken ms := List.flatMap_cons

theorem tokensOf_cons (m : Match) (ms : List Match) :
    tokensOf (m :: ms) = tokensOf [m] ++ tokensOf ms := List.filterMap_append (l := [m])

theorem taken_append (ms us : List Match) : taken (ms ++ us) = taken ms ++ taken us :=
  List.flatMap_append

theorem Consecutive.of_isPrefix (h : Consecutive position ms rest) (hcut : cs <+: rest) :
    Consecutive position ms cs := by
  induction ms generalizing position with
  | nil => trivial
  | cons m ms ih =>
    obtain ⟨hposition, hhit, hms⟩ := h
    refine ⟨hposition, firstHit?_of_isPrefix hhit ?_, ih hms⟩
    exact (List.prefix_append_right_inj _).mpr hcut

theorem Consecutive.append {us : List Match} (h : Consecutive position ms (taken us ++ rest))
    (hus : Consecutive (position + (taken ms).length) us rest) :
    Consecutive position (ms ++ us) rest := by
  induction ms generalizing position with
  | nil => exact hus
  | cons m ms ih =>
    obtain ⟨hposition, hhit, hms⟩ := h
    rw [taken_cons, List.length_append, ← Nat.add_assoc] at hus
    refine ⟨hposition, ?_, ih hms hus⟩
    show firstHit? rules (m.lexeme.toList ++ (taken (ms ++ us) ++ rest)) = _
    rw [taken_append, List.append_assoc]
    exact hhit

/-! ## Steps of lexing -/

theorem accept_of_isTooLong {k : TokenKind} (hk : m.rule.kind = some k) (h : m.IsTooLong) :
    accept max tokens k m.lexeme = .error (.lexemeTooLong m.lexeme maxLexeme) := by
  obtain ⟨k', hk', hop, hlong⟩ := h
  obtain rfl : k = k' := Option.some.inj (hk.symm.trans hk')
  rw [accept, hop, Bool.true_and, decide_eq_true hlong]
  rfl

theorem accept_of_not_isTooLong {k : TokenKind} (hk : m.rule.kind = some k)
    (h : ¬ m.IsTooLong) :
    accept max tokens k m.lexeme
      = if max ≤ (tokens.size : Int) then .error (.tooManyTokens max)
        else .ok (tokens.push (tokenOf k m.lexeme)) := by
  rw [accept, if_neg]
  intro hlong
  obtain ⟨hop, hlt⟩ := Bool.and_eq_true_iff.mp hlong
  exact h ⟨k, hk, hop, of_decide_eq_true hlt⟩

/-- One step of lexing, where a match is chosen. -/
theorem lexFrom_match
    (h : firstHit? rules (m.lexeme.toList ++ rest)
      = some ⟨m.index, m.rule, m.lexeme.toList.length⟩) (hposition : m.position = position) :
    lexFrom (firstHit? rules) max text position (m.lexeme.toList ++ rest) tokens log
      = match m.rule.kind with
        | none => lexFrom (firstHit? rules) max text (position + m.lexeme.toList.length) rest
            tokens (log.push m)
        | some kind =>
          match accept max tokens kind m.lexeme with
          | .error e => ⟨log.push m, .error e⟩
          | .ok tokens => lexFrom (firstHit? rules) max text
              (position + m.lexeme.toList.length) rest tokens (log.push m) := by
  subst hposition
  have hpos : 0 < m.lexeme.toList.length := length_pos_of_firstHit? h
  obtain ⟨c, cs, hxs⟩ := List.exists_cons_of_length_pos hpos
  have htake : (m.lexeme.toList ++ rest).take m.lexeme.toList.length = m.lexeme.toList :=
    List.take_left' rfl
  have hdrop : (m.lexeme.toList ++ rest).drop m.lexeme.toList.length = rest :=
    List.drop_left' rfl
  have hsplit : m.lexeme.toList ++ rest = c :: (cs ++ rest) := by
    rw [hxs, List.cons_append]
  rw [hsplit] at h htake hdrop ⊢
  rw [lexFrom_step max text m.position tokens log h (Nat.ne_of_gt hpos)]
  cases m.rule.kind with
  | none => simp only [htake, hdrop, String.ofList_toList]
  | some k =>
    cases haccept : accept max tokens k m.lexeme with
    | error e => simp only [htake, String.ofList_toList, haccept]
    | ok tokens => simp only [htake, hdrop, String.ofList_toList, haccept]

/-- Lexing goes through consecutive matches that break no limit. -/
theorem lexFrom_consecutive (h : Consecutive position ms rest)
    (hlimits : KeepLimits max tokens.size ms) :
    lexFrom (firstHit? rules) max text position (taken ms ++ rest) tokens log
      = lexFrom (firstHit? rules) max text (position + (taken ms).length) rest
          (tokens ++ (tokensOf ms).toArray) (log ++ ms.toArray) := by
  induction ms generalizing position tokens log with
  | nil =>
    show lexFrom _ max text position rest tokens log
      = lexFrom _ max text position rest (tokens ++ #[]) (log ++ #[])
    rw [Array.append_empty, Array.append_empty]
  | cons m ms ih =>
    obtain ⟨hposition, hhit, hms⟩ := h
    obtain ⟨hshort, hroom, hlimits⟩ := hlimits
    have hlog : log.push m ++ ms.toArray = log ++ (m :: ms).toArray := by simp
    rw [taken_cons, List.append_assoc, lexFrom_match hhit hposition, List.length_append,
      ← Nat.add_assoc, ← hlog]
    cases hk : m.rule.kind with
    | none =>
      have htokens : tokensOf [m] = [] := by simp [tokensOf, Match.token?, hk]
      rw [htokens] at hlimits
      rw [tokensOf_cons, htokens]
      exact ih hms hlimits
    | some k =>
      have htokens : tokensOf [m] = [tokenOf k m.lexeme] := by
        simp [tokensOf, Match.token?, hk]
      have hpush : tokens.push (tokenOf k m.lexeme) ++ (tokensOf ms).toArray
          = tokens ++ (tokensOf (m :: ms)).toArray := by
        rw [tokensOf_cons, htokens]
        simp
      have hfits : ¬ max ≤ (tokens.size : Int) :=
        fun hfull => hroom ⟨by rw [hk]; exact Option.some_ne_none k, hfull⟩
      rw [htokens] at hlimits
      simp only [accept_of_not_isTooLong hk hshort, if_neg hfits]
      rw [← hpush]
      refine ih hms ?_
      rw [Array.size_push]
      exact hlimits

end Consecutive

/-! ## Where lexing stops -/

/-- Matches that break no limit reach the end of a text, a place where nothing matches, or a
    match that breaks a limit. -/
theorem exists_consecutive (max : Int) (position count : Nat) (cs : List Char) :
    ∃ ms rest, cs = taken ms ++ rest ∧ Consecutive position ms rest
      ∧ KeepLimits max count ms
      ∧ (rest = [] ∨ (rest ≠ [] ∧ firstHit? rules rest = none)
        ∨ ∃ m more, rest = m.lexeme.toList ++ more
            ∧ Consecutive (position + (taken ms).length) [m] more
            ∧ (m.IsTooLong ∨ m.HasNoRoom max (count + (tokensOf ms).length))) := by
  induction hlen : cs.length using Nat.strong_induction_on generalizing cs position count with
  | _ len ih =>
    cases hhit : firstHit? rules cs with
    | none =>
      refine ⟨[], cs, rfl, trivial, trivial, ?_⟩
      by_cases hcs : cs = []
      · exact .inl hcs
      · exact .inr (.inl ⟨hcs, hhit⟩)
    | some hit =>
      have hpos := length_pos_of_firstHit? hhit
      have hle : hit.length ≤ cs.length :=
        Rule.matchLength?_le (mem_hits.mp (mem_hits_of_firstHit? hhit)).2
      let m : Match := ⟨hit.index, hit.rule, position, String.ofList (cs.take hit.length)⟩
      have hlexeme : m.lexeme.toList = cs.take hit.length := String.toList_ofList
      have hlength : m.lexeme.toList.length = hit.length := by
        rw [hlexeme, List.length_take, Nat.min_eq_left hle]
      have hsplit : cs = m.lexeme.toList ++ cs.drop hit.length := by
        rw [hlexeme, List.take_append_drop]
      have hchosen : firstHit? rules (m.lexeme.toList ++ cs.drop hit.length)
          = some ⟨m.index, m.rule, m.lexeme.toList.length⟩ := by
        rw [← hsplit, hlength, hhit]
      by_cases hbreak : m.IsTooLong ∨ m.HasNoRoom max count
      · exact ⟨[], cs, rfl, trivial, trivial,
          .inr (.inr ⟨m, cs.drop hit.length, hsplit, ⟨rfl, hchosen, trivial⟩, hbreak⟩)⟩
      -- A match that breaks no limit is passed, and the rest is shorter.
      · obtain ⟨hshort, hroom⟩ := not_or.mp hbreak
        have hless : (cs.drop hit.length).length < len := by
          rw [List.length_drop]
          omega
        obtain ⟨ms, rest, htaken, hms, hlimits, hstop⟩ := ih _ hless
          (position + m.lexeme.toList.length) (count + (tokensOf [m]).length) _ rfl
        rw [htaken] at hsplit hchosen
        refine ⟨m :: ms, rest, ?_, ⟨rfl, hchosen, hms⟩, ⟨hshort, hroom, hlimits⟩, ?_⟩
        · rw [hsplit, taken_cons, List.append_assoc]
        · rw [taken_cons, List.length_append, ← Nat.add_assoc, tokensOf_cons,
            List.length_append, ← Nat.add_assoc]
          exact hstop

section Tokenize

variable {max : Int} {text : String} {ms : List Match} {m : Match} {rest more : List Char}

/-- Lexing a text that starts with consecutive matches goes on behind them. -/
theorem tokenize_of_consecutive (htext : text.toList = taken ms ++ rest)
    (h : Consecutive 0 ms rest) (hlimits : KeepLimits max 0 ms) :
    tokenize text max = (lexFrom (firstHit? rules) max text (taken ms).length rest
      (tokensOf ms).toArray ms.toArray).result := by
  rw [tokenize, lex, lexWith, htext, lexFrom_consecutive h hlimits, Nat.zero_add,
    Array.empty_append, Array.empty_append]

/-- A text of consecutive matches that break no limit is split into their tokens. -/
theorem tokenize_of_taken (htext : text.toList = taken ms) (h : Consecutive 0 ms [])
    (hlimits : KeepLimits max 0 ms) : tokenize text max = .ok (tokensOf ms).toArray := by
  rw [tokenize_of_consecutive (by rw [htext, List.append_nil]) h hlimits, lexFrom]

theorem tokenize_of_noMatch (htext : text.toList = taken ms ++ rest)
    (h : Consecutive 0 ms rest) (hlimits : KeepLimits max 0 ms) (hne : rest ≠ [])
    (hnone : firstHit? rules rest = none) :
    tokenize text max = .error (.noMatch text (taken ms).length) := by
  obtain ⟨c, more, rfl⟩ := List.exists_cons_of_ne_nil hne
  rw [tokenize_of_consecutive htext h hlimits, lexFrom, hnone]

/-- The match behind those that break no limit is looked at next. Its length is looked at
    before its number. -/
theorem tokenize_of_breach (htext : text.toList = taken ms ++ (m.lexeme.toList ++ more))
    (h : Consecutive 0 ms (m.lexeme.toList ++ more)) (hlimits : KeepLimits max 0 ms)
    (hm : Consecutive (taken ms).length [m] more) :
    (m.IsTooLong → tokenize text max = .error (.lexemeTooLong m.lexeme maxLexeme))
    ∧ (¬ m.IsTooLong → m.HasNoRoom max (tokensOf ms).length →
        tokenize text max = .error (.tooManyTokens max)) := by
  obtain ⟨hposition, hchosen, -⟩ := hm
  have hhit : firstHit? rules (m.lexeme.toList ++ more)
      = some ⟨m.index, m.rule, m.lexeme.toList.length⟩ := hchosen
  rw [tokenize_of_consecutive htext h hlimits, lexFrom_match hhit hposition]
  refine ⟨fun hlong => ?_, fun hshort hroom => ?_⟩
  · obtain ⟨k, hk, -, -⟩ := id hlong
    simp only [hk, accept_of_isTooLong hk hlong]
  · obtain ⟨hkind, hfull⟩ := hroom
    obtain ⟨k, hk⟩ := Option.ne_none_iff_exists'.mp hkind
    rw [← List.size_toArray] at hfull
    simp only [hk, accept_of_not_isTooLong hk hshort, if_pos hfull]

/-- What follows the matches that break no limit decides the result: the end of the text, a
    place where nothing matches, or a match that breaks a limit. -/
theorem tokenize_cases (text : String) (max : Int) :
    ∃ ms rest, text.toList = taken ms ++ rest ∧ Consecutive 0 ms rest ∧ KeepLimits max 0 ms
      ∧ ((rest = [] ∧ tokenize text max = .ok (tokensOf ms).toArray)
        ∨ (rest ≠ [] ∧ firstHit? rules rest = none
          ∧ tokenize text max = .error (.noMatch text (taken ms).length))
        ∨ ∃ m more, rest = m.lexeme.toList ++ more ∧ Consecutive 0 (ms ++ [m]) more
          ∧ ((m.IsTooLong ∧ tokenize text max = .error (.lexemeTooLong m.lexeme maxLexeme))
            ∨ (¬ m.IsTooLong ∧ m.HasNoRoom max (tokensOf ms).length
              ∧ tokenize text max = .error (.tooManyTokens max)))) := by
  obtain ⟨ms, rest, htext, hms, hlimits, hstop⟩ := exists_consecutive max 0 0 text.toList
  refine ⟨ms, rest, htext, hms, hlimits, ?_⟩
  rcases hstop with rfl | ⟨hne, hnone⟩ | ⟨m, more, rfl, hm, hbreach⟩
  · rw [List.append_nil] at htext
    exact .inl ⟨rfl, tokenize_of_taken htext hms hlimits⟩
  · exact .inr (.inl ⟨hne, hnone, tokenize_of_noMatch htext hms hlimits hne hnone⟩)
  · rw [Nat.zero_add] at hm hbreach
    obtain ⟨hlong, hfull⟩ := tokenize_of_breach htext hms hlimits hm
    have hall : Consecutive 0 (ms ++ [m]) more := by
      refine Consecutive.append ?_ (by rw [Nat.zero_add]; exact hm)
      rw [taken_cons, List.append_assoc]
      exact hms
    refine .inr (.inr ⟨m, more, rfl, hall, ?_⟩)
    by_cases hm' : m.IsTooLong
    · exact .inl ⟨hm', hlong hm'⟩
    · have hroom := hbreach.resolve_left hm'
      exact .inr ⟨hm', hroom, hfull hm' hroom⟩

end Tokenize

end WordExpr.Lexer

namespace WordExpr

open Lexer

/-! ## What tokens are found -/

/-- The texts of the tokens are what is left of a text without its blanks. -/
theorem Writes.filter_eq {cs : List Char} {ts : List Token} (h : Writes cs ts) :
    cs.filter (fun c => !isSeparator c) = ts.flatMap fun t => t.text.toList := by
  induction h with
  | nil => rfl
  | blank hc _ ih => rw [List.filter_cons_of_neg (by rw [hc]; decide), ih]
  | @token t cs ts ht _ ih =>
    have hkeep : t.text.toList.filter (fun c => !isSeparator c) = t.text.toList := by
      rw [List.filter_eq_self]
      intro c hc
      have hgraphic : isSeparator c = false :=
        CharClass.contains_eq_false_of_disjoint (by decide) (ht.isGraphic c hc)
      rw [hgraphic]
      rfl
    rw [List.filter_append, hkeep, ih, List.flatMap_cons]

/-- The rule of a token matches the whole text of the token. -/
theorem Spells.matchLength?_text {cs : List Char} {ts : List Token} (h : Spells cs ts) :
    ∀ t ∈ ts, (ruleOf t.kind).matchLength? t.text.toList = some t.text.length := by
  induction h with
  | nil => exact fun t ht => absurd ht List.not_mem_nil
  | blank _ _ ih => exact ih
  | @token t cs ts ht htakes _ ih =>
    refine List.forall_mem_cons.mpr ⟨?_, ih⟩
    have hmatch := Rule.matchLength?_append (List.length_pos_iff.mpr ht.toList_ne_nil)
      (htakes.of_isPrefix (List.nil_prefix (l := cs)))
    rwa [List.append_nil] at hmatch

namespace Lexer

variable {text : String} {maxTokens : Int} {ts : Array Token} {t : Token}

theorem toList_compact_of_tokenize (h : tokenize text maxTokens = .ok ts) :
    (Token.compact ts.toList).toList = text.toList.filter fun c => c ≠ ' ' ∧ c ≠ '\t' := by
  have hfilter : text.toList.filter (fun c => !isSeparator c)
      = text.toList.filter fun c => c ≠ ' ' ∧ c ≠ '\t' := by
    congr
    funext c
    rw [Bool.eq_iff_iff, Bool.not_eq_true', Bool.eq_false_iff, Ne, isSeparator_iff, not_or,
      decide_eq_true_eq]
  rw [← hfilter, (writes_of_tokenize h).filter_eq, Token.compact, String.toList_join,
    List.flatMap_map]

theorem operand_of_tokenize (h : tokenize text maxTokens = .ok ts) (ht : t ∈ ts)
    (hop : t.kind.isOperand = true) :
    t.text.length ≤ 31 ∧ ∃ r ∈ rules, r.kind = some t.kind
      ∧ r.matchLength? t.text.toList = some t.text.length :=
  ⟨(lexable_of_tokenize h t ht).length_le hop, ruleOf t.kind, ruleOf_mem_rules t.kind,
    kind_ruleOf t.kind, (spells_of_tokenize h).matchLength?_text t (Array.mem_def.mp ht)⟩

/-- A place where nothing matches is inside the text. What stands before it is split into
    tokens, and every text that ends behind it fails at the same place. -/
theorem tokenize_prefix_of_noMatch {quoted : String} {p : Nat}
    (h : tokenize text maxTokens = .error (.noMatch quoted p)) :
    quoted = text ∧ p < text.length
      ∧ (∃ ts, tokenize (String.ofList (text.toList.take p)) maxTokens = .ok ts)
      ∧ ∀ q, p < q → tokenize (String.ofList (text.toList.take q)) maxTokens
          = .error (.noMatch (String.ofList (text.toList.take q)) p) := by
  obtain ⟨ms, rest, htext, hms, hlimits, hresult⟩ := tokenize_cases text maxTokens
  rcases hresult with ⟨-, hok⟩ | ⟨hne, hnone, herror⟩ | ⟨m, more, -, -, hbreach⟩
  · rw [h] at hok
    cases hok
  -- The matches before the place are chosen in every part of the text that reaches it.
  · rw [h] at herror
    cases herror
    have hlength : text.length = (taken ms).length + rest.length := by
      rw [← String.length_toList, htext, List.length_append]
    have hpos := List.length_pos_iff.mpr hne
    refine ⟨rfl, by omega, ⟨(tokensOf ms).toArray, ?_⟩, fun q hq => ?_⟩
    · refine tokenize_of_taken ?_ (hms.of_isPrefix List.nil_prefix) hlimits
      rw [String.toList_ofList, htext, List.take_left' rfl]
    · obtain ⟨k, rfl⟩ := Nat.exists_eq_add_of_lt hq
      have htaken : (String.ofList (text.toList.take ((taken ms).length + k + 1))).toList
          = taken ms ++ rest.take (k + 1) := by
        rw [String.toList_ofList, htext, Nat.add_assoc, List.take_length_add_append]
      have hcut : rest.take (k + 1) <+: rest := List.take_prefix _ _
      refine tokenize_of_noMatch htaken (hms.of_isPrefix hcut) hlimits ?_
        (firstHit?_eq_none_of_isPrefix hnone hcut)
      rw [Ne, List.take_eq_nil_iff]
      simp [hne]
  · rcases hbreach with ⟨-, herror⟩ | ⟨-, -, herror⟩
    · rw [h] at herror
      cases herror
    · rw [h] at herror
      cases herror

/-- The error of a limit is the one of the first match that breaks a limit. -/
theorem breach_of_tokenize {e : LexError} (h : tokenize text maxTokens = .error e)
    (he : ∀ quoted p, e ≠ .noMatch quoted p) :
    ∃ before m rest, text.toList = taken (before ++ [m]) ++ rest
      ∧ Consecutive 0 (before ++ [m]) rest ∧ KeepLimits maxTokens 0 before
      ∧ ((m.IsTooLong ∧ e = .lexemeTooLong m.lexeme maxLexeme)
        ∨ (¬ m.IsTooLong ∧ m.HasNoRoom maxTokens (tokensOf before).length
          ∧ e = .tooManyTokens maxTokens)) := by
  obtain ⟨ms, rest, htext, -, hlimits, hresult⟩ := tokenize_cases text maxTokens
  rw [h] at hresult
  rcases hresult with ⟨-, hok⟩ | ⟨-, -, herror⟩ | ⟨m, more, rfl, hm, hbreach⟩
  · cases hok
  · exact absurd (Except.error.inj herror) (he _ _)
  · refine ⟨ms, m, more, ?_, hm, hlimits, ?_⟩
    · rw [htext, taken_append, taken_cons, List.append_assoc, List.append_assoc]
      rfl
    · rcases hbreach with ⟨hlong, herror⟩ | ⟨hshort, hroom, herror⟩
      · exact .inl ⟨hlong, Except.error.inj herror⟩
      · exact .inr ⟨hshort, hroom, Except.error.inj herror⟩

/-- The tokens of a text are all of it but the blanks. They are no more than there may be, unless
    there are none, and each operand is short enough and is matched as a whole by the rule of its
    kind. Where nothing matches, what stands before is split into tokens, and a text that ends
    later fails at the same place. An error of a limit is that of the first match that breaks
    one; an operand that is too long is reported as that. -/
theorem tokenize_accounts_for_text (text : String) (maxTokens : Int) :
    (∀ ts, tokenize text maxTokens = .ok ts →
      (Token.compact ts.toList).toList = text.toList.filter (fun c => c ≠ ' ' ∧ c ≠ '\t')
      ∧ ((ts.size : Int) ≤ maxTokens ∨ ts.size = 0)
      ∧ ∀ t ∈ ts, t.kind.isOperand = true → t.text.length ≤ 31
          ∧ ∃ r ∈ rules, r.kind = some t.kind
            ∧ r.matchLength? t.text.toList = some t.text.length)
    ∧ (∀ quoted p, tokenize text maxTokens = .error (.noMatch quoted p) →
        quoted = text ∧ p < text.length
        ∧ (∃ ts, tokenize (String.ofList (text.toList.take p)) maxTokens = .ok ts)
        ∧ ∀ q, p < q → tokenize (String.ofList (text.toList.take q)) maxTokens
            = .error (.noMatch (String.ofList (text.toList.take q)) p))
    ∧ (∀ lexeme limit, tokenize text maxTokens = .error (.lexemeTooLong lexeme limit) →
        ∃ before m rest, text.toList = taken (before ++ [m]) ++ rest
          ∧ Consecutive 0 (before ++ [m]) rest ∧ KeepLimits maxTokens 0 before
          ∧ m.IsTooLong ∧ lexeme = m.lexeme ∧ limit = 31)
    ∧ (∀ limit, tokenize text maxTokens = .error (.tooManyTokens limit) →
        ∃ before m rest, text.toList = taken (before ++ [m]) ++ rest
          ∧ Consecutive 0 (before ++ [m]) rest ∧ KeepLimits maxTokens 0 before
          ∧ ¬ m.IsTooLong ∧ m.HasNoRoom maxTokens (tokensOf before).length
          ∧ limit = maxTokens) := by
  refine ⟨fun ts h => ?_, fun quoted p h => tokenize_prefix_of_noMatch h,
    fun lexeme limit h => ?_, fun limit h => ?_⟩
  · have hsize := (tokenize_eq_ok_iff.mp h).2
    refine ⟨toList_compact_of_tokenize h, ?_, fun t ht hop => operand_of_tokenize h ht hop⟩
    refine hsize.symm.imp_right fun hnone => ?_
    rw [← Array.length_toList, hnone, List.length_nil]
  · obtain ⟨before, m, rest, htext, hm, hlimits, ⟨hlong, he⟩ | ⟨-, -, he⟩⟩ :=
      breach_of_tokenize h nofun
    · cases he
      exact ⟨before, m, rest, htext, hm, hlimits, hlong, rfl, rfl⟩
    · cases he
  · obtain ⟨before, m, rest, htext, hm, hlimits, ⟨-, he⟩ | ⟨hshort, hroom, he⟩⟩ :=
      breach_of_tokenize h nofun
    · cases he
    · cases he
      exact ⟨before, m, rest, htext, hm, hlimits, hshort, hroom, rfl⟩

/-- Where there may be fewer than no tokens, a text without any is no error: its number is
    compared when a token is found. -/
theorem tokenize_blank_without_room :
    ∃ (text : String) (maxTokens : Int) (ts : Array Token),
      tokenize text maxTokens = .ok ts ∧ ¬ (ts.size : Int) ≤ maxTokens :=
  ⟨" ", -1, #[], by decide +kernel, by decide⟩

/-- The tokens of `12 + $a` are all of it but two blanks. Nothing matches at the third character
    of `1 # 2`, so its first two are split into tokens, and every longer part of it fails. Behind
    one token of at most one, a number of 32 digits is too long; a short one has no room. -/
theorem defects_of_texts :
    (Token.compact [⟨.dec, "12"⟩, .spelled (.op .add), ⟨.reg, "$a"⟩]).toList = "12+$a".toList
    ∧ (∃ ts, tokenize "1 " 9 = .ok ts)
    ∧ (∀ q, 2 < q → tokenize (String.ofList ("1 # 2".toList.take q)) 9
        = .error (.noMatch (String.ofList ("1 # 2".toList.take q)) 2))
    ∧ (∃ before m rest, "-11111111111111111111111111111111".toList
          = taken (before ++ [m]) ++ rest
        ∧ KeepLimits 1 0 before ∧ m.IsTooLong)
    ∧ ∃ before m rest, "-1".toList = taken (before ++ [m]) ++ rest
        ∧ KeepLimits 1 0 before ∧ m.HasNoRoom 1 (tokensOf before).length := by
  obtain ⟨hok, -, -, -⟩ := tokenize_accounts_for_text "12 + $a" 9
  obtain ⟨-, hnone, -, -⟩ := tokenize_accounts_for_text "1 # 2" 9
  obtain ⟨-, -, hlong, -⟩ := tokenize_accounts_for_text "-11111111111111111111111111111111" 1
  obtain ⟨-, -, -, hfull⟩ := tokenize_accounts_for_text "-1" 1
  refine ⟨?_, ?_, ?_, ?_, ?_⟩
  · exact (hok #[⟨.dec, "12"⟩, .spelled (.op .add), ⟨.reg, "$a"⟩] (by decide +kernel)).1
  · exact (hnone "1 # 2" 2 (by decide +kernel)).2.2.1
  · exact (hnone "1 # 2" 2 (by decide +kernel)).2.2.2
  · obtain ⟨before, m, rest, htext, -, hlimits, hm, -⟩ :=
      hlong "11111111111111111111111111111111" 31 (by decide +kernel)
    exact ⟨before, m, rest, htext, hlimits, hm⟩
  · obtain ⟨before, m, rest, htext, -, hlimits, -, hm, -⟩ := hfull 1 (by decide +kernel)
    exact ⟨before, m, rest, htext, hlimits, hm⟩

end Lexer

end WordExpr
