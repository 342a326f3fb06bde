/-
  WordExpr.Proofs.Scanning

  Scanning and lexing agree on what both know. A token is plain if plain arithmetic has it
  too: a literal, a bracket, or an operator that is not logical. Scanning finds the lexemes
  of the plain tokens that a text is a writing of, if no two operands follow each other in it
  (`Climb.scan_of_writes`).

  Scanning takes more: digits and blanks of every script, and numerals of any length. A
  lexeme that has the text of a token is still the token's (`Token.Lexable.lexeme_eq`).
-/
import WordExpr.Proofs.Literals
import WordExpr.Proofs.Spacing

namespace WordExpr

/-- Does plain arithmetic have the token too? -/
def Token.isPlain (t : Token) : Bool :=
  match t.kind with
  | .reg => false
  | .op o => (Climb.strength? o).isSome
  | _ => true

/-- The lexeme of a plain token. -/
def Token.lexeme (t : Token) : Climb.Lexeme :=
  match t.kind with
  | .op o => .op o
  | .lparen => .lparen
  | .rparen => .rparen
  | _ => .numeral t.text

/-- A plain operand is a literal. -/
theorem Token.literal_of_isPlain {t : Token} (hop : t.kind.isOperand = true)
    (hplain : t.isPlain = true) : t.kind.isLiteral = true ∧ t.lexeme = .numeral t.text := by
  cases hk : t.kind with
  | dec => exact ⟨rfl, by rw [lexeme, hk]⟩
  | hex => exact ⟨rfl, by rw [lexeme, hk]⟩
  | reg =>
    rw [isPlain, hk] at hplain
    cases hplain
  | _ =>
    rw [hk] at hop
    cases hop

theorem Token.Lexable.text_lexeme {t : Token} (ht : t.Lexable) : t.lexeme.text = t.text := by
  cases ht with
  | @spelled k hk =>
    cases k with
    | op o => rfl
    | lparen => rfl
    | rparen => rfl
    | _ => cases hk
  | _ => rfl

/-- The lexemes of operators and brackets are those of no other token. -/
theorem Token.Lexable.of_lexeme {t : Token} (ht : t.Lexable) :
    match t.lexeme with
    | .numeral _ => t.kind.isOperand = true
    | .op o => t = .spelled (.op o)
    | .lparen => t = .spelled .lparen
    | .rparen => t = .spelled .rparen := by
  cases ht with
  | @spelled k hk =>
    cases k with
    | op o => rfl
    | lparen => rfl
    | rparen => rfl
    | _ => cases hk
  | _ => rfl

namespace Climb

open Lexer

variable {c : Char} {cs ds rest : List Char} {t : Token} {ts : List Token}

/-! ## One lexeme -/

theorem isDecimal_of_isDigit (h : isDigit c = true) : Text.isDecimal c = true := by
  rw [Text.isDecimal, Text.digitValue?_of_isDigit (isDigit_iff.mp h)]
  rfl

/-- A decimal numeral ends where its digits end, or behind the suffix. -/
theorem decimal?_append {suffix : List Char} (hne : ds ≠ [])
    (hds : ∀ c ∈ ds, isDigit c = true) (hsuffix : suffix = [] ∨ suffix = ['u'])
    (hrest : ∀ c ∈ rest.head?, c ∈ boundaries) :
    decimal? (ds ++ suffix ++ rest) = some (.numeral (String.ofList (ds ++ suffix))) := by
  have hend : ∀ c ∈ (suffix ++ rest).head?, Text.isDecimal c = false := by
    rcases hsuffix with rfl | rfl
    · exact fun c hc => (stops_of_mem_boundaries (hrest c hc)).2.2.2.2
    · rintro c hc
      cases hc
      decide
  -- The run of digits ends at the suffix or at the boundary.
  have htake : (ds ++ suffix ++ rest).takeWhile Text.isDecimal = ds := by
    rw [List.append_assoc]
    exact Piece.takeWhile_append_of_stops (fun c hc => isDecimal_of_isDigit (hds c hc)) hend
  have hempty : ¬ ds.isEmpty = true := fun h => hne (List.isEmpty_iff.mp h)
  have hdrop : (ds ++ suffix ++ rest).drop ds.length = suffix ++ rest := by
    rw [List.append_assoc, List.drop_left' rfl]
  rw [decimal?]
  simp only [htake, hdrop]
  rw [if_neg hempty]
  -- Where no suffix was written, none is found: a `u` is no boundary.
  rcases hsuffix with rfl | rfl
  · rw [List.append_nil]
    split
    · rename_i more heq
      have hu : 'u' ∈ rest.head? := by
        rw [← List.nil_append rest, heq]
        rfl
      exact absurd rfl (stops_of_mem_boundaries (hrest 'u' hu)).2.1
    · rfl
  · rfl

theorem lexeme?_of_isDigit (hc : isDigit c = true) (hx : ∀ d ∈ cs.head?, d ≠ 'x') :
    lexeme? (c :: cs) = decimal? (c :: cs) := by
  unfold lexeme?
  split
  · rename_i r heq
    have hcs : cs = 'x' :: r := (List.cons.inj heq).2
    exact absurd rfl (hx 'x' (by rw [hcs]; rfl))
  -- No operator or bracket starts with a digit.
  all_goals first
    | rfl
    | (rename_i heq; rw [(List.cons.inj heq).1] at hc; exact absurd hc (by decide))

/-- The lexeme of a plain token is found where the token is written before a boundary. -/
theorem lexeme?_of_lexable (ht : t.Lexable) (hplain : t.isPlain = true)
    (hrest : t.kind.isOperand = true → ∀ c ∈ rest.head?, c ∈ boundaries) :
    lexeme? (t.text.toList ++ rest) = some t.lexeme := by
  cases ht with
  | @dec ds suffix hne hds hsuffix hlen =>
    rw [String.toList_ofList]
    obtain ⟨c, ds, rfl⟩ := List.exists_cons_of_ne_nil hne
    obtain ⟨hc, hds'⟩ := List.forall_mem_cons.mp hds
    have hx := head_ne_x_of_dec hds' hsuffix fun d hd => ne_x_of_mem_boundaries (hrest rfl d hd)
    rw [List.cons_append, List.cons_append, lexeme?_of_isDigit hc hx, ← List.cons_append,
      ← List.cons_append, decimal?_append hne hds hsuffix (hrest rfl)]
    rfl
  | @hex ds hne hlen hds =>
    have htake : (ds ++ rest).takeWhile isHexDigit = ds :=
      Piece.takeWhile_append_of_stops hds fun c hc =>
        (stops_of_mem_boundaries (hrest rfl c hc)).2.2.1
    have hempty : ¬ ds.isEmpty = true := fun h => hne (List.isEmpty_iff.mp h)
    rw [String.toList_ofList, List.cons_append, List.cons_append, lexeme?]
    simp only [htake]
    rw [if_neg hempty]
    rfl
  | reg => cases hplain
  | @spelled k hk =>
    cases k with
    | op o => cases o <;> first | rfl | cases hplain
    | lparen => rfl
    | rparen => rfl
    | _ => cases hk

/-! ## All lexemes -/

/-- One step of scanning, when blanks stand before the characters `xs` of a lexeme. -/
theorem scanFrom_lexeme {text : String} {found : Array Lexeme} {l : Lexeme}
    {run xs : List Char} (hrun : ∀ c ∈ run, Text.isBlank c = true) (hne : xs ≠ [])
    (hxs : ∀ c ∈ xs, Text.isBlank c = false) (hl : lexeme? (xs ++ rest) = some l)
    (hlen : l.text.length = xs.length) :
    scanFrom text (run ++ (xs ++ rest)) found = scanFrom text rest (found.push l) := by
  have hpos : ¬ l.text.length = 0 := by
    rw [hlen]
    exact fun h => hne (List.length_eq_zero_iff.mp h)
  have hstart : (run ++ (xs ++ rest)).dropWhile Text.isBlank = xs ++ rest := by
    rw [List.dropWhile_append_of_pos hrun]
    obtain ⟨c, more, rfl⟩ := List.exists_cons_of_ne_nil hne
    rw [List.cons_append,
      List.dropWhile_cons_of_neg (by rw [hxs c List.mem_cons_self]; decide)]
  -- The lexeme takes as many characters as were written.
  have hdrop : (xs ++ rest).drop l.text.length = rest := by rw [hlen, List.drop_left' rfl]
  have hne' : run ++ (xs ++ rest) ≠ [] :=
    List.append_ne_nil_of_right_ne_nil run (List.append_ne_nil_of_left_ne_nil hne rest)
  obtain ⟨c, more, hcons⟩ := List.exists_cons_of_ne_nil hne'
  rw [hcons] at hstart ⊢
  rw [scanFrom.eq_def]
  simp only [hstart, hl]
  rw [dif_neg hpos, hdrop]

/-- Scanning a writing of plain tokens that are apart, without blanks behind it, finds the
    lexemes of these tokens. -/
theorem scanFrom_of_writes {text : String} {found : Array Lexeme} (h : Writes cs ts)
    (hts : Apart ts) (hplain : ∀ t ∈ ts, t.isPlain = true)
    (hend : ∀ c ∈ cs.getLast?, Text.isBlank c = false) :
    scanFrom text cs found = .ok (found ++ (ts.map Token.lexeme).toArray) := by
  induction ts generalizing cs found with
  | nil =>
    have hblank := h.isSeparator_of_nil
    -- The blanks that are left were trimmed, so there are none.
    have hnil : cs = [] := by
      refine List.getLast?_eq_none_iff.mp (Option.eq_none_iff_forall_not_mem.mpr fun c hc => ?_)
      have hc' := Text.isBlank_of_isSeparator (hblank c (List.mem_of_mem_getLast? hc))
      rw [hend c hc] at hc'
      cases hc'
    rw [hnil, scanFrom.eq_def, List.map_nil, Array.append_empty]
  | cons t ts ih =>
    obtain ⟨run, rest, rfl, hrun, ht, hw⟩ := h.exists_of_cons
    obtain ⟨hnext, hts'⟩ := List.isChain_cons.mp hts
    obtain ⟨hplain', hplains⟩ := List.forall_mem_cons.mp hplain
    have hbound : t.kind.isOperand = true → ∀ c ∈ rest.head?, c ∈ boundaries :=
      fun hop => hw.head_mem_boundaries fun b hb => hnext b hb hop
    have hl := lexeme?_of_lexable ht hplain' hbound
    have hlen : t.lexeme.text.length = t.text.toList.length := by
      rw [ht.text_lexeme, String.length_toList]
    have hend' : ∀ c ∈ rest.getLast?, Text.isBlank c = false := by
      intro c hc
      refine hend c ?_
      rw [List.getLast?_append, List.getLast?_append, Option.mem_def.mp hc]
      rfl
    rw [scanFrom_lexeme (fun c hc => Text.isBlank_of_isSeparator (hrun c hc)) ht.toList_ne_nil
      (fun c hc => Text.isBlank_of_isGraphic (ht.isGraphic c hc)) hl hlen,
      ih hw hts' hplains hend']
    simp

theorem scan_of_writes {text : String} (h : Writes text.toList ts) (hts : Apart ts)
    (hplain : ∀ t ∈ ts, t.isPlain = true) :
    scan text = .ok (ts.map Token.lexeme).toArray := by
  have hend : ∀ c ∈ (Text.stripEnd text.toList).getLast?, Text.isBlank c = false := by
    intro c hc
    rw [Text.stripEnd, Text.dropEndWhile, List.getLast?_reverse] at hc
    have hhead := List.head?_dropWhile_not Text.isBlank text.toList.reverse
    rw [Option.mem_def.mp hc] at hhead
    simpa using hhead
  rw [scan, scanFrom_of_writes h.stripEnd hts hplain hend, Array.empty_append]

/-! ## Lexemes and tokens of the same text -/

/-- Numerals of the form that scanning gives them. -/
inductive IsNumeral : String → Prop
  | hexadecimal {ds : List Char} (hne : ds ≠ []) (hds : ∀ c ∈ ds, isHexDigit c = true) :
      IsNumeral (String.ofList ('0' :: 'x' :: ds))
  | decimal {ds suffix : List Char} (hne : ds ≠ []) (hds : ∀ c ∈ ds, Text.isDecimal c = true)
      (hsuffix : suffix = [] ∨ suffix = ['u']) : IsNumeral (String.ofList (ds ++ suffix))

/-- A numeral starts with a digit. -/
theorem IsNumeral.isDecimal_head {text : String} (h : IsNumeral text) :
    ∃ c ∈ text.toList.head?, Text.isDecimal c = true := by
  cases h with
  | hexadecimal hne hds => exact ⟨'0', by rw [String.toList_ofList]; rfl, by decide⟩
  | @decimal ds suffix hne hds hsuffix =>
    obtain ⟨c, cs, rfl⟩ := List.exists_cons_of_ne_nil hne
    exact ⟨c, by rw [String.toList_ofList]; rfl, hds c List.mem_cons_self⟩

/-- Lexemes of the form that scanning gives them. -/
def Lexeme.IsScanned : Lexeme → Prop
  | numeral text => IsNumeral text
  | op o => (strength? o).isSome = true
  | _ => True

theorem isScanned_of_decimal? {l : Lexeme} (h : decimal? cs = some l) : l.IsScanned := by
  unfold decimal? at h
  simp only at h
  split at h
  · cases h
  rename_i hne
  have hdigits : cs.takeWhile Text.isDecimal ≠ [] := fun hnil => hne (List.isEmpty_iff.mpr hnil)
  have hall := List.all_eq_true.mp (List.all_takeWhile (l := cs) (p := Text.isDecimal))
  split at h
  · cases h
    exact .decimal hdigits hall (.inr rfl)
  · cases h
    have hnumeral := IsNumeral.decimal hdigits hall (.inl rfl)
    rwa [List.append_nil] at hnumeral

theorem isScanned_of_lexeme? {l : Lexeme} (h : lexeme? cs = some l) : l.IsScanned := by
  unfold lexeme? at h
  split at h
  · rename_i r
    simp only at h
    split at h
    · exact isScanned_of_decimal? h
    · rename_i hne
      cases h
      have hall := List.all_eq_true.mp (List.all_takeWhile (l := r) (p := isHexDigit))
      exact .hexadecimal (fun hnil => hne (List.isEmpty_iff.mpr hnil)) hall
  all_goals first
    | exact isScanned_of_decimal? h
    | (cases h; exact rfl)
    | (cases h; exact trivial)

theorem isScanned_of_scan {text : String} {ls : Array Lexeme} (h : scan text = .ok ls) :
    ∀ l ∈ ls, l.IsScanned := by
  have hfrom : ∀ {text : String} {cs : List Char} {found out : Array Lexeme},
      scanFrom text cs found = .ok out → (∀ l ∈ found, l.IsScanned) → ∀ l ∈ out, l.IsScanned := by
    intro text cs found out hscan hfound
    fun_induction scanFrom text cs found with
    | case1 found =>
      cases hscan
      exact hfound
    | case2 => cases hscan
    | case3 => cases hscan
    | case4 found c more start l hl hpos ih =>
      refine ih hscan fun l' hl' => ?_
      rcases Array.mem_push.mp hl' with hl' | rfl
      · exact hfound l' hl'
      · exact isScanned_of_lexeme? hl
  exact hfrom h fun l hl => absurd hl (Array.not_mem_empty l)

end Climb

namespace Token.Lexable

open Lexer Climb

variable {t : Token}

/-- An operand starts with a digit or a `$`, and not where an operand could end. -/
theorem head_not_mem_boundaries (ht : t.Lexable) (hk : t.kind.isOperand = true) :
    ∀ c ∈ t.text.toList.head?, c ∉ boundaries := by
  cases ht with
  | @dec ds suffix hne hds hsuffix hlen =>
    obtain ⟨d, ds, rfl⟩ := List.exists_cons_of_ne_nil hne
    rw [String.toList_ofList]
    intro c hc hmem
    cases hc
    have hd := hds d List.mem_cons_self
    rw [(stops_of_mem_boundaries hmem).1] at hd
    cases hd
  | @hex ds hne hlen hds =>
    rw [String.toList_ofList]
    rintro c hc
    cases hc
    decide
  | @reg cs hne hlen hcs =>
    rw [String.toList_ofList]
    rintro c hc
    cases hc
    decide
  | spelled hop =>
    rw [show (Token.spelled _).kind.isOperand = false from hop] at hk
    cases hk

/-- The spelling of an operator or bracket is no text of an operand. -/
theorem eq_spelled_of_text (ht : t.Lexable) {k : TokenKind} (hk : k.isOperand = false)
    (h : t.text = k.spelling) : t = .spelled k := by
  have hinjective : ∀ k ∈ spelledKinds, ∀ k' ∈ spelledKinds, k.spelling = k'.spelling → k = k' := by
    decide
  cases hop : t.kind.isOperand with
  | true =>
    -- An operand does not start where a spelling does.
    obtain ⟨c, cs, hspelling, hc⟩ := exists_spelling_eq hk
    have hhead := ht.head_not_mem_boundaries hop c
    rw [h, hspelling] at hhead
    exact absurd hc (hhead rfl)
  | false =>
    have hspelled := ht.eq_spelled hop
    have htext : t.kind.spelling = k.spelling := by
      rw [← h]
      exact (congrArg Token.text hspelled).symm
    rw [hspelled, hinjective _ (mem_spelledKinds hop) _ (mem_spelledKinds hk) htext]

/-- A token with the text of a lexeme is plain, and the lexeme is its own. -/
theorem lexeme_eq (ht : t.Lexable) {l : Lexeme} (hl : l.IsScanned) (h : t.text = l.text) :
    t.isPlain = true ∧ t.lexeme = l := by
  cases l with
  | numeral s =>
    obtain ⟨c, hc, hdecimal⟩ := IsNumeral.isDecimal_head hl
    have htext : t.text = s := h
    rw [← htext] at hc ⊢
    cases ht with
    | dec => exact ⟨rfl, rfl⟩
    | hex => exact ⟨rfl, rfl⟩
    | reg =>
      rw [String.toList_ofList] at hc
      cases hc
      exact absurd hdecimal (by decide)
    | @spelled k hk =>
      obtain ⟨d, cs, hspelling, hd⟩ := exists_spelling_eq hk
      have htoList : (Token.spelled k).text.toList = d :: cs := hspelling
      rw [htoList] at hc
      cases hc
      rw [(stops_of_mem_boundaries hd).2.2.2.2] at hdecimal
      cases hdecimal
  | op o =>
    rw [ht.eq_spelled_of_text (k := .op o) rfl h]
    exact ⟨hl, rfl⟩
  | lparen =>
    rw [ht.eq_spelled_of_text (k := .lparen) rfl h]
    exact ⟨rfl, rfl⟩
  | rparen =>
    rw [ht.eq_spelled_of_text (k := .rparen) rfl h]
    exact ⟨rfl, rfl⟩

end Token.Lexable

end WordExpr
