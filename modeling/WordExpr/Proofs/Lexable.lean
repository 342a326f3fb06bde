/-
  WordExpr.Proofs.Lexable

  Tokens as lexing makes them, and texts as writings of tokens.

  A token is `Lexable` if it is a decimal or hexadecimal literal or a register of the right
  form and length, or an operator or bracket with its own spelling. `Writes cs ts` says that
  the text `cs` is the texts of the tokens `ts` one after the other, with any blanks between
  them; `Spells cs ts` says besides that each token is all that its rule takes where it is
  written. Lexing reads nothing else: the tokens of a text are lexable and spelled in it
  (`spells_of_tokenize`).

  The rules are taken apart once, in `mem_rules` and the shapes below it.
-/
import WordExpr.Climb.Lexeme
import WordExpr.Lexer.Lexing
import WordExpr.Proofs.Matching

namespace WordExpr

namespace Lexer

/-! ## The rules -/

/-- The blanks that may stand between tokens. -/
def blanks : List (Char × Char) := [(' ', ' '), ('\t', '\t')]

/-- Does the character separate tokens? -/
def isSeparator (c : Char) : Bool := CharClass.contains ⟨blanks⟩ c

/-- Is this an ASCII digit? -/
def isDigit (c : Char) : Bool := CharClass.contains ⟨digits⟩ c

/-- Can the character stand in the name of a register? -/
def isNameChar (c : Char) : Bool := CharClass.contains ⟨nameChars⟩ c

/-- Is this an ASCII character that is printed and no blank? -/
def isGraphic (c : Char) : Bool := CharClass.contains ⟨[('!', '~')]⟩ c

theorem isSeparator_iff {c : Char} : isSeparator c = true ↔ c = ' ' ∨ c = '\t' := by
  rw [isSeparator, CharClass.contains_iff]
  constructor
  · rintro ⟨r, hr, hlo, hhi⟩
    have hsingle : ∀ r ∈ blanks, r.1 = r.2 ∧ (r.1 = ' ' ∨ r.1 = '\t') := by decide
    obtain ⟨heq, hblank⟩ := hsingle r hr
    rw [← heq] at hhi
    rw [Char.le_antisymm hhi hlo]
    exact hblank
  · rintro (rfl | rfl)
    · exact ⟨(' ', ' '), by decide, Char.le_refl _, Char.le_refl _⟩
    · exact ⟨('\t', '\t'), by decide, Char.le_refl _, Char.le_refl _⟩

theorem isDigit_iff {c : Char} : isDigit c = true ↔ c.isDigit = true := by
  rw [isDigit, CharClass.contains_iff, Char.isDigit_iff_toNat]
  constructor
  · rintro ⟨r, hr, hlo, hhi⟩
    have hr' : r = ('0', '9') := List.mem_singleton.mp hr
    subst hr'
    exact ⟨hlo, hhi⟩
  · rintro ⟨hlo, hhi⟩
    exact ⟨('0', '9'), List.mem_singleton_self _, hlo, hhi⟩

theorem toNat_of_isGraphic {c : Char} (h : isGraphic c = true) :
    33 ≤ c.toNat ∧ c.toNat ≤ 126 := by
  obtain ⟨r, hr, hlo, hhi⟩ := CharClass.contains_iff.mp h
  have hr' : r = ('!', '~') := List.mem_singleton.mp hr
  subst hr'
  exact ⟨hlo, hhi⟩

def blankRule : Rule := ⟨[.many blanks], none⟩
def hexRule : Rule := ⟨[.char '0', .char 'x', .between 1 8 hexDigits], some .hex⟩
def decRule : Rule := ⟨[.many digits, .maybe 'u'], some .dec⟩
def regRule : Rule := ⟨[.char '$', .many nameChars], some .reg⟩

/-- The kinds of tokens that are no operands, in the order of their rules. -/
def spelledKinds : List TokenKind := [
  .op .add, .op .sub, .op .mul, .op .div, .op .mod, .lparen, .rparen,
  .op .eq, .op .ne, .op .and, .op .or]

theorem rules_eq :
    rules = blankRule :: (spelledKinds.map Rule.spelled ++ [hexRule, decRule, regRule]) := rfl

theorem mem_spelledKinds {k : TokenKind} (h : k.isOperand = false) : k ∈ spelledKinds := by
  cases k with
  | op o => cases o <;> decide
  | lparen => decide
  | rparen => decide
  | _ => cases h

theorem isOperand_of_mem_spelledKinds : ∀ k ∈ spelledKinds, k.isOperand = false := by decide

theorem mem_rules {r : Rule} (h : r ∈ rules) :
    r = blankRule ∨ (∃ k ∈ spelledKinds, r = .spelled k) ∨ r = hexRule ∨ r = decRule
      ∨ r = regRule := by
  rw [rules_eq, List.mem_cons, List.mem_append, List.mem_map] at h
  rcases h with rfl | ⟨k, hk, rfl⟩ | h
  · exact .inl rfl
  · exact .inr (.inl ⟨k, hk, rfl⟩)
  · exact .inr (.inr (by simpa using h))

/-- What is skipped is blanks. -/
theorem eq_blankRule {r : Rule} (h : r ∈ rules) (hk : r.kind = none) : r = blankRule := by
  rcases mem_rules h with rfl | ⟨k, -, rfl⟩ | rfl | rfl | rfl
  · rfl
  all_goals cases hk

theorem isStrict_of_mem_rules : ∀ r ∈ rules, r.isStrict = true := by decide

/-- The rule that a token of a kind comes from. -/
def ruleOf : TokenKind → Rule
  | .dec => decRule
  | .hex => hexRule
  | .reg => regRule
  | k => .spelled k

theorem kind_ruleOf (k : TokenKind) : (ruleOf k).kind = some k := by
  cases k <;> rfl

theorem ruleOf_mem_rules (k : TokenKind) : ruleOf k ∈ rules := by
  cases k with
  | op o => cases o <;> decide
  | _ => decide

theorem ruleOf_spelled {k : TokenKind} (h : k.isOperand = false) : ruleOf k = .spelled k := by
  cases k <;> first | rfl | cases h

theorem eq_ruleOf {r : Rule} {k : TokenKind} (h : r ∈ rules) (hk : r.kind = some k) :
    r = ruleOf k := by
  rcases mem_rules h with rfl | ⟨k', hk', rfl⟩ | rfl | rfl | rfl
  · cases hk
  · cases hk
    exact (ruleOf_spelled (isOperand_of_mem_spelledKinds k hk')).symm
  all_goals
    cases hk
    rfl

/-! ## The shapes of lexemes -/

section Shapes

variable {xs rest : List Char}

theorem takes_char {c : Char} (h : (Piece.char c).Takes xs rest) : xs = [c] := by
  have hlen : xs.length = 1 := Nat.le_antisymm (h.most 1 rfl) h.least
  obtain ⟨d, rfl⟩ := List.length_eq_one_iff.mp hlen
  rw [CharClass.contains_single.mp (h.all d (List.mem_singleton_self d))]

theorem takes_map_char {cs : List Char} (h : Pattern.Takes (cs.map Piece.char) xs rest) :
    xs = cs := by
  induction cs generalizing xs with
  | nil =>
    cases h
    rfl
  | cons c cs ih =>
    cases h with
    | cons hc hrest => rw [takes_char hc, ih hrest, List.singleton_append]

theorem takes_spelled {k : TokenKind} (h : Pattern.Takes (Rule.spelled k).pattern xs rest) :
    xs = k.spelling.toList := takes_map_char h

theorem takes_blankRule (h : Pattern.Takes blankRule.pattern xs rest) :
    ∀ c ∈ xs, isSeparator c = true := by
  cases h with
  | cons hblanks hnil =>
    cases hnil
    rw [List.append_nil]
    exact hblanks.all

theorem takes_hexRule (h : Pattern.Takes hexRule.pattern xs rest) :
    ∃ ds, xs = '0' :: 'x' :: ds ∧ ds ≠ [] ∧ ds.length ≤ 8
      ∧ ∀ c ∈ ds, Climb.isHexDigit c = true := by
  cases h with
  | cons hzero hrest =>
    cases hrest with
    | cons hx hrest =>
      cases hrest with
      | @cons _ _ ds _ _ hds hnil =>
        cases hnil
        rw [takes_char hzero, takes_char hx, List.append_nil]
        exact ⟨ds, rfl, List.ne_nil_of_length_pos hds.least, hds.most 8 rfl, hds.all⟩

theorem takes_decRule (h : Pattern.Takes decRule.pattern xs rest) :
    ∃ ds suffix, xs = ds ++ suffix ∧ ds ≠ [] ∧ (∀ c ∈ ds, isDigit c = true)
      ∧ (suffix = [] ∨ suffix = ['u']) := by
  cases h with
  | @cons _ _ ds _ _ hds hrest =>
    cases hrest with
    | @cons _ _ suffix _ _ hsuffix hnil =>
      cases hnil
      rw [List.append_nil]
      -- The suffix is one character long at most.
      refine ⟨ds, suffix, rfl, List.ne_nil_of_length_pos hds.least, hds.all, ?_⟩
      match suffix, hsuffix.most 1 rfl, hsuffix.all with
      | [], _, _ => exact .inl rfl
      | [c], _, hall =>
        exact .inr (by rw [CharClass.contains_single.mp (hall c (List.mem_singleton_self c))])

theorem takes_regRule (h : Pattern.Takes regRule.pattern xs rest) :
    ∃ cs, xs = '$' :: cs ∧ cs ≠ [] ∧ ∀ c ∈ cs, isNameChar c = true := by
  cases h with
  | cons hsigil hrest =>
    cases hrest with
    | @cons _ _ cs _ _ hcs hnil =>
      cases hnil
      rw [takes_char hsigil, List.append_nil]
      exact ⟨cs, rfl, List.ne_nil_of_length_pos hcs.least, hcs.all⟩

end Shapes

end Lexer

open Lexer

/-! ## Lexable tokens -/

/-- Tokens of the form that lexing gives them. -/
inductive Token.Lexable : Token → Prop
  | dec {ds suffix : List Char} (hne : ds ≠ []) (hds : ∀ c ∈ ds, isDigit c = true)
      (hsuffix : suffix = [] ∨ suffix = ['u']) (hlen : (ds ++ suffix).length ≤ maxLexeme) :
      Lexable ⟨.dec, String.ofList (ds ++ suffix)⟩
  | hex {ds : List Char} (hne : ds ≠ []) (hlen : ds.length ≤ 8)
      (hds : ∀ c ∈ ds, Climb.isHexDigit c = true) :
      Lexable ⟨.hex, String.ofList ('0' :: 'x' :: ds)⟩
  | reg {cs : List Char} (hne : cs ≠ []) (hlen : cs.length ≤ 30)
      (hcs : ∀ c ∈ cs, isNameChar c = true) :
      Lexable ⟨.reg, String.ofList ('$' :: cs)⟩
  | spelled {k : TokenKind} (hk : k.isOperand = false) : Lexable (.spelled k)

namespace Token.Lexable

variable {t : Token}

theorem eq_spelled (h : t.Lexable) (hk : t.kind.isOperand = false) : t = .spelled t.kind := by
  cases h with
  | spelled _ => rfl
  | _ => cases hk

theorem length_le (h : t.Lexable) (hk : t.kind.isOperand = true) : t.text.length ≤ maxLexeme := by
  cases h with
  | dec _ _ _ hlen =>
    rw [String.length_ofList]
    exact hlen
  | hex _ hlen _ =>
    rw [String.length_ofList, List.length_cons, List.length_cons]
    exact Nat.le_trans (Nat.add_le_add_right hlen 2) (by decide)
  | reg _ hlen _ =>
    rw [String.length_ofList, List.length_cons]
    exact Nat.add_le_add_right hlen 1
  | spelled hk' =>
    rw [show (Token.spelled _).kind.isOperand = false from hk'] at hk
    cases hk

/-- The text of a token holds neither blanks nor anything that is not ASCII. -/
theorem isGraphic (h : t.Lexable) : ∀ c ∈ t.text.toList, isGraphic c = true := by
  cases h with
  | dec _ hds hsuffix _ =>
    rw [String.toList_ofList]
    refine List.forall_mem_append.mpr ⟨fun c hc => ?_, ?_⟩
    · exact CharClass.contains_of_within (by decide) (hds c hc)
    · rcases hsuffix with rfl | rfl
      · exact fun c hc => absurd hc List.not_mem_nil
      · exact List.forall_mem_singleton.mpr (by decide)
  | hex _ _ hds =>
    rw [String.toList_ofList, List.forall_mem_cons, List.forall_mem_cons]
    refine ⟨by decide, by decide, fun c hc => ?_⟩
    exact CharClass.contains_of_within (by decide) (hds c hc)
  | reg _ _ hcs =>
    rw [String.toList_ofList, List.forall_mem_cons]
    refine ⟨by decide, fun c hc => ?_⟩
    exact CharClass.contains_of_within (by decide) (hcs c hc)
  | @spelled k hk =>
    have hkinds : ∀ k ∈ spelledKinds, k.spelling.toList.all Lexer.isGraphic = true := by
      decide
    exact List.all_eq_true.mp (hkinds k (mem_spelledKinds hk))

theorem toList_ne_nil (h : t.Lexable) : t.text.toList ≠ [] := by
  cases h with
  | dec hne _ _ _ =>
    rw [String.toList_ofList]
    exact List.append_ne_nil_of_left_ne_nil hne _
  | @spelled k hk =>
    have hkinds : ∀ k ∈ spelledKinds, k.spelling.toList ≠ [] := by decide
    exact hkinds k (mem_spelledKinds hk)
  | _ =>
    rw [String.toList_ofList]
    exact List.cons_ne_nil _ _

/-- A token does not start with a blank. -/
theorem isSeparator_head (h : t.Lexable) (rest : List Char) :
    ∀ c ∈ (t.text.toList ++ rest).head?, isSeparator c = false := by
  obtain ⟨c, cs, htext⟩ := List.exists_cons_of_ne_nil h.toList_ne_nil
  have hc := h.isGraphic c (by rw [htext]; exact List.mem_cons_self)
  rw [htext]
  intro c' hc'
  cases hc'
  exact CharClass.contains_eq_false_of_disjoint (by decide) hc

end Token.Lexable

/-- A token made from a match of a rule is lexable and has the text of the match, if the
    match is not too long for an operand. -/
theorem Lexer.lexable_tokenOf {r : Rule} {k : TokenKind} {xs rest : List Char} (hr : r ∈ rules)
    (hk : r.kind = some k) (h : Pattern.Takes r.pattern xs rest)
    (hlen : k.isOperand = true → xs.length ≤ maxLexeme) :
    (tokenOf k (String.ofList xs)).Lexable ∧ (tokenOf k (String.ofList xs)).text.toList = xs := by
  rcases mem_rules hr with rfl | ⟨k', hk', rfl⟩ | rfl | rfl | rfl
  · cases hk
  · cases hk
    have hop := isOperand_of_mem_spelledKinds k hk'
    rw [tokenOf, hop, takes_spelled h]
    exact ⟨.spelled hop, rfl⟩
  · cases hk
    obtain ⟨ds, rfl, hne, hds, hall⟩ := takes_hexRule h
    exact ⟨.hex hne hds hall, String.toList_ofList⟩
  · cases hk
    obtain ⟨ds, suffix, rfl, hne, hall, hsuffix⟩ := takes_decRule h
    exact ⟨.dec hne hall hsuffix (hlen rfl), String.toList_ofList⟩
  · cases hk
    obtain ⟨cs, rfl, hne, hall⟩ := takes_regRule h
    exact ⟨.reg hne (Nat.le_of_succ_le_succ (hlen rfl)) hall, String.toList_ofList⟩

/-! ## Texts as writings of tokens -/

/-- The text is a writing of the tokens, with blanks anywhere between them. -/
inductive Writes : List Char → List Token → Prop
  | nil : Writes [] []
  | blank {c : Char} {cs : List Char} {ts : List Token} : isSeparator c = true →
      Writes cs ts → Writes (c :: cs) ts
  | token {t : Token} {cs : List Char} {ts : List Token} : t.Lexable →
      Writes cs ts → Writes (t.text.toList ++ cs) (t :: ts)

namespace Writes

variable {cs xs : List Char} {ts : List Token}

theorem of_token {a : Token} (ha : a.Lexable) : Writes a.text.toList [a] := by
  have hw := Writes.token ha .nil
  rw [List.append_nil] at hw
  exact hw

theorem lexable (h : Writes cs ts) : ∀ t ∈ ts, t.Lexable := by
  induction h with
  | nil => exact fun t ht => absurd ht (List.not_mem_nil)
  | blank _ _ ih => exact ih
  | token ht _ ih => exact List.forall_mem_cons.mpr ⟨ht, ih⟩

theorem length_le (h : Writes cs ts) : ts.length ≤ cs.length := by
  induction h with
  | nil => exact Nat.le_refl 0
  | blank _ _ ih => exact Nat.le_succ_of_le ih
  | @token t cs ts ht _ ih =>
    have hpos := List.length_pos_iff.mpr ht.toList_ne_nil
    rw [List.length_cons, List.length_append]
    omega

theorem append {ds : List Char} {us : List Token} (h : Writes cs ts) (hd : Writes ds us) :
    Writes (cs ++ ds) (ts ++ us) := by
  induction h with
  | nil => exact hd
  | blank hc _ ih => exact .blank hc ih
  | @token t cs ts ht _ ih =>
    rw [List.append_assoc]
    exact .token ht ih

end Writes

/-- The text is a writing of the tokens in which each of them is all that its rule takes where
    it stands. -/
inductive Spells : List Char → List Token → Prop
  | nil : Spells [] []
  | blank {c : Char} {cs : List Char} {ts : List Token} : isSeparator c = true →
      Spells cs ts → Spells (c :: cs) ts
  | token {t : Token} {cs : List Char} {ts : List Token} : t.Lexable →
      Pattern.Takes (ruleOf t.kind).pattern t.text.toList cs →
      Spells cs ts → Spells (t.text.toList ++ cs) (t :: ts)

namespace Spells

variable {cs xs : List Char} {ts : List Token}

theorem writes (h : Spells cs ts) : Writes cs ts := by
  induction h with
  | nil => exact .nil
  | blank hc _ ih => exact .blank hc ih
  | token ht _ _ ih => exact .token ht ih

theorem blanks (hxs : ∀ c ∈ xs, isSeparator c = true) (h : Spells cs ts) :
    Spells (xs ++ cs) ts := by
  induction xs with
  | nil => exact h
  | cons c xs ih =>
    obtain ⟨hc, hrest⟩ := List.forall_mem_cons.mp hxs
    exact .blank hc (ih hrest)

end Spells

namespace Lexer

@[simp] theorem kind_tokenOf (k : TokenKind) (lexeme : String) : (tokenOf k lexeme).kind = k := by
  unfold tokenOf
  split <;> rfl

/-- A token is accepted only if neither limit is broken. -/
theorem accept_eq_ok {max : Int} {tokens out : Array Token} {kind : TokenKind} {lexeme : String}
    (h : accept max tokens kind lexeme = .ok out) :
    out = tokens.push (tokenOf kind lexeme)
      ∧ (kind.isOperand = true → lexeme.length ≤ maxLexeme) := by
  unfold accept at h
  split at h
  · cases h
  rename_i hshort
  split at h
  · cases h
  cases h
  refine ⟨rfl, fun hop => ?_⟩
  rw [hop, Bool.true_and, decide_eq_true_eq] at hshort
  exact Nat.le_of_not_lt hshort

/-- Lexing the rest of a text adds the tokens that are spelled in it. -/
theorem spells_of_lexFrom {max : Int} {text : String} {position : Nat} {cs : List Char}
    {tokens out : Array Token} {log : Array Match}
    (h : (lexFrom (firstHit? rules) max text position cs tokens log).result = .ok out) :
    ∃ ts, out = tokens ++ ts.toArray ∧ Spells cs ts := by
  fun_induction lexFrom (firstHit? rules) max text position cs tokens log with
  | case1 position tokens log =>
    cases h
    exact ⟨[], (Array.append_empty).symm, .nil⟩
  | case2 => cases h
  | case3 => cases h
  | case4 position tokens log c more hit hhit hpos lexeme rest log' hkind ih =>
    obtain ⟨hr, hmatch⟩ := matchLength?_of_firstHit? hhit
    have htakes := Rule.takes_of_matchLength? (isStrict_of_mem_rules _ hr) hmatch
    obtain ⟨ts, rfl, hrest⟩ := ih h
    -- What is skipped are blanks, which may stand before what is spelled in the rest.
    have hblank : hit.rule = blankRule := eq_blankRule hr hkind
    rw [hblank] at htakes
    have hspells := Spells.blanks (takes_blankRule htakes) hrest
    rw [List.take_append_drop] at hspells
    exact ⟨ts, rfl, hspells⟩
  | case5 => cases h
  | case6 position tokens log c more hit hhit hpos lexeme rest log' kind hkind tokens' haccept ih =>
    obtain ⟨hr, hmatch⟩ := matchLength?_of_firstHit? hhit
    have htakes := Rule.takes_of_matchLength? (isStrict_of_mem_rules _ hr) hmatch
    -- The token that is kept has the text of the match.
    obtain ⟨rfl, hlen⟩ := accept_eq_ok haccept
    obtain ⟨hlexable, htext⟩ := lexable_tokenOf hr hkind htakes fun hop => by
      rw [← String.length_ofList]
      exact hlen hop
    obtain ⟨ts, rfl, hrest⟩ := ih h
    have htoken : Pattern.Takes (ruleOf (tokenOf kind lexeme).kind).pattern
        (tokenOf kind lexeme).text.toList rest := by
      rw [kind_tokenOf, ← eq_ruleOf hr hkind, htext]
      exact htakes
    have hspells := Spells.token hlexable htoken hrest
    rw [htext, List.take_append_drop] at hspells
    exact ⟨tokenOf kind lexeme :: ts, by simp, hspells⟩

/-- The tokens of a text are lexable and spelled in it. -/
theorem spells_of_tokenize {max : Int} {text : String} {ts : Array Token}
    (h : tokenize text max = .ok ts) : Spells text.toList ts.toList := by
  obtain ⟨ts, rfl, hs⟩ := spells_of_lexFrom h
  rw [Array.empty_append]
  exact hs

theorem writes_of_tokenize {max : Int} {text : String} {ts : Array Token}
    (h : tokenize text max = .ok ts) : Writes text.toList ts.toList :=
  (spells_of_tokenize h).writes

theorem lexable_of_tokenize {max : Int} {text : String} {ts : Array Token}
    (h : tokenize text max = .ok ts) : ∀ a ∈ ts, a.Lexable :=
  fun a ha => (writes_of_tokenize h).lexable a (Array.mem_def.mp ha)

end Lexer

end WordExpr
