/-
  WordExpr.Proofs.Arithmetic

  Plain arithmetic computes trees of numerals. What scanning finds as a numeral denotes a
  number, by hexadecimal digits behind `0x` or by decimal digits of any script
  (`Climb.numberOf`), and has the word of that number as its value; only a numeral of more
  decimal digits than are read has none (`Climb.IsNumeral.numeralValue`).

  So the lexemes of a text have a value exactly if they are those of a canonical tree that has
  one, and otherwise such a tree fails as the first of its subtrees in post-order
  (`Climb.valueOf_eq_ok_iff`). An overlong numeral is why a division by zero is not the only
  failure of a tree (`Climb.valueOf_overlong_numeral`).
-/
import WordExpr.Proofs.Climbing
import WordExpr.Proofs.Scanning

namespace WordExpr

/-! ## Numerals -/

namespace Climb

variable {text : String} {w : Width}

/-- The number that a numeral denotes. Its suffix is no digit. -/
def numberOf (text : String) : Nat :=
  match text.toList with
  | '0' :: 'x' :: ds => Numeral.bodyValue .hexadecimal ds
  | cs => (cs.filterMap Text.digitValue?).foldl (fun v d => v * 10 + d) 0

/-- How many decimal digits a numeral has. A hexadecimal one has none. -/
def decimalDigits (text : String) : Nat :=
  match text.toList with
  | '0' :: 'x' :: _ => 0
  | cs => (cs.filter Text.isDecimal).length

/-- The word that a numeral denotes, unless it has more decimal digits than are read. -/
def numeralWord (w : Width) (text : String) : Except Failure Nat :=
  if Numeral.maxDecimalDigits < decimalDigits text then
    .error (.numeral (.tooManyDigits (decimalDigits text)))
  else .ok (w.wrap (numberOf text)).toNat

theorem ne_of_isDecimal {c : Char} (h : Text.isDecimal c = true) : c ≠ 'x' ∧ c ≠ 'u' := by
  constructor
  · rintro rfl
    exact absurd h (by decide)
  · rintro rfl
    exact absurd h (by decide)

/-- Decimal digits and a suffix do not look like a hexadecimal numeral. -/
theorem decimal_ne_announced {ds suffix : List Char} (hds : ∀ c ∈ ds, Text.isDecimal c = true)
    (hsuffix : suffix = [] ∨ suffix = ['u']) (r : List Char) :
    ds ++ suffix ≠ '0' :: 'x' :: r :=
  Numeral.ne_announced hds hsuffix (by decide) r

/-- As many digits are counted as stand before the suffix. -/
theorem decimalDigits_of_isDecimal {ds suffix : List Char}
    (hds : ∀ c ∈ ds, Text.isDecimal c = true) (hsuffix : suffix = [] ∨ suffix = ['u']) :
    decimalDigits (String.ofList (ds ++ suffix)) = ds.length := by
  have hnone : suffix.filter Text.isDecimal = [] := by
    rcases hsuffix with rfl | rfl <;> rfl
  rw [decimalDigits, String.toList_ofList]
  split
  · rename_i r heq
    exact absurd heq (decimal_ne_announced hds hsuffix r)
  · rw [List.filter_append, hnone, List.append_nil, List.filter_eq_self.mpr hds]

/-- The suffix adds nothing to the number. -/
theorem numberOf_of_isDecimal {ds suffix : List Char}
    (hds : ∀ c ∈ ds, Text.isDecimal c = true) (hsuffix : suffix = [] ∨ suffix = ['u']) :
    numberOf (String.ofList (ds ++ suffix))
      = (ds.filterMap Text.digitValue?).foldl (fun v d => v * 10 + d) 0 := by
  have hnone : suffix.filterMap Text.digitValue? = [] := by
    rcases hsuffix with rfl | rfl <;> rfl
  rw [numberOf, String.toList_ofList]
  split
  · rename_i r heq
    exact absurd heq (decimal_ne_announced hds hsuffix r)
  · rw [List.filterMap_append, hnone, List.append_nil]

/-- The suffix is not read. -/
theorem readNumeral_of_isDecimal {ds suffix : List Char}
    (hds : ∀ c ∈ ds, Text.isDecimal c = true) (hsuffix : suffix = [] ∨ suffix = ['u']) :
    Climb.readNumeral (String.ofList (ds ++ suffix))
      = Numeral.read .decimal (String.ofList ds) := by
  have hdrop : Text.dropEndWhile (· = 'u') (ds ++ suffix) = ds := by
    apply Text.dropEndWhile_append_of_all
    · intro c hc
      exact decide_eq_false (ne_of_isDecimal (hds c hc)).2
    · rcases hsuffix with rfl | rfl <;> simp
  rw [Climb.readNumeral, String.toList_ofList]
  split
  · rename_i r heq
    exact absurd heq (decimal_ne_announced hds hsuffix r)
  · rw [hdrop]

/-- What is read of a numeral as scanning finds it. -/
theorem IsNumeral.readNumeral (h : IsNumeral text) :
    Climb.readNumeral text
      = if Numeral.maxDecimalDigits < decimalDigits text then
          .error (.tooManyDigits (decimalDigits text))
        else .ok (numberOf text : Int) := by
  cases h with
  | @hexadecimal ds hne hds =>
    have hdigits : ∀ c ∈ ds, (Numeral.digit? .hexadecimal c).isSome = true :=
      fun c hc => Numeral.isSome_digit?_of_isHexDigit (hds c hc)
    simp only [Climb.readNumeral, decimalDigits, numberOf, String.toList_ofList]
    rw [if_neg (Nat.not_lt_zero _), Numeral.read_of_hexDigits hne hdigits]
  | decimal hne hds hsuffix =>
    rw [readNumeral_of_isDecimal hds hsuffix, decimalDigits_of_isDecimal hds hsuffix,
      numberOf_of_isDecimal hds hsuffix, Numeral.read_of_isDecimal hne hds]

/-- A numeral as scanning finds it has the value of its number. -/
theorem IsNumeral.numeralValue (h : IsNumeral text) (w : Width) :
    Climb.numeralValue w.size text = numeralWord w text := by
  have hread := h.readNumeral
  rw [numeralWord]
  split at hread
  · rename_i hlong
    rw [if_pos hlong, Climb.numeralValue, hread]
  · rename_i hshort
    rw [if_neg hshort]
    exact numeralValue_of_readNumeral hread w

end Climb

/-! ## Trees -/

namespace Tree

variable {w : Width} {t : Tree String}

/-- The value of a tree of numerals on words, from the bottom up. -/
def arithmetic (w : Width) : Tree String → Except Climb.Failure Nat :=
  value (Climb.numeralWord w) fun op a b => (op.apply w.size a b).mapError .operator

/-- The failure of the first subtree in post-order that fails by itself. -/
def firstFault? (w : Width) (t : Tree String) : Option Climb.Failure :=
  t.postorder.findSome?
    (ownFailure? (Climb.numeralWord w) fun op a b => (op.apply w.size a b).mapError .operator)

theorem firstFault?_eq (w : Width) (t : Tree String) :
    t.firstFault? w = failureOf? (t.arithmetic w) :=
  findSome?_ownFailure? _ _ t

theorem arithmetic_leaf (a : String) : (leaf a).arithmetic w = Climb.numeralWord w a := rfl

theorem arithmetic_node (op : BinOp) (l r : Tree String) :
    (node op l r).arithmetic w
      = l.arithmetic w >>= fun a => r.arithmetic w >>= fun b =>
          (op.apply w.size a b).mapError .operator := rfl

theorem mem_lexemes_of_mem_leaves {a : String} (h : a ∈ t.leaves) : .numeral a ∈ t.lexemes := by
  induction t with
  | leaf b =>
    rw [List.mem_singleton.mp h, lexemes_leaf]
    exact List.mem_singleton_self _
  | group t ih =>
    have hinside := ih h
    simp [hinside]
  | node op l r ihl ihr =>
    rcases List.mem_append.mp h with h | h
    · have hleft := ihl h
      simp [hleft]
    · have hright := ihr h
      simp [hright]

/-- Climbing on numerals as scanning finds them computes the value of the tree. -/
theorem climbed_eq_arithmetic (h : ∀ a ∈ t.leaves, Climb.IsNumeral a) :
    t.climbed w.size = t.arithmetic w := by
  induction t with
  | leaf a => exact (h a (List.mem_singleton_self a)).numeralValue w
  | group t ih => exact ih h
  | node op l r ihl ihr =>
    obtain ⟨hl, hr⟩ := List.forall_mem_append.mp h
    rw [climbed_node, arithmetic_node, ihl hl, ihr hr]

/-- A tree fails by an overlong numeral or by a division by zero. -/
theorem arithmetic_eq_error {e : Climb.Failure} (h : t.arithmetic w = .error e) :
    (∃ a ∈ t.leaves, Numeral.maxDecimalDigits < Climb.decimalDigits a
        ∧ e = .numeral (.tooManyDigits (Climb.decimalDigits a)))
      ∨ ∃ z, e = .operator (.zeroDivisor z) := by
  induction t with
  | leaf a =>
    rw [arithmetic_leaf, Climb.numeralWord] at h
    split at h
    · rename_i hlong
      cases h
      exact .inl ⟨a, List.mem_singleton_self a, hlong, rfl⟩
    · cases h
  | group t ih => exact ih h
  | node op l r ihl ihr =>
    rw [arithmetic_node] at h
    cases hl : l.arithmetic w with
    | error e' =>
      rw [hl] at h
      cases h
      exact (ihl hl).imp_left fun ⟨a, ha, hlong⟩ => ⟨a, List.mem_append_left _ ha, hlong⟩
    | ok a =>
      cases hr : r.arithmetic w with
      | error e' =>
        rw [hl, hr] at h
        cases h
        exact (ihr hr).imp_left fun ⟨a, ha, hlong⟩ => ⟨a, List.mem_append_right _ ha, hlong⟩
      | ok b =>
        rw [hl, hr] at h
        change (op.apply w.size a b).mapError Climb.Failure.operator = .error e at h
        rw [BinOp.apply_size] at h
        cases hop : op.onWords w a b with
        | error z =>
          rw [hop] at h
          cases h
          exact .inr ⟨z, rfl⟩
        | ok v =>
          rw [hop] at h
          cases h

end Tree

/-! ## The values of lexemes -/

namespace Climb

/-- A tree with the lexemes of a text has its value by climbing. -/
theorem valueOf_of_scan (w : Width) {text : String} {ls : Array Lexeme}
    (hscan : scan text = .ok ls) {t : Tree String} (ht : t.Canonical rank)
    (hls : t.lexemes = ls.toList) : valueOf w.size ls.toList = t.arithmetic w := by
  have hscanned : ∀ l ∈ t.lexemes, l.IsScanned := by
    rw [hls]
    exact fun l hl => isScanned_of_scan hscan l (Array.mem_def.mpr hl)
  rw [← hls, valueOf_lexemes ht fun o ho => hscanned _ ho]
  exact Tree.climbed_eq_arithmetic fun a ha => hscanned _ (Tree.mem_lexemes_of_mem_leaves ha)

/-- The lexemes of a text have a value exactly if they are those of a canonical tree with a
    value. The tree is the only one with these lexemes, and the value is its value. Where a
    canonical tree has the lexemes and no value, the failure is that of its first subtree in
    post-order that fails by itself: an operator on a zero divisor, or a numeral of more decimal
    digits than are read. -/
theorem valueOf_eq_ok_iff (w : Width) {text : String} {ls : Array Lexeme}
    (hscan : scan text = .ok ls) :
    (∀ v, valueOf w.size ls.toList = .ok v
      ↔ ∃ t : Tree String, t.Canonical rank ∧ t.lexemes = ls.toList
          ∧ (∀ u : Tree String, u.Canonical rank → u.lexemes = ls.toList → u = t)
          ∧ t.arithmetic w = .ok v)
    ∧ ∀ t : Tree String, t.Canonical rank → t.lexemes = ls.toList →
        match t.firstFault? w with
        | none => ∃ v, t.arithmetic w = .ok v ∧ valueOf w.size ls.toList = .ok v
        | some e =>
          ((∃ a ∈ t.leaves, Numeral.maxDecimalDigits < decimalDigits a
                ∧ e = .numeral (.tooManyDigits (decimalDigits a)))
              ∨ ∃ z, e = .operator (.zeroDivisor z))
            ∧ valueOf w.size ls.toList = .error e := by
  constructor
  · intro v
    constructor
    · intro h
      obtain ⟨t, ht, hls⟩ := exists_tree_of_valueOf h
      refine ⟨t, ht, hls, ?_, ?_⟩
      · intro u hu hu'
        exact Tree.lexemes_injective hu ht (by rw [hu', hls])
      · rw [← valueOf_of_scan w hscan ht hls, h]
    · rintro ⟨t, ht, hls, -, hv⟩
      rw [valueOf_of_scan w hscan ht hls, hv]
  · intro t ht hls
    rw [Tree.firstFault?_eq, valueOf_of_scan w hscan ht hls]
    cases hv : t.arithmetic w with
    | error e => exact ⟨Tree.arithmetic_eq_error hv, rfl⟩
    | ok v => exact ⟨v, rfl, rfl⟩

/-- In `8/(٢-2u)+1`, where the digit behind the bracket is an Arabic two, the divisor is zero. -/
theorem valueOf_arabic_zeroDivisor :
    scan "8/(٢-2u)+1" = .ok #[.numeral "8", .op .div, .lparen, .numeral "٢", .op .sub,
        .numeral "2u", .rparen, .op .add, .numeral "1"]
      ∧ valueOf Width.w64.size [.numeral "8", .op .div, .lparen, .numeral "٢", .op .sub,
        .numeral "2u", .rparen, .op .add, .numeral "1"]
        = .error (.operator (.zeroDivisor .quotient)) := by
  have hscan : scan "8/(٢-2u)+1" = .ok #[.numeral "8", .op .div, .lparen, .numeral "٢", .op .sub,
      .numeral "2u", .rparen, .op .add, .numeral "1"] := by
    decide +kernel
  let t : Tree String := .node .add (.node .div (.leaf "8")
    (.group (.node .sub (.leaf "٢") (.leaf "2u")))) (.leaf "1")
  have hfault : t.firstFault? .w64 = some (.operator (.zeroDivisor .quotient)) := by
    decide +kernel
  have h := (valueOf_eq_ok_iff .w64 hscan).2 t (by decide) rfl
  rw [hfault] at h
  exact ⟨hscan, h.2⟩

/-- A text of ASCII digits is one numeral. -/
theorem scan_of_digits {ds : List Char} (hne : ds ≠ [])
    (hds : ∀ c ∈ ds, Lexer.isDigit c = true) :
    scan (String.ofList ds) = .ok #[.numeral (String.ofList ds)] := by
  have hgraphic : ∀ c ∈ ds, Text.isBlank c = false := by
    intro c hc
    exact Text.isBlank_of_isGraphic (Lexer.CharClass.contains_of_within (by decide) (hds c hc))
  have hnumeral : lexeme? (ds ++ []) = some (.numeral (String.ofList ds)) := by
    obtain ⟨c, cs, rfl⟩ := List.exists_cons_of_ne_nil hne
    have hx : ∀ d ∈ (cs ++ []).head?, d ≠ 'x' := by
      rw [List.append_nil]
      rintro d hd rfl
      exact absurd (hds 'x' (List.mem_cons_of_mem _ (List.mem_of_mem_head? hd))) (by decide)
    have hdecimal : decimal? (c :: cs ++ [] ++ [])
        = some (.numeral (String.ofList (c :: cs ++ []))) :=
      decimal?_append hne hds (.inl rfl) fun d hd => by cases hd
    rw [List.cons_append, lexeme?_of_isDigit (hds c List.mem_cons_self) hx,
      ← List.cons_append]
    rwa [List.append_nil (c :: cs)] at hdecimal
  have hlen : (Lexeme.numeral (String.ofList ds)).text.length = ds.length :=
    String.length_ofList
  -- There is no blank to pass in front of the digits, and nothing behind them.
  have hstep : scanFrom (String.ofList ds) ([] ++ (ds ++ [])) #[]
      = scanFrom (String.ofList ds) [] (#[].push (.numeral (String.ofList ds))) :=
    scanFrom_lexeme (fun c hc => absurd hc List.not_mem_nil) hne hgraphic hnumeral hlen
  rw [List.nil_append, List.append_nil] at hstep
  rw [scan, String.toList_ofList, Text.stripEnd, Text.dropEndWhile_eq_self hgraphic, hstep,
    scanFrom.eq_def]
  rfl

/-- A number of more decimal digits than are read has no value. -/
theorem valueOf_of_tooManyDigits (w : Width) {ds : List Char}
    (hds : ∀ c ∈ ds, Lexer.isDigit c = true) (hlong : Numeral.maxDecimalDigits < ds.length) :
    valueOf w.size [.numeral (String.ofList ds)]
      = .error (.numeral (.tooManyDigits ds.length)) := by
  have hne : ds ≠ [] := List.ne_nil_of_length_pos (by omega)
  have hdigits : decimalDigits (String.ofList ds) = ds.length := by
    have h := decimalDigits_of_isDecimal (fun c hc => isDecimal_of_isDigit (hds c hc)) (.inl rfl)
    rwa [List.append_nil] at h
  have hvalue := valueOf_of_scan w (scan_of_digits hne hds) (t := .leaf (String.ofList ds))
    trivial rfl
  rw [Tree.arithmetic_leaf, numeralWord, hdigits, if_pos hlong] at hvalue
  exact hvalue

/-- A numeral of 4301 ones is a canonical tree by itself, and has neither a value nor a division
    by zero. -/
theorem valueOf_overlong_numeral :
    let text := String.ofList (List.replicate 4301 '1')
    scan text = .ok #[.numeral text]
      ∧ (Tree.leaf text).Canonical rank ∧ (Tree.leaf text).lexemes = [.numeral text]
      ∧ valueOf Width.w32.size [.numeral text] = .error (.numeral (.tooManyDigits 4301))
      ∧ (∀ v, valueOf Width.w32.size [.numeral text] ≠ .ok v)
      ∧ ∀ z, valueOf Width.w32.size [.numeral text] ≠ .error (.operator (.zeroDivisor z)) := by
  intro text
  have hlen : (List.replicate 4301 '1').length = 4301 := List.length_replicate
  have hdigit : ∀ c ∈ List.replicate 4301 '1', Lexer.isDigit c = true := by
    intro c hc
    rw [List.eq_of_mem_replicate hc]
    decide
  have hne : List.replicate 4301 '1' ≠ [] := List.ne_nil_of_length_pos (by omega)
  have hvalue := valueOf_of_tooManyDigits .w32 hdigit (by rw [hlen]; decide)
  rw [hlen] at hvalue
  refine ⟨scan_of_digits hne hdigit, trivial, rfl, hvalue, ?_, ?_⟩
  · intro v h
    rw [hvalue] at h
    cases h
  · intro z h
    rw [hvalue] at h
    cases h

end Climb

end WordExpr
