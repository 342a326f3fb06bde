/-
  WordExpr.Proofs.Checking

  Checking the cases that were generated. A line of a true case is read back as the case:
  the blanks that the generator writes around an expression are trimmed, and what is left
  is a writing of the same expression. Evaluation gives the expression the value that the
  case expects, whatever the registers hold, as there are none in it.

  So every such line passes (`hasResult_of_isTrue`), and a check of nothing else is clean.
-/
import WordExpr.Proofs.Drafting
import WordExpr.Proofs.Verdicts

namespace WordExpr

open Text

/-! ## Lines of cases -/

namespace Case

variable {w : Width} {depth : Nat} {c : Case} {t : Tree Token} {line : String}

/-- The line is the one of the case, with or without a line end. -/
def IsLine (c : Case) (line : String) : Prop := line = c.format ∨ line = c.format ++ "\n"

theorem IsLine.toList_eq (h : c.IsLine line) :
    ∃ tail, (∀ b ∈ tail, isBlank b = true) ∧ line.toList = [] ++ (c.format.toList ++ tail) := by
  rcases h with rfl | rfl
  · exact ⟨[], by simp, by simp⟩
  · exact ⟨['\n'], List.forall_mem_singleton.mpr (by decide), String.toList_append⟩

theorem ne_nil_of_writes {cs : List Char} (h : Writes cs t.tokens) : cs ≠ [] :=
  List.ne_nil_of_length_pos (Nat.lt_of_lt_of_le t.tokens_length_pos h.length_le)

/-- A line of a true case is read as the case, with the text trimmed. -/
theorem IsTrue.parse_line (h : c.IsTrue w depth t) (hline : c.IsLine line) :
    ∃ text, parse line = .ok ⟨c.expected, text⟩ ∧ Writes text.toList t.tokens := by
  obtain ⟨v, hv, hexpected⟩ := h.value
  obtain ⟨tail, htail, hparts⟩ := hline.toList_eq
  have hwrites : Writes (strip c.text.toList) t.tokens := h.writes.stripStart.stripEnd
  -- A word has 20 digits at most, which are few enough to be read.
  have hdigits : (Nat.toDigits 10 c.expected.natAbs).length ≤ Numeral.maxDecimalDigits := by
    have hlt : v < 10 ^ 20 := by
      calc v < 2 ^ w.size := Tree.plainValue_lt hv
        _ ≤ 2 ^ 64 := w.two_pow_size_le
        _ ≤ 10 ^ 20 := by decide
    rw [hexpected, Int.natAbs_natCast]
    exact Nat.le_trans ((Nat.length_toDigits_le_iff (by decide) (by decide)).mpr hlt) (by decide)
  have htext := strip_ne_nil_iff.mp (ne_nil_of_writes hwrites)
  refine ⟨String.ofList (strip c.text.toList), ?_, ?_⟩
  · exact parse_surrounded hdigits htext (by simp) htail hparts
  · rwa [String.toList_ofList]

end Case

namespace Program

variable {w : Width} {depth : Nat} {regs : RegisterFile} {c : Case} {t : Tree Token}
  {line text : String}

/-! ## A check of true cases -/

/-- The text of a true case has the value expected, whatever the registers hold. -/
theorem evaluate_of_isTrue (hbits : regs.bits = w.size) (h : c.IsTrue w depth t)
    (hdepth : (depth : Int) ≤ defaultMaxDepth)
    (hsize : (t.tokens.length : Int) ≤ Lexer.defaultMaxTokens)
    (htext : Writes text.toList t.tokens) :
    ∃ v : Nat, v < 2 ^ w.size ∧ c.expected = v
      ∧ ((checkSetting regs).evaluate text Lexer.defaultMaxTokens ()).result = .ok v := by
  obtain ⟨v, hv, hexpected⟩ := h.value
  have hsetting : checkSetting regs = .stateless w defaultMaxDepth (some regs.read) := by
    rw [checkSetting, hbits]
    rfl
  have hdeep : (t.nesting : Int) ≤ defaultMaxDepth := by
    have := h.nesting
    omega
  -- The expression has no registers, so its meaning is its value whatever they hold.
  have hmeaning : t.meaning w (knownBy (some regs.read)) = .ok v :=
    (Tree.plainValue_eq_ok_iff h.plain).mpr hv
  have htokens := Lexer.tokenize_of_writes htext t.apart_tokens hsize
  have hvalue : (Setting.stateless w defaultMaxDepth (some regs.read)).valueOf text
      Lexer.defaultMaxTokens = (t.meaning w (knownBy (some regs.read))).mapError .expr :=
    Setting.valueOf_of_tokens htokens h.expression rfl hdeep
  rw [hmeaning] at hvalue
  refine ⟨v, Tree.plainValue_lt hv, hexpected, ?_⟩
  rw [hsetting]
  exact hvalue

/-- A line of a true case passes. -/
theorem hasResult_of_isTrue (hbits : regs.bits = w.size) (h : c.IsTrue w depth t)
    (hdepth : (depth : Int) ≤ defaultMaxDepth)
    (hsize : (t.tokens.length : Int) ≤ Lexer.defaultMaxTokens) (hline : c.IsLine line) :
    HasResult w regs line .passed := by
  obtain ⟨text, hparse, htext⟩ := h.parse_line hline
  obtain ⟨v, hlt, hexpected, hresult⟩ := evaluate_of_isTrue hbits h hdepth hsize htext
  -- The expected number is a word already, and stays what it is.
  have hword : (v : Int) = c.expected % 2 ^ w.size := by
    rw [hexpected, ← w.toNat_wrap, w.toNat_wrap_natCast hlt]
  refine ⟨⟨c.expected, text⟩, hparse, ?_⟩
  rw [Setting.valueOf, hresult]
  exact .passed hword

/-- Lines of true cases pass, one and all. -/
theorem checkFrom_of_isTrue (hbits : regs.bits = w.size)
    (hdepth : (depth : Int) ≤ defaultMaxDepth) {cs : List Case} {lines : List String}
    (hlines : List.Forall₂ Case.IsLine cs lines)
    (hcs : ∀ c ∈ cs, ∃ t, c.IsTrue w depth t
      ∧ (t.tokens.length : Int) ≤ Lexer.defaultMaxTokens) (number : Nat) (checked : Checked) :
    ∃ log, checkFrom regs number lines checked
      = (⟨⟨checked.tally.passed + cs.length, checked.tally.mismatched, checked.tally.failed⟩,
          checked.complaints, log⟩, none) := by
  induction hlines generalizing number checked with
  | nil => exact ⟨checked.log, rfl⟩
  | @cons c line cs lines hline _ ih =>
    obtain ⟨⟨t, ht, hsize⟩, hrest⟩ := List.forall_mem_cons.mp hcs
    have hpassed := hasResult_of_isTrue hbits ht hdepth hsize hline
    obtain ⟨log, hstep⟩ := checkLine_of_hasResult hbits hpassed number checked
    obtain ⟨log', hfrom⟩ := ih hrest (number + 1) (checked.add number .passed log)
    have hcount : checked.tally.passed + 1 + cs.length
        = checked.tally.passed + (c :: cs).length := by
      rw [List.length_cons]
      omega
    refine ⟨log', ?_⟩
    rw [checkFrom, hstep, ← hcount]
    exact hfrom

end Program

end WordExpr
