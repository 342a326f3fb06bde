/-
  WordExpr.Proofs.Verdicts

  The result of one line. A case line has one result: what its text evaluates to, judged by
  the value that is expected, as a word (`Program.HasResult`); whether it is a given one can be
  decided. There always is one, as evaluation ends with a word or with an expression error, and
  it is the result with which checking the line goes on (`Program.checkLine_of_hasResult`). A
  line that is no case line changes nothing, and a case line that is no case ends the check.
-/
import WordExpr.Program.Check
import WordExpr.Proofs.CaseLines
import WordExpr.Proofs.Safety

namespace WordExpr.Program

open Text

/-! ## Results -/

/-- A case line is neither blank nor a comment. -/
def IsCaseLine (line : String) : Prop :=
  strip line.toList ≠ [] ∧ (stripStart line.toList).head? ≠ some '#'

instance : DecidablePred IsCaseLine := fun line =>
  inferInstanceAs (Decidable (strip line.toList ≠ [] ∧ _))

/-- The result of a case, given what the evaluation of its text ends with: the value is compared
    with what is left of the expected one modulo the number of words. -/
inductive Judges (w : Width) (c : Case) : Except EvalError Nat → CaseResult → Prop
  | failed (e : ExprError) : Judges w c (.error (.expr e)) (.failed e)
  | mismatched {v : Nat} (h : (v : Int) ≠ c.expected % 2 ^ w.size) :
      Judges w c (.ok v) (.mismatched (c.expected % 2 ^ w.size).toNat v c.text)
  | passed {v : Nat} (h : (v : Int) = c.expected % 2 ^ w.size) : Judges w c (.ok v) .passed

/-- The line is a case with this result. -/
def HasResult (w : Width) (regs : RegisterFile) (line : String) (r : CaseResult) : Prop :=
  ∃ c, Case.parse line = .ok c
    ∧ Judges w c ((checkSetting regs).valueOf c.text Lexer.defaultMaxTokens) r

variable {w : Width} {regs : RegisterFile} {line : String} {c : Case} {r r' : CaseResult}

instance : ∀ value r, Decidable (Judges w c value r)
  | .error (.expr e), .failed e' =>
    decidable_of_iff (e = e') ⟨fun h => h ▸ .failed e, fun | .failed _ => rfl⟩
  | .ok v, .mismatched expected got text =>
    decidable_of_iff ((v : Int) ≠ c.expected % 2 ^ w.size
        ∧ .mismatched (c.expected % 2 ^ w.size).toNat v c.text
          = CaseResult.mismatched expected got text)
      ⟨fun ⟨hne, h⟩ => h ▸ .mismatched hne, fun | .mismatched hne => ⟨hne, rfl⟩⟩
  | .ok v, .passed =>
    decidable_of_iff ((v : Int) = c.expected % 2 ^ w.size) ⟨.passed, fun | .passed h => h⟩
  | .ok _, .failed _ => isFalse nofun
  | .error _, .passed => isFalse nofun
  | .error _, .mismatched _ _ _ => isFalse nofun
  | .error (.literal _), .failed _ => isFalse nofun
  | .error (.width _), .failed _ => isFalse nofun
  | .error (.unknownOperator _), .failed _ => isFalse nofun
  | .error (.missingToken _), .failed _ => isFalse nofun

instance : Decidable (HasResult w regs line r) :=
  match h : Case.parse line with
  | .error _ => isFalse fun ⟨_, hparse, _⟩ => nomatch h.symm.trans hparse
  | .ok c =>
    decidable_of_iff (Judges w c ((checkSetting regs).valueOf c.text Lexer.defaultMaxTokens) r)
      ⟨fun hjudged => ⟨c, h, hjudged⟩,
        fun ⟨_, hparse, hjudged⟩ => Except.ok.inj (h.symm.trans hparse) ▸ hjudged⟩

theorem isSkipped_iff : isSkipped line = true ↔ ¬ IsCaseLine line := by
  have hblank : stripStart line.toList = [] ↔ strip line.toList = [] := by
    rw [strip_eq_nil_iff, stripStart, List.dropWhile_eq_nil_iff]
  simp only [isSkipped, IsCaseLine, Bool.or_eq_true, List.isEmpty_iff, decide_eq_true_eq,
    not_and_or, ne_eq, not_not, hblank]

theorem HasResult.unique (h : HasResult w regs line r) (h' : HasResult w regs line r') :
    r = r' := by
  obtain ⟨c, hparse, hjudged⟩ := h
  obtain ⟨c', hparse', hjudged'⟩ := h'
  obtain rfl : c = c' := Except.ok.inj (hparse.symm.trans hparse')
  generalize (checkSetting regs).valueOf c.text Lexer.defaultMaxTokens = value at hjudged hjudged'
  cases hjudged with
  | failed e =>
    cases hjudged'
    rfl
  | mismatched hne =>
    cases hjudged' with
    | mismatched => rfl
    | passed heq => exact absurd heq hne
  | passed heq =>
    cases hjudged' with
    | mismatched hne => exact absurd heq hne
    | passed => rfl

/-- Every case has a result: evaluating its text ends with a word or an expression error. -/
theorem exists_hasResult (hbits : regs.bits = w.size) (h : Case.parse line = .ok c) :
    ∃ r, HasResult w regs line r := by
  have hvalue : (∃ v, (checkSetting regs).valueOf c.text Lexer.defaultMaxTokens = .ok v
        ∧ v < 2 ^ w.size)
      ∨ ∃ e, (checkSetting regs).valueOf c.text Lexer.defaultMaxTokens = .error (.expr e) := by
    rw [checkSetting, hbits]
    exact Setting.result_of_size w _ _ _ _ ()
  have hjudged : ∃ r, Judges w c ((checkSetting regs).valueOf c.text Lexer.defaultMaxTokens) r := by
    rcases hvalue with ⟨v, hv, -⟩ | ⟨e, he⟩
    · rw [hv]
      by_cases heq : (v : Int) = c.expected % 2 ^ w.size
      · exact ⟨_, .passed heq⟩
      · exact ⟨_, .mismatched heq⟩
    · rw [he]
      exact ⟨_, .failed e⟩
  obtain ⟨r, hr⟩ := hjudged
  exact ⟨r, c, h, hr⟩

/-! ## Checking a line -/

/-- A line that is read as a case is neither blank nor a comment. -/
theorem not_isSkipped_of_parse (h : Case.parse line = .ok c) : isSkipped line = false := by
  obtain ⟨hne, hread, -, -⟩ := Case.of_parse h
  obtain ⟨after, -, hstart⟩ := exists_stripEnd (stripStart line.toList)
  obtain ⟨b, bs, hhead⟩ := List.exists_cons_of_ne_nil hne
  rw [hhead] at hread
  have hb : b ≠ '#' := by
    rintro rfl
    exact Numeral.read_number_sign_ne_ok bs hread
  -- The number is not cut at the end of the line, so the line starts with its first character.
  have hfirst : (stripStart line.toList).head? = some b := by
    have hsplit := List.takeWhile_append_dropWhile (p := (· ≠ ' ')) (l := strip line.toList)
    rw [← hstart, ← strip, ← hsplit, hhead]
    rfl
  have hsome : (stripStart line.toList).isEmpty = false := by
    rw [← Bool.not_eq_true, List.isEmpty_iff]
    intro hnil
    rw [hnil, List.head?_nil] at hfirst
    exact absurd hfirst (Option.some_ne_none b).symm
  rw [isSkipped]
  simp [hsome, hfirst, hb]

theorem checkLine_of_not_case (h : ¬ IsCaseLine line) (n : Nat) (checked : Checked) :
    checkLine regs n line checked = .ok checked := by
  rw [checkLine, if_pos (isSkipped_iff.mpr h)]

theorem checkLine_of_rejected (hcase : IsCaseLine line) {e : Case.Failure}
    (h : Case.parse line = .error e) (n : Nat) (checked : Checked) :
    checkLine regs n line checked = .error (.badCase n e) := by
  have hskip : ¬ isSkipped line = true := fun hs => isSkipped_iff.mp hs hcase
  rw [checkLine, if_neg hskip, h]

/-- The verdict on the evaluation of a text leads to the result of the case. -/
theorem Judges.exists_verdict {evaluation : Evaluation Unit}
    (h : Judges w c evaluation.result r) :
    ∃ v, evaluation.verdict = .ok v
      ∧ caseResult (c.expected % 2 ^ w.size).toNat c.text v = r := by
  have hnonneg : 0 ≤ c.expected % 2 ^ w.size := by
    rw [← w.toNat_wrap]
    exact Int.natCast_nonneg _
  unfold Evaluation.verdict
  generalize evaluation.result = value at h
  cases h with
  | failed e => exact ⟨_, rfl, rfl⟩
  | @mismatched v hne =>
    have hne' : ¬ v = (c.expected % 2 ^ w.size).toNat := by omega
    exact ⟨_, rfl, if_neg hne'⟩
  | @passed v heq =>
    have heq' : v = (c.expected % 2 ^ w.size).toNat := by omega
    exact ⟨_, rfl, if_pos heq'⟩

/-- A case line with a result adds the result. -/
theorem checkLine_of_hasResult (hbits : regs.bits = w.size) (h : HasResult w regs line r)
    (n : Nat) (checked : Checked) :
    ∃ log, checkLine regs n line checked = .ok (checked.add n r log) := by
  obtain ⟨c, hparse, hjudged⟩ := h
  obtain ⟨v, hverdict, hresult⟩ := hjudged.exists_verdict
  have hskip : ¬ isSkipped line = true := by simp [not_isSkipped_of_parse hparse]
  -- The expected value as a word is what it leaves modulo the number of words.
  have hreduce : Word.reduce regs.bits c.expected = .ok (c.expected % 2 ^ w.size).toNat := by
    rw [hbits, Word.reduce_size, ← w.toNat_wrap, Int.toNat_natCast]
  rw [checkLine, if_neg hskip, hparse]
  simp only [hverdict, hreduce, hresult]
  exact ⟨_, rfl⟩

end WordExpr.Program
