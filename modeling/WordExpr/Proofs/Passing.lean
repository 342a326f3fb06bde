/-
  WordExpr.Proofs.Passing

  A check of generated cases passes. Generation prints its cases one to a line
  (`Program.renderPieces_generateAll`), what is printed of cases is read back as their lines
  (`Case.readLines_printed`), assignments do not change the width of the registers
  (`Program.bits_of_buildRegisters`), and the limit of nesting of a check leaves room for what
  a buffer of 4096 characters can hold. So whatever the random numbers are, the cases of the
  generator pass one and all, and the check ends well (`Program.check_of_generated`).
-/
import WordExpr.Program.Run
import WordExpr.Proofs.Checking
import WordExpr.Proofs.Reading

namespace WordExpr

open Text

/-! ## Registers -/

namespace Program

theorem bits_of_set {r r' : RegisterFile} {name : String} {value : Int}
    (h : r.set name value = .ok r') : r'.bits = r.bits := by
  unfold RegisterFile.set at h
  split at h
  · cases h
  split at h
  · cases h
    rfl
  split at h
  · cases h
  · cases h
    rfl

theorem bits_of_storeAll {r r' : RegisterFile} {items : List Assignment}
    (h : storeAll r items = .ok r') : r'.bits = r.bits := by
  induction items generalizing r with
  | nil =>
    cases h
    rfl
  | cons a rest ih =>
    rw [storeAll] at h
    split at h
    · rename_i r₁ hset
      rw [ih h, bits_of_set hset]
    · cases h
    · cases h

/-- Assignments leave the width of the registers alone. -/
theorem bits_of_buildRegisters {s : RegisterSettings} {r : RegisterFile}
    (h : buildRegisters s = .ok r) : r.bits = s.bits.getD standIn := by
  unfold buildRegisters at h
  simp only at h
  split at h
  · cases h
  split at h
  · cases h
  · exact bits_of_storeAll h

end Program

/-! ## Files of printed cases -/

namespace Case

variable {w : Width} {depth : Nat} {c : Case} {t : Tree Token}

/-- What is printed of cases, one to a line. -/
def printed (cs : List Case) : String := String.join (cs.map fun c => c.format ++ "\n")

theorem toList_printed (cs : List Case) : (printed cs).toList = unlines (cs.map format) := by
  rw [printed, String.toList_join, unlines, List.flatMap_map, List.flatMap_map]
  congr
  funext c
  rw [String.toList_append]
  rfl

/-- The line of a true case has ASCII characters only, and no line end. -/
theorem IsTrue.ascii_format (h : c.IsTrue w depth t) :
    ∀ b ∈ c.format.toList, b.toNat < 128 ∧ b ≠ '\n' ∧ b ≠ '\r' := by
  rw [toList_format]
  intro b hb
  apply Lexer.ascii_of_isSeparator_or_isGraphic
  rcases List.mem_append.mp hb with hb | hb
  · exact .inr (Numeral.isGraphic_of_mem_toString hb)
  rcases List.mem_cons.mp hb with rfl | hb
  · exact .inl (by decide)
  · exact h.writes.isSeparator_or_isGraphic b hb

/-- Printed cases are read as their lines. -/
theorem readLines_printed {path : String} {cs : List Case} (hpath : '\x00' ∉ path.toList)
    (hcs : ∀ c ∈ cs, ∃ t, c.IsTrue w depth t) :
    ∃ lines, Program.readLines path (.ok (Utf8.encode (printed cs).toList)) = .ok lines
      ∧ List.Forall₂ IsLine cs lines := by
  have hchars : ∀ l ∈ cs.map format, ∀ b ∈ l.toList, b.toNat < 128 ∧ b ≠ '\n' ∧ b ≠ '\r' := by
    intro l hl
    obtain ⟨c, hc, rfl⟩ := List.mem_map.mp hl
    obtain ⟨t, ht⟩ := hcs c hc
    exact ht.ascii_format
  have hascii : ∀ b ∈ (printed cs).toList, b.toNat < 128 := by
    rw [toList_printed]
    intro b hb
    obtain ⟨l, hl, hb⟩ := List.mem_flatMap.mp hb
    rcases List.mem_append.mp hb with hb | hb
    · exact (hchars l hl b hb).1
    · rw [List.mem_singleton.mp hb]
      decide
  have hsplit : (lines (printed cs).toList).toList = (cs.map format).map (· ++ "\n") := by
    rw [toList_printed]
    exact lines_unlines (fun l hl hn => (hchars l hl _ hn).2.1 rfl)
      fun l hl hr => (hchars l hl _ hr).2.2 rfl
  have hnull : ¬ path.toList.contains '\x00' = true := by
    rw [List.contains_iff_mem]
    exact hpath
  refine ⟨(cs.map format).map (· ++ "\n"), ?_, ?_⟩
  · rw [Program.readLines, if_neg hnull]
    simp only [Utf8.decode_encode hascii, hsplit]
  · rw [List.map_map, List.forall₂_map_right_iff, List.forall₂_same]
    exact fun c _ => .inr rfl

end Case

namespace Program

/-- What generation prints is what is printed of its cases. -/
theorem renderPieces_generateAll (elapsed : String) (g : Generator) (count : Nat)
    (twister : Random.Twister) :
    renderPieces elapsed (generateAll g count twister).printed
      = Case.printed (g.cases Random.Twister.source count twister).1 := by
  rw [renderPieces, generateAll, Case.printed, List.map_map]
  rfl

/-! ## Generated cases pass -/

variable {w : Width} {depth : Nat} {regs : RegisterFile} {s : CheckSettings} {cs : List Case}

/-- The limit of tokens of a check is the only one that a true case may break. -/
theorem length_le_of_tokenize {c : Case} {t : Tree Token} (h : c.IsTrue w depth t)
    (hsize : ∀ limit ts, Lexer.tokenize c.text limit = .ok ts → ts.size ≤ 4096) :
    (t.tokens.length : Int) ≤ Lexer.defaultMaxTokens := by
  have htokens : Lexer.tokenize c.text t.tokens.length = .ok t.tokens.toArray :=
    Lexer.tokenize_of_writes h.writes t.apart_tokens (Int.le_refl _)
  have hle : t.tokens.toArray.size ≤ 4096 := hsize _ _ htokens
  rw [List.size_toArray] at hle
  exact Int.ofNat_le.mpr hle

theorem deepest_le {g : Generator} (hmax : g.maxLen ≤ 4096) :
    (g.deepest : Int) ≤ defaultMaxDepth := by
  have hthreshold : g.threshold ≤ 409 := by
    rw [Generator.threshold, Int.fdiv_eq_ediv_of_nonneg _ (by decide)]
    omega
  show ((g.threshold.toNat / 3 + 4 : Nat) : Int) ≤ 512
  omega

theorem runCheck_of_checkLines (hbits : s.bits = some (w.size : Int))
    (hregs : buildRegisters s.toRegisterSettings = .ok regs) {contents : Contents}
    {lines : List String} (hlines : readLines s.file contents = .ok lines) :
    runCheck s contents
      = checkRun s.file (checkLines regs lines).1 (checkLines regs lines).2 := by
  rw [runCheck, hregs, hbits]
  simp only [hlines]

/-- The cases that are generated before any failure, whatever numbers are drawn, are as many as
    asked for. A check of their lines with the same width passes each of them, and exits with
    0. Their lines are what is read from a file that they were printed to. -/
theorem check_of_generated (w : Width) {maxLen : Int} (hmax : maxLen ≤ 4096) {ops : List BinOp}
    (hops : ∀ op ∈ ops, (Climb.strength? op).isSome = true) (levels : Nat) (draws : Nat → Int)
    {count start stop : Nat} {cs : List Case}
    (hcases : (Generator.mk maxLen ops w.size levels).cases (.ofSequence draws) count start
      = (cs, none, stop))
    (hsize : ∀ c ∈ cs, ∀ limit ts, Lexer.tokenize c.text limit = .ok ts → ts.size ≤ 4096)
    {s : CheckSettings} (hbits : s.bits = some (w.size : Int)) {regs : RegisterFile}
    (hregs : buildRegisters s.toRegisterSettings = .ok regs) :
    cs.length = count
    ∧ (∀ contents lines, readLines s.file contents = .ok lines →
        List.Forall₂ Case.IsLine cs lines →
        (∃ log, checkLines regs lines = (⟨⟨count, 0, 0⟩, #[], log⟩, none))
        ∧ (runCheck s contents).failure = none
        ∧ (runCheck s contents).exit = 0
        ∧ (runCheck s contents).printed = summary ⟨count, 0, 0⟩)
    ∧ ('\x00' ∉ s.file.toList →
        ∃ lines, readLines s.file (.ok (Utf8.encode (Case.printed cs).toList)) = .ok lines
          ∧ List.Forall₂ Case.IsLine cs lines) := by
  obtain ⟨hlen, htrue⟩ := Generator.isTrue_of_cases (Source.isFair_ofSequence draws) rfl hops hcases
  -- No text has more tokens than a check allows, and no expression nests deeper.
  have hfit : ∀ c ∈ cs, ∃ t, c.IsTrue w (Generator.mk maxLen ops w.size levels).deepest t
      ∧ (t.tokens.length : Int) ≤ Lexer.defaultMaxTokens := by
    intro c hc
    obtain ⟨t, ht⟩ := htrue c hc
    exact ⟨t, ht, length_le_of_tokenize ht (hsize c hc)⟩
  have hwidth : regs.bits = w.size := by
    rw [bits_of_buildRegisters hregs]
    show s.bits.getD standIn = _
    rw [hbits]
    rfl
  refine ⟨hlen, fun contents lines hlines hmatch => ?_, fun hfile => ?_⟩
  · obtain ⟨log, hcheck⟩ := checkFrom_of_isTrue hwidth (deepest_le hmax) hmatch hfit 1 .start
    have hcheck' : checkLines regs lines = (⟨⟨count, 0, 0⟩, #[], log⟩, none) := by
      rw [checkLines, hcheck, hlen]
      show ((⟨⟨0 + count, 0, 0⟩, #[], log⟩, none) : Checked × Option CheckStop) = _
      rw [Nat.zero_add]
    -- All passed, so the check is clean and its exit code is 0.
    have hclean : (Tally.mk count 0 0).isClean = true := decide_eq_true rfl
    have hrun := runCheck_of_checkLines hbits hregs hlines
    rw [hcheck'] at hrun
    refine ⟨⟨log, hcheck'⟩, ?_, ?_, ?_⟩ <;> rw [hrun, checkRun]
    · show (if (Tally.mk count 0 0).isClean then 0 else 1) = 0
      rw [if_pos hclean]
    · rfl
  · exact Case.readLines_printed hfile htrue

/-- From the numbers 2, 0, 7, 0, 1, 0 and 5 the sum `7u +  ( 5u ) ` is generated, whose case
    passes. -/
theorem check_of_generated_sum :
    (Generator.mk 100 [.add] Width.w32.size 3).cases
        (.ofSequence fun k => [2, 0, 7, 0, 1, 0, 5].getD k 0) 1 0
      = ([⟨12, "7u +  ( 5u ) "⟩], none, 7)
    ∧ (runCheck ⟨⟨[], some 32⟩, "cases.txt"⟩
        (.ok (Utf8.encode (Case.printed [⟨12, "7u +  ( 5u ) "⟩]).toList))).exit = 0
    ∧ (runCheck ⟨⟨[], some 32⟩, "cases.txt"⟩
        (.ok (Utf8.encode (Case.printed [⟨12, "7u +  ( 5u ) "⟩]).toList))).printed
      = summary ⟨1, 0, 0⟩ := by
  have hlex : Lexer.tokenize "7u +  ( 5u ) " 5 = .ok #[⟨.dec, "7u"⟩, .spelled (.op .add),
      .spelled .lparen, ⟨.dec, "5u"⟩, .spelled .rparen] := by
    decide +kernel
  have hw := Lexer.writes_of_tokenize hlex
  have hvalue : Climb.evaluate Width.w32.size "7u +  ( 5u ) " = .ok 12 :=
    Climb.evaluate_of_writes
      (t := .node .add (.leaf ⟨.dec, "7u"⟩) (.group (.leaf ⟨.dec, "5u"⟩))) hw (by decide)
      (by decide)
  have htext : (Generator.mk 100 [.add] Width.w32.size 3).expression
      (.ofSequence fun k => [2, 0, 7, 0, 1, 0, 5].getD k 0) 0 = .ok "7u +  ( 5u ) " 7 := by
    rfl
  have hcase : (Generator.mk 100 [.add] Width.w32.size 3).generate
      (.ofSequence fun k => [2, 0, 7, 0, 1, 0, 5].getD k 0) 0
        = .ok ⟨12, "7u +  ( 5u ) "⟩ 7 := by
    rw [Generator.generate, Generator.maxAttempts, Generator.caseWithin]
    simp only [bind, EStateM.bind, htext, hvalue]
    rfl
  have hcases : (Generator.mk 100 [.add] Width.w32.size 3).cases
        (.ofSequence fun k => [2, 0, 7, 0, 1, 0, 5].getD k 0) 1 0
      = ([⟨12, "7u +  ( 5u ) "⟩], none, 7) := by
    rw [Generator.cases, hcase]
    rfl
  have hsize : ∀ c ∈ [Case.mk 12 "7u +  ( 5u ) "], ∀ limit ts,
      Lexer.tokenize c.text limit = .ok ts → ts.size ≤ 4096 := by
    intro c hc limit ts hts
    rw [List.mem_singleton] at hc
    subst hc
    have hlen := (Lexer.writes_of_tokenize hts).length_le
    exact Nat.le_trans hlen (by decide)
  have hregs : buildRegisters ⟨[], some 32⟩ = .ok (.create RegisterFile.riscv 32) := rfl
  obtain ⟨-, hcheck, hread⟩ := check_of_generated .w32 (by decide) (by decide) 3
    (fun k => [2, 0, 7, 0, 1, 0, 5].getD k 0) hcases hsize
    (s := ⟨⟨[], some 32⟩, "cases.txt"⟩) rfl hregs
  obtain ⟨lines, hlines, hmatch⟩ := hread (by decide)
  obtain ⟨-, -, hexit, hprinted⟩ := hcheck _ lines hlines hmatch
  exact ⟨hcases, hexit, hprinted⟩

end Program

end WordExpr
