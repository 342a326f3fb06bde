/-
  WordExpr.Proofs.CaseLines

  Reading a case undoes writing it. An integer as it is printed is read back, negative ones
  included, if it does not have too many digits (`Numeral.read_toString`), and it holds no
  blank. So the first blank of a written case is the one behind the number: what comes
  before it is the number, and what comes behind it, trimmed, is the text
  (`Case.parse_surrounded`). Trimming changes no value of a text, as all that it takes off
  are blanks between tokens.
-/
import WordExpr.CaseLine
import WordExpr.Proofs.Printing

namespace WordExpr

open Text

/-! ## Integers as they are printed -/

namespace Numeral

variable {e : Int} {c : Char} {ds : List Char} {text : String} {b v : Nat}

theorem toList_toString (e : Int) :
    (toString e).toList = (if e < 0 then ['-'] else []) ++ Nat.toDigits 10 e.natAbs := by
  match e with
  | .ofNat n =>
    have hprint : toString (Int.ofNat n) = toString n := rfl
    rw [hprint, if_neg (by simp), Nat.toString_eq_ofList_toDigits, String.toList_ofList]
    rfl
  | .negSucc n =>
    have hprint : toString (Int.negSucc n) = "-" ++ toString (n + 1) := rfl
    have hsign : "-".toList = ['-'] := rfl
    rw [hprint, if_pos (Int.negSucc_lt_zero n), String.toList_append, hsign,
      Nat.toString_eq_ofList_toDigits, String.toList_ofList]
    rfl

theorem isGraphic_of_mem_toString (h : c ∈ (toString e).toList) : Lexer.isGraphic c = true := by
  rw [toList_toString] at h
  rcases List.mem_append.mp h with hsign | hdigit
  · split at hsign
    · rw [List.mem_singleton.mp hsign]
      decide
    · exact absurd hsign List.not_mem_nil
  · exact Lexer.CharClass.contains_of_within (by decide) (isDigit_of_mem_toDigits hdigit)

theorem toList_toString_ne_nil (e : Int) : (toString e).toList ≠ [] := by
  rw [toList_toString]
  exact List.append_ne_nil_of_right_ne_nil _ Nat.toDigits_ne_nil

/-- A minus sign in front negates a number. -/
theorem read_neg_of_digits (hne : ds ≠ [])
    (hds : ∀ c ∈ ds, (digit? .decimal c).isSome = true) (hlen : ds.length ≤ maxDecimalDigits) :
    read .decimal (String.ofList ('-' :: ds)) = .ok (-(bodyValue .decimal ds : Int)) := by
  have hform : asciiForm ('-' :: ds) = '-' :: ds :=
    asciiForm_of_ascii (List.forall_mem_cons.mpr
      ⟨by decide, fun c hc => toNat_lt_of_digit? (hds c hc)⟩)
  have hsign : ¬ isAsciiSpace '-' = true := by decide
  have hfew : ¬ (Base.decimal = .decimal ∧ maxDecimalDigits < ds.length) := by
    rintro ⟨-, hmany⟩
    exact Nat.not_lt.mpr hlen hmany
  have hunsigned : readUnsigned .decimal (String.ofList ('-' :: ds)) ds
      = .ok (bodyValue .decimal ds) := by
    rw [readUnsigned_digits hne hds, if_neg hfew]
  rw [read, String.toList_ofList, hform, List.dropWhile_cons_of_neg hsign]
  simp only [splitSign, dropAnnouncement, hunsigned, if_true]

/-- An integer that was printed is read back, if it has few enough digits. -/
theorem read_toString (h : (Nat.toDigits 10 e.natAbs).length ≤ maxDecimalDigits) :
    read .decimal (toString e) = .ok e := by
  have hdigits : ∀ c ∈ Nat.toDigits 10 e.natAbs, (digit? .decimal c).isSome = true :=
    fun c hc => isSome_digit?_of_isDigit (isDigit_of_mem_toDigits hc)
  rw [← String.ofList_toList (s := toString e), toList_toString]
  split
  · rename_i hneg
    rw [List.singleton_append, read_neg_of_digits Nat.toDigits_ne_nil hdigits h,
      bodyValue_toDigits]
    congr 1
    omega
  · rename_i hpos
    rw [List.nil_append, read_of_digits Nat.toDigits_ne_nil hdigits (fun _ => h),
      bodyValue_toDigits]
    congr 1
    omega

/-! ## Integers as they are read -/

/-- No numeral starts with a number sign. -/
theorem read_number_sign_ne_ok (cs : List Char) :
    read .decimal (String.ofList ('#' :: cs)) ≠ .ok e := by
  have hform : ∃ more, asciiForm ('#' :: cs) = '#' :: more := by
    unfold asciiForm
    split
    · exact ⟨cs, rfl⟩
    · exact ⟨cs.map asciiPart, rfl⟩
  obtain ⟨more, hmore⟩ := hform
  have hspace : ¬ isAsciiSpace '#' = true := by decide
  have hbody : ('#' :: more).takeWhile (isBody .decimal) = [] :=
    List.takeWhile_cons_of_neg (by decide)
  rw [read, String.toList_ofList, hmore, List.dropWhile_cons_of_neg hspace]
  simp [splitSign, dropAnnouncement, readUnsigned, hbody, separated]

/-- Each digit behind a number multiplies the bound on it by the base. -/
theorem foldl_digits_lt {ds : List Nat} (hds : ∀ d ∈ ds, d < b) {k : Nat} (hv : v < b ^ k) :
    ds.foldl (fun v d => v * b + d) v < b ^ (k + ds.length) := by
  induction ds generalizing v k with
  | nil => exact hv
  | cons d ds ih =>
    obtain ⟨hd, hrest⟩ := List.forall_mem_cons.mp hds
    have hstep : v * b + d < b ^ (k + 1) := by
      calc v * b + d < v * b + b := Nat.add_lt_add_left hd _
        _ = (v + 1) * b := (Nat.succ_mul v b).symm
        _ ≤ b ^ k * b := Nat.mul_le_mul_right b hv
        _ = b ^ (k + 1) := (Nat.pow_succ b k).symm
    have hlength : k + (d :: ds).length = k + 1 + ds.length := by
      rw [List.length_cons]
      omega
    rw [List.foldl_cons, hlength]
    exact ih hrest hstep

theorem bodyValue_lt (base : Base) (body : List Char) :
    bodyValue base body < base.radix ^ (body.filterMap (digit? base)).length := by
  have hdigits : ∀ d ∈ body.filterMap (digit? base), d < base.radix := by
    intro d hd
    obtain ⟨c, -, hc⟩ := List.mem_filterMap.mp hd
    exact of_decide_eq_true (Option.filter_eq_some_iff.mp hc).2
  have hlt := foldl_digits_lt (v := 0) hdigits (k := 0) (by simp)
  rwa [Nat.zero_add] at hlt

theorem lt_of_readUnsigned {cs : List Char} {n : Nat}
    (h : readUnsigned .decimal text cs = .ok n) : n < 10 ^ maxDecimalDigits := by
  unfold readUnsigned at h
  simp only at h
  split at h
  · cases h
  split at h
  · cases h
  rename_i hfew
  split at h
  · cases h
  · have hlen : ((cs.takeWhile (isBody .decimal)).filterMap (digit? .decimal)).length
        ≤ maxDecimalDigits := by
      simpa using hfew
    have hradix : Base.decimal.radix = 10 := rfl
    have hlt := bodyValue_lt .decimal (cs.takeWhile (isBody .decimal))
    rw [hradix] at hlt
    cases h
    exact Nat.lt_of_lt_of_le hlt (Nat.pow_le_pow_right (by decide) hlen)

/-- An integer that was read can be printed: it does not have too many digits. -/
theorem length_toDigits_of_read (h : read .decimal text = .ok e) :
    (Nat.toDigits 10 e.natAbs).length ≤ maxDecimalDigits := by
  rw [Nat.length_toDigits_le_iff (by decide) (by decide)]
  unfold read at h
  simp only at h
  split at h
  · cases h
  · rename_i n hn
    have habs : e.natAbs = n := by
      have he := Except.ok.inj h
      split at he <;> omega
    rw [habs]
    exact lt_of_readUnsigned hn

end Numeral

/-! ## Lines -/

namespace Text

variable {head body : List Char}

/-- Trimming a line with two parts leaves the blank between the parts alone. -/
theorem strip_parts (hne : head ≠ []) (hhead : ∀ c ∈ head, isBlank c = false)
    (hbody : ∃ c ∈ body, isBlank c = false) :
    strip (head ++ ' ' :: body) = head ++ ' ' :: stripEnd body := by
  have hkeep : ¬ (stripEnd body).isEmpty = true := by
    intro hempty
    have hnone := strip_stripEnd body
    rw [List.isEmpty_iff.mp hempty] at hnone
    exact strip_ne_nil_iff.mpr hbody hnone.symm
  have hrest : dropEndWhile isBlank (' ' :: body) = ' ' :: stripEnd body := by
    rw [← List.singleton_append, dropEndWhile_append, ← stripEnd, if_neg hkeep]
    rfl
  obtain ⟨c, more, rfl⟩ := List.exists_cons_of_ne_nil hne
  have hc : ¬ isBlank c = true := by simp [hhead c]
  rw [strip, stripStart, List.cons_append, List.dropWhile_cons_of_neg hc, ← List.cons_append,
    stripEnd, dropEndWhile_append, hrest]
  rfl

end Text

namespace Case

variable {c : Case} {line : String} {head body before after : List Char} {e : Int}

theorem toList_format (c : Case) :
    c.format.toList = (toString c.expected).toList ++ ' ' :: c.text.toList := by
  rw [format, String.toList_append, String.toList_append, List.append_assoc]
  rfl

theorem isBlank_of_mem_toString : ∀ b ∈ (toString e).toList, isBlank b = false :=
  fun _ hb => isBlank_of_isGraphic (Numeral.isGraphic_of_mem_toString hb)

/-- The expected value of a line is what stands before its first space. -/
theorem parse_of_strip (hline : strip line.toList = head ++ ' ' :: body)
    (hhead : ∀ b ∈ head, b ≠ ' ') (hne : head ≠ []) (hbody : strip body ≠ [])
    (hread : Numeral.read .decimal (String.ofList head) = .ok e) :
    parse line = .ok ⟨e, String.ofList (strip body)⟩ := by
  have hall : ∀ b ∈ head, decide (b ≠ ' ') = true := fun b hb => decide_eq_true (hhead b hb)
  have htake : (head ++ ' ' :: body).takeWhile (· ≠ ' ') = head := by
    rw [List.takeWhile_append_of_pos hall, List.takeWhile_cons_of_neg (by simp), List.append_nil]
  have hdrop : ((head ++ ' ' :: body).dropWhile (· ≠ ' ')).drop 1 = body := by
    rw [List.dropWhile_append_of_pos hall, List.dropWhile_cons_of_neg (by simp), List.drop_one,
      List.tail_cons]
  have hsome : ¬ (head.isEmpty || (strip body).isEmpty) = true := by
    simp [hne, hbody]
  rw [parse, hline]
  simp only [htake, hdrop, hread, if_neg hsome]

/-- The line of a case, with any blanks around it, is read as the case, with the text
    trimmed. -/
theorem parse_surrounded
    (hdigits : (Nat.toDigits 10 c.expected.natAbs).length ≤ Numeral.maxDecimalDigits)
    (htext : ∃ b ∈ c.text.toList, isBlank b = false)
    (hbefore : ∀ b ∈ before, isBlank b = true) (hafter : ∀ b ∈ after, isBlank b = true)
    (hline : line.toList = before ++ (c.format.toList ++ after)) :
    parse line = .ok ⟨c.expected, String.ofList (strip c.text.toList)⟩ := by
  have hne := Numeral.toList_toString_ne_nil c.expected
  have hstrip : strip line.toList
      = (toString c.expected).toList ++ ' ' :: stripEnd c.text.toList := by
    rw [hline, strip_surround hbefore hafter, toList_format,
      strip_parts hne isBlank_of_mem_toString htext]
  have hspace : ∀ b ∈ (toString c.expected).toList, b ≠ ' ' := by
    rintro b hb rfl
    exact absurd (isBlank_of_mem_toString _ hb) (by decide)
  have hbody : strip (stripEnd c.text.toList) ≠ [] := by
    rw [strip_stripEnd]
    exact strip_ne_nil_iff.mpr htext
  have hread : Numeral.read .decimal (String.ofList (toString c.expected).toList)
      = .ok c.expected := by
    rw [String.ofList_toList]
    exact Numeral.read_toString hdigits
  rw [parse_of_strip hstrip hspace hne hbody hread, strip_stripEnd]

/-- A case that was read: its number stands before the first space of the line, and its text
    is trimmed and has a character other than a blank. -/
theorem of_parse (h : parse line = .ok c) :
    (strip line.toList).takeWhile (· ≠ ' ') ≠ []
      ∧ Numeral.read .decimal (String.ofList ((strip line.toList).takeWhile (· ≠ ' ')))
        = .ok c.expected
      ∧ (∃ b ∈ c.text.toList, isBlank b = false)
      ∧ String.ofList (strip c.text.toList) = c.text := by
  unfold parse at h
  simp only at h
  split at h
  · cases h
  rename_i hsome
  rw [Bool.or_eq_true, List.isEmpty_iff, List.isEmpty_iff, not_or] at hsome
  split at h
  · cases h
  · rename_i hread
    cases h
    refine ⟨hsome.1, hread, ?_, ?_⟩
    · rw [String.toList_ofList, ← strip_ne_nil_iff, strip_strip]
      exact hsome.2
    · rw [String.toList_ofList, strip_strip]

/-- Reading a case undoes writing it, whatever the sign of the number and whatever blanks stand
    around the line or the text; only the text is trimmed. A case that was read has a trimmed
    text, and is read back unchanged when it is written. Trimming a text keeps its value, in
    every setting. -/
theorem reading_undoes_writing :
    (∀ (c : Case) (before after : List Char),
      (Nat.toDigits 10 c.expected.natAbs).length ≤ Numeral.maxDecimalDigits →
      (∃ b ∈ c.text.toList, isBlank b = false) →
      (∀ b ∈ before, isBlank b = true) → (∀ b ∈ after, isBlank b = true) →
      parse (String.ofList (before ++ (c.format.toList ++ after)))
        = .ok ⟨c.expected, String.ofList (strip c.text.toList)⟩)
    ∧ (∀ (line : String) (c : Case), parse line = .ok c →
        c.text ≠ "" ∧ String.ofList (strip c.text.toList) = c.text ∧ parse c.format = .ok c)
    ∧ ∀ (σ : Type) (s : Setting σ) (text : String) (maxTokens : Int) (state : σ) (v : Nat),
        (s.evaluate text maxTokens state).result = .ok v →
        (s.evaluate (String.ofList (strip text.toList)) maxTokens state).result = .ok v := by
  refine ⟨?_, ?_, ?_⟩
  · intro c before after hdigits htext hbefore hafter
    exact parse_surrounded hdigits htext hbefore hafter String.toList_ofList
  · intro line c h
    obtain ⟨-, hread, htext, htrim⟩ := of_parse h
    have hnone : ∀ b ∈ ([] : List Char), isBlank b = true := List.forall_mem_nil _
    have hline : c.format.toList = [] ++ (c.format.toList ++ []) := by simp
    have hparse := parse_surrounded (Numeral.length_toDigits_of_read hread) htext hnone hnone hline
    rw [htrim] at hparse
    refine ⟨?_, htrim, hparse⟩
    rintro hempty
    rw [hempty] at htext
    simp at htext
  · intro σ s text maxTokens state v h
    -- A text with a value is a writing of tokens that are apart, and so is the trimmed text.
    obtain ⟨ts, hlex, hapart⟩ := Setting.apart_of_evaluate h
    have hwrites : Writes (String.ofList (strip text.toList)).toList ts.toList := by
      rw [String.toList_ofList]
      exact (Lexer.writes_of_tokenize hlex).stripStart.stripEnd
    have hsame : Lexer.tokenize (String.ofList (strip text.toList)) maxTokens
        = Lexer.tokenize text maxTokens := by
      rw [Lexer.tokenize_of_spells (hwrites.spells hapart),
        Lexer.tokenize_of_spells (Lexer.spells_of_tokenize hlex)]
    rw [(Setting.evaluate_congr hsame).1, h]

/-- A negative number, a text between a tab and a no-break space, an ideographic space before
    the line and a line end behind it; an expected value with a sign, an underscore and a digit
    of another script; and a product between blanks. -/
theorem reading_undoes_writing_of_wide_blanks :
    parse "\u3000-42 \t( 40u )\u00a0\n" = .ok ⟨-42, "( 40u )"⟩
    ∧ (parse "+1_\u0662 1 # 2 " = .ok ⟨12, "1 # 2"⟩ ∧ parse "12 1 # 2" = .ok ⟨12, "1 # 2"⟩)
    ∧ ((Setting.stateless .w32 3 none).evaluate "6u*7u" 9 ()).result = .ok 42 := by
  obtain ⟨hwritten, hread, hvalue⟩ := reading_undoes_writing
  refine ⟨?_, ?_, ?_⟩
  · have hline : String.ofList (['\u3000'] ++ ((format ⟨-42, "\t( 40u )\u00a0"⟩).toList ++ ['\n']))
        = "\u3000-42 \t( 40u )\u00a0\n" := by decide +kernel
    have htext : String.ofList (strip "\t( 40u )\u00a0".toList) = "( 40u )" := by decide +kernel
    have hbefore : ∀ b ∈ ['\u3000'], isBlank b = true := List.forall_mem_singleton.mpr rfl
    have hafter : ∀ b ∈ ['\n'], isBlank b = true := List.forall_mem_singleton.mpr rfl
    rw [← hline, ← htext]
    exact hwritten ⟨-42, "\t( 40u )\u00a0"⟩ _ _ (by decide) ⟨'(', by decide, rfl⟩ hbefore hafter
  · have hline : parse "+1_\u0662 1 # 2 " = .ok ⟨12, "1 # 2"⟩ := by decide +kernel
    exact ⟨hline, (hread _ _ hline).2.2⟩
  · have htext : String.ofList (strip "\t6u*7u ".toList) = "6u*7u" := by decide +kernel
    rw [← htext]
    exact hvalue Unit (.stateless .w32 3 none) "\t6u*7u " 9 () 42 (by decide +kernel)

end Case

end WordExpr
