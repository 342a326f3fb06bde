/-
  WordExpr.Proofs.Literals

  What literals denote. A text that consists of digits of a base is read as the number that
  the digits denote (`Numeral.read_of_digits`), and so are decimal digits of any script, if
  there are not too many of them (`Numeral.read_of_isDecimal`). A literal as lexing makes it is
  such a text behind its announcement or before its suffix, so reading it never fails, and
  evaluation and plain arithmetic read the same number (`Token.Lexable.literal_read`,
  `Token.Lexable.readNumeral`). The digits that a number is printed with denote the number
  (`Numeral.bodyValue_toDigits`).
-/
import Mathlib.Data.List.Basic
import WordExpr.Climb.Value
import WordExpr.Literal
import WordExpr.Proofs.Trimming
import WordExpr.Proofs.Words

namespace WordExpr

/-! ## Numerals of digits only -/

namespace Numeral

variable {base : Base} {c : Char} {ds : List Char} {text : String}

theorem isLower_iff : c.isLower = true ↔ 97 ≤ c.toNat ∧ c.toNat ≤ 122 :=
  Bool.and_eq_true_iff.trans (and_congr decide_eq_true_iff decide_eq_true_iff)

theorem isUpper_iff : c.isUpper = true ↔ 65 ≤ c.toNat ∧ c.toNat ≤ 90 :=
  decide_eq_true_iff

theorem toNat_of_digit? (h : (digit? base c).isSome = true) :
    48 ≤ c.toNat ∧ c.toNat ≤ 122 := by
  obtain ⟨d, hd⟩ := Option.isSome_iff_exists.mp h
  have hvalue := (Option.filter_eq_some_iff.mp hd).1
  unfold Text.asciiDigitValue? at hvalue
  split at hvalue
  · rename_i hdigit
    have hdigit' := Char.isDigit_iff_toNat.mp hdigit
    have hlo : 48 ≤ c.toNat := hdigit'.1
    have hhi : c.toNat ≤ 57 := hdigit'.2
    omega
  split at hvalue
  · rename_i hlower
    rw [isLower_iff] at hlower
    omega
  split at hvalue
  · rename_i hupper
    rw [isUpper_iff] at hupper
    omega
  · cases hvalue

/-- A digit is none of the characters with another part in a numeral. -/
theorem ne_of_digit? (h : (digit? base c).isSome = true) :
    c ≠ '_' ∧ c ≠ '+' ∧ c ≠ '-' ∧ c ≠ 'x' ∧ c ≠ 'X' ∧ Text.isAsciiSpace c = false := by
  have hnat := toNat_of_digit? h
  have hmarks : (['_', '+', '-', 'x', 'X'].all fun d => (digit? base d).isNone) = true := by
    cases base <;> decide
  have hne {d : Char} (hd : d ∈ ['_', '+', '-', 'x', 'X']) : c ≠ d := by
    rintro rfl
    have hnone := List.all_eq_true.mp hmarks c hd
    rw [Option.isNone_iff_eq_none.mp hnone] at h
    cases h
  refine ⟨hne (by simp), hne (by simp), hne (by simp), hne (by simp), hne (by simp), ?_⟩
  simp only [Text.isAsciiSpace, Bool.or_eq_false_iff, Bool.and_eq_false_iff,
    decide_eq_false_iff_not, beq_eq_false_iff_ne]
  omega

theorem separated_of_digits (h : ∀ c ∈ ds, (digit? base c).isSome = true) :
    separated ds = true := by
  fun_induction separated ds with
  | case1 => rfl
  | case2 => exact absurd rfl (ne_of_digit? (h '_' List.mem_cons_self)).1
  | case3 => exact absurd rfl (ne_of_digit? (h '_' List.mem_cons_self)).1
  | case4 c r _ _ ih => exact ih fun d hd => h d (List.mem_cons_of_mem _ hd)

theorem length_filterMap_digit? (h : ∀ c ∈ ds, (digit? base c).isSome = true) :
    (ds.filterMap (digit? base)).length = ds.length := by
  induction ds with
  | nil => rfl
  | cons c ds ih =>
    obtain ⟨hc, hds⟩ := List.forall_mem_cons.mp h
    obtain ⟨d, hd⟩ := Option.isSome_iff_exists.mp hc
    rw [List.filterMap_cons_some hd, List.length_cons, List.length_cons, ih hds]

/-- A body of digits alone is read as their number, if a decimal one has few enough of them. -/
theorem readUnsigned_digits (hne : ds ≠ []) (hds : ∀ c ∈ ds, (digit? base c).isSome = true) :
    readUnsigned base text ds
      = if base = .decimal ∧ maxDecimalDigits < ds.length then .error (.tooManyDigits ds.length)
        else .ok (bodyValue base ds) := by
  -- All of the text is the body of a numeral, and nothing is left behind it.
  have hbody : ∀ c ∈ ds, isBody base c = true := by
    intro c hc
    rw [isBody, hds c hc, Bool.or_true]
  have htake : ds.takeWhile (isBody base) = ds := by
    have h : (ds ++ []).takeWhile (isBody base) = ds ++ [].takeWhile (isBody base) :=
      List.takeWhile_append_of_pos hbody
    rwa [List.takeWhile_nil, List.append_nil] at h
  have hdrop : ds.dropWhile (isBody base) = [] := by
    have h : (ds ++ []).dropWhile (isBody base) = [].dropWhile (isBody base) :=
      List.dropWhile_append_of_pos hbody
    rwa [List.dropWhile_nil, List.append_nil] at h
  have hhead : ¬ ds.head? = some '_' := by
    intro h
    exact (ne_of_digit? (hds '_' (List.mem_of_mem_head? h))).1 rfl
  have hempty : ds.isEmpty = false := List.isEmpty_eq_false_iff.mpr hne
  rw [readUnsigned]
  simp only [htake, hdrop, length_filterMap_digit? hds, separated_of_digits hds, hempty, hhead]
  by_cases hlong : base = .decimal ∧ maxDecimalDigits < ds.length
  · rw [if_pos hlong, if_neg (by decide), if_pos (by simpa using hlong)]
  · rw [if_neg hlong, if_neg (by decide), if_neg (by simpa using hlong), if_neg (by decide)]

/-- Behind an announcement, if there is one, a text that is digits in ASCII characters is read
    as their number, if a decimal one has few enough of them. -/
theorem read_of_asciiForm {cs : List Char} (hform : asciiForm text.toList = c :: cs)
    (hc : (digit? base c).isSome = true) (hdrop : dropAnnouncement base (c :: cs) = ds)
    (hne : ds ≠ []) (hds : ∀ c ∈ ds, (digit? base c).isSome = true) :
    read base text
      = if base = .decimal ∧ maxDecimalDigits < ds.length then .error (.tooManyDigits ds.length)
        else .ok (bodyValue base ds : Int) := by
  obtain ⟨-, hplus, hminus, -, -, hspace⟩ := ne_of_digit? hc
  -- The text has neither a blank nor a sign in front.
  have hsign : splitSign (c :: cs) = (false, c :: cs) := by
    unfold splitSign
    split
    · rename_i heq
      exact absurd (List.cons.inj heq).1 hplus
    · rename_i heq
      exact absurd (List.cons.inj heq).1 hminus
    · rfl
  rw [read, hform, List.dropWhile_cons_of_neg (by rw [hspace]; decide), hsign]
  simp only [hdrop, readUnsigned_digits hne hds]
  by_cases hlong : base = .decimal ∧ maxDecimalDigits < ds.length
  · rw [if_pos hlong, if_pos hlong]
  · rw [if_neg hlong, if_neg hlong]
    rfl

/-- ASCII characters are taken as they are. -/
theorem asciiForm_of_ascii {cs : List Char} (h : ∀ c ∈ cs, c.toNat < 128) :
    asciiForm cs = cs :=
  if_pos (List.all_eq_true.mpr fun c hc => decide_eq_true (h c hc))

theorem toNat_lt_of_digit? (h : (digit? base c).isSome = true) : c.toNat < 128 :=
  Nat.lt_of_le_of_lt (toNat_of_digit? h).2 (by decide)

/-- A text of digits is read as their number, if a decimal one has few enough of them. -/
theorem read_digits (hne : ds ≠ []) (hds : ∀ c ∈ ds, (digit? base c).isSome = true) :
    read base (String.ofList ds)
      = if base = .decimal ∧ maxDecimalDigits < ds.length then .error (.tooManyDigits ds.length)
        else .ok (bodyValue base ds : Int) := by
  obtain ⟨c, cs, rfl⟩ := List.exists_cons_of_ne_nil hne
  obtain ⟨hc, hcs⟩ := List.forall_mem_cons.mp hds
  have hform : asciiForm (String.ofList (c :: cs)).toList = c :: cs := by
    rw [String.toList_ofList]
    exact asciiForm_of_ascii fun d hd => toNat_lt_of_digit? (hds d hd)
  have hdrop : dropAnnouncement base (c :: cs) = c :: cs := by
    unfold dropAnnouncement
    split
    · rename_i x r heq
      obtain ⟨rfl, rfl⟩ := List.cons.inj heq
      obtain ⟨-, -, -, hx, hX, -⟩ := ne_of_digit? (hcs x List.mem_cons_self)
      rw [if_neg (by simp [hx, hX])]
    · rfl
  exact read_of_asciiForm hform hc hdrop hne hds

theorem read_of_digits (hne : ds ≠ []) (hds : ∀ c ∈ ds, (digit? base c).isSome = true)
    (hlen : base = .decimal → ds.length ≤ maxDecimalDigits) :
    read base (String.ofList ds) = .ok (bodyValue base ds) := by
  rw [read_digits hne hds]
  exact if_neg fun h => Nat.not_lt.mpr (hlen h.1) h.2

/-- The same number is read behind an announcement. -/
theorem read_of_hexDigits (hne : ds ≠ [])
    (hds : ∀ c ∈ ds, (digit? .hexadecimal c).isSome = true) :
    read .hexadecimal (String.ofList ('0' :: 'x' :: ds)) = .ok (bodyValue .hexadecimal ds) := by
  have hform : asciiForm (String.ofList ('0' :: 'x' :: ds)).toList = '0' :: 'x' :: ds := by
    rw [String.toList_ofList]
    apply asciiForm_of_ascii
    rw [List.forall_mem_cons, List.forall_mem_cons]
    exact ⟨by decide, by decide, fun d hd => toNat_lt_of_digit? (hds d hd)⟩
  have hdrop : dropAnnouncement .hexadecimal ('0' :: 'x' :: ds) = ds := by
    obtain ⟨c, cs, rfl⟩ := List.exists_cons_of_ne_nil hne
    have hc := (ne_of_digit? (hds c List.mem_cons_self)).1
    unfold dropAnnouncement
    simp only [decide_true, Bool.true_or, if_true]
    split
    · rename_i heq
      exact absurd (List.cons.inj heq).1 hc
    · rfl
  rw [read_of_asciiForm hform (by decide) hdrop hne hds]
  exact if_neg fun h => by cases h.1

/-! ## The digits of lexing -/

theorem isSome_digit? {d : Nat} (h : Text.asciiDigitValue? c = some d) (hd : d < base.radix) :
    (digit? base c).isSome = true := by
  rw [digit?, h, Option.filter_some, if_pos (decide_eq_true hd)]
  rfl

theorem isSome_digit?_of_isDigit (h : Lexer.isDigit c = true) :
    (digit? base c).isSome = true := by
  have hdigit := Lexer.isDigit_iff.mp h
  have hhi : c.toNat ≤ 57 := (Char.isDigit_iff_toNat.mp hdigit).2
  have hvalue : Text.asciiDigitValue? c = some (c.toNat - 48) := if_pos hdigit
  have hradix : 10 ≤ base.radix := by cases base <;> decide
  exact isSome_digit? hvalue (by omega)

theorem isSome_digit?_of_isHexDigit (h : Climb.isHexDigit c = true) :
    (digit? .hexadecimal c).isSome = true := by
  obtain ⟨r, hr, hlo, hhi⟩ := Lexer.CharClass.contains_iff.mp h
  have hcases : r = ('0', '9') ∨ r = ('a', 'f') ∨ r = ('A', 'F') := by
    simpa [Lexer.hexDigits] using hr
  rcases hcases with rfl | rfl | rfl
  · exact isSome_digit?_of_isDigit
      (Lexer.isDigit_iff.mpr (Char.isDigit_iff_toNat.mpr ⟨hlo, hhi⟩))
  · have hlo' : 97 ≤ c.toNat := hlo
    have hhi' : c.toNat ≤ 102 := hhi
    have hdigit : ¬ c.isDigit = true := by
      rw [Char.isDigit_iff_toNat]
      show ¬ (48 ≤ c.toNat ∧ c.toNat ≤ 57)
      omega
    have hlower : c.isLower = true := by
      rw [isLower_iff]
      omega
    have hvalue : Text.asciiDigitValue? c = some (c.toNat - 87) := by
      rw [Text.asciiDigitValue?, if_neg hdigit, if_pos hlower]
    exact isSome_digit? hvalue (show c.toNat - 87 < 16 by omega)
  · have hlo' : 65 ≤ c.toNat := hlo
    have hhi' : c.toNat ≤ 70 := hhi
    have hdigit : ¬ c.isDigit = true := by
      rw [Char.isDigit_iff_toNat]
      show ¬ (48 ≤ c.toNat ∧ c.toNat ≤ 57)
      omega
    have hlower : ¬ c.isLower = true := by
      rw [isLower_iff]
      omega
    have hupper : c.isUpper = true := by
      rw [isUpper_iff]
      omega
    have hvalue : Text.asciiDigitValue? c = some (c.toNat - 55) := by
      rw [Text.asciiDigitValue?, if_neg hdigit, if_neg hlower, if_pos hupper]
    exact isSome_digit? hvalue (show c.toNat - 55 < 16 by omega)

/-! ## Numbers as they are printed -/

theorem isDigit_of_mem_toDigits {n : Nat} (h : c ∈ Nat.toDigits 10 n) :
    Lexer.isDigit c = true :=
  Lexer.isDigit_iff.mpr (Nat.isDigit_of_mem_toDigits (by decide) (by decide) h)

theorem digit?_of_isDigit (h : c.isDigit = true) : digit? .decimal c = some (c.toNat - 48) := by
  obtain ⟨hlo, hhi⟩ := Char.isDigit_iff_toNat.mp h
  have hhi' : c.toNat ≤ 57 := hhi
  have hvalue : Text.asciiDigitValue? c = some (c.toNat - 48) := if_pos h
  have hradix : c.toNat - 48 < Base.decimal.radix := by
    show c.toNat - 48 < 10
    omega
  rw [digit?, hvalue, Option.filter_some, if_pos (decide_eq_true hradix)]

theorem foldl_filterMap_digit? (h : ∀ c ∈ ds, c.isDigit = true) (v : Nat) :
    (ds.filterMap (digit? .decimal)).foldl (fun v d => v * Base.decimal.radix + d) v
      = Nat.ofDigitChars 10 ds v := by
  induction ds generalizing v with
  | nil => rw [Nat.ofDigitChars_nil]; rfl
  | cons c ds ih =>
    obtain ⟨hc, hds⟩ := List.forall_mem_cons.mp h
    rw [List.filterMap_cons_some (digit?_of_isDigit hc), List.foldl_cons, ih hds,
      Nat.ofDigitChars_cons, Nat.mul_comm 10 v]
    rfl

theorem bodyValue_toDigits (n : Nat) : bodyValue .decimal (Nat.toDigits 10 n) = n := by
  have hdigits : ∀ c ∈ Nat.toDigits 10 n, c.isDigit = true :=
    fun c hc => Nat.isDigit_of_mem_toDigits (by decide) (by decide) hc
  rw [bodyValue, foldl_filterMap_digit? hdigits, Nat.ofDigitChars_ten_toDigits]

theorem Base.ten_le_radix (base : Base) : 10 ≤ base.radix := by
  cases base <;> decide

theorem digit?_digitChar {d : Nat} (h : d < base.radix) :
    digit? base (Nat.digitChar d) = some d := by
  have hdigits : ∀ d < base.radix, digit? base (Nat.digitChar d) = some d := by
    cases base <;> decide
  exact hdigits d h

theorem bodyValue_concat {d : Nat} (h : digit? base c = some d) (ds : List Char) :
    bodyValue base (ds ++ [c]) = bodyValue base ds * base.radix + d := by
  rw [bodyValue, List.filterMap_append, List.filterMap_cons_some h, List.filterMap_nil,
    List.foldl_append]
  rfl

theorem bodyValue_hexDigits (width n : Nat) :
    bodyValue .hexadecimal (Text.hexDigits width n) = n % 16 ^ width := by
  induction width generalizing n with
  | zero => rw [Nat.pow_zero, Nat.mod_one]; rfl
  | succ width ih =>
    have hlast : n % 16 < Base.hexadecimal.radix := Nat.mod_lt n (by decide)
    have hradix : Base.hexadecimal.radix = 16 := rfl
    rw [Text.hexDigits, bodyValue_concat (digit?_digitChar hlast), ih, hradix, Nat.pow_succ,
      Nat.mul_comm (16 ^ width), Nat.mod_mul]
    omega

theorem isHexDigit_of_mem_hexDigits {width n : Nat} (h : c ∈ Text.hexDigits width n) :
    Climb.isHexDigit c = true := by
  have hdigits : ∀ d < 16, Climb.isHexDigit (Nat.digitChar d) = true := by decide
  induction width generalizing n with
  | zero => cases h
  | succ width ih =>
    rcases List.mem_append.mp h with h | h
    · exact ih h
    · rw [List.mem_singleton.mp h]
      exact hdigits _ (Nat.mod_lt n (by decide))

/-- Digits with no more than a suffix behind them do not announce another base. -/
theorem ne_announced {p : Char → Bool} {suffix : List Char} {x : Char}
    (hds : ∀ c ∈ ds, p c = true) (hsuffix : suffix = [] ∨ suffix = ['u'])
    (hx : p x = false ∧ x ≠ 'u') (r : List Char) : ds ++ suffix ≠ '0' :: x :: r := by
  intro heq
  have hmem : x ∈ ds ++ suffix := by
    rw [heq]
    exact List.mem_cons_of_mem _ List.mem_cons_self
  rcases List.mem_append.mp hmem with hmem | hmem
  · rw [hds x hmem] at hx
    cases hx.1
  · rcases hsuffix with rfl | rfl
    · cases hmem
    · exact hx.2 (List.mem_singleton.mp hmem)

/-! ## Digits of every script -/

/-- The digits of other scripts are no white space. -/
theorem isBlank_of_digitZero {z : Nat} (hz : z ∈ Text.digitZeros) (hlo : z ≤ c.toNat)
    (hhi : c.toNat < z + 10) (hascii : 128 ≤ c.toNat) : Text.isBlank c = false := by
  have hapart : ∀ z ∈ Text.digitZeros, z = 48 ∨ (0xA0 < z
      ∧ (∀ n ∈ [0x1680, 0x2028, 0x2029, 0x202F, 0x205F, 0x3000], n < z ∨ z + 10 ≤ n)
      ∧ (z + 10 ≤ 0x2000 ∨ 0x200A < z)) := by
    decide
  simp only [Text.isBlank, Bool.or_eq_false_iff, Bool.and_eq_false_iff, decide_eq_false_iff_not,
    beq_eq_false_iff_ne]
  rcases hapart z hz with rfl | ⟨hlow, hpoints, hrun⟩
  · omega
  · simp only [List.forall_mem_cons, List.not_mem_nil, false_implies, implies_true] at hpoints
    omega

/-- A digit of another script has a value below ten, and is no white space. -/
theorem lt_and_not_isBlank_of_digitValue? {d : Nat} (h : Text.digitValue? c = some d)
    (hascii : 128 ≤ c.toNat) : d < 10 ∧ Text.isBlank c = false := by
  have hdigit : ¬ c.isDigit = true := by
    intro hdigit
    have hhi : c.toNat ≤ 57 := (Char.isDigit_iff_toNat.mp hdigit).2
    omega
  rw [Text.digitValue?, if_neg hdigit, if_neg (Nat.not_lt.mpr hascii)] at h
  obtain ⟨z, hz, hd⟩ := Option.map_eq_some_iff.mp h
  have hrange := List.find?_some hz
  simp only [Bool.and_eq_true, decide_eq_true_eq] at hrange
  exact ⟨by omega, isBlank_of_digitZero (List.mem_of_find?_eq_some hz) hrange.1 hrange.2 hascii⟩

/-- A digit of any script has the value of the ASCII digit that is put in its place. -/
theorem digit?_asciiPart {d : Nat} (h : Text.digitValue? c = some d) :
    digit? .decimal (asciiPart c) = some d := by
  by_cases hdigit : c.isDigit = true
  · have hhi : c.toNat ≤ 57 := (Char.isDigit_iff_toNat.mp hdigit).2
    rw [Text.digitValue?_of_isDigit hdigit] at h
    cases h
    rw [asciiPart, if_pos (by omega), digit?_of_isDigit hdigit]
  · have hascii : 128 ≤ c.toNat := by
      refine Nat.le_of_not_lt fun hlt => ?_
      rw [Text.digitValue?, if_neg hdigit, if_pos hlt] at h
      cases h
    obtain ⟨hten, hblank⟩ := lt_and_not_isBlank_of_digitValue? h hascii
    rw [asciiPart, if_neg (by omega), if_neg (by rw [hblank]; decide), h]
    exact digit?_digitChar hten

theorem asciiForm_of_isDecimal (h : ∀ c ∈ ds, Text.isDecimal c = true) :
    asciiForm ds = ds.map asciiPart := by
  unfold asciiForm
  split
  · rename_i hall
    -- An ASCII character that is a decimal digit is taken as it is.
    have hself : ∀ c ∈ ds, asciiPart c = c := by
      intro c hc
      have hlt := of_decide_eq_true (List.all_eq_true.mp hall c hc)
      have hdecimal := h c hc
      by_cases hdigit : c.isDigit = true
      · have hhi : c.toNat ≤ 57 := (Char.isDigit_iff_toNat.mp hdigit).2
        rw [asciiPart, if_pos (by omega)]
      · rw [Text.isDecimal, Text.digitValue?, if_neg hdigit, if_pos hlt] at hdecimal
        cases hdecimal
    rw [List.map_congr_left hself, List.map_id']
  · rfl

/-- A text of decimal digits of any script is read as the number that they denote, if they are
    few enough. -/
theorem read_of_isDecimal (hne : ds ≠ []) (hds : ∀ c ∈ ds, Text.isDecimal c = true) :
    read .decimal (String.ofList ds)
      = if maxDecimalDigits < ds.length then .error (.tooManyDigits ds.length)
        else .ok ((ds.filterMap Text.digitValue?).foldl (fun v d => v * 10 + d) 0 : Nat) := by
  have hpart : ∀ c ∈ ds, digit? .decimal (asciiPart c) = Text.digitValue? c := by
    intro c hc
    obtain ⟨d, hd⟩ := Option.isSome_iff_exists.mp (hds c hc)
    rw [digit?_asciiPart hd, hd]
  have hdigits : ∀ c ∈ ds.map asciiPart, (digit? .decimal c).isSome = true := by
    intro c hc
    obtain ⟨b, hb, rfl⟩ := List.mem_map.mp hc
    rw [hpart b hb]
    exact hds b hb
  have hvalue : bodyValue .decimal (ds.map asciiPart)
      = (ds.filterMap Text.digitValue?).foldl (fun v d => v * 10 + d) 0 := by
    rw [bodyValue, List.filterMap_map]
    congr 1
    exact List.filterMap_congr hpart
  obtain ⟨c, cs, hcs⟩ := List.exists_cons_of_ne_nil (List.map_eq_nil_iff.not.mpr hne)
  have hform : asciiForm (String.ofList ds).toList = c :: cs := by
    rw [String.toList_ofList, asciiForm_of_isDecimal hds, hcs]
  have hdrop : dropAnnouncement .decimal (c :: cs) = ds.map asciiPart := hcs.symm
  have hhead : (digit? .decimal c).isSome = true :=
    hdigits c (by rw [hcs]; exact List.mem_cons_self)
  rw [read_of_asciiForm hform hhead hdrop (List.map_eq_nil_iff.not.mpr hne) hdigits, hvalue,
    List.length_map]
  simp only [true_and]

end Numeral

/-- A numeral that is read has the word of its number as its value. -/
theorem Climb.numeralValue_of_readNumeral {text : String} {n : Nat}
    (h : readNumeral text = .ok (n : Int)) (w : Width) :
    numeralValue w.size text = .ok (w.wrap n).toNat := by
  have hwrap := w.toNat_wrap n
  have hsize : ¬ (w.size : Int) < 0 := by omega
  rw [numeralValue, h]
  simp only [if_neg hsize, Int.toNat_natCast]
  rw [Width.natCast_shiftLeft, ← hwrap, Int.toNat_natCast]

/-! ## Literals -/

/-- Is this a decimal or a hexadecimal literal? -/
def TokenKind.isLiteral : TokenKind → Bool
  | dec | hex => true
  | _ => false

theorem TokenKind.isOperand_of_isLiteral {k : TokenKind} (h : k.isLiteral = true) :
    k.isOperand = true := by
  cases k with
  | dec => rfl
  | hex => rfl
  | _ => cases h

/-- The number that the digits of a literal denote. The suffix is no digit. -/
def Token.number (t : Token) : Nat :=
  match t.kind with
  | .hex => Numeral.bodyValue .hexadecimal (t.text.toList.drop 2)
  | _ => Numeral.bodyValue .decimal t.text.toList

namespace Token.Lexable

open Lexer Numeral

variable {t : Token}

theorem isLiteral_cases {k : TokenKind} (h : k.isLiteral = true) : k = .dec ∨ k = .hex := by
  cases k with
  | dec => exact .inl rfl
  | hex => exact .inr rfl
  | _ => cases h

theorem exists_decDigits (h : t.Lexable) (hk : t.kind = .dec) :
    ∃ ds suffix, t.text.toList = ds ++ suffix ∧ ds ≠ [] ∧ (∀ c ∈ ds, isDigit c = true)
      ∧ (suffix = [] ∨ suffix = ['u']) ∧ ds.length ≤ maxDecimalDigits
      ∧ t.number = bodyValue .decimal (ds ++ suffix) := by
  cases h with
  | @dec ds suffix hne hds hsuffix hlen =>
    have hlen' : ds.length ≤ maxDecimalDigits := by
      have hmax : maxLexeme ≤ maxDecimalDigits := by decide
      rw [List.length_append] at hlen
      omega
    refine ⟨ds, suffix, String.toList_ofList, hne, hds, hsuffix, hlen', ?_⟩
    rw [number, String.toList_ofList]
  | hex => cases hk
  | reg => cases hk
  | spelled hop =>
    subst hk
    cases hop

/-- A decimal literal does not look like a hexadecimal one. -/
theorem dec_ne_announced (h : t.Lexable) (hk : t.kind = .dec) {x : Char} (hx : x = 'x' ∨ x = 'X')
    (r : List Char) : t.text.toList ≠ '0' :: x :: r := by
  obtain ⟨ds, suffix, htext, -, hds, hsuffix, -, -⟩ := h.exists_decDigits hk
  rw [htext]
  exact ne_announced hds hsuffix (by rcases hx with rfl | rfl <;> decide) r

/-- A decimal literal is read without the suffix, however the suffix is recognised. -/
theorem read_dec (h : t.Lexable) (hk : t.kind = .dec) {p : Char → Bool} (hu : p 'u' = true)
    (hp : ∀ c, isDigit c = true → p c = false) :
    Numeral.read .decimal (String.ofList (Text.dropEndWhile p t.text.toList))
      = .ok (t.number : Int) := by
  obtain ⟨ds, suffix, htext, hne, hds, hsuffix, hlen, hnumber⟩ := h.exists_decDigits hk
  have hdigits : ∀ c ∈ ds, (digit? .decimal c).isSome = true :=
    fun c hc => isSome_digit?_of_isDigit (hds c hc)
  have hsuffix' : ∀ c ∈ suffix, p c = true := by
    rcases hsuffix with rfl | rfl
    · exact fun c hc => absurd hc List.not_mem_nil
    · exact List.forall_mem_singleton.mpr hu
  -- The suffix is no digit, so that it adds nothing to the number.
  have hvalue : bodyValue .decimal (ds ++ suffix) = bodyValue .decimal ds := by
    rcases hsuffix with rfl | rfl
    · rw [List.append_nil]
    · have hnone : digit? .decimal 'u' = none := by decide
      rw [bodyValue, bodyValue, List.filterMap_append, List.filterMap_cons_none hnone,
        List.filterMap_nil, List.append_nil]
  rw [htext, Text.dropEndWhile_append_of_all (fun c hc => hp c (hds c hc)) hsuffix',
    read_of_digits hne hdigits fun _ => hlen, hnumber, hvalue]

theorem exists_hexDigits (h : t.Lexable) (hk : t.kind = .hex) :
    ∃ ds, t.text = String.ofList ('0' :: 'x' :: ds) ∧ ds ≠ []
      ∧ (∀ c ∈ ds, (digit? .hexadecimal c).isSome = true)
      ∧ t.number = bodyValue .hexadecimal ds := by
  cases h with
  | @hex ds hne hlen hds =>
    refine ⟨ds, rfl, hne, fun c hc => isSome_digit?_of_isHexDigit (hds c hc), ?_⟩
    rw [number, String.toList_ofList]
    rfl
  | dec => cases hk
  | reg => cases hk
  | spelled hop =>
    subst hk
    cases hop

/-- Evaluation reads the number that a literal denotes. -/
theorem literal_read (h : t.Lexable) (hk : t.kind.isLiteral = true) :
    Literal.read t.text = .ok (t.number : Int) := by
  rcases isLiteral_cases hk with hdec | hhex
  · rw [Literal.read]
    split
    · rename_i r heq
      exact absurd heq (h.dec_ne_announced hdec (.inl rfl) r)
    · rename_i r heq
      exact absurd heq (h.dec_ne_announced hdec (.inr rfl) r)
    · refine h.read_dec hdec (by decide) fun c hc => ?_
      rw [Literal.isSuffix, Bool.or_eq_false_iff]
      constructor
      · exact decide_eq_false (by rintro rfl; exact absurd hc (by decide))
      · exact decide_eq_false (by rintro rfl; exact absurd hc (by decide))
  · obtain ⟨ds, htext, hne, hds, hnumber⟩ := h.exists_hexDigits hhex
    rw [htext, hnumber, Literal.read, String.toList_ofList]
    exact read_of_digits hne hds fun h => by cases h

/-- Plain arithmetic reads the same number. -/
theorem readNumeral (h : t.Lexable) (hk : t.kind.isLiteral = true) :
    Climb.readNumeral t.text = .ok (t.number : Int) := by
  rcases isLiteral_cases hk with hdec | hhex
  · rw [Climb.readNumeral]
    split
    · rename_i r heq
      exact absurd heq (h.dec_ne_announced hdec (.inl rfl) r)
    · refine h.read_dec hdec (by decide) fun c hc => ?_
      exact decide_eq_false (by rintro rfl; exact absurd hc (by decide))
  · obtain ⟨ds, htext, hne, hds, hnumber⟩ := h.exists_hexDigits hhex
    rw [htext, hnumber, Climb.readNumeral, String.toList_ofList]
    exact read_of_hexDigits hne hds

/-- The word that a literal denotes. -/
theorem literal_value (h : t.Lexable) (hk : t.kind.isLiteral = true) (w : Width) :
    Literal.value t.text w.size = .ok (w.wrap t.number).toNat := by
  rw [Literal.value, h.literal_read hk]
  simp only [Word.reduce_size]

theorem numeralValue (h : t.Lexable) (hk : t.kind.isLiteral = true) (w : Width) :
    Climb.numeralValue w.size t.text = .ok (w.wrap t.number).toNat :=
  Climb.numeralValue_of_readNumeral (h.readNumeral hk) w

end Token.Lexable

/-! ## Numbers as literals -/

/-- The literal of a number in decimal digits, without the suffix. -/
def Token.decimal (n : Nat) : Token := ⟨.dec, toString n⟩

namespace Token

open Lexer Numeral

variable {n : Nat}

theorem length_toDigits_le (h : n < 2 ^ 64) : (Nat.toDigits 10 n).length ≤ 20 := by
  rw [Nat.length_toDigits_le_iff (by decide) (by decide)]
  omega

/-- The digits of a number of up to 64 bits are short enough to be lexed, also with the suffix. -/
theorem lexable_toDigits {suffix : List Char} (h : n < 2 ^ 64)
    (hsuffix : suffix = [] ∨ suffix = ['u']) :
    Lexable ⟨.dec, String.ofList (Nat.toDigits 10 n ++ suffix)⟩ := by
  have hone : suffix.length ≤ 1 := by
    rcases hsuffix with rfl | rfl
    · exact Nat.zero_le 1
    · exact Nat.le_refl 1
  have hshort : (Nat.toDigits 10 n ++ suffix).length ≤ maxLexeme := by
    rw [List.length_append]
    exact Nat.le_trans (Nat.add_le_add (length_toDigits_le h) hone) (by decide)
  exact .dec Nat.toDigits_ne_nil (fun c hc => isDigit_of_mem_toDigits hc) hsuffix hshort

theorem lexable_decimal (h : n < 2 ^ 64) : (decimal n).Lexable := by
  have hlexable := lexable_toDigits h (.inl rfl)
  rwa [List.append_nil, ← Nat.toString_eq_ofList_toDigits] at hlexable

/-- A word has a literal that can be lexed. -/
theorem lexable_decimal_of_lt {w : Width} (h : n < 2 ^ w.size) : (decimal n).Lexable :=
  lexable_decimal (Nat.lt_of_lt_of_le h w.two_pow_size_le)

theorem number_decimal (n : Nat) : (decimal n).number = n := by
  have hnumber : (decimal n).number = bodyValue .decimal (toString n).toList := rfl
  rw [hnumber, Nat.toString_eq_ofList_toDigits, String.toList_ofList, bodyValue_toDigits]

end Token

end WordExpr
