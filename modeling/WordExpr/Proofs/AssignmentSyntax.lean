/-
  WordExpr.Proofs.AssignmentSyntax

  Which items are assignments, and what they assign. An item has a name and a value, apart at its
  first equals sign and trimmed (`Assignment.Parts`). It is an assignment exactly if its name is
  not empty and its value is read as a literal (`Literal.Denotes`), and it assigns the residue of
  the literal's integer (`Assignment.parse_eq_ok_iff`).

  What is read as a literal is more than what a literal is in an expression, decimal digits with
  one `u` behind or hexadecimal digits behind `0x` (`Literal.IsStrict`): strict literals are
  read, up to the limit on decimal digits, and so are signs, underscores, digits of other scripts,
  blanks inside, and suffixes that are repeated (`Assignment.repeated_suffix_is_accepted`).
-/
import WordExpr.Assignment
import WordExpr.Proofs.NumeralSyntax
import WordExpr.Proofs.Residues

namespace WordExpr

/-! ## Literals -/

namespace Literal

open Numeral (Alphabet IsNumeral maxDecimalDigits)

variable {cs r : List Char} {x : Char} {k m : Nat} {n : Int} {text : String} {w : Width}

/-- The text is read as a literal for the integer: a hexadecimal numeral behind `0x`, or a
    decimal one before suffix letters. -/
inductive Denotes : List Char → Int → Prop
  | hexadecimal {x : Char} {cs : List Char} {n : Int} (hx : x = 'x' ∨ x = 'X')
      (h : IsNumeral .anyScript .hexadecimal cs n) : Denotes ('0' :: x :: cs) n
  | decimal {cs suffix : List Char} {n : Int} (h : IsNumeral .anyScript .decimal cs n)
      (hsuffix : ∀ c ∈ suffix, c = 'u' ∨ c = 'U') : Denotes (cs ++ suffix) n

theorem Denotes.ne_nil (h : Denotes cs n) : cs ≠ [] := by
  cases h with
  | hexadecimal _ _ => exact List.cons_ne_nil _ _
  | decimal h _ => exact List.append_ne_nil_of_left_ne_nil h.ne_nil _

theorem isSuffix_iff {c : Char} : isSuffix c = true ↔ c = 'u' ∨ c = 'U' := by
  rw [isSuffix, Bool.or_eq_true, decide_eq_true_eq, decide_eq_true_eq]

theorem denotes_announced_iff (hx : x = 'x' ∨ x = 'X') :
    Denotes ('0' :: x :: r) n ↔ IsNumeral .anyScript .hexadecimal r n := by
  refine ⟨fun h => ?_, .hexadecimal hx⟩
  generalize hcs : '0' :: x :: r = cs at h
  cases h with
  | hexadecimal _ h =>
    cases hcs
    exact h
  | @decimal ds suffix n h hsuffix =>
    -- A decimal numeral has no letter for a second character.
    have hmem : x ∈ ds ++ suffix := by
      rw [← hcs]
      exact List.mem_cons_of_mem _ List.mem_cons_self
    have hletters := h.not_mem_letter
    rcases List.mem_append.mp hmem with hmem | hmem
    · rcases hx with rfl | rfl
      · exact absurd hmem (hletters _ (by decide))
      · exact absurd hmem (hletters _ (by decide))
    · have hu := hsuffix x hmem
      rcases hx with rfl | rfl <;> rcases hu with hu | hu <;> cases hu

theorem denotes_decimal_iff (hcs : ∀ x r, x = 'x' ∨ x = 'X' → cs ≠ '0' :: x :: r) :
    Denotes cs n ↔ IsNumeral .anyScript .decimal (Text.dropEndWhile isSuffix cs) n := by
  constructor
  · intro h
    cases h with
    | hexadecimal hx _ => exact absurd rfl (hcs _ _ hx)
    | @decimal ds suffix n h hsuffix =>
      -- No suffix letter is in the numeral, so that it is what is left of the text.
      have hletters := h.not_mem_letter
      have hkeep : ∀ c ∈ ds, isSuffix c = false := by
        intro c hc
        rw [Bool.eq_false_iff, ne_eq, isSuffix_iff]
        rintro (rfl | rfl)
        · exact hletters _ (by decide) hc
        · exact hletters _ (by decide) hc
      rwa [Text.dropEndWhile_append_of_all hkeep fun c hc => isSuffix_iff.mpr (hsuffix c hc)]
  · intro h
    obtain ⟨suffix, hsuffix, hsplit⟩ := Text.exists_dropEndWhile isSuffix cs
    have hdenotes := Denotes.decimal h fun c hc => isSuffix_iff.mp (hsuffix c hc)
    rwa [hsplit] at hdenotes

/-- A text is read as a literal exactly if it denotes the integer. -/
theorem read_eq_ok_iff : read text = .ok n ↔ Denotes text.toList n := by
  rw [read]
  split
  · rename_i r heq
    rw [heq, denotes_announced_iff (.inl rfl), Numeral.read_eq_ok_iff, String.toList_ofList]
  · rename_i r heq
    rw [heq, denotes_announced_iff (.inr rfl), Numeral.read_eq_ok_iff, String.toList_ofList]
  · rename_i hx hX
    rw [Numeral.read_eq_ok_iff, String.toList_ofList, denotes_decimal_iff]
    rintro x r (rfl | rfl)
    · exact hx r
    · exact hX r

theorem value_size (text : String) (w : Width) :
    value text w.size = match read text with
      | .error e => .error (.numeral e)
      | .ok n => .ok (w.residue n) := by
  rw [value]
  cases read text with
  | error e => rfl
  | ok n =>
    simp only [Word.reduce_size]
    rw [Width.toNat_wrap_eq_residue]

theorem value_eq_ok_iff :
    value text w.size = .ok m ↔ ∃ n, Denotes text.toList n ∧ m = w.residue n := by
  rw [value_size]
  cases hread : read text with
  | error e =>
    refine ⟨nofun, ?_⟩
    rintro ⟨n, hn, -⟩
    rw [read_eq_ok_iff.mpr hn] at hread
    cases hread
  | ok n =>
    have hn := read_eq_ok_iff.mp hread
    constructor
    · intro h
      exact ⟨n, hn, (Except.ok.inj h).symm⟩
    · rintro ⟨n', hn', rfl⟩
      rw [read_eq_ok_iff.mpr hn'] at hread
      rw [Except.ok.inj hread]

/-! ### Strict literals -/

/-- The text is a literal with so many decimal digits for the number: ASCII digits, with no more
    than one suffix behind, or hexadecimal digits behind `0x`. -/
inductive IsStrict : List Char → Nat → Nat → Prop
  | decimal {ds suffix : List Char} (hne : ds ≠ []) (hds : ∀ c ∈ ds, Lexer.isDigit c = true)
      (hsuffix : suffix = [] ∨ suffix = ['u']) :
      IsStrict (ds ++ suffix) ds.length (Numeral.bodyValue .decimal ds)
  | hexadecimal {ds : List Char} (hne : ds ≠ []) (hds : ∀ c ∈ ds, Climb.isHexDigit c = true) :
      IsStrict ('0' :: 'x' :: ds) 0 (Numeral.bodyValue .hexadecimal ds)

theorem ne_suffix_of_isDigit {c : Char} (h : Lexer.isDigit c = true) : isSuffix c = false := by
  rw [Bool.eq_false_iff, ne_eq, isSuffix_iff]
  rintro (rfl | rfl)
  · exact absurd h (by decide)
  · exact absurd h (by decide)

theorem IsStrict.ne_nil (h : IsStrict cs k m) : cs ≠ [] := by
  cases h with
  | decimal hne _ _ => exact List.append_ne_nil_of_left_ne_nil hne _
  | hexadecimal _ _ => exact List.cons_ne_nil _ _

/-- A strict literal has no more than one suffix letter. -/
theorem IsStrict.count_suffix_le (h : IsStrict cs k m) : cs.count 'u' ≤ 1 := by
  cases h with
  | @decimal ds suffix hne hds hsuffix =>
    have hnone : ds.count 'u' = 0 := List.count_eq_zero.mpr fun hu => absurd (hds _ hu) (by decide)
    have hone : suffix.count 'u' ≤ 1 := by rcases hsuffix with rfl | rfl <;> decide
    rw [List.count_append, hnone, Nat.zero_add]
    exact hone
  | @hexadecimal ds hne hds =>
    have hnone : ds.count 'u' = 0 := List.count_eq_zero.mpr fun hu => absurd (hds _ hu) (by decide)
    rw [List.count_cons_of_ne (by decide), List.count_cons_of_ne (by decide), hnone]
    exact Nat.zero_le 1

/-- A strict literal is read as its number, if it has few enough decimal digits. -/
theorem IsStrict.read (h : IsStrict cs k m) :
    Literal.read (String.ofList cs)
      = if maxDecimalDigits < k then .error (.tooManyDigits k) else .ok (m : Int) := by
  cases h with
  | @decimal ds suffix hne hds hsuffix =>
    have hkeep : ∀ c ∈ ds, isSuffix c = false := fun c hc => ne_suffix_of_isDigit (hds c hc)
    have hdrop : Text.dropEndWhile isSuffix (ds ++ suffix) = ds := by
      refine Text.dropEndWhile_append_of_all hkeep ?_
      rcases hsuffix with rfl | rfl <;> simp [isSuffix]
    rw [Literal.read, String.toList_ofList]
    split
    · rename_i r heq
      exact absurd heq (Numeral.ne_announced hds hsuffix (by decide) r)
    · rename_i r heq
      exact absurd heq (Numeral.ne_announced hds hsuffix (by decide) r)
    · rw [hdrop, Numeral.read_digits hne fun c hc => Numeral.isSome_digit?_of_isDigit (hds c hc)]
      simp only [true_and]
  | @hexadecimal ds hne hds =>
    rw [Literal.read, String.toList_ofList]
    show Numeral.read .hexadecimal (String.ofList ds) = _
    rw [Numeral.read_of_digits hne (fun c hc => Numeral.isSome_digit?_of_isHexDigit (hds c hc))
      fun h => by cases h]
    exact (if_neg (Nat.not_lt_zero _)).symm

theorem IsStrict.value (h : IsStrict cs k m) (w : Width) :
    Literal.value (String.ofList cs) w.size
      = if maxDecimalDigits < k then .error (.numeral (.tooManyDigits k))
        else .ok (w.residue m) := by
  rw [value_size, h.read]
  by_cases hlong : maxDecimalDigits < k
  · rw [if_pos hlong, if_pos hlong]
  · rw [if_neg hlong, if_neg hlong]

end Literal

/-! ## Items -/

namespace Assignment

open Text

variable {w : Width} {bits : Int} {item : String} {name value before after : List Char}
  {a : Assignment} {as : List Assignment} {k m : Nat} {e : Failure}

/-- The name and the value of an item: what stands before and behind its first equals sign, with
    the blanks around it trimmed off. -/
inductive Parts (item : String) : List Char → List Char → Prop
  | intro {before after : List Char} (hitem : item.toList = before ++ '=' :: after)
      (hbefore : '=' ∉ before) : Parts item (strip before) (strip after)

theorem split_at_sign (hbefore : '=' ∉ before) (after : List Char) :
    (before ++ '=' :: after).takeWhile (· ≠ '=') = before
      ∧ ((before ++ '=' :: after).dropWhile (· ≠ '=')).drop 1 = after := by
  have hkeep : ∀ c ∈ before, decide (c ≠ '=') = true := by
    rintro c hc
    refine decide_eq_true ?_
    rintro rfl
    exact hbefore hc
  rw [List.takeWhile_append_of_pos hkeep, List.dropWhile_append_of_pos hkeep,
    List.takeWhile_cons_of_neg (by simp), List.dropWhile_cons_of_neg (by simp), List.append_nil]
  exact ⟨rfl, rfl⟩

/-- An item with an equals sign has a name and a value, and one without has none. -/
theorem exists_parts_or (item : String) :
    (∃ name value, Parts item name value)
      ∨ (∀ name value, ¬ Parts item name value) ∧ '=' ∉ item.toList := by
  by_cases hsign : '=' ∈ item.toList
  · obtain ⟨before, after, hitem, hbefore⟩ := List.eq_append_cons_of_mem hsign
    exact .inl ⟨_, _, .intro hitem hbefore⟩
  · refine .inr ⟨?_, hsign⟩
    rintro _ _ ⟨hitem, -⟩
    exact hsign (by rw [hitem]; simp)

theorem bareName_eq_nil_iff : bareName name = [] ↔ name = [] := by
  constructor
  · intro h
    unfold bareName at h
    split at h
    · split at h <;> cases h
    · exact h
  · rintro rfl
    rfl

theorem parse_of_parts (h : Parts item name value) (bits : Int) :
    parse bits item
      = if name = [] ∨ value = [] then .error (.malformed item)
        else match Literal.value (String.ofList value) bits with
          | .error e => .error (.literal e)
          | .ok v => .ok ⟨String.ofList (bareName name), v⟩ := by
  cases h with
  | @intro before after hitem hbefore =>
    obtain ⟨htake, hdrop⟩ := split_at_sign hbefore after
    rw [parse, hitem]
    simp only [htake, hdrop]
    refine if_congr ?_ rfl rfl
    rw [Bool.or_eq_true, List.isEmpty_iff, List.isEmpty_iff, bareName_eq_nil_iff]

theorem parse_of_not_mem (h : '=' ∉ item.toList) (bits : Int) :
    parse bits item = .error (.malformed item) := by
  have hall : ∀ c ∈ item.toList, decide (c ≠ '=') = true := by
    intro c hc
    refine decide_eq_true ?_
    rintro rfl
    exact h hc
  have hdrop : item.toList.dropWhile (· ≠ '=') = [] := List.dropWhile_eq_nil_iff.mpr hall
  rw [parse]
  simp only [hdrop]
  exact if_pos (by simp [strip, stripStart, stripEnd, dropEndWhile])

theorem Parts.unique {name' value' : List Char} (h : Parts item name value)
    (h' : Parts item name' value') : name' = name ∧ value' = value := by
  cases h with
  | @intro before after hitem hbefore =>
    cases h' with
    | @intro before' after' hitem' hbefore' =>
      obtain ⟨htake, hdrop⟩ := split_at_sign hbefore after
      obtain ⟨htake', hdrop'⟩ := split_at_sign hbefore' after'
      rw [← hitem] at htake hdrop
      rw [← hitem'] at htake' hdrop'
      rw [← htake, ← hdrop, htake', hdrop']
      exact ⟨rfl, rfl⟩

/-- An item without one of its parts is malformed, and no other. -/
theorem parse_eq_malformed_iff :
    parse bits item = .error (.malformed item)
      ↔ ∀ name value, Parts item name value → name = [] ∨ value = [] := by
  rcases exists_parts_or item with ⟨name, value, h⟩ | ⟨hnone, hsign⟩
  · rw [parse_of_parts h]
    constructor
    · intro hparse name' value' h'
      obtain ⟨rfl, rfl⟩ := h.unique h'
      by_contra hsome
      rw [if_neg hsome] at hparse
      split at hparse <;> cases hparse
    · intro hmissing
      exact if_pos (hmissing _ _ h)
  · exact iff_of_true (parse_of_not_mem hsign bits) fun name value h => absurd h (hnone name value)

/-- An item is an assignment exactly if its name is not empty and its value is a literal. -/
theorem parse_eq_ok_iff :
    parse w.size item = .ok a
      ↔ ∃ name value n, Parts item name value ∧ name ≠ [] ∧ Literal.Denotes value n
        ∧ a = ⟨String.ofList (bareName name), w.residue n⟩ := by
  constructor
  · intro h
    rcases exists_parts_or item with ⟨name, value, hparts⟩ | ⟨-, hsign⟩
    · rw [parse_of_parts hparts] at h
      split at h
      · cases h
      rename_i hsome
      split at h
      · cases h
      rename_i v hv
      obtain ⟨n, hn, rfl⟩ := Literal.value_eq_ok_iff.mp hv
      rw [String.toList_ofList] at hn
      cases h
      exact ⟨name, value, n, hparts, fun hname => hsome (.inl hname), hn, rfl⟩
    · rw [parse_of_not_mem hsign] at h
      cases h
  · rintro ⟨name, value, n, hparts, hname, hn, rfl⟩
    have hv : Literal.value (String.ofList value) w.size = .ok (w.residue n) :=
      Literal.value_eq_ok_iff.mpr ⟨n, by rwa [String.toList_ofList], rfl⟩
    rw [parse_of_parts hparts, if_neg (by simp [hname, hn.ne_nil]), hv]

/-- What is no assignment lacks a part, or its value is no numeral. No width is to blame. -/
theorem failure_of_parse (h : parse w.size item = .error e) :
    e = .malformed item ∨ ∃ f, e = .literal (.numeral f) := by
  rcases exists_parts_or item with ⟨name, value, hparts⟩ | ⟨-, hsign⟩
  · rw [parse_of_parts hparts, Literal.value_size] at h
    split at h
    · cases h
      exact .inl rfl
    · split at h
      · rename_i hvalue
        split at hvalue
        · cases hvalue
          cases h
          exact .inr ⟨_, rfl⟩
        · cases hvalue
      · cases h
  · rw [parse_of_not_mem hsign] at h
    cases h
    exact .inl rfl

theorem parse_of_isStrict (hparts : Parts item name value) (hname : name ≠ [])
    (h : Literal.IsStrict value k m) :
    parse w.size item
      = if Numeral.maxDecimalDigits < k then .error (.literal (.numeral (.tooManyDigits k)))
        else .ok ⟨String.ofList (bareName name), w.residue m⟩ := by
  rw [parse_of_parts hparts, if_neg (by simp [hname, h.ne_nil]), h.value]
  by_cases hlong : Numeral.maxDecimalDigits < k
  · simp only [if_pos hlong]
  · simp only [if_neg hlong]

theorem parseAll_singleton_ok_iff :
    parseAll bits [item] = .ok as ↔ ∃ a, parse bits item = .ok a ∧ as = [a] := by
  rw [parseAll]
  cases parse bits item <;> simp [parseAll, eq_comm]

theorem parseAll_singleton_error_iff :
    parseAll bits [item] = .error e ↔ parse bits item = .error e := by
  rw [parseAll]
  cases parse bits item <;> simp [parseAll]

/-- Which items are assignments. An item is accepted exactly if it has an equals sign, a name
    before it and a literal behind it, in the wide sense of `Literal.Denotes`, and what it assigns
    is the literal's integer modulo the width. A strict literal of an accepted name is always
    read as its number, unless it has more decimal digits than are read. An item is malformed
    exactly if a part is missing; else it is the numeral that is refused. -/
theorem accepted_items (w : Width) (item : String) :
    (∀ as, parseAll w.size [item] = .ok as
      ↔ ∃ name value n, Parts item name value ∧ name ≠ [] ∧ Literal.Denotes value n
        ∧ as = [⟨String.ofList (bareName name), w.residue n⟩])
    ∧ (∀ name value digits number, Parts item name value → name ≠ [] →
        Literal.IsStrict value digits number →
        parseAll w.size [item]
          = if Numeral.maxDecimalDigits < digits
            then .error (.literal (.numeral (.tooManyDigits digits)))
            else .ok [⟨String.ofList (bareName name), w.residue number⟩])
    ∧ (parseAll w.size [item] = .error (.malformed item)
        ↔ ∀ name value, Parts item name value → name = [] ∨ value = [])
    ∧ ∀ e, parseAll w.size [item] = .error e →
        e = .malformed item ∨ ∃ f, e = .literal (.numeral f) := by
  refine ⟨fun as => ?_, fun name value digits number hparts hname hstrict => ?_, ?_,
    fun e h => ?_⟩
  · rw [parseAll_singleton_ok_iff]
    constructor
    · rintro ⟨a, ha, rfl⟩
      obtain ⟨name, value, n, hparts, hname, hn, rfl⟩ := parse_eq_ok_iff.mp ha
      exact ⟨name, value, n, hparts, hname, hn, rfl⟩
    · rintro ⟨name, value, n, hparts, hname, hn, rfl⟩
      exact ⟨_, parse_eq_ok_iff.mpr ⟨name, value, n, hparts, hname, hn, rfl⟩, rfl⟩
  · have hparse := parse_of_isStrict (w := w) hparts hname hstrict
    by_cases hlong : Numeral.maxDecimalDigits < digits
    · rw [if_pos hlong] at hparse ⊢
      exact parseAll_singleton_error_iff.mpr hparse
    · rw [if_neg hlong] at hparse ⊢
      exact parseAll_singleton_ok_iff.mpr ⟨_, hparse, rfl⟩
  · rw [parseAll_singleton_error_iff, parse_eq_malformed_iff]
  · exact failure_of_parse (parseAll_singleton_error_iff.mp h)

/-- A hexadecimal literal with a blank, an underscore and a digit of another script, and one of
    nine digits, longer than any that is lexed. -/
theorem accepted_wide_and_strict :
    parseAll Width.w32.size [" $a0 =\t0x \u0661_F "] = .ok [⟨"a0", 31⟩]
    ∧ parseAll Width.w32.size ["x5=0xffffffff1"] = .ok [⟨"x5", 0xfffffff1⟩]
    ∧ ∃ e, parseAll Width.w32.size ["a0=0xzz"] = .error e
      ∧ (e = .malformed "a0=0xzz" ∨ ∃ f, e = .literal (.numeral f)) := by
  refine ⟨?_, ?_, ?_⟩
  · have hparts : Parts " $a0 =\t0x \u0661_F " ['$', 'a', '0']
        ['0', 'x', ' ', '\u0661', '_', 'F'] :=
      @Parts.intro _ [' ', '$', 'a', '0', ' ']
        ['\t', '0', 'x', ' ', '\u0661', '_', 'F', ' '] (by decide) (by decide)
    have hnumeral : Numeral.IsNumeral .anyScript .hexadecimal [' ', '\u0661', '_', 'F'] 31 :=
      @Numeral.IsNumeral.intro .anyScript .hexadecimal [' '] [] [] ['\u0661', '_', 'F'] [] false
        [1, 15] (List.forall_mem_singleton.mpr (by decide)) .none .none
        (.spaced (by decide) (.last (by decide))) (by decide) (List.forall_mem_nil _)
    exact ((accepted_items .w32 _).1 _).mpr
      ⟨_, _, 31, hparts, by decide, .hexadecimal (.inl rfl) hnumeral, by decide⟩
  · have hparts : Parts "x5=0xffffffff1" ['x', '5'] "0xffffffff1".toList :=
      @Parts.intro _ ['x', '5'] "0xffffffff1".toList (by decide) (by decide)
    exact (accepted_items .w32 _).2.1 _ _ _ _ hparts (by decide)
      (.hexadecimal (by decide) (List.all_iff_forall_prop.mp (by decide)))
  · have hfails : parseAll Width.w32.size ["a0=0xzz"]
        = .error (.literal (.numeral (.malformed .hexadecimal "zz"))) := by decide +kernel
    exact ⟨_, hfails, (accepted_items .w32 _).2.2.2 _ hfails⟩

/-- An item whose value is no strict literal is accepted. -/
theorem repeated_suffix_is_accepted :
    parseAll Width.w32.size ["a0=5uu"] = .ok [⟨"a0", 5⟩]
    ∧ ∀ name value digits number, Parts "a0=5uu" name value →
        ¬ Literal.IsStrict value digits number := by
  refine ⟨by decide +kernel, fun name value digits number hparts hstrict => ?_⟩
  have hparts' : Parts "a0=5uu" ['a', '0'] ['5', 'u', 'u'] :=
    @Parts.intro _ ['a', '0'] ['5', 'u', 'u'] (by decide) (by decide)
  obtain ⟨-, rfl⟩ := hparts'.unique hparts
  exact absurd hstrict.count_suffix_le (by decide)

end Assignment

end WordExpr
