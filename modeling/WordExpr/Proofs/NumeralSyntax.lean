/-
  WordExpr.Proofs.NumeralSyntax

  Which texts are read as integers. A numeral is, from left to right, blanks, a sign,
  for a hexadecimal one an announcement, digits in which single underscores may stand, and
  blanks (`Numeral.IsNumeral`); all but the digits may be missing. Blanks and digits are those
  of every script (`Alphabet.anyScript`). A text is read as an integer exactly if it is a numeral
  for this integer (`Numeral.read_eq_ok_iff`).

  Reading takes a text in its ASCII form. So the syntax is stated over an alphabet, the two
  alphabets are related character by character (`Alphabet.Alike`), and what is a numeral in one
  of them is one in the other.
-/
import Mathlib.Data.Bool.AllAny
import Mathlib.Data.List.Forall2
import WordExpr.Proofs.Literals

namespace WordExpr.Numeral

/-! ## The syntax of numerals -/

/-- What the characters of a numeral are: its blanks, and its digits with their values. -/
structure Alphabet where
  isSpace : Char → Bool
  digit? : Base → Char → Option Nat

/-- The ASCII characters alone. -/
def Alphabet.ascii : Alphabet := ⟨Text.isAsciiSpace, Numeral.digit?⟩

/-- The characters of every script. Behind ASCII all white space counts, and every decimal
    digit, but no letter. -/
def Alphabet.anyScript : Alphabet where
  isSpace c := Text.isAsciiSpace c || (128 ≤ c.toNat && Text.isBlank c)
  digit? base c := if c.toNat < 128 then Numeral.digit? base c else Text.digitValue? c

/-- The digits of a numeral, with their values. An underscore stands between two digits. -/
inductive IsBody (A : Alphabet) (base : Base) : List Char → List Nat → Prop
  | last {c : Char} {d : Nat} (h : A.digit? base c = some d) : IsBody A base [c] [d]
  | digit {c : Char} {d : Nat} {cs : List Char} {ds : List Nat} (h : A.digit? base c = some d)
      (hrest : IsBody A base cs ds) : IsBody A base (c :: cs) (d :: ds)
  | spaced {c : Char} {d : Nat} {cs : List Char} {ds : List Nat} (h : A.digit? base c = some d)
      (hrest : IsBody A base cs ds) : IsBody A base (c :: '_' :: cs) (d :: ds)

/-- The sign of a numeral, and whether it is negative. -/
inductive IsSign : List Char → Bool → Prop
  | none : IsSign [] false
  | plus : IsSign ['+'] false
  | minus : IsSign ['-'] true

/-- What announces the base of a numeral. -/
inductive IsAnnouncement (A : Alphabet) : Base → List Char → Prop
  | none {base : Base} : IsAnnouncement A base []
  | zero {z x : Char} {gap : List Char} (hz : A.digit? .hexadecimal z = some 0)
      (hx : x = 'x' ∨ x = 'X') (hgap : gap = [] ∨ gap = ['_']) :
      IsAnnouncement A .hexadecimal (z :: x :: gap)

/-- The number that digits denote, the most significant one first. -/
def Base.number (base : Base) (ds : List Nat) : Nat :=
  ds.foldl (fun v d => v * base.radix + d) 0

/-- The text is a numeral for the integer. A decimal one has no more digits than are read. -/
inductive IsNumeral (A : Alphabet) (base : Base) : List Char → Int → Prop
  | intro {before sign announcement body after : List Char} {negative : Bool} {ds : List Nat}
      (hbefore : ∀ c ∈ before, A.isSpace c = true) (hsign : IsSign sign negative)
      (hannouncement : IsAnnouncement A base announcement) (hbody : IsBody A base body ds)
      (hfew : base = .decimal → ds.length ≤ maxDecimalDigits)
      (hafter : ∀ c ∈ after, A.isSpace c = true) :
      IsNumeral A base (before ++ (sign ++ (announcement ++ (body ++ after))))
        (if negative then -(base.number ds : Int) else base.number ds)

/-! ## Numerals in ASCII -/

variable {A B : Alphabet} {base : Base} {c f : Char} {d m : Nat} {cs fs : List Char}
  {sign announcement body after rest : List Char} {negative : Bool} {ds : List Nat}
  {text : String} {n : Int}

theorem isSome_of_digit (h : Alphabet.ascii.digit? base c = some d) :
    (digit? base c).isSome = true := by
  rw [show digit? base c = some d from h]
  rfl

theorem separated_cons (h : c ≠ '_') (cs : List Char) : separated (c :: cs) = separated cs := by
  rw [separated]
  · exact fun hc _ => h hc
  · exact fun _ hc _ => h hc

theorem separated_gap (h : c ≠ '_') (cs : List Char) :
    separated ('_' :: c :: cs) = separated (c :: cs) := by
  rw [separated]
  · exact fun _ hc => by cases hc
  · exact fun r _ hc => h (List.cons.inj hc).1

namespace IsBody

theorem exists_cons (h : IsBody A base cs ds) :
    ∃ c more d, cs = c :: more ∧ A.digit? base c = some d := by
  cases h with
  | last h => exact ⟨_, _, _, rfl, h⟩
  | digit h _ => exact ⟨_, _, _, rfl, h⟩
  | spaced h _ => exact ⟨_, _, _, rfl, h⟩

theorem mem (h : IsBody A base cs ds) : ∀ c ∈ cs, c = '_' ∨ (A.digit? base c).isSome = true := by
  induction h with
  | last h => exact List.forall_mem_singleton.mpr (.inr (by rw [h]; rfl))
  | digit h _ ih => exact List.forall_mem_cons.mpr ⟨.inr (by rw [h]; rfl), ih⟩
  | spaced h _ ih =>
    exact List.forall_mem_cons.mpr ⟨.inr (by rw [h]; rfl), List.forall_mem_cons.mpr ⟨.inl rfl, ih⟩⟩

theorem isBody (h : IsBody .ascii base cs ds) : ∀ c ∈ cs, Numeral.isBody base c = true := by
  intro c hc
  rw [Numeral.isBody, Bool.or_eq_true, decide_eq_true_eq]
  exact h.mem c hc

theorem filterMap (h : IsBody .ascii base cs ds) : cs.filterMap (Numeral.digit? base) = ds := by
  have hgap : Numeral.digit? base '_' = none := by cases base <;> decide
  induction h with
  | @last c d h =>
    have hc : Numeral.digit? base c = some d := h
    rw [List.filterMap_cons_some hc, List.filterMap_nil]
  | @digit c d cs ds h _ ih =>
    have hc : Numeral.digit? base c = some d := h
    rw [List.filterMap_cons_some hc, ih]
  | @spaced c d cs ds h _ ih =>
    have hc : Numeral.digit? base c = some d := h
    rw [List.filterMap_cons_some hc, List.filterMap_cons_none hgap, ih]

theorem bodyValue (h : IsBody .ascii base cs ds) : Numeral.bodyValue base cs = base.number ds := by
  rw [Numeral.bodyValue, h.filterMap, Base.number]

theorem head?_ne (h : IsBody .ascii base cs ds) : cs.head? ≠ some '_' := by
  obtain ⟨c, more, d, rfl, hc⟩ := h.exists_cons
  exact fun hgap => (ne_of_digit? (isSome_of_digit hc)).1 (Option.some.inj hgap)

theorem separated (h : IsBody .ascii base cs ds) : Numeral.separated cs = true := by
  induction h with
  | last h => rw [separated_cons (ne_of_digit? (isSome_of_digit h)).1, Numeral.separated]
  | digit h _ ih => rw [separated_cons (ne_of_digit? (isSome_of_digit h)).1, ih]
  | spaced h hrest ih =>
    obtain ⟨c, more, d, rfl, hc⟩ := hrest.exists_cons
    rw [separated_cons (ne_of_digit? (isSome_of_digit h)).1,
      separated_gap (ne_of_digit? (isSome_of_digit hc)).1, ih]

end IsBody

/-- What has underscores between digits only is a body, unless it starts with an underscore. -/
theorem exists_isBody (hbody : ∀ c ∈ cs, isBody base c = true) (hsep : separated cs = true) :
    cs = [] ∨ (∃ rest ds, cs = '_' :: rest ∧ IsBody .ascii base rest ds)
      ∨ ∃ ds, IsBody .ascii base cs ds := by
  induction cs with
  | nil => exact .inl rfl
  | cons c cs ih =>
    obtain ⟨hc, hcs⟩ := List.forall_mem_cons.mp hbody
    by_cases hgap : c = '_'
    · subst hgap
      refine .inr (.inl ?_)
      cases cs with
      | nil => cases hsep
      | cons c more =>
        have hnext : c ≠ '_' := by
          rintro rfl
          cases hsep
        rw [separated_gap hnext] at hsep
        rcases ih hcs hsep with hnil | ⟨rest, ds, hrest, -⟩ | ⟨ds, h⟩
        · cases hnil
        · exact absurd (List.cons.inj hrest).1 hnext
        · exact ⟨_, ds, rfl, h⟩
    · have hdigit : (digit? base c).isSome = true := by
        rw [isBody, decide_eq_false hgap, Bool.false_or] at hc
        exact hc
      obtain ⟨d, hd⟩ := Option.isSome_iff_exists.mp hdigit
      rw [separated_cons hgap] at hsep
      refine .inr (.inr ?_)
      rcases ih hcs hsep with rfl | ⟨rest, ds, rfl, h⟩ | ⟨ds, h⟩
      · exact ⟨[d], .last hd⟩
      · exact ⟨d :: ds, .spaced hd h⟩
      · exact ⟨d :: ds, .digit hd h⟩

theorem isBody_of_isAsciiSpace (h : Text.isAsciiSpace c = true) : isBody base c = false := by
  rw [isBody, Bool.or_eq_false_iff, decide_eq_false_iff_not]
  constructor
  · rintro rfl
    cases h
  · rw [Bool.eq_false_iff]
    intro hdigit
    have hspace := (ne_of_digit? hdigit).2.2.2.2.2
    rw [h] at hspace
    cases hspace

theorem takeWhile_isBody (hbody : IsBody .ascii base body ds)
    (hafter : ∀ c ∈ after, Text.isAsciiSpace c = true) :
    (body ++ after).takeWhile (isBody base) = body
      ∧ (body ++ after).dropWhile (isBody base) = after := by
  have hstop : ∀ c ∈ after, ¬ isBody base c = true := by
    intro c hc
    rw [isBody_of_isAsciiSpace (hafter c hc)]
    decide
  cases after with
  | nil =>
    have hnil : ([] : List Char).dropWhile (isBody base) = [] := rfl
    rw [List.takeWhile_append_of_pos hbody.isBody, List.dropWhile_append_of_pos hbody.isBody,
      List.takeWhile_nil, hnil]
    exact ⟨List.append_nil body, rfl⟩
  | cons c more =>
    have hc := hstop c List.mem_cons_self
    rw [List.takeWhile_append_of_pos hbody.isBody, List.dropWhile_append_of_pos hbody.isBody,
      List.takeWhile_cons_of_neg hc, List.dropWhile_cons_of_neg hc]
    exact ⟨List.append_nil body, rfl⟩

theorem readUnsigned_eq_ok_iff :
    readUnsigned base text cs = .ok m
      ↔ ∃ body after ds, cs = body ++ after ∧ IsBody .ascii base body ds
        ∧ (base = .decimal → ds.length ≤ maxDecimalDigits)
        ∧ (∀ c ∈ after, Text.isAsciiSpace c = true) ∧ m = base.number ds := by
  constructor
  · intro h
    unfold readUnsigned at h
    simp only at h
    split at h
    · cases h
    rename_i hshape
    split at h
    · cases h
    rename_i hfew
    split at h
    · cases h
    rename_i hend
    simp only [Bool.or_eq_true, Bool.not_eq_true', decide_eq_true_eq, not_or, Bool.and_eq_true,
      not_and, Nat.not_lt, Bool.not_eq_false, List.isEmpty_iff, List.all_eq_true]
      at hshape hfew hend
    have hbody : ∀ c ∈ cs.takeWhile (isBody base), isBody base c = true :=
      fun c hc => List.mem_takeWhile_imp hc
    rcases exists_isBody hbody hshape.2 with hnil | ⟨rest, ds, hrest, -⟩ | ⟨ds, hds⟩
    · exact absurd hnil hend.1
    · rw [hrest] at hshape
      exact absurd rfl hshape.1
    · refine ⟨_, _, ds, List.takeWhile_append_dropWhile.symm, hds, ?_, hend.2, ?_⟩
      · rw [hds.filterMap] at hfew
        exact hfew
      · rw [← hds.bodyValue]
        exact (Except.ok.inj h).symm
  · rintro ⟨body, after, ds, rfl, hbody, hfew, hafter, rfl⟩
    obtain ⟨htake, hdrop⟩ := takeWhile_isBody hbody hafter
    obtain ⟨c, more, d, hcons, -⟩ := hbody.exists_cons
    have hshape : ¬ (decide (body.head? = some '_') || !separated body) = true := by
      simp [hbody.head?_ne, hbody.separated]
    have hlong : ¬ (decide (base = .decimal) && decide (maxDecimalDigits < ds.length)) = true := by
      simpa using hfew
    have hend : ¬ (body.isEmpty || !after.all Text.isAsciiSpace) = true := by
      simp only [hcons, List.isEmpty_cons, Bool.false_or, Bool.not_eq_true', Bool.not_eq_false,
        List.all_eq_true]
      exact hafter
    rw [readUnsigned]
    simp only [htake, hdrop, hbody.filterMap]
    rw [if_neg hshape, if_neg hlong, if_neg hend, hbody.bodyValue]

/-! ### Announcements and signs -/

/-- Only one ASCII character is a zero. -/
theorem eq_zero_of_digit? (h : digit? .hexadecimal c = some 0) : c = '0' := by
  have hvalue := (Option.filter_eq_some_iff.mp h).1
  unfold Text.asciiDigitValue? at hvalue
  split at hvalue
  · rename_i hdigit
    have hlo : 48 ≤ c.toNat := (Char.isDigit_iff_toNat.mp hdigit).1
    have hcode : c.toNat - 48 = 0 := Option.some.inj hvalue
    exact Char.toNat_inj.mp (show c.toNat = 48 by omega)
  split at hvalue
  · rename_i hlower
    rw [isLower_iff] at hlower
    have hcode : c.toNat - 87 = 0 := Option.some.inj hvalue
    omega
  split at hvalue
  · rename_i hupper
    rw [isUpper_iff] at hupper
    have hcode : c.toNat - 55 = 0 := Option.some.inj hvalue
    omega
  · cases hvalue

theorem exists_announcement (base : Base) (cs : List Char) :
    ∃ announcement, IsAnnouncement .ascii base announcement
      ∧ announcement ++ dropAnnouncement base cs = cs := by
  have hzero : Alphabet.ascii.digit? .hexadecimal '0' = some 0 := by decide
  unfold dropAnnouncement
  split
  · split
    · rename_i x r hx
      rw [Bool.or_eq_true, decide_eq_true_eq, decide_eq_true_eq] at hx
      split
      · exact ⟨['0', x, '_'], .zero hzero hx (.inr rfl), rfl⟩
      · exact ⟨['0', x], .zero hzero hx (.inl rfl), rfl⟩
    · exact ⟨[], .none, rfl⟩
  · exact ⟨[], .none, rfl⟩

/-- In front of a body, no more than the announcement is dropped. -/
theorem dropAnnouncement_append (hannouncement : IsAnnouncement .ascii base announcement)
    (hbody : IsBody .ascii base body ds) (hafter : ∀ c ∈ after, Text.isAsciiSpace c = true) :
    dropAnnouncement base (announcement ++ (body ++ after)) = body ++ after := by
  cases hannouncement with
  | none =>
    rw [List.nil_append]
    unfold dropAnnouncement
    split
    · rename_i x r heq
      -- Behind a first digit there is no letter that is none.
      have hx : x ∈ body ++ after := by
        rw [heq]
        exact List.mem_cons_of_mem _ List.mem_cons_self
      have hne : x ≠ 'x' ∧ x ≠ 'X' := by
        rcases List.mem_append.mp hx with hx | hx
        · rcases hbody.mem x hx with rfl | hdigit
          · decide
          · have hmarks := ne_of_digit? (c := x) hdigit
            exact ⟨hmarks.2.2.2.1, hmarks.2.2.2.2.1⟩
        · have hspace := hafter x hx
          constructor <;> rintro rfl <;> cases hspace
      rw [if_neg (by simp [hne])]
    · rfl
  | @zero z x gap hz hx hgap =>
    obtain rfl := eq_zero_of_digit? hz
    have hmark : (decide (x = 'x') || decide (x = 'X')) = true := by simpa using hx
    unfold dropAnnouncement
    rcases hgap with rfl | rfl
    · obtain ⟨c, more, d, rfl, hc⟩ := hbody.exists_cons
      have hgap := (ne_of_digit? (isSome_of_digit hc)).1
      simp only [List.cons_append, List.nil_append, hmark, if_true]
      split
      · rename_i heq
        exact absurd (List.cons.inj heq).1 hgap
      · rfl
    · simp only [List.cons_append, List.nil_append, hmark, if_true]

theorem exists_sign (cs : List Char) :
    ∃ sign, IsSign sign (splitSign cs).1 ∧ sign ++ (splitSign cs).2 = cs := by
  unfold splitSign
  split
  · exact ⟨['+'], .plus, rfl⟩
  · exact ⟨['-'], .minus, rfl⟩
  · exact ⟨[], .none, rfl⟩

theorem splitSign_append (hsign : IsSign sign negative)
    (h : ∀ c ∈ rest.head?, c ≠ '+' ∧ c ≠ '-') : splitSign (sign ++ rest) = (negative, rest) := by
  cases hsign with
  | none =>
    rw [List.nil_append]
    unfold splitSign
    split
    · exact absurd rfl (h '+' rfl).1
    · exact absurd rfl (h '-' rfl).2
    · rfl
  | plus => rfl
  | minus => rfl

/-- Behind its sign a numeral starts with a digit, be it that of an announcement. -/
theorem exists_digit (hannouncement : IsAnnouncement .ascii base announcement)
    (hbody : IsBody .ascii base body ds) (after : List Char) :
    ∃ c more, announcement ++ (body ++ after) = c :: more ∧ (digit? base c).isSome = true := by
  cases hannouncement with
  | none =>
    obtain ⟨c, more, d, rfl, hc⟩ := hbody.exists_cons
    exact ⟨c, more ++ after, rfl, isSome_of_digit hc⟩
  | zero hz _ _ => exact ⟨_, _, rfl, isSome_of_digit hz⟩

theorem read_eq_ok_iff_ascii :
    read base text = .ok n ↔ IsNumeral .ascii base (asciiForm text.toList) n := by
  constructor
  · intro h
    unfold read at h
    simp only at h
    generalize asciiForm text.toList = fs at h ⊢
    split at h
    · cases h
    rename_i m hm
    obtain ⟨sign, hsign, hsplit⟩ := exists_sign (fs.dropWhile Text.isAsciiSpace)
    generalize splitSign (fs.dropWhile Text.isAsciiSpace) = split at h hm hsign hsplit
    obtain ⟨announcement, hannouncement, hdrop⟩ := exists_announcement base split.2
    obtain ⟨body, after, ds, hcs, hbody, hfew, hafter, rfl⟩ := readUnsigned_eq_ok_iff.mp hm
    have hform : fs.takeWhile Text.isAsciiSpace
        ++ (sign ++ (announcement ++ (body ++ after))) = fs := by
      rw [← hcs, hdrop, hsplit, List.takeWhile_append_dropWhile]
    have hbefore : ∀ c ∈ fs.takeWhile Text.isAsciiSpace, Text.isAsciiSpace c = true :=
      fun c hc => List.mem_takeWhile_imp hc
    obtain rfl := Except.ok.inj h
    rw [← hform]
    exact .intro hbefore hsign hannouncement hbody hfew hafter
  · intro h
    generalize hform : asciiForm text.toList = fs at h
    obtain ⟨hbefore, hsign, hannouncement, hbody, hfew, hafter⟩ := h
    rename_i before sign announcement body after negative ds
    obtain ⟨c, more, hrest, hdigit⟩ := exists_digit hannouncement hbody after
    obtain ⟨-, hplus, hminus, -, -, hspace⟩ := ne_of_digit? hdigit
    have hbefore' : ∀ c ∈ before, Text.isAsciiSpace c = true := hbefore
    have hsplit : splitSign (sign ++ (announcement ++ (body ++ after)))
        = (negative, announcement ++ (body ++ after)) := by
      refine splitSign_append hsign ?_
      rw [hrest]
      rintro c' hc'
      obtain rfl := Option.some.inj hc'
      exact ⟨hplus, hminus⟩
    have hstart : (before ++ (sign ++ (announcement ++ (body ++ after)))).dropWhile
        Text.isAsciiSpace = sign ++ (announcement ++ (body ++ after)) := by
      rw [List.dropWhile_append_of_pos hbefore']
      cases hsign with
      | none =>
        rw [List.nil_append, hrest, List.dropWhile_cons_of_neg (by rw [hspace]; decide)]
      | plus => rfl
      | minus => rfl
    have hread : readUnsigned base text (body ++ after) = .ok (base.number ds) :=
      readUnsigned_eq_ok_iff.mpr ⟨body, after, ds, rfl, hbody, hfew, hafter, rfl⟩
    rw [read, hform, hstart, hsplit]
    simp only [dropAnnouncement_append hannouncement hbody hafter, hread]

/-! ## Numerals in every script -/

/-- The characters play the same part in the two alphabets. -/
structure Alphabet.Alike (A B : Alphabet) (c f : Char) : Prop where
  space : A.isSpace c = B.isSpace f
  digit : ∀ base, A.digit? base c = B.digit? base f
  mark : ∀ m ∈ ['_', '+', '-', 'x', 'X'], c = m ↔ f = m

theorem Alphabet.Alike.symm (h : A.Alike B c f) : B.Alike A f c :=
  ⟨h.space.symm, fun base => (h.digit base).symm, fun m hm => (h.mark m hm).symm⟩

theorem exists_of_forall₂_append {R : Char → Char → Prop} {xs ys : List Char}
    (h : List.Forall₂ R (xs ++ ys) fs) :
    ∃ us vs, fs = us ++ vs ∧ List.Forall₂ R xs us ∧ List.Forall₂ R ys vs := by
  induction xs generalizing fs with
  | nil => exact ⟨[], fs, rfl, .nil, h⟩
  | cons x xs ih =>
    obtain ⟨f, fs, hf, hfs, rfl⟩ := List.forall₂_cons_left_iff.mp h
    obtain ⟨us, vs, rfl, hus, hvs⟩ := ih hfs
    exact ⟨f :: us, vs, rfl, .cons hf hus, hvs⟩

theorem isSpace_alike (h : List.Forall₂ (A.Alike B) cs fs) (hcs : ∀ c ∈ cs, A.isSpace c = true) :
    ∀ f ∈ fs, B.isSpace f = true := by
  induction h with
  | nil => exact List.forall_mem_nil _
  | cons hc _ ih =>
    obtain ⟨hspace, hrest⟩ := List.forall_mem_cons.mp hcs
    exact List.forall_mem_cons.mpr ⟨hc.space ▸ hspace, ih hrest⟩

theorem IsBody.alike (h : IsBody A base cs ds) (hcs : List.Forall₂ (A.Alike B) cs fs) :
    IsBody B base fs ds := by
  induction h generalizing fs with
  | last hd =>
    obtain ⟨f, _, hf, hnil, rfl⟩ := List.forall₂_cons_left_iff.mp hcs
    cases hnil
    exact .last (hf.digit base ▸ hd)
  | digit hd _ ih =>
    obtain ⟨f, fs, hf, hfs, rfl⟩ := List.forall₂_cons_left_iff.mp hcs
    exact .digit (hf.digit base ▸ hd) (ih hfs)
  | spaced hd _ ih =>
    obtain ⟨f, _, hf, hrest, rfl⟩ := List.forall₂_cons_left_iff.mp hcs
    obtain ⟨gap, fs, hgap, hfs, rfl⟩ := List.forall₂_cons_left_iff.mp hrest
    obtain rfl := (hgap.mark '_' (by decide)).mp rfl
    exact .spaced (hf.digit base ▸ hd) (ih hfs)

theorem IsSign.alike (h : IsSign cs negative) (hcs : List.Forall₂ (A.Alike B) cs fs) :
    IsSign fs negative := by
  cases h with
  | none =>
    cases hcs
    exact .none
  | plus =>
    obtain ⟨f, _, hf, hnil, rfl⟩ := List.forall₂_cons_left_iff.mp hcs
    cases hnil
    obtain rfl := (hf.mark '+' (by decide)).mp rfl
    exact .plus
  | minus =>
    obtain ⟨f, _, hf, hnil, rfl⟩ := List.forall₂_cons_left_iff.mp hcs
    cases hnil
    obtain rfl := (hf.mark '-' (by decide)).mp rfl
    exact .minus

theorem IsAnnouncement.alike (h : IsAnnouncement A base cs)
    (hcs : List.Forall₂ (A.Alike B) cs fs) : IsAnnouncement B base fs := by
  cases h with
  | none =>
    cases hcs
    exact .none
  | zero hz hx hgap =>
    obtain ⟨z, _, hz', hrest, rfl⟩ := List.forall₂_cons_left_iff.mp hcs
    obtain ⟨x, gap, hx', hgap', rfl⟩ := List.forall₂_cons_left_iff.mp hrest
    refine .zero (hz'.digit _ ▸ hz) ?_ ?_
    · exact hx.imp (hx'.mark 'x' (by decide)).mp (hx'.mark 'X' (by decide)).mp
    · rcases hgap with rfl | rfl
      · cases hgap'
        exact .inl rfl
      · obtain ⟨g, _, hg, hnil, rfl⟩ := List.forall₂_cons_left_iff.mp hgap'
        cases hnil
        obtain rfl := (hg.mark '_' (by decide)).mp rfl
        exact .inr rfl

theorem IsNumeral.alike (h : IsNumeral A base cs n) (hcs : List.Forall₂ (A.Alike B) cs fs) :
    IsNumeral B base fs n := by
  obtain ⟨hbefore, hsign, hannouncement, hbody, hfew, hafter⟩ := h
  obtain ⟨_, _, rfl, hcs₁, hcs⟩ := exists_of_forall₂_append hcs
  obtain ⟨_, _, rfl, hcs₂, hcs⟩ := exists_of_forall₂_append hcs
  obtain ⟨_, _, rfl, hcs₃, hcs⟩ := exists_of_forall₂_append hcs
  obtain ⟨_, _, rfl, hcs₄, hcs₅⟩ := exists_of_forall₂_append hcs
  exact .intro (isSpace_alike hcs₁ hbefore) (hsign.alike hcs₂) (hannouncement.alike hcs₃)
    (hbody.alike hcs₄) hfew (isSpace_alike hcs₅ hafter)

/-- In ASCII the two alphabets are the same. -/
theorem alike_self (h : c.toNat < 128) : Alphabet.anyScript.Alike .ascii c c where
  space := by
    show (Text.isAsciiSpace c || (decide (128 ≤ c.toNat) && Text.isBlank c)) = Text.isAsciiSpace c
    rw [decide_eq_false (Nat.not_le.mpr h), Bool.false_and, Bool.or_false]
  digit base := if_pos h
  mark m _ := Iff.rfl

/-- Behind ASCII, blanks and digits are what numerals have a part for, and nothing else. -/
theorem alike_of_not_ascii {v : Option Nat} (hcode : 127 ≤ c.toNat)
    (hspace : (decide (128 ≤ c.toNat) && Text.isBlank c) = Text.isAsciiSpace f)
    (hvalue : (if c.toNat < 128 then none else Text.digitValue? c) = v)
    (hdigit : ∀ base, digit? base f = v) (hmark : f ∉ ['_', '+', '-', 'x', 'X']) :
    Alphabet.anyScript.Alike .ascii c f where
  space := by
    have hnone : Text.isAsciiSpace c = false := by
      simp only [Text.isAsciiSpace, Bool.or_eq_false_iff, Bool.and_eq_false_iff,
        decide_eq_false_iff_not, beq_eq_false_iff_ne]
      omega
    show (Text.isAsciiSpace c || (decide (128 ≤ c.toNat) && Text.isBlank c)) = Text.isAsciiSpace f
    rw [hnone, Bool.false_or, hspace]
  digit base := by
    have hnone : digit? base c = none := by
      refine Option.not_isSome_iff_eq_none.mp fun hsome => ?_
      have hletter := (toNat_of_digit? hsome).2
      omega
    show (if c.toNat < 128 then digit? base c else Text.digitValue? c) = digit? base f
    rw [hnone, hvalue, hdigit]
  mark m hm := by
    have hcodes : ∀ m ∈ ['_', '+', '-', 'x', 'X'], m.toNat < 127 :=
      List.all_iff_forall_prop.mp (by decide)
    refine iff_of_false ?_ ?_
    · rintro rfl
      exact Nat.not_lt.mpr hcode (hcodes c hm)
    · rintro rfl
      exact hmark hm

theorem alike_asciiPart (c : Char) : Alphabet.anyScript.Alike .ascii c (asciiPart c) := by
  rw [asciiPart]
  split
  · rename_i hascii
    exact alike_self (by omega)
  rename_i hcode
  rw [Nat.not_lt] at hcode
  -- The last ASCII character is a control character.
  have hdelete (h : c.toNat < 128) : Text.isBlank c = false ∧ Text.digitValue? c = none := by
    obtain rfl : c = '\x7f' := Char.toNat_inj.mp (show c.toNat = 127 by omega)
    decide
  have hascii : Text.isBlank c = true ∨ (Text.digitValue? c).isSome = true → 128 ≤ c.toNat := by
    intro h
    refine Nat.le_of_not_lt fun hlt => ?_
    obtain ⟨hblank, hnone⟩ := hdelete hlt
    rw [hblank, hnone] at h
    rcases h with h | h <;> cases h
  split
  · rename_i hblank
    have hcode' := hascii (.inl hblank)
    have hnone : Text.digitValue? c = none := by
      cases hd : Text.digitValue? c with
      | none => rfl
      | some d =>
        have hother := (lt_and_not_isBlank_of_digitValue? hd hcode').2
        rw [hblank] at hother
        cases hother
    refine alike_of_not_ascii hcode ?_ ((if_neg (Nat.not_lt.mpr hcode')).trans hnone) ?_ (by decide)
    · rw [decide_eq_true hcode', hblank]
      rfl
    · intro base
      cases base <;> decide
  rename_i hblank
  rw [Bool.not_eq_true] at hblank
  split
  · rename_i d hd
    have hcode' := hascii (.inr (by rw [hd]; rfl))
    have hten := (lt_and_not_isBlank_of_digitValue? hd hcode').1
    have hmarks : ∀ d < 10, Nat.digitChar d ∉ ['_', '+', '-', 'x', 'X']
        ∧ Text.isAsciiSpace (Nat.digitChar d) = false := by decide
    obtain ⟨hmark, hspace⟩ := hmarks d hten
    refine alike_of_not_ascii hcode ?_ ((if_neg (Nat.not_lt.mpr hcode')).trans hd)
      (fun base => digit?_digitChar (Nat.lt_of_lt_of_le hten base.ten_le_radix)) hmark
    rw [hblank, Bool.and_false, hspace]
  · rename_i hnone
    refine alike_of_not_ascii (v := none) hcode ?_ ?_ ?_ (by decide)
    · rw [hblank, Bool.and_false]
      rfl
    · rw [hnone, ite_self]
    · intro base
      cases base <;> decide

theorem alike_asciiForm (cs : List Char) :
    List.Forall₂ (Alphabet.anyScript.Alike .ascii) cs (asciiForm cs) := by
  unfold asciiForm
  split
  · rename_i hall
    rw [List.forall₂_same]
    exact fun c hc => alike_self (of_decide_eq_true (List.all_eq_true.mp hall c hc))
  · rw [List.forall₂_map_right_iff, List.forall₂_same]
    exact fun c _ => alike_asciiPart c

/-- A text is read as an integer exactly if it is a numeral for it. -/
theorem read_eq_ok_iff :
    read base text = .ok n ↔ IsNumeral .anyScript base text.toList n := by
  have halike := alike_asciiForm text.toList
  have hback : List.Forall₂ (Alphabet.ascii.Alike .anyScript) (asciiForm text.toList) text.toList :=
    .flip (halike.imp fun _ _ h => h.symm)
  rw [read_eq_ok_iff_ascii]
  exact ⟨fun h => h.alike hback, fun h => h.alike halike⟩

theorem IsNumeral.ne_nil (h : IsNumeral A base cs n) : cs ≠ [] := by
  cases h with
  | intro _ _ _ hbody _ _ =>
    obtain ⟨c, more, d, rfl, -⟩ := hbody.exists_cons
    simp

theorem IsSign.mem (h : IsSign sign negative) : ∀ c ∈ sign, c ∈ ['+', '-', '_'] := by
  cases h with
  | none => exact List.forall_mem_nil _
  | plus => exact List.forall_mem_singleton.mpr (by decide)
  | minus => exact List.forall_mem_singleton.mpr (by decide)

/-- A decimal numeral is not announced, so blanks, signs and digits are all that it has. -/
theorem IsNumeral.mem (h : IsNumeral A .decimal cs n) :
    ∀ c ∈ cs, A.isSpace c = true ∨ c ∈ ['+', '-', '_'] ∨ (A.digit? .decimal c).isSome = true := by
  obtain ⟨hbefore, hsign, ⟨⟩, hbody, -, hafter⟩ := h
  simp only [List.nil_append, List.forall_mem_append]
  refine ⟨fun c hc => .inl (hbefore c hc), fun c hc => .inr (.inl (hsign.mem c hc)),
    fun c hc => .inr ?_, fun c hc => .inl (hafter c hc)⟩
  rcases hbody.mem c hc with rfl | hdigit
  · exact .inl (by decide)
  · exact .inr hdigit

theorem IsNumeral.not_mem_letter (h : IsNumeral .anyScript .decimal cs n) :
    ∀ letter ∈ ['x', 'X', 'u', 'U'], letter ∉ cs := by
  have hnone : ∀ letter ∈ ['x', 'X', 'u', 'U'], ¬ (Alphabet.anyScript.isSpace letter = true
      ∨ letter ∈ ['+', '-', '_'] ∨ (Alphabet.anyScript.digit? .decimal letter).isSome = true) :=
    List.all_iff_forall_prop.mp (by decide)
  exact fun letter hletter hmem => hnone letter hletter (h.mem letter hmem)

end WordExpr.Numeral
