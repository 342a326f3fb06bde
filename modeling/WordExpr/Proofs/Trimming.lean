/-
  WordExpr.Proofs.Trimming

  Dropping characters from the end of a text, and trimming writings of tokens: what is
  trimmed off a writing are blanks between tokens, so a trimmed writing is one of the same
  tokens (`Writes.stripStart`, `Writes.stripEnd`).
-/
import Mathlib.Data.List.TakeWhile
import WordExpr.Proofs.Lexable
import WordExpr.Text.Blank

namespace WordExpr

namespace Text

variable {p : Char → Bool} {xs ys : List Char}

theorem dropEndWhile_append (xs ys : List Char) :
    dropEndWhile p (xs ++ ys)
      = if (dropEndWhile p ys).isEmpty then dropEndWhile p xs else xs ++ dropEndWhile p ys := by
  rw [dropEndWhile, List.reverse_append, List.dropWhile_append, dropEndWhile, dropEndWhile,
    List.isEmpty_reverse]
  split
  · rfl
  · rw [List.reverse_append, List.reverse_reverse]

theorem dropEndWhile_eq_nil (h : ∀ c ∈ xs, p c = true) : dropEndWhile p xs = [] := by
  have hdrop : (xs.reverse ++ []).dropWhile p = [].dropWhile p :=
    List.dropWhile_append_of_pos fun c hc => h c (List.mem_reverse.mp hc)
  rw [List.append_nil] at hdrop
  rw [dropEndWhile, hdrop]
  rfl

theorem dropEndWhile_eq_self (h : ∀ c ∈ xs, p c = false) : dropEndWhile p xs = xs := by
  have hrev : ∀ c ∈ xs.reverse, p c = false := fun c hc => h c (List.mem_reverse.mp hc)
  rw [dropEndWhile, List.reverse_eq_iff]
  cases hcs : xs.reverse with
  | nil => rfl
  | cons c cs =>
    rw [hcs] at hrev
    rw [List.dropWhile_cons_of_neg (by rw [hrev c List.mem_cons_self]; decide)]

/-- The run of characters dropped reaches back to the last one that is kept. -/
theorem dropEndWhile_append_of_all (hxs : ∀ c ∈ xs, p c = false) (hys : ∀ c ∈ ys, p c = true) :
    dropEndWhile p (xs ++ ys) = xs := by
  rw [dropEndWhile_append, dropEndWhile_eq_nil hys, dropEndWhile_eq_self hxs]
  rfl

/-! ## Blanks around a text -/

variable {before after cs : List Char}

theorem stripStart_append_of_blank (h : ∀ c ∈ before, isBlank c = true) (cs : List Char) :
    stripStart (before ++ cs) = stripStart cs :=
  List.dropWhile_append_of_pos h

/-- Blanks around a text are trimmed off it, however many there are. -/
theorem strip_surround (hbefore : ∀ c ∈ before, isBlank c = true)
    (hafter : ∀ c ∈ after, isBlank c = true) (cs : List Char) :
    strip (before ++ (cs ++ after)) = strip cs := by
  have hnone : dropEndWhile isBlank after = [] := dropEndWhile_eq_nil hafter
  have hall : stripStart after = [] := List.dropWhile_eq_nil_iff.mpr hafter
  rw [strip, stripStart_append_of_blank hbefore, strip, stripStart, List.dropWhile_append]
  split
  · rename_i hempty
    rw [stripStart, List.isEmpty_iff.mp hempty, ← stripStart, hall]
  · rw [stripEnd, dropEndWhile_append, hnone]
    rfl

/-- What is dropped from the end of a text are characters that are to be dropped. -/
theorem exists_dropEndWhile (p : Char → Bool) (cs : List Char) :
    ∃ after, (∀ c ∈ after, p c = true) ∧ dropEndWhile p cs ++ after = cs := by
  refine ⟨(cs.reverse.takeWhile p).reverse, ?_, ?_⟩
  · intro c hc
    exact List.mem_takeWhile_imp (List.mem_reverse.mp hc)
  · rw [dropEndWhile, ← List.reverse_append, List.takeWhile_append_dropWhile,
      List.reverse_reverse]

theorem exists_stripEnd (cs : List Char) :
    ∃ after, (∀ c ∈ after, isBlank c = true) ∧ stripEnd cs ++ after = cs :=
  exists_dropEndWhile isBlank cs

/-- All that trimming takes off a text are blanks around it. -/
theorem exists_strip (cs : List Char) :
    ∃ before after, (∀ c ∈ before, isBlank c = true) ∧ (∀ c ∈ after, isBlank c = true)
      ∧ before ++ (strip cs ++ after) = cs := by
  obtain ⟨after, hafter, hend⟩ := exists_stripEnd (stripStart cs)
  refine ⟨cs.takeWhile isBlank, after, fun c hc => List.mem_takeWhile_imp hc, hafter, ?_⟩
  rw [strip, hend, stripStart, List.takeWhile_append_dropWhile]

theorem strip_strip (cs : List Char) : strip (strip cs) = strip cs := by
  obtain ⟨before, after, hbefore, hafter, hcs⟩ := exists_strip cs
  have hsurround := strip_surround hbefore hafter (strip cs)
  rw [hcs] at hsurround
  exact hsurround.symm

theorem strip_eq_self (h : ∀ c ∈ cs, isBlank c = false) : strip cs = cs := by
  have hstart : stripStart cs = cs := by
    cases cs with
    | nil => rfl
    | cons c cs =>
      have hc : ¬ isBlank c = true := by
        rw [h c List.mem_cons_self]
        decide
      exact List.dropWhile_cons_of_neg hc
  rw [strip, hstart]
  exact dropEndWhile_eq_self h

theorem strip_stripEnd (cs : List Char) : strip (stripEnd cs) = strip cs := by
  obtain ⟨after, hafter, hcs⟩ := exists_stripEnd cs
  have hnone : ∀ c ∈ ([] : List Char), isBlank c = true := List.forall_mem_nil _
  have hsurround := strip_surround hnone hafter (stripEnd cs)
  rw [List.nil_append, hcs] at hsurround
  exact hsurround.symm

theorem strip_eq_nil_iff : strip cs = [] ↔ ∀ c ∈ cs, isBlank c = true := by
  constructor
  · intro hnil c hc
    obtain ⟨before, after, hbefore, hafter, hcs⟩ := exists_strip cs
    rw [← hcs, hnil, List.nil_append] at hc
    exact (List.mem_append.mp hc).elim (hbefore c) (hafter c)
  · intro hblank
    have hnone : ∀ c ∈ ([] : List Char), isBlank c = true := List.forall_mem_nil _
    have hsurround := strip_surround hblank hnone []
    rwa [List.nil_append, List.append_nil] at hsurround

theorem strip_ne_nil_iff : strip cs ≠ [] ↔ ∃ c ∈ cs, isBlank c = false := by
  rw [ne_eq, strip_eq_nil_iff]
  simp

theorem isBlank_of_isSeparator {c : Char} (h : Lexer.isSeparator c = true) :
    isBlank c = true := by
  rcases Lexer.isSeparator_iff.mp h with rfl | rfl
  · decide
  · decide

theorem isBlank_of_isGraphic {c : Char} (h : Lexer.isGraphic c = true) : isBlank c = false := by
  obtain ⟨hlo, hhi⟩ := Lexer.toNat_of_isGraphic h
  simp only [isBlank, Bool.or_eq_false_iff, Bool.and_eq_false_iff, decide_eq_false_iff_not,
    beq_eq_false_iff_ne]
  omega

end Text

/-- What texts of tokens are made of is ASCII, and no line ends. -/
theorem Lexer.ascii_of_isSeparator_or_isGraphic {c : Char}
    (h : isSeparator c = true ∨ isGraphic c = true) : c.toNat < 128 ∧ c ≠ '\n' ∧ c ≠ '\r' := by
  rcases h with hblank | hgraphic
  · rcases isSeparator_iff.mp hblank with rfl | rfl
    · decide
    · decide
  · obtain ⟨hlo, hhi⟩ := toNat_of_isGraphic hgraphic
    refine ⟨by omega, ?_, ?_⟩
    all_goals
      rintro rfl
      exact absurd hlo (by decide)

namespace Writes

open Text

variable {cs : List Char} {ts : List Token}

theorem isSeparator_or_isGraphic (h : Writes cs ts) :
    ∀ c ∈ cs, Lexer.isSeparator c = true ∨ Lexer.isGraphic c = true := by
  induction h with
  | nil => exact fun c hc => absurd hc List.not_mem_nil
  | blank hc _ ih => exact List.forall_mem_cons.mpr ⟨.inl hc, ih⟩
  | token ht _ ih => exact List.forall_mem_append.mpr ⟨fun c hc => .inr (ht.isGraphic c hc), ih⟩

theorem stripStart (h : Writes cs ts) : Writes (stripStart cs) ts := by
  induction h with
  | nil => exact .nil
  | @blank c cs ts hc _ ih =>
    rw [Text.stripStart, List.dropWhile_cons_of_pos (isBlank_of_isSeparator hc)]
    exact ih
  | @token t cs ts ht hw _ =>
    -- A text that starts with a token is left alone.
    have hw' := Writes.token ht hw
    obtain ⟨c, more, htext⟩ := List.exists_cons_of_ne_nil ht.toList_ne_nil
    have hc : isBlank c = false := by
      refine isBlank_of_isGraphic (ht.isGraphic c ?_)
      rw [htext]
      exact List.mem_cons_self
    rw [htext, List.cons_append] at hw' ⊢
    rw [Text.stripStart, List.dropWhile_cons_of_neg (by rw [hc]; decide)]
    exact hw'

theorem stripEnd (h : Writes cs ts) : Writes (stripEnd cs) ts := by
  induction h with
  | nil => exact .nil
  | @blank c cs ts hc _ ih =>
    rw [Text.stripEnd, ← List.singleton_append, dropEndWhile_append]
    split
    -- If nothing is left behind the blank, it goes too.
    · rename_i hempty
      rw [Text.stripEnd, List.isEmpty_iff.mp hempty] at ih
      rw [dropEndWhile_eq_nil (List.forall_mem_singleton.mpr (isBlank_of_isSeparator hc))]
      exact ih
    · exact .blank hc ih
  | @token t cs ts ht _ ih =>
    rw [Text.stripEnd, dropEndWhile_append]
    split
    · rename_i hempty
      have hkeep := dropEndWhile_eq_self fun c hc => isBlank_of_isGraphic (ht.isGraphic c hc)
      rw [Text.stripEnd, List.isEmpty_iff.mp hempty] at ih
      have hw := Writes.token ht ih
      rw [List.append_nil] at hw
      rw [hkeep]
      exact hw
    · exact .token ht ih

end Writes

end WordExpr
