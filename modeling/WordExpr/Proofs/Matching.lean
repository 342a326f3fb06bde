/-
  WordExpr.Proofs.Matching

  What patterns and rules match. `Piece.Takes` and `Pattern.Takes` say of a lexeme and of
  the text behind it that the pattern takes exactly that lexeme: the characters are of the
  right classes and numbers, and every piece takes as many as it can. Matching computes
  this (`matchLength?_append`, `takes_of_matchLength?`).

  A rule can match only where its first piece can take a character. The classes of two
  different first pieces are disjoint for all pairs of rules but one, so the first match is
  mostly the only one; `firstHit?_of_starts` is the way to compute it.
-/
import WordExpr.Lexer.Rule

namespace WordExpr.Lexer

/-! ## Characters -/

namespace CharClass

variable {k : CharClass} {c : Char}

theorem contains_iff : k.contains c = true ↔ ∃ r ∈ k.ranges, r.1 ≤ c ∧ c ≤ r.2 := by
  simp [contains]

@[simp] theorem contains_single {d : Char} : (single d).contains c = true ↔ c = d := by
  rw [contains_iff]
  constructor
  · rintro ⟨r, hr, hlo, hhi⟩
    rw [single, List.mem_singleton] at hr
    subst hr
    exact Char.le_antisymm hhi hlo
  · rintro rfl
    exact ⟨(c, c), List.mem_singleton_self _, Char.le_refl c, Char.le_refl c⟩

/-- Do two classes have no character in common? -/
def disjoint (k l : CharClass) : Bool :=
  k.ranges.all fun r => l.ranges.all fun q => r.2 < q.1 || q.2 < r.1

theorem contains_eq_false_of_disjoint {l : CharClass} (h : k.disjoint l = true)
    (hc : k.contains c = true) : l.contains c = false := by
  rw [Bool.eq_false_iff]
  intro hlc
  obtain ⟨r, hr, hr₁, hr₂⟩ := contains_iff.mp hc
  obtain ⟨q, hq, hq₁, hq₂⟩ := contains_iff.mp hlc
  -- The two ranges that hold the character overlap.
  have hrq := List.all_eq_true.mp (List.all_eq_true.mp h r hr) q hq
  rw [Bool.or_eq_true, decide_eq_true_eq, decide_eq_true_eq] at hrq
  rcases hrq with hlt | hlt
  · exact absurd (Char.le_trans hq₁ hr₂) (Char.not_le.mpr hlt)
  · exact absurd (Char.le_trans hr₁ hq₂) (Char.not_le.mpr hlt)

/-- Does the second class hold all characters of the first? It is asked of the ranges, one by
    one. -/
def within (k l : CharClass) : Bool :=
  k.ranges.all fun r => l.ranges.any fun q => q.1 ≤ r.1 && r.2 ≤ q.2

theorem contains_of_within {l : CharClass} (h : k.within l = true) (hc : k.contains c = true) :
    l.contains c = true := by
  obtain ⟨r, hr, hr₁, hr₂⟩ := contains_iff.mp hc
  obtain ⟨q, hq, hqr⟩ := List.any_eq_true.mp (List.all_eq_true.mp h r hr)
  rw [Bool.and_eq_true, decide_eq_true_eq, decide_eq_true_eq] at hqr
  exact contains_iff.mpr ⟨q, hq, Char.le_trans hqr.1 hr₁, Char.le_trans hr₂ hqr.2⟩

end CharClass

/-! ## Pieces -/

namespace Piece

variable {p : Piece} {xs cs rest : List Char}

/-- The piece takes the characters `xs` before `rest`, and takes no more of them. -/
structure Takes (p : Piece) (xs rest : List Char) : Prop where
  all : ∀ c ∈ xs, p.chars.contains c = true
  least : p.least ≤ xs.length
  most : ∀ m, p.most = some m → xs.length ≤ m
  stops : p.most = some xs.length ∨ ∀ c ∈ rest.head?, p.chars.contains c = false

theorem takeWhile_append_of_stops {f : Char → Bool} (h : ∀ c ∈ xs, f c = true)
    (hstops : ∀ c ∈ rest.head?, f c = false) : (xs ++ rest).takeWhile f = xs := by
  rw [List.takeWhile_append_of_pos h]
  cases rest with
  | nil => rw [List.takeWhile_nil, List.append_nil]
  | cons c rest => rw [List.takeWhile_cons, hstops c rfl, if_neg (by simp), List.append_nil]

/-- A run of a class and what stops it are determined by the text. -/
theorem append_inj_of_stops {f : Char → Bool} {ys other : List Char}
    (hxs : ∀ c ∈ xs, f c = true) (hys : ∀ c ∈ ys, f c = true)
    (hrest : ∀ c ∈ rest.head?, f c = false) (hother : ∀ c ∈ other.head?, f c = false)
    (h : xs ++ rest = ys ++ other) : xs = ys ∧ rest = other := by
  have hrun : xs = ys := by
    rw [← takeWhile_append_of_stops hxs hrest, h, takeWhile_append_of_stops hys hother]
  rw [hrun] at h
  exact ⟨hrun, List.append_cancel_left h⟩

theorem matchLength?_append (h : p.Takes xs rest) :
    p.matchLength? (xs ++ rest) = some xs.length := by
  have hleast := h.least
  -- The piece is full, or the run of its class ends with what it takes.
  rcases h.stops with hmost | hstops
  · have hrun : xs.length ≤ ((xs ++ rest).takeWhile p.chars.contains).length := by
      rw [List.takeWhile_append_of_pos h.all, List.length_append]
      exact Nat.le_add_right _ _
    simp only [matchLength?, hmost, Nat.min_eq_right hrun]
    rw [if_neg (by omega)]
  · have hrun := takeWhile_append_of_stops h.all hstops
    simp only [matchLength?, hrun]
    rw [if_neg (by omega)]
    cases hm : p.most with
    | none => rfl
    | some m => simp only [Nat.min_eq_left (h.most m hm)]

/-- Of the rest only its first character matters. -/
theorem Takes.of_head?_eq {other : List Char} (h : p.Takes xs rest)
    (hhead : rest.head? = other.head?) : p.Takes xs other where
  all := h.all
  least := h.least
  most := h.most
  stops := by
    rw [← hhead]
    exact h.stops

theorem takes_self (c : Char) (rest : List Char) : (Piece.char c).Takes [c] rest where
  all := fun d hd => CharClass.contains_single.mpr (List.mem_singleton.mp hd)
  least := Nat.le_refl 1
  most := fun m hm => by
    cases hm
    exact Nat.le_refl 1
  stops := .inl rfl

/-- A text is a run of characters of a class and a rest that does not start with one. -/
theorem exists_run (f : Char → Bool) (cs : List Char) :
    ∃ run rest, cs = run ++ rest ∧ (∀ c ∈ run, f c = true) ∧ ∀ c ∈ rest.head?, f c = false := by
  refine ⟨cs.takeWhile f, cs.dropWhile f, List.takeWhile_append_dropWhile.symm, ?_, ?_⟩
  · exact List.all_eq_true.mp List.all_takeWhile
  · intro c hc
    have hhead := List.head?_dropWhile_not f cs
    rw [Option.mem_def.mp hc] at hhead
    simpa using hhead

/-- Does the piece allow its least number of characters? -/
def ordered (p : Piece) : Bool := p.most.all fun m => p.least ≤ m

theorem takes_of_matchLength? (hp : p.ordered = true) {n : Nat}
    (h : p.matchLength? cs = some n) : p.Takes (cs.take n) (cs.drop n) := by
  obtain ⟨run, rest, rfl, hall, hend⟩ := exists_run p.chars.contains cs
  have hrun := takeWhile_append_of_stops hall hend
  simp only [matchLength?, hrun] at h
  split at h
  · cases h
  rename_i hleast
  -- Without an upper limit, or below it, the whole run is taken.
  have hfull (hmost : ∀ m, p.most = some m → run.length ≤ m) (hn : n = run.length) :
      p.Takes ((run ++ rest).take n) ((run ++ rest).drop n) := by
    rw [hn, List.take_left' rfl, List.drop_left' rfl]
    exact ⟨hall, Nat.le_of_not_lt hleast, hmost, .inr hend⟩
  cases hm : p.most with
  | none =>
    rw [hm, Option.some.injEq] at h
    exact hfull (fun m hm' => by rw [hm] at hm'; cases hm') h.symm
  | some m =>
    simp only [hm, Option.some.injEq] at h
    by_cases hle : run.length ≤ m
    · refine hfull (fun m' hm' => ?_) (by omega)
      rw [hm] at hm'
      cases hm'
      exact hle
    · have hn : n = m := by omega
      have hnrun : n ≤ run.length := by omega
      have hlen : ((run ++ rest).take n).length = n := by
        rw [List.take_append_of_le_length hnrun, List.length_take, Nat.min_eq_left hnrun]
      refine ⟨fun c hc => ?_, ?_, fun m' hm' => ?_, .inl ?_⟩
      · rw [List.take_append_of_le_length hnrun] at hc
        exact hall c (List.mem_of_mem_take hc)
      · rw [ordered, hm, Option.all_some, decide_eq_true_eq] at hp
        omega
      · rw [hm] at hm'
        cases hm'
        omega
      · rw [hlen, hn, hm]

end Piece

/-! ## Patterns -/

namespace Pattern

variable {ps : Pattern} {xs cs rest : List Char}

/-- The pieces take the characters `xs` before `rest`, one after the other. -/
inductive Takes : Pattern → (xs rest : List Char) → Prop
  | nil {rest : List Char} : Takes [] [] rest
  | cons {p : Piece} {ps : Pattern} {xs ys rest : List Char} :
      p.Takes xs (ys ++ rest) → Takes ps ys rest → Takes (p :: ps) (xs ++ ys) rest

theorem matchLength?_append (h : Takes ps xs rest) :
    matchLength? ps (xs ++ rest) = some xs.length := by
  induction h with
  | nil => rfl
  | @cons p ps xs ys rest hp _ ih =>
    have hpiece := Piece.matchLength?_append hp
    rw [List.append_assoc, matchLength?, hpiece]
    simp only [List.drop_left, ih, Option.map_some, List.length_append]

theorem takes_of_matchLength? (hps : ps.all Piece.ordered = true) {n : Nat}
    (h : matchLength? ps cs = some n) : Takes ps (cs.take n) (cs.drop n) := by
  induction ps generalizing cs n with
  | nil =>
    cases h
    exact .nil
  | cons p ps ih =>
    rw [List.all_cons, Bool.and_eq_true] at hps
    simp only [matchLength?] at h
    split at h
    · cases h
    rename_i k hk
    obtain ⟨m, hm, rfl⟩ := Option.map_eq_some_iff.mp h
    -- The first piece takes `k` characters, the others what follows them.
    have hpiece := Piece.takes_of_matchLength? hps.1 hk
    have hrest := ih hps.2 hm
    rw [List.drop_drop] at hrest
    rw [List.take_add]
    refine .cons ?_ hrest
    rwa [← List.drop_drop, List.take_append_drop]

theorem Takes.of_head?_eq {other : List Char} (h : Takes ps xs rest)
    (hhead : rest.head? = other.head?) : Takes ps xs other := by
  induction h with
  | nil => exact .nil
  | cons hp _ ih =>
    refine .cons (hp.of_head?_eq ?_) (ih hhead)
    rw [List.head?_append, List.head?_append, hhead]

/-- A fixed text takes itself, whatever stands behind it. -/
theorem takes_literal (cs rest : List Char) : Takes (cs.map Piece.char) cs rest := by
  induction cs with
  | nil => exact .nil
  | cons c cs ih =>
    exact .cons (Piece.takes_self c (cs ++ rest)) ih

end Pattern

/-! ## Rules -/

namespace Rule

variable {r : Rule} {c : Char} {xs cs rest : List Char}

/-- The characters that a match of the rule can start with. -/
def first (r : Rule) : CharClass :=
  match r.pattern with
  | [] => ⟨[]⟩
  | p :: _ => p.chars

/-- Does every match of the rule start with a character of its first piece? -/
def isStrict (r : Rule) : Bool :=
  match r.pattern with
  | [] => false
  | p :: ps => 0 < p.least && (p :: ps).all Piece.ordered

theorem matchLength?_append (hpos : 0 < xs.length) (h : Pattern.Takes r.pattern xs rest) :
    r.matchLength? (xs ++ rest) = some xs.length := by
  rw [matchLength?, Pattern.matchLength?_append h, Option.filter_some, decide_eq_true hpos]
  rfl

theorem takes_of_matchLength? (hr : r.isStrict = true) {n : Nat}
    (h : r.matchLength? cs = some n) : Pattern.Takes r.pattern (cs.take n) (cs.drop n) := by
  refine Pattern.takes_of_matchLength? ?_ (Option.filter_eq_some_iff.mp h).1
  unfold isStrict at hr
  split at hr
  · cases hr
  · rename_i hp
    rw [hp]
    exact (Bool.and_eq_true_iff.mp hr).2

theorem exists_head_of_takes (hr : r.isStrict = true) (h : Pattern.Takes r.pattern xs rest) :
    ∃ c cs, xs = c :: cs ∧ r.first.contains c = true := by
  unfold isStrict at hr
  unfold first
  split at hr
  · cases hr
  rename_i p ps hp
  rw [hp] at h
  have hleast : 0 < p.least := of_decide_eq_true (Bool.and_eq_true_iff.mp hr).1
  -- The first piece takes a character, so the first one is of its class.
  cases h with
  | @cons _ _ xs ys _ hpiece _ =>
    cases xs with
    | nil => exact absurd hpiece.least (Nat.not_le.mpr hleast)
    | cons c xs => exact ⟨c, xs ++ ys, rfl, hpiece.all c List.mem_cons_self⟩

theorem matchLength?_eq_none (hr : r.isStrict = true) (h : r.first.contains c = false) :
    r.matchLength? (c :: cs) = none := by
  unfold isStrict at hr
  unfold first at h
  split at hr
  · cases hr
  rename_i p ps hp
  rw [hp] at h
  have hleast : 0 < p.least := of_decide_eq_true (Bool.and_eq_true_iff.mp hr).1
  -- The first piece needs a character, and finds none of its class.
  have hrun : ((c :: cs).takeWhile p.chars.contains).length < p.least := by
    rw [List.takeWhile_cons, h]
    exact hleast
  rw [matchLength?, hp, Pattern.matchLength?, Piece.matchLength?]
  simp only [if_pos hrun]
  rfl

end Rule

/-- The first match where the rules before the matching one cannot start. -/
theorem firstHit?_of_starts {before after : List Rule} {r : Rule} {c : Char} {cs : List Char}
    {n : Nat} (hbefore : ∀ q ∈ before, q.matchLength? (c :: cs) = none)
    (hr : r.matchLength? (c :: cs) = some n) :
    firstHit? (before ++ r :: after) (c :: cs) = some ⟨before.length, r, n⟩ := by
  rw [firstHit?, List.zipIdx_append, List.findSome?_append]
  refine Option.or_eq_some_iff.mpr (.inr ⟨?_, ?_⟩)
  · rw [List.findSome?_eq_none_iff]
    rintro ⟨q, i⟩ hq
    show Option.map _ (q.matchLength? (c :: cs)) = none
    rw [hbefore q (List.fst_mem_of_mem_zipIdx hq), Option.map_none]
  · rw [List.zipIdx_cons, List.findSome?_cons]
    simp only [hr, Option.map_some, Nat.zero_add]

/-- The match chosen is one of a rule. -/
theorem matchLength?_of_firstHit? {rs : List Rule} {cs : List Char} {hit : Hit}
    (h : firstHit? rs cs = some hit) :
    hit.rule ∈ rs ∧ hit.rule.matchLength? cs = some hit.length := by
  obtain ⟨⟨r, i⟩, hmem, hr⟩ := List.exists_of_findSome?_eq_some h
  obtain ⟨n, hn, rfl⟩ := Option.map_eq_some_iff.mp hr
  exact ⟨List.fst_mem_of_mem_zipIdx hmem, hn⟩

end WordExpr.Lexer
