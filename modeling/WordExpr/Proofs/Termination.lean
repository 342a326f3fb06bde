/-
  WordExpr.Proofs.Termination

  When random expressions end. A number that asks for a literal or for brackets is small
  (`Generator.IsSmall`); any other asks for an operator, whose left operand is drafted first
  and finds the draft as it was. So a descent to the left ends only at a small number. But
  then the draft is longer, and one beyond the threshold ends at once.

  Drafting is therefore finished if small numbers keep coming (`Generator.ends_of_isSmall`):
  what decreases is the room below the threshold, and in a descent to the left the distance to
  the next small number. If no small number comes, the descent never ends
  (`Generator.extend_unfinished`).
-/
import WordExpr.Proofs.Extension
import WordExpr.Proofs.Words

namespace WordExpr

namespace Generator

variable {g : Generator} {draws : Nat → Int} {d : Draft} {k : Nat}

/-- A number that asks for a literal or for brackets when the kind of an expression is chosen. -/
def IsSmall (x : Int) : Prop := x % 4 = 0 ∨ x % 4 = 1

instance : DecidablePred IsSmall := fun x =>
  inferInstanceAs (Decidable (x % 4 = 0 ∨ x % 4 = 1))

/-- The draft is extended to another one when the numbers from the `k`-th one on are drawn. -/
def Ends (g : Generator) (draws : Nat → Int) (d : Draft) (k : Nat) : Prop :=
  ∃ d' k', Extends g (.ofSequence draws) d k d' k'

/-! ## Draws from a sequence -/

theorem choose_ofSequence {n : Nat} (h : 0 < n) (k : Nat) :
    choose (.ofSequence draws) n k = .ok (draws k % n).toNat (k + 1) := by
  have hcheck : (Source.ofSequence draws).check n = .ok () := by
    rw [Source.check, if_neg (Nat.ne_of_gt h)]
    rfl
  rw [choose, hcheck]
  rfl

theorem choose_kind (k : Nat) :
    choose (.ofSequence draws) 4 k = .ok (draws k % 4).toNat (k + 1) :=
  choose_ofSequence (by decide) k

theorem literal_ofSequence (hbits : 0 ≤ g.bits) (d : Draft) (k : Nat) :
    g.literal (.ofSequence draws) d k
      = .ok (d.add (toString (draws k % 2 ^ g.bits.toNat).toNat ++ "u")) (k + 1) := by
  have hpos : 0 < 1 <<< g.bits.toNat := by
    rw [Nat.one_shiftLeft]
    exact Nat.two_pow_pos _
  rw [literal, if_neg (by omega), bind_of_ok (choose_ofSequence hpos k),
    Width.natCast_shiftLeft]
  rfl

theorem operator_ofSequence (draws : Nat → Int) (hops : g.ops ≠ []) (d : Draft) (k : Nat) :
    ∃ d', g.operator (.ofSequence draws) d k = .ok d' (k + 1) := by
  have hpos : 0 < g.ops.length := List.length_pos_iff.mpr hops
  rw [operator, bind_of_ok (choose_ofSequence hpos k)]
  exact ⟨_, rfl⟩

/-! ## Small numbers -/

theorem two_le_kind {x : Int} (h : ¬ IsSmall x) : 2 ≤ (x % 4).toNat := by
  rw [IsSmall] at h
  omega

theorem extends_literal (hbits : 0 ≤ g.bits)
    (h : g.threshold < (d.length : Int) ∨ draws k % 4 = 0) :
    Extends g (.ofSequence draws) d k
      (d.add (toString (draws (k + 1) % 2 ^ g.bits.toNat).toNat ++ "u")) (k + 2) := by
  refine .literal (choose_kind k) ?_ (literal_ofSequence hbits d (k + 1))
  exact h.imp_right fun hzero => by rw [hzero]; rfl

/-- A small number ends the descent to the left, with brackets if not with a literal. -/
theorem ends_at_isSmall (hbits : 0 ≤ g.bits) (h : IsSmall (draws k))
    (hinside : Ends g draws (d.add " ( ") (k + 1)) : Ends g draws d k := by
  by_cases hliteral : g.threshold < (d.length : Int) ∨ draws k % 4 = 0
  · exact ⟨_, _, extends_literal hbits hliteral⟩
  · obtain ⟨d', k', hextends⟩ := hinside
    have hone : draws k % 4 = 1 := by
      rcases h with hzero | hone
      · exact absurd (.inr hzero) hliteral
      · exact hone
    refine ⟨_, _, .bracketed ?_ (by omega) hextends⟩
    rw [choose_kind, hone]
    rfl

/-- Any other number asks for a left operand, and behind it the draft is longer. -/
theorem ends_at_not_isSmall (hbits : 0 ≤ g.bits) (hops : g.ops ≠ []) (h : ¬ IsSmall (draws k))
    (hleft : Ends g draws d (k + 1))
    (hright : ∀ d₂ k₂, d.length < d₂.length → Ends g draws d₂ k₂) : Ends g draws d k := by
  by_cases hlong : g.threshold < (d.length : Int)
  · exact ⟨_, _, extends_literal hbits (.inl hlong)⟩
  · obtain ⟨d₁, k₁, hl⟩ := hleft
    obtain ⟨d₂, hmiddle⟩ := operator_ofSequence draws hops d₁ k₁
    have hlonger : d.length < d₂.length := by
      obtain ⟨i, -, rfl⟩ := operator_eq_ok hmiddle
      have hlength := hl.length_lt
      rw [Draft.length_add]
      omega
    obtain ⟨d', k', hr⟩ := hright d₂ (k₁ + 1) hlonger
    exact ⟨d', k', .joined (choose_kind k) (by omega) (two_le_kind h) hl hmiddle hr⟩

/-- Drafting ends if small numbers keep coming. -/
theorem ends_of_isSmall (hbits : 0 ≤ g.bits) (hops : g.ops ≠ [])
    (hsmall : ∀ k, ∃ n, IsSmall (draws (k + n))) {room : Nat}
    (hroom : g.threshold < (d.length + room : Nat)) (k : Nat) : Ends g draws d k := by
  induction room generalizing d k with
  | zero => exact ⟨_, _, extends_literal hbits (.inl hroom)⟩
  | succ room ih =>
    have hlonger (d₂ : Draft) (k₂ : Nat) (h : d.length < d₂.length) : Ends g draws d₂ k₂ :=
      ih (by omega) k₂
    obtain ⟨n, hn⟩ := hsmall k
    have hbracket : d.length < (d.add " ( ").length := Nat.lt_add_of_pos_right (by decide)
    -- The small number comes nearer as long as the descent goes on.
    induction n generalizing k with
    | zero => exact ends_at_isSmall hbits hn (hlonger _ _ hbracket)
    | succ n ihn =>
      by_cases hk : IsSmall (draws k)
      · exact ends_at_isSmall hbits hk (hlonger _ _ hbracket)
      · rw [Nat.add_comm n 1, ← Nat.add_assoc] at hn
        exact ends_at_not_isSmall hbits hops hk (ihn (k + 1) hn) hlonger

/-- If no small number comes, drafting is given up under every limit of recursion. -/
theorem extend_unfinished (hlarge : ∀ n, ¬ IsSmall (draws (k + n)))
    (hshort : (d.length : Int) ≤ g.threshold) (levels : Nat) :
    ∃ stop, g.extend (.ofSequence draws) levels d k = .error .unfinished stop := by
  induction levels generalizing k with
  | zero => exact ⟨k, rfl⟩
  | succ levels ih =>
    have hkind : 2 ≤ (draws k % 4).toNat := two_le_kind (hlarge 0)
    have hrest (n : Nat) : ¬ IsSmall (draws (k + 1 + n)) := by
      rw [Nat.add_assoc]
      exact hlarge (1 + n)
    obtain ⟨stop, hstop⟩ := ih hrest
    refine ⟨stop, ?_⟩
    rw [extend_joined (choose_kind k) hshort hkind, bind_of_error hstop]

/-! ## Random expressions -/

/-- A random expression whose draft ends is the same under every high enough limit. -/
theorem exists_expression (h : Ends g draws .empty k) :
    ∃ levels text stop, ∀ more,
      { g with levels := levels + more }.expression (.ofSequence draws) k = .ok text stop := by
  obtain ⟨d', stop, hextends⟩ := h
  obtain ⟨levels, hlevels⟩ := hextends.exists_levels
  refine ⟨levels, d'.text, stop, fun more => ?_⟩
  rw [expression_with_levels, map_eq_pure_bind, bind_of_ok (hlevels more)]
  rfl

theorem expression_unfinished (hlarge : ∀ n, ¬ IsSmall (draws (k + n))) (hmax : 0 ≤ g.maxLen)
    (levels : Nat) : ∃ stop,
      { g with levels := levels }.expression (.ofSequence draws) k
        = .error .unfinished stop := by
  have hshort : ((Draft.empty.length : Nat) : Int) ≤ g.threshold :=
    Int.fdiv_nonneg hmax (by decide)
  obtain ⟨stop, hstop⟩ := extend_unfinished hlarge hshort levels
  refine ⟨stop, ?_⟩
  rw [expression_with_levels, map_eq_pure_bind, bind_of_error hstop]

/-- Without a buffer there is room for a literal only. -/
theorem expression_of_neg (hbits : 0 ≤ g.bits) (hmax : g.maxLen < 0) (levels : Nat) :
    { g with levels := levels + 1 }.expression (.ofSequence draws) k
      = .ok (toString (draws (k + 1) % 2 ^ g.bits.toNat).toNat ++ "u") (k + 2) := by
  have hlong : g.threshold < ((Draft.empty.length : Nat) : Int) := by
    show g.maxLen.fdiv 10 < 0
    exact Int.fdiv_neg_of_neg_of_pos hmax (by decide)
  have hextend : g.extend (.ofSequence draws) (levels + 1) .empty k
      = g.literal (.ofSequence draws) .empty (k + 1) :=
    extend_literal (choose_kind k) (.inl hlong)
  rw [literal_ofSequence hbits] at hextend
  rw [expression_with_levels, map_eq_pure_bind, bind_of_ok hextend]
  show EStateM.Result.ok ("" ++ _) _ = _
  rw [String.empty_append]

/-! ## Numbers that are repeated -/

section Cyclic

variable {numbers : List Int}

/-- The sequence in which a list of numbers is repeated. -/
def repeated (numbers : List Int) (k : Nat) : Int := numbers.getD (k % numbers.length) 0

theorem cyclic_eq (numbers : List Int) :
    Source.cyclic numbers.toArray = .ofSequence (repeated numbers) := by
  rw [Source.cyclic]
  congr 1
  funext k
  rw [repeated, List.size_toArray, Array.getD_eq_getD_getElem?, List.getElem?_toArray,
    List.getD_eq_getElem?_getD]

theorem repeated_mem (hne : numbers ≠ []) (k : Nat) : repeated numbers k ∈ numbers := by
  have hlt : k % numbers.length < numbers.length :=
    Nat.mod_lt k (List.length_pos_iff.mpr hne)
  rw [repeated, List.getD_eq_getElem?_getD, List.getElem?_eq_getElem hlt, Option.getD_some]
  exact List.getElem_mem hlt

/-- Every number of the list comes again. -/
theorem exists_repeated_eq {x : Int} (hx : x ∈ numbers) (k : Nat) :
    ∃ n, repeated numbers (k + n) = x := by
  obtain ⟨i, hi, rfl⟩ := List.getElem_of_mem hx
  -- From the `k`-th number on, the one at `i` comes in the round with the number `k`.
  have hround : k + (k * (numbers.length - 1) + i) = k * numbers.length + i := by
    obtain ⟨m, hm⟩ := Nat.exists_eq_add_of_lt (Nat.zero_lt_of_lt hi)
    rw [hm, Nat.zero_add, Nat.add_sub_cancel, Nat.mul_succ]
    omega
  refine ⟨k * (numbers.length - 1) + i, ?_⟩
  rw [repeated, hround, Nat.mul_add_mod', Nat.mod_eq_of_lt hi, List.getD_eq_getElem?_getD,
    List.getElem?_eq_getElem hi, Option.getD_some]

/-- Random expressions from a list of numbers that is repeated. If there is a buffer, they end,
    from wherever in the list, exactly if one of the numbers asks for a literal or for brackets
    when a kind is chosen by it, and are given up under every limit of recursion if none does.
    Without a buffer a literal is all that there is. -/
theorem expression_ends_iff (w : Width) (maxLen : Int) {ops : List BinOp} (hops : ops ≠ [])
    (hne : numbers ≠ []) (k : Nat) :
    (0 ≤ maxLen →
      ((∃ levels text stop, ∀ more,
          (Generator.mk maxLen ops w.size (levels + more)).expression (.cyclic numbers.toArray) k
            = .ok text stop)
        ↔ ∃ x ∈ numbers, x % 4 = 0 ∨ x % 4 = 1)
      ∧ ((∀ x ∈ numbers, ¬ (x % 4 = 0 ∨ x % 4 = 1)) → ∀ levels, ∃ stop,
          (Generator.mk maxLen ops w.size levels).expression (.cyclic numbers.toArray) k
            = .error .unfinished stop))
    ∧ (maxLen < 0 → ∃ value : Nat,
        (value : Int) = numbers.getD ((k + 1) % numbers.length) 0 % 2 ^ w.size
        ∧ ∀ levels,
          (Generator.mk maxLen ops w.size (levels + 1)).expression (.cyclic numbers.toArray) k
            = .ok (toString value ++ "u") (k + 2)) := by
  have hbits : 0 ≤ (Generator.mk maxLen ops w.size 0).bits := Int.natCast_nonneg _
  have hgivenUp (hlarge : ∀ x ∈ numbers, ¬ IsSmall x) (hmax : 0 ≤ maxLen) (levels : Nat) :=
    expression_unfinished (g := ⟨maxLen, ops, w.size, 0⟩) (k := k)
      (fun n => hlarge _ (repeated_mem hne (k + n))) hmax levels
  rw [cyclic_eq]
  refine ⟨fun hmax => ⟨⟨?_, ?_⟩, fun hlarge => hgivenUp hlarge hmax⟩, fun hmax => ?_⟩
  · rintro ⟨levels, text, stop, hends⟩
    by_cases hsmall : ∃ x ∈ numbers, IsSmall x
    · exact hsmall
    · have hlarge : ∀ x ∈ numbers, ¬ IsSmall x := fun x hx hx' => hsmall ⟨x, hx, hx'⟩
      obtain ⟨stop', hstop⟩ := hgivenUp hlarge hmax (levels + 0)
      have hend := (hends 0).symm.trans hstop
      simp at hend
  · rintro ⟨x, hx, hsmall⟩
    have hcomes (k : Nat) : ∃ n, IsSmall (repeated numbers (k + n)) := by
      obtain ⟨n, hn⟩ := exists_repeated_eq hx k
      exact ⟨n, hn ▸ hsmall⟩
    have hroom : (Generator.mk maxLen ops w.size 0).threshold
        < (Draft.empty.length + ((Generator.mk maxLen ops w.size 0).threshold.toNat + 1) : Nat) := by
      show _ < ((0 + _ : Nat) : Int)
      omega
    exact exists_expression (ends_of_isSmall hbits hops hcomes hroom k)
  · refine ⟨(repeated numbers (k + 1) % 2 ^ w.size).toNat, ?_, fun levels => ?_⟩
    · exact Int.toNat_of_nonneg (Int.emod_nonneg _ (by cases w <;> decide))
    · exact expression_of_neg (g := ⟨maxLen, ops, w.size, 0⟩) hbits hmax levels

/-- With a four among the numbers an expression ends, though it starts at a seven; with a two and
    a seven alone none does; and without a buffer minus one is drawn as the largest word. -/
theorem expression_ends_of_four :
    (∃ levels text stop, ∀ more,
      (Generator.mk 100 [.add] Width.w32.size (levels + more)).expression (.cyclic #[2, 7, 4]) 1
        = .ok text stop)
    ∧ (∀ levels, ∃ stop,
        (Generator.mk 100 [.add] Width.w64.size levels).expression (.cyclic #[2, 7]) 0
          = .error .unfinished stop)
    ∧ ∀ levels,
        (Generator.mk (-1) [.add] Width.w32.size (levels + 1)).expression (.cyclic #[-1]) 5
          = .ok "4294967295u" 7 := by
  refine ⟨?_, ?_, ?_⟩
  · have h := expression_ends_iff .w32 100 (show [.add] ≠ [] by decide)
      (show [2, 7, 4] ≠ [] by decide) 1
    exact (h.1 (by decide)).1.mpr (by decide)
  · have h := expression_ends_iff .w64 100 (show [.add] ≠ [] by decide)
      (show [2, 7] ≠ [] by decide) 0
    exact (h.1 (by decide)).2 (by decide)
  · have h := expression_ends_iff .w32 (-1) (show [.add] ≠ [] by decide)
      (show [-1] ≠ [] by decide) 5
    obtain ⟨value, hvalue, hliteral⟩ := h.2 (by decide)
    have hmax : value = 4294967295 := by
      have hdrawn : ([-1] : List Int).getD ((5 + 1) % ([-1] : List Int).length) 0
          % 2 ^ Width.w32.size = 4294967295 := by decide
      omega
    rw [hmax] at hliteral
    exact hliteral

end Cyclic

end Generator

end WordExpr
