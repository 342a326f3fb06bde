/-
  WordExpr.Proofs.LongestMatch

  The first match is the longest. Rules are `Ranked` if of two that match at one place the
  earlier one matches more; then the first match is the only longest one, and choosing the
  first or the longest makes no difference (`Ranked.firstHit?_eq_longestHit?`).

  The rules of expressions are ranked in every order in which hexadecimal literals come before
  decimal ones: no other two of them match at one place, because they start with different
  characters. So all these orders split every text into the same tokens, or fail alike
  (`first_match_is_longest_match`).
-/
import WordExpr.Proofs.Spacing

namespace WordExpr.Lexer

variable {rs rs' : List Rule} {q r : Rule} {cs : List Char} {hit : Hit} {m n : Nat}

/-! ## Matches at one place -/

theorem firstHit?_eq_head? (rs : List Rule) (cs : List Char) :
    firstHit? rs cs = (hits rs cs).head? := by
  rw [firstHit?, hits, List.head?_filterMap]

theorem mem_hits : hit ∈ hits rs cs
    ↔ rs[hit.index]? = some hit.rule ∧ hit.rule.matchLength? cs = some hit.length := by
  rw [hits, List.mem_filterMap]
  constructor
  · rintro ⟨⟨r, i⟩, hmem, hhit⟩
    obtain ⟨n, hn, rfl⟩ := Option.map_eq_some_iff.mp hhit
    exact ⟨List.mem_zipIdx_iff_getElem?.mp hmem, hn⟩
  · rintro ⟨hrule, hlength⟩
    refine ⟨(hit.rule, hit.index), List.mem_zipIdx_iff_getElem?.mpr hrule, ?_⟩
    simp only [hlength, Option.map_some]

theorem mem_hits_of_firstHit? (h : firstHit? rs cs = some hit) : hit ∈ hits rs cs := by
  rw [firstHit?_eq_head?] at h
  exact List.mem_of_mem_head? h

/-- A longer match than all others is the longest one. -/
theorem longestHit?_of_hits {rest : List Hit} (h : hits rs cs = hit :: rest)
    (hrest : ∀ b ∈ rest, b.length < hit.length) : longestHit? rs cs = some hit := by
  rw [longestHit?, h, List.foldl_cons]
  clear h
  induction rest with
  | nil => rfl
  | cons b rest ih =>
    obtain ⟨hb, hrest⟩ := List.forall_mem_cons.mp hrest
    rw [List.foldl_cons]
    simp only [if_neg (Nat.not_lt.mpr (Nat.le_of_lt hb))]
    exact ih hrest

/-! ## Ranked rules -/

/-- Of two rules that match at one place, the earlier one matches more. -/
def Ranked (rs : List Rule) : Prop :=
  rs.Pairwise fun q r =>
    ∀ cs m n, q.matchLength? cs = some m → r.matchLength? cs = some n → n < m

namespace Ranked

theorem hits_pairwise (h : Ranked rs) (cs : List Char) :
    (hits rs cs).Pairwise fun a b => b.length < a.length := by
  have hindexed : rs.zipIdx.Pairwise fun a b =>
      ∀ cs m n, a.1.matchLength? cs = some m → b.1.matchLength? cs = some n → n < m := by
    have hmap : (rs.zipIdx.map Prod.fst).Pairwise fun q r =>
        ∀ cs m n, q.matchLength? cs = some m → r.matchLength? cs = some n → n < m := by
      rw [List.zipIdx_map_fst]
      exact h
    exact List.pairwise_map.mp hmap
  refine hindexed.filterMap _ ?_
  intro a b hab x hx y hy
  obtain ⟨m, hm, rfl⟩ := Option.map_eq_some_iff.mp hx
  obtain ⟨n, hn, rfl⟩ := Option.map_eq_some_iff.mp hy
  exact hab cs m n hm hn

/-- The first match is longer than all others. -/
theorem exists_hits (h : Ranked rs) (hfirst : firstHit? rs cs = some hit) :
    ∃ rest, hits rs cs = hit :: rest ∧ ∀ b ∈ rest, b.length < hit.length := by
  rw [firstHit?_eq_head?] at hfirst
  obtain ⟨rest, hrest⟩ := List.head?_eq_some_iff.mp hfirst
  have hpairs := h.hits_pairwise cs
  rw [hrest] at hpairs
  exact ⟨rest, hrest, (List.pairwise_cons.mp hpairs).1⟩

theorem firstHit?_eq_longestHit? (h : Ranked rs) : firstHit? rs = longestHit? rs := by
  funext cs
  cases hfirst : firstHit? rs cs with
  | none =>
    rw [firstHit?_eq_head?, List.head?_eq_none_iff] at hfirst
    rw [longestHit?, hfirst]
    rfl
  | some hit =>
    obtain ⟨rest, hrest, hlt⟩ := h.exists_hits hfirst
    exact (longestHit?_of_hits hrest hlt).symm

/-- What another rule matches is shorter than the first match. -/
theorem lt_length (h : Ranked rs) (hfirst : firstHit? rs cs = some hit) {j : Nat}
    (hr : rs[j]? = some r) (hn : r.matchLength? cs = some n) (hne : j ≠ hit.index) :
    n < hit.length := by
  obtain ⟨rest, hrest, hlt⟩ := h.exists_hits hfirst
  have hmem : ⟨j, r, n⟩ ∈ hits rs cs := mem_hits.mpr ⟨hr, hn⟩
  rw [hrest] at hmem
  rcases List.mem_cons.mp hmem with rfl | hmem
  · exact absurd rfl hne
  · exact hlt _ hmem

/-- A rule that matches more than all others is chosen, whatever its place among them. -/
theorem firstHit?_of_perm (h : Ranked rs) (h' : Ranked rs') (hperm : rs.Perm rs')
    (hfirst : firstHit? rs cs = some hit) :
    ∃ i, firstHit? rs' cs = some ⟨i, hit.rule, hit.length⟩ := by
  obtain ⟨hrule, hlength⟩ := mem_hits.mp (mem_hits_of_firstHit? hfirst)
  obtain ⟨j, hj⟩ := List.mem_iff_getElem?.mp (hperm.mem_iff.mp (List.mem_of_getElem? hrule))
  have hmem : ⟨j, hit.rule, hit.length⟩ ∈ hits rs' cs := mem_hits.mpr ⟨hj, hlength⟩
  -- Some rule is chosen there too, and it is one of the others here.
  cases hfirst' : firstHit? rs' cs with
  | none =>
    rw [firstHit?_eq_head?, List.head?_eq_none_iff] at hfirst'
    rw [hfirst'] at hmem
    exact absurd hmem List.not_mem_nil
  | some hit' =>
    obtain ⟨hrule', hlength'⟩ := mem_hits.mp (mem_hits_of_firstHit? hfirst')
    obtain ⟨i, hi⟩ := List.mem_iff_getElem?.mp (hperm.mem_iff.mpr (List.mem_of_getElem? hrule'))
    by_cases hj' : j = hit'.index
    · rw [hj', hrule', Option.some.injEq] at hj
      rw [hj, hlength, Option.some.injEq] at hlength'
      exact ⟨hit'.index, by rw [← hj, hlength']⟩
    · have hlt := h'.lt_length hfirst' hj hlength hj'
      -- Each of the two would match more than the other.
      have hi' : i ≠ hit.index := by
        rintro rfl
        rw [hrule, Option.some.injEq] at hi
        rw [← hi, hlength, Option.some.injEq] at hlength'
        omega
      have hlt' := h.lt_length hfirst hi hlength' hi'
      omega

end Ranked

/-! ## Lexing with the same choices -/

/-- The rule and the length of a match, without the place of the rule. -/
def Hit.choice (hit : Hit) : Rule × Nat := (hit.rule, hit.length)

/-- The result of lexing depends on the rules chosen and the lengths of their matches only. -/
theorem lexFrom_congr {choose choose' : List Char → Option Hit}
    (h : ∀ cs, (choose cs).map Hit.choice = (choose' cs).map Hit.choice) (max : Int)
    (text : String) (position : Nat) (cs : List Char) (tokens : Array Token)
    (log log' : Array Match) :
    (lexFrom choose max text position cs tokens log).result
      = (lexFrom choose' max text position cs tokens log').result := by
  have hcs : ∀ c more hit, choose (c :: more) = some hit →
      ∃ hit', choose' (c :: more) = some hit' ∧ hit'.rule = hit.rule
        ∧ hit'.length = hit.length := by
    intro c more hit hhit
    have hsame := h (c :: more)
    rw [hhit, Option.map_some] at hsame
    obtain ⟨hit', hhit', hchoice⟩ := Option.map_eq_some_iff.mp hsame.symm
    exact ⟨hit', hhit', congrArg Prod.fst hchoice, congrArg Prod.snd hchoice⟩
  fun_induction lexFrom choose max text position cs tokens log generalizing log' with
  | case1 position tokens log => rw [lexFrom]
  | case2 position tokens log c more hnone =>
    have hsame := h (c :: more)
    rw [hnone, Option.map_none] at hsame
    rw [lexFrom, Option.map_eq_none_iff.mp hsame.symm]
  | case3 position tokens log c more hit hhit hzero =>
    obtain ⟨hit', hhit', -, hlength⟩ := hcs c more hit hhit
    have hzero' : hit'.length = 0 := by rw [hlength, hzero]
    rw [lexFrom, hhit']
    simp only [dif_pos hzero']
  | case4 position tokens log c more hit hhit hpos lexeme rest log₁ hkind ih =>
    obtain ⟨hit', hhit', hrule, hlength⟩ := hcs c more hit hhit
    rw [lexFrom_step max text position tokens log' hhit' (by rw [hlength]; exact hpos)]
    simp only [hrule, hlength, hkind]
    exact ih _
  | case5 position tokens log c more hit hhit hpos lexeme log₁ kind hkind e haccept =>
    obtain ⟨hit', hhit', hrule, hlength⟩ := hcs c more hit hhit
    rw [lexFrom_step max text position tokens log' hhit' (by rw [hlength]; exact hpos)]
    simp only [hrule, hlength, hkind]
    rw [haccept]
  | case6 position tokens log c more hit hhit hpos lexeme rest log₁ kind hkind tokens' haccept ih =>
    obtain ⟨hit', hhit', hrule, hlength⟩ := hcs c more hit hhit
    rw [lexFrom_step max text position tokens log' hhit' (by rw [hlength]; exact hpos)]
    simp only [hrule, hlength, hkind]
    rw [haccept]
    exact ih _

/-- Ranked rules in any two orders split a text alike. -/
theorem Ranked.lexWith_of_perm (h : Ranked rs) (h' : Ranked rs') (hperm : rs.Perm rs')
    (max : Int) (text : String) :
    (lexWith (firstHit? rs) max text).result = (lexWith (firstHit? rs') max text).result := by
  refine lexFrom_congr (fun cs => ?_) max text 0 text.toList #[] #[] #[]
  cases hfirst : firstHit? rs cs with
  | some hit =>
    obtain ⟨i, hi⟩ := h.firstHit?_of_perm h' hperm hfirst
    rw [hi]
    rfl
  | none =>
    cases hfirst' : firstHit? rs' cs with
    | none => rfl
    | some hit' =>
      obtain ⟨i, hi⟩ := h'.firstHit?_of_perm h hperm.symm hfirst'
      rw [hi] at hfirst
      cases hfirst

/-! ## The rules of expressions -/

/-- Two different rules start with different characters, literals of the two bases apart. -/
theorem rules_disjoint : ∀ q ∈ rules, ∀ r ∈ rules, q ≠ r →
    r.first.disjoint q.first = true ∨ (q = hexRule ∧ r = decRule)
      ∨ (q = decRule ∧ r = hexRule) := by decide

theorem rules_nodup : rules.Nodup := by decide

theorem Rule.exists_head_of_matchLength? (hr : r.isStrict = true)
    (h : r.matchLength? cs = some n) :
    ∃ c more, cs = c :: more ∧ r.first.contains c = true := by
  obtain ⟨c, more, htake, hc⟩ := exists_head_of_takes hr (takes_of_matchLength? hr h)
  refine ⟨c, more ++ cs.drop n, ?_, hc⟩
  rw [← List.cons_append, ← htake, List.take_append_drop]

/-- Rules that start with different characters do not match at one place. -/
theorem not_both_match (hq : q.isStrict = true) (hr : r.isStrict = true)
    (hdisjoint : r.first.disjoint q.first = true) (hm : q.matchLength? cs = some m) :
    r.matchLength? cs ≠ some n := by
  intro hn
  obtain ⟨c, more, rfl, hc⟩ := Rule.exists_head_of_matchLength? hr hn
  rw [Rule.matchLength?_eq_none hq (CharClass.contains_eq_false_of_disjoint hdisjoint hc)] at hm
  cases hm

/-- Where a hexadecimal literal stands, the decimal one is its zero. -/
theorem decRule_of_hexRule (h : hexRule.matchLength? cs = some m) :
    3 ≤ m ∧ decRule.matchLength? cs = some 1 := by
  obtain ⟨ds, htake, hne, -, -⟩ := takes_hexRule (Rule.takes_of_matchLength? (by decide) h)
  have hsplit : cs = ['0'] ++ ('x' :: (ds ++ cs.drop m)) := by
    show cs = '0' :: 'x' :: (ds ++ cs.drop m)
    rw [← List.cons_append, ← List.cons_append, ← htake, List.take_append_drop]
  refine ⟨?_, ?_⟩
  · have hlen := congrArg List.length htake
    have hpos := List.length_pos_iff.mpr hne
    rw [List.length_take, List.length_cons, List.length_cons] at hlen
    omega
  · have htakes : Pattern.Takes decRule.pattern (['0'] ++ ([] ++ []))
        ('x' :: (ds ++ cs.drop m)) := by
      have hzero : ∀ c ∈ ['0'], CharClass.contains ⟨digits⟩ c = true :=
        List.forall_mem_singleton.mpr (by decide)
      refine .cons (takes_many (List.cons_ne_nil _ _) hzero ?_) (.cons (takes_maybe ?_) .nil)
      · rintro c hc
        cases hc
        decide
      · refine .inl ⟨rfl, ?_⟩
        rintro c hc
        cases hc
        decide
    rw [hsplit]
    exact Rule.matchLength?_append (by decide) htakes

/-- The rules are ranked in every order in which hexadecimal literals come before decimal
    ones. -/
theorem ranked_of_perm (hperm : rs.Perm rules)
    (horder : rs.Pairwise fun q r => q.kind = some .dec → r.kind ≠ some .hex) : Ranked rs := by
  have hnodup : rs.Pairwise (· ≠ ·) := hperm.nodup_iff.mpr rules_nodup
  refine (hnodup.and horder).imp_of_mem ?_
  rintro q r hq hr ⟨hne, hkinds⟩ cs m n hm hn
  have hq := hperm.mem_iff.mp hq
  have hr := hperm.mem_iff.mp hr
  rcases rules_disjoint q hq r hr hne with hdisjoint | ⟨rfl, rfl⟩ | ⟨rfl, rfl⟩
  · exact absurd hn (not_both_match (isStrict_of_mem_rules q hq) (isStrict_of_mem_rules r hr)
      hdisjoint hm)
  · obtain ⟨hlong, hdec⟩ := decRule_of_hexRule hm
    rw [hdec, Option.some.injEq] at hn
    omega
  · exact absurd rfl (hkinds rfl)

theorem ranked_rules : Ranked rules := ranked_of_perm (.refl rules) (by decide)

-- In an order in which decimal literals come first, the zero is taken for one.
example : (lexWith (firstHit? rules.reverse) 9 "0x1f").result = .error (.noMatch "0x1f" 1) := by
  decide +kernel

/-- At every place of a text the first rule that matches is the only one with the longest match
    there. In every order of the rules in which hexadecimal literals come before decimal ones,
    choosing the first match and choosing the longest one split every text into the same tokens,
    or fail with the same error. -/
theorem first_match_is_longest_match :
    (∀ (cs : List Char) (hit : Hit), firstHit? rules cs = some hit →
      rules[hit.index]? = some hit.rule ∧ hit.rule.matchLength? cs = some hit.length
        ∧ ∀ (j : Nat) (r : Rule) (n : Nat), rules[j]? = some r → r.matchLength? cs = some n →
            j ≠ hit.index → n < hit.length)
    ∧ ∀ rs : List Rule, rs.Perm rules →
        (rs.Pairwise fun q r => q.kind = some .dec → r.kind ≠ some .hex) →
        ∀ (maxTokens : Int) (text : String),
          (lexWith (firstHit? rs) maxTokens text).result = tokenize text maxTokens
          ∧ (lexWith (longestHit? rs) maxTokens text).result = tokenize text maxTokens := by
  refine ⟨fun cs hit hfirst => ?_, fun rs hperm horder maxTokens text => ?_⟩
  · obtain ⟨hrule, hlength⟩ := mem_hits.mp (mem_hits_of_firstHit? hfirst)
    exact ⟨hrule, hlength, fun j r n hr hn hne => ranked_rules.lt_length hfirst hr hn hne⟩
  · have hranked := ranked_of_perm hperm horder
    have hsame := hranked.lexWith_of_perm ranked_rules hperm maxTokens text
    rw [← hranked.firstHit?_eq_longestHit?]
    exact ⟨hsame, hsame⟩

/-- In `0x1f+$a` the rule of hexadecimal literals takes four characters and every other rule
    fewer; with the rules of operands in front of all others the tokens are the same. -/
theorem lexing_with_operands_first :
    (∀ (j : Nat) (r : Rule) (n : Nat), rules[j]? = some r →
      r.matchLength? "0x1f+$a".toList = some n → j ≠ 12 → n < 4)
    ∧ (lexWith (firstHit? (rules.drop 12 ++ rules.take 12)) 9 "0x1f+$a").result
        = tokenize "0x1f+$a" 9
    ∧ (lexWith (longestHit? (rules.drop 12 ++ rules.take 12)) 9 "0x1f+$a").result
        = tokenize "0x1f+$a" 9
    ∧ tokenize "0x1f+$a" 9 = .ok #[⟨.hex, "0x1f"⟩, .spelled (.op .add), ⟨.reg, "$a"⟩] := by
  obtain ⟨hlongest, horders⟩ := first_match_is_longest_match
  have hfirst : firstHit? rules "0x1f+$a".toList = some ⟨12, hexRule, 4⟩ := by decide
  have hperm : (rules.drop 12 ++ rules.take 12).Perm rules := by
    have hcomm : (rules.drop 12 ++ rules.take 12).Perm (rules.take 12 ++ rules.drop 12) :=
      List.perm_append_comm
    rwa [List.take_append_drop] at hcomm
  obtain ⟨hfirstLexer, hlongestLexer⟩ := horders _ hperm (by decide) 9 "0x1f+$a"
  exact ⟨(hlongest _ _ hfirst).2.2, hfirstLexer, hlongestLexer, by decide +kernel⟩

end WordExpr.Lexer
