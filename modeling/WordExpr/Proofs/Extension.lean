/-
  WordExpr.Proofs.Extension

  Drafting without a limit of recursion. `Generator.Extends` relates a draft to what it is
  extended to, one constructor for each kind of expression. What extending with some limit comes
  to is related so (`Generator.extends_of_extend`), and what is related so is what every high
  enough limit comes to (`Generator.Extends.exists_levels`), so the limit decides only whether a
  draft is given up.

  What is proved of drafts is therefore proved by induction on `Extends`.
-/
import WordExpr.Generator

namespace WordExpr.Generator

variable {σ : Type} {source : Source σ} {g : Generator} {s s' s₁ : σ} {d d' : Draft}

/-! ## Steps of a draft -/

theorem Draft.add_add (d : Draft) (p q : String) : (d.add p).add q = d.add (p ++ q) := by
  simp only [Draft.add, String.append_assoc, String.length_append, Nat.add_assoc]

@[simp] theorem Draft.length_add (d : Draft) (piece : String) :
    (d.add piece).length = d.length + piece.length := rfl

/-- A draft with a result has one at each of its steps. -/
theorem exists_of_bind {α β : Type} {x : GenM σ α} {f : α → GenM σ β} {b : β}
    (h : (x >>= f) s = .ok b s') : ∃ a s₁, x s = .ok a s₁ ∧ f a s₁ = .ok b s' := by
  have hbind : EStateM.bind x f s = .ok b s' := h
  unfold EStateM.bind at hbind
  cases hx : x s with
  | error e s₁ =>
    rw [hx] at hbind
    cases hbind
  | ok a s₁ =>
    rw [hx] at hbind
    exact ⟨a, s₁, rfl, hbind⟩

theorem bind_of_ok {α β : Type} {x : GenM σ α} {a : α} (h : x s = .ok a s₁)
    (f : α → GenM σ β) : (x >>= f) s = f a s₁ := by
  show EStateM.bind x f s = f a s₁
  rw [EStateM.bind, h]

theorem bind_of_error {α β : Type} {x : GenM σ α} {e : Failure} (h : x s = .error e s₁)
    (f : α → GenM σ β) : (x >>= f) s = .error e s₁ := by
  show EStateM.bind x f s = .error e s₁
  rw [EStateM.bind, h]

theorem literal_eq_ok (h : g.literal source d s = .ok d' s') :
    ∃ value, choose source (1 <<< g.bits.toNat) s = .ok value s'
      ∧ d' = d.add (toString value ++ "u") := by
  unfold literal at h
  split at h
  · cases h
  · obtain ⟨value, s₁, hchoose, hadd⟩ := exists_of_bind h
    cases hadd
    exact ⟨value, hchoose, rfl⟩

theorem operator_eq_ok (h : g.operator source d s = .ok d' s') :
    ∃ i, choose source g.ops.length s = .ok i s'
      ∧ d' = d.add (" " ++ (g.ops[i]?.map BinOp.spelling).getD "" ++ " ") := by
  obtain ⟨i, s₁, hchoose, hadd⟩ := exists_of_bind h
  cases hadd
  exact ⟨i, hchoose, rfl⟩

/-! ## What a draft is extended to -/

/-- The draft is extended to the other one, and the source goes from the one state to the
    other. -/
inductive Extends (g : Generator) (source : Source σ) : Draft → σ → Draft → σ → Prop
  | literal {d d' : Draft} {s s₁ s' : σ} {kind : Nat} (hkind : choose source 4 s = .ok kind s₁)
      (hshape : g.threshold < (d.length : Int) ∨ kind = 0)
      (hliteral : g.literal source d s₁ = .ok d' s') : Extends g source d s d' s'
  | bracketed {d d' : Draft} {s s₁ s' : σ} (hkind : choose source 4 s = .ok 1 s₁)
      (hshort : (d.length : Int) ≤ g.threshold)
      (hinside : Extends g source (d.add " ( ") s₁ d' s') :
      Extends g source d s (d'.add " ) ") s'
  | joined {d d₁ d₂ d' : Draft} {s s₁ s₂ s₃ s' : σ} {kind : Nat}
      (hkind : choose source 4 s = .ok kind s₁) (hshort : (d.length : Int) ≤ g.threshold)
      (hlarge : 2 ≤ kind) (hleft : Extends g source d s₁ d₁ s₂)
      (hmiddle : g.operator source d₁ s₂ = .ok d₂ s₃)
      (hright : Extends g source d₂ s₃ d' s') : Extends g source d s d' s'

variable {levels kind : Nat}

theorem extend_literal (hkind : choose source 4 s = .ok kind s₁)
    (hshape : g.threshold < (d.length : Int) ∨ kind = 0) :
    g.extend source (levels + 1) d s = g.literal source d s₁ := by
  rw [extend, bind_of_ok hkind, if_pos hshape]

theorem extend_bracketed (hkind : choose source 4 s = .ok 1 s₁)
    (hshort : (d.length : Int) ≤ g.threshold) :
    g.extend source (levels + 1) d s
      = (g.extend source levels (d.add " ( ") >>= fun d => pure (d.add " ) ")) s₁ := by
  have hshape : ¬ (g.threshold < (d.length : Int) ∨ 1 = 0) := by omega
  rw [extend, bind_of_ok hkind, if_neg hshape, if_pos rfl]

theorem extend_joined (hkind : choose source 4 s = .ok kind s₁)
    (hshort : (d.length : Int) ≤ g.threshold) (hlarge : 2 ≤ kind) :
    g.extend source (levels + 1) d s
      = (g.extend source levels d >>= fun d => g.operator source d
          >>= fun d => g.extend source levels d) s₁ := by
  have hshape : ¬ (g.threshold < (d.length : Int) ∨ kind = 0) := by omega
  have hone : ¬ kind = 1 := by omega
  rw [extend, bind_of_ok hkind, if_neg hshape, if_neg hone]

/-- An expression that is drafted is of one of the three kinds, and its parts are drafted with
    one level less. -/
theorem extend_cases (h : g.extend source (levels + 1) d s = .ok d' s') :
    ∃ kind s₁, choose source 4 s = .ok kind s₁
      ∧ ((g.threshold < (d.length : Int) ∨ kind = 0) ∧ g.literal source d s₁ = .ok d' s'
        ∨ (d.length : Int) ≤ g.threshold ∧ kind = 1
          ∧ (∃ d₁, g.extend source levels (d.add " ( ") s₁ = .ok d₁ s' ∧ d' = d₁.add " ) ")
        ∨ (d.length : Int) ≤ g.threshold ∧ 2 ≤ kind
          ∧ ∃ d₁ s₂ d₂ s₃, g.extend source levels d s₁ = .ok d₁ s₂
            ∧ g.operator source d₁ s₂ = .ok d₂ s₃ ∧ g.extend source levels d₂ s₃ = .ok d' s') := by
  obtain ⟨kind, s₁, hkind, -⟩ := exists_of_bind h
  refine ⟨kind, s₁, hkind, ?_⟩
  by_cases hshape : g.threshold < (d.length : Int) ∨ kind = 0
  · rw [extend_literal hkind hshape] at h
    exact .inl ⟨hshape, h⟩
  have hshort : (d.length : Int) ≤ g.threshold := by omega
  by_cases hone : kind = 1
  · subst hone
    rw [extend_bracketed hkind hshort] at h
    obtain ⟨d₁, s₂, hinside, hclose⟩ := exists_of_bind h
    cases hclose
    exact .inr (.inl ⟨hshort, rfl, d₁, hinside, rfl⟩)
  · have hlarge : 2 ≤ kind := by omega
    rw [extend_joined hkind hshort hlarge] at h
    obtain ⟨d₁, s₂, hleft, h⟩ := exists_of_bind h
    obtain ⟨d₂, s₃, hmiddle, hright⟩ := exists_of_bind h
    exact .inr (.inr ⟨hshort, hlarge, d₁, s₂, d₂, s₃, hleft, hmiddle, hright⟩)

theorem extends_of_extend (h : g.extend source levels d s = .ok d' s') :
    Extends g source d s d' s' := by
  induction levels generalizing d d' s s' with
  | zero => cases h
  | succ levels ih =>
    obtain ⟨kind, s₁, hkind, ⟨hshape, hliteral⟩ | ⟨hshort, rfl, d₁, hinside, rfl⟩
      | ⟨hshort, hlarge, d₁, s₂, d₂, s₃, hleft, hmiddle, hright⟩⟩ := extend_cases h
    · exact .literal hkind hshape hliteral
    · exact .bracketed hkind hshort (ih hinside)
    · exact .joined hkind hshort hlarge (ih hleft) hmiddle (ih hright)

/-- Some limit is enough for a draft that ends, and every higher one is too. -/
theorem Extends.exists_levels (h : Extends g source d s d' s') :
    ∃ levels, ∀ more, g.extend source (levels + more) d s = .ok d' s' := by
  induction h with
  | literal hkind hshape hliteral =>
    refine ⟨1, fun more => ?_⟩
    rw [Nat.add_comm, extend_literal hkind hshape, hliteral]
  | bracketed hkind hshort _ ih =>
    obtain ⟨levels, hlevels⟩ := ih
    refine ⟨levels + 1, fun more => ?_⟩
    rw [Nat.add_right_comm, extend_bracketed hkind hshort, bind_of_ok (hlevels more)]
    rfl
  | joined hkind hshort hlarge _ hmiddle _ ihl ihr =>
    obtain ⟨left, hleft⟩ := ihl
    obtain ⟨right, hright⟩ := ihr
    refine ⟨left + right + 1, fun more => ?_⟩
    have hright' := hright (left + more)
    rw [Nat.add_right_comm, extend_joined hkind hshort hlarge, Nat.add_assoc,
      bind_of_ok (hleft _), bind_of_ok hmiddle]
    rwa [Nat.add_left_comm] at hright'

/-- Extending a draft does not look at the limit that belongs to the generator. -/
theorem extend_with_levels (g : Generator) (n levels : Nat) (d : Draft) :
    { g with levels := n }.extend source levels d = g.extend source levels d := by
  induction levels generalizing d with
  | zero => rfl
  | succ levels ih =>
    simp only [extend, ih]
    rfl

theorem expression_with_levels (g : Generator) (source : Source σ) (n : Nat) :
    { g with levels := n }.expression source = Draft.text <$> g.extend source n .empty := by
  rw [expression, extend_with_levels]

/-- Whatever is drawn, a draft gets longer. -/
theorem Extends.length_lt (h : Extends g source d s d' s') : d.length < d'.length := by
  induction h with
  | literal _ _ hliteral =>
    obtain ⟨value, -, rfl⟩ := literal_eq_ok hliteral
    have hsuffix : "u".length = 1 := rfl
    rw [Draft.length_add, String.length_append]
    omega
  | bracketed _ _ _ ih =>
    rw [Draft.length_add] at ih ⊢
    omega
  | joined _ _ _ _ hmiddle _ ihl ihr =>
    obtain ⟨i, -, rfl⟩ := operator_eq_ok hmiddle
    rw [Draft.length_add] at ihr
    omega

end WordExpr.Generator
