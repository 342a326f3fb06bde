/-
  WordExpr.Proofs.Trace

  The trace of an evaluation is sound and complete. Each record is the text of a range and the
  value found for it, and that text has this value on its own, also if the evaluation fails
  later. An evaluation with a value leaves one record for each operand, pair of brackets and
  operator, the last of them for the whole text (`Setting.trace_sound_and_complete`).

  A value is found for ranges that hold an expression only, so that the text of the range, which
  is printed without blanks, is split into the same tokens again. `EvalM.Traces` carries both
  halves through an evaluation, range by range, for token lists that need not be well-formed.
-/
import WordExpr.Proofs.Printing

namespace WordExpr

open Range Lexer

/-- The records of an evaluation: the texts of ranges and the values found for them. -/
def Evaluation.records {σ : Type} (e : Evaluation σ) : List (String × Nat) :=
  e.session.findings.toList.map fun f => (Token.compactRange e.tokens f.lo f.hi, f.value)

/-- A record as a line of the log. -/
def LogLine.ofRecord (record : String × Nat) : LogLine :=
  ⟨.evaluator, record.1 ++ " = " ++ toString record.2⟩

/-- The log of an evaluation shows its records, and nothing else but what the lexer matched. -/
theorem Evaluation.log_filter {σ : Type} (e : Evaluation σ) :
    e.log.filter (fun l => l.channel = .evaluator) = e.records.map LogLine.ofRecord := by
  rw [log, records, List.filter_append, List.filter_eq_nil_iff.mpr, List.nil_append,
    List.filter_eq_self.mpr, List.map_map]
  · rfl
  · intro l hl
    obtain ⟨f, -, rfl⟩ := List.mem_map.mp hl
    rfl
  · intro l hl
    obtain ⟨m, -, rfl⟩ := List.mem_map.mp hl
    exact Bool.false_ne_true

/-! ## Counting tokens -/

namespace Token

/-- How many operands, opening brackets and operators there are among tokens. -/
def parts (ts : List Token) : Nat :=
  ts.countP (fun t => t.kind.isOperand) + ts.countP (fun t => t.kind = .lparen)
    + ts.countP (fun t => t.kind.isOperator)

variable {t first last : Token} {ts us : List Token}

theorem parts_append : parts (ts ++ us) = parts ts + parts us := by
  simp only [parts, List.countP_append]
  omega

theorem parts_cons :
    parts (t :: ts) = parts ts + if t.kind = .rparen then 0 else 1 := by
  simp only [parts, List.countP_cons]
  cases t.kind <;> simp [TokenKind.isOperand, TokenKind.isOperator] <;> omega

theorem parts_cons_of_ne (h : t.kind ≠ .rparen) : parts (t :: ts) = parts ts + 1 := by
  rw [parts_cons, if_neg h]

theorem parts_bracketed (hfirst : first.kind = .lparen) (hlast : last.kind = .rparen) :
    parts (first :: (ts ++ [last])) = parts ts + 1 := by
  rw [parts_cons_of_ne (by rw [hfirst]; decide), parts_append, parts_cons, if_pos hlast]
  rfl

/-- Tokens that leave as many brackets open as before have as many opening brackets as closing
    ones. -/
theorem countP_brackets {depth after : Nat} (h : depthAfter depth ts = some after) :
    depth + ts.countP (fun t => t.kind = .lparen)
      = after + ts.countP (fun t => t.kind = .rparen) := by
  induction ts generalizing depth with
  | nil =>
    cases h
    rfl
  | cons t ts ih =>
    obtain ⟨next, hstep, hrest⟩ := Option.bind_eq_some_iff.mp h
    have htail := ih hrest
    simp only [List.countP_cons]
    cases hk : t.kind with
    | lparen =>
      rw [hk] at hstep
      cases hstep
      simp
      omega
    | rparen =>
      rw [hk] at hstep
      cases depth with
      | zero => cases hstep
      | succ depth =>
        cases hstep
        simp
        omega
    | _ =>
      rw [hk] at hstep
      cases hstep
      simpa using htail

end Token

/-! ## The findings of an evaluation -/

namespace EvalM

variable {σ α β ε : Type} {P : Finding → Prop} {n k : Nat}

/-- From this session to this outcome findings were added that have the property, and `n` of
    them if it is a value. -/
def TracedTo (P : Finding → Prop) (n : Nat) (before : Session σ) :
    EStateM.Result EvalError (Session σ) α → Prop
  | .ok _ last => ∃ fs, last.findings.toList = before.findings.toList ++ fs
      ∧ (∀ f ∈ fs, P f) ∧ fs.length = n
  | .error _ last => ∃ fs, last.findings.toList = before.findings.toList ++ fs ∧ ∀ f ∈ fs, P f

/-- In every session the evaluation adds findings that have the property, and `n` of them if it
    has a value. -/
def Traces (P : Finding → Prop) (n : Nat) (m : EvalM σ α) : Prop :=
  ∀ state, TracedTo P n state (m state)

theorem traces_pure (a : α) : Traces P 0 (pure a : EvalM σ α) :=
  fun _ => ⟨[], (List.append_nil _).symm, nofun, rfl⟩

theorem traces_throw (e : EvalError) (n : Nat) : Traces P n (throw e : EvalM σ α) :=
  fun _ => ⟨[], (List.append_nil _).symm, nofun⟩

theorem traces_lift (f : ε → EvalError) (x : Except ε α) : Traces P 0 (lift f x : EvalM σ α) := by
  cases x with
  | ok a => exact traces_pure a
  | error e => exact traces_throw (f e) 0

theorem traces_ask (resolver : Option (Resolver σ)) (name : String) :
    Traces P 0 (ask resolver name) := by
  cases resolver with
  | none => exact traces_pure none
  | some resolve => exact fun _ => ⟨[], (List.append_nil _).symm, nofun, rfl⟩

/-- What is found later comes behind what was found before. -/
theorem TracedTo.after {first second : Session σ} {fs : List Finding}
    {outcome : EStateM.Result EvalError (Session σ) α}
    (hadded : second.findings.toList = first.findings.toList ++ fs) (hfs : ∀ f ∈ fs, P f)
    (h : TracedTo P n second outcome) : TracedTo P (fs.length + n) first outcome := by
  cases outcome with
  | ok a last =>
    obtain ⟨gs, hadded', hgs, rfl⟩ := h
    refine ⟨fs ++ gs, ?_, List.forall_mem_append.mpr ⟨hfs, hgs⟩, List.length_append⟩
    rw [hadded', hadded, List.append_assoc]
  | error e last =>
    obtain ⟨gs, hadded', hgs⟩ := h
    refine ⟨fs ++ gs, ?_, List.forall_mem_append.mpr ⟨hfs, hgs⟩⟩
    rw [hadded', hadded, List.append_assoc]

theorem Traces.bind {m : EvalM σ α} {f : α → EvalM σ β} (hm : Traces P n m)
    (hf : ∀ a, Traces P k (f a)) : Traces P (n + k) (m >>= f) := by
  intro state
  have hfirst := hm state
  cases hrun : m state with
  | error e next =>
    rw [hrun] at hfirst
    rw [bind_of_error hrun]
    exact hfirst
  | ok a next =>
    rw [hrun] at hfirst
    obtain ⟨fs, hadded, hfs, rfl⟩ := hfirst
    rw [bind_of_ok hrun]
    exact (hf a next).after hadded hfs

theorem noted_of_ok {m : EvalM σ Nat} {v : Nat} {state next : Session σ}
    (h : m state = .ok v next) (lo hi : Nat) :
    noted lo hi m state = .ok v { next with findings := next.findings.push ⟨lo, hi, v⟩ } := by
  rw [noted, bind_of_ok h]
  rfl

/-- Noting a value adds one finding, which has the property if all that can be noted has it. -/
theorem Traces.noted {m : EvalM σ Nat} {lo hi : Nat} (hm : Traces P n m)
    (hP : ∀ state v last, EvalM.noted lo hi m state = .ok v last → P ⟨lo, hi, v⟩) :
    Traces P (n + 1) (EvalM.noted lo hi m) := by
  intro state
  have hfirst := hm state
  cases hrun : m state with
  | error e next =>
    rw [hrun] at hfirst
    rw [EvalM.noted, bind_of_error hrun]
    exact hfirst
  | ok v next =>
    rw [hrun] at hfirst
    obtain ⟨fs, hadded, hfs, rfl⟩ := hfirst
    have hnoted := noted_of_ok hrun lo hi
    rw [hnoted]
    refine ⟨fs ++ [⟨lo, hi, v⟩], ?_, ?_, List.length_append⟩
    · rw [Array.toList_push, hadded, List.append_assoc]
    · exact List.forall_mem_append.mpr
        ⟨hfs, List.forall_mem_singleton.mpr (hP state v _ hnoted)⟩

end EvalM

/-- The range of a finding holds an expression that does not use up so many levels of nesting,
    and the value is its meaning. -/
def Finding.IsMeaning (w : Width) (known : String → Option Int) (ts : Array Token)
    (levels : Nat) (f : Finding) : Prop :=
  ∃ u : Tree Token, u.IsExpression ∧ u.nesting < levels ∧ Holds ts f.lo f.hi u
    ∧ u.meaning w known = .ok f.value

namespace Setting

open EvalM

variable {σ : Type} {s : Setting σ} {w : Width} {maxDepth maxTokens : Int}
  {resolver : Option (String → Option Int)} {ts : Array Token} {levels lo hi v : Nat}

/-! ## What is found in a range -/

theorem traces_operand {P : Finding → Prop} (a : Token) (index : Nat) :
    Traces P 0 (s.operand a index) := by
  unfold operand
  split
  · exact traces_lift _ _
  · exact traces_lift _ _
  · refine Traces.bind (n := 0) (k := 0) (traces_ask s.resolver _) fun value? => ?_
    cases value? with
    | none => exact traces_throw _ 0
    | some value => exact traces_lift _ _
  · exact traces_throw _ 0

theorem traces_applyAt {P : Finding → Prop} (index lhs rhs : Nat) :
    Traces P 0 (s.applyAt ts index lhs rhs) :=
  (traces_lift _ _).bind fun _ => traces_lift _ _

/-- A range with a value holds an expression, and the value is its meaning. -/
theorem isMeaning_of_evalPlain (hts : ∀ a ∈ ts, a.Lexable) (hs : hi ≤ ts.size)
    {state last : Session Unit}
    (h : (stateless w maxDepth resolver).evalPlain ts levels lo hi state = .ok v last) :
    Finding.IsMeaning w (knownBy resolver) ts levels ⟨lo, hi, v⟩ := by
  obtain ⟨u, hu, hholds, hnesting⟩ :=
    exists_holds_of_evalPlain (fun a ha => (hts a ha).eq_spelled) hs h
  exact ⟨u, hu, hnesting, hholds, (yields_evalPlain hts hholds hu hnesting).eq_ok h⟩

/-- Evaluating a range finds meanings of expressions only, and one for each part of the range
    if the range has a value. -/
theorem traces_evalPlain (hts : ∀ a ∈ ts, a.Lexable) {limit : Nat} (hs : hi ≤ ts.size)
    (hle : levels ≤ limit) :
    Traces (Finding.IsMeaning w (knownBy resolver) ts limit) (Token.parts (slice ts lo hi))
      ((stateless w maxDepth resolver).evalPlain ts levels lo hi) := by
  have hmeaning (levels lo hi : Nat) (hs : hi ≤ ts.size) (hle : levels ≤ limit)
      (state : Session Unit) (v : Nat) (last : Session Unit)
      (h : (stateless w maxDepth resolver).evalPlain ts levels lo hi state = .ok v last) :
      Finding.IsMeaning w (knownBy resolver) ts limit ⟨lo, hi, v⟩ := by
    obtain ⟨u, hu, hnesting, hholds, hv⟩ := isMeaning_of_evalPlain hts hs h
    exact ⟨u, hu, Nat.lt_of_lt_of_le hnesting hle, hholds, hv⟩
  induction levels, lo, hi, hs using range_induction with
  | deep lo hi hs =>
    rw [evalPlain_zero]
    exact traces_throw _ _
  | empty levels lo hi hs hempty =>
    rw [evalPlain_empty hempty]
    exact traces_throw _ _
  | operand levels lo hlt =>
    have hrun := hmeaning (levels + 1) lo (lo + 1) hlt hle
    rw [evalPlain_operand hlt] at hrun ⊢
    rw [slice_singleton hlt]
    cases hop : ts[lo].kind.isOperand with
    | true =>
      rw [Token.parts_cons_of_ne fun h => by rw [h] at hop; cases hop]
      exact (traces_operand ts[lo] lo).noted hrun
    | false =>
      rw [operand_of_not_isOperand hop]
      exact traces_throw _ _
  | bracketed levels lo hi hs hseveral hb ih =>
    obtain ⟨hfirst, hlast, -⟩ := (isBracketed_eq_true_iff hseveral hs).mp hb
    have hrun := hmeaning (levels + 1) lo hi hs hle
    rw [evalPlain_bracketed hseveral hb] at hrun ⊢
    rw [slice_ends hseveral hs, Token.parts_bracketed hfirst hlast]
    exact (ih (Nat.le_of_succ_le hle)).noted hrun
  | noOperator levels lo hi hs hseveral hb hm =>
    rw [evalPlain_noOperator hseveral hb hm]
    exact traces_throw _ _
  | split levels lo hi hs op hseveral hb hm ihl ihr =>
    obtain ⟨hlo, hhi⟩ := mainOperator?_bounds hm
    obtain ⟨a, ha, hop⟩ := exists_isOperator (by omega) hs hm
    have hrun := hmeaning (levels + 1) lo hi hs hle
    rw [evalPlain_split hseveral hb hm] at hrun ⊢
    obtain ⟨hlt, rfl⟩ := Array.getElem?_eq_some_iff.mp ha
    rw [slice_split hlo hhi hs, Token.parts_append,
      Token.parts_cons_of_ne fun h => by rw [h] at hop; cases hop]
    -- Both operands leave their findings before the operator leaves its own.
    exact ((ihl hle).bind fun left => (ihr (Nat.le_of_succ_le hle)).bind fun right =>
      traces_applyAt op left right).noted hrun

/-- The last finding of an expression with a value is that of the whole expression. -/
theorem back?_of_runTree {t : Tree Token} {state last : Session σ}
    (h : s.runTree levels lo t state = .ok v last) :
    last.findings.back? = some ⟨lo, lo + t.tokens.length, v⟩ := by
  have hnoted {lo hi : Nat} {m : EvalM σ Nat} (h : noted lo hi m state = .ok v last) :
      last.findings.back? = some ⟨lo, hi, v⟩ := by
    obtain ⟨next, hnext⟩ := noted_eq_ok h
    rw [noted_of_ok hnext] at h
    cases h
    exact Array.back?_push
  cases levels with
  | zero =>
    rw [runTree] at h
    cases h
  | succ levels =>
    cases t with
    | leaf a =>
      rw [runTree] at h
      exact hnoted h
    | group t =>
      rw [runTree] at h
      exact hnoted h
    | node op l r =>
      rw [runTree] at h
      exact hnoted h

/-! ## Texts -/

theorem traces_evalTokens (hts : ∀ a ∈ ts, a.Lexable) :
    Traces (Finding.IsMeaning w (knownBy resolver) ts
        ((stateless w maxDepth resolver).levels 0)) (Token.parts ts.toList)
      ((stateless w maxDepth resolver).evalTokens ts) := by
  rw [evalTokens, evalRange, evalLevels_eq_evalPlain, ← slice_size]
  exact traces_evalPlain hts (Nat.le_refl _) (Nat.le_refl _)

/-- What is found for a range is the value of its text on its own. -/
theorem valueOf_compactRange {text : String} {f : Finding}
    (hlex : tokenize text maxTokens = .ok ts)
    (hf : Finding.IsMeaning w (knownBy resolver) ts
      ((stateless w maxDepth resolver).levels 0) f) :
    (stateless w maxDepth resolver).valueOf (Token.compactRange ts f.lo f.hi) maxTokens
      = .ok f.value := by
  obtain ⟨u, hu, hnesting, hholds, hv⟩ := hf
  have hlen : (u.tokens.length : Int) ≤ maxTokens := by
    have hsize := hholds.fits
    have hhi := hholds.hi_eq
    have hpos := u.tokens_length_pos
    have hmax := size_le_of_tokenize hlex (by omega)
    omega
  have hrelex : tokenize (Token.compactRange ts f.lo f.hi) maxTokens = .ok u.tokens.toArray := by
    show tokenize (Token.compact (slice ts f.lo f.hi)) maxTokens = _
    rw [hholds.tokens]
    exact tokenize_compact_of_lexable (hholds.lexable (lexable_of_tokenize hlex)) u.apart_tokens
      hlen
  have hdeep : (u.nesting : Int) ≤ maxDepth := lt_levels_iff.mp hnesting
  rw [valueOf_of_tokens hrelex hu rfl hdeep, hv]
  rfl

theorem tokens_of_evaluate {text : String} {state : σ}
    (hlex : tokenize text maxTokens = .ok ts) : (s.evaluate text maxTokens state).tokens = ts := by
  have hlexing : (lex text maxTokens).result = .ok ts := hlex
  cases hrun : s.evalTokens ts (.start state) with
  | ok v last =>
    rw [evaluate_of_ok hlex hrun]
    simp only [Evaluation.tokens, hlexing]
  | error e last =>
    rw [evaluate_of_error hlex hrun]
    simp only [Evaluation.tokens, hlexing]

/-- What is found in an evaluation is meanings of expressions, one for each part of the text if
    it has a value, and the last one for the whole of it. -/
theorem findings_of_evaluate {text : String} (hlex : tokenize text maxTokens = .ok ts) :
    let e := (stateless w maxDepth resolver).evaluate text maxTokens ()
    (∀ f ∈ e.session.findings.toList, Finding.IsMeaning w (knownBy resolver) ts
      ((stateless w maxDepth resolver).levels 0) f)
    ∧ ∀ v, e.result = .ok v → e.session.findings.toList.length = Token.parts ts.toList
        ∧ e.session.findings.back? = some ⟨0, ts.size, v⟩ := by
  have hts := lexable_of_tokenize hlex
  have htraces : Traces (Finding.IsMeaning w (knownBy resolver) ts
        ((stateless w maxDepth resolver).levels 0)) (Token.parts ts.toList)
      ((stateless w maxDepth resolver).evalTokens ts) := traces_evalTokens hts
  have htraced := htraces (.start ())
  cases hrun : (stateless w maxDepth resolver).evalTokens ts (.start ()) with
  | error x last =>
    rw [hrun] at htraced
    obtain ⟨_, rfl, hfindings⟩ := htraced
    rw [evaluate_of_error hlex hrun]
    exact ⟨hfindings, nofun⟩
  | ok v last =>
    rw [hrun] at htraced
    obtain ⟨_, rfl, hfindings, hlen⟩ := htraced
    rw [evaluate_of_ok hlex hrun]
    refine ⟨hfindings, ?_⟩
    rintro _ ⟨⟩
    -- A value is that of an expression, which leaves its own finding behind those of its parts.
    obtain ⟨t, ht, htree, -⟩ := exists_tokens_of_evalTokens hts hrun
    rw [evalTokens_of_tokens ht htree] at hrun
    have hback := back?_of_runTree hrun
    rw [htree, Array.length_toList, Nat.zero_add] at hback
    exact ⟨hlen, hback⟩

/-- Records of meanings have their values on their own. -/
theorem valueOf_of_mem_records {text : String} {e : Evaluation Unit}
    (hlex : tokenize text maxTokens = .ok ts) (htokens : e.tokens = ts)
    (hfindings : ∀ f ∈ e.session.findings.toList, Finding.IsMeaning w (knownBy resolver) ts
      ((stateless w maxDepth resolver).levels 0) f) :
    ∀ record ∈ e.records,
      (stateless w maxDepth resolver).valueOf record.1 maxTokens = .ok record.2 := by
  intro record hrecord
  obtain ⟨f, hf, rfl⟩ := List.mem_map.mp hrecord
  rw [htokens]
  exact valueOf_compactRange hlex (hfindings f hf)

/-- The trace of an evaluation is sound and complete. The log shows the records of the evaluation
    line by line. Whether the text has a value or not, the text of each record has the value of
    the record on its own, under the same limits. And if the text has a value, it has as many
    records as operands, pairs of brackets and operators, the last of which is for the whole
    text. -/
theorem trace_sound_and_complete (w : Width) (maxDepth maxTokens : Int)
    (resolver : Option (String → Option Int)) (text : String) :
    let s := stateless w maxDepth resolver
    let e := s.evaluate text maxTokens ()
    e.log.filter (fun l => l.channel = .evaluator) = e.records.map LogLine.ofRecord
    ∧ (∀ record ∈ e.records, s.valueOf record.1 maxTokens = .ok record.2)
    ∧ ∀ v, e.result = .ok v → ∃ ts, tokenize text maxTokens = .ok ts
        ∧ ts.countP (fun t => t.kind = .lparen) = ts.countP (fun t => t.kind = .rparen)
        ∧ e.records.length = ts.countP (fun t => t.kind.isOperand)
            + ts.countP (fun t => t.kind = .lparen) + ts.countP (fun t => t.kind.isOperator)
        ∧ e.records.getLast? = some (Token.compact ts.toList, v) := by
  intro s e
  refine ⟨e.log_filter, ?_⟩
  cases hlex : tokenize text maxTokens with
  | error x =>
    -- Nothing is evaluated, so that there are no records.
    have he : e = ⟨lex text maxTokens, .start (), .error (.expr (.lex x))⟩ :=
      evaluate_of_lexError hlex
    rw [he]
    exact ⟨nofun, nofun⟩
  | ok ts =>
    have htokens : e.tokens = ts := tokens_of_evaluate hlex
    obtain ⟨hfindings, hvalue⟩ := findings_of_evaluate hlex
    refine ⟨valueOf_of_mem_records hlex htokens hfindings, fun v hv => ?_⟩
    obtain ⟨hlen, hback⟩ := hvalue v hv
    refine ⟨ts, rfl, ?_, ?_, ?_⟩
    · obtain ⟨us, hus, t, ht, htree, -⟩ := exists_expression_of_valueOf hv
      obtain rfl := tokenize_unique hlex hus
      have hpairs := Token.countP_brackets (Tree.depthAfter_tokens ht.2 0)
      rw [← Array.countP_toList, ← Array.countP_toList, ← htree]
      omega
    · rw [Evaluation.records, List.length_map, hlen, Token.parts, Array.countP_toList,
        Array.countP_toList, Array.countP_toList]
    · rw [Evaluation.records, htokens, List.getLast?_map, Array.getLast?_toList, hback,
        ← slice_size]
      rfl

/-- `8/($a-2)*3`, where `$a` is 4, has a record for each of its operands and operators and for
    the brackets. Where `$a` is 2, the quotient fails, and the record of the brackets is sound
    all the same. -/
theorem trace_of_failing_quotient :
    let known (a : Int) (name : String) : Option Int := if name = "a" then some a else none
    let s (a : Int) := stateless .w32 3 (some (known a))
    (∃ ts, tokenize "8/($a-2)*3" 9 = .ok ts
      ∧ ((s 4).evaluate "8/($a-2)*3" 9 ()).records.length = ts.countP (fun t => t.kind.isOperand)
          + ts.countP (fun t => t.kind = .lparen) + ts.countP (fun t => t.kind.isOperator))
    ∧ ((s 2).evaluate "8/($a-2)*3" 9 ()).result = .error (.expr (.zeroDivisor .quotient))
    ∧ (s 2).valueOf "($a-2)" 9 = .ok 0 := by
  intro known s
  obtain ⟨ts, hlex, -, hlen, -⟩ :=
    (trace_sound_and_complete .w32 3 9 (some (known 4)) "8/($a-2)*3").2.2 12 (by decide +kernel)
  refine ⟨⟨ts, hlex, hlen⟩, by decide +kernel, ?_⟩
  exact (trace_sound_and_complete .w32 3 9 (some (known 2)) "8/($a-2)*3").2.1 ("($a-2)", 0)
    (by decide +kernel)

end Setting

end WordExpr
