/-
  WordExpr.Proofs.Reports

  What a check says is exact. A check takes the lines in order. What it knows at a line
  accounts for the results of the lines before it (`Program.Checked.Accounts`), which one more
  line keeps true, whether it is skipped or has a result (`Program.checkFrom_of_results`). The
  check stops only at a case line that is no case.

  How a complaint is worded is said apart from what prints it, one constructor for each kind
  (`Program.Complaint.Worded`). The complaints about lines are determined by the lines
  (`Program.Reports.unique`).

  So what is printed, the counts and the exit code agree with the results, whatever lines there
  are and in whatever order (`Program.check_exact`).
-/
import WordExpr.Proofs.Passing

namespace WordExpr.Program

open Text

/-- Is this the result of a case whose text has another value? -/
def CaseResult.isMismatched : CaseResult → Bool
  | mismatched _ _ _ => true
  | _ => false

/-- Is this the result of a case whose text has no value? -/
def CaseResult.isFailed : CaseResult → Bool
  | failed _ => true
  | _ => false

variable {w : Width} {regs : RegisterFile} {line : String} {lines : List String}
  {r : CaseResult} {rs prior : List Complaint} {n : Nat} {checked : Checked}

/-! ## All lines -/

/-- The results of lines that are numbered from `n` on, each with the number of its line; lines
    that are no case lines have none. -/
inductive Results (w : Width) (regs : RegisterFile) : Nat → List String → List Complaint → Prop
  | nil {n : Nat} : Results w regs n [] []
  | skipped {n : Nat} {line : String} {lines : List String} {rs : List Complaint}
      (hcase : ¬ IsCaseLine line) (hrest : Results w regs (n + 1) lines rs) :
      Results w regs n (line :: lines) rs
  | checked {n : Nat} {line : String} {lines : List String} {r : CaseResult}
      {rs : List Complaint} (hcase : IsCaseLine line) (hresult : HasResult w regs line r)
      (hrest : Results w regs (n + 1) lines rs) :
      Results w regs n (line :: lines) (⟨n, r⟩ :: rs)

/-- What is known in the course of a check when the results so far are these. -/
structure Checked.Accounts (checked : Checked) (rs : List Complaint) : Prop where
  total : checked.tally.total = rs.length
  mismatched : checked.tally.mismatched = rs.countP (·.result.isMismatched)
  failed : checked.tally.failed = rs.countP (·.result.isFailed)
  complaints : checked.complaints.toList = rs.filter (·.result ≠ .passed)

theorem Checked.accounts_start : Checked.start.Accounts [] :=
  ⟨rfl, rfl, rfl, rfl⟩

theorem Tally.total_add (t : Tally) (r : CaseResult) : (t.add r).total = t.total + 1 := by
  cases r <;> simp only [add, total] <;> omega

theorem Tally.mismatched_add (t : Tally) (r : CaseResult) :
    (t.add r).mismatched = t.mismatched + if r.isMismatched then 1 else 0 := by
  cases r <;> rfl

theorem Tally.failed_add (t : Tally) (r : CaseResult) :
    (t.add r).failed = t.failed + if r.isFailed then 1 else 0 := by
  cases r <;> rfl

/-- One more result is accounted for. -/
theorem Checked.Accounts.add (h : checked.Accounts prior) (n : Nat) (r : CaseResult)
    (log : List LogLine) : (checked.add n r log).Accounts (prior ++ [⟨n, r⟩]) := by
  refine ⟨?_, ?_, ?_, ?_⟩
  · simp only [Checked.add, Tally.total_add, h.total, List.length_append, List.length_singleton]
  · simp only [Checked.add, Tally.mismatched_add, h.mismatched, List.countP_append,
      List.countP_singleton]
  · simp only [Checked.add, Tally.failed_add, h.failed, List.countP_append,
      List.countP_singleton]
  · rw [List.filter_append, ← h.complaints]
    by_cases hpassed : r = .passed
    · simp [Checked.add, hpassed]
    · simp [Checked.add, hpassed]

/-- Checking lines that have results comes to the lines behind them, and accounts for the
    results. -/
theorem checkFrom_of_results (hbits : regs.bits = w.size) {before : List String}
    (h : Results w regs n before rs) (hchecked : checked.Accounts prior) (rest : List String) :
    ∃ next, checkFrom regs n (before ++ rest) checked
        = checkFrom regs (n + before.length) rest next
      ∧ next.Accounts (prior ++ rs) := by
  induction h generalizing checked prior with
  | nil =>
    refine ⟨checked, rfl, ?_⟩
    rwa [List.append_nil]
  | @skipped n line lines rs hcase _ ih =>
    obtain ⟨next, hfrom, hnext⟩ := ih hchecked
    have hnumber : n + (line :: lines).length = n + 1 + lines.length := by
      rw [List.length_cons]
      omega
    refine ⟨next, ?_, hnext⟩
    rw [List.cons_append, checkFrom, checkLine_of_not_case hcase, hnumber]
    exact hfrom
  | @checked n line lines r rs _ hresult _ ih =>
    obtain ⟨log, hstep⟩ := checkLine_of_hasResult hbits hresult n checked
    obtain ⟨next, hfrom, hnext⟩ := ih (hchecked.add n r log)
    have hnumber : n + (line :: lines).length = n + 1 + lines.length := by
      rw [List.length_cons]
      omega
    refine ⟨next, ?_, ?_⟩
    · rw [List.cons_append, checkFrom, hstep, hnumber]
      exact hfrom
    · rwa [List.append_assoc, List.singleton_append] at hnext

/-- Either all lines have results, or the first case line that is no case comes behind lines that
    have them. -/
theorem results_or_rejected (hbits : regs.bits = w.size) (n : Nat) (lines : List String) :
    (∃ rs, Results w regs n lines rs)
      ∨ ∃ before line after e rs, lines = before ++ line :: after ∧ Results w regs n before rs
          ∧ IsCaseLine line ∧ Case.parse line = .error e := by
  induction lines generalizing n with
  | nil => exact .inl ⟨[], .nil⟩
  | cons line lines ih =>
    by_cases hcase : IsCaseLine line
    · cases hparse : Case.parse line with
      | error e => exact .inr ⟨[], line, lines, e, [], rfl, .nil, hcase, hparse⟩
      | ok c =>
        obtain ⟨r, hr⟩ := exists_hasResult hbits hparse
        rcases ih (n + 1) with ⟨rs, hrs⟩ | ⟨before, bad, after, e, rs, rfl, hrs, hbad⟩
        · exact .inl ⟨_, .checked hcase hr hrs⟩
        · exact .inr ⟨line :: before, bad, after, e, _, rfl, .checked hcase hr hrs, hbad⟩
    · rcases ih (n + 1) with ⟨rs, hrs⟩ | ⟨before, bad, after, e, rs, rfl, hrs, hbad⟩
      · exact .inl ⟨rs, .skipped hcase hrs⟩
      · exact .inr ⟨line :: before, bad, after, e, rs, rfl, .skipped hcase hrs, hbad⟩

namespace Results

theorem exists_parse (h : Results w regs n lines rs) :
    ∀ line ∈ lines, IsCaseLine line → ∃ c, Case.parse line = .ok c := by
  induction h with
  | nil => simp
  | skipped hcase _ ih =>
    exact List.forall_mem_cons.mpr ⟨fun hline => absurd hline hcase, ih⟩
  | checked _ hresult _ ih =>
    obtain ⟨c, hparse, -⟩ := hresult
    exact List.forall_mem_cons.mpr ⟨fun _ => ⟨c, hparse⟩, ih⟩

theorem length_eq (h : Results w regs n lines rs) :
    rs.length = lines.countP (IsCaseLine ·) := by
  induction h with
  | nil => rfl
  | skipped hcase _ ih => simp [hcase, ih]
  | checked hcase _ _ ih => simp [hcase, ih]

theorem mem_iff (h : Results w regs n lines rs) (k : Nat) (r : CaseResult) :
    ⟨k, r⟩ ∈ rs ↔ ∃ i line, k = n + i ∧ lines[i]? = some line ∧ IsCaseLine line
      ∧ HasResult w regs line r := by
  induction h with
  | nil => simp
  | @skipped n line lines rs hcase _ ih =>
    rw [ih]
    constructor
    · rintro ⟨i, line', rfl, hline⟩
      exact ⟨i + 1, line', by omega, hline⟩
    · rintro ⟨_ | i, line', rfl, hline, hcase', hr⟩
      · obtain rfl : line = line' := by simpa using hline
        exact absurd hcase' hcase
      · exact ⟨i, line', by omega, hline, hcase', hr⟩
  | @checked n line lines r' rs hcase hresult _ ih =>
    rw [List.mem_cons, ih]
    constructor
    · rintro (heq | ⟨i, line', rfl, hline⟩)
      · obtain ⟨rfl, rfl⟩ := Complaint.mk.inj heq
        exact ⟨0, line, rfl, rfl, hcase, hresult⟩
      · exact ⟨i + 1, line', by omega, hline⟩
    · rintro ⟨_ | i, line', rfl, hline, hcase', hr⟩
      · obtain rfl : line = line' := by simpa using hline
        rw [hr.unique hresult]
        exact .inl rfl
      · exact .inr ⟨i, line', by omega, hline, hcase', hr⟩

/-- Results come in the order of the lines. -/
theorem pairwise (h : Results w regs n lines rs) : rs.Pairwise (·.line < ·.line) := by
  induction h with
  | nil => exact .nil
  | skipped _ _ ih => exact ih
  | @checked n line lines r rs _ _ hrest ih =>
    refine .cons ?_ ih
    rintro ⟨k, r'⟩ hmem
    obtain ⟨i, -, rfl, -⟩ := (hrest.mem_iff k r').mp hmem
    show n < n + 1 + i
    omega

theorem all_passed_iff (h : Results w regs n lines rs) :
    (∀ x ∈ rs, x.result = .passed)
      ↔ ∀ line ∈ lines, IsCaseLine line → HasResult w regs line .passed := by
  induction h with
  | nil => simp
  | skipped hcase _ ih =>
    rw [List.forall_mem_cons, ih]
    exact ⟨fun hrest => ⟨fun hline => absurd hline hcase, hrest⟩, And.right⟩
  | checked hcase hresult _ ih =>
    rw [List.forall_mem_cons, List.forall_mem_cons, ih]
    refine and_congr_left fun _ => ⟨?_, ?_⟩
    · rintro rfl
      exact fun _ => hresult
    · exact fun hpassed => hresult.unique (hpassed hcase)

end Results

/-! ## What is printed -/

/-- A number at the right end of a field of at least this width, which is blank before it. -/
def EndsField (width n : Nat) (field : String) : Prop :=
  field.length = max width (toString n).length
    ∧ ∃ blanks, field = String.ofList (List.replicate blanks ' ') ++ toString n

/-- The wording of a complaint: the line number in a field of five, and what is wrong with the
    case. That a case passes is no complaint, and has no wording. -/
inductive Complaint.Worded : Complaint → String → Prop
  | failed {n : Nat} {field : String} (hfield : EndsField 5 n field) (e : ExprError) :
      Worded ⟨n, .failed e⟩ ("  " ++ field ++ " | FAIL " ++ e.message ++ "\n")
  | mismatched {n : Nat} {field : String} (hfield : EndsField 5 n field) (expected got : Nat)
      (text : String) :
      Worded ⟨n, .mismatched expected got text⟩
        ("  " ++ field ++ " | MISMATCH expected " ++ toString expected ++ ", got "
          ++ toString got ++ ": " ++ text ++ "\n")

theorem endsField_padStart (width n : Nat) : EndsField width n (padStart width (toString n)) := by
  refine ⟨?_, _, rfl⟩
  rw [padStart, String.length_append, String.length_ofList, List.length_replicate]
  omega

/-- The head of a report goes on with the first word about the case. -/
theorem Complaint.head_append (c : Complaint) (word : String) :
    report.head c ++ word = "  " ++ padStart 5 (toString c.line) ++ (" | " ++ word) := by
  rw [report.head, String.append_assoc]

theorem Complaint.worded_report {c : Complaint} (h : c.result ≠ .passed) : c.Worded c.report := by
  obtain ⟨n, r⟩ := c
  have hfield := endsField_padStart 5 n
  cases r with
  | passed => exact absurd rfl h
  | mismatched expected got text =>
    simp only [report, head_append, String.reduceAppend]
    exact .mismatched hfield expected got text
  | failed e =>
    simp only [report, head_append, String.reduceAppend]
    exact .failed hfield e

theorem renderPieces_append (elapsed : String) (ps qs : List Piece) :
    renderPieces elapsed (ps ++ qs) = renderPieces elapsed ps ++ renderPieces elapsed qs := by
  rw [renderPieces, List.map_append, String.join_append, renderPieces, renderPieces]

theorem renderPieces_reports (elapsed : String) (cs : List Complaint) :
    renderPieces elapsed (cs.map fun c => .text c.report)
      = String.join (cs.map Complaint.report) := by
  rw [renderPieces, List.map_map]
  rfl

theorem renderPieces_summary (elapsed : String) (t : Tally) :
    renderPieces elapsed (summary t)
      = "\n" ++ toString t.total ++ " cases: " ++ toString t.passed ++ " passed, "
        ++ toString t.mismatched ++ " mismatched, " ++ toString t.failed ++ " failed ("
        ++ elapsed ++ ")\n" := by
  simp only [renderPieces, summary, List.map_cons, List.map_nil, String.join_cons,
    String.join_nil, String.append_empty, String.append_assoc]

/-! ## What a check says -/

/-- The complaints about lines: in increasing order of the line numbers, one for each case that
    does not pass. -/
structure Reports (w : Width) (regs : RegisterFile) (lines : List String)
    (cs : List Complaint) : Prop where
  increasing : cs.Pairwise (·.line < ·.line)
  mem_iff (n : Nat) (r : CaseResult) : ⟨n, r⟩ ∈ cs ↔ r ≠ .passed
    ∧ ∃ i line, n = i + 1 ∧ lines[i]? = some line ∧ IsCaseLine line ∧ HasResult w regs line r

/-- The run of a check over the lines of its file. -/
def runLines (s : CheckSettings) (regs : RegisterFile) (lines : List String) : Run :=
  checkRun s.file (checkLines regs lines).1 (checkLines regs lines).2

theorem Results.reports (h : Results w regs 1 lines rs) :
    Reports w regs lines (rs.filter (·.result ≠ .passed)) := by
  refine ⟨h.pairwise.filter _, fun n r => ?_⟩
  rw [List.mem_filter, h.mem_iff, and_comm, decide_eq_true_iff]
  simp only [Nat.add_comm 1]

/-- There is only one list of complaints about lines. -/
theorem Reports.unique {cs cs' : List Complaint} (h : Reports w regs lines cs)
    (h' : Reports w regs lines cs') : cs = cs' := by
  have hmem : ∀ c, c ∈ cs ↔ c ∈ cs' := fun ⟨n, r⟩ => (h.mem_iff n r).trans (h'.mem_iff n r).symm
  have hnodup : ∀ {l : List Complaint}, l.Pairwise (·.line < ·.line) → l.Nodup := by
    intro l hl
    refine hl.imp ?_
    rintro a _ hlt rfl
    exact Nat.lt_irrefl _ hlt
  refine List.Perm.eq_of_pairwise ?_ h.increasing h'.increasing
    ((List.perm_ext_iff_of_nodup (hnodup h.increasing) (hnodup h'.increasing)).mpr hmem)
  exact fun a b _ _ hab hba => absurd hba (Nat.lt_asymm hab)

/-- The complaints about lines are printed in their wording. -/
theorem Reports.worded {cs : List Complaint} (h : Reports w regs lines cs) :
    ∀ c ∈ cs, c.Worded c.report := by
  rintro ⟨n, r⟩ hc
  obtain ⟨hfault, -⟩ := (h.mem_iff n r).mp hc
  exact Complaint.worded_report hfault

variable {s : CheckSettings}

theorem runLines_of_rejected (hbits : regs.bits = w.size) {before : List String}
    (h : Results w regs 1 before rs) (after : List String) (hcase : IsCaseLine line)
    {e : Case.Failure}
    (hparse : Case.parse line = .error e) :
    (runLines s regs (before ++ line :: after)).printed
        = (rs.filter (·.result ≠ .passed)).map (fun c => .text c.report)
      ∧ (runLines s regs (before ++ line :: after)).failure
        = some (.command (.badCase s.file (before.length + 1) e)) := by
  obtain ⟨next, hfrom, hnext⟩ :=
    checkFrom_of_results hbits h Checked.accounts_start (line :: after)
  have hcheck : checkLines regs (before ++ line :: after)
      = (next, some (.badCase (before.length + 1) e)) := by
    rw [checkLines, hfrom, checkFrom, checkLine_of_rejected hcase hparse, Nat.add_comm]
  rw [List.nil_append] at hnext
  rw [runLines, hcheck, checkRun, ← hnext.complaints]
  exact ⟨rfl, rfl⟩

theorem runLines_of_results (hbits : regs.bits = w.size) (h : Results w regs 1 lines rs) :
    ∃ next, next.Accounts rs ∧ runLines s regs lines = checkRun s.file next none := by
  obtain ⟨next, hfrom, hnext⟩ := checkFrom_of_results hbits h Checked.accounts_start []
  rw [List.append_nil] at hfrom
  rw [List.nil_append] at hnext
  refine ⟨next, hnext, ?_⟩
  rw [runLines, checkLines, hfrom]
  rfl

theorem CaseResult.eq_passed_iff :
    r = .passed ↔ ¬ r.isMismatched = true ∧ ¬ r.isFailed = true := by
  cases r <;> simp [isMismatched, isFailed]

theorem Checked.Accounts.isClean_iff (h : checked.Accounts rs) :
    checked.tally.isClean = true ↔ ∀ x ∈ rs, x.result = .passed := by
  have hsplit : checked.tally.isClean = true
      ↔ checked.tally.mismatched = 0 ∧ checked.tally.failed = 0 := by
    rw [Tally.isClean, decide_eq_true_iff, Tally.total]
    omega
  rw [hsplit, h.mismatched, h.failed, List.countP_eq_zero, List.countP_eq_zero]
  simp only [CaseResult.eq_passed_iff, forall_and]

/-- Results that are no passes are all among the complaints. -/
theorem countP_complaints {p : CaseResult → Bool} (hp : p .passed = false)
    (rs : List Complaint) :
    (rs.filter (·.result ≠ .passed)).countP (fun c => p c.result)
      = rs.countP (fun c => p c.result) := by
  rw [List.countP_filter]
  refine List.countP_congr fun c _ => ?_
  by_cases hpassed : c.result = .passed
  · simp [hpassed, hp]
  · simp [hpassed]

/-- What a check says is exact. If a case line is no case, the check fails and names the first
    such line, with reports on earlier lines alone. Otherwise it reports, in order, on exactly
    the case lines that do not pass, counts the case lines and their results, and ends well
    exactly if every case line passes.

    A report is the wording of a complaint, and what is printed is the reports one after the
    other; behind them, if the check comes to the end, stand the counts. -/
theorem check_exact (hbits : s.bits = some w.size)
    (hregs : buildRegisters s.toRegisterSettings = .ok regs) :
    (∀ contents lines, readLines s.file contents = .ok lines →
      runCheck s contents = runLines s regs lines)
    ∧ (∀ lines, (∃ line ∈ lines, IsCaseLine line ∧ ∃ e, Case.parse line = .error e) →
        ∃ before line after e cs, lines = before ++ line :: after
          ∧ (∀ l ∈ before, IsCaseLine l → ∃ c, Case.parse l = .ok c)
          ∧ IsCaseLine line ∧ Case.parse line = .error e
          ∧ Reports w regs before cs
          ∧ (∀ c ∈ cs, c.Worded c.report)
          ∧ (runLines s regs lines).printed = cs.map (fun c => .text c.report)
          ∧ (∀ verbose elapsed, renderPieces elapsed ((runLines s regs lines).outcome verbose).stdout
            = String.join (cs.map Complaint.report))
          ∧ (runLines s regs lines).failure
            = some (.command (.badCase s.file (before.length + 1) e))
          ∧ (∀ verbose, ((runLines s regs lines).outcome verbose).exit = 1)
          ∧ ((runLines s regs lines).outcome false).stderr
            = "Error: " ++ (s.file ++ ":" ++ toString (before.length + 1) ++ ": " ++ e.message)
              ++ "\n")
    ∧ ∀ lines, (∀ line ∈ lines, IsCaseLine line → ∃ c, Case.parse line = .ok c) →
        ∃ cs t, Reports w regs lines cs
          ∧ (∀ c ∈ cs, c.Worded c.report)
          ∧ (runLines s regs lines).printed = cs.map (fun c => .text c.report) ++ summary t
          ∧ (∀ verbose elapsed, renderPieces elapsed ((runLines s regs lines).outcome verbose).stdout
            = String.join (cs.map Complaint.report)
              ++ ("\n" ++ toString t.total ++ " cases: " ++ toString t.passed ++ " passed, "
                ++ toString t.mismatched ++ " mismatched, " ++ toString t.failed ++ " failed ("
                ++ elapsed ++ ")\n"))
          ∧ (runLines s regs lines).failure = none
          ∧ t.total = lines.countP (IsCaseLine ·)
          ∧ t.passed + t.mismatched + t.failed = t.total
          ∧ t.mismatched = cs.countP (·.result.isMismatched)
          ∧ t.failed = cs.countP (·.result.isFailed)
          ∧ ∀ verbose, ((runLines s regs lines).outcome verbose).exit = 0
              ↔ ∀ line ∈ lines, IsCaseLine line → HasResult w regs line .passed := by
  have hregsBits : regs.bits = w.size := by
    rw [bits_of_buildRegisters hregs, hbits]
    rfl
  refine ⟨fun contents lines => runCheck_of_checkLines hbits hregs, ?_, ?_⟩
  · rintro lines ⟨bad, hbad, hbadCase, e', hrejected⟩
    rcases results_or_rejected hregsBits 1 lines with
      ⟨rs, hrs⟩ | ⟨before, line, after, e, rs, rfl, hrs, hcase, hparse⟩
    · -- If all lines had results, the bad one would be a case.
      obtain ⟨c, hc⟩ := hrs.exists_parse bad hbad hbadCase
      rw [hrejected] at hc
      simp at hc
    · obtain ⟨hprinted, hfailure⟩ :=
        runLines_of_rejected (s := s) hregsBits hrs after hcase hparse
      refine ⟨before, line, after, e, _, rfl, hrs.exists_parse, hcase, hparse, hrs.reports,
        hrs.reports.worded, hprinted, ?_, hfailure, ?_, ?_⟩
      · intro verbose elapsed
        rw [Run.outcome, hprinted]
        exact renderPieces_reports elapsed _
      · intro verbose
        rw [Run.outcome, hfailure]
        rfl
      · rw [Run.outcome, hfailure]
        rfl
  · intro lines hparse
    rcases results_or_rejected hregsBits 1 lines with
      ⟨rs, hrs⟩ | ⟨before, line, after, e, rs, rfl, -, hcase, hrejected⟩
    · -- The check comes to the end, and what it knows there accounts for all results.
      obtain ⟨next, hnext, hrun⟩ := runLines_of_results (s := s) hregsBits hrs
      have hprinted : (runLines s regs lines).printed
          = (rs.filter (·.result ≠ .passed)).map (fun c => .text c.report) ++ summary next.tally := by
        rw [hrun, checkRun, ← hnext.complaints]
      refine ⟨rs.filter (·.result ≠ .passed), next.tally, hrs.reports, hrs.reports.worded, hprinted,
        ?_, ?_, ?_, rfl, ?_, ?_, ?_⟩
      · intro verbose elapsed
        rw [Run.outcome, hprinted, renderPieces_append, renderPieces_reports, renderPieces_summary]
      · rw [hrun, checkRun]
      · rw [hnext.total, hrs.length_eq]
      · rw [hnext.mismatched, countP_complaints rfl]
      · rw [hnext.failed, countP_complaints rfl]
      · intro verbose
        have hexit : ((checkRun s.file next none).outcome verbose).exit
            = if next.tally.isClean then 0 else 1 := rfl
        rw [← hrs.all_passed_iff, ← hnext.isClean_iff, hrun, hexit]
        simp
    · obtain ⟨c, hc⟩ := hparse line (by simp) hcase
      rw [hrejected] at hc
      simp at hc

/-- Three checks. Every case of the first one passes, with a comment and a blank line between
    them. The second one has a case that passes, one that has another value and one that has
    none. The third one ends at its second line, of three. -/
theorem check_exact_of_mixed_lines :
    let check := fun lines =>
      (runLines ⟨⟨[], some 32⟩, "cases"⟩ (.create RegisterFile.riscv 32) lines).outcome false
    buildRegisters ⟨[], some 32⟩ = .ok (.create RegisterFile.riscv 32)
    ∧ (check ["3 1+2\n", "# 5 1+2\n", "\n", "-1 0xffffffff"]).exit = 0
    ∧ ((check ["3 1+2\n", "# 5 1+2\n", "\n", "5 1+2\n", "0 1/0"]).exit ≠ 0
      ∧ (check ["3 1+2\n", "# 5 1+2\n", "\n", "5 1+2\n", "0 1/0"]).stdout
        = [.text "      4 | MISMATCH expected 5, got 3: 1+2\n",
          .text "      5 | FAIL division by zero\n",
          .text "\n3 cases: 1 passed, 1 mismatched, 1 failed (", .elapsed, .text ")\n"])
    ∧ (check ["5 1+2\n", "7\n", "0 1/0"]).exit = 1
    ∧ (check ["5 1+2\n", "7\n", "0 1/0"]).stdout
      = [.text "      1 | MISMATCH expected 5, got 3: 1+2\n"]
    ∧ (check ["5 1+2\n", "7\n", "0 1/0"]).stderr
      = "Error: cases:2: Malformed case line: '7'\n" := by
  intro check
  have hregs : buildRegisters ⟨[], some 32⟩ = .ok (.create RegisterFile.riscv 32) := rfl
  obtain ⟨-, hrejected, haccepted⟩ :=
    check_exact (w := .w32) (s := ⟨⟨[], some 32⟩, "cases"⟩) rfl hregs
  have hcomment : ¬ IsCaseLine "# 5 1+2\n" := by decide +kernel
  have hblank : ¬ IsCaseLine "\n" := by decide +kernel
  have hcase : IsCaseLine "5 1+2\n" := by decide +kernel
  have hmismatched : HasResult .w32 (.create RegisterFile.riscv 32) "5 1+2\n"
      (.mismatched 5 3 "1+2") := by decide +kernel
  refine ⟨hregs, ?_, ?_, ?_⟩
  · have hresults : Results .w32 (.create RegisterFile.riscv 32) 1
        ["3 1+2\n", "# 5 1+2\n", "\n", "-1 0xffffffff"] [⟨1, .passed⟩, ⟨4, .passed⟩] :=
      .checked (by decide +kernel) (by decide +kernel) (.skipped hcomment (.skipped hblank
        (.checked (by decide +kernel) (by decide +kernel) .nil)))
    obtain ⟨cs, t, -, -, -, -, -, -, -, -, -, hexit⟩ := haccepted _ hresults.exists_parse
    exact (hexit false).mpr (hresults.all_passed_iff.mp (by decide))
  · have hresults : Results .w32 (.create RegisterFile.riscv 32) 1
        ["3 1+2\n", "# 5 1+2\n", "\n", "5 1+2\n", "0 1/0"]
        [⟨1, .passed⟩, ⟨4, .mismatched 5 3 "1+2"⟩, ⟨5, .failed (.zeroDivisor .quotient)⟩] :=
      .checked (by decide +kernel) (by decide +kernel) (.skipped hcomment (.skipped hblank
        (.checked hcase hmismatched (.checked (by decide +kernel) (by decide +kernel) .nil))))
    obtain ⟨cs, ⟨passed, mismatched, failed⟩, hreports, -, hprinted, -, -, htotal, -, hm, hf,
      hexit⟩ := haccepted _ hresults.exists_parse
    obtain rfl := hreports.unique hresults.reports
    obtain rfl : mismatched = 1 := hm
    obtain rfl : failed = 1 := hf
    obtain rfl : passed = 1 := by
      have hthree : passed + 1 + 1 = 3 := htotal.trans hresults.length_eq.symm
      omega
    refine ⟨fun hzero => ?_, hprinted.trans (by decide)⟩
    exact absurd (hresults.all_passed_iff.mpr ((hexit false).mp hzero)) (by decide)
  · have hbad : Case.parse "7\n" = .error (.malformed "7") := by decide +kernel
    have hbadCase : IsCaseLine "7\n" := by decide +kernel
    have hresults : Results .w32 (.create RegisterFile.riscv 32) 1 ["5 1+2\n"]
        [⟨1, .mismatched 5 3 "1+2"⟩] := .checked hcase hmismatched .nil
    obtain ⟨before, line, after, e, cs, hlines, hgood, -, hparse, hreports, -, hprinted, -, -,
      hexit, hstderr⟩ :=
      hrejected ["5 1+2\n", "7\n", "0 1/0"] ⟨"7\n", by simp, hbadCase, _, hbad⟩
    -- The first line that is no case is the second one.
    obtain ⟨rfl, rfl⟩ : before = ["5 1+2\n"] ∧ line = "7\n" := by
      rcases before with _ | ⟨first, _ | ⟨second, rest⟩⟩
      · obtain ⟨rfl, -⟩ := List.cons.inj hlines
        obtain ⟨c, hc⟩ := hresults.exists_parse _ (List.mem_singleton_self _) hcase
        rw [hparse] at hc
        cases hc
      · obtain ⟨rfl, hrest⟩ := List.cons.inj hlines
        obtain ⟨rfl, -⟩ := List.cons.inj hrest
        exact ⟨rfl, rfl⟩
      · obtain ⟨rfl, -⟩ := List.cons.inj (List.cons.inj hlines).2
        obtain ⟨c, hc⟩ := hgood "7\n" (by simp) hbadCase
        rw [hbad] at hc
        cases hc
    obtain rfl := hreports.unique hresults.reports
    obtain rfl := Except.error.inj (hbad.symm.trans hparse)
    exact ⟨hexit false, hprinted.trans (by decide), hstderr.trans (by decide)⟩

end WordExpr.Program
