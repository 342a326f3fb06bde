/-
  WordExpr.Proofs.Assigned

  Assigned registers are what expressions read. A register of the calling convention has its own
  name, with or without `$`, and `x` with its place for names (`denotes_riscv_iff`), and an
  assignment may put a `$` before any of them (`Assignment.denotes_name_iff`). Storing words under
  names in order is a history of a register file (`Program.storeAll_known`), so a register holds
  the last word that was assigned to it (`RegisterFile.contentAfter_operations`), and the text of
  a register has what it holds for a value (`Setting.valueOf_register`).
-/
import WordExpr.Program.Run
import WordExpr.Proofs.Agreement
import WordExpr.Proofs.Registers

namespace WordExpr

open Lexer (tokenize)
open RegisterFile (riscv programCounter hardwired Denotes eq_sigil_append_iff)

variable {w : Width} {items : List String} {as : List Assignment} {a : Assignment}
  {item name register : String}

/-! ## Names of the calling convention -/

namespace RegisterFile

theorem denotes_numbered : ∀ i : Fin 32, Denotes riscv ("x" ++ toString i.val) riscv[i] := by
  decide +kernel

theorem eq_hardwired_of_sigil : ∀ register ∈ riscv ++ [programCounter], ∀ cs,
    register.toList = '$' :: cs → register = hardwired := by
  have hsigils : ∀ register ∈ riscv ++ [programCounter],
      register.toList.head? = some '$' → register = hardwired := by decide
  intro register hregister cs hcs
  exact hsigils register hregister (by rw [hcs, List.head?_cons])

/-- The names of the registers: its own, with or without `$`, and `x` with its place. -/
theorem denotes_riscv_iff :
    Denotes riscv name register
      ↔ register ∈ riscv ++ [programCounter] ∧ (name = register ∨ register = "$" ++ name)
        ∨ ∃ i : Nat, riscv[i]? = some register ∧ name = "x" ++ toString i := by
  constructor
  · intro h
    cases h with
    | own h => exact .inl ⟨h, .inl rfl⟩
    | @another i _ _ halias _ =>
      obtain ⟨hi, hplace | hbare⟩ := halias
      · exact .inr ⟨i, hi, hplace⟩
      · exact .inl ⟨List.mem_append_left _ (List.mem_of_getElem? hi), .inr hbare⟩
  · rintro (⟨hregister, rfl | hbare⟩ | ⟨i, hi, rfl⟩)
    · exact .own hregister
    · have hsigil := eq_sigil_append_iff.mp hbare
      have hzero := eq_hardwired_of_sigil register hregister _ hsigil
      rw [hzero] at hsigil ⊢
      have hname : name = "0" := String.toList_inj.mp (List.cons.inj hsigil).2.symm
      rw [hname]
      decide
    · obtain ⟨hlt, rfl⟩ := List.getElem?_eq_some_iff.mp hi
      exact denotes_numbered ⟨i, hlt⟩

/-- Only the register that is wired to zero has a name that starts with `$`. -/
theorem Denotes.of_sigil {cs : List Char} (h : Denotes riscv name register)
    (hname : name.toList = '$' :: cs) : name = hardwired := by
  rcases denotes_riscv_iff.mp h with ⟨hregister, rfl | hbare⟩ | ⟨i, -, rfl⟩
  · exact eq_hardwired_of_sigil _ hregister _ hname
  · have hsigil := eq_sigil_append_iff.mp hbare
    rw [hname] at hsigil
    have hzero := eq_hardwired_of_sigil register hregister _ hsigil
    rw [hzero] at hsigil
    cases hsigil
  · rw [String.toList_append] at hname
    cases hname

theorem Denotes.ne_empty (h : Denotes riscv name register) : name ≠ "" := by
  rintro rfl
  have hnone : ∀ register, ¬ Denotes riscv "" register := by decide
  exact hnone register h

end RegisterFile

/-! ## Items -/

namespace Assignment

/-- The name in an item as it is written. -/
def writtenName (item : String) : String :=
  String.ofList (Text.strip (item.toList.takeWhile (· ≠ '=')))

theorem name_of_parse {bits : Int} (h : parse bits item = .ok a) :
    a.name = String.ofList (bareName (writtenName item).toList) := by
  unfold parse at h
  simp only at h
  split at h
  · cases h
  split at h
  · cases h
  · cases h
    rw [writtenName, String.toList_ofList]

theorem value_lt_of_parse (h : parse w.size item = .ok a) : a.value < 2 ^ w.size := by
  unfold parse at h
  simp only [Literal.value, Word.reduce_size] at h
  split at h
  · cases h
  split at h
  · cases h
  · rename_i hvalue
    cases h
    split at hvalue
    · cases hvalue
    · obtain rfl := Except.ok.inj hvalue
      exact w.toNat_wrap_lt _

theorem bareName_eq_or (cs : List Char) : cs = bareName cs ∨ cs = '$' :: bareName cs := by
  unfold bareName
  split
  · split
    · exact .inl rfl
    · exact .inr rfl
  · exact .inl rfl

theorem bareName_of_denotes (h : Denotes riscv name register) :
    bareName name.toList = name.toList := by
  unfold bareName
  split
  · rename_i c r hname
    exact if_pos (congrArg String.toList (h.of_sigil hname))
  · rfl

theorem bareName_sigil (hne : name ≠ "") (hother : "$" ++ name ≠ hardwired) :
    bareName ("$" ++ name).toList = name.toList := by
  rw [eq_sigil_append_iff.mp rfl]
  cases hcs : name.toList with
  | nil => exact absurd (String.toList_eq_nil_iff.mp hcs) hne
  | cons c r =>
    refine if_neg fun h => hother (String.toList_inj.mp ?_)
    rw [eq_sigil_append_iff.mp rfl, hcs, h]

/-- Without the `$` that was written before it, a name denotes what some name of a register does
    that it was written from. -/
theorem denotes_bareName_iff {written : String} :
    Denotes riscv (String.ofList (bareName written.toList)) register
      ↔ ∃ bare, (written = bare ∨ written = "$" ++ bare) ∧ Denotes riscv bare register := by
  constructor
  · intro h
    refine ⟨_, ?_, h⟩
    rcases bareName_eq_or written.toList with hsame | hsigil
    · left
      rw [← hsame, String.ofList_toList]
    · right
      rw [eq_sigil_append_iff, String.toList_ofList]
      exact hsigil
  · rintro ⟨bare, rfl | rfl, h⟩
    · rwa [bareName_of_denotes h, String.ofList_toList]
    · by_cases hzero : "$" ++ bare = hardwired
      · -- The hardwired register keeps its `$`, and is what `0` denotes.
        have hsigil := eq_sigil_append_iff.mp hzero.symm
        obtain rfl : bare = "0" := String.toList_inj.mp (List.cons.inj hsigil).2.symm
        obtain rfl := h.unique (show Denotes riscv "0" hardwired by decide)
        decide
      · rwa [bareName_sigil h.ne_empty hzero, String.ofList_toList]

/-- An item names a register by any name of it, before which there may be a `$`. -/
theorem denotes_name_iff {bits : Int} (h : parse bits item = .ok a) :
    Denotes riscv a.name register
      ↔ ∃ bare, (writtenName item = bare ∨ writtenName item = "$" ++ bare)
        ∧ Denotes riscv bare register := by
  rw [name_of_parse h]
  exact denotes_bareName_iff

/-- Items are parsed one by one. -/
theorem mem_of_parseAll {bits : Int} (h : parseAll bits items = .ok as) :
    (∀ item ∈ items, ∃ a ∈ as, parse bits item = .ok a)
    ∧ ∀ a ∈ as, ∃ item ∈ items, parse bits item = .ok a := by
  induction items generalizing as with
  | nil =>
    cases h
    exact ⟨fun _ h => absurd h List.not_mem_nil, fun _ h => absurd h List.not_mem_nil⟩
  | cons item rest ih =>
    rw [parseAll] at h
    split at h
    · cases h
    rename_i a hitem
    split at h
    · cases h
    rename_i as hrest
    cases h
    obtain ⟨hitems, has⟩ := ih hrest
    refine ⟨List.forall_mem_cons.mpr ⟨⟨a, List.mem_cons_self, hitem⟩, fun item' h => ?_⟩,
      List.forall_mem_cons.mpr ⟨⟨item, List.mem_cons_self, hitem⟩, fun a' h => ?_⟩⟩
    · obtain ⟨a', ha', hparse⟩ := hitems item' h
      exact ⟨a', List.mem_cons_of_mem _ ha', hparse⟩
    · obtain ⟨item', hitem', hparse⟩ := has a' h
      exact ⟨item', List.mem_cons_of_mem _ hitem', hparse⟩

/-- The assignment as an operation on a register file. -/
def operation (a : Assignment) : RegisterFile.Operation := .set a.name a.value

/-- The word of the last assignment to a register, or zero if there is none. -/
def lastTo (register : String) (as : List Assignment) : Nat :=
  ((as.reverse.find? fun a => Denotes riscv a.name register).map Assignment.value).getD 0

end Assignment

/-! ## Registers after assignments -/

namespace RegisterFile

theorem lastSet?_operations (as : List Assignment) :
    lastSet? (create riscv w.size).denotes? register (as.map Assignment.operation)
      = (as.reverse.find? fun a => Denotes riscv a.name register).map fun a => (a.value : Int) := by
  induction as using List.reverseRecOn with
  | nil => rfl
  | append_singleton as a ih =>
    rw [List.map_append, List.map_singleton, lastSet?_concat, ih, List.reverse_append,
      List.reverse_singleton, List.singleton_append, Assignment.operation, Operation.valueFor?,
      List.find?_cons]
    by_cases h : Denotes riscv a.name register
    · rw [if_pos (denotes?_create.mpr h), decide_eq_true h]
      rfl
    · rw [if_neg (mt denotes?_create.mp h), decide_eq_false h, Option.none_or]

/-- Assigned words are in the registers as they are. -/
theorem contentAfter_operations (hvalues : ∀ a ∈ as, a.value < 2 ^ w.size)
    (hregister : register ≠ hardwired) :
    contentAfter riscv w (as.map Assignment.operation) register
      = Assignment.lastTo register as := by
  rw [contentAfter, if_neg hregister, lastSet?_operations, Assignment.lastTo]
  cases hlast : as.reverse.find? fun a => Denotes riscv a.name register with
  | none => rfl
  | some a =>
    have ha := List.mem_reverse.mp (List.mem_of_find?_eq_some hlast)
    exact w.toNat_wrap_natCast (hvalues a ha)

end RegisterFile

namespace Program

variable {names : List String} {content : String → Nat}

theorem storeAll_cons (h : Denotes names a.name register) (as : List Assignment) :
    storeAll (.holding names w content) (a :: as)
      = storeAll (.holding names w (RegisterFile.stored w content register a.value)) as := by
  rw [storeAll, RegisterFile.set_holding h]

/-- Storing under names of registers is the history of these operations. -/
theorem storeAll_known (h : ∀ a ∈ as, ∃ register, Denotes names a.name register) :
    storeAll (.holding names w content) as
      = .ok ((RegisterFile.holding names w content).after (as.map Assignment.operation)) := by
  induction as generalizing content with
  | nil => rfl
  | cons a as ih =>
    obtain ⟨⟨register, ha⟩, has⟩ := List.forall_mem_cons.mp h
    rw [storeAll_cons ha, ih has, List.map_cons, RegisterFile.after, RegisterFile.after,
      List.foldl_cons, Assignment.operation, RegisterFile.perform, RegisterFile.set_holding ha]

/-- Storing fails at the first name of no register. -/
theorem storeAll_unknown (ha : a ∈ as) (h : ∀ register, ¬ Denotes names a.name register) :
    ∃ b ∈ as, (∀ register, ¬ Denotes names b.name register)
      ∧ storeAll (.holding names w content) as = .error (.command (.unknownRegister b.name)) := by
  induction as generalizing content with
  | nil => exact absurd ha List.not_mem_nil
  | cons b as ih =>
    by_cases hb : ∃ register, Denotes names b.name register
    · obtain ⟨register, hb⟩ := hb
      rcases List.mem_cons.mp ha with rfl | ha
      · exact absurd hb (h register)
      · obtain ⟨c, hc, hunknown, hfails⟩ := ih ha
        exact ⟨c, List.mem_cons_of_mem _ hc, hunknown, by rw [storeAll_cons hb, hfails]⟩
    · have hnone := not_exists.mp hb
      refine ⟨b, List.mem_cons_self, hnone, ?_⟩
      rw [storeAll, RegisterFile.set, RegisterFile.denotes?_holding_eq_none_iff.mpr hnone]

/-- The settings of a command that is given these items and a supported width. -/
def assigning (w : Width) (items : List String) : RegisterSettings :=
  ⟨items.map some, some (w.size : Int)⟩

theorem assignmentFailure_some (bits : Int) (e : Assignment.Failure) :
    assignmentFailure (some bits) e = .command (.assignment e) := by
  unfold assignmentFailure
  split
  · contradiction
  · rfl

theorem buildRegisters_assigning :
    buildRegisters (assigning w items)
      = match Assignment.parseAll w.size items with
        | .error e => .error (.command (.assignment e))
        | .ok as => storeAll (.holding riscv w fun _ => 0) as := by
  have hitems : (assigning w items).items = items := RegisterSettings.items_map_some items _
  have hnone : ¬ (assigning w items).assignments.contains none = true := by
    rw [List.contains_iff_mem, assigning, List.mem_map]
    rintro ⟨_, -, h⟩
    cases h
  rw [buildRegisters, hitems]
  simp only [if_neg hnone]
  show (match Assignment.parseAll w.size items with
    | .error e => Except.error (assignmentFailure (some (w.size : Int)) e)
    | .ok as => storeAll (.create riscv w.size) as) = _
  simp only [assignmentFailure_some, RegisterFile.create_eq]

/-- Registers are built from items that are all assignments to registers. -/
theorem buildRegisters_known (hparse : Assignment.parseAll w.size items = .ok as)
    (h : ∀ a ∈ as, ∃ register, Denotes riscv a.name register) :
    buildRegisters (assigning w items)
      = .ok (.holding riscv w
          (RegisterFile.contentAfter riscv w (as.map Assignment.operation))) := by
  rw [buildRegisters_assigning, hparse]
  simp only [storeAll_known h]
  rw [← RegisterFile.after_create, RegisterFile.create_eq]

/-- A single item that is none keeps them from being built. -/
theorem buildRegisters_refused (hitem : item ∈ items)
    (h : (∃ e, Assignment.parse w.size item = .error e)
      ∨ ∃ a, Assignment.parse w.size item = .ok a ∧ ∀ register, ¬ Denotes riscv a.name register) :
    ∃ e, buildRegisters (assigning w items) = .error (.command e) := by
  rw [buildRegisters_assigning]
  cases hparse : Assignment.parseAll w.size items with
  | error e => exact ⟨_, rfl⟩
  | ok as =>
    obtain ⟨b, hb, hok⟩ := (Assignment.mem_of_parseAll hparse).1 item hitem
    rcases h with ⟨e, herror⟩ | ⟨a, ha, hunknown⟩
    · rw [hok] at herror
      cases herror
    · rw [hok] at ha
      obtain rfl := Except.ok.inj ha
      obtain ⟨c, -, -, hfails⟩ := storeAll_unknown hb hunknown
      exact ⟨_, hfails⟩

end Program

/-! ## Texts of registers -/

/-- What may follow the `$` in the text of a register. -/
structure Lexer.IsName (name : String) : Prop where
  ne_empty : name ≠ ""
  length_le : name.length ≤ 30
  alphanum : ∀ c ∈ name.toList, c.isAlphanum = true

instance : Decidable (Lexer.IsName name) :=
  decidable_of_iff (name ≠ "" ∧ name.length ≤ 30 ∧ name.toList.all Char.isAlphanum = true)
    ⟨fun ⟨hne, hlen, hall⟩ => ⟨hne, hlen, List.all_eq_true.mp hall⟩,
      fun h => ⟨h.ne_empty, h.length_le, List.all_eq_true.mpr h.alphanum⟩⟩

theorem Lexer.isNameChar_of_isAlphanum {c : Char} (h : c.isAlphanum = true) :
    isNameChar c = true := by
  have hclass : ((c.isUpper || c.isLower) || c.isDigit) = true := h
  rw [Bool.or_eq_true, Bool.or_eq_true] at hclass
  rw [isNameChar, CharClass.contains_iff]
  rcases hclass with (h | h) | h
  · exact ⟨('A', 'Z'), by decide, Numeral.isUpper_iff.mp h⟩
  · exact ⟨('a', 'z'), by decide, Numeral.isLower_iff.mp h⟩
  · exact ⟨('0', '9'), by decide, Char.isDigit_iff_toNat.mp h⟩

theorem Lexer.IsName.lexable (h : Lexer.IsName name) : (Token.mk .reg ("$" ++ name)).Lexable := by
  have htext : "$" ++ name = String.ofList ('$' :: name.toList) := by
    rw [← eq_sigil_append_iff.mp rfl, String.ofList_toList]
  rw [htext]
  exact .reg (mt String.toList_eq_nil_iff.mp h.ne_empty)
    (by rw [String.length_toList]; exact h.length_le)
    fun c hc => Lexer.isNameChar_of_isAlphanum (h.alphanum c hc)

namespace Setting

variable {names : List String} {content : String → Nat} {maxDepth maxTokens : Int}

/-- The text of a register has what is known of it for a value. -/
theorem valueOf_register (resolver : Option (String → Option Int)) (hname : Lexer.IsName name)
    (hdepth : 0 ≤ maxDepth) (hmax : 1 ≤ maxTokens) :
    (stateless w maxDepth resolver).valueOf ("$" ++ name) maxTokens
      = match knownBy resolver name with
        | none => .error (.expr (.unknownRegister name))
        | some value => .ok (w.wrap value).toNat := by
  have hlex : tokenize ("$" ++ name) maxTokens = .ok #[⟨.reg, "$" ++ name⟩] :=
    Lexer.tokenize_of_writes (.of_token hname.lexable) (.singleton _) hmax
  have hregister : (Token.mk .reg ("$" ++ name)).register = name := by
    rw [Token.register, eq_sigil_append_iff.mp rfl, List.drop_one, List.tail_cons,
      String.ofList_toList]
  rw [valueOf_of_tokens (t := .leaf ⟨.reg, "$" ++ name⟩) hlex
    (Tree.isExpression_leaf.mpr rfl) rfl hdepth, Tree.meaning_leaf, Token.meaning, hregister]
  cases knownBy resolver name <;> rfl

/-- A register's text evaluates to what the register holds, if it holds a word. -/
theorem valueOf_holding (h : Denotes names name register) (hword : content register < 2 ^ w.size)
    (hname : Lexer.IsName name) (hdepth : 0 ≤ maxDepth) (hmax : 1 ≤ maxTokens) :
    (stateless w maxDepth (some (RegisterFile.holding names w content).read)).valueOf
      ("$" ++ name) maxTokens = .ok (content register) := by
  have hknown : knownBy (some (RegisterFile.holding names w content).read) name
      = some (content register : Int) := by
    rw [knownBy, Option.bind_some, RegisterFile.read, RegisterFile.get?_holding h,
      Option.map_some]
    rfl
  rw [valueOf_register _ hname hdepth hmax, hknown]
  exact congrArg Except.ok (w.toNat_wrap_natCast hword)

theorem valueOf_holding_unknown (h : ∀ register, ¬ Denotes names name register)
    (hname : Lexer.IsName name) (hdepth : 0 ≤ maxDepth) (hmax : 1 ≤ maxTokens) :
    (stateless w maxDepth (some (RegisterFile.holding names w content).read)).valueOf
      ("$" ++ name) maxTokens = .error (.expr (.unknownRegister name)) := by
  have hknown : knownBy (some (RegisterFile.holding names w content).read) name = none := by
    rw [knownBy, Option.bind_some, RegisterFile.read, RegisterFile.get?_holding_eq_none h,
      Option.map_none]
  rw [valueOf_register _ hname hdepth hmax, hknown]

end Setting

namespace Program

/-- Assigned registers are what expressions read. If all items are assignments to registers, the
    registers are built, and the text of a register has for its value the word of the last item
    that names the register, or zero if there is none or the register is the one that is wired
    to zero; the text of another name fails with this name. A register has its own name, with or
    without `$`, and `x` with its place for names, and an item may put a `$` before any of them.
    A single item that is no assignment, or none to a register, fails a command before it
    evaluates, prints or logs anything. -/
theorem assigned_registers_are_read (w : Width) (items : List String) :
    (∀ as, Assignment.parseAll w.size items = .ok as →
      (∀ a ∈ as, ∃ register, Denotes riscv a.name register) →
      ∃ regs, buildRegisters (assigning w items) = .ok regs
        ∧ ∀ name, Lexer.IsName name →
          let value := (Setting.stateless w defaultMaxDepth (some regs.read)).valueOf
            ("$" ++ name) Lexer.defaultMaxTokens
          ((∀ register, ¬ Denotes riscv name register) →
            value = .error (.expr (.unknownRegister name)))
          ∧ (Denotes riscv name hardwired → value = .ok 0)
          ∧ ∀ register, register ≠ hardwired → Denotes riscv name register →
            value = .ok (Assignment.lastTo register as))
    ∧ (∀ name register, Denotes riscv name register
        ↔ register ∈ riscv ++ [programCounter] ∧ (name = register ∨ register = "$" ++ name)
          ∨ ∃ i : Nat, riscv[i]? = some register ∧ name = "x" ++ toString i)
    ∧ (∀ item a, Assignment.parse w.size item = .ok a → ∀ register,
        Denotes riscv a.name register
          ↔ ∃ bare, (Assignment.writtenName item = bare
            ∨ Assignment.writtenName item = "$" ++ bare) ∧ Denotes riscv bare register)
    ∧ ∀ item ∈ items,
        ((∃ e, Assignment.parse w.size item = .error e)
          ∨ ∃ a, Assignment.parse w.size item = .ok a
            ∧ ∀ register, ¬ Denotes riscv a.name register) →
        ∃ e, buildRegisters (assigning w items) = .error (.command e)
          ∧ (∀ s : EvalSettings, s.toRegisterSettings = assigning w items →
            runEval s = .failed (.command e))
          ∧ ∀ (s : CheckSettings) (contents : Contents),
            s.toRegisterSettings = assigning w items →
            runCheck s contents = .failed (.command e) := by
  refine ⟨fun as hparse hknown => ?_, fun _ _ => RegisterFile.denotes_riscv_iff,
    fun _ _ h _ => Assignment.denotes_name_iff h, fun item hitem h => ?_⟩
  · have hvalues : ∀ a ∈ as, a.value < 2 ^ w.size := by
      intro a ha
      obtain ⟨item, -, h⟩ := (Assignment.mem_of_parseAll hparse).2 a ha
      exact Assignment.value_lt_of_parse h
    have hword (register : String) :
        RegisterFile.contentAfter riscv w (as.map Assignment.operation) register < 2 ^ w.size :=
      RegisterFile.contentAfter_lt _ register
    refine ⟨_, buildRegisters_known hparse hknown, fun name hname => ?_⟩
    refine ⟨fun h => ?_, fun h => ?_, fun register hregister h => ?_⟩
    · exact Setting.valueOf_holding_unknown h hname (by decide) (by decide)
    · rw [Setting.valueOf_holding h (hword _) hname (by decide) (by decide),
        RegisterFile.contentAfter_hardwired]
    · rw [Setting.valueOf_holding h (hword _) hname (by decide) (by decide),
        RegisterFile.contentAfter_operations hvalues hregister]
  · obtain ⟨e, hfails⟩ := buildRegisters_refused hitem h
    refine ⟨e, hfails, fun s hs => ?_, fun s contents hs => ?_⟩
    · rw [runEval, hs, hfails]
    · rw [runCheck, hs, hfails]

/-- Of two assignments to `t0` under different names the second is read, also as `$x5`; what was
    assigned to `$0` is not. The item `pc` has no value. -/
theorem last_assignment_is_read :
    (∃ regs, buildRegisters (assigning .w32 ["$x5 = 010", "t0=0x1ffffffff", "$$0=7"]) = .ok regs
      ∧ let s := Setting.stateless .w32 512 (some regs.read)
        s.valueOf "$x5" 4096 = .ok 0xffffffff ∧ s.valueOf "$0" 4096 = .ok 0
        ∧ s.valueOf "$x32" 4096 = .error (.expr (.unknownRegister "x32")))
    ∧ ∃ e, buildRegisters (assigning .w32 ["a0=1", "pc"]) = .error (.command e) := by
  constructor
  · have hparse : Assignment.parseAll Width.w32.size ["$x5 = 010", "t0=0x1ffffffff", "$$0=7"]
        = .ok [⟨"x5", 10⟩, ⟨"t0", 0xffffffff⟩, ⟨"$0", 7⟩] := by decide +kernel
    have hknown : ∀ a ∈ [Assignment.mk "x5" 10, ⟨"t0", 0xffffffff⟩, ⟨"$0", 7⟩],
        ∃ register, Denotes riscv a.name register := by
      simp only [List.forall_mem_cons]
      exact ⟨⟨"t0", by decide⟩, ⟨"t0", by decide⟩, ⟨"$0", by decide⟩, nofun⟩
    obtain ⟨regs, hregs, hread⟩ := (assigned_registers_are_read .w32 _).1 _ hparse hknown
    refine ⟨regs, hregs, ?_, ?_, ?_⟩
    · exact (hread "x5" (by decide)).2.2 "t0" (by decide) (by decide)
    · exact (hread "0" (by decide)).2.1 (by decide)
    · exact (hread "x32" (by decide)).1 (by decide)
  · obtain ⟨e, hfails, -⟩ := (assigned_registers_are_read .w32 ["a0=1", "pc"]).2.2.2 "pc"
      (by decide) (.inl ⟨.malformed "pc", by decide +kernel⟩)
    exact ⟨e, hfails⟩

end Program

end WordExpr
