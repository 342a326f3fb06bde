/-
  WordExpr.Proofs.Registers

  Register files under any list of names, after any history of operations.

  `Denotes` says which register a name denotes, from the list of names alone: the one of its own
  name first, then the one that was given it for an alias last. A file with these names denotes
  by it whatever its registers hold (`denotes?_holding`), and no operation changes the names. A
  history leaves in each register the last value that was set under any of its names, as a word,
  and nothing in the register that is wired to zero (`after_create`). `registers_after_history`
  says what this means for each operation.
-/
import Mathlib.Data.List.Basic
import Mathlib.Data.List.Induction
import WordExpr.Proofs.Words
import WordExpr.RegisterFile

namespace WordExpr.RegisterFile

variable {names : List String} {name register : String} {bits : Int} {w : Width}

/-! ## Denotation -/

/-- The register was given as the i-th one, and `name` is an alias of it: `x` followed by i, or
    its own name without `$`. -/
def IsAlias (names : List String) (name : String) (i : Nat) (register : String) : Prop :=
  names[i]? = some register ∧ (name = "x" ++ toString i ∨ register = "$" ++ name)

/-- The register that a name denotes in a file with these names: the one of this name, or else
    the last one that has it for an alias. -/
inductive Denotes (names : List String) (name : String) : String → Prop
  | own (h : name ∈ names ++ [programCounter]) : Denotes names name name
  | another {i : Nat} {register : String} (hown : name ∉ names ++ [programCounter])
      (halias : IsAlias names name i register)
      (hlast : ∀ j other, i < j → ¬ IsAlias names name j other) : Denotes names name register

theorem IsAlias.lt {i : Nat} (h : IsAlias names name i register) : i < names.length :=
  (List.getElem?_eq_some_iff.mp h.1).1

theorem getElem?_concat_eq_some_iff {a : String} {i : Nat} :
    (names ++ [a])[i]? = some register
      ↔ names[i]? = some register ∨ i = names.length ∧ register = a := by
  rw [List.getElem?_append]
  split
  · rename_i h
    simp only [h.ne, false_and, or_false]
  · rename_i h
    rw [List.getElem?_singleton, List.getElem?_eq_none (Nat.le_of_not_lt h)]
    simp only [Option.ite_none_right_eq_some, Option.some.injEq, reduceCtorEq, false_or]
    rw [eq_comm (a := a)]
    exact and_congr_left fun _ => by omega

theorem isAlias_concat {a : String} {i : Nat} :
    IsAlias (names ++ [a]) name i register ↔ IsAlias names name i register
      ∨ (i = names.length ∧ register = a
        ∧ (name = "x" ++ toString names.length ∨ a = "$" ++ name)) := by
  rw [IsAlias, IsAlias, getElem?_concat_eq_some_iff, or_and_right, and_assoc]
  refine or_congr_right (and_congr_right ?_)
  rintro rfl
  refine and_congr_right ?_
  rintro rfl
  rfl

theorem eq_sigil_append_iff {a : String} : a = "$" ++ name ↔ a.toList = '$' :: name.toList := by
  rw [← String.toList_inj, String.toList_append]
  rfl

theorem unsigiled?_eq_some_iff {a : String} : unsigiled? a = some name ↔ a = "$" ++ name := by
  rw [eq_sigil_append_iff, unsigiled?]
  split
  · rename_i r hr
    rw [hr, Option.some.injEq, List.cons.injEq, eq_self, true_and, ← String.toList_inj,
      String.toList_ofList]
  · rename_i hne
    exact ⟨nofun, fun h => absurd h (hne _)⟩

theorem lookup_cons_eq {key : String} {value : String} {rest : List (String × String)} :
    ((key, value) :: rest).lookup name = if name = key then some value else rest.lookup name := by
  rw [List.lookup_cons]
  by_cases h : name = key
  · rw [if_pos h, beq_iff_eq.mpr h]
  · rw [if_neg h, beq_eq_false_iff_ne.mpr h]

/-- The aliases of a register come before those that were there. -/
theorem lookup_aliasesOf (a : String) (i : Nat) (rest : List (String × String)) :
    (aliasesOf a i ++ rest).lookup name
      = if name = "x" ++ toString i ∨ a = "$" ++ name then some a else rest.lookup name := by
  have hsigil : unsigiled? a = some name ↔ a = "$" ++ name := unsigiled?_eq_some_iff
  rw [aliasesOf]
  cases hbare : unsigiled? a with
  | none =>
    rw [hbare] at hsigil
    have hne : ¬ a = "$" ++ name := fun h => by cases hsigil.mpr h
    simp only [hne, or_false]
    exact lookup_cons_eq
  | some bare =>
    rw [hbare, Option.some.injEq] at hsigil
    show ((bare, a) :: (numbered i, a) :: rest).lookup name = _
    have hname : name = bare ↔ a = "$" ++ name := eq_comm.trans hsigil
    rw [lookup_cons_eq, lookup_cons_eq]
    by_cases hb : name = bare
    · rw [if_pos hb, if_pos (.inr (hname.mp hb))]
    · have hne : ¬ a = "$" ++ name := fun h => hb (hname.mpr h)
      simp only [if_neg hb, hne, or_false]
      rfl

theorem aliases_concat (names : List String) (a : String) (bits : Int) :
    (create (names ++ [a]) bits).aliases
      = aliasesOf a names.length ++ (create names bits).aliases := by
  simp [create, List.zipIdx_append]

theorem lookup_aliases :
    (create names bits).aliases.lookup name = some register
      ↔ ∃ i, IsAlias names name i register
        ∧ ∀ j other, i < j → ¬ IsAlias names name j other := by
  induction names using List.reverseRecOn with
  | nil =>
    constructor
    · intro h
      cases h
    · rintro ⟨i, ⟨h, -⟩, -⟩
      cases h
  | append_singleton names a ih =>
    rw [aliases_concat, lookup_aliasesOf]
    simp only [isAlias_concat]
    by_cases ha : name = "x" ++ toString names.length ∨ a = "$" ++ name
    · -- The register behind all others has the name for an alias, so it is the one.
      rw [if_pos ha, Option.some.injEq]
      constructor
      · rintro rfl
        refine ⟨names.length, .inr ⟨rfl, rfl, ha⟩, fun j other hj => ?_⟩
        rintro (halias | ⟨rfl, -⟩)
        · exact Nat.lt_asymm hj halias.lt
        · exact Nat.lt_irrefl _ hj
      · rintro ⟨i, halias | ⟨-, rfl, -⟩, hlast⟩
        · exact absurd (.inr ⟨rfl, rfl, ha⟩) (hlast names.length a halias.lt)
        · rfl
    · rw [if_neg ha, ih]
      simp only [ha, and_false, or_false]

/-! ## Files by their contents -/

/-- The register file of the given names in which each register holds what `content` says. -/
def holding (names : List String) (w : Width) (content : String → Nat) : RegisterFile where
  bits := w.size
  cells := (names ++ [programCounter]).map fun register => (register, content register)
  aliases := (create names w.size).aliases

variable {content : String → Nat}

theorem create_eq : create names w.size = holding names w fun _ => 0 := rfl

theorem names_holding : (holding names w content).names = names ++ [programCounter] := by
  rw [RegisterFile.names, holding, List.map_map]
  exact List.map_id _

/-- What is in the registers has no part in what names denote. -/
theorem denotes?_holding :
    (holding names w content).denotes? name = some register ↔ Denotes names name register := by
  rw [denotes?, names_holding]
  by_cases hown : name ∈ names ++ [programCounter]
  · rw [if_pos (List.contains_iff_mem.mpr hown), Option.some.injEq]
    constructor
    · rintro rfl
      exact .own hown
    · rintro (_ | ⟨hother, -, -⟩)
      · rfl
      · exact absurd hown hother
  · rw [if_neg (mt List.contains_iff_mem.mp hown)]
    show (create names w.size).aliases.lookup name = some register ↔ _
    rw [lookup_aliases]
    constructor
    · rintro ⟨i, halias, hlast⟩
      exact .another hown halias hlast
    · rintro (h | ⟨-, halias, hlast⟩)
      · exact absurd h hown
      · exact ⟨_, halias, hlast⟩

theorem denotes?_create :
    (create names w.size).denotes? name = some register ↔ Denotes names name register :=
  denotes?_holding

instance : Decidable (Denotes names name register) :=
  decidable_of_iff _ (denotes?_create (w := .w32))

theorem Denotes.unique {other : String} (h : Denotes names name register)
    (h' : Denotes names name other) : register = other := by
  have hsome := (denotes?_create (w := .w32)).mpr h
  rw [denotes?_create.mpr h'] at hsome
  exact (Option.some.inj hsome).symm

theorem denotes?_holding_eq_none_iff :
    (holding names w content).denotes? name = none ↔ ∀ register, ¬ Denotes names name register := by
  simp only [Option.eq_none_iff_forall_ne_some, ne_eq, denotes?_holding]

theorem denotes?_create_eq_none_iff :
    (create names w.size).denotes? name = none ↔ ∀ register, ¬ Denotes names name register :=
  denotes?_holding_eq_none_iff

instance : Decidable (∀ register, ¬ Denotes names name register) :=
  decidable_of_iff _ (denotes?_create_eq_none_iff (w := .w32))

/-- Aliases stand for registers of the file. -/
theorem Denotes.mem (h : Denotes names name register) :
    register ∈ names ++ [programCounter] := by
  cases h with
  | own h => exact h
  | another _ halias _ => exact List.mem_append_left _ (List.mem_of_getElem? halias.1)

theorem get?_holding (h : Denotes names name register) :
    (holding names w content).get? name = some (content register) := by
  rw [get?, denotes?_holding.mpr h, Option.bind_some]
  exact List.lookup_graph content h.mem

theorem get?_holding_eq_none (h : ∀ register, ¬ Denotes names name register) :
    (holding names w content).get? name = none := by
  rw [get?, denotes?_holding_eq_none_iff.mpr h, Option.bind_none]

/-- The contents with a value stored in a register; the one that is wired to zero takes none. -/
def stored (w : Width) (content : String → Nat) (register : String) (value : Int) :
    String → Nat := fun other =>
  if other = register ∧ register ≠ hardwired then (w.wrap value).toNat else content other

theorem set_holding (h : Denotes names name register) (value : Int) :
    (holding names w content).set name value
      = .ok (holding names w (stored w content register value)) := by
  rw [set, denotes?_holding.mpr h]
  simp only
  by_cases hzero : register = hardwired
  · have hsame : stored w content register value = content := by
      funext other
      rw [stored, if_neg fun h => h.2 hzero]
    rw [if_pos hzero, hsame]
  · rw [if_neg hzero, show (holding names w content).bits = w.size from rfl, Word.reduce_size]
    refine congrArg Except.ok ?_
    rw [store, holding, holding, List.map_map]
    simp only [stored, hzero, ne_eq, not_false_eq_true, and_true]
    rfl

/-! ## Operations -/

/-- What can be asked of a register file. -/
inductive Operation where
  | set (name : String) (value : Int)
  | get (name : String)
  | resolve (name : String)
  | contains (name : String)
  | dump
  deriving DecidableEq, Repr

/-- What an operation answers. -/
inductive Answer where
  | done
  | value (v : Nat)
  | resolved (v : Nat) (ok : Bool)
  | known (b : Bool)
  | cells (cells : List (String × Nat))
  | failed (e : Failure)
  deriving DecidableEq, Repr

/-- The answer of an operation, and the register file after it. -/
def perform (r : RegisterFile) : Operation → Answer × RegisterFile
  | .set name value =>
    match r.set name value with
    | .ok r => (.done, r)
    | .error e => (.failed e, r)
  | .get name =>
    match r.get name with
    | .ok v => (.value v, r)
    | .error e => (.failed e, r)
  | .resolve name => (.resolved (r.resolve name).1 (r.resolve name).2, r)
  | .contains name => (.known (r.contains name), r)
  | .dump => (.cells r.dump, r)

/-- The register file after a history of operations, failed ones among them. -/
def after (r : RegisterFile) (ops : List Operation) : RegisterFile :=
  ops.foldl (fun r op => (r.perform op).2) r

theorem after_concat (r : RegisterFile) (ops : List Operation) (op : Operation) :
    r.after (ops ++ [op]) = ((r.after ops).perform op).2 := by
  rw [after, List.foldl_append]
  rfl

/-- A name reads a value in all ways in which it can be read, which change nothing. -/
structure Reads (r : RegisterFile) (name : String) (v : Nat) : Prop where
  get : r.perform (.get name) = (.value v, r)
  resolve : r.perform (.resolve name) = (.resolved v true, r)
  contains : r.perform (.contains name) = (.known true, r)

/-- A name that denotes no register is refused, and nothing changes. -/
structure Refuses (r : RegisterFile) (name : String) : Prop where
  set : ∀ value, r.perform (.set name value) = (.failed (.unknown name), r)
  get : r.perform (.get name) = (.failed (.unknown name), r)
  resolve : r.perform (.resolve name) = (.resolved 0 false, r)
  contains : r.perform (.contains name) = (.known false, r)

theorem reads_holding (h : Denotes names name register) :
    (holding names w content).Reads name (content register) where
  get := by rw [perform, RegisterFile.get, get?_holding h]
  resolve := by rw [perform, RegisterFile.resolve, get?_holding h]
  contains := by rw [perform, RegisterFile.contains, denotes?_holding.mpr h, Option.isSome_some]

theorem refuses_holding (h : ∀ register, ¬ Denotes names name register) :
    (holding names w content).Refuses name where
  set value := by rw [perform, RegisterFile.set, denotes?_holding_eq_none_iff.mpr h]
  get := by rw [perform, RegisterFile.get, get?_holding_eq_none h]
  resolve := by rw [perform, RegisterFile.resolve, get?_holding_eq_none h]
  contains := by
    rw [perform, RegisterFile.contains, denotes?_holding_eq_none_iff.mpr h, Option.isSome_none]

/-! ## Histories -/

/-- The value that an operation sets under a name of the register. -/
def Operation.valueFor? (denotes? : String → Option String) (register : String) :
    Operation → Option Int
  | .set name value => if denotes? name = some register then some value else none
  | _ => none

/-- The last value that a history sets under a name of the register. -/
def lastSet? (denotes? : String → Option String) (register : String) (ops : List Operation) :
    Option Int :=
  ops.reverse.findSome? (Operation.valueFor? denotes? register)

/-- What is in a register after a history that began with a file of these names. -/
def contentAfter (names : List String) (w : Width) (ops : List Operation) (register : String) :
    Nat :=
  if register = hardwired then 0
  else ((lastSet? (create names w.size).denotes? register ops).map fun value =>
    (w.wrap value).toNat).getD 0

theorem lastSet?_concat (denotes? : String → Option String) (register : String)
    (ops : List Operation) (op : Operation) :
    lastSet? denotes? register (ops ++ [op])
      = (op.valueFor? denotes? register).or (lastSet? denotes? register ops) := by
  rw [lastSet?, List.reverse_append, List.reverse_singleton, List.singleton_append,
    List.findSome?_cons]
  cases op.valueFor? denotes? register <;> rfl

/-- An operation that sets nothing changes nothing. -/
theorem contentAfter_of_eq_none {ops : List Operation} {op : Operation}
    (h : ∀ register, op.valueFor? (create names w.size).denotes? register = none) :
    contentAfter names w (ops ++ [op]) = contentAfter names w ops := by
  funext register
  rw [contentAfter, lastSet?_concat, h register, Option.none_or, contentAfter]

theorem contentAfter_set (h : Denotes names name register) (ops : List Operation) (value : Int) :
    contentAfter names w (ops ++ [.set name value])
      = stored w (contentAfter names w ops) register value := by
  funext other
  rw [contentAfter, lastSet?_concat, Operation.valueFor?, denotes?_create.mpr h, stored]
  by_cases hother : register = other
  · subst hother
    by_cases hzero : register = hardwired
    · rw [if_pos hzero, if_neg fun hs => hs.2 hzero, contentAfter, if_pos hzero]
    · rw [if_neg hzero, if_pos rfl, if_pos ⟨rfl, hzero⟩]
      rfl
  · rw [if_neg (c := some register = some other) fun hs => hother (Option.some.inj hs),
      if_neg (c := other = register ∧ register ≠ hardwired) fun hs => hother hs.1.symm,
      Option.none_or, contentAfter]

/-- One operation changes the register that it sets, and no other. -/
theorem perform_holding (ops : List Operation) (op : Operation) :
    ((holding names w (contentAfter names w ops)).perform op).2
      = holding names w (contentAfter names w (ops ++ [op])) := by
  cases op with
  | set name value =>
    by_cases hname : ∃ register, Denotes names name register
    · obtain ⟨register, h⟩ := hname
      rw [perform, set_holding h, contentAfter_set h]
    · have hnone := not_exists.mp hname
      rw [(refuses_holding hnone).set value, contentAfter_of_eq_none fun register => ?_]
      rw [Operation.valueFor?, denotes?_create_eq_none_iff.mpr hnone]
      rfl
  | get name =>
    rw [contentAfter_of_eq_none fun _ => rfl, perform]
    split
    · rfl
    · rfl
  | _ =>
    rw [contentAfter_of_eq_none fun _ => rfl]
    rfl

/-- What a history leaves in a register file. -/
theorem after_create (names : List String) (w : Width) (ops : List Operation) :
    (create names w.size).after ops = holding names w (contentAfter names w ops) := by
  induction ops using List.reverseRecOn with
  | nil =>
    have hnone : contentAfter names w [] = fun _ => 0 := by
      funext register
      rw [contentAfter]
      split
      · rfl
      · rfl
    rw [hnone]
    rfl
  | append_singleton ops op ih => rw [after_concat, ih, perform_holding]

/-! ## What a history leaves, by the list of names alone -/

/-- The operation sets the value under a name of the register. -/
def Operation.Sets (names : List String) (register : String) (value : Int) (op : Operation) :
    Prop :=
  ∃ name, op = .set name value ∧ Denotes names name register

/-- The history sets the value under a name of the register, and none under any of its names
    after that. -/
def SetLast (names : List String) (register : String) (value : Int) (ops : List Operation) :
    Prop :=
  ∃ earlier op later, ops = earlier ++ op :: later ∧ op.Sets names register value
    ∧ ∀ op ∈ later, ∀ other, ¬ op.Sets names register other

/-- The history sets no value under any name of the register. -/
def NeverSet (names : List String) (register : String) (ops : List Operation) : Prop :=
  ∀ op ∈ ops, ∀ value, ¬ op.Sets names register value

theorem valueFor?_eq_some_iff {op : Operation} {value : Int} :
    op.valueFor? (create names w.size).denotes? register = some value
      ↔ op.Sets names register value := by
  cases op with
  | set name other =>
    rw [Operation.valueFor?, Option.ite_none_right_eq_some, denotes?_create]
    constructor
    · rintro ⟨h, hvalue⟩
      obtain rfl := Option.some.inj hvalue
      exact ⟨name, rfl, h⟩
    · rintro ⟨_, hop, h⟩
      cases hop
      exact ⟨h, rfl⟩
  | _ =>
    constructor
    · intro h
      cases h
    · rintro ⟨_, hop, -⟩
      cases hop

theorem valueFor?_eq_none_iff {op : Operation} :
    op.valueFor? (create names w.size).denotes? register = none
      ↔ ∀ value, ¬ op.Sets names register value := by
  simp only [Option.eq_none_iff_forall_ne_some, ne_eq, valueFor?_eq_some_iff]

theorem contentAfter_hardwired (ops : List Operation) :
    contentAfter names w ops hardwired = 0 := if_pos rfl

theorem contentAfter_of_setLast {ops : List Operation} {value : Int}
    (hregister : register ≠ hardwired) (h : SetLast names register value ops) :
    (contentAfter names w ops register : Int) = value % 2 ^ w.size := by
  obtain ⟨earlier, op, later, rfl, hop, hlater⟩ := h
  have hlast : lastSet? (create names w.size).denotes? register (earlier ++ op :: later)
      = some value := by
    rw [lastSet?, List.findSome?_eq_some_iff]
    refine ⟨later.reverse, op, earlier.reverse, by simp, valueFor?_eq_some_iff.mpr hop, ?_⟩
    intro op' hop'
    exact valueFor?_eq_none_iff.mpr (hlater op' (List.mem_reverse.mp hop'))
  rw [contentAfter, if_neg hregister, hlast, Option.map_some, Option.getD_some,
    Width.toNat_wrap]

theorem contentAfter_of_neverSet {ops : List Operation} (h : NeverSet names register ops) :
    contentAfter names w ops register = 0 := by
  have hnone : lastSet? (create names w.size).denotes? register ops = none := by
    rw [lastSet?, List.findSome?_eq_none_iff]
    intro op hop
    exact valueFor?_eq_none_iff.mpr (h op (List.mem_reverse.mp hop))
  rw [contentAfter, hnone, Option.map_none, Option.getD_none, ite_self]

theorem contentAfter_lt (ops : List Operation) (register : String) :
    contentAfter names w ops register < 2 ^ w.size := by
  rw [contentAfter]
  split
  · exact Nat.two_pow_pos _
  · cases lastSet? (create names w.size).denotes? register ops with
    | none => exact Nat.two_pow_pos _
    | some value => exact w.toNat_wrap_lt value

/-- After any history, names denote what they denoted at the beginning, which the list of names
    decides. A name of a register is accepted, and reads a word in all ways of reading: the last
    value that was set under any name of the register, or zero if there is none or the register
    is the one that is wired to zero. A name of no register is refused, and nothing changes. A
    dump lists all registers in order with what their names read.

    What is wired to zero is the register `$0`. In a file without it the name may still be an
    alias, as of a register `$$0`, which holds what is set like any other. -/
theorem registers_after_history (names : List String) (w : Width) (ops : List Operation) :
    let r := (create names w.size).after ops
    (∀ name register, r.denotes? name = some register ↔ Denotes names name register)
    ∧ (∀ name register, Denotes names name register →
        (∀ value, (r.perform (.set name value)).1 = .done)
        ∧ ∃ v, r.Reads name v ∧ v < 2 ^ w.size
          ∧ (register = hardwired → v = 0)
          ∧ (NeverSet names register ops → v = 0)
          ∧ ∀ value, register ≠ hardwired → SetLast names register value ops →
            (v : Int) = value % 2 ^ w.size)
    ∧ (∀ name, (∀ register, ¬ Denotes names name register) → r.Refuses name)
    ∧ (hardwired ∈ names → r.Reads hardwired 0)
    ∧ ∃ cells, r.perform .dump = (.cells cells, r)
      ∧ cells.map Prod.fst = names ++ [programCounter]
      ∧ ∀ cell ∈ cells, r.Reads cell.1 cell.2 ∧ cell.2 < 2 ^ w.size := by
  intro r
  have hr : r = holding names w (contentAfter names w ops) := after_create names w ops
  rw [hr]
  refine ⟨fun _ _ => denotes?_holding, fun name register h => ⟨fun value => ?_, ?_⟩,
    fun _ h => refuses_holding h, fun h => ?_, _, rfl, names_holding, fun cell hcell => ?_⟩
  · rw [perform, set_holding h]
  · exact ⟨_, reads_holding h, contentAfter_lt ops register,
      fun hzero => hzero ▸ contentAfter_hardwired ops, contentAfter_of_neverSet,
      fun value hregister hlast => contentAfter_of_setLast hregister hlast⟩
  · rw [← contentAfter_hardwired ops]
    exact reads_holding (.own (List.mem_append_left _ h))
  · obtain ⟨register, hregister, rfl⟩ := List.mem_map.mp hcell
    exact ⟨reads_holding (.own hregister), contentAfter_lt ops register⟩

/-- `x2` reads what was set last under the other names of `$q`, `0` is the register that is wired
    to zero, and `b` is refused. -/
theorem registers_after_aliased_sets :
    let r := (create ["$0", "x0", "$q", "a", "a"] Width.w64.size).after
      [.set "q" 5, .set "0" 7, .set "$q" (-1), .set "b" 3]
    r.Reads "x2" (2 ^ 64 - 1) ∧ r.Reads "0" 0 ∧ r.Refuses "b" := by
  intro r
  obtain ⟨-, hknown, hunknown, -⟩ :=
    registers_after_history ["$0", "x0", "$q", "a", "a"] .w64
      [.set "q" 5, .set "0" 7, .set "$q" (-1), .set "b" 3]
  have hb : ∀ register, ¬ Denotes ["$0", "x0", "$q", "a", "a"] "b" register := by decide
  refine ⟨?_, ?_, hunknown "b" hb⟩
  · obtain ⟨-, v, hreads, -, -, -, hlast⟩ := hknown "x2" "$q" (by decide)
    have hv := hlast (-1) (by decide)
      ⟨[.set "q" 5, .set "0" 7], .set "$q" (-1), [.set "b" 3], rfl, ⟨"$q", rfl, by decide⟩, by
        rintro op hop other ⟨name, rfl, h⟩
        obtain ⟨rfl, rfl⟩ := Operation.set.inj (List.mem_singleton.mp hop)
        exact hb _ h⟩
    have hmax : v = 2 ^ 64 - 1 := by
      have hword : (v : Int) = 2 ^ 64 - 1 := hv
      omega
    exact hmax ▸ hreads
  · obtain ⟨-, v, hreads, -, hzero, -⟩ := hknown "0" "$0" (by decide)
    exact hzero rfl ▸ hreads

/-- Only a register `$0` is wired to zero, and not every register that this name denotes: in a
    file whose one register is `$$0`, it is an alias of it, and reads what is set under it. -/
theorem hardwired_reads_as_alias :
    Denotes ["$$0"] hardwired "$$0"
    ∧ ((create ["$$0"] Width.w32.size).after [.set hardwired 5]).Reads hardwired 5
    ∧ ¬ ((create ["$$0"] Width.w32.size).after [.set hardwired 5]).Reads hardwired 0 := by
  have hread : ((create ["$$0"] Width.w32.size).after [.set hardwired 5]).perform (.get hardwired)
      = (.value 5, (create ["$$0"] Width.w32.size).after [.set hardwired 5]) := by decide
  refine ⟨by decide, ⟨hread, by decide, by decide⟩, fun hzero => ?_⟩
  -- One name cannot read two values in one state.
  have htwo : (5 : Nat) = 0 :=
    Answer.value.inj (Prod.mk.inj (hread.symm.trans hzero.get)).1
  cases htwo

end WordExpr.RegisterFile
