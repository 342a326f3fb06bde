/-
  WordExpr.Proofs.Restoring

  Register files from their dumps. A cell of a dump can be written as an item in several ways: its
  value in decimal or in hexadecimal, padded to the width, and its register under any of its names,
  with or without a `$` before it (`Shows`). Every such item is an assignment of the value to
  the register (`parse_shown`). Items that show all cells of a dump, and nothing else, restore the
  file from an empty one, whatever their order (`dump_restores`).

  The order does not matter because every value is set where it has to be in the end. So while
  items are set, each register holds its value already or is named by an item to come
  (`setAll_restores`).
-/
import WordExpr.Proofs.Assigned
import WordExpr.Proofs.AssignmentSyntax

namespace WordExpr

open Program (showWord hexWord)
open RegisterFile (riscv programCounter hardwired Denotes eq_sigil_append_iff)

variable {w : Width} {item name register : String} {value : Nat} {cell : String × Nat}

/-! ## Words as they are printed -/

namespace Literal

variable {cs : List Char} {k m : Nat}

theorem IsStrict.not_isBlank (h : IsStrict cs k m) : ∀ c ∈ cs, Text.isBlank c = false := by
  cases h with
  | @decimal ds suffix _ hds hsuffix =>
    refine List.forall_mem_append.mpr ⟨fun c hc => ?_, ?_⟩
    · exact Text.isBlank_of_isGraphic (Lexer.CharClass.contains_of_within (by decide) (hds c hc))
    · rcases hsuffix with rfl | rfl
      · exact List.forall_mem_nil _
      · exact List.forall_mem_singleton.mpr (by decide)
  | @hexadecimal ds _ hds =>
    rw [List.forall_mem_cons, List.forall_mem_cons]
    refine ⟨by decide, by decide, fun c hc => ?_⟩
    exact Text.isBlank_of_isGraphic (Lexer.CharClass.contains_of_within (by decide) (hds c hc))

theorem isStrict_toString (n : Nat) :
    IsStrict (toString n).toList (Nat.toDigits 10 n).length n := by
  have hstrict : IsStrict (Nat.toDigits 10 n ++ []) (Nat.toDigits 10 n).length
      (Numeral.bodyValue .decimal (Nat.toDigits 10 n)) :=
    .decimal Nat.toDigits_ne_nil (fun c hc => Numeral.isDigit_of_mem_toDigits hc) (.inl rfl)
  rw [List.append_nil, Numeral.bodyValue_toDigits] at hstrict
  rwa [Nat.toString_eq_ofList_toDigits, String.toList_ofList]

theorem isStrict_hexWord (h : value < 2 ^ w.size) :
    IsStrict (hexWord w.size value).toList 0 value := by
  have hne : Text.hexDigits (w.size / 4) value ≠ [] := by
    rw [ne_eq, ← List.length_eq_zero_iff, Text.length_hexDigits]
    cases w <;> decide
  have hvalue : Numeral.bodyValue .hexadecimal (Text.hexDigits (w.size / 4) value) = value := by
    have hpow : 16 ^ (w.size / 4) = 2 ^ w.size := by cases w <;> decide
    rw [Numeral.bodyValue_hexDigits, hpow, Nat.mod_eq_of_lt h]
  have hstrict := IsStrict.hexadecimal hne fun c hc => Numeral.isHexDigit_of_mem_hexDigits hc
  rw [hvalue] at hstrict
  rwa [hexWord, Int.toNat_natCast, String.toList_append, String.toList_ofList, String.toList_ofList]

/-- A word is printed as a strict literal, and has few enough digits to be read. -/
theorem exists_isStrict_showWord (h : value < 2 ^ w.size) (hex : Bool) :
    ∃ digits ≤ Numeral.maxDecimalDigits,
      IsStrict (showWord w.size hex value).toList digits value := by
  cases hex with
  | true => exact ⟨0, Nat.zero_le _, isStrict_hexWord h⟩
  | false =>
    have hlen := Token.length_toDigits_le (Nat.lt_of_lt_of_le h w.two_pow_size_le)
    exact ⟨_, Nat.le_trans hlen (by decide), isStrict_toString value⟩

end Literal

/-! ## Cells as items -/

namespace Assignment

open Text (isBlank)

/-- Names of registers have no equals sign and no blank in them. -/
theorem plain_of_denotes (h : Denotes riscv name register) :
    ∀ c ∈ name.toList, c ≠ '=' ∧ isBlank c = false := by
  have hown : ∀ register ∈ riscv ++ [programCounter], ∀ c ∈ register.toList,
      c ≠ '=' ∧ isBlank c = false := by
    -- Taken as a property of all characters, it would be tried for each that there is.
    simp only [← List.all_iff_forall_prop]
    decide
  have hplaces : ∀ i : Fin 32, ∀ c ∈ ("x" ++ toString i.val).toList,
      c ≠ '=' ∧ isBlank c = false := by
    simp only [← List.all_iff_forall_prop]
    decide +kernel
  rcases RegisterFile.denotes_riscv_iff.mp h with ⟨hregister, rfl | hbare⟩ | ⟨i, hi, rfl⟩
  · exact hown name hregister
  · intro c hc
    refine hown register hregister c ?_
    rw [eq_sigil_append_iff.mp hbare]
    exact List.mem_cons_of_mem _ hc
  · exact hplaces ⟨i, (List.getElem?_eq_some_iff.mp hi).1⟩

/-- The item shows the cell of a dump: the register under any of its names, with or without a `$`
    before it, and the word in decimal or hexadecimal. -/
inductive Shows (w : Width) : String × Nat → String → Prop
  | intro {written bare register : String} {value : Nat} (hex : Bool)
      (hwritten : written = bare ∨ written = "$" ++ bare) (hbare : Denotes riscv bare register) :
      Shows w (register, value) (written ++ "=" ++ showWord w.size hex value)

theorem parse_shown (h : Shows w cell item) (hword : cell.2 < 2 ^ w.size) :
    ∃ a, parse w.size item = .ok a ∧ Denotes riscv a.name cell.1 ∧ a.value = cell.2 := by
  cases h with
  | @intro written bare register value hex hwritten hbare =>
    obtain ⟨digits, hfew, hstrict⟩ := Literal.exists_isStrict_showWord hword hex
    have hplain : ∀ c ∈ written.toList, c ≠ '=' ∧ isBlank c = false := by
      rcases hwritten with rfl | rfl
      · exact plain_of_denotes hbare
      · rw [eq_sigil_append_iff.mp rfl]
        exact List.forall_mem_cons.mpr ⟨by decide, plain_of_denotes hbare⟩
    have hname : written.toList ≠ [] := by
      rcases hwritten with rfl | rfl
      · exact mt String.toList_eq_nil_iff.mp hbare.ne_empty
      · rw [eq_sigil_append_iff.mp rfl]
        exact List.cons_ne_nil _ _
    -- The sign between the two is the first one, and neither has blanks to be trimmed off.
    have hparts : Parts (written ++ "=" ++ showWord w.size hex value) written.toList
        (showWord w.size hex value).toList := by
      have hsign : "=".toList = ['='] := rfl
      have hitem : (written ++ "=" ++ showWord w.size hex value).toList
          = written.toList ++ '=' :: (showWord w.size hex value).toList := by
        rw [String.toList_append, String.toList_append, hsign, List.append_assoc,
          List.singleton_append]
      have hparts := Parts.intro hitem fun hmem => (hplain _ hmem).1 rfl
      rwa [Text.strip_eq_self fun c hc => (hplain c hc).2,
        Text.strip_eq_self hstrict.not_isBlank] at hparts
    refine ⟨⟨String.ofList (bareName written.toList), value⟩, ?_,
      denotes_bareName_iff.mpr ⟨bare, hwritten, hbare⟩, rfl⟩
    rw [parse_of_isStrict hparts hname hstrict, if_neg (Nat.not_lt.mpr hfew),
      Width.residue_of_lt hword]

theorem assigned_of_shown {a : Assignment} (h : Shows w cell item) (hword : cell.2 < 2 ^ w.size)
    (ha : parse w.size item = .ok a) : Denotes riscv a.name cell.1 ∧ a.value = cell.2 := by
  obtain ⟨a', ha', hshown⟩ := parse_shown h hword
  rw [ha] at ha'
  obtain rfl := Except.ok.inj ha'
  exact hshown

theorem exists_parseAll {bits : Int} {items : List String}
    (h : ∀ item ∈ items, ∃ a, parse bits item = .ok a) : ∃ as, parseAll bits items = .ok as := by
  induction items with
  | nil => exact ⟨[], rfl⟩
  | cons item rest ih =>
    obtain ⟨⟨a, ha⟩, hrest⟩ := List.forall_mem_cons.mp h
    obtain ⟨as, has⟩ := ih hrest
    exact ⟨a :: as, by rw [parseAll, ha, has]⟩

/-- What is set for the assignment. -/
def pair (a : Assignment) : String × Int := (a.name, a.value)

end Assignment

/-! ## Setting registers in any order -/

namespace RegisterFile

variable {names : List String} {content target : String → Nat} {pairs : List (String × Int)}

theorem holding_congr (h : ∀ register ∈ names ++ [programCounter],
    content register = target register) : holding names w content = holding names w target := by
  have hcells : (names ++ [programCounter]).map (fun register => (register, content register))
      = (names ++ [programCounter]).map fun register => (register, target register) :=
    List.map_congr_left fun register hregister => by rw [h register hregister]
  rw [holding, holding, hcells]

/-- If what is set is always what the register is to hold, and what no register holds yet is set,
    then in the end all registers hold what they are to hold. -/
theorem setAll_restores (htarget : ∀ register, target register < 2 ^ w.size)
    (hpairs : ∀ pair ∈ pairs, ∃ register, Denotes names pair.1 register
      ∧ pair.2 = (target register : Int))
    (hcover : ∀ register ∈ names ++ [programCounter], content register = target register
      ∨ register ≠ hardwired ∧ ∃ pair ∈ pairs, Denotes names pair.1 register) :
    (holding names w content).setAll pairs = (holding names w target, none) := by
  -- By induction on what is still to be set, whatever the registers hold by now.
  induction pairs generalizing content with
  | nil =>
    rw [setAll, holding_congr fun register hregister => ?_]
    rcases hcover register hregister with hheld | ⟨-, pair, hpair, -⟩
    · exact hheld
    · exact absurd hpair List.not_mem_nil
  | cons pair rest ih =>
    obtain ⟨⟨register, hname, hvalue⟩, hrest⟩ := List.forall_mem_cons.mp hpairs
    rw [setAll, set_holding hname]
    refine ih hrest fun other hother => ?_
    by_cases hset : other = register ∧ register ≠ hardwired
    · left
      rw [stored, if_pos hset, hvalue, w.toNat_wrap_natCast (htarget register), hset.1]
    · rcases hcover other hother with hheld | ⟨hzero, pair', hpair', hname'⟩
      · left
        rw [stored, if_neg hset, hheld]
      · rcases List.mem_cons.mp hpair' with rfl | hlater
        · -- The pair that was waited for is this one, so that the register has been set.
          obtain rfl := hname.unique hname'
          exact absurd ⟨rfl, hzero⟩ hset
        · exact .inr ⟨hzero, pair', hlater, hname'⟩

/-- A command stores assignments like this, and fails at the first name of no register. -/
theorem storeAll_of_setAll {r r' : RegisterFile} {as : List Assignment}
    (h : r.setAll (as.map Assignment.pair) = (r', none)) : Program.storeAll r as = .ok r' := by
  induction as generalizing r with
  | nil =>
    cases h
    rfl
  | cons a as ih =>
    rw [List.map_cons, Assignment.pair, setAll] at h
    rw [Program.storeAll]
    split at h
    · cases h
    · rename_i r₁ hset
      simp only [hset]
      exact ih h

end RegisterFile

/-! ## Dumps -/

namespace RegisterFile

variable {target : String → Nat} {items : List String} {as : List Assignment}

/-- Items that show what registers are to hold set them to this, all of them if they are named. -/
theorem setAll_of_shown (htarget : ∀ register, target register < 2 ^ w.size)
    (hzero : target hardwired = 0)
    (hitems : ∀ item ∈ items, ∃ register, Assignment.Shows w (register, target register) item)
    (hcells : ∀ register ∈ riscv ++ [programCounter],
      ∃ item ∈ items, Assignment.Shows w (register, target register) item)
    (has : Assignment.parseAll w.size items = .ok as) :
    (create riscv w.size).setAll (as.map Assignment.pair) = (holding riscv w target, none) := by
  obtain ⟨hassigned, hwritten⟩ := Assignment.mem_of_parseAll has
  rw [create_eq]
  refine setAll_restores htarget (List.forall_mem_map.mpr fun a ha => ?_)
    fun register hregister => ?_
  · obtain ⟨item, hitem, hparse⟩ := hwritten a ha
    obtain ⟨register, hshows⟩ := hitems item hitem
    obtain ⟨hname, hvalue⟩ := Assignment.assigned_of_shown hshows (htarget register) hparse
    exact ⟨register, hname, congrArg Nat.cast hvalue⟩
  · by_cases hregister' : register = hardwired
    · left
      rw [hregister', hzero]
    · obtain ⟨item, hitem, hshows⟩ := hcells register hregister
      obtain ⟨a, ha, hparse⟩ := hassigned item hitem
      have hname := (Assignment.assigned_of_shown hshows (htarget register) hparse).1
      exact .inr ⟨hregister', _, List.mem_map_of_mem ha, hname⟩

theorem dump_after (names : List String) (w : Width) (ops : List Operation) :
    ((create names w.size).after ops).dump = (names ++ [programCounter]).map fun register =>
      (register, contentAfter names w ops register) := by
  rw [after_create]
  rfl

/-- A dump can be restored. From whatever state a register file of the calling convention has
    reached, take items that show the cells of its dump, each of them in decimal or in hexadecimal
    and under any name of its register, with or without a `$` before it, in any order. All of them
    are assignments. Setting these in a file without values makes it the one that was dumped, and
    so does a command that is given the items. -/
theorem dump_restores (w : Width) (ops : List Operation) (items : List String) :
    let r := (create riscv w.size).after ops
    (∀ item ∈ items, ∃ cell ∈ r.dump, Assignment.Shows w cell item) →
    (∀ cell ∈ r.dump, ∃ item ∈ items, Assignment.Shows w cell item) →
    ∃ as, Assignment.parseAll w.size items = .ok as
      ∧ (create riscv w.size).setAll (as.map Assignment.pair) = (r, none)
      ∧ Program.buildRegisters (Program.assigning w items) = .ok r := by
  intro r hitems hcells
  have hdump : r.dump = _ := dump_after riscv w ops
  rw [hdump] at hitems hcells
  have hitems' : ∀ item ∈ items, ∃ register,
      Assignment.Shows w (register, contentAfter riscv w ops register) item := by
    intro item hitem
    obtain ⟨cell, hcell, hshows⟩ := hitems item hitem
    obtain ⟨register, -, rfl⟩ := List.mem_map.mp hcell
    exact ⟨register, hshows⟩
  obtain ⟨as, has⟩ := Assignment.exists_parseAll fun item hitem => by
    obtain ⟨register, hshows⟩ := hitems' item hitem
    obtain ⟨a, ha, -⟩ := Assignment.parse_shown hshows (contentAfter_lt ops register)
    exact ⟨a, ha⟩
  have hset : (create riscv w.size).setAll (as.map Assignment.pair) = (r, none) := by
    rw [show r = _ from after_create riscv w ops]
    exact setAll_of_shown (contentAfter_lt ops) (contentAfter_hardwired ops) hitems'
      (fun register hregister => hcells _ (List.mem_map_of_mem hregister)) has
  refine ⟨as, has, hset, ?_⟩
  rw [Program.buildRegisters_assigning, has]
  exact storeAll_of_setAll hset

/-- A dump written from its end, `sp` by its place and the even words in hexadecimal. What was set
    in `$0` and under the name of no register is not in it. -/
theorem restored_from_reversed_dump :
    let r := (create riscv Width.w64.size).after
      [.set "sp" 0x80000000, .set "x31" (-1), .set "$0" 5, .set "q" 3]
    let items := r.dump.reverse.map fun cell =>
      (if cell.1 = "sp" then "$x2" else "$" ++ cell.1) ++ "="
        ++ showWord Width.w64.size (cell.2 % 2 == 0) cell.2
    ("$t6=18446744073709551615" ∈ items ∧ "$x2=0x0000000080000000" ∈ items
      ∧ "$$0=0x0000000000000000" ∈ items)
    ∧ Program.buildRegisters (Program.assigning .w64 items) = .ok r := by
  intro r items
  have hshows : ∀ cell ∈ r.dump, Assignment.Shows .w64 cell
      ((if cell.1 = "sp" then "$x2" else "$" ++ cell.1) ++ "="
        ++ showWord Width.w64.size (cell.2 % 2 == 0) cell.2) := by
    rintro ⟨register, value⟩ hcell
    have hregister : register ∈ riscv ++ [programCounter] := by
      rw [show r.dump = _ from dump_after riscv .w64 _] at hcell
      obtain ⟨register, hregister, hcell⟩ := List.mem_map.mp hcell
      cases hcell
      exact hregister
    by_cases hsp : register = "sp"
    · subst hsp
      exact .intro _ (.inr rfl) (show Denotes riscv "x2" "sp" by decide)
    · rw [if_neg hsp]
      exact .intro _ (.inr rfl) (.own hregister)
  have hitems : ∀ item ∈ items, ∃ cell ∈ r.dump, Assignment.Shows .w64 cell item := by
    refine List.forall_mem_map.mpr fun cell hcell => ?_
    have hcell' := List.mem_reverse.mp hcell
    exact ⟨cell, hcell', hshows cell hcell'⟩
  have hcells : ∀ cell ∈ r.dump, ∃ item ∈ items, Assignment.Shows .w64 cell item :=
    fun cell hcell => ⟨_, List.mem_map_of_mem (List.mem_reverse.mpr hcell), hshows cell hcell⟩
  obtain ⟨as, -, -, hbuilt⟩ := dump_restores .w64
    [.set "sp" 0x80000000, .set "x31" (-1), .set "$0" 5, .set "q" 3] items hitems hcells
  exact ⟨by decide +kernel, hbuilt⟩

end RegisterFile

end WordExpr
