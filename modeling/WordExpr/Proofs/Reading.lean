/-
  WordExpr.Proofs.Reading

  Reading back what was printed. ASCII characters are encoded by one byte each, so the blocks
  in which a file is read cut no character off, and the text decoded is the text encoded
  (`Text.Utf8.decode_encode`). Lines that hold no line end of their own, printed one after the
  other, are split where they were joined (`Text.lines_unlines`).
-/
import WordExpr.Text.Lines
import WordExpr.Text.Utf8

namespace WordExpr.Text

/-! ## Bytes of ASCII texts -/

namespace Utf8

variable {c : Char} {cs : List Char}

/-- The bytes that encode a text. -/
def encode (cs : List Char) : List UInt8 := cs.flatMap String.utf8EncodeChar

/-- The byte that encodes an ASCII character. -/
def byteOf (c : Char) : UInt8 := UInt8.ofNat c.toNat

theorem encode_of_ascii (h : ∀ c ∈ cs, c.toNat < 128) : encode cs = cs.map byteOf := by
  induction cs with
  | nil => rfl
  | cons c cs ih =>
    obtain ⟨hc, hcs⟩ := List.forall_mem_cons.mp h
    have hbyte : String.utf8EncodeChar c = [byteOf c] := if_pos (Nat.le_of_lt_succ hc)
    rw [encode, List.flatMap_cons, hbyte]
    exact congrArg (byteOf c :: ·) (ih hcs)

theorem step_byteOf (h : c.toNat < 128) (rest : List UInt8) : step (byteOf c) rest = .char c 1 := by
  have hnat : (byteOf c).toNat = c.toNat := by
    rw [byteOf, UInt8.toNat_ofNat']
    exact Nat.mod_eq_of_lt (by omega)
  have hlt : byteOf c < 0x80 := by
    rw [UInt8.lt_iff_toNat_lt, hnat]
    exact h
  have hlength : lengthOf (byteOf c) = 1 := if_pos hlt
  rw [step]
  simp only [hlength, hnat, Char.ofNat_toNat]
  rfl

/-- A block of ASCII characters leaves no bytes waiting. -/
theorem decodeBlock_of_ascii (h : ∀ c ∈ cs, c.toNat < 128) (final : Bool) (position : Nat)
    (decoded : Array Char) :
    decodeBlock final position (cs.map byteOf) decoded = .ok (decoded ++ cs.toArray, []) := by
  induction cs generalizing position decoded with
  | nil =>
    rw [List.map_nil, decodeBlock, Array.append_empty]
  | cons c cs ih =>
    obtain ⟨hc, hcs⟩ := List.forall_mem_cons.mp h
    rw [List.map_cons, decodeBlock, step_byteOf hc]
    show decodeBlock final (position + 1) (cs.map byteOf) (decoded.push c) = _
    rw [ih hcs]
    simp

/-- Reading in blocks makes no difference to ASCII characters. -/
theorem decodeBlocks_of_ascii (h : ∀ c ∈ cs, c.toNat < 128) (decoded : Array Char) :
    decodeBlocks [] (cs.map byteOf) decoded = .ok (decoded ++ cs.toArray) := by
  generalize hlen : cs.length = n
  induction n using Nat.strongRecOn generalizing cs decoded with
  | ind n ih =>
    rw [decodeBlocks]
    split
    · rename_i hnil
      have hcs : cs = [] := List.map_eq_nil_iff.mp hnil
      subst hcs
      rw [decodeBlock, Array.append_empty]
      rfl
    · rename_i hne
      have hpos : 0 < cs.length := by
        apply List.length_pos_iff.mpr
        rintro rfl
        exact hne rfl
      -- The first block is decoded to its last byte, so that the next one starts anew.
      have htake : ∀ c ∈ cs.take blockSize, c.toNat < 128 :=
        fun c hc => h c (List.mem_of_mem_take hc)
      have hdrop : ∀ c ∈ cs.drop blockSize, c.toNat < 128 :=
        fun c hc => h c (List.mem_of_mem_drop hc)
      have hshorter : (cs.drop blockSize).length < n := by
        rw [List.length_drop, blockSize]
        omega
      rw [List.nil_append, ← List.map_take, decodeBlock_of_ascii htake]
      simp only
      rw [← List.map_drop, ih _ hshorter hdrop _ rfl, Array.append_assoc,
        List.append_toArray (cs.take blockSize) (cs.drop blockSize), List.take_append_drop]

theorem decode_encode (h : ∀ c ∈ cs, c.toNat < 128) : decode (encode cs) = .ok cs := by
  rw [decode, encode_of_ascii h, decodeBlocks_of_ascii h, Array.empty_append]
  rfl

end Utf8

/-! ## Lines -/

variable {cs line : List Char}

theorem unifyOnto_of_not_mem (h : '\r' ∉ cs) (written : List Char) :
    unifyOnto written cs = cs.reverse ++ written := by
  fun_induction unifyOnto written cs with
  | case1 written => rfl
  | case2 => exact absurd List.mem_cons_self h
  | case3 => exact absurd List.mem_cons_self h
  | case4 written c cs _ _ ih =>
    rw [ih fun hc => h (List.mem_cons_of_mem _ hc), List.reverse_cons, List.append_assoc]
    rfl

theorem unifyLineEnds_of_not_mem (h : '\r' ∉ cs) : unifyLineEnds cs = cs := by
  rw [unifyLineEnds, unifyOnto_of_not_mem h, List.append_nil, List.reverse_reverse]

theorem splitLinesOnto_append (h : '\n' ∉ line) (lines : Array String) (begun rest : List Char) :
    splitLinesOnto lines begun (line ++ '\n' :: rest)
      = splitLinesOnto (lines.push (String.ofList (begun.reverse ++ line ++ ['\n']))) [] rest := by
  induction line generalizing begun with
  | nil =>
    rw [List.nil_append, splitLinesOnto, List.append_nil, List.reverse_cons]
  | cons c line ih =>
    have hc : c ≠ '\n' := by
      rintro rfl
      exact h List.mem_cons_self
    have hline : '\n' ∉ line := fun hmem => h (List.mem_cons_of_mem c hmem)
    rw [List.cons_append, splitLinesOnto, ih hline, List.reverse_cons,
      List.append_assoc begun.reverse]
    · rfl
    · exact hc

/-- Lines that are printed one after the other. -/
def unlines (ls : List String) : List Char := ls.flatMap fun l => l.toList ++ ['\n']

theorem splitLinesOnto_unlines {ls : List String} (h : ∀ l ∈ ls, '\n' ∉ l.toList)
    (lines : Array String) :
    splitLinesOnto lines [] (unlines ls) = lines ++ (ls.map (· ++ "\n")).toArray := by
  induction ls generalizing lines with
  | nil =>
    rw [unlines, List.flatMap_nil, splitLinesOnto, List.map_nil, Array.append_empty]
    rfl
  | cons l ls ih =>
    obtain ⟨hl, hls⟩ := List.forall_mem_cons.mp h
    have hsplit : unlines (l :: ls) = l.toList ++ '\n' :: unlines ls := by
      rw [unlines, List.flatMap_cons, List.append_assoc]
      rfl
    have hline : String.ofList ([].reverse ++ l.toList ++ ['\n']) = l ++ "\n" := by
      rw [List.reverse_nil, List.nil_append, String.ofList_append, String.ofList_toList]
    rw [hsplit, splitLinesOnto_append hl, hline, ih hls]
    simp

/-- Printed lines are split where they were joined. -/
theorem lines_unlines {ls : List String} (hn : ∀ l ∈ ls, '\n' ∉ l.toList)
    (hr : ∀ l ∈ ls, '\r' ∉ l.toList) : (lines (unlines ls)).toList = ls.map (· ++ "\n") := by
  have hreturn : '\r' ∉ unlines ls := by
    intro hmem
    obtain ⟨l, hl, hc⟩ := List.mem_flatMap.mp hmem
    rcases List.mem_append.mp hc with hc | hc
    · exact hr l hl hc
    · exact absurd (List.mem_singleton.mp hc) (by decide)
  rw [lines, unifyLineEnds_of_not_mem hreturn, splitLinesOnto_unlines hn, Array.empty_append]

end WordExpr.Text
