/-
  WordExpr.Text.Utf8

  Decoding UTF-8, with the reason why bytes are not UTF-8. Files are read in blocks; the
  bytes of a character that a block cuts off wait for the next block, and the position of
  an error counts from the first byte that was waiting.
-/

namespace WordExpr.Text.Utf8

/-- What is wrong with bytes that are not UTF-8. -/
inductive Reason where
  | invalidStart
  | invalidContinuation
  | unexpectedEnd
  deriving DecidableEq, Repr

/-- The wording of a reason. -/
def Reason.message : Reason → String
  | invalidStart => "invalid start byte"
  | invalidContinuation => "invalid continuation byte"
  | unexpectedEnd => "unexpected end of data"

/-- Bytes that are not UTF-8: where they start, the bytes, and why. -/
structure Error where
  position : Nat
  bytes : List UInt8
  reason : Reason
  deriving DecidableEq, Repr

/-- Two hexadecimal digits of a byte. -/
def hexByte (b : UInt8) : String :=
  String.ofList [Nat.digitChar (b.toNat / 16), Nat.digitChar (b.toNat % 16)]

/-- The wording of an error. -/
def Error.message (e : Error) : String :=
  "'utf-8' codec can't decode " ++ what ++ ": " ++ e.reason.message
where
  what : String :=
    match e.bytes with
    | [b] => "byte 0x" ++ hexByte b ++ " in position " ++ toString e.position
    | bs => "bytes in position " ++ toString e.position ++ "-"
        ++ toString (e.position + bs.length - 1)

/-- What stands at the start of some bytes. -/
inductive Step where
  /-- A character of so many bytes. -/
  | char (c : Char) (length : Nat)
  /-- The start of a character whose other bytes are missing. -/
  | cut
  /-- So many bytes that start no character. -/
  | bad (length : Nat) (reason : Reason)
  deriving DecidableEq, Repr

/-- Can the byte continue a character? -/
def isContinuation (b : UInt8) : Bool := 0x80 ≤ b && b < 0xC0

/-- How many bytes a character has that starts with this byte; 0 if none does. -/
def lengthOf (b : UInt8) : Nat :=
  if b < 0x80 then 1
  else if b < 0xC2 then 0
  else if b < 0xE0 then 2
  else if b < 0xF0 then 3
  else if b < 0xF5 then 4
  else 0

/-- Can the byte be the second one after this first one? Overlong forms, surrogates and
    numbers past the last code point are ruled out here. -/
def isSecond (first b : UInt8) : Bool :=
  isContinuation b &&
    (if first = 0xE0 then 0xA0 ≤ b
     else if first = 0xED then b < 0xA0
     else if first = 0xF0 then 0x90 ≤ b
     else if first = 0xF4 then b < 0x90
     else true)

/-- The number in the low bits of the bytes of a character. -/
def scalar : List UInt8 → Nat
  | [] => 0
  | first :: rest =>
    let mask := match rest.length with
      | 0 => 128
      | 1 => 32
      | 2 => 16
      | _ => 8
    rest.foldl (fun n b => n * 64 + b.toNat % 64) (first.toNat % mask)

/-- How many bytes behind the first one fit a character that starts with it. -/
def fitting (first : UInt8) (rest : List UInt8) : Nat :=
  match rest with
  | [] => 0
  | second :: more =>
    if isSecond first second then
      1 + (more.take (lengthOf first - 2) |>.takeWhile isContinuation).length
    else 0

/-- What stands at the start of the bytes `first :: rest`. -/
def step (first : UInt8) (rest : List UInt8) : Step :=
  let length := lengthOf first
  if length = 0 then .bad 1 .invalidStart
  else if length = 1 then .char (Char.ofNat first.toNat) 1
  else
    let good := fitting first rest
    if good = length - 1 then
      .char (Char.ofNat (scalar (first :: rest.take good))) length
    -- Every byte there is fits, so the rest of the character may still come.
    else if rest.length = good then .cut
    else .bad (1 + good) .invalidContinuation

/-- Does a block that ends in these bytes leave them waiting, although they start no
    character? The first half of an encoded surrogate does. -/
def isWaitingSurrogate (first : UInt8) (rest : List UInt8) : Bool :=
  first = 0xED && rest.length = 1 && rest.all fun b => 0xA0 ≤ b && b < 0xC0

/-- The characters of a block, behind those decoded so far, and the bytes that wait for
    the next block; in the last block none may. -/
def decodeBlock (final : Bool) (position : Nat) (bs : List UInt8) (decoded : Array Char) :
    Except Error (Array Char × List UInt8) :=
  match bs with
  | [] => .ok (decoded, [])
  | first :: rest =>
    match step first rest with
    | .char c length =>
      decodeBlock final (position + length) (rest.drop (length - 1)) (decoded.push c)
    | .cut =>
      if final then .error ⟨position, first :: rest, .unexpectedEnd⟩
      else .ok (decoded, first :: rest)
    | .bad length reason =>
      if !final && isWaitingSurrogate first rest then .ok (decoded, first :: rest)
      else .error ⟨position, (first :: rest).take length, reason⟩
termination_by bs.length
decreasing_by simp only [List.length_drop, List.length_cons]; omega

/-- Number of bytes that are read at a time. -/
def blockSize : Nat := 8192

/-- The characters of bytes that are read in blocks, when some are waiting already. -/
def decodeBlocks (waiting bs : List UInt8) (decoded : Array Char) : Except Error (Array Char) :=
  if _h : bs = [] then
    Prod.fst <$> decodeBlock true 0 waiting decoded
  else
    match decodeBlock false 0 (waiting ++ bs.take blockSize) decoded with
    | .error e => .error e
    | .ok (decoded, waiting) => decodeBlocks waiting (bs.drop blockSize) decoded
termination_by bs.length
decreasing_by
  have := List.length_pos_iff.2 _h
  simp only [List.length_drop, blockSize]
  omega

/-- The text that bytes encode. -/
def decode (bs : List UInt8) : Except Error (List Char) :=
  Array.toList <$> decodeBlocks [] bs #[]

end WordExpr.Text.Utf8
