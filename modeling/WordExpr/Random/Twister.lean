/-
  WordExpr.Random.Twister

  The Mersenne Twister MT19937 as a source of choices. A state holds 624 words of 32 bits
  and the place of the next one; when all are used, they are stirred. A choice among `n`
  values masks outputs to the fewest bits that hold `n - 1` and takes the first result
  that is small enough.
-/
import WordExpr.Random.Source

namespace WordExpr.Random

/-- A state of the generator: the words, and how many of them have been given out. -/
structure Twister where
  words : Array UInt32
  used : Nat
  deriving Repr

/-- Why there is no generator for a seed. -/
structure SeedError where
  seed : Int
  deriving DecidableEq, Repr

/-- The wording of a refused seed. -/
def SeedError.message (_ : SeedError) : String := "Seed must be between 0 and 2**32 - 1"

namespace Twister

/-- Number of words of a state. -/
def size : Nat := 624

/-- Distance of the word that is mixed into another. -/
def shift : Nat := 397

/-- One more word of the initial state, behind those there are. -/
def seedNext (words : Array UInt32) : Array UInt32 :=
  let last := words.back?.getD 0
  words.push ((1812433253 : UInt32) * (last ^^^ (last >>> 30)) + UInt32.ofNat words.size)

/-- The state that starts from a word. -/
def ofWord (seed : UInt32) : Twister :=
  ⟨(List.range (size - 1)).foldl (fun words _ => seedNext words) #[seed], size⟩

/-- The state of a seed, which has to fit a word. -/
def ofSeed (seed : Int) : Except SeedError Twister :=
  if 0 ≤ seed ∧ seed < (1 <<< 32 : Nat) then .ok (ofWord (UInt32.ofNat seed.toNat)) else .error ⟨seed⟩

/-- The word that the i-th one becomes when the state is stirred. -/
def stirred (words : Array UInt32) (i : Nat) : UInt32 :=
  let upper := words.getD i 0 &&& 0x80000000
  let lower := words.getD ((i + 1) % size) 0 &&& 0x7fffffff
  let mixed := upper ||| lower
  -- The last bit of the mixed word says whether the twist is added.
  let twist : UInt32 := if mixed &&& 1 = 0 then 0 else 0x9908b0df
  words.getD ((i + shift) % size) 0 ^^^ (mixed >>> 1) ^^^ twist

/-- All words stirred, in order and in place. -/
def stir (words : Array UInt32) : Array UInt32 :=
  (List.range size).foldl (fun words i => words.setIfInBounds i (stirred words i)) words

/-- The output that a word of the state gives. -/
def temper (y : UInt32) : UInt32 :=
  let y := y ^^^ (y >>> 11)
  let y := y ^^^ ((y <<< 7) &&& 0x9d2c5680)
  let y := y ^^^ ((y <<< 15) &&& 0xefc60000)
  y ^^^ (y >>> 18)

/-- The next output of 32 bits. -/
def next32 (t : Twister) : Nat × Twister :=
  let t := if size ≤ t.used then ⟨stir t.words, 0⟩ else t
  ((temper (t.words.getD t.used 0)).toNat, { t with used := t.used + 1 })

/-- Two outputs as one of 64 bits, the first one in the upper half. -/
def next64 (t : Twister) : Nat × Twister :=
  let (high, t) := t.next32
  let (low, t) := t.next32
  ((high <<< 32) + low, t)

/-- Most outputs that one choice looks at. Each is small enough with a chance of more than
    one half, so this many are practically never needed. -/
def patience : Nat := 1024

/-- The first output below `n` when outputs are cut to their last `bits` bits. -/
def firstBelow (n bits : Nat) (next : Twister → Nat × Twister) : Nat → Twister → Nat × Twister
  | 0, t => (0, t)
  | tries + 1, t =>
    let (v, t) := next t
    let v := v % (1 <<< bits)
    if v < n then (v, t) else firstBelow n bits next tries t

/-- A choice among `n` values. The only value there is takes no output. -/
def choose (n : Nat) (t : Twister) : Nat × Twister :=
  if n ≤ 1 then (0, t)
  else
    let next := if n ≤ 1 <<< 32 then next32 else next64
    firstBelow n (Nat.log2 (n - 1) + 1) next patience t

/-- The generator as a source of choices among up to `2 ^ 64` values. -/
def source : Source Twister := ⟨some (1 <<< 64), choose⟩

end Twister

end WordExpr.Random
