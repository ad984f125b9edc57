/-!
# Digests

The 64-bit xxHash of a sequence of bytes, with seed 0.  Blocks of 32 bytes go into four accumulators; what
is left goes into the merged value in words of eight, four and one bytes.
-/

namespace MiniPascal.Digest

def prime₁ : UInt64 := 0x9E3779B185EBCA87
def prime₂ : UInt64 := 0xC2B2AE3D27D4EB4F
def prime₃ : UInt64 := 0x165667B19E3779F9
def prime₄ : UInt64 := 0x85EBCA77C2B2AE63
def prime₅ : UInt64 := 0x27D4EB2F165667C5

/-- A word turned to the left by `n` bits, of which there are fewer than 64. -/
def rotate (n : UInt64) (x : UInt64) : UInt64 := (x <<< n) ||| (x >>> (64 - n))

/-- The word that bytes spell, the lowest first. -/
def word (bs : List UInt8) : UInt64 := bs.foldr (fun b x => (x <<< 8) ||| b.toUInt64) 0

/-- Takes a word into an accumulator. -/
def round (acc lane : UInt64) : UInt64 := rotate 31 (acc + lane * prime₂) * prime₁

/-- Takes an accumulator into the merged value. -/
def merge (acc lane : UInt64) : UInt64 := (acc ^^^ round 0 lane) * prime₁ + prime₄

structure Lanes where
  a : UInt64 := prime₁ + prime₂
  b : UInt64 := prime₂
  c : UInt64 := 0
  d : UInt64 := 0 - prime₁

/-- Takes a block of 32 bytes into the accumulators. -/
def Lanes.absorb (l : Lanes) (block : List UInt8) : Lanes :=
  { a := round l.a (word (block.take 8))
    b := round l.b (word ((block.drop 8).take 8))
    c := round l.c (word ((block.drop 16).take 8))
    d := round l.d (word ((block.drop 24).take 8)) }

/-- The merged value of the accumulators. -/
def Lanes.merged (l : Lanes) : UInt64 :=
  let sum := rotate 1 l.a + rotate 7 l.b + rotate 12 l.c + rotate 18 l.d
  merge (merge (merge (merge sum l.a) l.b) l.c) l.d

/-- Takes all whole blocks into the accumulators; gives back the bytes that are left. -/
def blocks (l : Lanes) (bs : List UInt8) : Lanes × List UInt8 :=
  if _h : 32 ≤ bs.length then blocks (l.absorb (bs.take 32)) (bs.drop 32) else (l, bs)
termination_by bs.length
decreasing_by simp only [List.length_drop]; omega

/-- Takes the bytes that are left into the value. -/
def tail (x : UInt64) (bs : List UInt8) : UInt64 :=
  if _h : 8 ≤ bs.length then
    tail (rotate 27 (x ^^^ round 0 (word (bs.take 8))) * prime₁ + prime₄) (bs.drop 8)
  else if _h : 4 ≤ bs.length then
    tail (rotate 23 (x ^^^ (word (bs.take 4) * prime₁)) * prime₂ + prime₃) (bs.drop 4)
  else
    match bs with
    | [] => x
    | b :: rest => tail (rotate 11 (x ^^^ (b.toUInt64 * prime₅)) * prime₁) rest
termination_by bs.length
decreasing_by all_goals simp only [List.length_drop, List.length_cons]; omega

/-- Mixes the bits of the value. -/
def finish (x : UInt64) : UInt64 :=
  let x := (x ^^^ (x >>> 33)) * prime₂
  let x := (x ^^^ (x >>> 29)) * prime₃
  x ^^^ (x >>> 32)

def ofBytes (bs : List UInt8) : UInt64 :=
  let (lanes, rest) := blocks {} bs
  let start := if bs.length < 32 then prime₅ else lanes.merged
  finish (tail (start + UInt64.ofNat bs.length) rest)

/-- A digest in hexadecimal, without leading zeros. -/
def text (x : UInt64) : String := String.ofList (Nat.toDigits 16 x.toNat)

end MiniPascal.Digest
