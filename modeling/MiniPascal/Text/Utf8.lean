/-!
# Characters from bytes

Source files are read as UTF-8.  A byte that belongs to no well-formed sequence becomes one
replacement character, and reading goes on behind it.
-/

namespace MiniPascal.Text

/-- The character that stands for a byte that is no text. -/
def replacement : Char := '�'

/-- The six low bits of a byte that continues a sequence. -/
def continuation? (b : UInt8) : Option Nat :=
  if 0x80 ≤ b ∧ b ≤ 0xBF then some (b.toNat - 0x80) else none

/-- The character with code point `n`, if `n` is one and needs more than the code points below
`least`: longer spellings than necessary are not well formed. -/
def charFrom? (least n : Nat) : Option Char :=
  if h : least ≤ n ∧ n.isValidChar then some (Char.ofNatAux n h.2) else none

/-- The character that starts at byte `b`, followed by `bs`, and the number of bytes of `bs` that
it takes. -/
def leading? (b : UInt8) (bs : List UInt8) : Option (Char × Nat) :=
  if b < 0x80 then some (Char.ofNat b.toNat, 0)
  else if 0xC0 ≤ b ∧ b < 0xE0 then
    match bs with
    | b₁ :: _ => do
      let x ← continuation? b₁
      let c ← charFrom? 0x80 ((b.toNat - 0xC0) * 64 + x)
      return (c, 1)
    | _ => none
  else if 0xE0 ≤ b ∧ b < 0xF0 then
    match bs with
    | b₁ :: b₂ :: _ => do
      let x ← continuation? b₁
      let y ← continuation? b₂
      let c ← charFrom? 0x800 (((b.toNat - 0xE0) * 64 + x) * 64 + y)
      return (c, 2)
    | _ => none
  else if 0xF0 ≤ b ∧ b < 0xF8 then
    match bs with
    | b₁ :: b₂ :: b₃ :: _ => do
      let x ← continuation? b₁
      let y ← continuation? b₂
      let z ← continuation? b₃
      let c ← charFrom? 0x10000 ((((b.toNat - 0xF0) * 64 + x) * 64 + y) * 64 + z)
      return (c, 3)
    | _ => none
  else none

/-- The characters that some bytes spell, with a replacement for each byte that spells none. -/
def decode : List UInt8 → List Char
  | [] => []
  | b :: bs =>
    match leading? b bs with
    | some (c, n) => c :: decode (bs.drop n)
    | none => replacement :: decode bs
termination_by bs => bs.length
decreasing_by all_goals simp only [List.length_drop, List.length_cons]; omega

end MiniPascal.Text
