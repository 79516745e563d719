import Classzz.Lib.Bitset

/-!
# Sparse bitset compression

`bitutil.CompressBytes` and `DecompressBytes`. A byte string is encoded as the encoding of the
bitset of its nonzero bytes followed by those bytes, recursively; `CompressBytes` keeps the
encoding only when it is shorter than the input. The decoder knows the length of its output:
it decodes the bitset of that length first, then places the next input byte at each set bit,
rejecting a missing byte, a zero byte and a set bit past the target.

The encoder's loop sets the bit of every nonzero byte and gathers those bytes
(`bit_nonZeroLoop`, `nonZeroLoop_snd`); both recursions go down in length, as a bitset of `n ≥ 2`
bytes has fewer than `n` bytes.
-/

namespace Classzz.Bitutil

open Bitset

/-- The errors of the decoder. -/
inductive DecodeError
  | missingData
  | unreferencedData
  | exceededTarget
  | zeroContent
  deriving DecidableEq, Repr

section Encode

/-- One turn of the loop of `bitsetEncodeBytes` over the index and byte of the input: a nonzero
byte sets its bit and is gathered. -/
def nonZeroStep (acc : List UInt8 × List UInt8) (bi : UInt8 × ℕ) : List UInt8 × List UInt8 :=
  if bi.1 ≠ 0 then (setBit acc.1 bi.2, acc.2 ++ [bi.1]) else acc

/-- The loop of `bitsetEncodeBytes`: the bitset of the nonzero bytes, `(len(data)+7)/8` bytes
long, and the nonzero bytes in order. -/
def nonZeroLoop (data : List UInt8) : List UInt8 × List UInt8 :=
  data.zipIdx.foldl nonZeroStep (List.replicate ((data.length + 7) / 8) 0, [])

theorem length_foldl_nonZeroStep (l : List (UInt8 × ℕ)) (acc : List UInt8 × List UInt8) :
    (l.foldl nonZeroStep acc).1.length = acc.1.length := by
  induction l generalizing acc with
  | nil => rfl
  | cons bi l ih =>
    rw [List.foldl_cons, ih, nonZeroStep]
    split_ifs <;> simp

theorem length_nonZeroLoop_fst (data : List UInt8) :
    (nonZeroLoop data).1.length = (data.length + 7) / 8 := by
  rw [nonZeroLoop, length_foldl_nonZeroStep, List.length_replicate]

theorem length_nonZeroLoop_fst_lt {data : List UInt8} (h : 2 ≤ data.length) :
    (nonZeroLoop data).1.length < data.length := by
  rw [length_nonZeroLoop_fst]
  omega

/-- `bitsetEncodeBytes`. -/
def bitsetEncodeBytes (data : List UInt8) : List UInt8 :=
  if data.length = 0 then []
  else if data.length = 1 then (if data.getD 0 0 = 0 then [] else data)
  else if (nonZeroLoop data).2.length = 0 then []
  else bitsetEncodeBytes (nonZeroLoop data).1 ++ (nonZeroLoop data).2
termination_by data.length
decreasing_by exact length_nonZeroLoop_fst_lt (by omega)

/-- `CompressBytes`: the encoding if it is shorter, the input otherwise. -/
def compressBytes (data : List UInt8) : List UInt8 :=
  let out := bitsetEncodeBytes data
  if out.length < data.length then out else data

end Encode

section EncodeSpec

/-- The encoder's loop from index `k` on: the bits of the nonzero bytes are added to the
bitset and the nonzero bytes to the gathered ones. -/
theorem foldl_nonZeroStep (l : List UInt8) (k : ℕ) (acc : List UInt8 × List UInt8)
    (hacc : (k + l.length + 7) / 8 ≤ acc.1.length) :
    (∀ i, bit ((l.zipIdx k).foldl nonZeroStep acc).1 i =
      (bit acc.1 i || (decide (k ≤ i) && l.getD (i - k) 0 != 0))) ∧
    ((l.zipIdx k).foldl nonZeroStep acc).2 = acc.2 ++ l.filter (· != 0) := by
  induction l generalizing k acc with
  | nil => simp
  | cons b l ih =>
    have hk : k / 8 < acc.1.length := by
      simp only [List.length_cons] at hacc
      omega
    rw [List.zipIdx_cons, List.foldl_cons]
    have hacc' : (k + 1 + l.length + 7) / 8 ≤ (nonZeroStep acc (b, k)).1.length := by
      simp only [List.length_cons] at hacc
      rw [nonZeroStep]
      split_ifs
      · rw [length_setBit]
        omega
      · omega
    obtain ⟨hbits, hbytes⟩ := ih (k + 1) (nonZeroStep acc (b, k)) hacc'
    constructor
    · intro i
      rw [hbits i]
      -- position `k` is the byte `b`, the later ones are the rest
      rcases lt_trichotomy i k with hik | rfl | hik
      · by_cases hb : b = 0 <;>
          simp [nonZeroStep, hb, bit_setBit hk, hik.ne, show ¬ k ≤ i by omega, show ¬ k + 1 ≤ i by omega]
      · by_cases hb : b = 0 <;> simp [nonZeroStep, hb, bit_setBit hk]
      · obtain ⟨j, rfl⟩ : ∃ j, i = k + 1 + j := ⟨i - (k + 1), by omega⟩
        have hsub : k + 1 + j - k = j + 1 := by omega
        by_cases hb : b = 0 <;>
          simp [nonZeroStep, hb, bit_setBit hk, hsub, show k + 1 + j ≠ k by omega,
            show k ≤ k + 1 + j by omega]
    · rw [hbytes, List.filter_cons]
      by_cases hb : b = 0 <;> simp [nonZeroStep, hb]

/-- The bitset of the encoder has the bit of every nonzero byte and no other. -/
theorem bit_nonZeroLoop (data : List UInt8) (i : ℕ) :
    bit (nonZeroLoop data).1 i = (data.getD i 0 != 0) := by
  have h := (foldl_nonZeroStep data 0 (List.replicate ((data.length + 7) / 8) 0, [])
    (by simp)).1 i
  rw [nonZeroLoop, h]
  simp

theorem nonZeroLoop_snd (data : List UInt8) : (nonZeroLoop data).2 = data.filter (· != 0) := by
  rw [nonZeroLoop, (foldl_nonZeroStep data 0 _ (by simp)).2, List.nil_append]

theorem bitsetEncodeBytes_nil : bitsetEncodeBytes [] = [] := by
  rw [bitsetEncodeBytes]
  rfl

theorem bitsetEncodeBytes_singleton (b : UInt8) :
    bitsetEncodeBytes [b] = if b = 0 then [] else [b] := by
  rw [bitsetEncodeBytes]
  simp

/-- From two bytes on: nothing for no nonzero byte, and otherwise the encoded bitset of the
nonzero bytes before them. -/
theorem bitsetEncodeBytes_of_two_le {data : List UInt8} (h : 2 ≤ data.length) :
    bitsetEncodeBytes data = if data.filter (· != 0) = [] then []
      else bitsetEncodeBytes (nonZeroLoop data).1 ++ data.filter (· != 0) := by
  rw [bitsetEncodeBytes, if_neg (by omega), if_neg (by omega), nonZeroLoop_snd]
  simp only [List.length_eq_zero_iff]

theorem bitsetEncodeBytes_replicate_zero (n : ℕ) : bitsetEncodeBytes (List.replicate n 0) = [] := by
  match n with
  | 0 => exact bitsetEncodeBytes_nil
  | 1 => rw [List.replicate_one, bitsetEncodeBytes_singleton, if_pos rfl]
  | n + 2 =>
    rw [bitsetEncodeBytes_of_two_le (by simp)]
    simp

end EncodeSpec

section Decode

/-- The loop of `bitsetDecodePartialBytes` over the bits `i` of the decoded bitset: at a set
bit the next input byte goes to position `i`, after the checks of the source in its order. -/
def placeLoop (data nonZeroBitset : List UInt8) :
    List ℕ → List UInt8 → ℕ → Except DecodeError (List UInt8 × ℕ)
  | [], decomp, ptr => .ok (decomp, ptr)
  | i :: is, decomp, ptr =>
    if bit nonZeroBitset i then
      if data.length ≤ ptr then .error .missingData
      else if decomp.length ≤ i then .error .exceededTarget
      else if data.getD ptr 0 = 0 then .error .zeroContent
      else placeLoop data nonZeroBitset is (decomp.set i (data.getD ptr 0)) (ptr + 1)
    else placeLoop data nonZeroBitset is decomp ptr

/-- `bitsetDecodePartialBytes`: the output of length `target` and how many input bytes it
took. -/
def bitsetDecodePartialBytes (data : List UInt8) (target : ℕ) :
    Except DecodeError (List UInt8 × ℕ) :=
  if target = 0 then .ok ([], 0)
  else if data.length = 0 then .ok (List.replicate target 0, 0)
  else if target = 1 then
    -- the one byte is copied, and counted only when it is not zero
    if data.getD 0 0 ≠ 0 then .ok ([data.getD 0 0], 1) else .ok ([data.getD 0 0], 0)
  else do
    let r ← bitsetDecodePartialBytes data ((target + 7) / 8)
    placeLoop data r.1 (List.range (8 * r.1.length)) (List.replicate target 0) r.2
termination_by target
decreasing_by omega

/-- `bitsetDecodeBytes`: every input byte must be used. -/
def bitsetDecodeBytes (data : List UInt8) (target : ℕ) : Except DecodeError (List UInt8) := do
  let r ← bitsetDecodePartialBytes data target
  if r.2 ≠ data.length then .error .unreferencedData else .ok r.1

/-- `DecompressBytes`: an input of the target's length was not compressed. -/
def decompressBytes (data : List UInt8) (target : ℕ) : Except DecodeError (List UInt8) :=
  if data.length > target then .error .exceededTarget
  else if data.length = target then .ok data
  else bitsetDecodeBytes data target

end Decode

end Classzz.Bitutil
