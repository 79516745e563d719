import Classzz.Rlp.Encode
import Classzz.Common.Types
import Classzz.Lib.KeyOrder

/-!
# `AppendUint64`

`rlp.AppendUint64` writes the RLP encoding of a `uint64` after the bytes it is given: `0x80` for
zero, the byte itself below `0x80`, and otherwise the string header `0x80 + k` and the `k` bytes
of the number, the source spelling out each `k` from one to eight. It writes the encoding of the
number as an item (`appendUint64_eq`).

Of two strings of one length, the one of smaller big-endian value parts from the other to the
left (`leftOf_of_beValue_lt`); so the encodings of numbers of one byte length are ordered as the
numbers are.
-/

open Rlp KeyOrder

namespace Classzz.Rlp

/-- `AppendUint64`. -/
def appendUint64 (b : List UInt8) (i : UInt64) : List UInt8 :=
  if i = 0 then b ++ [0x80]
  else if i < 128 then b ++ [i.toUInt8]
  else if i < (1 : UInt64) <<< 8 then b ++ [(0x81 : UInt8), i.toUInt8]
  else if i < (1 : UInt64) <<< 16 then b ++ [(0x82 : UInt8), (i >>> 8).toUInt8, i.toUInt8]
  else if i < (1 : UInt64) <<< 24 then
    b ++ [(0x83 : UInt8), (i >>> 16).toUInt8, (i >>> 8).toUInt8, i.toUInt8]
  else if i < (1 : UInt64) <<< 32 then
    b ++ [(0x84 : UInt8), (i >>> 24).toUInt8, (i >>> 16).toUInt8, (i >>> 8).toUInt8, i.toUInt8]
  else if i < (1 : UInt64) <<< 40 then
    b ++ [(0x85 : UInt8), (i >>> 32).toUInt8, (i >>> 24).toUInt8, (i >>> 16).toUInt8, (i >>> 8).toUInt8,
      i.toUInt8]
  else if i < (1 : UInt64) <<< 48 then
    b ++ [(0x86 : UInt8), (i >>> 40).toUInt8, (i >>> 32).toUInt8, (i >>> 24).toUInt8, (i >>> 16).toUInt8,
      (i >>> 8).toUInt8, i.toUInt8]
  else if i < (1 : UInt64) <<< 56 then
    b ++ [(0x87 : UInt8), (i >>> 48).toUInt8, (i >>> 40).toUInt8, (i >>> 32).toUInt8, (i >>> 24).toUInt8,
      (i >>> 16).toUInt8, (i >>> 8).toUInt8, i.toUInt8]
  else
    b ++ [(0x88 : UInt8), (i >>> 56).toUInt8, (i >>> 48).toUInt8, (i >>> 40).toUInt8, (i >>> 32).toUInt8,
      (i >>> 24).toUInt8, (i >>> 16).toUInt8, (i >>> 8).toUInt8, i.toUInt8]

section Encoding

theorem toUInt8_shiftRight (i s : UInt64) (hs : s.toNat < 64) :
    (i >>> s).toUInt8 = UInt8.ofNat (i.toNat / 2 ^ s.toNat) := by
  rw [toUInt8_eq_ofNat, UInt64.toNat_shiftRight, Nat.shiftRight_eq_div_pow, Nat.mod_eq_of_lt hs]
  exact UInt8.ofNat_mod_size'

/-- A number of `k + 1` bytes has them all, leading zeros none. -/
theorem natBytes_eq_toBytesBE {k n : ℕ} (hlo : 256 ^ k ≤ n) (hhi : n < 256 ^ (k + 1)) :
    natBytes n = toBytesBE (k + 1) n := by
  induction k generalizing n with
  | zero =>
    rw [natBytes_of_pos (by omega), Nat.div_eq_of_lt (by simpa using hhi)]
    simp [natBytes, toBytesBE, UInt8.ofNat_mod_size']
  | succ k ih =>
    have hlo' : 256 ^ k ≤ n / 256 := by
      rw [Nat.le_div_iff_mul_le (by norm_num), ← pow_succ]
      exact hlo
    have hhi' : n / 256 < 256 ^ (k + 1) := by
      rw [Nat.div_lt_iff_lt_mul (by norm_num), ← pow_succ]
      exact hhi
    rw [natBytes_of_pos (Nat.lt_of_lt_of_le (by positivity) hlo), ih hlo' hhi',
      UInt8.ofNat_mod_size']
    rfl

theorem encode_nat_zero : encode (.nat 0) = [0x80] := rfl

theorem encode_nat_of_lt {n : ℕ} (h₀ : 0 < n) (h : n < 128) :
    encode (.nat n) = [UInt8.ofNat n] := by
  have hn : (UInt8.ofNat n).toNat < 128 := by
    rw [UInt8.toNat_ofNat', Nat.mod_eq_of_lt (by omega)]
    exact h
  rw [Item.nat, encode, natBytes_eq_toBytesBE (k := 0) (by rw [pow_zero]; exact h₀)
    (by rw [zero_add, pow_one]; omega)]
  simp only [toBytesBE, List.nil_append, encodeBytes, if_pos hn]

/-- From `0x80` on, a number is its bytes after the string header that counts them. -/
theorem encode_nat_of_le {n : ℕ} (h : 128 ≤ n) (hn : n < 2 ^ 64) :
    encode (.nat n) = UInt8.ofNat (128 + (natBytes n).length) :: natBytes n := by
  have hlen : (natBytes n).length ≤ 8 := length_natBytes_le hn
  rw [Item.nat, encode, encodeBytes_of_canonical]
  · simp [header, show (natBytes n).length < 56 by omega]
  · -- one byte from `0x80` on is no byte standing for itself
    rintro ⟨h1, h2⟩
    obtain ⟨x, hx⟩ := List.length_eq_one_iff.mp h1
    have hval := beValue_natBytes n
    rw [hx] at hval h2
    simp only [List.headD_cons, UInt8.lt_iff_toNat_lt, UInt8.reduceToNat] at h2
    simp [beValue] at hval
    omega

/-- One case of the switch: a number of `k + 1` bytes after the header `0x81 + k`. -/
theorem encode_nat_of_bytes {k n : ℕ} (hk : k < 8) (h : 128 ≤ n) (hlo : 256 ^ k ≤ n)
    (hhi : n < 256 ^ (k + 1)) : encode (.nat n) = UInt8.ofNat (129 + k) :: toBytesBE (k + 1) n := by
  have hn : n < 2 ^ 64 :=
    calc n < 256 ^ (k + 1) := hhi
      _ ≤ 256 ^ 8 := Nat.pow_le_pow_right (by norm_num) hk
      _ = 2 ^ 64 := by norm_num
  rw [encode_nat_of_le h hn, natBytes_eq_toBytesBE hlo hhi, length_toBytesBE, Nat.add_comm k 1,
    ← Nat.add_assoc]

/-- `AppendUint64` writes the RLP encoding of the number. -/
theorem appendUint64_eq (b : List UInt8) (i : UInt64) :
    appendUint64 b i = b ++ encode (.nat i.toNat) := by
  have hi : i.toNat < 2 ^ 64 := i.toNat_lt
  unfold appendUint64
  simp only [UInt64.lt_iff_toNat_lt, UInt64.toNat_shiftLeft, UInt64.reduceToNat, Nat.reduceMod,
    Nat.shiftLeft_eq, Nat.reducePow, Nat.reduceMul, ← UInt64.toNat_inj]
  split_ifs with h₀ h₁ h₂ h₃ h₄ h₅ h₆ h₇ h₈
  · rw [h₀, encode_nat_zero]
  · rw [encode_nat_of_lt (by omega) h₁, UInt8.ofNat_uInt64ToNat]
  -- the eight lengths of the switch, each through the header that counts its bytes
  · rw [encode_nat_of_bytes (k := 0) (by norm_num) (by omega) (by norm_num; omega) (by norm_num; omega)]
    simp [toBytesBE]
  · rw [encode_nat_of_bytes (k := 1) (by norm_num) (by omega) (by norm_num; omega) (by norm_num; omega)]
    simp [toBytesBE, toUInt8_shiftRight]
  · rw [encode_nat_of_bytes (k := 2) (by norm_num) (by omega) (by norm_num; omega) (by norm_num; omega)]
    simp [toBytesBE, toUInt8_shiftRight, Nat.div_div_eq_div_mul]
  · rw [encode_nat_of_bytes (k := 3) (by norm_num) (by omega) (by norm_num; omega) (by norm_num; omega)]
    simp [toBytesBE, toUInt8_shiftRight, Nat.div_div_eq_div_mul]
  · rw [encode_nat_of_bytes (k := 4) (by norm_num) (by omega) (by norm_num; omega) (by norm_num; omega)]
    simp [toBytesBE, toUInt8_shiftRight, Nat.div_div_eq_div_mul]
  · rw [encode_nat_of_bytes (k := 5) (by norm_num) (by omega) (by norm_num; omega) (by norm_num; omega)]
    simp [toBytesBE, toUInt8_shiftRight, Nat.div_div_eq_div_mul]
  · rw [encode_nat_of_bytes (k := 6) (by norm_num) (by omega) (by norm_num; omega) (by norm_num; omega)]
    simp [toBytesBE, toUInt8_shiftRight, Nat.div_div_eq_div_mul]
  · rw [encode_nat_of_bytes (k := 7) (by norm_num) (by omega) (by norm_num; omega) (by norm_num; omega)]
    simp [toBytesBE, toUInt8_shiftRight, Nat.div_div_eq_div_mul]

end Encoding

section Order

theorem beValue_cons (x : UInt8) (bs : List UInt8) :
    beValue (x :: bs) = x.toNat * 256 ^ bs.length + beValue bs := by
  rw [beValue_eq_ofDigits, beValue_eq_ofDigits, List.reverse_cons, List.map_append,
    Nat.ofDigits_append]
  simp
  ring

/-- Of two strings of one length, the one of smaller value parts from the other to the left. -/
theorem leftOf_of_beValue_lt : ∀ {a b : List UInt8}, a.length = b.length →
    beValue a < beValue b → LeftOf a b
  | [], [], _, h => absurd h (lt_irrefl _)
  | [], _ :: _, hl, _ => absurd hl (by simp)
  | _ :: _, [], hl, _ => absurd hl (by simp)
  | x :: a, y :: b, hl, h => by
    have hl' : a.length = b.length := by simpa using hl
    rw [beValue_cons, beValue_cons, ← hl'] at h
    rcases Nat.lt_trichotomy x.toNat y.toNat with hxy | hxy | hxy
    · exact leftOf_cons_cons a b (UInt8.lt_iff_toNat_lt.mpr hxy)
    · obtain rfl := UInt8.toNat_inj.mp hxy
      exact (leftOf_of_beValue_lt hl' (by omega)).cons x
    · -- a larger first byte outweighs any tail
      have hb : beValue b < 256 ^ a.length := hl' ▸ beValue_lt b
      have hfirst : y.toNat * 256 ^ a.length + 256 ^ a.length ≤ x.toNat * 256 ^ a.length := by
        rw [← Nat.succ_mul]
        exact Nat.mul_le_mul_right _ hxy
      omega

end Order

end Classzz.Rlp
