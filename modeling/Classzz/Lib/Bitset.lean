import Mathlib.Data.Nat.Bitwise
import Mathlib.Data.List.Basic

/-!
# Bitsets in bytes

A list of bytes read as a bitset, the bits of each byte most significant first: bit `i` is the
bit of mask `bitMask i` in byte `i / 8`, and `false` past the end. Setting a bit ORs its mask in
(`bit_setBit`); two bitsets of one length with the same bits are equal (`ext_bit`).
-/

namespace Bitset

/-- The mask of bit `i` in its byte: `1 << (7 - i % 8)`. -/
def bitMask (i : ℕ) : UInt8 :=
  1 <<< UInt8.ofNat (7 - i % 8)

/-- Bit `i` of the bytes: byte `i / 8` tested against `bitMask i`. -/
def bit (bs : List UInt8) (i : ℕ) : Bool :=
  bs.getD (i / 8) 0 &&& bitMask i != 0

/-- `bs[i/8] |= bitMask i`. -/
def setBit (bs : List UInt8) (i : ℕ) : List UInt8 :=
  bs.modify (i / 8) (· ||| bitMask i)

theorem toNat_bitMask (i : ℕ) : (bitMask i).toNat = 2 ^ (7 - i % 8) := by
  have hs : 7 - i % 8 < 8 := by omega
  have hpow : 2 ^ (7 - i % 8) < 2 ^ 8 := Nat.pow_lt_pow_right Nat.one_lt_two hs
  rw [bitMask, UInt8.toNat_shiftLeft, UInt8.toNat_ofNat', Nat.mod_eq_of_lt (by omega : 7 - i % 8 < 2 ^ 8),
    Nat.mod_eq_of_lt hs, UInt8.toNat_one, Nat.one_shiftLeft, Nat.mod_eq_of_lt hpow]

/-- Testing a mask reads one bit of the byte. -/
theorem and_bitMask_ne_zero (x : UInt8) (i : ℕ) :
    (x &&& bitMask i != 0) = x.toNat.testBit (7 - i % 8) := by
  have hand : (x &&& bitMask i).toNat = (x.toNat.testBit (7 - i % 8)).toNat * 2 ^ (7 - i % 8) := by
    rw [UInt8.toNat_and, toNat_bitMask, Nat.and_two_pow]
  cases hb : x.toNat.testBit (7 - i % 8) with
  | false =>
    rw [hb, Bool.toNat_false, zero_mul] at hand
    simp [← UInt8.toNat_inj, hand]
  | true =>
    rw [hb, Bool.toNat_true, one_mul] at hand
    have hpos : 0 < 2 ^ (7 - i % 8) := Nat.two_pow_pos _
    simp only [bne_iff_ne, ne_eq, ← UInt8.toNat_inj, hand, UInt8.toNat_zero]
    omega

theorem bit_eq_testBit (bs : List UInt8) (i : ℕ) :
    bit bs i = (bs.getD (i / 8) 0).toNat.testBit (7 - i % 8) :=
  and_bitMask_ne_zero _ i

@[simp] theorem length_setBit (bs : List UInt8) (i : ℕ) : (setBit bs i).length = bs.length :=
  List.length_modify _ _ _

/-- Setting bit `i` sets it and no other. -/
theorem bit_setBit {bs : List UInt8} {i : ℕ} (hi : i / 8 < bs.length) (j : ℕ) :
    bit (setBit bs i) j = (bit bs j || decide (j = i)) := by
  rw [bit_eq_testBit, bit_eq_testBit, setBit, List.getD_eq_getElem?_getD, List.getElem?_modify,
    List.getD_eq_getElem?_getD]
  by_cases hji : j / 8 = i / 8
  · -- the same byte: the mask adds the one bit whose position agrees
    rw [← hji] at hi
    rw [List.getElem?_eq_getElem hi]
    simp only [Option.map_eq_map, Option.map_some, Option.getD_some, hji, if_true,
      UInt8.toNat_or, Nat.testBit_or, toNat_bitMask, Nat.testBit_two_pow]
    congr 1
    rw [decide_eq_decide]
    constructor <;> intro <;> omega
  · simp only [Option.map_eq_map, Ne.symm hji, if_false, Option.map_id_fun', id_eq]
    have hne : j ≠ i := fun h => hji (h ▸ rfl)
    simp [hne]

@[simp] theorem bit_replicate_zero (n i : ℕ) : bit (List.replicate n 0) i = false := by
  rw [bit, List.getD_eq_getElem?_getD, List.getElem?_replicate]
  split_ifs <;> simp

theorem bit_of_length_le {bs : List UInt8} {i : ℕ} (h : bs.length ≤ i / 8) : bit bs i = false := by
  simp [bit, List.getD_eq_getElem?_getD, List.getElem?_eq_none h]

/-- The byte at `k` has bit `7 - s` of its value at position `8 k + s`. -/
theorem bit_eight_mul_add (bs : List UInt8) {k s : ℕ} (hs : s < 8) :
    bit bs (8 * k + s) = (bs.getD k 0).toNat.testBit (7 - s) := by
  rw [bit_eq_testBit]
  have hdiv : (8 * k + s) / 8 = k := by omega
  have hmod : (8 * k + s) % 8 = s := by omega
  rw [hdiv, hmod]

/-- Two bitsets of one length with the same bits are equal. -/
theorem ext_bit {bs₁ bs₂ : List UInt8} (hlen : bs₁.length = bs₂.length)
    (h : ∀ i, bit bs₁ i = bit bs₂ i) : bs₁ = bs₂ := by
  refine List.ext_getElem hlen fun k hk₁ hk₂ => ?_
  rw [← UInt8.toNat_inj]
  refine Nat.eq_of_testBit_eq fun s => ?_
  by_cases hs : s < 8
  · -- bit `s` of byte `k` is the bitset's bit `8 k + (7 - s)`
    have := h (8 * k + (7 - s))
    rw [bit_eight_mul_add _ (by omega), bit_eight_mul_add _ (by omega), Nat.sub_sub_self (by omega),
      List.getD_eq_getElem?_getD, List.getD_eq_getElem?_getD, List.getElem?_eq_getElem hk₁,
      List.getElem?_eq_getElem hk₂] at this
    exact this
  · -- a byte has no bits from the eighth on
    have hlt : ∀ x : UInt8, x.toNat < 2 ^ s := fun x =>
      x.toNat_lt.trans_le (Nat.pow_le_pow_right Nat.two_pos (by omega))
    rw [Nat.testBit_eq_false_of_lt (hlt _), Nat.testBit_eq_false_of_lt (hlt _)]

/-- A bitset with no bit set is all zero bytes. -/
theorem eq_replicate_zero {bs : List UInt8} (h : ∀ i, bit bs i = false) :
    bs = List.replicate bs.length 0 :=
  ext_bit (by simp) fun i => by rw [h i, bit_replicate_zero]

end Bitset
