import Mathlib.Data.Fintype.Basic
import Mathlib.Data.Nat.Digits.Defs

/-!
# Addresses, hashes and Go's integers

The fixed-size byte arrays of package `common` are modelled by the number
they spell big-endian: an `Address` is a 20-byte value and a `Hash` a
32-byte one, so `new(big.Int).SetBytes(a.Bytes())` is the value itself.
`BytesToAddress` and `BytesToHash` keep the trailing bytes, which is a
reduction modulo the size. `HexToHash` decodes the way `FromHex` does,
dropping an invalid tail as `Hex2Bytes` drops its error.

`cmp` is `big.Int.Cmp`, whose result is an `int`, so that code which compares
that result with other integers can be read as written. A Go call that does
not return normally either returns an error or panics; `Fault` records which.
-/

namespace Classzz

/-- A byte string, `[]byte`. -/
abbrev Bytes := List UInt8

/-- `common.Address`: twenty bytes, read big-endian. -/
abbrev Address := Fin (2 ^ 160)

/-- `common.Hash`: thirty-two bytes, read big-endian. -/
abbrev Hash := Fin (2 ^ 256)

instance neZero_addressSize : NeZero (2 ^ 160 : ℕ) := ⟨(Nat.pow_pos (by decide)).ne'⟩

instance neZero_hashSize : NeZero (2 ^ 256 : ℕ) := ⟨(Nat.pow_pos (by decide)).ne'⟩

instance lawfulBEq_address : LawfulBEq Address := inferInstance

/-- The number a byte string spells big-endian. -/
def bytesToNat (b : Bytes) : ℕ :=
  b.foldl (fun acc x => 256 * acc + x.toNat) 0

/-- `common.BytesToAddress`: the last twenty bytes, so the value modulo
`2 ^ 160`. -/
def bytesToAddress (b : Bytes) : Address :=
  Fin.ofNat (2 ^ 160) (bytesToNat b)

/-- `common.BytesToHash`: the last thirty-two bytes. -/
def bytesToHash (b : Bytes) : Hash :=
  Fin.ofNat (2 ^ 256) (bytesToNat b)

/-- The value of one hexadecimal digit, or `none` where `reverseHexTable`
marks the byte invalid. -/
def hexDigit? (c : Char) : Option ℕ :=
  if '0' ≤ c ∧ c ≤ '9' then some (c.toNat - '0'.toNat)
  else if 'a' ≤ c ∧ c ≤ 'f' then some (c.toNat - 'a'.toNat + 10)
  else if 'A' ≤ c ∧ c ≤ 'F' then some (c.toNat - 'A'.toNat + 10)
  else none

/-- `hex.DecodeString` read through `Hex2Bytes`: the pairs decoded before the
first invalid digit. A character outside ASCII is invalid, and so is every
pair that touches one of its bytes, so pairing characters stops at the same
place as pairing bytes. -/
def decodeHexPairs : List Char → Bytes
  | p :: q :: rest =>
      match hexDigit? p, hexDigit? q with
      | some a, some b => UInt8.ofNat (16 * a + b) :: decodeHexPairs rest
      | _, _ => []
  | _ => []

/-- `common.FromHex`: drop a `0x` or `0X` prefix, pad an odd byte length with a
leading zero, then decode. -/
def fromHex (s : String) : Bytes :=
  let cs := match s.toList with
    | '0' :: 'x' :: rest => rest
    | '0' :: 'X' :: rest => rest
    | cs => cs
  if (cs.map Char.utf8Size).sum % 2 = 1 then decodeHexPairs ('0' :: cs)
  else decodeHexPairs cs

/-- `common.HexToHash`. -/
def hexToHash (s : String) : Hash :=
  bytesToHash (fromHex s)

/-- The lower-case `0x`-prefixed hex spelling of an address, forty digits.
`Address.String` returns the EIP-55 spelling, which differs from this one
only in the case of its letters. -/
def Address.hex (a : Address) : String :=
  let ds := Nat.toDigits 16 a.val
  String.ofList ('0' :: 'x' :: (List.replicate (40 - ds.length) '0' ++ ds))

/-- The `len` low bytes of `n`, big-endian: the low byte last. -/
def toBytesBE : ℕ → ℕ → Bytes
  | 0, _ => []
  | len + 1, n => toBytesBE len (n / 256) ++ [UInt8.ofNat n]

@[simp]
theorem length_toBytesBE (len n : ℕ) : (toBytesBE len n).length = len := by
  induction len generalizing n with
  | zero => rfl
  | succ len ih => simp [toBytesBE, ih]

theorem bytesToNat_append_singleton (b : Bytes) (x : UInt8) :
    bytesToNat (b ++ [x]) = 256 * bytesToNat b + x.toNat := by
  simp [bytesToNat, List.foldl_append]

/-- Reading the bytes back gives the number modulo their range. -/
theorem bytesToNat_toBytesBE (len n : ℕ) : bytesToNat (toBytesBE len n) = n % 256 ^ len := by
  induction len generalizing n with
  | zero => simp [toBytesBE, bytesToNat, Nat.mod_one]
  | succ len ih =>
      rw [toBytesBE, bytesToNat_append_singleton, ih, pow_succ', Nat.mod_mul,
        UInt8.toNat_ofNat']
      omega

theorem toBytesBE_inj {len m n : ℕ} (hm : m < 256 ^ len) (hn : n < 256 ^ len)
    (h : toBytesBE len m = toBytesBE len n) : m = n := by
  have hval := congrArg bytesToNat h
  rwa [bytesToNat_toBytesBE, bytesToNat_toBytesBE, Nat.mod_eq_of_lt hm,
    Nat.mod_eq_of_lt hn] at hval

/-- `Address.Bytes`: the twenty bytes, big-endian. -/
def Address.bytes (a : Address) : Bytes :=
  toBytesBE 20 a.val

/-- `Hash.Bytes`: the thirty-two bytes, big-endian. -/
def Hash.bytes (h : Hash) : Bytes :=
  toBytesBE 32 h.val

@[simp] theorem Address.length_bytes (a : Address) : a.bytes.length = 20 := length_toBytesBE _ _

@[simp] theorem Hash.length_bytes (h : Hash) : h.bytes.length = 32 := length_toBytesBE _ _

theorem Address.bytes_injective : Function.Injective Address.bytes := fun a b h =>
  Fin.ext (toBytesBE_inj (a.isLt.trans_eq (by norm_num)) (b.isLt.trans_eq (by norm_num)) h)

theorem Hash.bytes_injective : Function.Injective Hash.bytes := fun a b h =>
  Fin.ext (toBytesBE_inj (a.isLt.trans_eq (by norm_num)) (b.isLt.trans_eq (by norm_num)) h)

/-- `int64(x)` of a `uint64` value, which wraps past `2 ^ 63 - 1`. -/
def toInt64 (x : ℕ) : ℤ :=
  if x < 2 ^ 63 then x else (x : ℤ) - 2 ^ 64

/-- `big.Int.Cmp`: `-1`, `0` or `+1`. -/
def cmp {α : Type*} [LinearOrder α] (x y : α) : ℤ :=
  if x < y then -1 else if x = y then 0 else 1

theorem cmp_lt_zero_iff {α : Type*} [LinearOrder α] (x y : α) :
    cmp x y < 0 ↔ x < y := by
  unfold cmp
  split_ifs with h₁ h₂ <;> simp_all

/-- The result of `cmp` is never above one. -/
theorem cmp_le_one {α : Type*} [LinearOrder α] (x y : α) : cmp x y ≤ 1 := by
  unfold cmp
  split_ifs <;> decide

/-- `uint8(x.Uint64())` for a non-negative `x`: `Uint64` keeps the low 64 bits
and the conversion the low eight. -/
def toUint8 (x : ℕ) : UInt8 :=
  (UInt64.ofNat x).toUInt8

/-- Why a Go call panics, at the places the model reaches one. -/
inductive Panic where
  /-- A field read or method call through a nil pointer. -/
  | nilPointerDereference
  /-- An index at or past the length of a slice. -/
  | indexOutOfRange
  /-- A `big.Int` division by zero. -/
  | divisionByZero
  deriving DecidableEq, Repr

/-- How a Go call that does not return normally ends: with an error value, or
with a panic. -/
inductive Fault (ε : Type) where
  | error (e : ε)
  | panic (p : Panic)
  deriving DecidableEq, Repr

end Classzz
