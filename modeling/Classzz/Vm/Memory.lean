import Mathlib.Order.Basic
import Mathlib.Data.List.Basic
import Classzz.Common.Types
import Classzz.Params.Protocol

/-!
# The interpreter's memory and what its expansion costs

`memory.go`, the size arithmetic of `common.go`, the `uint64` helpers of `math`
and `memoryGasCost` of `gas_table.go`. A frame's memory is a byte store together
with `lastGasCost`, what the expansions of the frame have been charged so far.

`memoryGasCost` charges an expansion to `w` words as the difference between
`C(w) = w * MemoryGas + w * w / QuadCoeffDiv` and `lastGasCost`, in `uint64`.
`Memory.Priced` is what makes that difference exact: the store is a whole number
of words, no longer than the size `memoryGasCost` accepts, and `lastGasCost` is
`C` of it. The interpreter does to memory only `memoryGasCost` followed by
`Resize` to the same rounded size, and writes inside the store;
`Memory.Priced.expand` and `Memory.Priced.set` are the two steps.
-/

namespace Classzz.Vm

open Params

/-! ### Words, stacks and `uint64` arithmetic -/

/-- A stack item, `uint256.Int`. -/
abbrev Word := Fin (2 ^ 256)

/-- `Int.IsUint64`. -/
def Word.isUint64 (w : Word) : Bool := decide (w.val < 2 ^ 64)

/-- `Int.Uint64`: the low 64 bits. -/
def Word.uint64 (w : Word) : UInt64 := UInt64.ofNat w.val

/-- `Int.Uint64WithOverflow`. -/
def Word.uint64WithOverflow (w : Word) : UInt64 × Bool := (w.uint64, !w.isUint64)

/-- `Int.IsZero`; `Sign() != 0` is its negation for these unsigned words. -/
def Word.isZero (w : Word) : Bool := decide (w = 0)

/-- The stack, top first. `Run` checks `minStack` before an operation runs, so the
items an operation reads with `Back` are there; `back` reads zero past the bottom
only so that it is total. -/
abbrev Stack := List Word

/-- `Stack.Back(n)`: the `n`-th item below the top. -/
def Stack.back (st : Stack) (n : ℕ) : Word := st.getD n 0

/-- `math.MaxUint64`. -/
def maxUint64 : UInt64 := 18446744073709551615

/-- `math.SafeAdd`: the wrapped sum and whether it carried. -/
def safeAdd (x y : UInt64) : UInt64 × Bool := (x + y, decide (2 ^ 64 ≤ x.toNat + y.toNat))

/-- `math.SafeMul`: the low word of the product and whether the high word is
non-zero. -/
def safeMul (x y : UInt64) : UInt64 × Bool := (x * y, decide (2 ^ 64 ≤ x.toNat * y.toNat))

theorem safeAdd_toNat {x y : UInt64} (h : (safeAdd x y).2 = false) :
    (safeAdd x y).1.toNat = x.toNat + y.toNat := by
  simp only [safeAdd, decide_eq_false_iff_not, not_le] at h ⊢
  rw [UInt64.toNat_add, Nat.mod_eq_of_lt h]

theorem safeMul_toNat {x y : UInt64} (h : (safeMul x y).2 = false) :
    (safeMul x y).1.toNat = x.toNat * y.toNat := by
  simp only [safeMul, decide_eq_false_iff_not, not_le] at h ⊢
  rw [UInt64.toNat_mul, Nat.mod_eq_of_lt h]

/-! ### Errors -/

/-- The errors of `errors.go` that the modelled interpreter returns, one
constructor for each. -/
inductive VmError where
  /-- `ErrOutOfGas`, `"out of gas"`. -/
  | outOfGas
  /-- `ErrGasUintOverflow`, `"gas uint64 overflow"`. -/
  | gasUintOverflow
  /-- `ErrWriteProtection`, `"write protection"`. -/
  | writeProtection
  /-- `ErrDepth`, `"max call depth exceeded"`. -/
  | depth
  /-- `ErrInsufficientBalance`, `"insufficient balance for transfer"`. -/
  | insufficientBalance
  /-- `ErrExecutionReverted`, `"execution reverted"`. -/
  | executionReverted
  /-- `ErrReturnDataOutOfBounds`, `"return data out of bounds"`. -/
  | returnDataOutOfBounds
  /-- `ErrContractAddressCollision`, `"contract address collision"`. -/
  | contractAddressCollision
  /-- `ErrCodeStoreOutOfGas`, `"contract creation code storage out of gas"`. -/
  | codeStoreOutOfGas
  /-- `ErrMaxCodeSizeExceeded`, `"max code size exceeded"`. -/
  | maxCodeSizeExceeded
  /-- `ErrInvalidCode`, `"invalid code: must not begin with 0xef"`. -/
  | invalidCode
  /-- `ErrInvalidOpCode`, `"invalid opcode: %s"`. -/
  | invalidOpCode (opcode : UInt8)
  /-- `ErrStackUnderflow`, `"stack underflow (%d <=> %d)"`. -/
  | stackUnderflow (stackLen required : ℕ)
  /-- `ErrStackOverflow`, `"stack limit reached %d (%d)"`. -/
  | stackOverflow (stackLen limit : ℕ)
  deriving DecidableEq, Repr

/-! ### The memory -/

/-- `Memory`: the byte store and the memory gas charged so far. -/
structure Memory where
  store : Bytes
  lastGasCost : UInt64
  deriving DecidableEq, Repr

/-- `NewMemory`. -/
def newMemory : Memory := ⟨[], 0⟩

namespace Memory

/-- `Memory.Len`. -/
def len (m : Memory) : ℕ := m.store.length

/-- `Memory.Resize`: zeros are appended up to `size`. -/
def resize (m : Memory) (size : UInt64) : Memory :=
  if UInt64.ofNat m.len < size then
    { m with store := m.store ++ List.replicate (size - UInt64.ofNat m.len).toNat 0 }
  else m

/-- What `copy(m.store[offset:], bytes)` leaves: `bytes` over the store from
`offset` on, the rest as it was. -/
def overwrite (store : Bytes) (offset : ℕ) (bytes : Bytes) : Bytes :=
  store.take offset ++ bytes ++ store.drop (offset + bytes.length)

/-- `Memory.Set`: `value`, as far as it goes, over the `size` bytes at `offset`.
The source panics with `"invalid memory: store empty"` when `offset + size`
passes the store, and the slice panics when that sum wraps: both are `none`. -/
def set (m : Memory) (offset size : UInt64) (value : Bytes) : Option Memory :=
  if size = 0 then some m
  else if m.len < offset.toNat + size.toNat then none
  else some { m with store := overwrite m.store offset.toNat (value.take size.toNat) }

/-- `Memory.Set32`: the 32 big-endian bytes of `val` at `offset`. -/
def set32 (m : Memory) (offset : UInt64) (val : Word) : Option Memory :=
  if m.len < offset.toNat + 32 then none
  else some { m with store := overwrite m.store offset.toNat (Hash.bytes val) }

end Memory

/-! ### Memory sizes -/

/-- `toWordSize`: the number of words `size` bytes take, rounded up. -/
def toWordSize (size : UInt64) : UInt64 :=
  if size > maxUint64 - 31 then maxUint64 / 32 + 1 else (size + 31) / 32

/-- `calcMemSize64WithUint`: the end of `length64` bytes at `off`, and whether it
overflows. -/
def calcMemSize64WithUint (off : Word) (length64 : UInt64) : UInt64 × Bool :=
  if length64 = 0 then (0, false)
  else
    let (offset64, overflow) := off.uint64WithOverflow
    if overflow then (0, true)
    else
      let val := offset64 + length64
      (val, val < offset64)

/-- `calcMemSize64`. -/
def calcMemSize64 (off l : Word) : UInt64 × Bool :=
  if !l.isUint64 then (0, true) else calcMemSize64WithUint off l.uint64

/-! ### The expansion fee -/

/-- The largest size `memoryGasCost` prices, `0x1FFFFFFFE0`: `0xFFFFFFFF` words. -/
def maxMemorySize : UInt64 := 0x1FFFFFFFE0

/-- `memoryGasCost`: the fee to expand the memory to `newMemSize` bytes, rounded
up to words, and the memory with the new total in `lastGasCost`. -/
def memoryGasCost (mem : Memory) (newMemSize : UInt64) : Except VmError (UInt64 × Memory) :=
  if newMemSize = 0 then .ok (0, mem)
  else if newMemSize > maxMemorySize then .error .gasUintOverflow
  else
    let newMemSizeWords := toWordSize newMemSize
    let newMemSize := newMemSizeWords * 32
    if newMemSize > UInt64.ofNat mem.len then
      let square := newMemSizeWords * newMemSizeWords
      let linCoef := newMemSizeWords * memoryGas
      let quadCoef := square / quadCoeffDiv
      let newTotalFee := linCoef + quadCoef
      let fee := newTotalFee - mem.lastGasCost
      .ok (fee, { mem with lastGasCost := newTotalFee })
    else .ok (0, mem)

/-- `C(w)`: what a memory of `w` words costs in all. -/
def memoryFee (words : ℕ) : ℕ :=
  words * memoryGas.toNat + words * words / quadCoeffDiv.toNat

theorem memoryFee_mono {a b : ℕ} (h : a ≤ b) : memoryFee a ≤ memoryFee b :=
  Nat.add_le_add (Nat.mul_le_mul_right _ h) (Nat.div_le_div_right (Nat.mul_le_mul h h))

@[simp] theorem memoryFee_zero : memoryFee 0 = 0 := rfl

/-- `C(w) = 3 * w + w * w / 512`. -/
theorem memoryFee_eq (words : ℕ) : memoryFee words = 3 * words + words * words / 512 := by
  rw [memoryFee, Nat.mul_comm]
  rfl

/-- The memory invariant: whole words, within the priced size, with
`lastGasCost` the fee of all of them. -/
structure Memory.Priced (m : Memory) : Prop where
  aligned : m.len % 32 = 0
  le_max : m.len ≤ maxMemorySize.toNat
  lastGasCost_eq : m.lastGasCost.toNat = memoryFee (m.len / 32)

@[simp] theorem len_newMemory : newMemory.len = 0 := rfl

theorem newMemory_priced : newMemory.Priced :=
  ⟨rfl, by decide, rfl⟩

/-! ### Lemmas -/

namespace Memory

@[simp] theorem len_mk (store : Bytes) (c : UInt64) : (Memory.mk store c).len = store.length :=
  rfl

theorem length_overwrite {store bytes : Bytes} {offset : ℕ}
    (h : offset + bytes.length ≤ store.length) :
    (overwrite store offset bytes).length = store.length := by
  simp only [overwrite, List.length_append, List.length_take, List.length_drop]
  omega

/-- `Set` writes inside the store: the length and `lastGasCost` stay. -/
theorem len_set {m m' : Memory} {offset size : UInt64} {value : Bytes}
    (h : m.set offset size value = some m') : m'.len = m.len ∧ m'.lastGasCost = m.lastGasCost := by
  unfold set at h
  split_ifs at h with h0 hlt
  · cases h
    exact ⟨rfl, rfl⟩
  · cases h
    have hv : (value.take size.toNat).length ≤ size.toNat := List.length_take_le _ _
    refine ⟨length_overwrite ?_, rfl⟩
    change offset.toNat + _ ≤ m.len
    omega

theorem len_set32 {m m' : Memory} {offset : UInt64} {val : Word}
    (h : m.set32 offset val = some m') : m'.len = m.len ∧ m'.lastGasCost = m.lastGasCost := by
  unfold set32 at h
  split_ifs at h with hlt
  cases h
  refine ⟨length_overwrite ?_, rfl⟩
  rw [Hash.length_bytes]
  change offset.toNat + 32 ≤ m.len
  omega

/-- A write inside the store keeps the invariant. -/
theorem Priced.of_len {m m' : Memory} (hm : m.Priced) (hlen : m'.len = m.len)
    (hcost : m'.lastGasCost = m.lastGasCost) : m'.Priced :=
  ⟨hlen ▸ hm.aligned, hlen ▸ hm.le_max, by rw [hcost, hlen]; exact hm.lastGasCost_eq⟩

theorem toNat_ofNat_len {m : Memory} (h : m.len ≤ maxMemorySize.toNat) :
    (UInt64.ofNat m.len).toNat = m.len :=
  UInt64.toNat_ofNat_of_lt' (lt_of_le_of_lt h (by decide))

/-- `Resize` to a size the store already has changes nothing; to a larger one it
makes the store that long. -/
theorem len_resize {m : Memory} {size : UInt64} (h : m.len ≤ maxMemorySize.toNat) :
    (m.resize size).len = max m.len size.toNat := by
  have hlen := toNat_ofNat_len h
  unfold resize
  split_ifs with hlt
  · have hsub : (size - UInt64.ofNat m.len).toNat = size.toNat - m.len := by
      rw [UInt64.toNat_sub_of_le _ _ (UInt64.le_of_lt hlt), hlen]
    rw [UInt64.lt_iff_toNat_lt, hlen] at hlt
    change (m.store ++ List.replicate (size - UInt64.ofNat m.len).toNat 0).length = _
    rw [List.length_append, List.length_replicate, hsub]
    change m.len + (size.toNat - m.len) = max m.len size.toNat
    omega
  · rw [UInt64.lt_iff_toNat_lt, hlen] at hlt
    omega

@[simp] theorem resize_zero (m : Memory) : m.resize 0 = m := by
  unfold resize
  rw [if_neg UInt64.not_lt_zero]

theorem resize_of_not_pos {m : Memory} {size : UInt64} (h : ¬ size > 0) : m.resize size = m := by
  have hzero : size = 0 := UInt64.toNat_inj.mp (by simpa [UInt64.lt_iff_toNat_lt] using h)
  rw [hzero, resize_zero]

@[simp] theorem lastGasCost_resize (m : Memory) (size : UInt64) :
    (m.resize size).lastGasCost = m.lastGasCost := by
  unfold resize
  split_ifs <;> rfl

end Memory

/-- Below the cut-off the rounding of `toWordSize` is exact arithmetic. -/
theorem toNat_toWordSize {size : UInt64} (h : size.toNat ≤ maxMemorySize.toNat) :
    (toWordSize size).toNat = (size.toNat + 31) / 32 := by
  have hmax : maxMemorySize.toNat = 0x1FFFFFFFE0 := rfl
  have hcut : ¬ size > maxUint64 - 31 := by
    rw [gt_iff_lt, UInt64.lt_iff_toNat_lt]
    change ¬ 18446744073709551584 < size.toNat
    omega
  rw [toWordSize, if_neg hcut, UInt64.toNat_div, UInt64.toNat_add]
  change (size.toNat + 31) % 2 ^ 64 / 32 = _
  rw [Nat.mod_eq_of_lt (by omega)]

/-- The new total of `memoryGasCost` for `w ≤ 0xFFFFFFFF` words does not wrap. -/
theorem toNat_newTotalFee {w : UInt64} (hw : w.toNat < 2 ^ 32) :
    (w * memoryGas + w * w / quadCoeffDiv).toNat = memoryFee w.toNat := by
  have hsq : w.toNat * w.toNat < 2 ^ 64 := by
    calc w.toNat * w.toNat < 2 ^ 32 * 2 ^ 32 := Nat.mul_lt_mul'' hw hw
      _ = 2 ^ 64 := by norm_num
  have hdiv : w.toNat * w.toNat / 512 ≤ w.toNat * w.toNat := Nat.div_le_self _ _
  have hlin : w.toNat * 3 < 2 ^ 64 := by omega
  change ((w.toNat * 3 % 2 ^ 64 + w.toNat * w.toNat % 2 ^ 64 / 512) % 2 ^ 64) =
    w.toNat * 3 + w.toNat * w.toNat / 512
  rw [Nat.mod_eq_of_lt hlin, Nat.mod_eq_of_lt hsq, Nat.mod_eq_of_lt]
  -- `w * w / 512 < 2 ^ 55` leaves room for the linear part
  have hq : w.toNat * w.toNat / 512 < 2 ^ 55 := by omega
  omega

/-- The memory step of the interpreter: `memoryGasCost` on a size that is a whole
number of words, then `Resize` to it. It keeps the invariant, and the fee is the
exact difference of `C` between the new and the old word count. -/
theorem Memory.Priced.expand {m m' : Memory} {size fee : UInt64} (hm : m.Priced)
    (hsize : size.toNat % 32 = 0) (h : memoryGasCost m size = .ok (fee, m')) :
    (m'.resize size).Priced ∧
      fee.toNat + memoryFee (m.len / 32) = memoryFee ((m'.resize size).len / 32) := by
  have hlen := Memory.toNat_ofNat_len hm.le_max
  have hmax : maxMemorySize.toNat = 0x1FFFFFFFE0 := rfl
  unfold memoryGasCost at h
  by_cases h0 : size = 0
  · -- nothing is priced, and `Resize(0)` changes nothing
    rw [if_pos h0] at h
    simp only [Except.ok.injEq, Prod.mk.injEq] at h
    obtain ⟨rfl, rfl⟩ := h
    have hres : (m.resize size).len = m.len := by
      rw [Memory.len_resize hm.le_max, h0]
      simp
    exact ⟨hm.of_len hres (Memory.lastGasCost_resize _ _), by rw [hres]; simp⟩
  have hcut : ¬ size > maxMemorySize := by
    intro hgt
    rw [if_neg h0, if_pos hgt] at h
    cases h
  rw [if_neg h0, if_neg hcut] at h
  have hle : size.toNat ≤ maxMemorySize.toNat := by
    rw [gt_iff_lt, UInt64.lt_iff_toNat_lt] at hcut
    omega
  -- a whole number of words is its own rounding
  have hw : (toWordSize size).toNat = size.toNat / 32 := by
    rw [toNat_toWordSize hle]
    omega
  have hround : toWordSize size * 32 = size := by
    apply UInt64.toNat_inj.mp
    rw [UInt64.toNat_mul, hw]
    change size.toNat / 32 * 32 % 2 ^ 64 = size.toNat
    rw [Nat.div_mul_cancel (Nat.dvd_of_mod_eq_zero hsize)]
    exact Nat.mod_eq_of_lt (lt_of_le_of_lt hle (by decide))
  dsimp only at h
  rw [hround] at h
  have htotal := toNat_newTotalFee (w := toWordSize size) (by rw [hw]; omega)
  rw [hw] at htotal
  generalize toWordSize size * memoryGas + toWordSize size * toWordSize size / quadCoeffDiv = T
    at h htotal
  by_cases hgt : size > UInt64.ofNat m.len
  · rw [if_pos hgt] at h
    simp only [Except.ok.injEq, Prod.mk.injEq] at h
    obtain ⟨rfl, rfl⟩ := h
    rw [gt_iff_lt, UInt64.lt_iff_toNat_lt, hlen] at hgt
    have hres : (Memory.resize { m with lastGasCost := T } size).len = size.toNat := by
      rw [Memory.len_resize (m := { m with lastGasCost := T }) hm.le_max]
      exact max_eq_right (le_of_lt hgt)
    have hold : m.lastGasCost.toNat ≤ memoryFee (size.toNat / 32) := by
      rw [hm.lastGasCost_eq]
      exact memoryFee_mono (Nat.div_le_div_right (le_of_lt hgt))
    refine ⟨⟨by rw [hres]; exact hsize, by rw [hres]; exact hle, ?_⟩, ?_⟩
    · rw [Memory.lastGasCost_resize, hres]
      exact htotal
    · rw [UInt64.toNat_sub_of_le _ _ (UInt64.le_iff_toNat_le.mpr (htotal ▸ hold)), htotal, hres,
        ← hm.lastGasCost_eq]
      omega
  · -- the memory is already large enough: no fee, and `Resize` changes nothing
    rw [if_neg hgt] at h
    simp only [Except.ok.injEq, Prod.mk.injEq] at h
    obtain ⟨rfl, rfl⟩ := h
    rw [gt_iff_lt, UInt64.lt_iff_toNat_lt, hlen] at hgt
    have hres : (m.resize size).len = m.len := by
      rw [Memory.len_resize hm.le_max]
      exact max_eq_left (not_lt.mp hgt)
    exact ⟨hm.of_len hres (Memory.lastGasCost_resize _ _), by rw [hres]; simp⟩

/-- On a priced memory the expansion fee is at most `C` of the largest memory
`memoryGasCost` prices. -/
theorem Memory.Priced.fee_le {m m' : Memory} {size fee : UInt64} (hm : m.Priced)
    (hsize : size.toNat % 32 = 0) (h : memoryGasCost m size = .ok (fee, m')) :
    fee.toNat ≤ memoryFee (maxMemorySize.toNat / 32) := by
  obtain ⟨hp, hexact⟩ := hm.expand hsize h
  have hmono := memoryFee_mono (Nat.div_le_div_right (c := 32) hp.le_max)
  omega

end Classzz.Vm
