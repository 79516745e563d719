import Classzz.Vm.Memory
import Classzz.Lib.Except

/-!
# Dynamic gas of the operations with a memory size

`memory_table.go`, the gas functions of `gas_table.go` for the operations the jump
table gives a `memorySize`, `callGas` of `gas.go`, and the EIP-2929 versions that
`enable2929` installs for `EXTCODECOPY` and the four calls of the London table.

Every one of these functions calls `memoryGasCost` on the size `Run` computed
before anything else can change the memory, and leaves the memory as
`memoryGasCost` left it (`*_memory` below): that is all the interpreter's memory
invariant needs of them. The call functions also compute `callGasTemp`, the gas
the call will forward, by the 63/64 rule of `callGas` on the contract's gas
less the charges before it (`callVariantGas_eq_ok`).

The access list and `StateDB.Empty` are read, not modelled: whether the account is
warm and whether it is empty are arguments.
-/

namespace Classzz.Vm

open Params

/-- `GasFastestStep` of `gas.go`. -/
def gasFastestStep : UInt64 := 3

/-! ### Memory sizes -/

/-- The common body of the size functions of `memory_table.go` that read an
offset and a length from the stack. -/
def memoryOf (off len : ℕ) (stack : Stack) : UInt64 × Bool :=
  calcMemSize64 (stack.back off) (stack.back len)

def memorySha3 : Stack → UInt64 × Bool := memoryOf 0 1
def memoryCallDataCopy : Stack → UInt64 × Bool := memoryOf 0 2
def memoryReturnDataCopy : Stack → UInt64 × Bool := memoryOf 0 2
def memoryCodeCopy : Stack → UInt64 × Bool := memoryOf 0 2
def memoryExtCodeCopy : Stack → UInt64 × Bool := memoryOf 1 3
def memoryCreate : Stack → UInt64 × Bool := memoryOf 1 2
def memoryCreate2 : Stack → UInt64 × Bool := memoryOf 1 2
def memoryReturn : Stack → UInt64 × Bool := memoryOf 0 1
def memoryRevert : Stack → UInt64 × Bool := memoryOf 0 1
def memoryLog : Stack → UInt64 × Bool := memoryOf 0 1

def memoryMLoad (stack : Stack) : UInt64 × Bool := calcMemSize64WithUint (stack.back 0) 32
def memoryMStore8 (stack : Stack) : UInt64 × Bool := calcMemSize64WithUint (stack.back 0) 1
def memoryMStore (stack : Stack) : UInt64 × Bool := calcMemSize64WithUint (stack.back 0) 32

/-- The common body of `memoryCall`, `memoryDelegateCall` and `memoryStaticCall`:
the larger of the return area and the argument area. -/
def memoryCallOf (retOff retLen inOff inLen : ℕ) (stack : Stack) : UInt64 × Bool :=
  let (x, overflow) := calcMemSize64 (stack.back retOff) (stack.back retLen)
  if overflow then (0, true)
  else
    let (y, overflow) := calcMemSize64 (stack.back inOff) (stack.back inLen)
    if overflow then (0, true)
    else if x > y then (x, false) else (y, false)

def memoryCall : Stack → UInt64 × Bool := memoryCallOf 5 6 3 4
def memoryDelegateCall : Stack → UInt64 × Bool := memoryCallOf 4 5 2 3
def memoryStaticCall : Stack → UInt64 × Bool := memoryCallOf 4 5 2 3

/-! ### Gas functions of the memory operations -/

/-- The common body of `memoryCopierGas`, `gasSha3` and `gasCreate2`: the memory
fee, and `perWord` for each word of the length at `Back(stackpos)`. -/
def memoryWordGas (stackpos : ℕ) (perWord : UInt64) (stack : Stack) (mem : Memory)
    (memorySize : UInt64) : Except VmError (UInt64 × Memory) := do
  let (gas, mem) ← memoryGasCost mem memorySize
  let (words, overflow) := (stack.back stackpos).uint64WithOverflow
  if overflow then throw .gasUintOverflow
  let (words, overflow) := safeMul (toWordSize words) perWord
  if overflow then throw .gasUintOverflow
  let (gas, overflow) := safeAdd gas words
  if overflow then throw .gasUintOverflow
  pure (gas, mem)

/-- `memoryCopierGas(stackpos)`: `CopyGas` per word copied. -/
def memoryCopierGas (stackpos : ℕ) : Stack → Memory → UInt64 → Except VmError (UInt64 × Memory) :=
  memoryWordGas stackpos copyGas

def gasCallDataCopy := memoryCopierGas 2
def gasCodeCopy := memoryCopierGas 2
def gasExtCodeCopy := memoryCopierGas 3
def gasReturnDataCopy := memoryCopierGas 2

/-- `gasSha3`: `Sha3WordGas` per word hashed. -/
def gasSha3 : Stack → Memory → UInt64 → Except VmError (UInt64 × Memory) :=
  memoryWordGas 1 sha3WordGas

/-- `gasCreate2`: `Sha3WordGas` per word of init code hashed. -/
def gasCreate2 : Stack → Memory → UInt64 → Except VmError (UInt64 × Memory) :=
  memoryWordGas 2 sha3WordGas

/-- `pureMemoryGascost`, the dynamic gas of `RETURN`, `REVERT`, `MLOAD`, `MSTORE8`,
`MSTORE` and `CREATE`. -/
def pureMemoryGascost (_stack : Stack) (mem : Memory) (memorySize : UInt64) :
    Except VmError (UInt64 × Memory) :=
  memoryGasCost mem memorySize

def gasReturn := pureMemoryGascost
def gasRevert := pureMemoryGascost
def gasMLoad := pureMemoryGascost
def gasMStore8 := pureMemoryGascost
def gasMStore := pureMemoryGascost
def gasCreate := pureMemoryGascost

/-- `makeGasLog(n)`. The data size at `Back(1)` is checked before the memory fee
is computed. -/
def makeGasLog (n : UInt64) (stack : Stack) (mem : Memory) (memorySize : UInt64) :
    Except VmError (UInt64 × Memory) := do
  let (requestedSize, overflow) := (stack.back 1).uint64WithOverflow
  if overflow then throw .gasUintOverflow
  let (gas, mem) ← memoryGasCost mem memorySize
  let (gas, overflow) := safeAdd gas logGas
  if overflow then throw .gasUintOverflow
  let (gas, overflow) := safeAdd gas (n * logTopicGas)
  if overflow then throw .gasUintOverflow
  let (memorySizeGas, overflow) := safeMul requestedSize logDataGas
  if overflow then throw .gasUintOverflow
  let (gas, overflow) := safeAdd gas memorySizeGas
  if overflow then throw .gasUintOverflow
  pure (gas, mem)

/-- `gasExtCodeCopyEIP2929`: the copy, and the cold surcharge when the account
is not yet in the access list. -/
def gasExtCodeCopyEIP2929 (warm : Bool) (stack : Stack) (mem : Memory) (memorySize : UInt64) :
    Except VmError (UInt64 × Memory) := do
  let (gas, mem) ← gasExtCodeCopy stack mem memorySize
  if !warm then
    let (gas, overflow) := safeAdd gas (coldAccountAccessCostEIP2929 - warmStorageReadCostEIP2929)
    if overflow then throw .gasUintOverflow
    pure (gas, mem)
  else pure (gas, mem)

/-! ### Calls -/

/-- `callGas`: the gas a call forwards, all but one 64th of what is left after
`base` unless the caller asks for less. The subtraction is not checked here:
when `base` exceeds `availableGas` the charge that follows fails. -/
def callGas (isEip150 : Bool) (availableGas base : UInt64) (callCost : Word) :
    Except VmError UInt64 :=
  let availableGas := availableGas - base
  let gas := availableGas - availableGas / 64
  if isEip150 && (!callCost.isUint64 || gas < callCost.uint64) then .ok gas
  else if !callCost.isUint64 then .error .gasUintOverflow
  else .ok callCost.uint64

/-- The common body of `gasCall`, `gasCallCode`, `gasDelegateCall` and
`gasStaticCall`, after the value charges `gas`: the memory fee, then
`callGasTemp` from the contract's gas, both added to the cost. It returns the
cost, the memory and `callGasTemp`. -/
def callVariantGas (gas contractGas : UInt64) (stack : Stack) (mem : Memory)
    (memorySize : UInt64) : Except VmError (UInt64 × Memory × UInt64) := do
  let (memoryGas, mem) ← memoryGasCost mem memorySize
  let (gas, overflow) := safeAdd gas memoryGas
  if overflow then throw .gasUintOverflow
  let callGasTemp ← callGas true contractGas gas (stack.back 0)
  let (gas, overflow) := safeAdd gas callGasTemp
  if overflow then throw .gasUintOverflow
  pure (gas, mem, callGasTemp)

/-- `gasCall`: a value transfer costs `CallValueTransferGas`, and
`CallNewAccountGas` more if the callee is empty. -/
def gasCall (empty : Bool) (contractGas : UInt64) (stack : Stack) (mem : Memory)
    (memorySize : UInt64) : Except VmError (UInt64 × Memory × UInt64) :=
  let transfersValue := !(stack.back 2).isZero
  let gas : UInt64 := if transfersValue && empty then callNewAccountGas else 0
  let gas := if transfersValue then gas + callValueTransferGas else gas
  callVariantGas gas contractGas stack mem memorySize

/-- `gasCallCode`: a value costs `CallValueTransferGas`. -/
def gasCallCode (contractGas : UInt64) (stack : Stack) (mem : Memory) (memorySize : UInt64) :
    Except VmError (UInt64 × Memory × UInt64) :=
  callVariantGas (if !(stack.back 2).isZero then callValueTransferGas else 0) contractGas
    stack mem memorySize

def gasDelegateCall (contractGas : UInt64) (stack : Stack) (mem : Memory) (memorySize : UInt64) :
    Except VmError (UInt64 × Memory × UInt64) :=
  callVariantGas 0 contractGas stack mem memorySize

def gasStaticCall (contractGas : UInt64) (stack : Stack) (mem : Memory) (memorySize : UInt64) :
    Except VmError (UInt64 × Memory × UInt64) :=
  callVariantGas 0 contractGas stack mem memorySize

/-- `ColdAccountAccessCostEIP2929 - WarmStorageReadCostEIP2929`, what a cold
callee costs beyond the constant gas. -/
def coldCost : UInt64 := coldAccountAccessCostEIP2929 - warmStorageReadCostEIP2929

/-- `makeCallVariantGasCallEIP2929(oldCalculator)`, with the old calculator as a
function of the contract's gas. A cold callee's surcharge is taken from the
contract's gas before the old calculator runs, so that `callGas` sees it, and is
put back and added to the cost when it succeeds: on success the contract's gas
is where it was. -/
def makeCallVariantGasCallEIP2929 (oldCalculator : UInt64 → Except VmError (UInt64 × Memory × UInt64))
    (warmAccess : Bool) (contractGas : UInt64) : Except VmError (UInt64 × Memory × UInt64) :=
  if warmAccess then oldCalculator contractGas
  else if contractGas < coldCost then .error .outOfGas
  else
    match oldCalculator (contractGas - coldCost) with
    | .error err => .error err
    | .ok (gas, mem, callGasTemp) => .ok (gas + coldCost, mem, callGasTemp)

def gasCallEIP2929 (warm empty : Bool) (contractGas : UInt64) (stack : Stack) (mem : Memory)
    (memorySize : UInt64) : Except VmError (UInt64 × Memory × UInt64) :=
  makeCallVariantGasCallEIP2929 (fun g => gasCall empty g stack mem memorySize) warm contractGas

def gasCallCodeEIP2929 (warm : Bool) (contractGas : UInt64) (stack : Stack) (mem : Memory)
    (memorySize : UInt64) : Except VmError (UInt64 × Memory × UInt64) :=
  makeCallVariantGasCallEIP2929 (fun g => gasCallCode g stack mem memorySize) warm contractGas

def gasDelegateCallEIP2929 (warm : Bool) (contractGas : UInt64) (stack : Stack) (mem : Memory)
    (memorySize : UInt64) : Except VmError (UInt64 × Memory × UInt64) :=
  makeCallVariantGasCallEIP2929 (fun g => gasDelegateCall g stack mem memorySize) warm contractGas

def gasStaticCallEIP2929 (warm : Bool) (contractGas : UInt64) (stack : Stack) (mem : Memory)
    (memorySize : UInt64) : Except VmError (UInt64 × Memory × UInt64) :=
  makeCallVariantGasCallEIP2929 (fun g => gasStaticCall g stack mem memorySize) warm contractGas

/-! ### The memory each of them leaves -/

section MemoryFirst

variable {stack : Stack} {mem mem' : Memory} {memorySize cost : UInt64}

theorem memoryWordGas_memory {stackpos : ℕ} {perWord : UInt64}
    (h : memoryWordGas stackpos perWord stack mem memorySize = .ok (cost, mem')) :
    ∃ fee, memoryGasCost mem memorySize = .ok (fee, mem') := by
  simp only [memoryWordGas, Except.bind_eq_ok] at h
  obtain ⟨⟨fee, m₁⟩, hcost, h⟩ := h
  simp only [Except.throw_bind, Except.ite_throw_eq_ok, Except.pure_eq_ok, Prod.mk.injEq] at h
  obtain ⟨-, -, -, -, rfl⟩ := h
  exact ⟨fee, hcost⟩

theorem makeGasLog_memory {n : UInt64} (h : makeGasLog n stack mem memorySize = .ok (cost, mem')) :
    ∃ fee, memoryGasCost mem memorySize = .ok (fee, mem') := by
  simp only [makeGasLog, Except.throw_bind, Except.ite_throw_eq_ok, Except.bind_eq_ok] at h
  obtain ⟨-, ⟨fee, m₁⟩, hcost, h⟩ := h
  simp only [Except.pure_eq_ok, Prod.mk.injEq] at h
  obtain ⟨-, -, -, -, -, rfl⟩ := h
  exact ⟨fee, hcost⟩

theorem gasExtCodeCopyEIP2929_memory {warm : Bool}
    (h : gasExtCodeCopyEIP2929 warm stack mem memorySize = .ok (cost, mem')) :
    ∃ fee, memoryGasCost mem memorySize = .ok (fee, mem') := by
  simp only [gasExtCodeCopyEIP2929, Except.bind_eq_ok] at h
  obtain ⟨⟨gas, m₁⟩, hcopy, h⟩ := h
  -- the surcharge leaves the memory of the copy
  have hm : m₁ = mem' := by
    cases warm
    · simp only [Bool.not_false, if_true, Except.throw_bind, Except.ite_throw_eq_ok,
        Except.pure_eq_ok, Prod.mk.injEq] at h
      exact h.2.2
    · simp only [Bool.not_true, Bool.false_eq_true, if_false, Except.pure_eq_ok,
        Prod.mk.injEq] at h
      exact h.2
  exact hm ▸ memoryWordGas_memory hcopy

end MemoryFirst

/-! ### What the call functions charge and forward -/

/-- `callGas` under EIP-150 forwards at most all but one 64th of what is left
after `base`, in the wrapping arithmetic of the source. -/
theorem callGas_le {availableGas base : UInt64} {callCost : Word} {gas : UInt64}
    (h : callGas true availableGas base callCost = .ok gas) :
    gas ≤ (availableGas - base) - (availableGas - base) / 64 := by
  unfold callGas at h
  dsimp only at h
  split_ifs at h with h150 hbig
  · cases h
    exact UInt64.le_refl _
  · cases h
    -- the caller asked for no more than the 63/64 share
    simp only [Bool.true_and, Bool.or_eq_true, Bool.not_eq_eq_eq_not, Bool.not_true,
      decide_eq_true_eq, not_or] at h150
    exact UInt64.not_lt.mp h150.2

/-- A successful call gas function: the memory fee `fee` on top of the value
charges `gas` gives the base cost, `callGas` on the contract's gas and the base
gives `callGasTemp`, and the cost is the base and `callGasTemp`, none of it
wrapped. -/
theorem callVariantGas_eq_ok {gas contractGas : UInt64} {stack : Stack} {mem mem' : Memory}
    {memorySize cost callGasTemp : UInt64}
    (h : callVariantGas gas contractGas stack mem memorySize = .ok (cost, mem', callGasTemp)) :
    ∃ fee base, memoryGasCost mem memorySize = .ok (fee, mem') ∧
      base.toNat = gas.toNat + fee.toNat ∧
      callGas true contractGas base (stack.back 0) = .ok callGasTemp ∧
      cost.toNat = base.toNat + callGasTemp.toNat := by
  simp only [callVariantGas, Except.bind_eq_ok] at h
  obtain ⟨⟨fee, m₁⟩, hcost, h⟩ := h
  simp only [Except.throw_bind, Except.ite_throw_eq_ok, Except.bind_eq_ok] at h
  obtain ⟨hbase, temp, htemp, h⟩ := h
  simp only [Except.pure_eq_ok, Prod.mk.injEq] at h
  obtain ⟨hsum, rfl, rfl, rfl⟩ := h
  exact ⟨fee, (safeAdd gas fee).1, hcost, safeAdd_toNat (by simpa using hbase), htemp,
    safeAdd_toNat (by simpa using hsum)⟩

/-- The EIP-2929 wrapper: a warm callee is the old calculator; a cold one is
the old calculator on the contract's gas less the surcharge, with the
surcharge added to the cost. -/
theorem makeCallVariantGasCallEIP2929_eq_ok
    {oldCalculator : UInt64 → Except VmError (UInt64 × Memory × UInt64)} {warmAccess : Bool}
    {contractGas : UInt64} {r : UInt64 × Memory × UInt64}
    (h : makeCallVariantGasCallEIP2929 oldCalculator warmAccess contractGas = .ok r) :
    (warmAccess = true ∧ oldCalculator contractGas = .ok r) ∨
      (warmAccess = false ∧ coldCost ≤ contractGas ∧
        ∃ cost, oldCalculator (contractGas - coldCost) = .ok (cost, r.2) ∧
          r.1 = cost + coldCost) := by
  unfold makeCallVariantGasCallEIP2929 at h
  -- `split_ifs` closes the refused surcharge itself
  split_ifs at h with hwarm hlow
  · exact .inl ⟨hwarm, h⟩
  · split at h
    · cases h
    · rename_i gas m temp hold
      simp only [Except.ok.injEq] at h
      subst h
      simp only [Bool.not_eq_true] at hwarm
      exact .inr ⟨hwarm, UInt64.not_lt.mp hlow, gas, hold, rfl⟩

end Classzz.Vm
