import Classzz.Vm.GasTable

/-!
# The loop of `EVMInterpreter.Run`, as gas and memory see it

`Run` takes the operation at the program counter from the jump table, checks the
stack and write protection, charges the constant gas, computes the memory size
and rounds it up to words, charges the dynamic gas, expands the memory, and runs
`execute`. An error anywhere ends the frame.

The London table is what `NewEVMInterpreter` installs. Its operations with a
memory size are modelled one by one: the memory operations (`MemoryOp`), the
calls (`CallOp`) and the creations (`CreateOp`), with their constant gas, memory
size function, dynamic gas function and what their `execute` does to memory
and gas. Every other operation is `Instr.plain`: its gas functions do not read
the memory and its `execute` does not touch it, so what counts of it is its
constant gas, what its dynamic gas function returned, and how it ended.

A frame's run is a list of the instructions it executes, each with what it
receives from outside the frame: the bytes a copy writes, whether an account is
warm or empty, and what a callee hands back for the gas it is given. Since
every statement below is about every such list, it is about every run of
`Run`, whatever the code and the input.

The main result is the memory invariant of `memoryGasCost`
(`memory_priced_run`): after every executed instruction the memory is a whole
number of words and `lastGasCost` is `C` of it, and the memory fees charged in
all add up to `C` of the final size.
-/

namespace Classzz.Vm

open Params

/-! ### The operations with a memory size -/

/-- The memory operations of the London table other than calls and creations. -/
inductive MemoryOp where
  | sha3
  | callDataCopy
  | codeCopy
  | extCodeCopy
  | returnDataCopy
  | mload
  | mstore
  | mstore8
  /-- `LOG0` to `LOG4`. -/
  | log (n : Fin 5)
  /-- `RETURN`. -/
  | ret
  | revert
  deriving DecidableEq, Repr

/-- The four calls. -/
inductive CallOp where
  | call
  | callCode
  | delegateCall
  | staticCall
  deriving DecidableEq, Repr

/-- `CREATE` and `CREATE2`. -/
inductive CreateOp where
  | create
  | create2
  deriving DecidableEq, Repr

/-- How an operation's `execute` ends the frame: `halts` (`STOP`, `RETURN`,
`SELFDESTRUCT`) or `reverts` (`REVERT`, which `Run` returns as
`ErrExecutionReverted`). -/
inductive Ending where
  | halts
  | reverts
  deriving DecidableEq, Repr

/-- A write of `execute` into memory: `Set` and `Set32` panic with
`"invalid memory: store empty"` off the store. -/
def written : Option Memory → Except (Fault VmError) (Memory × Option Ending)
  | some m => .ok (m, none)
  | none => .error (.panic .indexOutOfRange)

namespace MemoryOp

/-- `constantGas` in the London table. -/
def constantGas : MemoryOp → UInt64
  | .sha3 => sha3Gas
  | .extCodeCopy => warmStorageReadCostEIP2929
  | .log _ | .ret | .revert => 0
  | .callDataCopy | .codeCopy | .returnDataCopy | .mload | .mstore | .mstore8 => gasFastestStep

/-- `memorySize` in the London table. -/
def memorySize : MemoryOp → Stack → UInt64 × Bool
  | .sha3 => memorySha3
  | .callDataCopy => memoryCallDataCopy
  | .codeCopy => memoryCodeCopy
  | .extCodeCopy => memoryExtCodeCopy
  | .returnDataCopy => memoryReturnDataCopy
  | .mload => memoryMLoad
  | .mstore => memoryMStore
  | .mstore8 => memoryMStore8
  | .log _ => memoryLog
  | .ret => memoryReturn
  | .revert => memoryRevert

/-- `dynamicGas` in the London table; `warm` is whether the account of
`EXTCODECOPY` is in the access list. -/
def dynamicGas (warm : Bool) : MemoryOp → Stack → Memory → UInt64 → Except VmError (UInt64 × Memory)
  | .sha3 => gasSha3
  | .callDataCopy => gasCallDataCopy
  | .codeCopy => gasCodeCopy
  | .extCodeCopy => gasExtCodeCopyEIP2929 warm
  | .returnDataCopy => gasReturnDataCopy
  | .mload => gasMLoad
  | .mstore => gasMStore
  | .mstore8 => gasMStore8
  | .log n => makeGasLog (UInt64.ofNat n.val)
  | .ret => gasReturn
  | .revert => gasRevert

/-- What `execute` does to memory, and how it ends. The copies write `data`
(the call data, code or return data they read, padded as `getData` pads it) at
the offset and length on the stack, or fail with the error `execute` returns
(`RETURNDATACOPY` past the return data); `MSTORE` is `Set32`, and `MSTORE8`
stores one byte, which panics where `Set` of one byte does. The others only
read memory. -/
def execute (op : MemoryOp) (stack : Stack) (data : Except VmError Bytes) (mem : Memory) :
    Except (Fault VmError) (Memory × Option Ending) :=
  let copy (memOffset length : ℕ) : Except (Fault VmError) (Memory × Option Ending) :=
    match data with
    | .ok bytes => written (mem.set (stack.back memOffset).uint64 (stack.back length).uint64 bytes)
    | .error err => .error (.error err)
  match op with
  | .callDataCopy | .codeCopy | .returnDataCopy => copy 0 2
  | .extCodeCopy => copy 1 3
  | .mstore => written (mem.set32 (stack.back 0).uint64 (stack.back 1))
  | .mstore8 => written (mem.set (stack.back 0).uint64 1 [UInt8.ofNat (stack.back 1).val])
  | .ret => .ok (mem, some .halts)
  | .revert => .ok (mem, some .reverts)
  | .sha3 | .mload | .log _ => .ok (mem, none)

end MemoryOp

namespace CallOp

/-- `constantGas` in the London table, `WarmStorageReadCostEIP2929` since EIP-2929. -/
def constantGas (_op : CallOp) : UInt64 := warmStorageReadCostEIP2929

def memorySize : CallOp → Stack → UInt64 × Bool
  | .call | .callCode => memoryCall
  | .delegateCall => memoryDelegateCall
  | .staticCall => memoryStaticCall

/-- `dynamicGas` in the London table: the EIP-2929 call gas functions, on the
contract's gas left after the constant gas. They return the cost, the memory and
`callGasTemp`. -/
def dynamicGas (warm empty : Bool) : CallOp → UInt64 → Stack → Memory → UInt64 →
    Except VmError (UInt64 × Memory × UInt64)
  | .call => gasCallEIP2929 warm empty
  | .callCode => gasCallCodeEIP2929 warm
  | .delegateCall => gasDelegateCallEIP2929 warm
  | .staticCall => gasStaticCallEIP2929 warm

/-- Whether the call has a value at `Back(2)`, to which `opCall` and
`opCallCode` add the stipend. -/
def hasValue : CallOp → Bool
  | .call | .callCode => true
  | .delegateCall | .staticCall => false

/-- Where the return area's offset and size are on the stack. -/
def retArea : CallOp → ℕ × ℕ
  | .call | .callCode => (5, 6)
  | .delegateCall | .staticCall => (4, 5)

/-- Whether `opCall` or `opCallCode` adds the stipend: a value at `Back(2)`. -/
def paysStipend (op : CallOp) (stack : Stack) : Bool :=
  op.hasValue && !(stack.back 2).isZero

/-- The gas `opCall` and its variants hand to the callee: `callGasTemp`, and
`CallStipend` more when a value is transferred. -/
def forwarded (op : CallOp) (stack : Stack) (callGasTemp : UInt64) : UInt64 :=
  if op.paysStipend stack then callGasTemp + callStipend else callGasTemp

end CallOp

namespace CreateOp

def constantGas : CreateOp → UInt64
  | .create => createGas
  | .create2 => create2Gas

def memorySize : CreateOp → Stack → UInt64 × Bool
  | .create => memoryCreate
  | .create2 => memoryCreate2

def dynamicGas : CreateOp → Stack → Memory → UInt64 → Except VmError (UInt64 × Memory)
  | .create => gasCreate
  | .create2 => gasCreate2

end CreateOp

/-- What `evm.Call`, its variants and `evm.Create` hand back to the caller's
frame: the returned bytes, the gas left over and the error. -/
structure CallResult where
  ret : Bytes
  returnGas : UInt64
  err : Option VmError

/-! ### One turn of the loop -/

/-- What the loop of `Run` keeps that gas and memory concern: the contract's gas
and the frame's memory. -/
structure Scope where
  gas : UInt64
  mem : Memory

/-- `Contract.UseGas`: `none` when the contract has less gas than the cost. -/
def useGas (gas cost : UInt64) : Option UInt64 :=
  if gas < cost then none else some (gas - cost)

/-- The loop of `Run` from the constant gas to the expansion: the constant gas,
the memory size rounded up to words, the dynamic gas function on the gas left,
its cost, and `Resize`. An error of the gas function is reported as
`ErrOutOfGas`, as `Run` does. The dynamic gas function also returns a value the
operation's `execute` reads (`callGasTemp` for the calls). -/
def Scope.charge {α : Type} (sc : Scope) (constantGas : UInt64) (memorySize : UInt64 × Bool)
    (dynamicGas : UInt64 → Memory → UInt64 → Except VmError (UInt64 × Memory × α)) :
    Except VmError (Scope × α) := do
  let some gas := useGas sc.gas constantGas | throw .outOfGas
  let (memSize, overflow) := memorySize
  if overflow then throw .gasUintOverflow
  let (memorySize, overflow) := safeMul (toWordSize memSize) 32
  if overflow then throw .gasUintOverflow
  let (dynamicCost, mem, a) ← (dynamicGas gas sc.mem memorySize).mapError fun _ => .outOfGas
  let some gas := useGas gas dynamicCost | throw .outOfGas
  let mem := if memorySize > 0 then mem.resize memorySize else mem
  pure (⟨gas, mem⟩, a)

/-- An executed instruction of a frame, with what it receives from outside the
frame. -/
inductive Instr where
  /-- An operation without a memory size: its constant gas, what its dynamic gas
  function returned, if it has one, and how its `execute` ended. -/
  | plain (constantGas : UInt64) (dynamicGas : Option (Except VmError UInt64))
      (ending : Except VmError (Option Ending))
  /-- A memory operation with the stack it reads, whether the account of
  `EXTCODECOPY` is warm, and the bytes a copy writes. -/
  | memory (op : MemoryOp) (stack : Stack) (warm : Bool) (data : Except VmError Bytes)
  /-- A call with the stack, whether the callee is warm and empty, and what the
  callee hands back for the gas it is given; a panic in the callee unwinds
  through the caller. -/
  | call (op : CallOp) (stack : Stack) (warm empty : Bool) (callee : UInt64 → Except Panic CallResult)
  /-- A creation with the stack and what the new contract's run hands back for
  the gas it is given. -/
  | create (op : CreateOp) (stack : Stack) (callee : UInt64 → Except Panic CallResult)

/-- The memory size `Run` computes for an instruction; an operation without one
leaves it at zero. -/
def Instr.memorySize : Instr → UInt64 × Bool
  | .plain .. => (0, false)
  | .memory op stack .. => op.memorySize stack
  | .call op stack .. => op.memorySize stack
  | .create op stack _ => op.memorySize stack

/-- A gas function that does not return a value for `execute`. -/
def noTemp (f : Memory → UInt64 → Except VmError (UInt64 × Memory)) :
    UInt64 → Memory → UInt64 → Except VmError (UInt64 × Memory × Unit) :=
  fun _ mem size => (f mem size).map fun r => (r.1, r.2, ())

/-- `opCall`, `opCallCode`, `opDelegateCall` and `opStaticCall` after the gas is
charged: the callee gets the forwarded gas, its return data is copied to the
return area when it succeeded or reverted, and the gas it hands back is added to
the contract's. -/
def callExecute (op : CallOp) (stack : Stack) (callGasTemp : UInt64)
    (callee : UInt64 → Except Panic CallResult) (sc : Scope) : Except (Fault VmError) Scope :=
  match callee (op.forwarded stack callGasTemp) with
  | .error p => .error (.panic p)
  | .ok r =>
      let mem : Option Memory :=
        if r.err = none ∨ r.err = some .executionReverted then
          sc.mem.set (stack.back op.retArea.1).uint64 (stack.back op.retArea.2).uint64 r.ret
        else some sc.mem
      match mem with
      | none => .error (.panic .indexOutOfRange)
      | some mem => .ok ⟨sc.gas + r.returnGas, mem⟩

/-- `opCreate` and `opCreate2` after the gas is charged: all but one 64th of the
contract's gas goes to the new contract (`UseGas` of it cannot fail), and what
it hands back is added to the contract's gas. -/
def createExecute (callee : UInt64 → Except Panic CallResult) (sc : Scope) :
    Except (Fault VmError) Scope :=
  let gas := sc.gas - sc.gas / 64
  match callee gas with
  | .error p => .error (.panic p)
  | .ok r => .ok ⟨sc.gas - gas + r.returnGas, sc.mem⟩

/-- One turn of the loop of `Run` for an executed instruction: the scope after
it and how it ended the frame, if it did. -/
def Instr.step : Instr → Scope → Except (Fault VmError) (Scope × Option Ending)
  | .plain constantGas dynamicGas ending, sc => do
      let (sc, ()) ← (sc.charge constantGas (0, false) fun _ mem _ =>
        match dynamicGas with
        | none => .ok (0, mem, ())
        | some cost => cost.map fun c => (c, mem, ())).mapError .error
      match ending with
      | .ok e => pure (sc, e)
      | .error err => throw (.error err)
  | .memory op stack warm data, sc => do
      let (sc, ()) ← (sc.charge op.constantGas (op.memorySize stack)
        (noTemp (op.dynamicGas warm stack))).mapError .error
      let (mem, e) ← op.execute stack data sc.mem
      pure (⟨sc.gas, mem⟩, e)
  | .call op stack warm empty callee, sc => do
      let (sc, callGasTemp) ← (sc.charge op.constantGas (op.memorySize stack)
        fun gas mem size => op.dynamicGas warm empty gas stack mem size).mapError .error
      let sc ← callExecute op stack callGasTemp callee sc
      pure (sc, none)
  | .create op stack callee, sc => do
      let (sc, ()) ← (sc.charge op.constantGas (op.memorySize stack)
        (noTemp (op.dynamicGas stack))).mapError .error
      let sc ← createExecute callee sc
      pure (sc, none)

/-- The loop of `Run` over the instructions a frame executes: it stops at the
first error or ending; when the instructions run out the frame is still
running. -/
def runLoop {σ ι ε : Type} (step : ι → σ → Except ε (σ × Option Ending)) :
    List ι → σ → Except ε (σ × Option Ending)
  | [], s => .ok (s, none)
  | i :: is, s =>
      match step i s with
      | .error err => .error err
      | .ok (s', some e) => .ok (s', some e)
      | .ok (s', none) => runLoop step is s'

/-! ### What a turn of the loop does to memory -/

/-- The memory fee `memoryGasCost` computes for a memory size rounded up to words
as `Run` rounds it: what an instruction pays for its expansion, inside its
dynamic cost. The code does not keep it apart. -/
def expansionFee (memorySize : UInt64 × Bool) (mem : Memory) : ℕ :=
  match memoryGasCost mem (safeMul (toWordSize memorySize.1) 32).1 with
  | .ok (fee, _) => fee.toNat
  | .error _ => 0

/-- The memory fee of an instruction in a scope. -/
def Instr.expansionFee (i : Instr) (sc : Scope) : ℕ :=
  Vm.expansionFee i.memorySize sc.mem

/-- The memory fees charged over a run of the loop, up to where it stops. -/
def memoryCharged : List Instr → Scope → ℕ
  | [], _ => 0
  | i :: is, sc =>
      match i.step sc with
      | .error _ => 0
      | .ok (_, some _) => i.expansionFee sc
      | .ok (sc', none) => i.expansionFee sc + memoryCharged is sc'

/-- A dynamic gas function that leaves the memory as `memoryGasCost` leaves it
for the same size. -/
def PricesMemory {α : Type} (dynamicGas : UInt64 → Memory → UInt64 → Except VmError (UInt64 × Memory × α)) :
    Prop :=
  ∀ gas mem size cost mem' a, dynamicGas gas mem size = .ok (cost, mem', a) →
    ∃ fee, memoryGasCost mem size = .ok (fee, mem')

theorem Scope.charge_eq_ok {α : Type} {sc sc' : Scope} {constantGas : UInt64}
    {memorySize : UInt64 × Bool}
    {dynamicGas : UInt64 → Memory → UInt64 → Except VmError (UInt64 × Memory × α)} {a : α}
    (h : sc.charge constantGas memorySize dynamicGas = .ok (sc', a)) :
    ∃ gas size cost mem, useGas sc.gas constantGas = some gas ∧ memorySize.2 = false ∧
      safeMul (toWordSize memorySize.1) 32 = (size, false) ∧
      dynamicGas gas sc.mem size = .ok (cost, mem, a) ∧ useGas gas cost = some sc'.gas ∧
      sc'.mem = mem.resize size := by
  unfold Scope.charge at h
  split at h
  · rename_i gas hgas
    simp only [Except.throw_bind, Except.ite_throw_eq_ok, Except.bind_eq_ok,
      Except.mapError_eq_ok] at h
    obtain ⟨hms, hmul, ⟨cost, mem, a'⟩, hdyn, h⟩ := h
    split at h
    · rename_i gas' hgas'
      simp only [Except.pure_eq_ok, Prod.mk.injEq] at h
      obtain ⟨rfl, rfl⟩ := h
      refine ⟨gas, _, cost, mem, hgas, by simpa using hms, Prod.ext rfl (by simpa using hmul),
        hdyn, hgas', ?_⟩
      -- `Run` skips `Resize(0)`, which would change nothing
      split_ifs with hpos
      · rfl
      · exact (Memory.resize_of_not_pos hpos).symm
    · exact absurd h Except.throw_ne_ok
  · exact absurd h Except.throw_ne_ok


theorem size_of_safeMul {x size : UInt64} (h : safeMul x 32 = (size, false)) :
    size.toNat % 32 = 0 := by
  have hmul := safeMul_toNat (x := x) (y := 32) (by rw [h])
  rw [h] at hmul
  change size.toNat = x.toNat * 32 at hmul
  rw [hmul]
  exact Nat.mul_mod_left _ _

/-- The charges of one turn keep the memory invariant, when the dynamic gas
function leaves the memory as `memoryGasCost` does at the size `Run` rounded;
the expansion fee is the exact difference of `C`. -/
theorem Scope.charge_priced {α : Type} {sc sc' : Scope} {constantGas : UInt64}
    {memorySize : UInt64 × Bool}
    {dynamicGas : UInt64 → Memory → UInt64 → Except VmError (UInt64 × Memory × α)} {a : α}
    (hdg : ∀ gas size cost mem' a, safeMul (toWordSize memorySize.1) 32 = (size, false) →
      dynamicGas gas sc.mem size = .ok (cost, mem', a) →
      ∃ fee, memoryGasCost sc.mem size = .ok (fee, mem'))
    (hm : sc.mem.Priced) (h : sc.charge constantGas memorySize dynamicGas = .ok (sc', a)) :
    sc'.mem.Priced ∧
      expansionFee memorySize sc.mem + memoryFee (sc.mem.len / 32) =
        memoryFee (sc'.mem.len / 32) := by
  obtain ⟨gas, size, cost, mem, -, -, hmul, hdyn, -, hmem⟩ := Scope.charge_eq_ok h
  obtain ⟨fee, hfee⟩ := hdg _ _ _ _ _ hmul hdyn
  have hfee' : expansionFee memorySize sc.mem = fee.toNat := by
    simp only [expansionFee, hmul, hfee]
  rw [hmem, hfee']
  exact hm.expand (size_of_safeMul hmul) hfee

theorem PricesMemory.at {α : Type} {dynamicGas : UInt64 → Memory → UInt64 → Except VmError (UInt64 × Memory × α)}
    (hdg : PricesMemory dynamicGas) {mem : Memory} {rounded : UInt64 × Bool} :
    ∀ gas size cost mem' a, rounded = (size, false) →
      dynamicGas gas mem size = .ok (cost, mem', a) → ∃ fee, memoryGasCost mem size = .ok (fee, mem') :=
  fun gas size cost mem' a _ h => hdg gas mem size cost mem' a h

theorem noTemp_prices {f : Memory → UInt64 → Except VmError (UInt64 × Memory)}
    (hf : ∀ mem size cost mem', f mem size = .ok (cost, mem') →
      ∃ fee, memoryGasCost mem size = .ok (fee, mem')) :
    PricesMemory (noTemp f) := by
  intro gas mem size cost mem' a h
  simp only [noTemp] at h
  cases hr : f mem size with
  | error err => simp [hr, Except.map] at h
  | ok r =>
      simp only [hr, Except.map, Except.ok.injEq, Prod.mk.injEq] at h
      obtain ⟨rfl, rfl, -⟩ := h
      exact hf mem size r.1 r.2 hr

theorem MemoryOp.dynamicGas_memory (op : MemoryOp) {warm : Bool} {stack : Stack}
    {mem mem' : Memory} {size cost : UInt64}
    (h : op.dynamicGas warm stack mem size = .ok (cost, mem')) :
    ∃ fee, memoryGasCost mem size = .ok (fee, mem') := by
  cases op with
  | sha3 | callDataCopy | codeCopy | returnDataCopy => exact memoryWordGas_memory h
  | extCodeCopy => exact gasExtCodeCopyEIP2929_memory h
  | mload | mstore | mstore8 | ret | revert => exact ⟨cost, h⟩
  | log n => exact makeGasLog_memory h

theorem CreateOp.dynamicGas_memory (op : CreateOp) {stack : Stack} {mem mem' : Memory}
    {size cost : UInt64} (h : op.dynamicGas stack mem size = .ok (cost, mem')) :
    ∃ fee, memoryGasCost mem size = .ok (fee, mem') := by
  cases op with
  | create => exact ⟨cost, h⟩
  | create2 => exact memoryWordGas_memory h

theorem CallOp.dynamicGas_prices (op : CallOp) (warm empty : Bool) (stack : Stack) :
    PricesMemory fun gas mem size => op.dynamicGas warm empty gas stack mem size := by
  intro gas mem size cost mem' callGasTemp h
  -- every call gas function is the common body on the gas the wrapper leaves
  have hbody : ∀ (g : UInt64 × UInt64) (r : UInt64 × Memory × UInt64),
      callVariantGas g.1 g.2 stack mem size = .ok r →
      ∃ fee, memoryGasCost mem size = .ok (fee, r.2.1) := by
    rintro g ⟨c, m, t⟩ hr
    obtain ⟨fee, -, hfee, -⟩ := callVariantGas_eq_ok hr
    exact ⟨fee, hfee⟩
  have hwrap : ∀ (old : UInt64 → Except VmError (UInt64 × Memory × UInt64)),
      (∀ g r, old g = .ok r → ∃ fee, memoryGasCost mem size = .ok (fee, r.2.1)) →
      makeCallVariantGasCallEIP2929 old warm gas = .ok (cost, mem', callGasTemp) →
      ∃ fee, memoryGasCost mem size = .ok (fee, mem') := by
    intro old hold hw
    rcases makeCallVariantGasCallEIP2929_eq_ok hw with ⟨-, hr⟩ | ⟨-, -, c, hr, -⟩
    · exact hold _ _ hr
    · exact hold _ _ hr
  cases op with
  | call => exact hwrap _ (fun g r hr => hbody (_, g) r hr) h
  | callCode => exact hwrap _ (fun g r hr => hbody (_, g) r hr) h
  | delegateCall => exact hwrap _ (fun g r hr => hbody (0, g) r hr) h
  | staticCall => exact hwrap _ (fun g r hr => hbody (0, g) r hr) h

theorem written_eq_ok {m : Option Memory} {mem : Memory} {e : Option Ending}
    (h : written m = .ok (mem, e)) : m = some mem := by
  cases m with
  | none => cases h
  | some m =>
      simp only [written, Except.ok.injEq, Prod.mk.injEq] at h
      rw [h.1]

/-- `execute` of a memory operation writes inside the store. -/
theorem MemoryOp.execute_mem {op : MemoryOp} {stack : Stack} {data : Except VmError Bytes}
    {mem mem' : Memory} {e : Option Ending} (h : op.execute stack data mem = .ok (mem', e)) :
    mem'.len = mem.len ∧ mem'.lastGasCost = mem.lastGasCost := by
  cases op with
  | callDataCopy | codeCopy | returnDataCopy | extCodeCopy =>
      cases data with
      | error err => cases h
      | ok bytes => exact Memory.len_set (written_eq_ok h)
  | mstore => exact Memory.len_set32 (written_eq_ok h)
  | mstore8 => exact Memory.len_set (written_eq_ok h)
  | ret | revert | sha3 | mload | log _ =>
      simp only [MemoryOp.execute, Except.ok.injEq, Prod.mk.injEq] at h
      rw [← h.1]
      exact ⟨rfl, rfl⟩

/-- A call's `execute` hands the forwarded gas to the callee, copies its return
data into the store when it succeeded or reverted, and adds the gas it got back. -/
theorem callExecute_eq_ok {op : CallOp} {stack : Stack} {callGasTemp : UInt64}
    {callee : UInt64 → Except Panic CallResult} {sc sc' : Scope}
    (h : callExecute op stack callGasTemp callee sc = .ok sc') :
    ∃ r, callee (op.forwarded stack callGasTemp) = .ok r ∧ sc'.gas = sc.gas + r.returnGas ∧
      (sc'.mem = sc.mem ∨
        sc.mem.set (stack.back op.retArea.1).uint64 (stack.back op.retArea.2).uint64 r.ret =
          some sc'.mem) := by
  unfold callExecute at h
  split at h
  · cases h
  · rename_i r hr
    dsimp only at h
    split at h
    · cases h
    · rename_i mem hmem
      simp only [Except.ok.injEq] at h
      subst h
      refine ⟨r, hr, rfl, ?_⟩
      split_ifs at hmem
      · exact .inr hmem
      · cases hmem
        exact .inl rfl

/-- The return data a call copies lands inside the store. -/
theorem callExecute_mem {op : CallOp} {stack : Stack} {callGasTemp : UInt64}
    {callee : UInt64 → Except Panic CallResult} {sc sc' : Scope}
    (h : callExecute op stack callGasTemp callee sc = .ok sc') :
    sc'.mem.len = sc.mem.len ∧ sc'.mem.lastGasCost = sc.mem.lastGasCost := by
  obtain ⟨r, -, -, hmem | hmem⟩ := callExecute_eq_ok h
  · rw [hmem]
    exact ⟨rfl, rfl⟩
  · exact Memory.len_set hmem

/-- A creation hands all but one 64th of the contract's gas to the new contract
and adds back what it returns. -/
theorem createExecute_eq_ok {callee : UInt64 → Except Panic CallResult} {sc sc' : Scope}
    (h : createExecute callee sc = .ok sc') :
    ∃ r, callee (sc.gas - sc.gas / 64) = .ok r ∧
      sc' = ⟨sc.gas - (sc.gas - sc.gas / 64) + r.returnGas, sc.mem⟩ := by
  unfold createExecute at h
  dsimp only at h
  split at h
  · cases h
  · rename_i r hr
    simp only [Except.ok.injEq] at h
    exact ⟨r, hr, h.symm⟩

theorem useGas_eq_some {gas cost gas' : UInt64} (h : useGas gas cost = some gas') :
    cost ≤ gas ∧ gas' = gas - cost := by
  unfold useGas at h
  split_ifs at h with hlt
  cases h
  exact ⟨UInt64.not_lt.mp hlt, rfl⟩

/-- The charges of a turn only take gas. -/
theorem Scope.charge_gas_le {α : Type} {sc sc' : Scope} {constantGas : UInt64}
    {memorySize : UInt64 × Bool}
    {dynamicGas : UInt64 → Memory → UInt64 → Except VmError (UInt64 × Memory × α)} {a : α}
    (h : sc.charge constantGas memorySize dynamicGas = .ok (sc', a)) : sc'.gas ≤ sc.gas := by
  obtain ⟨gas, -, cost, -, hgas, -, -, -, hgas', -⟩ := Scope.charge_eq_ok h
  obtain ⟨hc, rfl⟩ := useGas_eq_some hgas
  obtain ⟨hc', hsc⟩ := useGas_eq_some hgas'
  rw [hsc]
  exact UInt64.le_trans (UInt64.sub_le hc') (UInt64.sub_le hc)

/-- An operation without a memory size rounds it to zero, which `memoryGasCost`
prices at nothing. -/
theorem plain_prices {dynamicGas : Option (Except VmError UInt64)} {mem : Memory} :
    ∀ gas size cost mem' (a : Unit),
      safeMul (toWordSize ((0, false) : UInt64 × Bool).1) 32 = (size, false) →
      (fun (_ : UInt64) mem (_ : UInt64) => (match dynamicGas with
        | none => .ok (0, mem, ())
        | some cost => cost.map fun c => (c, mem, ()) : Except VmError (UInt64 × Memory × Unit)))
        gas mem size = .ok (cost, mem', a) →
      ∃ fee, memoryGasCost mem size = .ok (fee, mem') := by
  intro gas size cost mem' a hsize h
  have hzero : size = 0 := (Prod.mk.inj hsize.symm).1
  have hmem : mem' = mem := by
    cases dynamicGas with
    | none =>
        simp only [Except.ok.injEq, Prod.mk.injEq] at h
        exact h.2.1.symm
    | some c =>
        cases c with
        | error err => cases h
        | ok c =>
            simp only [Except.map, Except.ok.injEq, Prod.mk.injEq] at h
            exact h.2.1.symm
  subst hzero hmem
  exact ⟨0, rfl⟩

/-- One turn of the loop keeps the memory invariant, and the instruction's
expansion fee is the exact difference of `C`. -/
theorem Instr.step_priced {i : Instr} {sc sc' : Scope} {e : Option Ending} (hm : sc.mem.Priced)
    (h : i.step sc = .ok (sc', e)) :
    sc'.mem.Priced ∧
      i.expansionFee sc + memoryFee (sc.mem.len / 32) = memoryFee (sc'.mem.len / 32) := by
  cases i with
  | plain constantGas dynamicGas ending =>
      simp only [Instr.step, Except.bind_eq_ok, Except.mapError_eq_ok] at h
      obtain ⟨⟨sc₁, ⟨⟩⟩, hcharge, h⟩ := h
      have hsc : sc' = sc₁ := by
        cases ending with
        | error err => cases h
        | ok e' =>
            simp only [Except.pure_eq_ok, Prod.mk.injEq] at h
            exact h.1.symm
      subst hsc
      exact Scope.charge_priced plain_prices hm hcharge
  | memory op stack warm data =>
      simp only [Instr.step, Except.bind_eq_ok, Except.mapError_eq_ok] at h
      obtain ⟨⟨sc₁, ⟨⟩⟩, hcharge, ⟨mem, e'⟩, hexec, h⟩ := h
      obtain ⟨hp, hfee⟩ := Scope.charge_priced
        (noTemp_prices fun _ _ _ _ hf => op.dynamicGas_memory hf).at hm hcharge
      simp only [Except.pure_eq_ok, Prod.mk.injEq] at h
      obtain ⟨rfl, -⟩ := h
      obtain ⟨hlen, hcost⟩ := MemoryOp.execute_mem hexec
      refine ⟨hp.of_len hlen hcost, hfee.trans ?_⟩
      show memoryFee (sc₁.mem.len / 32) = memoryFee (mem.len / 32)
      rw [hlen]
  | call op stack warm empty callee =>
      simp only [Instr.step, Except.bind_eq_ok, Except.mapError_eq_ok] at h
      obtain ⟨⟨sc₁, callGasTemp⟩, hcharge, sc₂, hexec, h⟩ := h
      obtain ⟨hp, hfee⟩ := Scope.charge_priced (op.dynamicGas_prices warm empty stack).at hm hcharge
      simp only [Except.pure_eq_ok, Prod.mk.injEq] at h
      obtain ⟨rfl, -⟩ := h
      obtain ⟨hlen, hcost⟩ := callExecute_mem hexec
      exact ⟨hp.of_len hlen hcost, hfee.trans (by rw [hlen])⟩
  | create op stack callee =>
      simp only [Instr.step, Except.bind_eq_ok, Except.mapError_eq_ok] at h
      obtain ⟨⟨sc₁, ⟨⟩⟩, hcharge, sc₂, hexec, h⟩ := h
      simp only [Except.pure_eq_ok, Prod.mk.injEq] at h
      obtain ⟨rfl, -⟩ := h
      -- a creation's `execute` leaves the memory alone
      obtain ⟨r, -, rfl⟩ := createExecute_eq_ok hexec
      obtain ⟨hp, hfee⟩ := Scope.charge_priced
        (noTemp_prices fun _ _ _ _ hf => op.dynamicGas_memory hf).at hm hcharge
      exact ⟨hp, hfee⟩

/-- The run lemma: from a memory that keeps the invariant, every run of the
loop leaves one that keeps it, and the expansion fees charged on the way add up
to the growth of `C`. The induction follows the loop, one executed instruction
at a time. -/
theorem runLoop_priced (instrs : List Instr) {sc sc' : Scope} {e : Option Ending}
    (hm : sc.mem.Priced) (h : runLoop Instr.step instrs sc = .ok (sc', e)) :
    sc'.mem.Priced ∧
      memoryCharged instrs sc + memoryFee (sc.mem.len / 32) = memoryFee (sc'.mem.len / 32) := by
  induction instrs generalizing sc with
  | nil =>
      simp only [runLoop, Except.ok.injEq, Prod.mk.injEq] at h
      obtain ⟨rfl, -⟩ := h
      exact ⟨hm, by simp [memoryCharged]⟩
  | cons i is ih =>
      unfold runLoop at h
      cases hstep : i.step sc with
      | error err =>
          rw [hstep] at h
          cases h
      | ok r =>
          obtain ⟨sc₁, e₁⟩ := r
          obtain ⟨hp₁, hfee₁⟩ := Instr.step_priced hm hstep
          rw [hstep] at h
          cases e₁ with
          | some e₁ =>
              -- the instruction ended the frame
              simp only [Except.ok.injEq, Prod.mk.injEq] at h
              obtain ⟨rfl, -⟩ := h
              simp only [memoryCharged, hstep]
              exact ⟨hp₁, hfee₁⟩
          | none =>
              obtain ⟨hp, hfee⟩ := ih hp₁ h
              refine ⟨hp, ?_⟩
              simp only [memoryCharged, hstep]
              omega

/-- The memory expansion invariant of `Run`: after every executed instruction of
a frame, whatever its code and input, the memory is a whole number `w` of words,
`lastGasCost` is `C(w) = 3 * w + w * w / 512`, and the expansion fees charged
add up to it. -/
theorem memory_priced_run (instrs : List Instr) (gas : UInt64) {sc : Scope}
    {e : Option Ending} (h : runLoop Instr.step instrs ⟨gas, newMemory⟩ = .ok (sc, e)) :
    sc.mem.len % 32 = 0 ∧
      sc.mem.lastGasCost.toNat =
        3 * (sc.mem.len / 32) + sc.mem.len / 32 * (sc.mem.len / 32) / 512 ∧
      memoryCharged instrs ⟨gas, newMemory⟩ = sc.mem.lastGasCost.toNat := by
  obtain ⟨hp, hfee⟩ := runLoop_priced instrs newMemory_priced h
  refine ⟨hp.aligned, hp.lastGasCost_eq.trans (memoryFee_eq _), ?_⟩
  rw [hp.lastGasCost_eq]
  simpa using hfee

theorem memory_priced_run_mstore :
    let instrs : List Instr := [.memory .mstore [0, 5] true (.ok [])]
    let sc : Scope := ⟨94, ⟨Hash.bytes 5, 3⟩⟩
    runLoop Instr.step instrs ⟨100, newMemory⟩ = .ok (sc, none) ∧
      sc.mem.len % 32 = 0 ∧
      sc.mem.lastGasCost.toNat =
        3 * (sc.mem.len / 32) + sc.mem.len / 32 * (sc.mem.len / 32) / 512 ∧
      memoryCharged instrs ⟨100, newMemory⟩ = sc.mem.lastGasCost.toNat :=
  have h : runLoop Instr.step [.memory .mstore [0, 5] true (.ok [])] ⟨100, newMemory⟩ =
      .ok (⟨94, ⟨Hash.bytes 5, 3⟩⟩, none) := by rfl
  ⟨h, memory_priced_run _ _ h⟩

end Classzz.Vm
