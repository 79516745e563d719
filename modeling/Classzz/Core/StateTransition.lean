import Classzz.Vm.TeWaka.Frame
import Classzz.Params.Config
import Classzz.Lib.Except
import Mathlib.Data.Nat.Size

/-!
# Applying a message

`StateTransition.TransitionDb`: the consensus checks of `preCheck` and
`buyGas`, the intrinsic gas, the top frame (`Create` or `Call`), the refund
and the tip to the coinbase. An error of these checks makes the transaction,
and so its block, invalid; an error of the top frame is only recorded in the
receipt.

The interpreter's gas count is not modelled: the gas the top frame leaves and
the refund counter are given with what the frame does (`Execution`). The gas
left is at most what the frame was given.

Every successful transition is the sender's purchase of gas, the top frame,
and two credits (`transitionDb_eq_ok`). The sender passed the check that it
has no code, so it is not the Te Waka account; hence the transition keeps
that account, with the saves of the top frame (`keepsTeWaka_transitionDb`).
-/

namespace Classzz.Core

open State Evm
open Vm (teWaKaAddress)

/-! ### Parameters of `params/protocol_params.go` -/

def txGas : UInt64 := 21000
def txGasContractCreation : UInt64 := 53000
def txDataZeroGas : UInt64 := 4
def txDataNonZeroGasEIP2028 : UInt64 := 16
def txAccessListAddressGas : UInt64 := 2400
def txAccessListStorageKeyGas : UInt64 := 1900
def refundQuotientEIP3529 : UInt64 := 5

@[simp] theorem toNat_txDataNonZeroGasEIP2028 : txDataNonZeroGasEIP2028.toNat = 16 := rfl
@[simp] theorem toNat_txDataZeroGas : txDataZeroGas.toNat = 4 := rfl
@[simp] theorem toNat_txAccessListAddressGas : txAccessListAddressGas.toNat = 2400 := rfl
@[simp] theorem toNat_txAccessListStorageKeyGas : txAccessListStorageKeyGas.toNat = 1900 := rfl

/-- The consensus errors of a message, with what their messages print. -/
inductive TxError where
  /-- `"nonce too high: address %v, tx: %d state: %d"`. -/
  | nonceTooHigh (address : Address) (tx state : UInt64)
  /-- `"nonce too low: address %v, tx: %d state: %d"`. -/
  | nonceTooLow (address : Address) (tx state : UInt64)
  /-- `"sender not an eoa: address %v, codehash: %s"`. -/
  | senderNoEOA (address : Address) (codeHash : Hash)
  /-- `"max fee per gas higher than 2^256-1: address %v, maxFeePerGas bit length: %d"`. -/
  | feeCapVeryHigh (address : Address) (bitLen : ℕ)
  /-- `"max priority fee per gas higher than 2^256-1: address %v, ..."`. -/
  | tipVeryHigh (address : Address) (bitLen : ℕ)
  /-- `"max priority fee per gas higher than max fee per gas: address %v, ..."`. -/
  | tipAboveFeeCap (address : Address) (tip feeCap : ℕ)
  /-- `"max fee per gas less than block base fee: address %v, ..."`. -/
  | feeCapTooLow (address : Address) (feeCap baseFee : ℕ)
  /-- `"insufficient funds for gas * price + value: address %v have %v want %v"`. -/
  | insufficientFunds (address : Address) (available want : ℤ)
  /-- `"gas limit reached"`, from the block's gas pool. -/
  | gasLimitReached
  /-- `"gas uint64 overflow"`. -/
  | gasUintOverflow
  /-- `"intrinsic gas too low: have %d, want %d"`. -/
  | intrinsicGas (available want : UInt64)
  /-- `"insufficient funds for transfer: address %v"`. -/
  | insufficientFundsForTransfer (address : Address)
  deriving DecidableEq, Repr

/-- `types.Message`. The sender and the recipient are the fields `from` and
`to`, nil for a creation. A message of a block is never fake. -/
structure Message where
  sender : Address
  recipient : Option Address
  nonce : UInt64
  amount : ℕ
  gasLimit : UInt64
  gasPrice : ℕ
  gasFeeCap : ℕ
  gasTipCap : ℕ
  data : Bytes
  accessList : List (Address × List Hash)

/-- The parts of `vm.BlockContext` a transition reads. The base fee is the
header's, nil when the header has none. -/
structure BlockContext where
  coinbase : Address
  blockNumber : ℕ
  baseFee : Option ℕ

/-- What the interpreter does with the message: the program of the top frame
(the init code's for a creation), what `RunStaking` or another precompile
does if the recipient is one, the gas the frame leaves and the refund
counter. -/
structure Execution where
  code : Program
  staking : StakingProgram
  succeeds : Bool
  gasLeft : UInt64
  refund : UInt64

/-- `ExecutionResult`, with the saves of the top frame that were not
reverted. -/
structure ExecutionResult where
  usedGas : UInt64
  failed : Bool
  saves : List Bytes

/-- `buyGas`: the sender must afford the gas at the fee cap and the value,
and the block's gas pool the gas; the gas at the gas price is taken. -/
def buyGas (msg : Message) (gp : UInt64) (s : StateDB) :
    Except (Fault TxError) (StateDB × UInt64) := do
  let mgval : ℤ := msg.gasLimit.toNat * msg.gasPrice
  let balanceCheck : ℤ := msg.gasLimit.toNat * msg.gasFeeCap + msg.amount
  if s.getBalance msg.sender < balanceCheck then
    throw (.error (.insufficientFunds msg.sender (s.getBalance msg.sender) balanceCheck))
  else if gp < msg.gasLimit then throw (.error .gasLimitReached)
  else pure (s.subBalance msg.sender mgval, gp - msg.gasLimit)

/-- `preCheck`: the nonce, that the sender has no code, the fee caps against
each other and the base fee, then `buyGas`. `Cmp` with a nil base fee
dereferences nil. -/
def preCheck (baseFee : Option ℕ) (msg : Message) (gp : UInt64) (s : StateDB) :
    Except (Fault TxError) (StateDB × UInt64) := do
  let stNonce := s.getNonce msg.sender
  if stNonce < msg.nonce then throw (.error (.nonceTooHigh msg.sender msg.nonce stNonce))
  if stNonce > msg.nonce then throw (.error (.nonceTooLow msg.sender msg.nonce stNonce))
  let codeHash := s.getCodeHash msg.sender
  if codeHash ≠ emptyCodeHash ∧ codeHash ≠ 0 then throw (.error (.senderNoEOA msg.sender codeHash))
  if msg.gasFeeCap.size > 256 then
    throw (.error (.feeCapVeryHigh msg.sender msg.gasFeeCap.size))
  if msg.gasTipCap.size > 256 then
    throw (.error (.tipVeryHigh msg.sender msg.gasTipCap.size))
  if msg.gasFeeCap < msg.gasTipCap then
    throw (.error (.tipAboveFeeCap msg.sender msg.gasTipCap msg.gasFeeCap))
  match baseFee with
  | none => throw (.panic .nilPointerDereference)
  | some baseFee =>
      if msg.gasFeeCap < baseFee then
        throw (.error (.feeCapTooLow msg.sender msg.gasFeeCap baseFee))
      buyGas msg gp s

/-- `IntrinsicGas`. The base is `TxGas` from `CIP_1` on, else
`TxGasContractCreation` for a creation and nothing for a call; each byte of
data costs by whether it is zero, with the overflow checks of the source; the
access list's entries and keys cost without them, in wrapping `uint64`. -/
def intrinsicGas (data : Bytes) (accessList : List (Address × List Hash))
    (isContractCreation isCIP1 : Bool) : Except (Fault TxError) UInt64 := do
  let gas : UInt64 := if isCIP1 then txGas else if isContractCreation then txGasContractCreation else 0
  let gas ← if data.length > 0 then do
      let nz : UInt64 := UInt64.ofNat (data.countP (· != 0))
      if (UInt64.ofNat (2 ^ 64 - 1) - gas) / txDataNonZeroGasEIP2028 < nz then
        throw (.error .gasUintOverflow)
      let gas := gas + nz * txDataNonZeroGasEIP2028
      let z := UInt64.ofNat data.length - nz
      if (UInt64.ofNat (2 ^ 64 - 1) - gas) / txDataZeroGas < z then throw (.error .gasUintOverflow)
      pure (gas + z * txDataZeroGas)
    else pure gas
  let gas := gas + UInt64.ofNat accessList.length * txAccessListAddressGas
  pure (gas + UInt64.ofNat (accessList.map (·.2.length)).sum * txAccessListStorageKeyGas)

/-- The top frame of `TransitionDb`: `Create` with the data as init code, or
`Call` after the sender's nonce goes up. The code runs at depth one. -/
def messageFrame (cfg : Config) (msg : Message) (exe : Execution) (s : StateDB) : Frame :=
  let runCode := fun readOnly addr => run cfg 1 readOnly addr exe.code
  match msg.recipient with
  | none =>
      create runCode 0 false msg.sender (cfg.createAddress msg.sender (s.getNonce msg.sender))
        msg.amount msg.data s
  | some recipient =>
      call runCode exe.staking exe.succeeds 0 false msg.sender recipient msg.amount
        (s.setNonce msg.sender (s.getNonce msg.sender + 1))

/-- `refundGas`: the refund counter, capped at the gas used over the
quotient, is added to the gas left, which goes back to the sender at the gas
price and to the block's gas pool. Returns the state, the gas left and the
pool. -/
def refundGas (refundQuotient : UInt64) (msg : Message) (refundCounter gas gp : UInt64)
    (s : StateDB) : StateDB × UInt64 × UInt64 :=
  let refund := min ((msg.gasLimit - gas) / refundQuotient) refundCounter
  let gas := gas + refund
  (s.addBalance msg.sender (gas.toNat * msg.gasPrice), gas, gp + gas)

/-- `TransitionDb`. -/
def transitionDb (cfg : Config) (config : ChainConfig) (ctx : BlockContext) (msg : Message)
    (exe : Execution) (gp : UInt64) (s : StateDB) :
    Except (Fault TxError) (StateDB × UInt64 × ExecutionResult) := do
  let (s, gp) ← preCheck ctx.baseFee msg gp s
  let gas ← intrinsicGas msg.data msg.accessList msg.recipient.isNone (config.IsCIP1 ctx.blockNumber)
  if msg.gasLimit < gas then throw (.error (.intrinsicGas msg.gasLimit gas))
  if msg.amount > 0 ∧ ¬canTransfer s msg.sender msg.amount then
    throw (.error (.insufficientFundsForTransfer msg.sender))
  let r := messageFrame cfg msg exe s
  let (s, gasLeft, gp) :=
    refundGas refundQuotientEIP3529 msg exe.refund (min exe.gasLeft (msg.gasLimit - gas)) gp r.state
  let effectiveTip : ℤ := min (msg.gasTipCap : ℤ) (msg.gasFeeCap - (ctx.baseFee.getD 0 : ℤ))
  let s := s.addBalance ctx.coinbase ((msg.gasLimit - gasLeft).toNat * effectiveTip)
  pure (s, gp, ⟨msg.gasLimit - gasLeft, !r.ok, r.saves⟩)

/-! ### What a successful transition did -/

/-- The checks `preCheck` and `buyGas` pass, at a base fee. -/
@[mk_iff]
structure PreChecked (baseFee : ℕ) (msg : Message) (gp : UInt64) (s : StateDB) : Prop where
  nonce : s.getNonce msg.sender = msg.nonce
  eoa : s.getCodeHash msg.sender = emptyCodeHash ∨ s.getCodeHash msg.sender = 0
  feeCap : msg.gasFeeCap.size ≤ 256
  tip : msg.gasTipCap.size ≤ 256
  tipBelowFeeCap : msg.gasTipCap ≤ msg.gasFeeCap
  baseFee : baseFee ≤ msg.gasFeeCap
  funds : (msg.gasLimit.toNat * msg.gasFeeCap + msg.amount : ℤ) ≤ s.getBalance msg.sender
  gasPool : msg.gasLimit ≤ gp

theorem buyGas_eq_ok {msg : Message} {gp : UInt64} {s : StateDB} {r : StateDB × UInt64} :
    buyGas msg gp s = .ok r ↔
      (msg.gasLimit.toNat * msg.gasFeeCap + msg.amount : ℤ) ≤ s.getBalance msg.sender ∧
        msg.gasLimit ≤ gp ∧
        r = (s.subBalance msg.sender (msg.gasLimit.toNat * msg.gasPrice), gp - msg.gasLimit) := by
  simp only [buyGas, Except.ite_throw_eq_ok, Except.pure_eq_ok, not_lt]
  exact ⟨fun ⟨h₁, h₂, h₃⟩ => ⟨h₁, UInt64.not_lt.mp h₂, h₃.symm⟩,
    fun ⟨h₁, h₂, h₃⟩ => ⟨h₁, UInt64.not_lt.mpr h₂, h₃.symm⟩⟩

/-- `preCheck` passes exactly when the header has a base fee and the checks
pass at it; the sender then has paid for the gas. -/
theorem preCheck_eq_ok {baseFee : Option ℕ} {msg : Message} {gp : UInt64} {s : StateDB}
    {r : StateDB × UInt64} :
    preCheck baseFee msg gp s = .ok r ↔ ∃ fee, baseFee = some fee ∧ PreChecked fee msg gp s ∧
      r = (s.subBalance msg.sender (msg.gasLimit.toNat * msg.gasPrice), gp - msg.gasLimit) := by
  cases baseFee with
  | none => simp [preCheck, Except.throw_bind, Except.ite_throw_eq_ok, Except.throw_ne_ok]
  | some fee =>
      simp only [preCheck, Except.throw_bind, Except.ite_throw_eq_ok, buyGas_eq_ok,
        preChecked_iff, Option.some.injEq, exists_eq_left']
      constructor
      · rintro ⟨hlt, hgt, heoa, hcap, htip, htipcap, hfee, hfunds, hgp, rfl⟩
        exact ⟨⟨UInt64.le_antisymm (UInt64.not_lt.mp hgt) (UInt64.not_lt.mp hlt),
          by simpa only [not_and_or, not_not] using heoa, by omega, by omega, by omega, by omega,
          hfunds, hgp⟩, rfl⟩
      · rintro ⟨⟨hnonce, heoa, hcap, htip, htipcap, hfee, hfunds, hgp⟩, rfl⟩
        refine ⟨by simp [hnonce], by simp [hnonce], by simpa only [not_and_or, not_not] using heoa,
          by omega, by omega, by omega, by omega, hfunds, hgp, rfl⟩

/-- A transition passes the checks, then runs the top frame, refunds and
pays the tip. -/
theorem transitionDb_eq_ok {cfg : Config} {config : ChainConfig} {ctx : BlockContext}
    {msg : Message} {exe : Execution} {gp : UInt64} {s : StateDB}
    {x : StateDB × UInt64 × ExecutionResult} :
    transitionDb cfg config ctx msg exe gp s = .ok x ↔
      ∃ s₁ gp₁ gas, preCheck ctx.baseFee msg gp s = .ok (s₁, gp₁) ∧
        intrinsicGas msg.data msg.accessList msg.recipient.isNone
          (config.IsCIP1 ctx.blockNumber) = .ok gas ∧
        gas ≤ msg.gasLimit ∧ ¬(msg.amount > 0 ∧ ¬canTransfer s₁ msg.sender msg.amount) ∧
        ∃ s₂ gasLeft gp₂, refundGas refundQuotientEIP3529 msg exe.refund
            (min exe.gasLeft (msg.gasLimit - gas)) gp₁ (messageFrame cfg msg exe s₁).state =
            (s₂, gasLeft, gp₂) ∧
          x = (s₂.addBalance ctx.coinbase ((msg.gasLimit - gasLeft).toNat *
              min (msg.gasTipCap : ℤ) (msg.gasFeeCap - (ctx.baseFee.getD 0 : ℤ))), gp₂,
            ⟨msg.gasLimit - gasLeft, !(messageFrame cfg msg exe s₁).ok,
              (messageFrame cfg msg exe s₁).saves⟩) := by
  simp only [transitionDb, Except.bind_eq_ok, Except.throw_bind, Except.ite_throw_eq_ok,
    Except.pure_eq_ok, Prod.exists, UInt64.not_lt]
  constructor
  · rintro ⟨s₁, gp₁, hpre, gas, hgas, hle, htransfer, hx⟩
    exact ⟨s₁, gp₁, gas, hpre, hgas, hle, htransfer, _, _, _, rfl, hx.symm⟩
  · rintro ⟨s₁, gp₁, gas, hpre, hgas, hle, htransfer, s₂, gasLeft, gp₂, hrefund, rfl⟩
    refine ⟨s₁, gp₁, hpre, gas, hgas, hle, htransfer, ?_⟩
    rw [hrefund]

/-! ### Gas -/

section IntrinsicGas

/-- The gas of a message's data: `TxDataNonZeroGasEIP2028` for each non-zero byte and
`TxDataZeroGas` for each zero one. -/
def dataGas (data : Bytes) : ℕ :=
  txDataNonZeroGasEIP2028.toNat * data.countP (· != 0) +
    txDataZeroGas.toNat * (data.length - data.countP (· != 0))

/-- The gas of a message's access list: `TxAccessListAddressGas` for each entry and
`TxAccessListStorageKeyGas` for each storage key. -/
def accessListGas (accessList : List (Address × List Hash)) : ℕ :=
  txAccessListAddressGas.toNat * accessList.length +
    txAccessListStorageKeyGas.toNat * (accessList.map (·.2.length)).sum

/-- The base price `IntrinsicGas` starts from. -/
def intrinsicBase (isContractCreation isCIP1 : Bool) : UInt64 :=
  if isCIP1 then txGas else if isContractCreation then txGasContractCreation else 0

/-- The reference intrinsic gas: `TxGasContractCreation` for a creation and `TxGas` for a
call, with the gas of the data and of the access list. -/
def referenceIntrinsicGas (data : Bytes) (accessList : List (Address × List Hash))
    (isContractCreation : Bool) : ℕ :=
  (if isContractCreation then txGasContractCreation else txGas).toNat + dataGas data +
    accessListGas accessList

theorem toNat_intrinsicBase_le (isContractCreation isCIP1 : Bool) :
    (intrinsicBase isContractCreation isCIP1).toNat ≤ 53000 := by
  unfold intrinsicBase
  split_ifs <;> decide

/-- The overflow check of `IntrinsicGas`, `(MaxUint64 - gas) / price < n`, holds exactly
when `gas + n * price` does not fit in 64 bits. -/
theorem overflowCheck_iff {gas price n : UInt64} (hprice : 0 < price.toNat) :
    (UInt64.ofNat (2 ^ 64 - 1) - gas) / price < n ↔
      2 ^ 64 ≤ gas.toNat + n.toNat * price.toNat := by
  have hgas := UInt64.toNat_lt gas
  have hmax : (UInt64.ofNat (2 ^ 64 - 1)).toNat = 2 ^ 64 - 1 := rfl
  have hle : gas ≤ UInt64.ofNat (2 ^ 64 - 1) := UInt64.le_iff_toNat_le.mpr (by omega)
  rw [UInt64.lt_iff_toNat_lt, UInt64.toNat_div, UInt64.toNat_sub_of_le _ _ hle, hmax,
    Nat.div_lt_iff_lt_mul hprice]
  omega

/-- The access list is charged in wrapping `uint64`. -/
theorem add_accessListGas (gas : UInt64) (accessList : List (Address × List Hash)) :
    gas + UInt64.ofNat accessList.length * txAccessListAddressGas +
        UInt64.ofNat (accessList.map (·.2.length)).sum * txAccessListStorageKeyGas =
      UInt64.ofNat (gas.toNat + accessListGas accessList) := by
  apply UInt64.toNat_inj.mp
  simp only [UInt64.toNat_add, UInt64.toNat_mul, UInt64.toNat_ofNat',
    toNat_txAccessListAddressGas, toNat_txAccessListStorageKeyGas, accessListGas]
  omega

variable {data : Bytes} (accessList : List (Address × List Hash))
  (isContractCreation isCIP1 : Bool)

/-- The counts `IntrinsicGas` takes of the data, as numbers, for data shorter than `2 ^ 64`
bytes: the non-zero bytes, the zero ones, and the gas after the non-zero ones. -/
theorem intrinsicGas_counts (hlen : data.length < 2 ^ 64) (gas : UInt64)
    (hgas : gas.toNat + txDataNonZeroGasEIP2028.toNat * data.countP (· != 0) < 2 ^ 64) :
    (UInt64.ofNat (data.countP (· != 0))).toNat = data.countP (· != 0) ∧
      (UInt64.ofNat data.length - UInt64.ofNat (data.countP (· != 0))).toNat =
        data.length - data.countP (· != 0) ∧
      (gas + UInt64.ofNat (data.countP (· != 0)) * txDataNonZeroGasEIP2028).toNat =
        gas.toNat + data.countP (· != 0) * 16 := by
  have hc : data.countP (· != 0) ≤ data.length := List.countP_le_length
  have hnz : (UInt64.ofNat (data.countP (· != 0))).toNat = data.countP (· != 0) :=
    UInt64.toNat_ofNat_of_lt' (lt_of_le_of_lt hc hlen)
  have hl : (UInt64.ofNat data.length).toNat = data.length := UInt64.toNat_ofNat_of_lt' hlen
  refine ⟨hnz, ?_, ?_⟩
  · rw [UInt64.toNat_sub_of_le _ _ (UInt64.le_iff_toNat_le.mpr (by rw [hnz, hl]; exact hc)),
      hnz, hl]
  · rw [toNat_txDataNonZeroGasEIP2028] at hgas
    rw [UInt64.toNat_add, UInt64.toNat_mul, hnz, toNat_txDataNonZeroGasEIP2028]
    omega

/-- While the base price and the data fit in 64 bits, `IntrinsicGas` returns their price
with that of the access list, which wraps. -/
theorem intrinsicGas_eq_ok (hlen : data.length < 2 ^ 64)
    (hdata : (intrinsicBase isContractCreation isCIP1).toNat + dataGas data < 2 ^ 64) :
    intrinsicGas data accessList isContractCreation isCIP1 =
      .ok (UInt64.ofNat ((intrinsicBase isContractCreation isCIP1).toNat + dataGas data +
        accessListGas accessList)) := by
  have hg : (if isCIP1 = true then txGas
      else if isContractCreation = true then txGasContractCreation else 0) =
      intrinsicBase isContractCreation isCIP1 := rfl
  set g := intrinsicBase isContractCreation isCIP1
  simp only [dataGas, toNat_txDataNonZeroGasEIP2028, toNat_txDataZeroGas] at hdata
  by_cases hpos : data.length > 0
  · obtain ⟨hnz, hz, hgas⟩ := intrinsicGas_counts hlen g (by simp only [toNat_txDataNonZeroGasEIP2028]; omega)
    -- neither overflow check fires
    have h1 : ¬ (UInt64.ofNat (2 ^ 64 - 1) - g) / txDataNonZeroGasEIP2028 <
        UInt64.ofNat (data.countP (· != 0)) := by
      rw [overflowCheck_iff (by decide), hnz, toNat_txDataNonZeroGasEIP2028]
      omega
    have h2 : ¬ (UInt64.ofNat (2 ^ 64 - 1) -
        (g + UInt64.ofNat (data.countP (· != 0)) * txDataNonZeroGasEIP2028)) / txDataZeroGas <
          UInt64.ofNat data.length - UInt64.ofNat (data.countP (· != 0)) := by
      rw [overflowCheck_iff (by decide), hgas, hz, toNat_txDataZeroGas]
      omega
    simp only [intrinsicGas, hg, hpos, if_true, h1, h2, if_false]
    show Except.ok _ = Except.ok _
    rw [add_accessListGas]
    congr 2
    rw [UInt64.toNat_add, UInt64.toNat_mul, hgas, hz, toNat_txDataZeroGas, dataGas,
      toNat_txDataNonZeroGasEIP2028, toNat_txDataZeroGas]
    omega
  · -- no data: the base price and the access list
    have hnil : data.length = 0 := by omega
    simp only [intrinsicGas, hg, hpos, if_false]
    show Except.ok _ = Except.ok _
    rw [add_accessListGas]
    simp [dataGas, List.length_eq_zero_iff.mp hnil]

/-- Once the base price and the data do not fit in 64 bits, `IntrinsicGas` reports the
overflow. -/
theorem intrinsicGas_eq_error (hlen : data.length < 2 ^ 64)
    (hdata : 2 ^ 64 ≤ (intrinsicBase isContractCreation isCIP1).toNat + dataGas data) :
    intrinsicGas data accessList isContractCreation isCIP1 = .error (.error .gasUintOverflow) := by
  have hg : (if isCIP1 = true then txGas
      else if isContractCreation = true then txGasContractCreation else 0) =
      intrinsicBase isContractCreation isCIP1 := rfl
  have hbase := toNat_intrinsicBase_le isContractCreation isCIP1
  set g := intrinsicBase isContractCreation isCIP1
  simp only [dataGas, toNat_txDataNonZeroGasEIP2028, toNat_txDataZeroGas] at hdata
  -- the base price alone fits, so there is data
  have hpos : data.length > 0 := by
    by_contra hnil
    have hc : data.countP (· != 0) ≤ data.length := List.countP_le_length
    omega
  by_cases h1 : (UInt64.ofNat (2 ^ 64 - 1) - g) / txDataNonZeroGasEIP2028 <
      UInt64.ofNat (data.countP (· != 0))
  · simp only [intrinsicGas, hg, hpos, if_true, h1]
    rfl
  · -- the non-zero bytes fit, so the zero ones overflow
    have hnz : (UInt64.ofNat (data.countP (· != 0))).toNat = data.countP (· != 0) :=
      UInt64.toNat_ofNat_of_lt' (lt_of_le_of_lt List.countP_le_length hlen)
    rw [overflowCheck_iff (by decide), hnz, toNat_txDataNonZeroGasEIP2028] at h1
    obtain ⟨-, hz, hgas⟩ := intrinsicGas_counts hlen g (by simp only [toNat_txDataNonZeroGasEIP2028]; omega)
    have h2 : (UInt64.ofNat (2 ^ 64 - 1) -
        (g + UInt64.ofNat (data.countP (· != 0)) * txDataNonZeroGasEIP2028)) / txDataZeroGas <
          UInt64.ofNat data.length - UInt64.ofNat (data.countP (· != 0)) := by
      rw [overflowCheck_iff (by decide), hgas, hz, toNat_txDataZeroGas]
      omega
    have h1' : ¬ (UInt64.ofNat (2 ^ 64 - 1) - g) / txDataNonZeroGasEIP2028 <
        UInt64.ofNat (data.countP (· != 0)) := by
      rw [overflowCheck_iff (by decide), hnz, toNat_txDataNonZeroGasEIP2028]
      omega
    simp only [intrinsicGas, hg, hpos, if_true, h1', h2, if_false]
    rfl

/-- From `CIP_1` on, `IntrinsicGas` prices a creation as a call: for data whose price fits
in 64 bits it returns the reference price of a call, `TxGasContractCreation - TxGas` less
than that of a creation, with the access list added in wrapping `uint64` rather than
checked. -/
theorem intrinsicGas_cip1_creation_as_call (data : Bytes)
    (accessList : List (Address × List Hash)) (hlen : data.length < 2 ^ 64)
    (hdata : txGas.toNat + dataGas data < 2 ^ 64) :
    intrinsicGas data accessList true true =
        .ok (UInt64.ofNat (referenceIntrinsicGas data accessList false)) ∧
      referenceIntrinsicGas data accessList true =
        referenceIntrinsicGas data accessList false + 32000 := by
  refine ⟨?_, ?_⟩
  · rw [intrinsicGas_eq_ok accessList true true hlen hdata]
    rfl
  · simp only [referenceIntrinsicGas, if_true, Bool.false_eq_true, if_false]
    have hcreate : txGasContractCreation.toNat = txGas.toNat + 32000 := rfl
    omega

/-- A creation with no data and no access list after `CIP_1` costs 21000, where the
reference price of a creation is 53000. -/
theorem intrinsicGas_cip1_creation_as_call_empty :
    ([] : Bytes).length < 2 ^ 64 ∧ txGas.toNat + dataGas [] < 2 ^ 64 ∧
      intrinsicGas [] [] true true = .ok (UInt64.ofNat (referenceIntrinsicGas [] [] false)) ∧
      referenceIntrinsicGas [] [] true = referenceIntrinsicGas [] [] false + 32000 ∧
      referenceIntrinsicGas [] [] false = 21000 :=
  ⟨by decide, by decide,
    (intrinsicGas_cip1_creation_as_call [] [] (by decide) (by decide)).1,
    (intrinsicGas_cip1_creation_as_call [] [] (by decide) (by decide)).2, by decide⟩

end IntrinsicGas

/-! ### The Te Waka account through a transition -/

/-- The Te Waka account as genesis leaves it: a nonce, code, and not
suicided. -/
structure LiveAccount (acct : Account) : Prop where
  nonce_ne_zero : acct.nonce ≠ 0
  not_suicided : acct.suicided = false
  code : hasCode acct.codeHash

/-- The Te Waka account is live as genesis left it. -/
def TeWakaLive (s : StateDB) : Prop :=
  ∃ acct, s.view teWaKaAddress = some acct ∧ LiveAccount acct

theorem LiveAccount.of_kept {acct acct' : Account} {xs : List Bytes} (h : LiveAccount acct)
    (hk : Kept acct acct' xs) : LiveAccount acct' :=
  ⟨hk.nonce ▸ h.nonce_ne_zero, hk.suicided ▸ h.not_suicided, hk.codeHash ▸ h.code⟩

theorem TeWakaLive.of_keeps {s t : StateDB} {xs : List Bytes} (h : TeWakaLive s)
    (hk : KeepsTeWaka s t xs) : TeWakaLive t := by
  obtain ⟨acct, hv, hlive⟩ := h
  obtain ⟨acct', hv', hkept⟩ := hk acct hv hlive.nonce_ne_zero
  exact ⟨acct', hv', hlive.of_kept hkept⟩

/-- The account has code, so it is not a sender that passed `preCheck`. -/
theorem TeWakaLive.ne_of_eoa {s : StateDB} {a : Address} (h : TeWakaLive s)
    (heoa : s.getCodeHash a = emptyCodeHash ∨ s.getCodeHash a = 0) : a ≠ teWaKaAddress := by
  rintro rfl
  obtain ⟨acct, hv, hlive⟩ := h
  have hcode : s.getCodeHash teWaKaAddress = acct.codeHash := by
    simp [StateDB.getCodeHash_eq, hv]
  rw [hcode] at heoa
  exact heoa.elim hlive.code.1 hlive.code.2

theorem keepsTeWaka_messageFrame (cfg : Config) (msg : Message) (exe : Execution)
    (hsender : msg.sender ≠ teWaKaAddress) (s : StateDB) :
    KeepsTeWaka s (messageFrame cfg msg exe s).state (messageFrame cfg msg exe s).saves := by
  have hreach : ∀ (readOnly : Bool) (ctx : Address) (t : StateDB),
      t.Reaches (run cfg 1 readOnly ctx exe.code t).state :=
    fun readOnly ctx t => reaches_run cfg exe.code 1 readOnly ctx t
  have hkeep : ∀ (readOnly : Bool) (ctx : Address) (t : StateDB), ctx ≠ teWaKaAddress →
      KeepsTeWaka t (run cfg 1 readOnly ctx exe.code t).state
        (run cfg 1 readOnly ctx exe.code t).saves :=
    fun readOnly ctx t hctx => keepsTeWaka_run cfg exe.code 1 readOnly hctx t
  unfold messageFrame
  split
  · exact keepsTeWaka_create hreach hkeep 0 hsender false _ _ _ s
  · exact (keepsTeWaka_setNonce s hsender _).trans
      (keepsTeWaka_call hreach hkeep exe.staking exe.succeeds 0 false msg.sender _ _ _)

theorem keepsTeWaka_refundGas (q : UInt64) (msg : Message) (refundCounter gas gp : UInt64)
    (s : StateDB) : KeepsTeWaka s (refundGas q msg refundCounter gas gp s).1 [] :=
  keepsTeWaka_addBalance s msg.sender _

/-- A transition keeps the live Te Waka account, with the saves of its top
frame. -/
theorem keepsTeWaka_transitionDb {cfg : Config} {config : ChainConfig} {ctx : BlockContext}
    {msg : Message} {exe : Execution} {gp gp' : UInt64} {s s' : StateDB} {res : ExecutionResult}
    (hlive : TeWakaLive s) (h : transitionDb cfg config ctx msg exe gp s = .ok (s', gp', res)) :
    KeepsTeWaka s s' res.saves := by
  obtain ⟨s₁, gp₁, gas, hpre, -, -, -, s₂, gasLeft, gp₂, hrefund, hx⟩ := transitionDb_eq_ok.mp h
  obtain ⟨fee, -, hchecked, hs₁⟩ := preCheck_eq_ok.mp hpre
  obtain ⟨rfl, -⟩ := Prod.mk.inj hs₁
  simp only [Prod.mk.injEq] at hx
  obtain ⟨rfl, -, rfl⟩ := hx
  have hsender : msg.sender ≠ teWaKaAddress := hlive.ne_of_eoa hchecked.eoa
  -- the purchase of gas, the top frame, the refund, the tip
  set s₁ := s.subBalance msg.sender (msg.gasLimit.toNat * msg.gasPrice)
  have k₁ : KeepsTeWaka s s₁ [] := keepsTeWaka_subBalance s msg.sender _
  have k₂ := keepsTeWaka_messageFrame cfg msg exe hsender s₁
  have k₃ : KeepsTeWaka (messageFrame cfg msg exe s₁).state s₂ [] := by
    have := keepsTeWaka_refundGas refundQuotientEIP3529 msg exe.refund
      (min exe.gasLeft (msg.gasLimit - gas)) gp₁ (messageFrame cfg msg exe s₁).state
    rwa [hrefund] at this
  exact ((k₁.trans k₂).trans_nil k₃).trans_nil (keepsTeWaka_addBalance s₂ ctx.coinbase _)

end Classzz.Core
