import Classzz.Vm.TeWaka.CrossMap
import Classzz.Vm.TeWaka.Spec

/-!
# The Te Waka precompile

`RunStaking` finds the method of `AbiTeWaKa` that the input's selector names
and runs it on the decoded arguments. From `CIP_4` on, `convert`, `confirm`
and `casting` are closed. Every error becomes `ErrExecutionReverted`, after
which `evm.Call` reverts the state to its snapshot; a panic is not
recovered anywhere on the call path, and stops the node.

The ledger section shows that a call that succeeds moves value and never
creates or destroys it: the total of all balances is kept, and a
non-negative ledger stays non-negative.
-/

namespace Classzz.Vm

open Ledger

/-- An input of the precompile, as `MethodById` and `UnpackAtomic` read it:
a method with its decoded arguments, the raw data of a cross-chain map,
arguments that do not decode, or a selector of no method. -/
inductive StakingCall where
  | mortgage (args : MortgageArgs)
  | update (args : UpdateArgs)
  | convert (args : ConvertArgs)
  | confirm (args : ConfirmArgs)
  | casting (args : CastingArgs)
  | crossToMainChainMap (data : Bytes)
  | betweenSideChainCrossMap (data : Bytes)
  /-- A method whose arguments `UnpackAtomic` rejects. -/
  | invalidInput
  /-- A selector `MethodById` does not find. -/
  | noMethod
  deriving DecidableEq, Repr

/-- `RunStaking` before its errors are replaced: the method the call names,
behind the `CIP_4` switch where the source puts one. -/
def stakingMethod (env : Env) (ctx : CallContext) (call : StakingCall) (s : StateDB)
    (db : RecordStore) : Except (Fault TeWakaError) StateDB :=
  let isCip4 := !env.chainConfig.IsCIP4 ctx.blockNumber
  match call with
  | .mortgage args => mortgage env ctx args s
  | .update args => update ctx args s
  | .convert args => if isCip4 then convert env args s db else throw (.error .cip4Closed)
  | .confirm args =>
      if isCip4 then confirm env ctx args s db else throw (.error .cip4Closed)
  | .casting args => if isCip4 then casting env ctx args s else throw (.error .cip4Closed)
  | .crossToMainChainMap data => crossToMainChainMap env ctx data s
  | .betweenSideChainCrossMap data => betweenSideChainCrossMap env ctx data s
  | .invalidInput => throw (.error .stakingInvalidInput)
  | .noMethod => throw (.error .executionReverted)

/-- Every error a method returns is `ErrExecutionReverted` to the caller. -/
def revertOnError {α : Type} : Except (Fault TeWakaError) α → Except (Fault TeWakaError) α
  | .error (.error _) => .error (.error .executionReverted)
  | r => r

/-- `RunStaking`. -/
def runStaking (env : Env) (ctx : CallContext) (call : StakingCall) (s : StateDB)
    (db : RecordStore) : Except (Fault TeWakaError) StateDB :=
  revertOnError (stakingMethod env ctx call s db)

theorem revertOnError_eq_ok {α : Type} {r : Except (Fault TeWakaError) α} {a : α} :
    revertOnError r = .ok a ↔ r = .ok a := by
  unfold revertOnError
  split <;> simp_all

theorem revertOnError_eq_panic {α : Type} {r : Except (Fault TeWakaError) α} {p : Panic} :
    revertOnError r = .error (.panic p) ↔ r = .error (.panic p) := by
  unfold revertOnError
  split <;> simp_all

/-- A successful call ran a method of `te_waka.go`: the cross-chain maps and
the inputs without a method never succeed. -/
theorem stakingMethod_eq_ok {env : Env} {ctx : CallContext} {call : StakingCall}
    {s s' : StateDB} {db : RecordStore} (h : stakingMethod env ctx call s db = .ok s') :
    (∃ args, call = .mortgage args ∧ mortgage env ctx args s = .ok s') ∨
      (∃ args, call = .update args ∧ update ctx args s = .ok s') ∨
      (∃ args, call = .convert args ∧ convert env args s db = .ok s') ∨
      (∃ args, call = .confirm args ∧ confirm env ctx args s db = .ok s') ∨
      (∃ args, call = .casting args ∧ casting env ctx args s = .ok s') := by
  cases call with
  | mortgage args => exact .inl ⟨args, rfl, h⟩
  | update args => exact .inr (.inl ⟨args, rfl, h⟩)
  | convert args =>
      simp only [stakingMethod] at h
      split_ifs at h
      exact .inr (.inr (.inl ⟨args, rfl, h⟩))
  | confirm args =>
      simp only [stakingMethod] at h
      split_ifs at h
      exact .inr (.inr (.inr (.inl ⟨args, rfl, h⟩)))
  | casting args =>
      simp only [stakingMethod] at h
      split_ifs at h
      exact .inr (.inr (.inr (.inr ⟨args, rfl, h⟩)))
  | crossToMainChainMap data =>
      simp only [stakingMethod, crossToMainChainMap_eq_crossMapFault, crossMapFault] at h
      split_ifs at h
  | betweenSideChainCrossMap data =>
      simp only [stakingMethod, betweenSideChainCrossMap_eq_crossMapFault,
        crossMapFault] at h
      split_ifs at h
  | invalidInput => cases h
  | noMethod => cases h

section Ledger

/-- The total and the sign of the balances, which `Save` leaves alone. -/
theorem conserves_save {s : StateDB} (twi : TeWakaImpl) {bal : Address → ℤ}
    (h : Conserves bal s.balance) : Conserves bal (s.save twi).balance := h

/-- The payout of a conversion or a casting, when the source covers the
amount and the fee is at most the amount. -/
theorem conserves_payOut {s : StateDB} {src : Address} (dest : Address) {amount fee : ℤ}
    (hcover : amount ≤ s.balance src) (hfee0 : 0 ≤ fee) (hfee : fee ≤ amount) :
    Conserves s.balance (payOut s src dest amount fee).balance :=
  conserves_debit_split dest address0 hcover hfee0 hfee

/-- The stake move of `mortgage` and `update`, when the caller covers it. -/
theorem conserves_stake {s : StateDB} {fromAddr : Address} (toAddr : Address) {x : ℕ}
    (hcover : (x : ℤ) ≤ s.balance fromAddr) :
    Conserves s.balance ((s.subBalance fromAddr x).addBalance toAddr x).balance :=
  conserves_transfer toAddr (Int.natCast_nonneg x) hcover

theorem mortgage_conserves {env : Env} {ctx : CallContext} {args : MortgageArgs}
    {s s' : StateDB} (h : mortgage env ctx args s = .ok s') :
    Conserves s.balance s'.balance := by
  obtain ⟨tewaka, -, -, -, -, -, -, -, hcover, rfl⟩ := mortgage_eq_ok h
  exact conserves_stake args.toAddress hcover

theorem update_conserves {ctx : CallContext} {args : UpdateArgs} {s s' : StateDB}
    (h : update ctx args s = .ok s') : Conserves s.balance s'.balance := by
  obtain ⟨tewaka, item, s₁, -, -, hstake, hsave⟩ := update_eq_ok h
  -- the top-up first, then possibly a `Save`
  have h₁ : Conserves s.balance s₁.balance := by
    rcases updateStake_eq_ok hstake with ⟨-, rfl⟩ | ⟨-, hcover, rfl⟩
    · exact Conserves.refl _
    · exact conserves_stake item.toAddress hcover
  rcases hsave with rfl | ⟨tewaka', -, rfl⟩
  · exact h₁
  · exact conserves_save tewaka' h₁

/-- The fee of a conversion, a thousandth of the amount, is at most the
amount. -/
theorem convert_fee_le (amount : ℕ) :
    (0 : ℤ) ≤ ((amount * int10 / 1000 : ℕ) : ℤ) ∧
      ((amount * int10 / 1000 : ℕ) : ℤ) ≤ ((amount * int10 : ℕ) : ℤ) := by
  refine ⟨Int.natCast_nonneg _, ?_⟩
  exact_mod_cast Nat.div_le_self _ _

theorem convert_conserves {env : Env} {args : ConvertArgs} {s s' : StateDB}
    {db : RecordStore} (h : convert env args s db = .ok s') :
    Conserves s.balance s'.balance := by
  obtain ⟨tewaka, item, -, -, hverify, hpay⟩ := convert_eq_ok h
  obtain ⟨hasset, -, hcover, -⟩ := verifyConvertEthereumTypeTx_eq_ok hverify
  obtain ⟨dest, twi, -, rfl⟩ := convertPayout_eq_ok hpay
  -- the pool the verifier checked is the pool the payout debits
  rw [← hasset] at hcover
  obtain ⟨hfee0, hfee⟩ := convert_fee_le item.amount
  exact conserves_save _ (conserves_payOut dest hcover hfee0 hfee)

theorem confirm_conserves {env : Env} {ctx : CallContext} {args : ConfirmArgs}
    {s s' : StateDB} {db : RecordStore} (h : confirm env ctx args s db = .ok s') :
    Conserves s.balance s'.balance := by
  obtain ⟨tewaka, item, -, -, -, rfl⟩ := confirm_eq_ok h
  exact conserves_save _ (Conserves.refl _)

theorem casting_conserves {env : Env} {ctx : CallContext} {args : CastingArgs}
    {s s' : StateDB} (h : casting env ctx args s = .ok s') :
    Conserves s.balance s'.balance := by
  obtain ⟨tewaka, -, hcover, rfl⟩ := casting_eq_ok h
  have hfee : ((args.amount / int1000 : ℕ) : ℤ) ≤ (args.amount : ℤ) := by
    exact_mod_cast Nat.div_le_self _ _
  exact conserves_save _ (conserves_payOut _ hcover (Int.natCast_nonneg _) hfee)

/-- Every successful call of the precompile conserves the ledger. -/
theorem runStaking_conserves {env : Env} {ctx : CallContext} {call : StakingCall}
    {s s' : StateDB} {db : RecordStore} (h : runStaking env ctx call s db = .ok s') :
    Conserves s.balance s'.balance := by
  rcases stakingMethod_eq_ok (revertOnError_eq_ok.mp h) with
    ⟨args, -, hm⟩ | ⟨args, -, hm⟩ | ⟨args, -, hm⟩ | ⟨args, -, hm⟩ | ⟨args, -, hm⟩
  · exact mortgage_conserves hm
  · exact update_conserves hm
  · exact convert_conserves hm
  · exact confirm_conserves hm
  · exact casting_conserves hm

/-- An environment in which every lookup succeeds: every hash has a
successful receipt with one burn event of one unit to the ETH pool type and a
transaction signed with `V = 0`, and every key decodes. No side-chain client
is configured and no switch is set. -/
def sampleEnv : Env where
  chainConfig :=
    { chainID := 61, chainIDNew := 61, ewasmBlock := none, noRewardBlock := none,
      cip1 := none, cip2 := none, cip3 := none,
      cip4 := none, cip5 := none, verifySwitch := false, sideClients := fun _ => [] }
  receiptMap := fun _ => some ⟨1, [⟨[burnTopics], []⟩]⟩
  transactionMap := fun _ => some ⟨0, 61, none, 0, 1, 1⟩
  unpackBurnToken := fun _ => some
    { fromAddr := 0, amountIn := 1, amountOut := 1, convertType := 1, toPath := [],
      toRouterAddr := 0, slippage := 0, isInsurance := false, extra := [] }
  unpackMintToken := fun _ => none
  decompressPubkey := some
  unmarshalPubkey := some
  pubkeyToAddress := fun _ => 0
  signerHash := fun _ => 0
  ecrecover := fun _ _ => some [4]
  convertItemHash := fun _ => 0
  unpackAtomBurnLog := fun _ => none
  unpackValues := fun _ _ => .error "abi: unpack"
  packV3 := fun _ _ => .error "abi: pack"
  evmCall := fun _ _ _ _ _ => .error "execution reverted"

/-- The caller of the sample calls. -/
def sampleCaller : Address := 0x1111

/-- A state with an empty registry, in which the sample caller holds the
minimum stake and the fee sink holds `10 ^ 11`. -/
def sampleState : StateDB where
  balance := fun a =>
    if a = sampleCaller then (mimStakingAmount : ℤ) else if a = address0 then 10 ^ 11 else 0
  nonce := fun _ => 0
  teWaka := some TeWakaImpl.empty

theorem sampleState_nonneg : Nonneg sampleState.balance := by
  intro a
  simp only [sampleState]
  split_ifs <;> positivity

/-- A successful call keeps the sum of all balances, and a ledger without
negative balances stays without. -/
theorem runStaking_preserves_ledger {env : Env} {ctx : CallContext} {call : StakingCall}
    {s s' : StateDB} {db : RecordStore} (hnonneg : Nonneg s.balance)
    (h : runStaking env ctx call s db = .ok s') :
    total s'.balance = total s.balance ∧ Nonneg s'.balance := by
  have hcons := runStaking_conserves h
  exact ⟨hcons.1, hcons.2 hnonneg⟩

/-- The sample state after the sample caller pledged the minimum stake to
the destination `300`. -/
def sampleMortgaged : StateDB :=
  ((sampleState.save (TeWakaImpl.empty.mortgage sampleCaller 300 [2] mimStakingAmount
    [])).subBalance sampleCaller mimStakingAmount).addBalance 300 mimStakingAmount

theorem runStaking_preserves_ledger_mortgage :
    Nonneg sampleState.balance ∧
      runStaking sampleEnv ⟨sampleCaller, 1⟩ (.mortgage ⟨[2], 300, mimStakingAmount, []⟩)
        sampleState [] = .ok sampleMortgaged ∧
      (total sampleMortgaged.balance = total sampleState.balance ∧
        Nonneg sampleMortgaged.balance) := by
  have hrun : runStaking sampleEnv ⟨sampleCaller, 1⟩
      (.mortgage ⟨[2], 300, mimStakingAmount, []⟩) sampleState [] = .ok sampleMortgaged := by
    rfl
  exact ⟨sampleState_nonneg, hrun, runStaking_preserves_ledger sampleState_nonneg hrun⟩

end Ledger

end Classzz.Vm
