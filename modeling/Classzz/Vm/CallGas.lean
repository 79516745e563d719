import Classzz.Vm.Interpreter

/-!
# Gas across call frames

`evm.Call`, `CallCode`, `DelegateCall`, `StaticCall` and `evm.create` as gas sees
them, over the whole tree of frames of a message. A frame's `Code` is the list of
instructions it executes, as in `Instr`, except that a call or a creation carries
what its callee does: hand the gas back before anything runs, run a precompile,
fail on an address collision, or run its own `Code` in a new frame with a new
memory. `Code.run` is `Run` on that tree, one `Instr.step` per instruction, with
each callee's result computed from the gas the step forwards.

The return data and the rest of the state are not followed: a callee's result is
its gas and its error.

`call_gas_bounded` is the gas discipline of a call at any depth: the caller
forwards at most what `callGas` allows out of what is left after the base cost,
plus the stipend only with a paid value transfer; the callee hands back at most
what it got (`Callee.result_le`, by induction over the tree of frames, with
`Code.run_gas_le` for a whole frame); and the caller ends the instruction with at
most the gas it started it with.
-/

namespace Classzz.Vm

open Params

mutual

/-- The instructions a frame executes, with its callees' frames. -/
inductive Code where
  /-- No instruction is left: the code has run out, which is `STOP`. -/
  | stop
  | plain (constantGas : UInt64) (dynamicGas : Option (Except VmError UInt64))
      (ending : Except VmError (Option Ending)) (k : Code)
  | memory (op : MemoryOp) (stack : Stack) (warm : Bool) (data : Except VmError Bytes) (k : Code)
  | call (op : CallOp) (stack : Stack) (warm empty : Bool) (callee : Callee) (k : Code)
  | create (op : CreateOp) (stack : Stack) (creation : Creation) (k : Code)

/-- What `evm.Call` and its variants do with the callee. -/
inductive Callee where
  /-- The gas comes back before anything runs: `NoRecursion`, `ErrDepth`,
  `ErrInsufficientBalance`, a missing account called without value, an account
  without code. -/
  | handsBack (err : Option VmError)
  /-- `RunPrecompiledContract`: the precompile's `RequiredGas` and the error of its
  `Run` (`RunStaking` for the Te Waka contract). -/
  | precompile (requiredGas : UInt64) (err : Option VmError)
  /-- The interpreter runs the callee's code. -/
  | run (code : Code)

/-- What `evm.create` does with the new contract. -/
inductive Creation where
  /-- `ErrDepth`, `ErrInsufficientBalance` or `NoRecursion`: the gas comes back. -/
  | handsBack (err : Option VmError)
  /-- `ErrContractAddressCollision`: no gas comes back. -/
  | collision
  /-- The interpreter runs the init code. If it succeeds, the code it returns is
  refused (`ErrMaxCodeSizeExceeded`, `ErrInvalidCode`) or costs
  `len(ret) * CreateDataGas` to store. -/
  | run (code : Code) (deposit : Except VmError UInt64)

end

/-- The loop goes on after an instruction unless it ended the frame. -/
def andThen (r : Except (Fault VmError) (Scope × Option Ending))
    (k : Scope → Except (Fault VmError) (Scope × Option Ending)) :
    Except (Fault VmError) (Scope × Option Ending) :=
  match r with
  | .ok (sc, none) => k sc
  | r => r

/-- The end of `evm.Call` and its variants after `Run`: an error other than
`ErrExecutionReverted` takes all the gas. `Run` reports a revert only through
`REVERT`, so an error of a step is never the revert. -/
def callEnd : Except (Fault VmError) (Scope × Option Ending) → Except Panic CallResult
  | .error (.panic p) => .error p
  | .error (.error err) => .ok ⟨[], 0, some err⟩
  | .ok (sc, some .reverts) => .ok ⟨[], sc.gas, some .executionReverted⟩
  | .ok (sc, _) => .ok ⟨[], sc.gas, none⟩

/-- The end of `evm.create` after `Run`: a successful run pays for storing the
code, and an error other than `ErrExecutionReverted` takes all the gas. -/
def createEnd (deposit : Except VmError UInt64) :
    Except (Fault VmError) (Scope × Option Ending) → Except Panic CallResult
  | .error (.panic p) => .error p
  | .error (.error err) => .ok ⟨[], 0, some err⟩
  | .ok (sc, some .reverts) => .ok ⟨[], sc.gas, some .executionReverted⟩
  | .ok (sc, _) =>
      match deposit with
      | .error err => .ok ⟨[], 0, some err⟩
      | .ok createDataGas =>
          match useGas sc.gas createDataGas with
          | some gas => .ok ⟨[], gas, none⟩
          | none => .ok ⟨[], 0, some .codeStoreOutOfGas⟩

mutual

/-- `Run` on a frame's code, from the scope the frame starts in. -/
def Code.run : Code → Scope → Except (Fault VmError) (Scope × Option Ending)
  | .stop, sc => .ok (sc, some .halts)
  | .plain constantGas dynamicGas ending k, sc =>
      andThen ((Instr.plain constantGas dynamicGas ending).step sc) k.run
  | .memory op stack warm data k, sc =>
      andThen ((Instr.memory op stack warm data).step sc) k.run
  | .call op stack warm empty callee k, sc =>
      andThen ((Instr.call op stack warm empty callee.result).step sc) k.run
  | .create op stack creation k, sc =>
      andThen ((Instr.create op stack creation.result).step sc) k.run

/-- What `evm.Call` and its variants hand back for the gas they are given. -/
def Callee.result : Callee → UInt64 → Except Panic CallResult
  | .handsBack err, gas => .ok ⟨[], gas, err⟩
  | .precompile requiredGas err, gas =>
      if gas < requiredGas then .ok ⟨[], 0, some .outOfGas⟩
      else
        .ok ⟨[], if err = none ∨ err = some .executionReverted then gas - requiredGas else 0, err⟩
  | .run code, gas => callEnd (code.run ⟨gas, newMemory⟩)

/-- What `evm.create` hands back for the gas it is given. -/
def Creation.result : Creation → UInt64 → Except Panic CallResult
  | .handsBack err, gas => .ok ⟨[], gas, err⟩
  | .collision, _ => .ok ⟨[], 0, some .contractAddressCollision⟩
  | .run code deposit, gas => createEnd deposit (code.run ⟨gas, newMemory⟩)

end

/-! ### The charges of a call -/

theorem CallOp.forwarded_toNat {op : CallOp} {stack : Stack} {callGasTemp : UInt64}
    (h : op.paysStipend stack = true → callGasTemp.toNat + callStipend.toNat < 2 ^ 64) :
    (op.forwarded stack callGasTemp).toNat =
      callGasTemp.toNat + if op.paysStipend stack then callStipend.toNat else 0 := by
  unfold CallOp.forwarded
  split_ifs with hs
  · rw [UInt64.toNat_add, Nat.mod_eq_of_lt (h hs)]
  · rfl

/-- The four call gas functions are the common body behind the EIP-2929 wrapper,
after value charges of at most `CallNewAccountGas + CallValueTransferGas`, which
include `CallValueTransferGas` whenever `execute` adds the stipend. -/
theorem CallOp.dynamicGas_eq (op : CallOp) (warm empty : Bool) (gas : UInt64) (stack : Stack)
    (mem : Memory) (size : UInt64) :
    ∃ extra : UInt64, extra.toNat ≤ 34000 ∧
      (op.paysStipend stack = true → callValueTransferGas.toNat ≤ extra.toNat) ∧
      op.dynamicGas warm empty gas stack mem size =
        makeCallVariantGasCallEIP2929 (fun g => callVariantGas extra g stack mem size) warm gas := by
  unfold CallOp.paysStipend
  cases op with
  | call =>
      refine ⟨_, ?_, ?_, rfl⟩ <;>
        · generalize (stack.back 2).isZero = z
          cases z <;> cases empty <;> decide
  | callCode =>
      refine ⟨_, ?_, ?_, rfl⟩ <;>
        · generalize (stack.back 2).isZero = z
          cases z <;> decide
  | delegateCall => exact ⟨0, by decide, by simp [CallOp.hasValue], rfl⟩
  | staticCall => exact ⟨0, by decide, by simp [CallOp.hasValue], rfl⟩

/-- A successful call gas function: `callGas` ran on `avail`, the contract's gas
less a cold callee's surcharge, with the value charges and the memory fee as its
base, and the cost is the base and `callGasTemp`, with the surcharge on top for
a cold callee. -/
theorem CallOp.dynamicGas_spec {op : CallOp} {warm empty : Bool} {gas : UInt64} {stack : Stack}
    {mem mem' : Memory} {size cost callGasTemp : UInt64}
    (h : op.dynamicGas warm empty gas stack mem size = .ok (cost, mem', callGasTemp)) :
    ∃ extra fee avail base cost₀ : UInt64,
      extra.toNat ≤ 34000 ∧
      (op.paysStipend stack = true → callValueTransferGas.toNat ≤ extra.toNat) ∧
      memoryGasCost mem size = .ok (fee, mem') ∧ base.toNat = extra.toNat + fee.toNat ∧
      callGas true avail base (stack.back 0) = .ok callGasTemp ∧
      cost₀.toNat = base.toNat + callGasTemp.toNat ∧
      ((avail = gas ∧ cost = cost₀) ∨
        (avail.toNat + coldCost.toNat = gas.toNat ∧ cost = cost₀ + coldCost)) := by
  obtain ⟨extra, hextra, hvalue, hdg⟩ := op.dynamicGas_eq warm empty gas stack mem size
  rw [hdg] at h
  rcases makeCallVariantGasCallEIP2929_eq_ok h with ⟨-, hold⟩ | ⟨-, hcold, cost₀, hold, hcost⟩
  · obtain ⟨fee, base, hfee, hbase, hcg, hc⟩ := callVariantGas_eq_ok hold
    exact ⟨extra, fee, gas, base, cost, hextra, hvalue, hfee, hbase, hcg, hc, .inl ⟨rfl, rfl⟩⟩
  · -- a cold callee: `callGas` saw the gas less the surcharge
    obtain ⟨fee, base, hfee, hbase, hcg, hc⟩ := callVariantGas_eq_ok hold
    refine ⟨extra, fee, gas - coldCost, base, cost₀, hextra, hvalue, hfee, hbase, hcg, hc,
      .inr ⟨?_, hcost⟩⟩
    have hle := UInt64.le_iff_toNat_le.mp hcold
    rw [UInt64.toNat_sub_of_le _ _ hcold]
    omega

/-- The arithmetic of a paid call. With a base far below `2 ^ 64`, paying the
cost means the base was covered by the gas `callGas` started from, so its
unchecked subtraction did not wrap, and the cost covers the base and
`callGasTemp`. For a cold callee the surcharge is added to the cost without a
check; it cannot wrap either, which is where the bound on the base is needed. -/
theorem call_paid {gas avail base cost cost₀ callGasTemp : UInt64}
    (hbase : base.toNat < 2 ^ 57)
    (htemp : callGasTemp ≤ (avail - base) - (avail - base) / 64)
    (hcost₀ : cost₀.toNat = base.toNat + callGasTemp.toNat)
    (havail : (avail = gas ∧ cost = cost₀) ∨
      (avail.toNat + coldCost.toNat = gas.toNat ∧ cost = cost₀ + coldCost))
    (hpaid : cost ≤ gas) :
    avail ≤ gas ∧ base ≤ avail ∧ base.toNat + callGasTemp.toNat ≤ cost.toNat ∧
      cost.toNat + avail.toNat = base.toNat + callGasTemp.toNat + gas.toNat := by
  have h64 : (avail - base) / 64 ≤ avail - base := by
    rw [UInt64.le_iff_toNat_le, UInt64.toNat_div]
    exact Nat.div_le_self _ _
  have hA : (avail - base).toNat = (2 ^ 64 - base.toNat + avail.toNat) % 2 ^ 64 :=
    UInt64.toNat_sub _ _
  have htemp' : callGasTemp.toNat ≤ (avail - base).toNat - (avail - base).toNat / 64 := by
    rw [UInt64.le_iff_toNat_le, UInt64.toNat_sub_of_le _ _ h64, UInt64.toNat_div] at htemp
    exact htemp
  have hpaid' := UInt64.le_iff_toNat_le.mp hpaid
  have hcold : coldCost.toNat = 2500 := rfl
  have hav := UInt64.toNat_lt avail
  have hc₀ := UInt64.toNat_lt cost₀
  rcases havail with ⟨rfl, rfl⟩ | ⟨hgas, rfl⟩
  · -- a warm callee: the cost itself was paid out of the gas
    refine ⟨UInt64.le_refl _, UInt64.le_iff_toNat_le.mpr ?_, by omega, by omega⟩
    omega
  · rw [UInt64.toNat_add, hcold] at hpaid' ⊢
    refine ⟨UInt64.le_iff_toNat_le.mpr (by omega), UInt64.le_iff_toNat_le.mpr ?_, ?_, ?_⟩
    · -- if the base were not covered, `callGas` would have wrapped to nearly `2 ^ 64`,
      -- and the surcharge would have wrapped the cost past a base below `2 ^ 57`
      omega
    · omega
    · omega

/-- One call instruction, for any callee that hands back at most the gas it is
given: `callGas` starts from the gas left after the constant gas and a cold
callee's surcharge, the base cost was covered, the callee gets `callGasTemp`,
at most what is left after the base less one 64th of it, with the stipend on
top only when a value is sent, whose charge is in the base; and the caller ends
with at most the gas it had. The memory is priced, as it is in every scope a
frame reaches (`runLoop_priced`): this bounds the memory fee, and with it the
base. -/
theorem call_step_bounded {op : CallOp} {stack : Stack} {warm empty : Bool}
    {callee : UInt64 → Except Panic CallResult}
    (hcallee : ∀ g r, callee g = .ok r → r.returnGas ≤ g)
    {sc sc' : Scope} {e : Option Ending} (hm : sc.mem.Priced)
    (h : (Instr.call op stack warm empty callee).step sc = .ok (sc', e)) :
    ∃ avail base callGasTemp : UInt64, ∃ sc₁ : Scope, ∃ r : CallResult,
      sc.charge op.constantGas (op.memorySize stack)
          (fun gas mem size => op.dynamicGas warm empty gas stack mem size) =
        .ok (sc₁, callGasTemp) ∧
      callGas true avail base (stack.back 0) = .ok callGasTemp ∧
      avail ≤ sc.gas ∧ base ≤ avail ∧
      sc₁.gas.toNat + base.toNat + callGasTemp.toNat = avail.toNat ∧
      callGasTemp ≤ (avail - base) - (avail - base) / 64 ∧
      (op.forwarded stack callGasTemp).toNat =
        callGasTemp.toNat + (if op.paysStipend stack then callStipend.toNat else 0) ∧
      (op.paysStipend stack = true → callValueTransferGas ≤ base) ∧
      callee (op.forwarded stack callGasTemp) = .ok r ∧
      r.returnGas ≤ op.forwarded stack callGasTemp ∧
      sc'.gas = sc₁.gas + r.returnGas ∧ sc'.gas ≤ sc.gas := by
  simp only [Instr.step, Except.bind_eq_ok, Except.mapError_eq_ok] at h
  obtain ⟨⟨sc₁, callGasTemp⟩, hcharge, sc₂, hexec, h⟩ := h
  simp only [Except.pure_eq_ok, Prod.mk.injEq] at h
  obtain ⟨rfl, -⟩ := h
  dsimp only at hexec
  obtain ⟨gas₁, size, cost, mem, hgas₁, -, hmul, hdyn, hgas₂, -⟩ := Scope.charge_eq_ok hcharge
  obtain ⟨extra, fee, avail, base, cost₀, hextra, hvalue, hfee, hbase, hcg, hcost₀, havail⟩ :=
    CallOp.dynamicGas_spec hdyn
  -- the memory fee on a priced memory, and so the base, is far below `2 ^ 64`
  have hfee_le := hm.fee_le (size_of_safeMul hmul) hfee
  have hmax : memoryFee (maxMemorySize.toNat / 32) < 2 ^ 57 - 34000 := by decide
  have htemp := callGas_le hcg
  obtain ⟨hc₁, rfl⟩ := useGas_eq_some hgas₁
  obtain ⟨hc₂, hsc₁⟩ := useGas_eq_some hgas₂
  obtain ⟨havail_le, hbase_le, hcover, hacct⟩ :=
    call_paid (by omega) htemp hcost₀ havail hc₂
  obtain ⟨r, hr, hgas, -⟩ := callExecute_eq_ok hexec
  -- the stipend comes with a value, whose charge is in the base
  have hstipend : op.paysStipend stack = true → callValueTransferGas ≤ base := fun hs =>
    UInt64.le_iff_toNat_le.mpr (by have := hvalue hs; omega)
  have hs_le : (if op.paysStipend stack then callStipend.toNat else 0) ≤ base.toNat := by
    split_ifs with hs
    · have := UInt64.le_iff_toNat_le.mp (hstipend hs)
      change 2300 ≤ base.toNat
      change 9000 ≤ base.toNat at this
      omega
    · exact Nat.zero_le _
  -- `callGasTemp` is at most what is left after the base
  have htemp' : callGasTemp.toNat ≤ avail.toNat - base.toNat := by
    have hsub := UInt64.toNat_sub_of_le _ _ hbase_le
    have hdiv : ((avail - base) / 64).toNat ≤ (avail - base).toNat := by
      rw [UInt64.toNat_div]
      exact Nat.div_le_self _ _
    rw [UInt64.le_iff_toNat_le, UInt64.toNat_sub_of_le _ _ (UInt64.le_iff_toNat_le.mpr hdiv),
      hsub] at htemp
    omega
  have hfwd := @CallOp.forwarded_toNat op stack callGasTemp
    (fun hs => by
      have hv := UInt64.le_iff_toNat_le.mp (hstipend hs)
      have hav := UInt64.toNat_lt avail
      change callGasTemp.toNat + 2300 < 2 ^ 64
      change 9000 ≤ base.toNat at hv
      have := UInt64.le_iff_toNat_le.mp hbase_le
      omega)
  have hret := hcallee _ r hr
  have hg₁ : (sc.gas - op.constantGas).toNat = sc.gas.toNat - op.constantGas.toNat :=
    UInt64.toNat_sub_of_le _ _ hc₁
  have hg₂ : sc₁.gas.toNat = (sc.gas - op.constantGas).toNat - cost.toNat := by
    rw [hsc₁, UInt64.toNat_sub_of_le _ _ hc₂]
  -- the scope the call starts from has paid the base and `callGasTemp` out of `avail`
  have hpaid : sc₁.gas.toNat + base.toNat + callGasTemp.toNat = avail.toNat := by
    have hc₂' := UInt64.le_iff_toNat_le.mp hc₂
    omega
  refine ⟨avail, base, callGasTemp, sc₁, r, hcharge, hcg,
    UInt64.le_trans havail_le (UInt64.sub_le hc₁), hbase_le, hpaid, htemp, hfwd, hstipend, hr,
    hret, hgas, ?_⟩
  -- what comes back is at most what was forwarded, which the charge covered but
  -- for the stipend, which the base covered
  have hret' : r.returnGas.toNat ≤
      callGasTemp.toNat + (if op.paysStipend stack then callStipend.toNat else 0) :=
    hfwd ▸ UInt64.le_iff_toNat_le.mp hret
  have hc₁' := UInt64.le_iff_toNat_le.mp hc₁
  have hc₂' := UInt64.le_iff_toNat_le.mp hc₂
  have hgas₀ := UInt64.toNat_lt sc.gas
  rw [hgas, UInt64.le_iff_toNat_le, UInt64.toNat_add, Nat.mod_eq_of_lt (by omega)]
  omega

/-! ### No frame mints gas -/

/-- The callee of a call or a creation hands back at most the gas it is given. -/
def Instr.CalleeBounded : Instr → Prop
  | .call _ _ _ _ callee | .create _ _ callee => ∀ g r, callee g = .ok r → r.returnGas ≤ g
  | .plain .. | .memory .. => True

/-- A creation keeps one 64th of the gas and gets back at most the rest. -/
theorem createExecute_gas_le {callee : UInt64 → Except Panic CallResult}
    (hcallee : ∀ g r, callee g = .ok r → r.returnGas ≤ g) {sc sc' : Scope}
    (h : createExecute callee sc = .ok sc') : sc'.gas ≤ sc.gas := by
  obtain ⟨r, hr, rfl⟩ := createExecute_eq_ok h
  have hret := UInt64.le_iff_toNat_le.mp (hcallee _ r hr)
  have hdiv : (sc.gas / 64).toNat ≤ sc.gas.toNat := by
    rw [UInt64.toNat_div]
    exact Nat.div_le_self _ _
  have hsub : (sc.gas - sc.gas / 64).toNat = sc.gas.toNat - (sc.gas / 64).toNat :=
    UInt64.toNat_sub_of_le _ _ (UInt64.le_iff_toNat_le.mpr hdiv)
  have hkeep : (sc.gas - (sc.gas - sc.gas / 64)).toNat = sc.gas.toNat - (sc.gas - sc.gas / 64).toNat :=
    UInt64.toNat_sub_of_le _ _ (UInt64.sub_le (UInt64.le_iff_toNat_le.mpr hdiv))
  have hlt := UInt64.toNat_lt sc.gas
  show sc.gas - (sc.gas - sc.gas / 64) + r.returnGas ≤ sc.gas
  rw [UInt64.le_iff_toNat_le, UInt64.toNat_add, hkeep, Nat.mod_eq_of_lt (by omega)]
  omega

/-- An executed instruction takes gas, or hands some back from a callee that got
more. -/
theorem Instr.step_gas_le {i : Instr} (hi : i.CalleeBounded) {sc sc' : Scope}
    {e : Option Ending} (hm : sc.mem.Priced) (h : i.step sc = .ok (sc', e)) :
    sc'.gas ≤ sc.gas := by
  cases i with
  | plain constantGas dynamicGas ending =>
      simp only [Instr.step, Except.bind_eq_ok, Except.mapError_eq_ok] at h
      obtain ⟨⟨sc₁, ⟨⟩⟩, hcharge, h⟩ := h
      have hsc : sc' = sc₁ := by
        cases ending with
        | error err => cases h
        | ok e' =>
            simp only [Except.pure_eq_ok, Prod.mk.injEq] at h
            exact h.1.symm
      rw [hsc]
      exact Scope.charge_gas_le hcharge
  | memory op stack warm data =>
      simp only [Instr.step, Except.bind_eq_ok, Except.mapError_eq_ok] at h
      obtain ⟨⟨sc₁, ⟨⟩⟩, hcharge, ⟨mem, e'⟩, -, h⟩ := h
      simp only [Except.pure_eq_ok, Prod.mk.injEq] at h
      rw [← h.1]
      show sc₁.gas ≤ sc.gas
      exact Scope.charge_gas_le hcharge
  | call op stack warm empty callee =>
      obtain ⟨-, -, -, -, -, -, -, -, -, -, -, -, -, -, -, -, hle⟩ := call_step_bounded hi hm h
      exact hle
  | create op stack callee =>
      simp only [Instr.step, Except.bind_eq_ok, Except.mapError_eq_ok] at h
      obtain ⟨⟨sc₁, ⟨⟩⟩, hcharge, sc₂, hexec, h⟩ := h
      simp only [Except.pure_eq_ok, Prod.mk.injEq] at h
      rw [← h.1]
      exact UInt64.le_trans (createExecute_gas_le hi hexec) (Scope.charge_gas_le hcharge)

theorem andThen_eq_ok {r : Except (Fault VmError) (Scope × Option Ending)}
    {k : Scope → Except (Fault VmError) (Scope × Option Ending)} {sc' : Scope}
    {e : Option Ending} (h : andThen r k = .ok (sc', e)) :
    ∃ sc₁ e₁, r = .ok (sc₁, e₁) ∧ ((e₁ ≠ none ∧ sc' = sc₁) ∨ (e₁ = none ∧ k sc₁ = .ok (sc', e))) := by
  unfold andThen at h
  split at h
  · rename_i sc₁
    exact ⟨sc₁, none, rfl, .inr ⟨rfl, h⟩⟩
  · rename_i r' hnot
    subst h
    refine ⟨sc', e, rfl, .inl ⟨fun he => hnot sc' (he ▸ rfl), rfl⟩⟩

/-- The step lemma of a frame: an instruction that takes gas, followed by a rest
of the code that takes gas from every priced scope, takes gas. -/
theorem andThen_gas_le {i : Instr} {kont : Scope → Except (Fault VmError) (Scope × Option Ending)}
    {sc sc' : Scope} {e : Option Ending} (h : andThen (i.step sc) kont = .ok (sc', e))
    (hi : i.CalleeBounded) (hm : sc.mem.Priced)
    (hk : ∀ {sc₁ sc₂ : Scope} {e₂ : Option Ending}, sc₁.mem.Priced →
      kont sc₁ = .ok (sc₂, e₂) → sc₂.gas ≤ sc₁.gas) : sc'.gas ≤ sc.gas := by
  obtain ⟨sc₁, e₁, hstep, ⟨-, rfl⟩ | ⟨-, hrest⟩⟩ := andThen_eq_ok h
  · exact Instr.step_gas_le hi hm hstep
  · exact UInt64.le_trans (hk (Instr.step_priced hm hstep).1 hrest) (Instr.step_gas_le hi hm hstep)

theorem callEnd_le {res : Except (Fault VmError) (Scope × Option Ending)} {gas : UInt64}
    {r : CallResult} (hrun : ∀ sc e, res = .ok (sc, e) → sc.gas ≤ gas)
    (h : callEnd res = .ok r) : r.returnGas ≤ gas := by
  unfold callEnd at h
  split at h
  · cases h
  · cases h
    exact UInt64.zero_le
  all_goals
    simp only [Except.ok.injEq] at h
    subst h
    exact hrun _ _ rfl

theorem createEnd_le {deposit : Except VmError UInt64}
    {res : Except (Fault VmError) (Scope × Option Ending)} {gas : UInt64} {r : CallResult}
    (hrun : ∀ sc e, res = .ok (sc, e) → sc.gas ≤ gas) (h : createEnd deposit res = .ok r) :
    r.returnGas ≤ gas := by
  unfold createEnd at h
  split at h
  · cases h
  · cases h
    exact UInt64.zero_le
  · simp only [Except.ok.injEq] at h
    subst h
    exact hrun _ _ rfl
  · rename_i sc e' _
    -- storing the code only takes gas
    split at h
    · cases h
      exact UInt64.zero_le
    · split at h
      · rename_i g hg
        simp only [Except.ok.injEq] at h
        subst h
        obtain ⟨hc, rfl⟩ := useGas_eq_some hg
        exact UInt64.le_trans (UInt64.sub_le hc) (hrun _ _ rfl)
      · cases h
        exact UInt64.zero_le

mutual

/-- No frame mints gas: a run of a frame's code ends with at most the gas it
started with. The induction is on the tree of frames: a call's callee is a
smaller tree. -/
theorem Code.run_gas_le : ∀ (code : Code) {sc sc' : Scope} {e : Option Ending},
    sc.mem.Priced → code.run sc = .ok (sc', e) → sc'.gas ≤ sc.gas
  | .stop, sc, sc', e, _, h => by
      simp only [Code.run, Except.ok.injEq, Prod.mk.injEq] at h
      rw [← h.1]
      exact UInt64.le_refl _
  | .plain _ _ _ k, _, _, _, hm, h =>
      andThen_gas_le h trivial hm fun hm' hk => Code.run_gas_le k hm' hk
  | .memory _ _ _ _ k, _, _, _, hm, h =>
      andThen_gas_le h trivial hm fun hm' hk => Code.run_gas_le k hm' hk
  | .call _ _ _ _ callee k, _, _, _, hm, h =>
      andThen_gas_le h (fun _ _ hr => Callee.result_le callee hr) hm
        fun hm' hk => Code.run_gas_le k hm' hk
  | .create _ _ creation k, _, _, _, hm, h =>
      andThen_gas_le h (fun _ _ hr => Creation.result_le creation hr) hm
        fun hm' hk => Code.run_gas_le k hm' hk

/-- A callee hands back at most the gas it is given. -/
theorem Callee.result_le : ∀ (callee : Callee) {gas : UInt64} {r : CallResult},
    callee.result gas = .ok r → r.returnGas ≤ gas
  | .handsBack _, _, _, h => by
      simp only [Callee.result, Except.ok.injEq] at h
      rw [← h]
      exact UInt64.le_refl _
  | .precompile requiredGas err, gas, r, h => by
      simp only [Callee.result] at h
      split_ifs at h with hlt hok
      · cases h
        exact UInt64.zero_le
      · cases h
        exact UInt64.sub_le (UInt64.not_lt.mp hlt)
      · cases h
        exact UInt64.zero_le
  | .run code, _, _, h =>
      callEnd_le (fun _ _ hrun => Code.run_gas_le code newMemory_priced hrun) h

/-- A creation hands back at most the gas it is given. -/
theorem Creation.result_le : ∀ (creation : Creation) {gas : UInt64} {r : CallResult},
    creation.result gas = .ok r → r.returnGas ≤ gas
  | .handsBack _, _, _, h => by
      simp only [Creation.result, Except.ok.injEq] at h
      rw [← h]
      exact UInt64.le_refl _
  | .collision, _, _, h => by
      simp only [Creation.result, Except.ok.injEq] at h
      rw [← h]
      exact UInt64.zero_le
  | .run code _, _, _, h =>
      createEnd_le (fun _ _ hrun => Code.run_gas_le code newMemory_priced hrun) h

end

/-! ### Calls made by the interpreter -/

/-- No gas is minted across a call: for a call the interpreter reaches in a frame,
into a callee of any kind (a precompile, or code that makes calls of its own), the
charge of the step computes `callGasTemp` with `callGas` and pays it with the base cost
out of the gas `callGas` started from; the gas forwarded is `callGasTemp`, at most what
is left after the base less one 64th of it, with the stipend only on top of a paid
value-transfer charge; the callee hands back at most what it was given, which is all
the caller gets back; and the caller ends the instruction with at most the gas it
started it with. -/
theorem call_gas_bounded (before : List Instr) (gas : UInt64) (op : CallOp) (stack : Stack)
    (warm empty : Bool) (callee : Callee) {sc sc' : Scope} {e : Option Ending}
    (hrun : runLoop Instr.step before ⟨gas, newMemory⟩ = .ok (sc, none))
    (h : (Instr.call op stack warm empty callee.result).step sc = .ok (sc', e)) :
    ∃ avail base callGasTemp : UInt64, ∃ sc₁ : Scope, ∃ r : CallResult,
      sc.charge op.constantGas (op.memorySize stack)
          (fun gas mem size => op.dynamicGas warm empty gas stack mem size) =
        .ok (sc₁, callGasTemp) ∧
      callGas true avail base (stack.back 0) = .ok callGasTemp ∧
      avail ≤ sc.gas ∧ base ≤ avail ∧
      sc₁.gas.toNat + base.toNat + callGasTemp.toNat = avail.toNat ∧
      callGasTemp ≤ (avail - base) - (avail - base) / 64 ∧
      (op.forwarded stack callGasTemp).toNat =
        callGasTemp.toNat + (if op.paysStipend stack then callStipend.toNat else 0) ∧
      (op.paysStipend stack = true → callValueTransferGas ≤ base) ∧
      callee.result (op.forwarded stack callGasTemp) = .ok r ∧
      r.returnGas ≤ op.forwarded stack callGasTemp ∧
      sc'.gas = sc₁.gas + r.returnGas ∧ sc'.gas ≤ sc.gas :=
  -- every scope the loop reaches from a fresh frame has its memory priced
  call_step_bounded (fun _ _ hr => Callee.result_le callee hr)
    (runLoop_priced before newMemory_priced hrun).1 h

/-- A call of 1000 gas that transfers no value, into a callee that hands all of it
back, from a fresh frame with 10000 gas. -/
theorem call_gas_bounded_handsBack :
    let callee : Callee := .handsBack none
    let stack : Stack := [1000, 1, 0, 0, 0, 0, 0]
    let sc : Scope := ⟨10000, newMemory⟩
    let sc' : Scope := ⟨9900, newMemory⟩
    runLoop Instr.step [] ⟨10000, newMemory⟩ = .ok (sc, none) ∧
      (Instr.call .call stack true false callee.result).step sc = .ok (sc', none) ∧
      ∃ avail base callGasTemp : UInt64, ∃ sc₁ : Scope, ∃ r : CallResult,
        sc.charge CallOp.call.constantGas (CallOp.call.memorySize stack)
            (fun gas mem size => CallOp.call.dynamicGas true false gas stack mem size) =
          .ok (sc₁, callGasTemp) ∧
        callGas true avail base (stack.back 0) = .ok callGasTemp ∧
        avail ≤ sc.gas ∧ base ≤ avail ∧
        sc₁.gas.toNat + base.toNat + callGasTemp.toNat = avail.toNat ∧
        callGasTemp ≤ (avail - base) - (avail - base) / 64 ∧
        (CallOp.call.forwarded stack callGasTemp).toNat =
          callGasTemp.toNat + (if CallOp.call.paysStipend stack then callStipend.toNat else 0) ∧
        (CallOp.call.paysStipend stack = true → callValueTransferGas ≤ base) ∧
        callee.result (CallOp.call.forwarded stack callGasTemp) = .ok r ∧
        r.returnGas ≤ CallOp.call.forwarded stack callGasTemp ∧
        sc'.gas = sc₁.gas + r.returnGas ∧ sc'.gas ≤ sc.gas :=
  have hrun : runLoop Instr.step [] ⟨10000, newMemory⟩ = .ok (⟨10000, newMemory⟩, none) := rfl
  have h : (Instr.call .call [1000, 1, 0, 0, 0, 0, 0] true false
      (Callee.handsBack none).result).step ⟨10000, newMemory⟩ =
        .ok (⟨9900, newMemory⟩, none) := by
    rfl
  ⟨hrun, h, call_gas_bounded [] 10000 .call _ true false _ hrun h⟩

end Classzz.Vm
