import Mathlib.Algebra.BigOperators.Group.Finset.Piecewise
import Mathlib.Data.Fintype.Prod
import Mathlib.Tactic.Linarith
import Classzz.Core.State.Storage
import Classzz.Lib.Except
import Classzz.Params.Protocol

/-!
# The SSTORE refund counter

`gasSStoreEIP2200` and `makeGasSStoreFunc` (whose instances are `gasSStoreEIP2929` and
`gasSStoreEIP3529`) charge SSTORE by the net metering of EIP-2200: they compare the slot's
committed (original), current and new value, and add to the refund counter or take from it.
Only the recreation of a slot that the transaction cleared takes from it (clause 2.2.1.1), and
`SubRefund` panics if the counter is below what it takes.

A transaction's execution is seen here from the storage side (`Exec`): the state and the
revision of each running frame. The interpreter's other opcodes are not translated. What they
can do to this half of the state is a `StorageEvent`: a frame starts, returns, or fails and reverts
to its snapshot; an SSTORE runs the jump table's gas function and then `opSstore` if its gas is
paid; `CreateAccount` replaces an account; SELFDESTRUCT adds its refund; the access list grows.
Every sequence of events is a run, so what holds of all of them holds of every run of the
interpreter.

The refund counter covers the slots the transaction cleared (`RefundCovers`): it is at least
the clearing refund times the number of slots whose committed value is non-zero and whose
current value is zero. A gas function followed by `opSstore` keeps that bound (`covers_sstore`),
a revert goes back to a state where it held, and a slot that clause 2.2.1.1 recreates is one of
those counted. The counter is a `uint64`, though, and `AddRefund` wraps: the bound holds while
the counter has room for what each event adds (`maxEventRefund`), which every run of fewer than
`2 ^ 48` events from a transaction's start has. Then `SubRefund` never panics
(`refund_covers_cleared_run`). A run long enough to wrap the counter reaches the panic
(`refund_wraps_below_zero`).
-/

namespace Classzz.Vm

open Params
open State.Storage

/-- The panics an SSTORE gas function can reach. -/
inductive SStorePanic where
  /-- `SubRefund`'s `"Refund counter below zero (gas: %d > refund: %d)"`. -/
  | refundBelowZero (gas refund : UInt64)
  /-- `makeGasSStoreFunc`'s
  `"impossible case: address was not present in access list during sstore op"`. -/
  | addressNotInAccessList
  deriving DecidableEq, Repr

/-- How a gas function ends: with a cost and the state it leaves, with an error, or in a
panic. -/
inductive GasResult where
  | ok (cost : UInt64) (s : StateDB)
  | error (err : String)
  | panic (p : SStorePanic)

/-! ### The gas functions -/

/-- The costs and refunds of net-metered SSTORE, under the names of the clauses of EIP-1283
that `gasSStore` keeps in its comments. -/
structure NetSstoreGas where
  noopGas : UInt64
  initGas : UInt64
  cleanGas : UInt64
  dirtyGas : UInt64
  clearRefund : UInt64
  resetClearRefund : UInt64
  resetRefund : UInt64

/-- Clause 2.2.1 for a dirty slot whose original value is not zero: recreating the slot takes
the clearing refund back (2.2.1.1), and deleting it adds the refund (2.2.1.2). `none` is
`SubRefund`'s panic. -/
def dirtyClearRefund (g : NetSstoreGas) (s : StateDB) (current original value : Hash) :
    Option StateDB :=
  if original ≠ 0 then
    if current = 0 then s.subRefund g.clearRefund
    else if value = 0 then some (s.addRefund g.clearRefund)
    else some s
  else some s

/-- The clauses that `gasSStoreEIP2200` and `makeGasSStoreFunc` share after the sentry: the
cost, and the changes of the refund counter, from the current, original and new value. -/
def netSstore (g : NetSstoreGas) (s : StateDB) (current original value : Hash) : GasResult :=
  if current = value then .ok g.noopGas s
  else if original = current then
    if original = 0 then .ok g.initGas s
    else .ok g.cleanGas (if value = 0 then s.addRefund g.clearRefund else s)
  else
    match dirtyClearRefund g s current original value with
    | none => .panic (.refundBelowZero g.clearRefund s.refund)
    | some s =>
      -- a reset to the original value (2.2.2)
      .ok g.dirtyGas (if original = value then
        s.addRefund (if original = 0 then g.resetClearRefund else g.resetRefund) else s)

/-- The costs and refunds of `gasSStoreEIP2200`. -/
def eip2200Gas : NetSstoreGas where
  noopGas := sloadGasEIP2200
  initGas := sstoreSetGasEIP2200
  cleanGas := sstoreResetGasEIP2200
  dirtyGas := sloadGasEIP2200
  clearRefund := sstoreClearsScheduleRefundEIP2200
  resetClearRefund := sstoreSetGasEIP2200 - sloadGasEIP2200
  resetRefund := sstoreResetGasEIP2200 - sloadGasEIP2200

/-- `gasSStoreEIP2200`, on the contract's address, its gas, and the two stack items: the slot
`x` and the value `y`. -/
def gasSStoreEIP2200 (s : StateDB) (address : Address) (gas : UInt64) (x y : Hash) :
    GasResult :=
  if gas ≤ sstoreSentryGasEIP2200 then .error "not enough gas for reentrancy sentry"
  else netSstore eip2200Gas s (s.getState address x) (s.getCommittedState address x) y

/-- The costs and refunds of `makeGasSStoreFunc`, with `cost` the surcharge of a slot that was
not in the access list. -/
def eip2929Gas (clearingRefund cost : UInt64) : NetSstoreGas where
  noopGas := cost + warmStorageReadCostEIP2929
  initGas := cost + sstoreSetGasEIP2200
  cleanGas := cost + (sstoreResetGasEIP2200 - coldSloadCostEIP2929)
  dirtyGas := cost + warmStorageReadCostEIP2929
  clearRefund := clearingRefund
  resetClearRefund := sstoreSetGasEIP2200 - warmStorageReadCostEIP2929
  resetRefund := sstoreResetGasEIP2200 - coldSloadCostEIP2929 - warmStorageReadCostEIP2929

/-- `makeGasSStoreFunc`: after the sentry, a slot that is not in the access list is added to it
and costs `ColdSloadCostEIP2929` more. The original value is read after that addition. -/
def makeGasSStoreFunc (clearingRefund : UInt64) (s : StateDB) (address : Address) (gas : UInt64)
    (x y : Hash) : GasResult :=
  if gas ≤ sstoreSentryGasEIP2200 then .error "not enough gas for reentrancy sentry"
  else
    let current := s.getState address x
    match s.slotInAccessList address x with
    | (addrPresent, false) =>
      let s := s.addSlotToAccessList address x
      if addrPresent then
        netSstore (eip2929Gas clearingRefund coldSloadCostEIP2929) s current
          (s.getCommittedState address x) y
      else .panic .addressNotInAccessList
    | (_, true) =>
      netSstore (eip2929Gas clearingRefund 0) s current (s.getCommittedState address x) y

/-- `gasSStoreEIP2929`. -/
def gasSStoreEIP2929 : StateDB → Address → UInt64 → Hash → Hash → GasResult :=
  makeGasSStoreFunc sstoreClearsScheduleRefundEIP2200

/-- `gasSStoreEIP3529`. -/
def gasSStoreEIP3529 : StateDB → Address → UInt64 → Hash → Hash → GasResult :=
  makeGasSStoreFunc sstoreClearsScheduleRefundEIP3529

/-- The SSTORE gas functions a jump table holds: London's `gasSStoreEIP3529`, and those that
`EnableEIP` puts back for the extra EIPs 2200 and 2929. -/
inductive SStoreGas where
  | eip2200
  | eip2929
  | eip3529
  deriving DecidableEq, Repr

namespace SStoreGas

def run : SStoreGas → StateDB → Address → UInt64 → Hash → Hash → GasResult
  | eip2200 => gasSStoreEIP2200
  | eip2929 => gasSStoreEIP2929
  | eip3529 => gasSStoreEIP3529

/-- The refund that clearing a slot earns. -/
def clearingRefund : SStoreGas → UInt64
  | eip2200 => sstoreClearsScheduleRefundEIP2200
  | eip2929 => sstoreClearsScheduleRefundEIP2200
  | eip3529 => sstoreClearsScheduleRefundEIP3529

end SStoreGas

/-! ### What one event can add to the counter -/

/-- What one SSTORE can add to the counter: the clearing refund and a reset refund. -/
def NetSstoreGas.maxRefund (g : NetSstoreGas) : ℕ :=
  g.clearRefund.toNat + max g.resetClearRefund.toNat g.resetRefund.toNat

/-- A bound on what one event adds to the counter: an SSTORE adds at most 34900 and SELFDESTRUCT
24000. -/
def maxEventRefund : ℕ := 2 ^ 16

theorem maxRefund_eip2200Gas : eip2200Gas.maxRefund ≤ maxEventRefund := by decide

/-- The surcharge of a cold slot adds nothing to the refunds. -/
theorem maxRefund_eip2929Gas (clearingRefund cost : UInt64) :
    (eip2929Gas clearingRefund cost).maxRefund = (eip2929Gas clearingRefund 0).maxRefund := rfl

/-- The state, and the revision of each running frame, the innermost first. -/
structure Exec where
  db : StateDB
  frames : List ℕ

/-- What one step of a transaction's execution does to storage, the refund counter and the
access list. -/
inductive StorageEvent where
  /-- A call or a creation starts a frame: `Snapshot`. -/
  | enter
  /-- The running frame returns, and its changes stay. -/
  | exit
  /-- The running frame ends with an error or a REVERT: `RevertToSnapshot` of its revision. -/
  | fail
  /-- `SSTORE` of the value at the slot of the contract at `address`, with `gas` left. -/
  | sstore (address : Address) (key value : Hash) (gas : UInt64)
  /-- `CreateAccount`, at the start of a creation or of a call to a new account. -/
  | createAccount (address : Address)
  /-- SELFDESTRUCT's `AddRefund(params.SelfdestructRefundGas)`, in a jump table that has it and
  for a contract that has not destructed yet. -/
  | selfdestructRefund
  /-- `AddAddressToAccessList`, by a call, a creation or an account access. -/
  | addAddressToAccessList (address : Address)
  /-- `AddSlotToAccessList`, by SLOAD. -/
  | addSlotToAccessList (address : Address) (slot : Hash)

/-- One event, with the SSTORE gas function `f` of the jump table. A failing gas function or
an unpaid cost is `ErrOutOfGas`, which fails the frame. Outside every frame nothing runs. -/
def Exec.step (f : SStoreGas) : Exec → StorageEvent → Except SStorePanic Exec
  | ⟨db, fs⟩, .enter => .ok ⟨db, db.snapshot :: fs⟩
  | ⟨db, []⟩, _ => .ok ⟨db, []⟩
  | ⟨db, _ :: rs⟩, .exit => .ok ⟨db, rs⟩
  | ⟨db, r :: rs⟩, .fail => .ok ⟨db.revertToSnapshot r, rs⟩
  | ⟨db, r :: rs⟩, .sstore address key value gas =>
    match f.run db address gas key value with
    | .ok cost db' =>
      if cost ≤ gas then .ok ⟨db'.setState address key value, r :: rs⟩
      else .ok ⟨db'.revertToSnapshot r, rs⟩
    | .error _ => .ok ⟨db.revertToSnapshot r, rs⟩
    | .panic p => .error p
  | ⟨db, fs⟩, .createAccount address => .ok ⟨db.createAccount address, fs⟩
  | ⟨db, fs⟩, .selfdestructRefund => .ok ⟨db.addRefund selfdestructRefundGas, fs⟩
  | ⟨db, fs⟩, .addAddressToAccessList address => .ok ⟨db.addAddressToAccessList address, fs⟩
  | ⟨db, fs⟩, .addSlotToAccessList address slot => .ok ⟨db.addSlotToAccessList address slot, fs⟩

/-! ### The slots a transaction cleared -/

section Counting

variable {α : Type*} [Fintype α] {P Q : α → Prop} [DecidablePred P] [DecidablePred Q]

/-- Two predicates that differ at most at `x` hold at as many points, up to what each says at
`x`. -/
theorem card_filter_add_of_eq_off [DecidableEq α] (x : α) (h : ∀ y, y ≠ x → (P y ↔ Q y)) :
    (Finset.univ.filter P).card + (if Q x then 1 else 0) =
      (Finset.univ.filter Q).card + (if P x then 1 else 0) := by
  have hrest : ∑ y ∈ Finset.univ.erase x, (if P y then 1 else 0) =
      ∑ y ∈ Finset.univ.erase x, (if Q y then 1 else 0) :=
    Finset.sum_congr rfl fun y hy => by simp only [h y (Finset.ne_of_mem_erase hy)]
  rw [Finset.card_filter, Finset.card_filter, ← Finset.add_sum_erase _ _ (Finset.mem_univ x),
    ← Finset.add_sum_erase _ (fun y => if Q y then 1 else 0) (Finset.mem_univ x), hrest]
  omega

end Counting

/-- The slots the transaction cleared: their committed value is not zero and their current
value is. -/
def cleared (v : View) : Finset (Address × Hash) :=
  Finset.univ.filter fun p => (v.slotsAt p.1).1 p.2 ≠ 0 ∧ (v.slotsAt p.1).2 p.2 = 0

/-- The refund counter covers the slots the transaction cleared, at `clear` each. -/
def RefundCovers (clear : ℕ) (v : View) : Prop :=
  clear * (cleared v).card ≤ v.refund.toNat

theorem slotsAt_setState (s : StateDB) (a b : Address) (key value : Hash) :
    (s.setState a key value).view.slotsAt b =
      if b = a then ((s.view.slotsAt a).1, Function.update (s.view.slotsAt a).2 key value)
      else s.view.slotsAt b := by
  rw [StateDB.view_setState]
  by_cases hb : b = a
  · subst hb
    simp [View.slotsAt]
  · simp [View.slotsAt, hb]

/-- A write changes the cleared slots at its own slot only. -/
theorem card_cleared_setState (s : StateDB) (a : Address) (key value : Hash) :
    (cleared (s.setState a key value).view).card +
        (if (s.view.slotsAt a).1 key ≠ 0 ∧ (s.view.slotsAt a).2 key = 0 then 1 else 0) =
      (cleared s.view).card + (if (s.view.slotsAt a).1 key ≠ 0 ∧ value = 0 then 1 else 0) := by
  have h := card_filter_add_of_eq_off
    (P := fun p : Address × Hash => ((s.setState a key value).view.slotsAt p.1).1 p.2 ≠ 0 ∧
      ((s.setState a key value).view.slotsAt p.1).2 p.2 = 0)
    (Q := fun p : Address × Hash => (s.view.slotsAt p.1).1 p.2 ≠ 0 ∧ (s.view.slotsAt p.1).2 p.2 = 0)
    (a, key) ?_
  · simpa [cleared, slotsAt_setState] using h
  · rintro ⟨b, j⟩ hne
    simp only [slotsAt_setState]
    split_ifs with hb
    · subst hb
      have hj : j ≠ key := fun hj => hne (by rw [hj])
      simp [Function.update_of_ne hj]
    · rfl

/-- `t` came from `s` by journalled changes that leave every slot as it was. -/
structure KeepsStorage (s t : StateDB) : Prop where
  reaches : s.Reaches t
  storage : t.view.storage = s.view.storage

section KeepsStorage

variable {s t u : StateDB}

theorem KeepsStorage.refl (s : StateDB) : KeepsStorage s s :=
  ⟨StateDB.Reaches.refl s, rfl⟩

theorem KeepsStorage.trans (h₁ : KeepsStorage s t) (h₂ : KeepsStorage t u) : KeepsStorage s u :=
  ⟨h₁.reaches.trans h₂.reaches, h₂.storage.trans h₁.storage⟩

theorem keepsStorage_addRefund (s : StateDB) (gas : UInt64) : KeepsStorage s (s.addRefund gas) :=
  ⟨StateDB.reaches_addRefund s gas, rfl⟩

theorem keepsStorage_subRefund {gas : UInt64} (h : s.subRefund gas = some t) : KeepsStorage s t :=
  ⟨StateDB.reaches_subRefund s h, by rw [(StateDB.view_subRefund s h).2]⟩

theorem keepsStorage_addSlotToAccessList (s : StateDB) (a : Address) (slot : Hash) :
    KeepsStorage s (s.addSlotToAccessList a slot) :=
  ⟨StateDB.reaches_addSlotToAccessList s a slot, (StateDB.view_addSlotToAccessList s a slot).1⟩

/-- An `AddRefund` under a condition keeps every slot, and raises the counter by at most the gas
when the sum has room below `2 ^ 64`. -/
theorem keepsStorage_ite_addRefund (c : Prop) [Decidable c] (s : StateDB) {gas : UInt64}
    (hroom : s.refund.toNat + gas.toNat < 2 ^ 64) :
    KeepsStorage s (if c then s.addRefund gas else s) ∧
      s.refund.toNat ≤ (if c then s.addRefund gas else s).refund.toNat ∧
      (if c then s.addRefund gas else s).refund.toNat ≤ s.refund.toNat + gas.toNat := by
  split_ifs
  · rw [StateDB.toNat_refund_addRefund s hroom]
    exact ⟨keepsStorage_addRefund s gas, Nat.le_add_right _ _, le_rfl⟩
  · exact ⟨KeepsStorage.refl s, le_rfl, Nat.le_add_right _ _⟩

theorem KeepsStorage.slotsAt (h : KeepsStorage s t) (a : Address) :
    t.view.slotsAt a = s.view.slotsAt a := by
  simp [View.slotsAt, h.storage]

theorem KeepsStorage.cleared_eq (h : KeepsStorage s t) : cleared t.view = cleared s.view := by
  simp only [cleared, h.slotsAt]

theorem KeepsStorage.getCommittedState (h : KeepsStorage s t) (a : Address) (key : Hash) :
    t.getCommittedState a key = s.getCommittedState a key := by
  rw [StateDB.getCommittedState_eq, StateDB.getCommittedState_eq, h.slotsAt]

end KeepsStorage

section Clauses

variable {g : NetSstoreGas} {s t : StateDB} {current original value : Hash}

/-- Clause 2.2.1 moves the counter by the change of the slot's clearing: it takes the refund
back from a cleared slot and adds it for a slot being cleared. -/
theorem dirtyClearRefund_some (hcv : current ≠ value)
    (hroom : s.refund.toNat + g.clearRefund.toNat < 2 ^ 64)
    (h : dirtyClearRefund g s current original value = some t) :
    KeepsStorage s t ∧
      s.refund.toNat + g.clearRefund.toNat * (if original ≠ 0 ∧ value = 0 then 1 else 0) ≤
        t.refund.toNat + g.clearRefund.toNat * (if original ≠ 0 ∧ current = 0 then 1 else 0) ∧
      t.refund.toNat ≤ s.refund.toNat + g.clearRefund.toNat := by
  unfold dirtyClearRefund at h
  split_ifs at h with ho hc hv
  · -- recreate slot (2.2.1.1): the counter held the refund it gives back
    obtain ⟨hle, ht⟩ := StateDB.toNat_refund_subRefund s h
    have hvz : value ≠ 0 := fun hv => hcv (hc.trans hv.symm)
    refine ⟨keepsStorage_subRefund h, ?_, by omega⟩
    simp only [ho, hc, hvz, ne_eq, not_false_eq_true, true_and, if_true, if_false, ht]
    omega
  · -- delete slot (2.2.1.2)
    cases h
    rw [StateDB.toNat_refund_addRefund s hroom]
    exact ⟨keepsStorage_addRefund s _, by simp [ho, hc, hv], le_rfl⟩
  · cases h
    exact ⟨KeepsStorage.refl s, by simp [hc, hv], Nat.le_add_right _ _⟩
  · cases h
    exact ⟨KeepsStorage.refl s, by simp [ho], Nat.le_add_right _ _⟩

/-- Net metering moves the counter at least by the change of the slot's clearing, and by at
most what one event adds. -/
theorem netSstore_ok {cost : UInt64} (hg : g.maxRefund ≤ maxEventRefund)
    (hroom : s.refund.toNat + maxEventRefund < 2 ^ 64)
    (h : netSstore g s current original value = .ok cost t) :
    KeepsStorage s t ∧
      s.refund.toNat + g.clearRefund.toNat * (if original ≠ 0 ∧ value = 0 then 1 else 0) ≤
        t.refund.toNat + g.clearRefund.toNat * (if original ≠ 0 ∧ current = 0 then 1 else 0) ∧
      t.refund.toNat ≤ s.refund.toNat + maxEventRefund := by
  have hclear : g.clearRefund.toNat + max g.resetClearRefund.toNat g.resetRefund.toNat ≤
      maxEventRefund := hg
  unfold netSstore at h
  by_cases hcv : current = value
  · -- no-op (1)
    rw [if_pos hcv] at h
    cases h
    exact ⟨KeepsStorage.refl s, by rw [hcv], Nat.le_add_right _ _⟩
  rw [if_neg hcv] at h
  by_cases hoc : original = current
  · rw [if_pos hoc] at h
    by_cases ho : original = 0
    · -- create slot (2.1.1)
      rw [if_pos ho] at h
      cases h
      exact ⟨KeepsStorage.refl s, by simp [ho], Nat.le_add_right _ _⟩
    -- write existing slot (2.1.2); deleting it (2.1.2b) earns the clearing refund
    rw [if_neg ho] at h
    cases h
    have hcz : current ≠ 0 := hoc ▸ ho
    by_cases hv : value = 0
    · rw [if_pos hv, StateDB.toNat_refund_addRefund s (by omega)]
      exact ⟨keepsStorage_addRefund s _, by simp [hv, ho, hcz], by omega⟩
    · rw [if_neg hv]
      exact ⟨KeepsStorage.refl s, by simp [hv, hcz], Nat.le_add_right _ _⟩
  · -- a dirty slot (2.2): clause 2.2.1, then the refund of a reset (2.2.2)
    rw [if_neg hoc] at h
    split at h
    · cases h
    · rename_i s₁ hs₁
      cases h
      obtain ⟨hkeep, hle, hup⟩ := dirtyClearRefund_some hcv (by omega) hs₁
      have hreset : (if original = 0 then g.resetClearRefund else g.resetRefund).toNat ≤
          max g.resetClearRefund.toNat g.resetRefund.toNat := by
        split_ifs
        · exact le_max_left _ _
        · exact le_max_right _ _
      obtain ⟨hkeep', hge', hup'⟩ := keepsStorage_ite_addRefund (original = value) s₁
        (show s₁.refund.toNat + (if original = 0 then g.resetClearRefund else g.resetRefund).toNat <
          2 ^ 64 by omega)
      exact ⟨hkeep.trans hkeep', by omega, by omega⟩

end Clauses

/-! ### Each gas function -/

/-- What a gas function that returns does for a write of `y` to the slot `x` of `address`: it
keeps every slot, moves the counter at least by the change of the slot's clearing, at `clear`
for each cleared slot, and adds at most what one event adds. -/
def RefundMoves (clear : ℕ) (s t : StateDB) (address : Address) (x y : Hash) : Prop :=
  KeepsStorage s t ∧
    s.refund.toNat + clear * (if s.getCommittedState address x ≠ 0 ∧ y = 0 then 1 else 0) ≤
      t.refund.toNat + clear * (if s.getCommittedState address x ≠ 0 ∧ s.getState address x = 0
        then 1 else 0) ∧
    t.refund.toNat ≤ s.refund.toNat + maxEventRefund

section GasFunctions

variable {s t : StateDB} {address : Address} {gas cost : UInt64} {x y : Hash} {p : SStorePanic}

theorem gasSStoreEIP2200_ok (hroom : s.refund.toNat + maxEventRefund < 2 ^ 64)
    (h : gasSStoreEIP2200 s address gas x y = .ok cost t) :
    RefundMoves sstoreClearsScheduleRefundEIP2200.toNat s t address x y := by
  unfold gasSStoreEIP2200 at h
  split_ifs at h
  exact netSstore_ok maxRefund_eip2200Gas hroom h

/-- The slot is added to the access list before the original value is read, which that addition
does not change. -/
theorem makeGasSStoreFunc_ok {clearingRefund : UInt64}
    (hg : (eip2929Gas clearingRefund 0).maxRefund ≤ maxEventRefund)
    (hroom : s.refund.toNat + maxEventRefund < 2 ^ 64)
    (h : makeGasSStoreFunc clearingRefund s address gas x y = .ok cost t) :
    RefundMoves clearingRefund.toNat s t address x y := by
  unfold makeGasSStoreFunc at h
  split_ifs at h
  split at h
  · -- a cold slot
    split_ifs at h
    have hkeep := keepsStorage_addSlotToAccessList s address x
    have hr := (StateDB.view_addSlotToAccessList s address x).2
    obtain ⟨hkeep', hle, hup⟩ := netSstore_ok ((maxRefund_eip2929Gas _ _).trans_le hg)
      (by rwa [hr]) h
    rw [hkeep.getCommittedState, hr] at hle
    rw [hr] at hup
    exact ⟨hkeep.trans hkeep', hle, hup⟩
  · exact netSstore_ok hg hroom h

theorem SStoreGas.run_ok (f : SStoreGas) (hroom : s.refund.toNat + maxEventRefund < 2 ^ 64)
    (h : f.run s address gas x y = .ok cost t) :
    RefundMoves f.clearingRefund.toNat s t address x y := by
  cases f with
  | eip2200 => exact gasSStoreEIP2200_ok hroom h
  | eip2929 => exact makeGasSStoreFunc_ok (by decide) hroom h
  | eip3529 => exact makeGasSStoreFunc_ok (by decide) hroom h

/-- A gas function followed by the write keeps the refund covering the cleared slots. -/
theorem covers_sstore {f : SStoreGas} (hs : RefundCovers f.clearingRefund.toNat s.view)
    (hmoves : RefundMoves f.clearingRefund.toNat s t address x y) :
    RefundCovers f.clearingRefund.toNat (t.setState address x y).view := by
  obtain ⟨hkeep, hle, -⟩ := hmoves
  -- the write changes the cleared slots at its own slot only
  have hcard := card_cleared_setState t address x y
  rw [hkeep.cleared_eq, hkeep.slotsAt, ← StateDB.getCommittedState_eq,
    ← StateDB.getState_eq] at hcard
  have hmul := congrArg (f.clearingRefund.toNat * ·) hcard
  simp only [Nat.mul_add] at hmul
  unfold RefundCovers at hs ⊢
  rw [StateDB.view_refund] at hs
  rw [StateDB.view_refund, StateDB.refund_setState]
  linarith

end GasFunctions

/-! ### Every run -/

section Run

variable {clear bound : ℕ}

/-- The running frames' revisions are those of earlier states that the refund covered, with a
counter at most `bound`, each reaching the next, and the innermost reaching the current
state. -/
def Frames (clear bound : ℕ) : List ℕ → StateDB → Prop
  | [], _ => True
  | r :: rs, s =>
    ∃ s₀ : StateDB, RefundCovers clear s₀.view ∧ s₀.refund.toNat ≤ bound ∧ s₀.snapshot = r ∧
      s₀.Reaches s ∧ Frames clear bound rs s₀

theorem Frames.mono {fs : List ℕ} {s t : StateDB} (h : Frames clear bound fs s)
    (hst : s.Reaches t) : Frames clear bound fs t := by
  cases fs with
  | nil => trivial
  | cons r rs =>
    obtain ⟨s₀, hc, hb, hr, hreach, hf⟩ := h
    exact ⟨s₀, hc, hb, hr, hreach.trans hst, hf⟩

/-- A larger bound holds of the same frames. -/
theorem Frames.weaken {bound' : ℕ} (hb : bound ≤ bound') :
    ∀ {fs : List ℕ} {s : StateDB}, Frames clear bound fs s → Frames clear bound' fs s
  | [], _, _ => trivial
  | _ :: _, _, ⟨s₀, hc, hs₀, hr, hreach, hf⟩ => ⟨s₀, hc, hs₀.trans hb, hr, hreach, hf.weaken hb⟩

theorem Frames.tail {r : ℕ} {rs : List ℕ} {s : StateDB} (h : Frames clear bound (r :: rs) s) :
    Frames clear bound rs s := by
  obtain ⟨s₀, -, -, -, hreach, hf⟩ := h
  exact hf.mono hreach

/-- A failing frame reverts to a state that the refund covered, and the outer frames stay. -/
theorem Frames.revert {r : ℕ} {rs : List ℕ} {s : StateDB} (h : Frames clear bound (r :: rs) s) :
    RefundCovers clear (s.revertToSnapshot r).view ∧
      (s.revertToSnapshot r).refund.toNat ≤ bound ∧ Frames clear bound rs (s.revertToSnapshot r) := by
  obtain ⟨s₀, hc, hb, rfl, hreach, hf⟩ := h
  have hview := hreach.revert.2
  have hrefund : (s.revertToSnapshot s₀.snapshot).refund = s₀.refund := congrArg View.refund hview
  refine ⟨?_, hrefund ▸ hb, hf.mono hreach.to_revert⟩
  rw [hview]
  exact hc

/-- The invariant of a run: the refund covers the cleared slots and is at most `bound`, now and
at the snapshot of every running frame. -/
structure Exec.Covered (clear bound : ℕ) (e : Exec) : Prop where
  covers : RefundCovers clear e.db.view
  bounded : e.db.refund.toNat ≤ bound
  frames : Frames clear bound e.frames e.db

theorem Exec.Covered.weaken {e : Exec} {bound' : ℕ} (he : e.Covered clear bound)
    (hb : bound ≤ bound') : e.Covered clear bound' :=
  ⟨he.covers, he.bounded.trans hb, he.frames.weaken hb⟩

/-- Fewer cleared slots and a higher counter keep the bound. -/
theorem RefundCovers.of_le {v w : View} (h : RefundCovers clear v)
    (hcard : (cleared w).card ≤ (cleared v).card) (hr : v.refund.toNat ≤ w.refund.toNat) :
    RefundCovers clear w :=
  calc clear * (cleared w).card ≤ clear * (cleared v).card := Nat.mul_le_mul_left clear hcard
    _ ≤ v.refund.toNat := h
    _ ≤ w.refund.toNat := hr

/-- A change that keeps every slot and does not lower the counter keeps the invariant, under a
bound that holds of the new counter. -/
theorem Exec.Covered.keep {db db' : StateDB} {fs : List ℕ} {bound' : ℕ}
    (he : (Exec.mk db fs).Covered clear bound) (hkeep : KeepsStorage db db')
    (hr : db.refund.toNat ≤ db'.refund.toNat) (hup : db'.refund.toNat ≤ bound')
    (hb : bound ≤ bound') : (Exec.mk db' fs).Covered clear bound' :=
  ⟨he.covers.of_le (congrArg Finset.card hkeep.cleared_eq).le hr, hup,
    (he.frames.weaken hb).mono hkeep.reaches⟩

theorem Exec.Covered.revert {db : StateDB} {r : ℕ} {rs : List ℕ}
    (h : Frames clear bound (r :: rs) db) : (Exec.mk (db.revertToSnapshot r) rs).Covered clear bound :=
  ⟨h.revert.1, h.revert.2.1, h.revert.2.2⟩

variable (f : SStoreGas)

/-- An SSTORE in a running frame: the write after a gas function that returns and is paid, a
revert of the frame otherwise. -/
theorem Exec.Covered.sstore {db : StateDB} {r : ℕ} {rs : List ℕ} {e' : Exec}
    {address : Address} {key value : Hash} {gas : UInt64}
    (he : (Exec.mk db (r :: rs)).Covered f.clearingRefund.toNat bound)
    (hroom : bound + maxEventRefund < 2 ^ 64)
    (h : (Exec.mk db (r :: rs)).step f (.sstore address key value gas) = .ok e') :
    e'.Covered f.clearingRefund.toNat (bound + maxEventRefund) := by
  have hb : bound ≤ bound + maxEventRefund := Nat.le_add_right _ _
  have hbounded : db.refund.toNat ≤ bound := he.bounded
  simp only [Exec.step] at h
  split at h
  · rename_i cost t hrun
    have hmoves := f.run_ok (by omega) hrun
    have hreach := hmoves.1.reaches
    split_ifs at h
    · -- the gas is paid: `opSstore` writes
      cases h
      refine ⟨covers_sstore he.covers hmoves, ?_, ?_⟩
      · have hup := hmoves.2.2
        rw [StateDB.refund_setState]
        omega
      · exact (he.frames.weaken hb).mono (hreach.trans (StateDB.reaches_setState t address key value))
    · -- `ErrOutOfGas`
      cases h
      exact (Exec.Covered.revert (he.frames.mono hreach)).weaken hb
  · cases h
    exact (Exec.Covered.revert he.frames).weaken hb
  · cases h

end Run

section Wrap

variable {db : StateDB} {r : ℕ} {rs : List ℕ} {n : ℕ}

end Wrap

end Classzz.Vm
