import Classzz.Core.State.Journal
import Classzz.Vm.TeWaka.Basic

/-!
# Call frames of the EVM

`evm.go` runs a message as a tree of frames: `Call`, `CallCode`,
`DelegateCall`, `StaticCall` and `create` each check the depth and the
balance, take a snapshot, run a precompile or the interpreter on the callee's
code, and revert to the snapshot when the frame returns an error.

The interpreter's opcodes are not translated. The EVM is deterministic, so
once a transaction and the state are fixed, each frame does one fixed thing;
a `Program` lists what one run of a frame's code does to the state that is
modelled here: its calls and creations, `SELFDESTRUCT`, and how it ends. A
call in a program carries what its callee does in turn (its code, or what
`RunStaking` does if the callee is the Te Waka precompile), and the EVM
decides from the callee's address and code which of them runs, as
`evm.Call` does. Everything proved below holds for every program, so for
every run of the interpreter.

`RunStaking` is the Te Waka precompile. What it does to the state is a
`StakingProgram`: balance moves and saves of the registry with
`TeWakaImpl.Save`, which writes one slot of the Te Waka storage of
`TeWaKaAddress`. The other precompiles write nothing.

A frame's result records the saves of it and of its sub-frames that were
not reverted: this record is not kept by the code, it is what the frame
theorem below counts.
-/

namespace Classzz.Evm

open State
open Vm (teWaKaAddress)

/-- `params.CallCreateDepth`. -/
def callCreateDepth : ℕ := 1024

/-- The slot `TeWakaImpl.Save` writes and `Load` reads:
`common.BytesToHash(TeWaKaAddress[:])`. -/
def teWakaKey : Hash := bytesToHash teWaKaAddress.bytes

/-- What one run of `RunStaking` does to the state, in order: `SubBalance`,
`AddBalance` (a `Transfer` is the two), `TeWakaImpl.Save` of the encoded
registry, and a return with or without an error. -/
inductive StakingProgram where
  | ok
  | fail
  | subBalance (a : Address) (x : ℤ) (k : StakingProgram)
  | addBalance (a : Address) (x : ℤ) (k : StakingProgram)
  | save (data : Bytes) (k : StakingProgram)
  deriving DecidableEq, Repr

/-- The calls and creations the interpreter makes: `CALL`, `CALLCODE`,
`DELEGATECALL`, `STATICCALL`, `CREATE` and `CREATE2`. -/
inductive Call where
  | call (addr : Address) (value : ℕ)
  | callCode (addr : Address) (value : ℕ)
  | delegateCall (addr : Address)
  | staticCall (addr : Address)
  | create (value : ℕ) (initCode : Bytes)
  | create2 (value : ℕ) (salt : Hash) (initCode : Bytes)
  deriving DecidableEq, Repr

/-- The calls a read-only frame refuses with `ErrWriteProtection`: the
operations marked `writes`, and a `CALL` with a value. -/
def Call.writes : Call → Bool
  | .call _ value => value != 0
  | .create .. | .create2 .. => true
  | _ => false

/-- What one run of a frame's code does. `ret` is `STOP` or `RETURN`, with
the hash of the bytes returned (the code a creation deploys); `fail` is
`REVERT` and every error of the interpreter. A call carries what its callee
does: `code` if the callee runs code (the init code of a creation),
`staking` if it is the Te Waka precompile, `succeeds` whether another
precompile returns without an error. -/
inductive Program where
  | ret (code : Hash)
  | fail
  | selfdestruct (beneficiary : Address)
  | call (c : Call) (code : Program) (staking : StakingProgram) (succeeds : Bool) (k : Program)
  deriving DecidableEq, Repr

/-- What a frame leaves: the state, whether it returned without an error,
the hash of the bytes it returned, and the Te Waka saves of it and of its
sub-frames that were not reverted, in order. -/
structure Frame where
  state : StateDB
  ok : Bool
  ret : Hash
  saves : List Bytes

/-- A frame that returns an error before it changes anything. -/
def failed (s : StateDB) : Frame :=
  ⟨s, false, 0, []⟩

/-- The addresses behind which the EVM, not code, runs. -/
inductive Precompiled where
  /-- One of `ecrecover`, ..., `blake2F` at addresses 1 to 9, which write
  nothing. -/
  | pure
  /-- `tewaka`, which runs `RunStaking`. -/
  | tewaka
  deriving DecidableEq, Repr

/-- `evm.precompile`, a lookup in `PrecompiledContracts`. -/
def precompile (addr : Address) : Option Precompiled :=
  if addr = teWaKaAddress then some .tewaka
  else if 1 ≤ addr.val ∧ addr.val ≤ 9 then some .pure
  else none

/-- Whether `GetCode` finds code behind a code hash: not behind the hash of
no code, nor behind the zero hash of a missing account. -/
def hasCode (h : Hash) : Prop :=
  h ≠ emptyCodeHash ∧ h ≠ 0

instance (h : Hash) : Decidable (hasCode h) := inferInstanceAs (Decidable (_ ∧ _))

/-- `CanTransfer`. -/
def canTransfer (s : StateDB) (addr : Address) (amount : ℕ) : Prop :=
  (amount : ℤ) ≤ s.getBalance addr

instance (s : StateDB) (addr : Address) (amount : ℕ) : Decidable (canTransfer s addr amount) :=
  inferInstanceAs (Decidable (_ ≤ _))

/-- The end of every call function: a frame that returned an error is
reverted to the snapshot, and its saves are gone with it. -/
def revertUnless (snapshot : ℕ) (r : Frame) : Frame :=
  if r.ok then r else { r with state := r.state.revertToSnapshot snapshot, saves := [] }

/-- `RunStaking`, run on the state. -/
def StakingProgram.run : StakingProgram → StateDB → Frame
  | .ok, s => ⟨s, true, 0, []⟩
  | .fail, s => failed s
  | .subBalance a x k, s => k.run (s.subBalance a x)
  | .addBalance a x k, s => k.run (s.addBalance a x)
  | .save data k, s =>
      let r := k.run (s.setTeWakaState teWaKaAddress teWakaKey data)
      { r with saves := data :: r.saves }

/-- `RunPrecompiledContract`. -/
def runPrecompiledContract (staking : StakingProgram) (succeeds : Bool) :
    Precompiled → StateDB → Frame
  | .tewaka, s => staking.run s
  | .pure, s => ⟨s, succeeds, 0, []⟩

section Calls

/-! The call functions of `evm.go`. `runCode readOnly ctx` runs the callee's
code with `ctx` as the frame's address, one level deeper. -/

variable (runCode : Bool → Address → StateDB → Frame)

/-- `interpreter.Run` on the code at `codeAddr`: nothing runs where there is
no code. -/
def runCodeAt (readOnly : Bool) (codeAddr ctx : Address) (s : StateDB) : Frame :=
  if hasCode (s.getCodeHash codeAddr) then runCode readOnly ctx s else ⟨s, true, 0, []⟩

variable (staking : StakingProgram) (succeeds : Bool) (d : ℕ)

/-- `EVM.Call`. A call of a missing account that is no precompile, with no
value, does nothing and succeeds. -/
def call (readOnly : Bool) (caller addr : Address) (value : ℕ) (s : StateDB) : Frame :=
  if d > callCreateDepth then failed s
  else if value ≠ 0 ∧ ¬canTransfer s caller value then failed s
  else if !s.exist addr && (precompile addr).isNone && value == 0 then ⟨s, true, 0, []⟩
  else
    let snapshot := s.snapshot
    let s₁ := if s.exist addr then s else s.createAccount addr
    let s₂ := s₁.transfer caller addr value
    revertUnless snapshot <|
      match precompile addr with
      | some p => runPrecompiledContract staking succeeds p s₂
      | none => runCodeAt runCode readOnly addr addr s₂

/-- `EVM.CallCode`: the code at `addr` runs as the caller, which pays the
value to itself. -/
def callCode (readOnly : Bool) (caller addr : Address) (value : ℕ) (s : StateDB) : Frame :=
  if d > callCreateDepth then failed s
  else if ¬canTransfer s caller value then failed s
  else
    revertUnless s.snapshot <|
      match precompile addr with
      | some p => runPrecompiledContract staking succeeds p s
      | none => runCodeAt runCode readOnly addr caller s

/-- `EVM.DelegateCall`: the code at `addr` runs as the caller. -/
def delegateCall (readOnly : Bool) (caller addr : Address) (s : StateDB) : Frame :=
  if d > callCreateDepth then failed s
  else
    revertUnless s.snapshot <|
      match precompile addr with
      | some p => runPrecompiledContract staking succeeds p s
      | none => runCodeAt runCode readOnly addr caller s

/-- `EVM.StaticCall`: it touches `addr` by adding nothing to its balance, and
the code runs read-only. A precompile runs as in any call. -/
def staticCall (addr : Address) (s : StateDB) : Frame :=
  if d > callCreateDepth then failed s
  else
    let snapshot := s.snapshot
    let s₁ := s.addBalance addr 0
    revertUnless snapshot <|
      match precompile addr with
      | some p => runPrecompiledContract staking succeeds p s₁
      | none => runCodeAt runCode true addr addr s₁

/-- `EVM.create`. The caller's nonce goes up before the collision check, and
stays up when the check fails. The code the init code returns is deployed;
the checks on it (size, the `0xEF` prefix, the gas to store it) are errors of
the init code's run. -/
def create (readOnly : Bool) (caller address : Address) (value : ℕ) (initCode : Bytes)
    (s : StateDB) : Frame :=
  if d > callCreateDepth then failed s
  else if ¬canTransfer s caller value then failed s
  else
    let s₁ := s.setNonce caller (s.getNonce caller + 1)
    let contractHash := s₁.getCodeHash address
    if s₁.getNonce address ≠ 0 ∨ (contractHash ≠ 0 ∧ contractHash ≠ emptyCodeHash) then
      failed s₁
    else
      let snapshot := s₁.snapshot
      let s₂ := ((s₁.createAccount address).setNonce address 1).transfer caller address value
      let r := if initCode.isEmpty then ⟨s₂, true, emptyCodeHash, []⟩
        else runCode readOnly address s₂
      revertUnless snapshot <|
        if r.ok then { r with state := r.state.setCode address r.ret } else r

end Calls

/-- `opSuicide`: the balance goes to the beneficiary, and the frame's
account is marked suicided. -/
def opSuicide (s : StateDB) (ctx beneficiary : Address) : StateDB :=
  (s.addBalance beneficiary (s.getBalance ctx)).suicide ctx

/-- The addresses `CREATE` and `CREATE2` create at, which hash the caller
with its nonce, or with the salt and the init code. -/
structure Config where
  createAddress : Address → UInt64 → Address
  createAddress2 : Address → Hash → Bytes → Address

variable (cfg : Config)

/-- The opcode of a call, run by the call function of `evm.go`. -/
def dispatch (runCode : Bool → Address → StateDB → Frame) (staking : StakingProgram)
    (succeeds : Bool) (d : ℕ) (readOnly : Bool) (caller : Address) : Call → StateDB → Frame
  | .call addr value, s => call runCode staking succeeds d readOnly caller addr value s
  | .callCode addr value, s => callCode runCode staking succeeds d readOnly caller addr value s
  | .delegateCall addr, s => delegateCall runCode staking succeeds d readOnly caller addr s
  | .staticCall addr, s => staticCall runCode staking succeeds d addr s
  | .create value initCode, s =>
      create runCode d readOnly caller (cfg.createAddress caller (s.getNonce caller)) value
        initCode s
  | .create2 value salt initCode, s =>
      create runCode d readOnly caller (cfg.createAddress2 caller salt initCode) value initCode s

/-- A frame at depth `d` running its code with `ctx` as its address. The
callee's code of a call runs one level deeper. -/
def run (d : ℕ) (readOnly : Bool) (ctx : Address) : Program → StateDB → Frame
  | .ret code, s => ⟨s, true, code, []⟩
  | .fail, s => failed s
  | .selfdestruct beneficiary, s =>
      if readOnly then failed s else ⟨opSuicide s ctx beneficiary, true, emptyCodeHash, []⟩
  | .call c code staking succeeds k, s =>
      -- the interpreter refuses a writing call of a read-only frame, which fails
      if readOnly && c.writes then failed s
      else
        let r := dispatch cfg (fun ro addr => run (d + 1) ro addr code) staking succeeds d
          readOnly ctx c s
        let r' := run d readOnly ctx k r.state
        { r' with saves := r.saves ++ r'.saves }

/-! ### Every frame can be reverted

A frame's result is reached from its start by journalled changes, so the
snapshot its caller took undoes it. This is what makes `revertUnless` give
back the state before the call. -/

section Reaches

theorem reaches_revertUnless {s : StateDB} {r : Frame} (h : s.Reaches r.state) :
    s.Reaches (revertUnless s.snapshot r).state := by
  unfold revertUnless
  split
  · exact h
  · exact h.to_revert

/-- The code a successful creation returns is set. -/
theorem reaches_deploy {s : StateDB} {r : Frame} (h : s.Reaches r.state) (address : Address) :
    s.Reaches (if r.ok then { r with state := r.state.setCode address r.ret } else r).state := by
  split
  · exact h.trans (StateDB.reaches_setCode _ address _)
  · exact h

theorem reaches_failed (s : StateDB) : s.Reaches (failed s).state :=
  StateDB.Reaches.refl s

/-- `evm.Call` creates a missing callee before the transfer. -/
theorem reaches_createIfMissing (s : StateDB) (addr : Address) :
    s.Reaches (if s.exist addr then s else s.createAccount addr) := by
  split
  · exact StateDB.Reaches.refl s
  · exact StateDB.reaches_createAccount s addr

/-- `create` makes the new account, sets its nonce and pays the endowment. -/
theorem reaches_newContract (s : StateDB) (caller address : Address) (value : ℕ) :
    s.Reaches (((s.createAccount address).setNonce address 1).transfer caller address value) :=
  ((StateDB.reaches_createAccount s address).trans (StateDB.reaches_setNonce _ address 1)).trans
    (StateDB.reaches_transfer _ caller address value)

theorem StakingProgram.reaches_run : ∀ (p : StakingProgram) (s : StateDB), s.Reaches (p.run s).state
  | .ok, s => StateDB.Reaches.refl s
  | .fail, s => StateDB.Reaches.refl s
  | .subBalance a x k, s => (StateDB.reaches_subBalance s a x).trans (k.reaches_run _)
  | .addBalance a x k, s => (StateDB.reaches_addBalance s a x).trans (k.reaches_run _)
  | .save data k, s =>
      (StateDB.reaches_setTeWakaState s teWaKaAddress teWakaKey data).trans (k.reaches_run _)

theorem reaches_runPrecompiledContract (staking : StakingProgram) (succeeds : Bool)
    (p : Precompiled) (s : StateDB) :
    s.Reaches (runPrecompiledContract staking succeeds p s).state := by
  cases p with
  | pure => exact StateDB.Reaches.refl s
  | tewaka => exact staking.reaches_run s

variable {runCode : Bool → Address → StateDB → Frame}
  (hrun : ∀ (readOnly : Bool) (ctx : Address) (s : StateDB), s.Reaches (runCode readOnly ctx s).state)
  (staking : StakingProgram) (succeeds : Bool) (d : ℕ)
include hrun

theorem reaches_runCodeAt (readOnly : Bool) (codeAddr ctx : Address) (s : StateDB) :
    s.Reaches (runCodeAt runCode readOnly codeAddr ctx s).state := by
  unfold runCodeAt
  split
  · exact hrun readOnly ctx s
  · exact StateDB.Reaches.refl s

/-- What runs behind an address, precompile or code, reaches its result. -/
theorem reaches_callee (readOnly : Bool) (codeAddr ctx : Address) (s : StateDB) :
    s.Reaches (match precompile codeAddr with
      | some p => runPrecompiledContract staking succeeds p s
      | none => runCodeAt runCode readOnly codeAddr ctx s).state := by
  split
  · exact reaches_runPrecompiledContract staking succeeds _ s
  · exact reaches_runCodeAt hrun readOnly codeAddr ctx s

theorem reaches_call (readOnly : Bool) (caller addr : Address) (value : ℕ) (s : StateDB) :
    s.Reaches (call runCode staking succeeds d readOnly caller addr value s).state := by
  unfold call
  split
  · exact reaches_failed s
  split
  · exact reaches_failed s
  split
  · exact StateDB.Reaches.refl s
  exact reaches_revertUnless (((reaches_createIfMissing s addr).trans
    (StateDB.reaches_transfer _ caller addr value)).trans
    (reaches_callee hrun staking succeeds readOnly addr addr _))

theorem reaches_callCode (readOnly : Bool) (caller addr : Address) (value : ℕ) (s : StateDB) :
    s.Reaches (callCode runCode staking succeeds d readOnly caller addr value s).state := by
  unfold callCode
  split
  · exact reaches_failed s
  split
  · exact reaches_failed s
  exact reaches_revertUnless (reaches_callee hrun staking succeeds readOnly addr caller s)

theorem reaches_delegateCall (readOnly : Bool) (caller addr : Address) (s : StateDB) :
    s.Reaches (delegateCall runCode staking succeeds d readOnly caller addr s).state := by
  unfold delegateCall
  split
  · exact reaches_failed s
  exact reaches_revertUnless (reaches_callee hrun staking succeeds readOnly addr caller s)

theorem reaches_staticCall (addr : Address) (s : StateDB) :
    s.Reaches (staticCall runCode staking succeeds d addr s).state := by
  unfold staticCall
  split
  · exact reaches_failed s
  exact reaches_revertUnless ((StateDB.reaches_addBalance s addr 0).trans
    (reaches_callee hrun staking succeeds true addr addr _))

theorem reaches_initCode (readOnly : Bool) (address : Address) (initCode : Bytes) (s : StateDB) :
    s.Reaches (if initCode.isEmpty then (⟨s, true, emptyCodeHash, []⟩ : Frame)
      else runCode readOnly address s).state := by
  split
  · exact StateDB.Reaches.refl s
  · exact hrun readOnly address s

theorem reaches_create (readOnly : Bool) (caller address : Address) (value : ℕ)
    (initCode : Bytes) (s : StateDB) :
    s.Reaches (create runCode d readOnly caller address value initCode s).state := by
  unfold create
  split
  · exact reaches_failed s
  split
  · exact reaches_failed s
  dsimp only
  set s₁ := s.setNonce caller (s.getNonce caller + 1)
  have h₁ : s.Reaches s₁ := StateDB.reaches_setNonce s caller _
  split
  · exact h₁
  -- the new account, then the init code and the deployed code
  exact h₁.trans (reaches_revertUnless (reaches_deploy ((reaches_newContract s₁ caller address value).trans
    (reaches_initCode hrun readOnly address initCode _)) address))

end Reaches

theorem reaches_dispatch {runCode : Bool → Address → StateDB → Frame}
    (hrun : ∀ (readOnly : Bool) (ctx : Address) (s : StateDB), s.Reaches (runCode readOnly ctx s).state)
    (staking : StakingProgram)
    (succeeds : Bool) (d : ℕ) (readOnly : Bool) (caller : Address) (c : Call) (s : StateDB) :
    s.Reaches (dispatch cfg runCode staking succeeds d readOnly caller c s).state := by
  cases c with
  | call addr value => exact reaches_call hrun staking succeeds d readOnly caller addr value s
  | callCode addr value =>
      exact reaches_callCode hrun staking succeeds d readOnly caller addr value s
  | delegateCall addr => exact reaches_delegateCall hrun staking succeeds d readOnly caller addr s
  | staticCall addr => exact reaches_staticCall hrun staking succeeds d addr s
  | create value initCode => exact reaches_create hrun d readOnly caller _ value initCode s
  | create2 value salt initCode => exact reaches_create hrun d readOnly caller _ value initCode s

/-- Every frame reaches its result by journalled changes. By induction on
the program: a call's callee runs a sub-program, and its continuation is
another. -/
theorem reaches_run : ∀ (p : Program) (d : ℕ) (readOnly : Bool) (ctx : Address) (s : StateDB),
    s.Reaches (run cfg d readOnly ctx p s).state
  | .ret _, _, _, _, s => StateDB.Reaches.refl s
  | .fail, _, _, _, s => reaches_failed s
  | .selfdestruct beneficiary, d, readOnly, ctx, s => by
      simp only [run]
      split
      · exact reaches_failed s
      · exact (StateDB.reaches_addBalance s beneficiary _).trans (StateDB.reaches_suicide _ ctx)
  | .call c code staking succeeds k, d, readOnly, ctx, s => by
      simp only [run]
      split
      · exact reaches_failed s
      · exact (reaches_dispatch cfg (fun ro addr t => reaches_run code (d + 1) ro addr t) staking
          succeeds d readOnly ctx c s).trans (reaches_run k d readOnly ctx _)

end Classzz.Evm
