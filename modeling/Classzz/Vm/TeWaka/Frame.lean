import Classzz.Vm.Evm

/-!
# The Te Waka account through a call frame

The Te Waka account is created at genesis with nonce one and code, and only
`TeWakaImpl.Save` writes its Te Waka storage. Every frame keeps it: the
account stays live with the same nonce, code hash and suicide flag, and its
Te Waka storage is the old one with the frame's saves that were not reverted
written in order (`keepsTeWaka_run`).

Why: no code runs as the Te Waka account. A call to it runs the precompile,
`CALLCODE` and `DELEGATECALL` run code as their caller, and a creation at its
address fails the collision check, because its nonce is not zero. So nothing
sets its nonce or code or suicides it, and the only writes to its storage are
the saves of `RunStaking`. A frame that fails is reverted, with its saves, by
the journal (`reaches_run`). Balance moves may credit or debit the account;
they change nothing else of it, and with a nonce it is never empty.
-/

namespace Classzz.Evm

open State
open Vm (teWaKaAddress)

/-- The Te Waka storage after the saves, in order, to the registry's slot. -/
def applySaves (saves : List Bytes) (storage : Hash → Bytes) : Hash → Bytes :=
  saves.foldl (fun st data => Function.update st teWakaKey data) storage

@[simp] theorem applySaves_nil (storage : Hash → Bytes) : applySaves [] storage = storage := rfl

theorem applySaves_append (xs ys : List Bytes) (storage : Hash → Bytes) :
    applySaves (xs ++ ys) storage = applySaves ys (applySaves xs storage) := by
  simp [applySaves, List.foldl_append]

/-- `acct'` is `acct` after balance moves and the saves `saves`: the same
nonce, code hash and suicide flag, and the old storage with the saves. -/
structure Kept (acct acct' : Account) (saves : List Bytes) : Prop where
  nonce : acct'.nonce = acct.nonce
  codeHash : acct'.codeHash = acct.codeHash
  suicided : acct'.suicided = acct.suicided
  teWaka : acct'.teWaka = applySaves saves acct.teWaka

namespace Kept

theorem refl (acct : Account) : Kept acct acct [] :=
  ⟨rfl, rfl, rfl, rfl⟩

theorem trans {acct acct' acct'' : Account} {xs ys : List Bytes} (h₁ : Kept acct acct' xs)
    (h₂ : Kept acct' acct'' ys) : Kept acct acct'' (xs ++ ys) where
  nonce := h₂.nonce.trans h₁.nonce
  codeHash := h₂.codeHash.trans h₁.codeHash
  suicided := h₂.suicided.trans h₁.suicided
  teWaka := by rw [h₂.teWaka, h₁.teWaka, applySaves_append]

theorem balance (acct : Account) (x : ℤ) : Kept acct { acct with balance := x } [] :=
  ⟨rfl, rfl, rfl, rfl⟩

theorem save (acct : Account) (data : Bytes) :
    Kept acct { acct with teWaka := Function.update acct.teWaka teWakaKey data } [data] :=
  ⟨rfl, rfl, rfl, rfl⟩

end Kept

/-- The Te Waka account is live, with a nonce. -/
def Alive (s : StateDB) : Prop :=
  ∃ acct, s.view teWaKaAddress = some acct ∧ acct.nonce ≠ 0

/-- From `s` to `t`, the Te Waka account, if it was live with a nonce, was
kept, with the saves `saves`. -/
def KeepsTeWaka (s t : StateDB) (saves : List Bytes) : Prop :=
  ∀ acct, s.view teWaKaAddress = some acct → acct.nonce ≠ 0 →
    ∃ acct', t.view teWaKaAddress = some acct' ∧ Kept acct acct' saves

namespace KeepsTeWaka

variable {s t u : StateDB} {xs ys : List Bytes}

theorem refl (s : StateDB) : KeepsTeWaka s s [] :=
  fun acct hv _ => ⟨acct, hv, Kept.refl acct⟩

theorem trans (h₁ : KeepsTeWaka s t xs) (h₂ : KeepsTeWaka t u ys) :
    KeepsTeWaka s u (xs ++ ys) := by
  intro acct hv hn
  obtain ⟨acct', hv', hk⟩ := h₁ acct hv hn
  obtain ⟨acct'', hv'', hk'⟩ := h₂ acct' hv' (hk.nonce ▸ hn)
  exact ⟨acct'', hv'', hk.trans hk'⟩

theorem trans_nil (h₁ : KeepsTeWaka s t xs) (h₂ : KeepsTeWaka t u []) : KeepsTeWaka s u xs := by
  simpa using h₁.trans h₂

theorem of_view (h : t.view teWaKaAddress = s.view teWaKaAddress) : KeepsTeWaka s t [] :=
  fun acct hv _ => ⟨acct, h.trans hv, Kept.refl acct⟩

/-- A change elsewhere keeps the Te Waka account. -/
theorem of_update {a : Address} {v : Option Account} (ha : a ≠ teWaKaAddress)
    (h : t.view = Function.update s.view a v) : KeepsTeWaka s t [] :=
  of_view (by rw [h, Function.update_of_ne (Ne.symm ha)])

/-- Nothing is claimed unless the account is live with a nonce, so a proof
may assume it. -/
theorem of_alive (h : Alive s → KeepsTeWaka s t xs) : KeepsTeWaka s t xs :=
  fun acct hv hn => h ⟨acct, hv, hn⟩ acct hv hn

end KeepsTeWaka

theorem Alive.of_keeps {s t : StateDB} {xs : List Bytes} (h : Alive s)
    (hk : KeepsTeWaka s t xs) : Alive t := by
  obtain ⟨acct, hv, hn⟩ := h
  obtain ⟨acct', hv', hkept⟩ := hk acct hv hn
  exact ⟨acct', hv', hkept.nonce ▸ hn⟩

theorem Alive.exist {s : StateDB} (h : Alive s) : s.exist teWaKaAddress := by
  obtain ⟨acct, hv, -⟩ := h
  simp [StateDB.exist_eq, hv]

theorem Alive.getNonce_ne_zero {s : StateDB} (h : Alive s) : s.getNonce teWaKaAddress ≠ 0 := by
  obtain ⟨acct, hv, hn⟩ := h
  simpa [StateDB.getNonce_eq, hv] using hn

/-! ### The writes of the state -/

section Writes

variable (s : StateDB) (a : Address)

theorem accountOrNew_of_view {acct : Account} (h : s.view a = some acct) :
    s.accountOrNew a = acct := by
  simp [StateDB.accountOrNew, h]

theorem keepsTeWaka_addBalance (x : ℤ) : KeepsTeWaka s (s.addBalance a x) [] := by
  by_cases ha : a = teWaKaAddress
  · subst ha
    intro acct hv _
    refine ⟨_, by rw [StateDB.view_addBalance, Function.update_self], ?_⟩
    rw [accountOrNew_of_view s _ hv]
    exact Kept.balance acct _
  · exact KeepsTeWaka.of_update ha (StateDB.view_addBalance s a x)

theorem keepsTeWaka_subBalance (x : ℤ) : KeepsTeWaka s (s.subBalance a x) [] := by
  by_cases ha : a = teWaKaAddress
  · subst ha
    intro acct hv _
    refine ⟨_, by rw [StateDB.view_subBalance, Function.update_self], ?_⟩
    rw [accountOrNew_of_view s _ hv]
    exact Kept.balance acct _
  · exact KeepsTeWaka.of_update ha (StateDB.view_subBalance s a x)

theorem keepsTeWaka_transfer (sender recipient : Address) (amount : ℤ) :
    KeepsTeWaka s (s.transfer sender recipient amount) [] :=
  (keepsTeWaka_subBalance s sender amount).trans (keepsTeWaka_addBalance _ recipient amount)

/-- A save writes the registry's slot of the Te Waka account. -/
theorem keepsTeWaka_save (data : Bytes) :
    KeepsTeWaka s (s.setTeWakaState teWaKaAddress teWakaKey data) [data] := by
  intro acct hv _
  refine ⟨_, by rw [StateDB.view_setTeWakaState, Function.update_self], ?_⟩
  rw [accountOrNew_of_view s _ hv]
  exact Kept.save acct data

variable {a} (ha : a ≠ teWaKaAddress)
include ha

theorem keepsTeWaka_setNonce (n : UInt64) : KeepsTeWaka s (s.setNonce a n) [] :=
  KeepsTeWaka.of_update ha (StateDB.view_setNonce s a n)

theorem keepsTeWaka_setCode (h : Hash) : KeepsTeWaka s (s.setCode a h) [] :=
  KeepsTeWaka.of_update ha (StateDB.view_setCode s a h)

theorem keepsTeWaka_suicide : KeepsTeWaka s (s.suicide a) [] :=
  KeepsTeWaka.of_update ha (StateDB.view_suicide s a)

theorem keepsTeWaka_createAccount : KeepsTeWaka s (s.createAccount a) [] :=
  KeepsTeWaka.of_update ha (StateDB.view_createAccount s a)

end Writes

/-- A revert to a snapshot gives back the view, so it keeps the account with
no saves. -/
theorem keepsTeWaka_revert {s t : StateDB} (h : s.Reaches t) :
    KeepsTeWaka s (t.revertToSnapshot s.snapshot) [] :=
  KeepsTeWaka.of_view (congrFun h.revert.2 teWaKaAddress)

theorem precompile_teWaKaAddress : precompile teWaKaAddress = some .tewaka := by
  simp [precompile]

theorem ne_teWaKaAddress_of_precompile {addr : Address} (h : precompile addr = none) :
    addr ≠ teWaKaAddress := by
  rintro rfl
  simp [precompile_teWaKaAddress] at h

/-! ### Frames -/

theorem keepsTeWaka_failed (s : StateDB) : KeepsTeWaka s (failed s).state (failed s).saves :=
  KeepsTeWaka.refl s

theorem keepsTeWaka_revertUnless {s : StateDB} {r : Frame} (hr : s.Reaches r.state)
    (hk : KeepsTeWaka s r.state r.saves) :
    KeepsTeWaka s (revertUnless s.snapshot r).state (revertUnless s.snapshot r).saves := by
  unfold revertUnless
  split
  · exact hk
  · exact keepsTeWaka_revert hr

theorem StakingProgram.keepsTeWaka_run :
    ∀ (p : StakingProgram) (s : StateDB), KeepsTeWaka s (p.run s).state (p.run s).saves
  | .ok, s => KeepsTeWaka.refl s
  | .fail, s => KeepsTeWaka.refl s
  | .subBalance a x k, s => (keepsTeWaka_subBalance s a x).trans (k.keepsTeWaka_run _)
  | .addBalance a x k, s => (keepsTeWaka_addBalance s a x).trans (k.keepsTeWaka_run _)
  | .save data k, s => (keepsTeWaka_save s data).trans (k.keepsTeWaka_run _)

theorem keepsTeWaka_runPrecompiledContract (staking : StakingProgram) (succeeds : Bool)
    (p : Precompiled) (s : StateDB) :
    KeepsTeWaka s (runPrecompiledContract staking succeeds p s).state
      (runPrecompiledContract staking succeeds p s).saves := by
  cases p with
  | pure => exact KeepsTeWaka.refl s
  | tewaka => exact staking.keepsTeWaka_run s

/-- `evm.Call` creates a missing callee, which is not the live Te Waka
account. -/
theorem keepsTeWaka_createIfMissing (s : StateDB) (addr : Address) :
    KeepsTeWaka s (if s.exist addr then s else s.createAccount addr) [] := by
  split
  · exact KeepsTeWaka.refl s
  · rename_i hmissing
    refine KeepsTeWaka.of_alive fun halive => keepsTeWaka_createAccount s ?_
    rintro rfl
    exact hmissing halive.exist

/-- `create` makes the new account, sets its nonce and pays the endowment,
at an address other than the Te Waka account's. -/
theorem keepsTeWaka_newContract (s : StateDB) (caller : Address) {address : Address}
    (haddr : address ≠ teWaKaAddress) (value : ℕ) :
    KeepsTeWaka s (((s.createAccount address).setNonce address 1).transfer caller address value) [] :=
  ((keepsTeWaka_createAccount s haddr).trans (keepsTeWaka_setNonce _ haddr 1)).trans
    (keepsTeWaka_transfer _ caller address value)

theorem keepsTeWaka_deploy {s : StateDB} {r : Frame} (hk : KeepsTeWaka s r.state r.saves)
    {address : Address} (haddr : address ≠ teWaKaAddress) :
    KeepsTeWaka s (if r.ok then { r with state := r.state.setCode address r.ret } else r).state
      (if r.ok then { r with state := r.state.setCode address r.ret } else r).saves := by
  split
  · exact hk.trans_nil (keepsTeWaka_setCode _ haddr _)
  · exact hk

section Calls

variable {runCode : Bool → Address → StateDB → Frame}
  (hreach : ∀ (readOnly : Bool) (ctx : Address) (s : StateDB), s.Reaches (runCode readOnly ctx s).state)
  (hkeep : ∀ (readOnly : Bool) (ctx : Address) (s : StateDB), ctx ≠ teWaKaAddress →
    KeepsTeWaka s (runCode readOnly ctx s).state (runCode readOnly ctx s).saves)
  (staking : StakingProgram) (succeeds : Bool) (d : ℕ)

include hkeep

theorem keepsTeWaka_runCodeAt (readOnly : Bool) (codeAddr : Address) {ctx : Address}
    (hctx : ctx ≠ teWaKaAddress) (s : StateDB) :
    KeepsTeWaka s (runCodeAt runCode readOnly codeAddr ctx s).state
      (runCodeAt runCode readOnly codeAddr ctx s).saves := by
  unfold runCodeAt
  split
  · exact hkeep readOnly ctx s hctx
  · exact KeepsTeWaka.refl s

theorem keepsTeWaka_initCode (readOnly : Bool) {address : Address}
    (haddr : address ≠ teWaKaAddress) (initCode : Bytes) (s : StateDB) :
    KeepsTeWaka s (if initCode.isEmpty then (⟨s, true, emptyCodeHash, []⟩ : Frame)
        else runCode readOnly address s).state
      (if initCode.isEmpty then (⟨s, true, emptyCodeHash, []⟩ : Frame)
        else runCode readOnly address s).saves := by
  split
  · exact KeepsTeWaka.refl s
  · exact hkeep readOnly address s haddr

/-- What runs behind an address keeps the account, if code runs as another
account whenever the address is not a precompile. -/
theorem keepsTeWaka_callee (readOnly : Bool) (codeAddr ctx : Address)
    (hctx : precompile codeAddr = none → ctx ≠ teWaKaAddress) (s : StateDB) :
    KeepsTeWaka s (match precompile codeAddr with
      | some p => runPrecompiledContract staking succeeds p s
      | none => runCodeAt runCode readOnly codeAddr ctx s).state
      (match precompile codeAddr with
      | some p => runPrecompiledContract staking succeeds p s
      | none => runCodeAt runCode readOnly codeAddr ctx s).saves := by
  split
  · exact keepsTeWaka_runPrecompiledContract staking succeeds _ s
  · rename_i hnone
    exact keepsTeWaka_runCodeAt hkeep readOnly codeAddr (hctx hnone) s

include hreach

theorem keepsTeWaka_call (readOnly : Bool) (caller addr : Address) (value : ℕ) (s : StateDB) :
    KeepsTeWaka s (call runCode staking succeeds d readOnly caller addr value s).state
      (call runCode staking succeeds d readOnly caller addr value s).saves := by
  unfold call
  split
  · exact keepsTeWaka_failed s
  split
  · exact keepsTeWaka_failed s
  split
  · exact KeepsTeWaka.refl s
  dsimp only
  -- the callee runs code only if it is no precompile, so it is not the Te Waka account
  have hctx : precompile addr = none → addr ≠ teWaKaAddress := ne_teWaKaAddress_of_precompile
  exact keepsTeWaka_revertUnless
    (((reaches_createIfMissing s addr).trans (StateDB.reaches_transfer _ caller addr value)).trans
      (reaches_callee hreach staking succeeds readOnly addr addr _))
    (((keepsTeWaka_createIfMissing s addr).trans (keepsTeWaka_transfer _ caller addr value)).trans
      (keepsTeWaka_callee hkeep staking succeeds readOnly addr addr hctx _))

theorem keepsTeWaka_staticCall (addr : Address) (s : StateDB) :
    KeepsTeWaka s (staticCall runCode staking succeeds d addr s).state
      (staticCall runCode staking succeeds d addr s).saves := by
  unfold staticCall
  split
  · exact keepsTeWaka_failed s
  dsimp only
  exact keepsTeWaka_revertUnless ((StateDB.reaches_addBalance s addr 0).trans
      (reaches_callee hreach staking succeeds true addr addr _))
    ((keepsTeWaka_addBalance s addr 0).trans
      (keepsTeWaka_callee hkeep staking succeeds true addr addr ne_teWaKaAddress_of_precompile _))

variable {caller : Address} (hcaller : caller ≠ teWaKaAddress)
include hcaller

theorem keepsTeWaka_callCode (readOnly : Bool) (addr : Address) (value : ℕ) (s : StateDB) :
    KeepsTeWaka s (callCode runCode staking succeeds d readOnly caller addr value s).state
      (callCode runCode staking succeeds d readOnly caller addr value s).saves := by
  unfold callCode
  split
  · exact keepsTeWaka_failed s
  split
  · exact keepsTeWaka_failed s
  exact keepsTeWaka_revertUnless (reaches_callee hreach staking succeeds readOnly addr caller s)
    (keepsTeWaka_callee hkeep staking succeeds readOnly addr caller (fun _ => hcaller) s)

theorem keepsTeWaka_delegateCall (readOnly : Bool) (addr : Address) (s : StateDB) :
    KeepsTeWaka s (delegateCall runCode staking succeeds d readOnly caller addr s).state
      (delegateCall runCode staking succeeds d readOnly caller addr s).saves := by
  unfold delegateCall
  split
  · exact keepsTeWaka_failed s
  exact keepsTeWaka_revertUnless (reaches_callee hreach staking succeeds readOnly addr caller s)
    (keepsTeWaka_callee hkeep staking succeeds readOnly addr caller (fun _ => hcaller) s)

/-- A creation at the Te Waka address fails the collision check: the
caller, not the account, has its nonce raised, and the account's nonce is not
zero. Elsewhere, the new account and its code are another account's. -/
theorem keepsTeWaka_create (readOnly : Bool) (address : Address) (value : ℕ)
    (initCode : Bytes) (s : StateDB) :
    KeepsTeWaka s (create runCode d readOnly caller address value initCode s).state
      (create runCode d readOnly caller address value initCode s).saves := by
  unfold create
  split
  · exact keepsTeWaka_failed s
  split
  · exact keepsTeWaka_failed s
  dsimp only
  set s₁ := s.setNonce caller (s.getNonce caller + 1)
  have k₁ : KeepsTeWaka s s₁ [] := keepsTeWaka_setNonce s hcaller _
  split
  · exact k₁
  rename_i hcoll
  refine KeepsTeWaka.of_alive fun halive => ?_
  have haddr : address ≠ teWaKaAddress := by
    rintro rfl
    exact hcoll (.inl (halive.of_keeps k₁).getNonce_ne_zero)
  exact k₁.trans (keepsTeWaka_revertUnless (reaches_deploy ((reaches_newContract s₁ caller
    address value).trans (reaches_initCode hreach readOnly address initCode _)) address)
    (keepsTeWaka_deploy ((keepsTeWaka_newContract s₁ caller haddr value).trans
      (keepsTeWaka_initCode hkeep readOnly haddr initCode _)) haddr))

end Calls

variable (cfg : Config)

theorem keepsTeWaka_dispatch {runCode : Bool → Address → StateDB → Frame}
    (hreach : ∀ (readOnly : Bool) (ctx : Address) (s : StateDB), s.Reaches (runCode readOnly ctx s).state)
    (hkeep : ∀ (readOnly : Bool) (ctx : Address) (s : StateDB), ctx ≠ teWaKaAddress →
      KeepsTeWaka s (runCode readOnly ctx s).state (runCode readOnly ctx s).saves)
    (staking : StakingProgram) (succeeds : Bool) (d : ℕ) (readOnly : Bool) {caller : Address}
    (hcaller : caller ≠ teWaKaAddress) (c : Call) (s : StateDB) :
    KeepsTeWaka s (dispatch cfg runCode staking succeeds d readOnly caller c s).state
      (dispatch cfg runCode staking succeeds d readOnly caller c s).saves := by
  cases c with
  | call addr value =>
      exact keepsTeWaka_call hreach hkeep staking succeeds d readOnly caller addr value s
  | callCode addr value =>
      exact keepsTeWaka_callCode hreach hkeep staking succeeds d hcaller readOnly addr value s
  | delegateCall addr =>
      exact keepsTeWaka_delegateCall hreach hkeep staking succeeds d hcaller readOnly addr s
  | staticCall addr => exact keepsTeWaka_staticCall hreach hkeep staking succeeds d addr s
  | create value initCode =>
      exact keepsTeWaka_create hreach hkeep d hcaller readOnly _ value initCode s
  | create2 value salt initCode =>
      exact keepsTeWaka_create hreach hkeep d hcaller readOnly _ value initCode s

/-- Every frame that runs as another account keeps the Te Waka account, with
the saves it records. By induction on the program, with the frame lemmas of
the call functions at each call. -/
theorem keepsTeWaka_run : ∀ (p : Program) (d : ℕ) (readOnly : Bool) {ctx : Address}
    (_ : ctx ≠ teWaKaAddress) (s : StateDB),
    KeepsTeWaka s (run cfg d readOnly ctx p s).state (run cfg d readOnly ctx p s).saves
  | .ret _, _, _, _, _, s => KeepsTeWaka.refl s
  | .fail, _, _, _, _, s => keepsTeWaka_failed s
  | .selfdestruct beneficiary, d, readOnly, ctx, hctx, s => by
      simp only [run]
      split
      · exact keepsTeWaka_failed s
      · exact (keepsTeWaka_addBalance s beneficiary _).trans (keepsTeWaka_suicide _ hctx)
  | .call c code staking succeeds k, d, readOnly, ctx, hctx, s => by
      simp only [run]
      split
      · exact keepsTeWaka_failed s
      · exact (keepsTeWaka_dispatch cfg (fun ro addr t => reaches_run cfg code (d + 1) ro addr t)
          (fun ro addr t haddr => keepsTeWaka_run code (d + 1) ro haddr t) staking succeeds d
          readOnly hctx c s).trans (keepsTeWaka_run k d readOnly hctx _)

end Classzz.Evm
