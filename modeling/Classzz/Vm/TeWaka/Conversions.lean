import Classzz.Vm.TeWaka.Chain

/-!
# The pending conversions

A burn on a side chain is paid out by `convert`. A conversion into the pool of
another chain is also recorded as a pending `ConvertItem`, which `confirm`
takes out once the mint on the target chain is shown; `casting` records one
for CZZ locked in a pool. This module follows the pending items.

`convert` stops only at `ErrRpcErr`, an error `verifyConvertEthereumTypeTx`
never returns (`verifyConvertEthereumTypeTx_onlyRaises`): on any other
failure it goes on with the nil item and panics
(`convert_panics_on_unverified_burn`).

The recorded item carries the fee on the unscaled amount, while the pool is
credited the scaled amount less the fee on the scaled amount; the two differ
by the rounding of the fee (`convert_mint_exceeds_pool_credit`).

Along a run, `confirm` takes out exactly the first pending item with the ID
its mint names, so every confirmed ID was pending at the start or added by a
`convert` or a `casting`, and no mint is confirmed twice
(`confirm_consumes_one_pending`).
-/

namespace Classzz.Vm

open Except Run

/-! ### A burn that does not verify -/

/-- `convert` goes on after every error of `verifyConvertEthereumTypeTx` but
`ErrRpcErr`, which the verifier never returns: whenever it fails to verify a
burn, `convert` reads the nil item and panics. -/
theorem convert_panics_on_unverified_burn {env : Env} {args : ConvertArgs} {s : StateDB}
    {db : RecordStore} {tewaka : TeWakaImpl} {e : TeWakaError}
    (hload : s.teWaka = some tewaka) (hunused : tewaka.hasItem args.key db = false)
    (hverify : verifyConvertEthereumTypeTx env "Side" s (toUint8 args.assetType)
      (hexToHash args.txHash) = .error (.error e)) :
    convert env args s db = .error (.panic .nilPointerDereference) := by
  -- the verifier fails with one of its own verification errors
  obtain ⟨v, rfl⟩ := verifyConvertEthereumTypeTx_onlyRaises env "Side" s _ _ _ hverify
  have hl : s.load = .ok tewaka := StateDB.load_eq_ok.mpr hload
  have hunused' : tewaka.hasItem ⟨toUint8 args.assetType, hexToHash args.txHash⟩ db = false :=
    hunused
  simp only [convert, hl, ok_bind, hunused', Bool.false_eq_true, if_false, hverify]
  rfl

/-- The sample environment with no receipts. -/
def missingReceiptEnv : Env :=
  { sampleEnv with receiptMap := fun _ => none }

theorem convert_panics_on_unverified_burn_missingReceipt :
    sampleState.teWaka = some TeWakaImpl.empty ∧
      TeWakaImpl.empty.hasItem (ConvertArgs.key ⟨8, "0x01"⟩) [] = false ∧
      verifyConvertEthereumTypeTx missingReceiptEnv "Side" sampleState
          (toUint8 (ConvertArgs.assetType ⟨8, "0x01"⟩))
          (hexToHash (ConvertArgs.txHash ⟨8, "0x01"⟩)) =
        .error (.error (.verify "Side" (.notFind (hexToHash "0x01")))) ∧
      convert missingReceiptEnv ⟨8, "0x01"⟩ sampleState [] =
        .error (.panic .nilPointerDereference) := by
  have hload : sampleState.teWaka = some TeWakaImpl.empty := rfl
  have hunused : TeWakaImpl.empty.hasItem (ConvertArgs.key ⟨8, "0x01"⟩) [] = false := by decide
  have hverify : verifyConvertEthereumTypeTx missingReceiptEnv "Side" sampleState
      (toUint8 (ConvertArgs.assetType ⟨8, "0x01"⟩))
      (hexToHash (ConvertArgs.txHash ⟨8, "0x01"⟩)) =
        .error (.error (.verify "Side" (.notFind (hexToHash "0x01")))) := rfl
  exact ⟨hload, hunused, hverify, convert_panics_on_unverified_burn hload hunused hverify⟩

/-! ### What a conversion records and what it pays -/

/-- Scaling the amount less the fee on it by `10 ^ 10` gives the scaled amount
less the fee on the scaled amount, and the part of the amount the fee rounds
away, scaled. -/
theorem int10_mul_sub_fee (a : ℕ) :
    int10 * (a - a / 1000) = a * int10 - a * int10 / 1000 + 10 ^ 7 * (a % 1000) := by
  simp only [int10]
  omega

/-- A conversion into the pool of another chain records a pending item whose
amount less its fee, `a - a / 1000`, is what the mint on that chain must
carry, while that pool is credited `a * 10 ^ 10 - a * 10 ^ 10 / 1000`: scaled,
the mint exceeds the credit by `10 ^ 7 * (a % 1000)`, which is positive unless
`a` is a multiple of 1000. -/
theorem convert_mint_exceeds_pool_credit {env : Env} {args : ConvertArgs} {s s' : StateDB}
    {db : RecordStore} (h : convert env args s db = .ok s') :
    ∃ tewaka item, s.teWaka = some tewaka ∧
      verifyConvertEthereumTypeTx env "Side" s (toUint8 args.assetType)
        (hexToHash args.txHash) = .ok item ∧
      (item.convertType ≠ expandedTxConvertCzz →
        ∃ it : ConvertItem, it.amount = item.amount ∧ it.feeAmount = item.amount / 1000 ∧
          it.convertType = item.convertType ∧
          s' = (payOut s (coinPools item.assetType) (coinPools item.convertType)
            ((item.amount * int10 : ℕ) : ℤ) ((item.amount * int10 / 1000 : ℕ) : ℤ)).save
              ((tewaka.convert it).setItem args.key) ∧
          int10 * (it.amount - it.feeAmount) =
            item.amount * int10 - item.amount * int10 / 1000 + 10 ^ 7 * (item.amount % 1000)) := by
  obtain ⟨tewaka, item, hload, -, hverify, hpay⟩ := convert_eq_ok h
  refine ⟨tewaka, item, hload, hverify, fun hczz => ?_⟩
  obtain ⟨it, hamount, hfee, htype, hpay'⟩ :=
    convertPayout_of_ne_czz env tewaka _ _ s hczz
  rw [hpay, Except.ok.injEq] at hpay'
  refine ⟨it, hamount, hfee, htype, hpay', ?_⟩
  rw [hamount, hfee]
  exact int10_mul_sub_fee item.amount

/-- The item the sample conversion records: a burn of one unit of asset type
8 into the pool of type 1. -/
def sampleConvertItem : ConvertItem where
  id := itemId 0
  assetType := 8
  convertType := 1
  txHash := hexToHash "0x01"
  pubKey := [4]
  amount := 1
  feeAmount := 0
  path := []
  routerAddr := 0
  slippage := 0
  isInsurance := false
  extra := []

/-- The sample state after converting the sample burn: the item recorded, the
pool of type 1 credited `10 ^ 10 - 10 ^ 7`. -/
def sampleConverted : StateDB :=
  (payOut sampleState (coinPools 8) (coinPools 1) ((1 * int10 : ℕ) : ℤ)
    ((1 * int10 / 1000 : ℕ) : ℤ)).save
      ((TeWakaImpl.empty.convert sampleConvertItem).setItem (ConvertArgs.key ⟨8, "0x01"⟩))

/-- A burn of one unit: the mint must carry one unit, `10 ^ 10` in CZZ, while
the pool was credited `10 ^ 10 - 10 ^ 7`. -/
theorem convert_mint_exceeds_pool_credit_one :
    convert sampleEnv ⟨8, "0x01"⟩ sampleState [] = .ok sampleConverted ∧
      ∃ tewaka item, sampleState.teWaka = some tewaka ∧
        verifyConvertEthereumTypeTx sampleEnv "Side" sampleState
          (toUint8 (ConvertArgs.assetType ⟨8, "0x01"⟩))
          (hexToHash (ConvertArgs.txHash ⟨8, "0x01"⟩)) = .ok item ∧
        (item.convertType ≠ expandedTxConvertCzz →
          ∃ it : ConvertItem, it.amount = item.amount ∧ it.feeAmount = item.amount / 1000 ∧
            it.convertType = item.convertType ∧
            sampleConverted = (payOut sampleState (coinPools item.assetType)
              (coinPools item.convertType) ((item.amount * int10 : ℕ) : ℤ)
              ((item.amount * int10 / 1000 : ℕ) : ℤ)).save
                ((tewaka.convert it).setItem (ConvertArgs.key ⟨8, "0x01"⟩)) ∧
            int10 * (it.amount - it.feeAmount) =
              item.amount * int10 - item.amount * int10 / 1000 +
                10 ^ 7 * (item.amount % 1000)) := by
  have h : convert sampleEnv ⟨8, "0x01"⟩ sampleState [] = .ok sampleConverted := rfl
  exact ⟨h, convert_mint_exceeds_pool_credit h⟩

/-! ### The pending conversions along a run -/

/-- The pending conversions of the registry in a state; none without a registry. -/
def StateDB.pending (s : StateDB) : List ConvertItem :=
  (s.teWaka.map TeWakaImpl.convertItems).getD []

theorem StateDB.pending_of_teWaka {s : StateDB} {t : TeWakaImpl} (h : s.teWaka = some t) :
    s.pending = t.convertItems := by
  simp [StateDB.pending, h]

@[simp] theorem StateDB.pending_save (s : StateDB) (t : TeWakaImpl) :
    (s.save t).pending = t.convertItems :=
  StateDB.pending_of_teWaka (StateDB.save_teWaka _ _)

/-- The ID a `confirm` call names: the `Mid` of the mint log its hash points to. -/
def confirmMid (env : Env) (args : ConfirmArgs) : Option ℤ :=
  match findEvent env "Side" (hexToHash args.txHash) mintTopics env.unpackMintToken with
  | .ok logs => some (logs.mid : ℤ)
  | .error _ => none

/-- The IDs the `confirm` calls of a trace named. -/
def confirmedIds (env : Env) (tr : List StakingCall) : List ℤ :=
  tr.filterMap fun
    | .confirm args => confirmMid env args
    | _ => none

/-- The calls that record a pending conversion: `convert` and `casting`. -/
def StakingCall.isRecording : StakingCall → Bool
  | .convert _ => true
  | .casting _ => true
  | _ => false

/-- The keys of the `confirm` calls of a trace. -/
def confirmKeys (tr : List StakingCall) : List UsedItem :=
  tr.filterMap fun
    | .confirm args => some args.key
    | _ => none

/-- A successful `confirm` takes out of the pending conversions the first one
with the ID of its mint log, and keeps the others in order. -/
theorem confirm_pending {env : Env} {ctx : CallContext} {args : ConfirmArgs}
    {s s' : StateDB} {db : RecordStore} (h : confirm env ctx args s db = .ok s') :
    ∃ m l₁ x l₂, confirmMid env args = some m ∧ s.pending = l₁ ++ x :: l₂ ∧ x.id = m ∧
      (∀ v ∈ l₁, v.id ≠ m) ∧ s'.pending = l₁ ++ l₂ := by
  obtain ⟨t, item, hload, -, hverify, rfl⟩ := confirm_eq_ok h
  obtain ⟨logs, hlogs, hfind, -, -⟩ := verifyConfirmEthereumTypeTx_eq_ok hverify
  -- the item found is the first with the ID, and `Confirm` removes the first with its ID
  obtain ⟨hid, l₁, l₂, hsplit, hbefore⟩ := List.find?_eq_some_iff_append.mp hfind
  have hid' : item.id = logs.mid := by simpa using hid
  have hbefore' : ∀ v ∈ l₁, v.id ≠ logs.mid := fun v hv => by simpa using hbefore v hv
  refine ⟨logs.mid, l₁, item, l₂, by simp [confirmMid, hlogs], ?_, hid', hbefore', ?_⟩
  · rw [StateDB.pending_of_teWaka hload, hsplit]
  · rw [StateDB.pending_save, TeWakaImpl.setItem_convertItems,
      TeWakaImpl.confirm_convertItems, hsplit, List.eraseP_append_right _ fun v hv => by
        simpa [hid'] using hbefore' v hv]
    simp [hid']

/-- What a successful call does to the pending conversions: it keeps them and
is no `confirm`; or it records one more, as a `convert` or a `casting`; or it
is a `confirm` that takes out the first with the ID it names. -/
theorem runStaking_pending {env : Env} {ctx : CallContext} {call : StakingCall}
    {s s' : StateDB} {db : RecordStore} (h : runStaking env ctx call s db = .ok s') :
    (s'.pending = s.pending ∧ ∀ args, call ≠ .confirm args) ∨
      (call.isRecording = true ∧ ∃ it, s'.pending = s.pending ++ [it]) ∨
      (∃ args m l₁ x l₂, call = .confirm args ∧ confirmMid env args = some m ∧
        s.pending = l₁ ++ x :: l₂ ∧ x.id = m ∧ (∀ v ∈ l₁, v.id ≠ m) ∧
        s'.pending = l₁ ++ l₂) := by
  rcases stakingMethod_eq_ok (revertOnError_eq_ok.mp h) with
    ⟨args, rfl, hm⟩ | ⟨args, rfl, hm⟩ | ⟨args, rfl, hm⟩ | ⟨args, rfl, hm⟩ | ⟨args, rfl, hm⟩
  case inl =>
    obtain ⟨t, hload, -, -, -, -, -, -, -, rfl⟩ := mortgage_eq_ok hm
    left
    refine ⟨?_, fun _ => by simp⟩
    simp [StateDB.pending, hload]
  case inr.inl =>
    obtain ⟨t, item, s₁, hload, -, hstake, hsave⟩ := update_eq_ok hm
    -- the top-up moves balances only, and `Update` keeps the pending items
    have hs₁ : s₁.teWaka = s.teWaka := by
      rcases updateStake_eq_ok hstake with ⟨-, rfl⟩ | ⟨-, -, rfl⟩ <;> rfl
    left
    refine ⟨?_, fun _ => by simp⟩
    rcases hsave with rfl | ⟨t', hupd, rfl⟩
    · simp [StateDB.pending, hs₁]
    · rw [StateDB.pending_save, TeWakaImpl.update_convertItems hupd,
        StateDB.pending_of_teWaka hload]
  case inr.inr.inl =>
    obtain ⟨t, item, hload, -, -, hpay⟩ := convert_eq_ok hm
    obtain ⟨dest, twi, htwi, rfl⟩ := convertPayout_eq_ok hpay
    have hpending : s.pending = t.convertItems := StateDB.pending_of_teWaka hload
    rcases htwi with rfl | ⟨it, rfl⟩
    · left
      refine ⟨?_, fun _ => by simp⟩
      rw [StateDB.pending_save, TeWakaImpl.setItem_convertItems,
        hpending]
    · right; left
      refine ⟨rfl, it, ?_⟩
      rw [StateDB.pending_save, TeWakaImpl.setItem_convertItems,
        TeWakaImpl.convert_convertItems, hpending]
  case inr.inr.inr.inl =>
    obtain ⟨m, l₁, x, l₂, hmid, hsplit, hid, hbefore, hafter⟩ := confirm_pending hm
    exact .inr (.inr ⟨args, m, l₁, x, l₂, rfl, hmid, hsplit, hid, hbefore, hafter⟩)
  case inr.inr.inr.inr =>
    obtain ⟨t, hload, -, rfl⟩ := casting_eq_ok hm
    right; left
    refine ⟨rfl, castingItem env ctx args s, ?_⟩
    rw [StateDB.pending_save, TeWakaImpl.convert_convertItems,
      StateDB.pending_of_teWaka hload]

namespace World

/-- The pending conversions of the node's registry. -/
def pending (w : World) : List ConvertItem :=
  w.state.pending

/-- What a step does to the pending conversions: it keeps them and confirms
nothing; or it records one more, by one `convert` or `casting`; or it
confirms the first pending item with the ID it names. -/
theorem step_pending {env : Env} {w w' : World} {e : Event} {out : List StakingCall}
    (h : step env w e = some (w', out)) :
    (w'.pending = w.pending ∧ confirmedIds env out = []) ∨
      ((out.filter StakingCall.isRecording).length = 1 ∧ confirmedIds env out = [] ∧
        ∃ it, w'.pending = w.pending ++ [it]) ∨
      (∃ m l₁ x l₂, confirmedIds env out = [m] ∧ w.pending = l₁ ++ x :: l₂ ∧ x.id = m ∧
        (∀ v ∈ l₁, v.id ≠ m) ∧ w'.pending = l₁ ++ l₂) := by
  rcases step_cases h with ⟨ctx, call, rfl, hrun, -⟩ | ⟨rfl, hreg, -⟩ | ⟨rfl, height, hshift⟩
  · rcases runStaking_pending hrun with ⟨hsame, hnot⟩ | ⟨hrec, it, hadd⟩ |
      ⟨args, m, l₁, x, l₂, rfl, hmid, hsplit, hid, hbefore, hafter⟩
    · left
      refine ⟨hsame, ?_⟩
      cases call <;> first | rfl | exact absurd rfl (hnot _)
    · right; left
      refine ⟨by simp [hrec], ?_, it, hadd⟩
      cases call <;> first | rfl | cases hrec
    · exact .inr (.inr ⟨m, l₁, x, l₂, by simp [confirmedIds, hmid], hsplit, hid, hbefore, hafter⟩)
  · left
    exact ⟨by simp [pending, StateDB.pending, hreg], rfl⟩
  · -- `ShiftItems` keeps the pending items of the registry it saves
    left
    have hstate : w'.state = (shiftItems w.state w.db height).1 := by rw [← hshift]
    refine ⟨?_, rfl⟩
    simp only [pending, hstate, shiftItems]
    split_ifs
    · cases hs : w.state.teWaka <;> simp [StateDB.pending, shiftRegistry, hs, TeWakaImpl.empty]
    · rfl

/-- The account of the pending conversions over a run: with the items that
its `convert` and `casting` calls added, at most one each, every ID pending
at the start or added is pending at the end or was confirmed. -/
def PendingAccount (env : Env) (w₀ w : World) (tr : List StakingCall) : Prop :=
  ∃ added : List ConvertItem, added.length ≤ (tr.filter StakingCall.isRecording).length ∧
    ((w₀.pending ++ added).map ConvertItem.id).Perm
      (w.pending.map ConvertItem.id ++ confirmedIds env tr)

theorem pendingAccount_start (env : Env) (w₀ : World) : PendingAccount env w₀ w₀ [] :=
  ⟨[], by simp, by simp [confirmedIds]⟩

theorem PendingAccount.step {env : Env} {w₀ w w' : World} {tr out : List StakingCall}
    {e : Event} (hacc : PendingAccount env w₀ w tr) (h : step env w e = some (w', out)) :
    PendingAccount env w₀ w' (tr ++ out) := by
  obtain ⟨added, hlen, hperm⟩ := hacc
  have hconf : confirmedIds env (tr ++ out) = confirmedIds env tr ++ confirmedIds env out :=
    List.filterMap_append
  rcases step_pending h with ⟨hsame, hnone⟩ | ⟨hrec, hnone, it, hadd⟩ |
    ⟨m, l₁, x, l₂, hone, hsplit, hid, -, hafter⟩
  · refine ⟨added, ?_, ?_⟩
    · simp only [List.filter_append, List.length_append]
      omega
    · rw [hsame, hconf, hnone, List.append_nil]
      exact hperm
  · -- the item recorded is added on both sides
    refine ⟨added ++ [it], ?_, ?_⟩
    · simp only [List.filter_append, List.length_append, hrec, List.length_singleton]
      omega
    · have hl : (w₀.pending ++ (added ++ [it])).map ConvertItem.id =
          (w₀.pending ++ added).map ConvertItem.id ++ [it.id] := by simp
      have hr : (w.pending ++ [it]).map ConvertItem.id ++ confirmedIds env tr =
          w.pending.map ConvertItem.id ++ ([it.id] ++ confirmedIds env tr) := by simp
      rw [hadd, hconf, hnone, List.append_nil, hl, hr]
      have hswap : (w.pending.map ConvertItem.id ++ confirmedIds env tr ++ [it.id]).Perm
          (w.pending.map ConvertItem.id ++ ([it.id] ++ confirmedIds env tr)) := by
        rw [List.append_assoc]
        exact List.perm_append_comm.append_left _
      exact (hperm.append_right [it.id]).trans hswap
  · -- the confirmed item moves from the pending side to the confirmed side
    refine ⟨added, ?_, ?_⟩
    · simp only [List.filter_append, List.length_append]
      omega
    · rw [hsplit] at hperm
      have hl : (l₁ ++ x :: l₂).map ConvertItem.id ++ confirmedIds env tr =
          l₁.map ConvertItem.id ++ m :: (l₂.map ConvertItem.id ++ confirmedIds env tr) := by
        simp [hid]
      have hr : (l₁ ++ l₂).map ConvertItem.id ++ (confirmedIds env tr ++ [m]) =
          l₁.map ConvertItem.id ++ ((l₂.map ConvertItem.id ++ confirmedIds env tr) ++ [m]) := by
        simp
      rw [hconf, hone, hafter, hr]
      rw [hl] at hperm
      exact hperm.trans ((List.perm_append_singleton _ _).symm.append_left _)

/-- Over a run, the pending conversions are accounted for. -/
theorem pendingAccount_run {env : Env} {w₀ w : World} {es : List Event}
    {tr : List StakingCall} (h : runTrace (step env) w₀ es = some (w, tr)) :
    PendingAccount env w₀ w tr :=
  runTrace_invariant (PendingAccount env w₀) (fun _ _ _ _ _ hacc hstep => hacc.step hstep)
    (pendingAccount_start env w₀) h

/-- A node on which a key is consumed refuses every `confirm` with that key. -/
theorem confirm_rejects_consumed {env : Env} {ctx : CallContext} {args : ConfirmArgs}
    {w : World} {s' : StateDB} (hc : w.Consumed args.key) :
    confirm env ctx args w.state w.db ≠ .ok s' := by
  intro h
  obtain ⟨t, item, hload, hfree, -⟩ := confirm_eq_ok h
  obtain ⟨hnotused, hnotdb⟩ := (TeWakaImpl.hasItem_eq_false_iff _ _ _).mp hfree
  rcases hc with hused | hdb
  · rw [StateDB.usedItems_of_teWaka hload] at hused
    exact hnotused hused
  · exact hnotdb hdb

end World

/-- `confirm` consumes exactly one pending conversion: the first whose ID is
the `Mid` of its mint log, keeping the others in order. So along any run,
every ID confirmed was pending at the start or added by one of the
`convert` and `casting` calls, at most one each, and is counted once: the
confirms naming an ID never outnumber the items with that ID pending at the
start and added. A mint accepted once is refused by every later `confirm`
with the same key. -/
theorem confirm_consumes_one_pending (env : Env) :
    (∀ ctx args s s' db, confirm env ctx args s db = .ok s' →
      ∃ m l₁ x l₂, confirmMid env args = some m ∧ s.pending = l₁ ++ x :: l₂ ∧ x.id = m ∧
        (∀ v ∈ l₁, v.id ≠ m) ∧ s'.pending = l₁ ++ l₂) ∧
    ∀ w₀ w es tr, runTrace (World.step env) w₀ es = some (w, tr) →
      (∃ added : List ConvertItem, added.length ≤ (tr.filter StakingCall.isRecording).length ∧
        ∀ m, (confirmedIds env tr).count m + (w.pending.map ConvertItem.id).count m =
          (w₀.pending.map ConvertItem.id).count m + (added.map ConvertItem.id).count m) ∧
      (confirmKeys tr).Nodup ∧
      ∀ args, .confirm args ∈ tr → ∀ ctx args' s', args'.key = args.key →
        confirm env ctx args' w.state w.db ≠ .ok s' := by
  refine ⟨fun ctx args s s' db h => confirm_pending h, fun w₀ w es tr h => ?_⟩
  -- the keys of the confirms are keys of calls
  have hkeys := World.keys_nodup_run (fun c => match c with
    | .confirm args => some args.key
    | _ => none) (fun c k hk => by cases c <;> first | exact hk | cases hk) h
  obtain ⟨added, hlen, hperm⟩ := World.pendingAccount_run h
  refine ⟨⟨added, hlen, fun m => ?_⟩, hkeys.1, fun args hargs ctx args' s' hkey => ?_⟩
  · have hcount := hperm.count_eq m
    simp only [List.map_append, List.count_append] at hcount
    omega
  · have hmem : args.key ∈ confirmKeys tr := List.mem_filterMap.mpr ⟨.confirm args, hargs, rfl⟩
    exact World.confirm_rejects_consumed (hkey ▸ hkeys.2 _ hmem)

/-- A mint of ID 7 for a pending conversion of that ID to type 9, which `CheckToAddress` does not
check: `confirm` takes the conversion out. -/
theorem confirm_consumes_one_pending_mint :
    let env : Env := { sampleEnv with
      receiptMap := fun _ => some ⟨1, [⟨[mintTopics], []⟩]⟩
      unpackMintToken := fun _ => some ⟨0, 7, 0, 99, 0⟩ }
    let item : ConvertItem :=
      { id := 7, assetType := 1, convertType := 9, txHash := 0, pubKey := [], amount := 100,
        feeAmount := 1, path := [], routerAddr := 0, slippage := 0, isInsurance := false,
        extra := [] }
    let s : StateDB := { sampleState with teWaka := some { TeWakaImpl.empty with
      convertItems := [item] } }
    ∃ s', confirm env ⟨sampleCaller, 1⟩ ⟨9, "0x01"⟩ s [] = .ok s' ∧ s'.pending = [] ∧
      ∃ m l₁ x l₂, confirmMid env ⟨9, "0x01"⟩ = some m ∧ s.pending = l₁ ++ x :: l₂ ∧ x.id = m ∧
        (∀ v ∈ l₁, v.id ≠ m) ∧ s'.pending = l₁ ++ l₂ := by
  intro env item s
  -- the call, evaluated: it succeeds and leaves nothing pending
  have hcall : (confirm env ⟨sampleCaller, 1⟩ ⟨9, "0x01"⟩ s []).toOption.map StateDB.pending =
      some [] := by
    decide +kernel
  obtain ⟨s', hs', hpending⟩ : ∃ s', confirm env ⟨sampleCaller, 1⟩ ⟨9, "0x01"⟩ s [] = .ok s' ∧
      s'.pending = [] := by
    cases h : confirm env ⟨sampleCaller, 1⟩ ⟨9, "0x01"⟩ s [] with
    | error e => rw [h] at hcall; cases hcall
    | ok s' => rw [h] at hcall; exact ⟨s', rfl, Option.some.inj hcall⟩
  exact ⟨s', hs', hpending, (confirm_consumes_one_pending env).1 _ _ _ _ _ hs'⟩

end Classzz.Vm
