import Classzz.Vm.TeWaka.Methods
import Classzz.Lib.Except

/-!
# What a successful Te Waka method did

One lemma per method, read off its body: every check it passed and the state
it returned. Proofs about the methods start from these lemmas and never
unfold a method again.
-/

namespace Classzz.Vm

open Except

theorem StateDB.save_getBalance (s : StateDB) (twi : TeWakaImpl) (a : Address) :
    (s.save twi).getBalance a = s.balance a := rfl

/-- A successful `mortgage` passed all its checks, saved the registry with
one pledge more, and moved the stake from the caller to the destination. -/
theorem mortgage_eq_ok {env : Env} {ctx : CallContext} {args : MortgageArgs}
    {s s' : StateDB} (h : mortgage env ctx args s = .ok s') :
    ∃ tewaka, s.teWaka = some tewaka ∧
      mimStakingAmount ≤ args.stakingAmount ∧
      validPubkey env args.pubKey = true ∧
      mortgageToAddressOutOfRange args.toAddress.val = false ∧
      tewaka.getStakeUser ctx.caller = none ∧
      tewaka.getStakeToAddress args.toAddress = none ∧
      args.coinBaseAddress.length ≤ 16 ∧
      (args.stakingAmount : ℤ) ≤ s.balance ctx.caller ∧
      s' = ((s.save (tewaka.mortgage ctx.caller args.toAddress args.pubKey
        args.stakingAmount args.coinBaseAddress)).subBalance ctx.caller
          args.stakingAmount).addBalance args.toAddress args.stakingAmount := by
  simp only [mortgage, bind_eq_ok, throw_bind, ite_throw_eq_ok, pure_eq_ok] at h
  obtain ⟨tewaka, hload, hmin, hpk, hrange, huser, hto, hcba, hbal, rfl⟩ := h
  refine ⟨tewaka, StateDB.load_eq_ok.mp hload, by omega, ?_, ?_, ?_, ?_, by omega,
    ?_, rfl⟩
  · simpa using hpk
  · simpa using hrange
  · simpa using huser
  · simpa using hto
  · rw [StateDB.save_getBalance] at hbal
    exact not_lt.mp hbal

/-- The stake top-up of `update` either does nothing (no amount) or moves an
amount of at least the minimum that the caller covers. -/
theorem updateStake_eq_ok {fromAddr toAddr : Address} {amount : ℕ} {s s' : StateDB}
    (h : updateStake fromAddr toAddr amount s = .ok s') :
    (amount = 0 ∧ s' = s) ∨
      (mimStakingAmount ≤ amount ∧ (amount : ℤ) ≤ s.balance fromAddr ∧
        s' = (s.subBalance fromAddr amount).addBalance toAddr amount) := by
  unfold updateStake at h
  -- the two refusals are closed by `split_ifs` itself
  split_ifs at h with hpos hmin hbal
  · cases h
    exact .inr ⟨not_lt.mp hmin, not_lt.mp hbal, rfl⟩
  · cases h
    exact .inl ⟨by omega, rfl⟩

/-- A successful `update` found the caller's pledge, made the top-up, and
either stopped there or saved the registry with the new coinbase list. -/
theorem update_eq_ok {ctx : CallContext} {args : UpdateArgs} {s s' : StateDB}
    (h : update ctx args s = .ok s') :
    ∃ tewaka item s₁, s.teWaka = some tewaka ∧
      tewaka.getStakeUser ctx.caller = some item ∧
      updateStake ctx.caller item.toAddress args.stakingAmount s = .ok s₁ ∧
      (s' = s₁ ∨ ∃ tewaka', tewaka.update ctx.caller args.coinBaseAddress = some tewaka' ∧
        s' = s₁.save tewaka') := by
  simp only [update, bind_eq_ok] at h
  obtain ⟨tewaka, hload, h⟩ := h
  split at h
  case h_2 => exact absurd h throw_ne_ok
  rename_i item huser
  obtain ⟨s₁, hstake, h⟩ := bind_eq_ok.mp h
  refine ⟨tewaka, item, s₁, StateDB.load_eq_ok.mp hload, huser, hstake, ?_⟩
  split_ifs at h with hlen
  · exact .inl (pure_eq_ok.mp h).symm
  · split at h
    case h_1 tewaka' hupd => exact .inr ⟨tewaka', hupd, (pure_eq_ok.mp h).symm⟩
    case h_2 => exact .inl (pure_eq_ok.mp h).symm

theorem convertItemOf_eq_ok {r : Except (Fault TeWakaError) ConvertItem}
    {item : ConvertItem} : convertItemOf r = .ok item ↔ r = .ok item := by
  unfold convertItemOf
  split <;> simp

/-- An item `verifyConvertEthereumTypeTx` returns is for the asset type and
hash it was asked about, converts to another type, and its amount, scaled to
CZZ, is covered by the pool of the asset type. -/
theorem verifyConvertEthereumTypeTx_eq_ok {env : Env} {netName : String} {s : StateDB}
    {assetType : UInt8} {txHash : Hash} {item : ConvertItem}
    (h : verifyConvertEthereumTypeTx env netName s assetType txHash = .ok item) :
    item.assetType = assetType ∧ item.txHash = txHash ∧
      ((item.amount * int10 : ℕ) : ℤ) ≤ s.getBalance (coinPools assetType) ∧
      item.convertType ≠ assetType := by
  simp only [verifyConvertEthereumTypeTx, verifyFail, bind_eq_ok, throw_bind, ite_throw_eq_ok,
    pure_eq_ok] at h
  obtain ⟨logs, -, hpool, -, hsame, -, -, pk, -, rfl⟩ := h
  exact ⟨rfl, rfl, not_lt.mp hpool, Ne.symm hsame⟩

/-- An item `verifyConfirmEthereumTypeTx` returns is the first pending conversion with the
`Mid` of the mint log and is of the type asked about, and the mint carries its amount less
its fee, in units of `10 ^ 10` for a conversion from CZZ. -/
theorem verifyConfirmEthereumTypeTx_eq_ok {env : Env} {netName : String}
    {tewaka : TeWakaImpl} {convertType : UInt8} {txHash : Hash} {isCip2 : Bool}
    {item : ConvertItem}
    (h : verifyConfirmEthereumTypeTx env netName tewaka convertType txHash isCip2 = .ok item) :
    ∃ logs, findEvent env netName txHash mintTopics env.unpackMintToken = .ok logs ∧
      tewaka.convertItems.find? (fun v => v.id = (logs.mid : ℤ)) = some item ∧
      item.convertType = convertType ∧
      (logs.amountIn : ℤ) = if item.assetType = expandedTxConvertCzz then
        ((item.amount : ℤ) - item.feeAmount) / int10 else (item.amount : ℤ) - item.feeAmount := by
  simp only [verifyConfirmEthereumTypeTx, verifyFail, bind_eq_ok, throw_bind,
    ite_throw_eq_ok] at h
  obtain ⟨-, logs, hlogs, h⟩ := h
  split at h
  case h_2 => exact absurd h throw_ne_ok
  rename_i found hfound
  simp only [ite_throw_eq_ok, ne_eq, not_not] at h
  obtain ⟨htype, h⟩ := h
  -- the recipient check from `CIP_2` on passed or was not made
  obtain ⟨hamount, h⟩ := ite_throw_eq_ok.mp (ite_bind_eq_ok_right h)
  split at h
  case h_2 => exact absurd h throw_ne_ok
  obtain ⟨_, -, h⟩ := bind_eq_ok.mp h
  cases pure_eq_ok.mp h
  exact ⟨logs, hlogs, hfound, htype, not_not.mp hamount⟩

/-- The end of a successful `convert`: the pool of the asset type pays the
scaled amount out to some destination and the fee sink, and the registry,
with the conversion recorded or not, gets the used item. -/
theorem convertPayout_eq_ok {env : Env} {tewaka : TeWakaImpl} {assetType : UInt8}
    {txHash : Hash} {item : ConvertItem} {s s' : StateDB}
    (h : convertPayout env tewaka assetType txHash item s = .ok s') :
    ∃ dest twi, (twi = tewaka ∨ ∃ it, twi = tewaka.convert it) ∧
      s' = (payOut s (coinPools item.assetType) dest ((item.amount * int10 : ℕ) : ℤ)
        ((item.amount * int10 / 1000 : ℕ) : ℤ)).save (twi.setItem ⟨assetType, txHash⟩) := by
  unfold convertPayout at h
  dsimp only at h
  split_ifs at h with hczz
  · split at h
    case h_2 => exact absurd h throw_ne_ok
    rename_i puk hpuk
    exact ⟨_, tewaka, .inl rfl, (pure_eq_ok.mp h).symm⟩
  · exact ⟨_, _, .inr ⟨_, rfl⟩, (pure_eq_ok.mp h).symm⟩

/-- The end of a `convert` into the pool of another chain: the pool of the
asset type pays the scaled amount, less the fee, to the pool of the target
type, and the registry records the conversion, with the fee taken on the
unscaled amount, and the used item. -/
theorem convertPayout_of_ne_czz (env : Env) (tewaka : TeWakaImpl) (assetType : UInt8)
    (txHash : Hash) {item : ConvertItem} (s : StateDB)
    (hczz : item.convertType ≠ expandedTxConvertCzz) :
    ∃ it : ConvertItem, it.amount = item.amount ∧ it.feeAmount = item.amount / 1000 ∧
      it.convertType = item.convertType ∧
      convertPayout env tewaka assetType txHash item s =
        .ok ((payOut s (coinPools item.assetType) (coinPools item.convertType)
          ((item.amount * int10 : ℕ) : ℤ) ((item.amount * int10 / 1000 : ℕ) : ℤ)).save
            ((tewaka.convert it).setItem ⟨assetType, txHash⟩)) := by
  -- the item with its fee and its ID set, as `convert` records it
  let fee := { item with feeAmount := item.amount / 1000 }
  refine ⟨{ fee with id := itemId (env.convertItemHash fee) }, rfl, rfl, rfl, ?_⟩
  simp [convertPayout, hczz, fee]
  rfl

/-- A successful `convert` loaded the registry, found its key unused, had the
burn verified, and paid it out. -/
theorem convert_eq_ok {env : Env} {args : ConvertArgs} {s s' : StateDB}
    {db : RecordStore} (h : convert env args s db = .ok s') :
    ∃ tewaka item, s.teWaka = some tewaka ∧
      tewaka.hasItem ⟨toUint8 args.assetType, hexToHash args.txHash⟩ db = false ∧
      verifyConvertEthereumTypeTx env "Side" s (toUint8 args.assetType)
        (hexToHash args.txHash) = .ok item ∧
      convertPayout env tewaka (toUint8 args.assetType) (hexToHash args.txHash) item s =
        .ok s' := by
  simp only [convert, bind_eq_ok, throw_bind, ite_throw_eq_ok] at h
  obtain ⟨tewaka, hload, hused, item, hitem, hpay⟩ := h
  exact ⟨tewaka, item, StateDB.load_eq_ok.mp hload, by simpa using hused,
    convertItemOf_eq_ok.mp hitem, hpay⟩

/-- A successful `confirm` loaded the registry, found its key unused, had the
mint verified, and saved the registry without the item and with the key. -/
theorem confirm_eq_ok {env : Env} {ctx : CallContext} {args : ConfirmArgs}
    {s s' : StateDB} {db : RecordStore} (h : confirm env ctx args s db = .ok s') :
    ∃ tewaka item, s.teWaka = some tewaka ∧
      tewaka.hasItem ⟨toUint8 args.convertType, hexToHash args.txHash⟩ db = false ∧
      verifyConfirmEthereumTypeTx env "Side" tewaka (toUint8 args.convertType)
        (hexToHash args.txHash) (env.chainConfig.IsCIP2 ctx.blockNumber) = .ok item ∧
      s' = s.save ((tewaka.confirm item).setItem
        ⟨toUint8 args.convertType, hexToHash args.txHash⟩) := by
  simp only [confirm, bind_eq_ok, throw_bind, ite_throw_eq_ok, pure_eq_ok] at h
  obtain ⟨tewaka, hload, hused, item, hitem, rfl⟩ := h
  exact ⟨tewaka, item, StateDB.load_eq_ok.mp hload, by simpa using hused, hitem, rfl⟩

@[simp] theorem castingItem_amount (env : Env) (ctx : CallContext) (args : CastingArgs)
    (s : StateDB) : (castingItem env ctx args s).amount = args.amount := by
  unfold castingItem
  split_ifs <;> rfl

@[simp] theorem castingItem_feeAmount (env : Env) (ctx : CallContext)
    (args : CastingArgs) (s : StateDB) :
    (castingItem env ctx args s).feeAmount = args.amount / int1000 := by
  unfold castingItem
  split_ifs <;> rfl

/-- A successful `casting` loaded the registry, found the caller able to pay,
paid the amount into the target pool and the fee sink, and recorded the
conversion. -/
theorem casting_eq_ok {env : Env} {ctx : CallContext} {args : CastingArgs}
    {s s' : StateDB} (h : casting env ctx args s = .ok s') :
    ∃ tewaka, s.teWaka = some tewaka ∧ (args.amount : ℤ) ≤ s.balance ctx.caller ∧
      s' = (payOut s ctx.caller (coinPools (castingItem env ctx args s).convertType)
        args.amount (args.amount / int1000 : ℕ)).save
          (tewaka.convert (castingItem env ctx args s)) := by
  simp only [casting, bind_eq_ok, throw_bind, ite_throw_eq_ok, pure_eq_ok] at h
  obtain ⟨tewaka, hload, -, -, hbal, rfl⟩ := h
  refine ⟨tewaka, StateDB.load_eq_ok.mp hload, ?_, by simp⟩
  simpa [StateDB.getBalance] using hbal

end Classzz.Vm
