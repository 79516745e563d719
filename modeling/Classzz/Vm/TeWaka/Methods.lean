import Classzz.Vm.TeWaka.Verify

/-!
# The Te Waka methods

`mortgage`, `update`, `convert`, `confirm` and `casting` of `te_waka.go`, on
the arguments `UnpackAtomic` decoded (every `uint256` argument is a natural
number below `2 ^ 256`). Each method loads the registry, checks its
arguments against it and the state, and saves the changed registry; the
order of the checks, of the balance moves and of `Save` is the source's.
The event a method logs after its last write is not modelled.

Three places behave otherwise than their neighbours, and the model keeps
them: `update` returns success without saving when the coinbase list is too
long (it returns the `err` of `Load`, which is nil); `convert` goes on after
any verification error other than `ErrRpcErr` with a nil item, and
dereferences it; `mortgage` compares `big.Int.Cmp` results, which are
`-1`, `0` or `1`, with `0` and `1`.
-/

namespace Classzz.Vm

/-- Who calls the precompile, and in which block. -/
structure CallContext where
  caller : Address
  blockNumber : ℕ
  deriving DecidableEq, Repr

structure MortgageArgs where
  pubKey : Bytes
  toAddress : Address
  stakingAmount : ℕ
  coinBaseAddress : List Address
  deriving DecidableEq, Repr

structure UpdateArgs where
  stakingAmount : ℕ
  coinBaseAddress : List Address
  deriving DecidableEq, Repr

structure ConvertArgs where
  assetType : ℕ
  txHash : String
  deriving DecidableEq, Repr

structure ConfirmArgs where
  convertType : ℕ
  txHash : String
  deriving DecidableEq, Repr

structure CastingArgs where
  convertType : ℕ
  amount : ℕ
  path : List Address
  pubKey : Bytes
  routerAddr : Address
  slippage : ℕ
  isInsurance : Bool
  deriving DecidableEq, Repr

/-- `ValidPubkey`: the key decodes compressed or uncompressed. -/
def validPubkey (env : Env) (pk : Bytes) : Bool :=
  (decodePubkey env pk).isSome

/-- The `ID` of a conversion: its hash's first ten bytes. -/
def itemId (h : Hash) : ℤ :=
  (h.val / 2 ^ 176 : ℕ)

/-- The range check of `mortgage`, as written. -/
def mortgageToAddressOutOfRange (toAddressNum : ℕ) : Bool :=
  cmp toAddressNum mortgageToMin < 0 ∧ cmp toAddressNum mortgageToMax > 1

/-- `mortgage`: open a pledge and lock its stake at its destination. -/
def mortgage (env : Env) (ctx : CallContext) (args : MortgageArgs) (s : StateDB) :
    Except (Fault TeWakaError) StateDB := do
  let fromAddr := ctx.caller
  let tewaka ← s.load
  if args.stakingAmount < mimStakingAmount then throw (.error .mortgageStakingAmount)
  if !validPubkey env args.pubKey then throw (.error .mortgagePubKey)
  if mortgageToAddressOutOfRange args.toAddress.val then
    throw (.error .mortgageToAddressNum)
  if (tewaka.getStakeUser fromAddr).isSome then throw (.error .mortgageHasStakeUser)
  if (tewaka.getStakeToAddress args.toAddress).isSome then
    throw (.error .mortgageHasStakeToAddress)
  if 16 < args.coinBaseAddress.length then throw (.error .mortgageCoinBaseAddress)
  let s := s.save (tewaka.mortgage fromAddr args.toAddress args.pubKey
    args.stakingAmount args.coinBaseAddress)
  if s.getBalance fromAddr < args.stakingAmount then
    throw (.error (.insufficientFunds fromAddr (s.getBalance fromAddr) args.stakingAmount))
  pure ((s.subBalance fromAddr args.stakingAmount).addBalance args.toAddress
    args.stakingAmount)

/-- The stake top-up of `update`, made before the coinbase list is checked. -/
def updateStake (fromAddr toAddr : Address) (amount : ℕ) (s : StateDB) :
    Except (Fault TeWakaError) StateDB :=
  if 0 < amount then
    if amount < mimStakingAmount then .error (.error .updateStakingAmount)
    else if s.getBalance fromAddr < amount then
      .error (.error (.insufficientFunds fromAddr (s.getBalance fromAddr) amount))
    else .ok ((s.subBalance fromAddr amount).addBalance toAddr amount)
  else .ok s

/-- `update`: top the stake up and replace the coinbase list. -/
def update (ctx : CallContext) (args : UpdateArgs) (s : StateDB) :
    Except (Fault TeWakaError) StateDB := do
  let fromAddr := ctx.caller
  let tewaka ← s.load
  let some item := tewaka.getStakeUser fromAddr | throw (.error .updateGetStakeUser)
  let s ← updateStake fromAddr item.toAddress args.stakingAmount s
  -- `return nil, err`, where `err` is still the nil of `Load`
  if 16 < args.coinBaseAddress.length then return s
  let some tewaka := tewaka.update fromAddr args.coinBaseAddress | return s
  pure (s.save tewaka)

/-- The item `convert` goes on with after `verifyConvertEthereumTypeTx`:
it returns only on `ErrRpcErr`, so after any other error the item is nil
and reading `item.Amount` panics. -/
def convertItemOf : Except (Fault TeWakaError) ConvertItem →
    Except (Fault TeWakaError) ConvertItem
  | .ok item => .ok item
  | .error (.error .rpcErr) => .error (.error .rpcErr)
  | .error (.error _) => .error (.panic .nilPointerDereference)
  | .error (.panic p) => .error (.panic p)

/-- The balance moves of a conversion or a casting: `amount` leaves `src`,
`amount - fee` goes to `dest` and `fee` to the fee sink. -/
def payOut (s : StateDB) (src dest : Address) (amount fee : ℤ) : StateDB :=
  ((s.subBalance src amount).addBalance dest (amount - fee)).addBalance address0 fee

/-- The end of `convert` once the burn is verified: the fee and the ID of the
item, the payout (to the key the burn names for a conversion to CZZ, to the
target pool otherwise), and the used item. -/
def convertPayout (env : Env) (tewaka : TeWakaImpl) (assetType : UInt8) (txHash : Hash)
    (item : ConvertItem) (s : StateDB) : Except (Fault TeWakaError) StateDB := do
  let amount := item.amount * int10
  let feeAmount := amount / 1000
  let item := { item with feeAmount := item.amount / 1000 }
  let item := { item with id := itemId (env.convertItemHash item) }
  if item.convertType = expandedTxConvertCzz then
    let some toaddresspuk := env.unmarshalPubkey item.pubKey
      | throw (.error .invalidPubkey)
    let toaddress := env.pubkeyToAddress toaddresspuk
    let s := payOut s (coinPools item.assetType) toaddress amount feeAmount
    pure (s.save (tewaka.setItem ⟨assetType, txHash⟩))
  else
    let s := payOut s (coinPools item.assetType) (coinPools item.convertType)
      amount feeAmount
    pure (s.save ((tewaka.convert item).setItem ⟨assetType, txHash⟩))

/-- `convert`: pay out a burn on a side chain, once per asset type and hash. -/
def convert (env : Env) (args : ConvertArgs) (s : StateDB) (db : RecordStore) :
    Except (Fault TeWakaError) StateDB := do
  let txHash := hexToHash args.txHash
  let tewaka ← s.load
  let assetType := toUint8 args.assetType
  if tewaka.hasItem ⟨assetType, txHash⟩ db then throw (.error .txhashAlreadyInput)
  let item ← convertItemOf (verifyConvertEthereumTypeTx env "Side" s assetType txHash)
  convertPayout env tewaka assetType txHash item s

/-- `confirm`: close the pending conversion a mint on the target chain
completes. -/
def confirm (env : Env) (ctx : CallContext) (args : ConfirmArgs) (s : StateDB)
    (db : RecordStore) : Except (Fault TeWakaError) StateDB := do
  let txHash := hexToHash args.txHash
  let tewaka ← s.load
  let convertType := toUint8 args.convertType
  if tewaka.hasItem ⟨convertType, txHash⟩ db then throw (.error .txhashAlreadyInput)
  let isCip2 := env.chainConfig.IsCIP2 ctx.blockNumber
  let item ← verifyConfirmEthereumTypeTx env "Side" tewaka convertType txHash isCip2
  pure (s.save ((tewaka.confirm item).setItem ⟨convertType, txHash⟩))

/-- The item `casting` records. -/
def castingItem (env : Env) (ctx : CallContext) (args : CastingArgs) (s : StateDB) :
    ConvertItem :=
  let item : ConvertItem :=
    { id := 0, assetType := 0, convertType := toUint8 args.convertType, txHash := 0,
      pubKey := args.pubKey, amount := args.amount, feeAmount := 0, path := args.path,
      routerAddr := args.routerAddr, slippage := args.slippage,
      isInsurance := args.isInsurance, extra := [] }
  let item := if env.chainConfig.IsCIP2 ctx.blockNumber then
    { item with extra := ctx.caller.bytes } else item
  let item := { item with feeAmount := item.amount / int1000 }
  let idHash := env.convertItemHash item
  let nonce := s.getNonce ctx.caller
  if env.chainConfig.IsCIP3 ctx.blockNumber then
    { item with id := itemId idHash + toInt64 nonce }
  else { item with id := itemId idHash }

/-- The key check of `casting` from `CIP_2` on: a key given must decode. -/
def checkCastingPubKey (env : Env) (ctx : CallContext) (pubKey : Bytes) :
    Except (Fault TeWakaError) Unit :=
  if env.chainConfig.IsCIP2 ctx.blockNumber ∧ 0 < pubKey.length ∧
      (decodePubkey env pubKey).isNone then
    throw (.error (.castingPubKey pubKey))
  else pure ()

/-- `casting`: lock CZZ in the pool of a side chain, to be minted there. -/
def casting (env : Env) (ctx : CallContext) (args : CastingArgs) (s : StateDB) :
    Except (Fault TeWakaError) StateDB := do
  let fromAddr := ctx.caller
  let tewaka ← s.load
  checkCastingPubKey env ctx args.pubKey
  let item := castingItem env ctx args s
  if s.getBalance fromAddr < item.amount then
    throw (.error (.insufficientFunds fromAddr (s.getBalance fromAddr) item.amount))
  let s := payOut s fromAddr (coinPools item.convertType) args.amount item.feeAmount
  pure (s.save (tewaka.convert item))

end Classzz.Vm
