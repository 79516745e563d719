import Classzz.Vm.TeWaka.Methods

/-!
# The cross-chain map methods

`crossToMainChainMap` and `betweenSideChainCrossMap` of `te_waka.go`. Each
declares its arguments as a struct literal with the zero value, verifies the
burn they name when `VerifySwitch` is set, decodes its input with
`UnpackAtomic` into the struct, and calls the contract the arguments name
with the caller's address.

Two things in the source decide what they do. The verification runs before
the decoding, on the zero value, whose `*big.Int` fields are nil, and
`verifyCrossToMainTxV3` begins with `fromNetworkType.Uint64()`. And every
field of the struct is unexported: `mapArgNamesToStructFields` looks for a
field named by `ToCamelCase` of each argument (`Id`, `Amounts`, ...), finds
none, and `copyTuple` fails on the argument `id`. So neither method ever
reaches its nested call.
-/

namespace Classzz.Vm

open Classzz.Abi

/-- The argument struct of both methods (`toNetworkType` is only in that of
`betweenSideChainCrossMap`); a nil `*big.Int` is `none`. -/
structure CrossArgs where
  id : Option ℕ
  amounts : Option ℕ
  burnHash : Hash
  fromNetworkType : Option ℕ
  toNetworkType : Option ℕ
  tewaka : Address
  deriving DecidableEq, Repr

/-- The zero value of the struct. -/
def CrossArgs.zero : CrossArgs :=
  ⟨none, none, 0, none, none, 0⟩

/-- `set` of one decoded value into the field of that name, for the value
types of the fields. -/
def CrossArgs.set (args : CrossArgs) : Name × AbiValue → CrossArgs
  | (f, .uint n) =>
      if f = "id".toList then { args with id := some n }
      else if f = "amounts".toList then { args with amounts := some n }
      else if f = "fromNetworkType".toList then { args with fromNetworkType := some n }
      else if f = "toNetworkType".toList then { args with toNetworkType := some n }
      else args
  | (f, .fixedBytes b) =>
      if f = "burnHash".toList then { args with burnHash := bytesToHash b } else args
  | (f, .address a) =>
      if f = "tewaka".toList then { args with tewaka := a } else args
  | _ => args

/-- The inputs of `crossToMainChainMap` in `TeWakaABI`. -/
def crossToMainChainMapInputs : List Name :=
  ["id".toList, "_amounts".toList, "_burnHash".toList, "_fromNetworkType".toList,
    "tewaka".toList]

/-- The fields of the argument struct of `crossToMainChainMap`. -/
def crossToMainChainMapFields : List Name :=
  ["id".toList, "amounts".toList, "burnHash".toList, "fromNetworkType".toList,
    "tewaka".toList]

/-- The inputs of `betweenSideChainCrossMap` in `TeWakaABI`. -/
def betweenSideChainCrossMapInputs : List Name :=
  ["id".toList, "_amounts".toList, "_burnHash".toList, "_fromNetworkType".toList,
    "_toNetworkType".toList, "tewaka".toList]

/-- The fields of the argument struct of `betweenSideChainCrossMap`. -/
def betweenSideChainCrossMapFields : List Name :=
  ["id".toList, "amounts".toList, "burnHash".toList, "fromNetworkType".toList,
    "toNetworkType".toList, "tewaka".toList]

/-- `crossTopics`, the topic of a Te Waka `AtomBurnLog` event. -/
def crossTopics : Hash :=
  0xa7b2921d83c1ae7d5d671011b33435909f492547e4d69136a3c02820dfcb2b3f

/-- The receipt of a burn from a side-chain client: a failed call and a
missing receipt are verification failures. -/
def sideReceipt (netName : String) (client : SideClient) (burnHash : Hash) :
    Except (Fault TeWakaError) Receipt :=
  match client.getTransactionReceipt burnHash with
  | .error e => verifyFail netName (.rpcCall "getTransactionReceipt" e)
  | .ok none => verifyFail netName (.notFind burnHash)
  | .ok (some receipt) => pure receipt

/-- The burn transaction itself, which may be nil. -/
def sideTransaction (netName : String) (client : SideClient) (burnHash : Hash) :
    Except (Fault TeWakaError) (Option Transaction) :=
  match client.getTransactionByHash burnHash with
  | .error e => verifyFail netName (.rpcCall "getTransactionByHash" e)
  | .ok extTx => pure extTx

/-- `verifyCrossToMainTxV3`: the burn `burnHash` on the side chain
`fromNetworkType`, asked of that chain's first client. Nil arguments are
dereferenced where the source reads them. -/
def verifyCrossToMainTxV3 (env : Env) (amounts : Option ℕ) (burnHash : Hash)
    (fromNetworkType : Option ℕ) : Except (Fault TeWakaError) Unit := do
  let some networkType := fromNetworkType | throw (.panic .nilPointerDereference)
  let netName := toString networkType
  let some slot := (env.chainConfig.sideClients (toUint8 networkType)).head?
    | throw (.panic .indexOutOfRange)
  let some client := slot | verifyFail netName .sideClientsNull
  let receipt ← sideReceipt netName client burnHash
  if receipt.status ≠ 1 then verifyFail netName (.status burnHash receipt.status)
  if receipt.logs.length < 1 then verifyFail netName .logsEmpty
  let some txLog ← liftPanic (findLogByTopic crossTopics receipt.logs)
    | verifyFail netName .txLogNil
  let some logs := env.unpackAtomBurnLog txLog.data | verifyFail netName .unpack
  -- `Amount.Cmp(amounts)` reads the nil `amounts`
  let some amounts := amounts | throw (.panic .nilPointerDereference)
  if logs.amountOut < amounts then verifyFail netName .amountBelow
  let extTx ← sideTransaction netName client burnHash
  checkToAddressWrapped netName (checkToAddress (toUint8 networkType) netName extTx)

/-- The arguments `UnpackAtomic` decoded, set into the zero struct; a
decoding error is `ErrStakingInvalidInput`. -/
def decodeCrossArgs : Except (Fault String) (List (Name × AbiValue)) →
    Except (Fault TeWakaError) CrossArgs
  | .ok assigned => .ok (assigned.foldl CrossArgs.set CrossArgs.zero)
  | .error (.error _) => .error (.error .stakingInvalidInput)
  | .error (.panic p) => .error (.panic p)

/-- `packInput`: the input `AbiTeWakaV3.Pack` builds, nil when it fails. -/
def packInput (env : Env) (abiMethod : String) (params : List (Option AbiValue)) :
    Bytes :=
  match env.packV3 abiMethod params with
  | .ok input => input
  | .error _ => []

/-- The nested call of both methods: from the caller, to `args.tewaka`, with
ten million gas and no value. -/
def crossCall (env : Env) (ctx : CallContext) (tewaka : Address) (pinput : Bytes)
    (s : StateDB) : Except (Fault TeWakaError) StateDB :=
  match env.evmCall ctx.caller tewaka pinput 10000000 s with
  | .ok s' => .ok s'
  | .error e => .error (.error (.nestedCall e))

/-- `crossToMainChainMap`. -/
def crossToMainChainMap (env : Env) (ctx : CallContext) (input : Bytes) (s : StateDB) :
    Except (Fault TeWakaError) StateDB := do
  let args := CrossArgs.zero
  if env.chainConfig.verifySwitch then
    verifyCrossToMainTxV3 env args.amounts args.burnHash args.fromNetworkType
  let args ← decodeCrossArgs (unpackAtomic (env.unpackValues "crossToMainChainMap")
    crossToMainChainMapInputs crossToMainChainMapFields input)
  let pinput := packInput env "crossFromMainChain"
    [args.id.map .uint, args.amounts.map .uint, some (.fixedBytes args.burnHash.bytes),
      args.fromNetworkType.map .uint]
  crossCall env ctx args.tewaka pinput s

/-- `betweenSideChainCrossMap`. -/
def betweenSideChainCrossMap (env : Env) (ctx : CallContext) (input : Bytes)
    (s : StateDB) : Except (Fault TeWakaError) StateDB := do
  let args := CrossArgs.zero
  if env.chainConfig.verifySwitch then
    verifyCrossToMainTxV3 env args.amounts args.burnHash args.fromNetworkType
  let args ← decodeCrossArgs (unpackAtomic (env.unpackValues "betweenSideChainCrossMap")
    betweenSideChainCrossMapInputs betweenSideChainCrossMapFields input)
  let pinput := packInput env "betweenSideChainCrossMap"
    [args.id.map .uint, args.amounts.map .uint, some (.fixedBytes args.burnHash.bytes),
      args.fromNetworkType.map .uint, args.toNetworkType.map .uint]
  crossCall env ctx args.tewaka pinput s

/-- No input decodes into a struct whose fields `ToCamelCase` never names. -/
theorem decodeCrossArgs_unpaired (unpackValues : Bytes → Except String (List AbiValue))
    {argNames fields : List Name} (input : Bytes)
    (hargs : ∀ a ∈ argNames, toCamelCase a ∉ fields) (htuple : 1 < argNames.length)
    (hempty : [] ∉ fields) :
    decodeCrossArgs (unpackAtomic unpackValues argNames fields input) =
      .error (.error .stakingInvalidInput) := by
  obtain ⟨e, he⟩ : ∃ e, unpackAtomic unpackValues argNames fields input = .error (.error e) :=
    unpackAtomic_unpaired hargs htuple hempty
  rw [he]
  rfl

theorem crossToMainChainMapInputs_unpaired :
    ∀ a ∈ crossToMainChainMapInputs, toCamelCase a ∉ crossToMainChainMapFields := by
  decide

theorem betweenSideChainCrossMapInputs_unpaired :
    ∀ a ∈ betweenSideChainCrossMapInputs, toCamelCase a ∉ betweenSideChainCrossMapFields := by
  decide

/-- The outcome of both methods: the nil dereference of the verification
when `VerifySwitch` is set, `ErrStakingInvalidInput` of the decoding when it
is not. -/
def crossMapFault (env : Env) : Except (Fault TeWakaError) StateDB :=
  if env.chainConfig.verifySwitch then .error (.panic .nilPointerDereference)
  else .error (.error .stakingInvalidInput)

theorem crossToMainChainMap_eq_crossMapFault (env : Env) (ctx : CallContext)
    (input : Bytes) (s : StateDB) :
    crossToMainChainMap env ctx input s = crossMapFault env := by
  have hdecode := decodeCrossArgs_unpaired
    (env.unpackValues "crossToMainChainMap") input
    crossToMainChainMapInputs_unpaired (by decide) (by decide)
  unfold crossToMainChainMap crossMapFault
  cases env.chainConfig.verifySwitch
  · simp only [Bool.false_eq_true, if_false, hdecode]
    rfl
  · rfl

theorem betweenSideChainCrossMap_eq_crossMapFault (env : Env) (ctx : CallContext)
    (input : Bytes) (s : StateDB) :
    betweenSideChainCrossMap env ctx input s = crossMapFault env := by
  have hdecode := decodeCrossArgs_unpaired
    (env.unpackValues "betweenSideChainCrossMap") input
    betweenSideChainCrossMapInputs_unpaired (by decide) (by decide)
  unfold betweenSideChainCrossMap crossMapFault
  cases env.chainConfig.verifySwitch
  · simp only [Bool.false_eq_true, if_false, hdecode]
    rfl
  · rfl

/-- Neither cross-chain map ever decodes its input or reaches its nested
call: with `VerifySwitch` set both panic, and without it both return
`ErrStakingInvalidInput`, for every configuration, input and state. -/
theorem crossChainMaps_never_call (env : Env) (ctx : CallContext) (input : Bytes)
    (s : StateDB) :
    crossToMainChainMap env ctx input s = crossMapFault env ∧
      betweenSideChainCrossMap env ctx input s = crossMapFault env :=
  ⟨crossToMainChainMap_eq_crossMapFault env ctx input s,
    betweenSideChainCrossMap_eq_crossMapFault env ctx input s⟩

end Classzz.Vm
