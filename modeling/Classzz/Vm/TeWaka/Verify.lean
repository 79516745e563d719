import Classzz.Vm.TeWaka.State
import Classzz.Params.Config
import Classzz.Accounts.Abi.Reflect
import Classzz.Lib.Except

/-!
# Verifying side-chain transactions

`verifyConvertEthereumTypeTx` and `verifyConfirmEthereumTypeTx` look a
side-chain transaction up in the receipts and transactions embedded in the
binary, find its burn or mint event, and check it against the pools and the
registry. What they read beyond the state is a parameter `Env`: the embedded
maps, the router-ABI decoders of the two events, and the secp256k1 and
Keccak primitives of package `crypto`. The checks written in `te_waka.go`
itself (`CheckToAddress`, `isProtectedV`, `deriveChainId`) and
`crypto.ValidateSignatureValues` are modelled as written.

`CheckToAddress` checks only the network types 1 to 7; for any other type it
accepts every transaction.
-/

namespace Classzz.Vm

/-- The fields of a router `BurnToken` event. -/
structure BurnTokenLog where
  fromAddr : Address
  amountIn : ℕ
  amountOut : ℕ
  convertType : ℕ
  toPath : List Address
  toRouterAddr : Address
  slippage : ℕ
  isInsurance : Bool
  extra : Bytes
  deriving DecidableEq, Repr

/-- The fields of a router `MintToken` event. -/
structure MintTokenLog where
  toAddr : Address
  mid : ℕ
  gas : ℕ
  amountIn : ℕ
  amountOut : ℕ
  deriving DecidableEq, Repr

/-- The one field of a Te Waka `AtomBurnLog` event that is read. -/
structure AtomBurnLog where
  amountOut : ℕ
  deriving DecidableEq, Repr

/-- What the Te Waka methods read besides the state: the chain configuration,
the receipts and transactions embedded by `init`, the event decoders of
`AbiCzzRouter` and `AbiTeWaKa`, the ABI codec, the primitives of package
`crypto`, and the EVM for the nested call of a cross-chain map. Public keys
are passed as their serialisation. -/
structure Env where
  chainConfig : ChainConfig
  receiptMap : Hash → Option Receipt
  transactionMap : Hash → Option Transaction
  unpackBurnToken : Bytes → Option BurnTokenLog
  unpackMintToken : Bytes → Option MintTokenLog
  decompressPubkey : Bytes → Option Bytes
  unmarshalPubkey : Bytes → Option Bytes
  pubkeyToAddress : Bytes → Address
  /-- `a.Hash(extTx)` for the signer that the transaction's type selects. -/
  signerHash : Transaction → Hash
  /-- `crypto.Ecrecover` of a hash and the signature `(r, s, v)`. -/
  ecrecover : Hash → ℕ × ℕ × UInt8 → Option Bytes
  /-- `ConvertItem.Hash`, the RLP hash of the item. -/
  convertItemHash : ConvertItem → Hash
  /-- `UnpackIntoInterface` of an `AtomBurnLog` event of `AbiTeWaKa`. -/
  unpackAtomBurnLog : Bytes → Option AtomBurnLog
  /-- `UnpackValues` of the inputs of the `AbiTeWaKa` method of that name. -/
  unpackValues : String → Bytes → Except String (List Abi.AbiValue)
  /-- `AbiTeWakaV3.Pack` of a method and its arguments, `none` for a nil
  `*big.Int`. -/
  packV3 : String → List (Option Abi.AbiValue) → Except String Bytes
  /-- `evm.Call(caller, addr, input, gas, 0)`: the state after the call, or
  its error, after which `evm.Call` has reverted its own changes. -/
  evmCall : Address → Address → Bytes → ℕ → StateDB → Except String StateDB

/-- `burnTopics`, the topic of a router `BurnToken` event. `Hash.String` is
the lower-case hex spelling, so comparing the strings compares the hashes. -/
def burnTopics : Hash :=
  0xa4bd93d5396d36bd742684adb6dbe69f45c14792170e66134569c1adf91d1fb9

/-- `mintTopics`, the topic of a router `MintToken` event. -/
def mintTopics : Hash :=
  0xd4b70e0d50bcb13e7654961d68ed7b96f84a2fcc32edde496c210382dc025708

/-- The transaction that `verifyConfirmEthereumTypeTx` refuses outright. -/
def refusedConfirmTx : Hash :=
  0xcdde8c184a958fde12c07dadbcd90ca29831b633a371c40a01fdab0511372641

def ethPoolAddr : String := "0xa9bDC85F01Aa9E7167E26189596f9a9E2cE67215|"
def hecoPoolAddr : String :=
  "0x6a1C9835B7b0943908B25C46D8810bCC9Ab57426|0x15e83ebd7F74dDAb5F9baE06f93dF848862B458E"
def bscPoolAddr : String :=
  "0xABe6ED40D861ee39Aa8B21a6f8A554fECb0D32a5|0x8c2eE44fC151B89DD4465be9e59627aCcC12A51F"
def oecPoolAddr : String :=
  "0x007c98F9f2c70746a64572E67FBCc41a2b8bba18|0x3b8afE66C371E959A33a975384Fb0572c981c812"
def polygonPoolAddr : String := "0xdf10e0Caa2BBe67f7a1E91A3e6660cC1e34e81B9|"
def metisPoolAddr : String := "0x007c98F9f2c70746a64572E67FBCc41a2b8bba18|"
def gatePoolAddr : String := "0x503C5C292CD5300E4006c447A46DEab216a54fb2|"

/-- The branches of `CheckToAddress`: for each network type it checks, the
pool string a destination must occur in, and the one its error message
prints (the Metis and Gate branches print the Polygon string). -/
def checkToAddressPools (t : UInt8) : Option (String × String) :=
  match t with
  | 1 => some (ethPoolAddr, ethPoolAddr)
  | 2 => some (hecoPoolAddr, hecoPoolAddr)
  | 3 => some (bscPoolAddr, bscPoolAddr)
  | 4 => some (oecPoolAddr, oecPoolAddr)
  | 5 => some (polygonPoolAddr, polygonPoolAddr)
  | 6 => some (metisPoolAddr, polygonPoolAddr)
  | 7 => some (gatePoolAddr, polygonPoolAddr)
  | _ => none

/-- `strings.Contains`. -/
def stringsContains (s substr : String) : Bool :=
  decide (substr.toList <:+: s.toList)

/-- `CheckToAddress`. A missing transaction, or a contract creation with no
destination, is dereferenced when the type is checked. -/
def checkToAddress (convertType : UInt8) (netName : String)
    (extTx : Option Transaction) : Except (Fault VerifyError) Unit :=
  match checkToAddressPools convertType with
  | none => .ok ()
  | some (pool, shown) =>
      match extTx.bind Transaction.toAddress with
      | none => .error (.panic .nilPointerDereference)
      | some dest =>
          if stringsContains pool.toUpper dest.hex.toUpper then .ok ()
          else .error (.error (.toAddress netName dest shown))

/-- `isProtectedV`. -/
def isProtectedV (v : ℕ) : Bool :=
  if v < 2 ^ 8 then v ≠ 27 ∧ v ≠ 28 ∧ v ≠ 1 ∧ v ≠ 0 else true

/-- `deriveChainId`, with the `uint64` arithmetic of its short branch. -/
def deriveChainId (v : ℕ) : ℕ :=
  if v < 2 ^ 64 then
    if v = 27 ∨ v = 28 then 0 else ((UInt64.ofNat v - 35) / 2).toNat
  else (v - 35) / 2

/-- The recovery id `verifyConvertEthereumTypeTx` computes from `V`, in
`uint64` arithmetic truncated to a byte. -/
def plainV (v : ℕ) : UInt8 :=
  if isProtectedV v then
    (UInt64.ofNat v - 35 - 2 * UInt64.ofNat (deriveChainId v)).toUInt8
  else (UInt64.ofNat v).toUInt8

def secp256k1N : ℕ :=
  0xfffffffffffffffffffffffffffffffebaaedce6af48a03bbfd25e8cd0364141

def secp256k1halfN : ℕ := secp256k1N / 2

/-- `crypto.ValidateSignatureValues`. -/
def validateSignatureValues (v : UInt8) (r s : ℕ) (homestead : Bool) : Bool :=
  if r < 1 ∨ s < 1 then false
  else if homestead ∧ secp256k1halfN < s then false
  else r < secp256k1N ∧ s < secp256k1N ∧ (v = 0 ∨ v = 1)

/-- The loop that picks the first log whose first topic is `topic`. Reading
`Topics[0]` of a log without topics is out of range. -/
def findLogByTopic (topic : Hash) : List Log → Except Panic (Option Log)
  | [] => .ok none
  | l :: ls =>
      match l.topics with
      | [] => .error .indexOutOfRange
      | t :: _ => if t = topic then .ok (some l) else findLogByTopic topic ls

/-- A verification failure of the method `netName` names. -/
def verifyFail {α : Type} (netName : String) (e : VerifyError) :
    Except (Fault TeWakaError) α :=
  throw (.error (.verify netName e))

/-- A panic inside a helper is a panic of the caller. -/
def liftPanic {α : Type} : Except Panic α → Except (Fault TeWakaError) α
  | .ok a => .ok a
  | .error p => .error (.panic p)

/-- `CheckToAddress` as called by `verifyConvertEthereumTypeTx`, which wraps
its error into its own message. -/
def checkToAddressWrapped (netName : String) :
    Except (Fault VerifyError) Unit → Except (Fault TeWakaError) Unit
  | .ok () => .ok ()
  | .error (.error e) => verifyFail netName (.checkToAddress e)
  | .error (.panic p) => .error (.panic p)

/-- `CheckToAddress` as called by `verifyConfirmEthereumTypeTx`, which returns
its error as it is. -/
def checkToAddressDirect (netName : String) :
    Except (Fault VerifyError) Unit → Except (Fault TeWakaError) Unit
  | .ok () => .ok ()
  | .error (.error e) => verifyFail netName e
  | .error (.panic p) => .error (.panic p)

/-- The first steps of both verifiers: the receipt of `txHash`, its status, its
first log with `topic`, and that log's data decoded. -/
def findEvent {β : Type} (env : Env) (netName : String) (txHash topic : Hash)
    (unpack : Bytes → Option β) : Except (Fault TeWakaError) β := do
  let some receipt := env.receiptMap txHash | verifyFail netName (.notFind txHash)
  if receipt.status ≠ 1 then verifyFail netName (.status txHash receipt.status)
  if receipt.logs.length < 1 then verifyFail netName .logsEmpty
  let some txLog ← liftPanic (findLogByTopic topic receipt.logs)
    | verifyFail netName .txLogNil
  let some logs := unpack txLog.data | verifyFail netName .unpack
  pure logs

/-- The last steps of `verifyConvertEthereumTypeTx`: the public key that
signed the side-chain transaction. -/
def senderPubkey (env : Env) (netName : String) (extTx : Option Transaction) :
    Except (Fault TeWakaError) Bytes := do
  -- `RawSignatureValues` of a missing transaction
  let some tx := extTx | throw (.panic .nilPointerDereference)
  let v := plainV tx.v
  if !validateSignatureValues v tx.r tx.s false then
    verifyFail netName .signatureValues
  let some pk := env.ecrecover (env.signerHash tx) (tx.r, tx.s, v)
    | verifyFail netName .ecrecover
  pure pk

/-- `verifyConvertEthereumTypeTx`: the conversion item a burn on a side chain
entitles to. Its `ID` and `FeeAmount` are nil; `convert` sets both. -/
def verifyConvertEthereumTypeTx (env : Env) (netName : String) (s : StateDB)
    (assetType : UInt8) (txHash : Hash) : Except (Fault TeWakaError) ConvertItem := do
  let logs ← findEvent env netName txHash burnTopics env.unpackBurnToken
  let amountPool := s.getBalance (coinPools assetType)
  let amount := if logs.amountOut = 0 then logs.amountIn else logs.amountOut
  let txAmount := amount * int10
  if amountPool < txAmount then
    verifyFail netName (.amountExceedsPool txAmount amountPool)
  let convertType := toUint8 logs.convertType
  if (coinPoolsLookup convertType).isNone ∧ convertType ≠ 0 then
    verifyFail netName (.convertTypeNotInPools (logs.convertType % 2 ^ 64))
  if assetType = convertType then
    verifyFail netName (.sameType (logs.convertType % 2 ^ 64))
  let extTx := env.transactionMap txHash
  checkToAddressWrapped netName (checkToAddress assetType netName extTx)
  let pk ← senderPubkey env netName extTx
  pure { id := 0, assetType := assetType, convertType := convertType,
         txHash := txHash, pubKey := pk, amount := amount, feeAmount := 0,
         path := logs.toPath, routerAddr := logs.toRouterAddr,
         slippage := logs.slippage, isInsurance := logs.isInsurance,
         extra := logs.extra }

/-- The public key a pending conversion names, decoded compressed or, failing
that, uncompressed. -/
def decodePubkey (env : Env) (pk : Bytes) : Option Bytes :=
  (env.decompressPubkey pk).orElse fun _ => env.unmarshalPubkey pk

/-- The recipient check of `verifyConfirmEthereumTypeTx` from `CIP_2` on: the
mint must pay the key the conversion names, or else the account that made it. -/
def checkMintRecipient (env : Env) (netName : String) (item : ConvertItem)
    (logs : MintTokenLog) : Except (Fault TeWakaError) Unit := do
  if 0 < item.pubKey.length then
    let some puk := decodePubkey env item.pubKey
      | verifyFail netName (.toaddresspuk item.pubKey)
    let toaddress := env.pubkeyToAddress puk
    if logs.toAddr ≠ toaddress then
      verifyFail netName (.toaddressMismatch logs.toAddr toaddress)
  else
    let fromAddr := bytesToAddress item.extra
    if logs.toAddr ≠ fromAddr then
      verifyFail netName (.toaddressMismatch logs.toAddr fromAddr)

/-- `verifyConfirmEthereumTypeTx`: the pending conversion a mint on the target
chain completes. Looking the receipt up has no effect, so the refused hash is
checked first. -/
def verifyConfirmEthereumTypeTx (env : Env) (netName : String) (tewaka : TeWakaImpl)
    (convertType : UInt8) (txHash : Hash) (isCip2 : Bool) :
    Except (Fault TeWakaError) ConvertItem := do
  if txHash = refusedConfirmTx then verifyFail netName (.notFind txHash)
  let logs ← findEvent env netName txHash mintTopics env.unpackMintToken
  let some item := tewaka.convertItems.find? (fun v => v.id = (logs.mid : ℤ))
    | verifyFail netName (.itemNull (logs.mid % 2 ^ 64))
  if item.convertType ≠ convertType then
    verifyFail netName (.convertTypeMismatch convertType item.convertType)
  if isCip2 then checkMintRecipient env netName item logs
  let amount2 : ℤ := (item.amount : ℤ) - item.feeAmount
  let amount2 := if item.assetType = expandedTxConvertCzz then amount2 / int10 else amount2
  if (logs.amountIn : ℤ) ≠ amount2 then
    verifyFail netName (.amountMismatch logs.amountIn amount2)
  let some extTx := env.transactionMap txHash | verifyFail netName (.txjsonNil txHash)
  checkToAddressDirect netName (checkToAddress convertType netName (some extTx))
  pure item

/-! ### How the verifiers fail

A verifier fails with its own verification errors, under the name of the
method it serves, or with a panic: never with `ErrRpcErr`, the one error its
caller `convert` stops at. -/

section Faults

open Except

/-- The errors a verifier raises: its own verification failures, and panics. -/
def VerifyFault (netName : String) : Fault TeWakaError → Prop
  | .error e => ∃ v, e = .verify netName v
  | .panic _ => True

variable (env : Env) (netName : String)

theorem verifyFail_onlyRaises {α : Type} (e : VerifyError) :
    OnlyRaises (VerifyFault netName) (verifyFail netName e : Except _ α) :=
  OnlyRaises.throw ⟨e, rfl⟩

theorem liftPanic_onlyRaises {α : Type} (x : Except Panic α) :
    OnlyRaises (VerifyFault netName) (liftPanic x) := by
  cases x with
  | error p => exact OnlyRaises.throw trivial
  | ok a => exact OnlyRaises.ok a

theorem checkToAddressWrapped_onlyRaises (r : Except (Fault VerifyError) Unit) :
    OnlyRaises (VerifyFault netName) (checkToAddressWrapped netName r) := by
  unfold checkToAddressWrapped
  split
  · exact OnlyRaises.ok _
  · exact verifyFail_onlyRaises netName _
  · exact OnlyRaises.throw trivial

theorem findEvent_onlyRaises {β : Type} (txHash topic : Hash) (unpack : Bytes → Option β) :
    OnlyRaises (VerifyFault netName) (findEvent env netName txHash topic unpack) := by
  unfold findEvent
  split
  · -- the status and the number of logs, then the log and its data
    refine OnlyRaises.guard ⟨_, rfl⟩ fun _ => OnlyRaises.guard ⟨_, rfl⟩ fun _ => ?_
    refine OnlyRaises.bind (liftPanic_onlyRaises netName _) fun log _ => ?_
    split
    · split
      · exact OnlyRaises.pure _
      · exact verifyFail_onlyRaises netName _
    · exact verifyFail_onlyRaises netName _
  · exact verifyFail_onlyRaises netName _

theorem senderPubkey_onlyRaises (extTx : Option Transaction) :
    OnlyRaises (VerifyFault netName) (senderPubkey env netName extTx) := by
  unfold senderPubkey
  split
  · refine OnlyRaises.guard ⟨_, rfl⟩ fun _ => ?_
    split
    · exact OnlyRaises.pure _
    · exact verifyFail_onlyRaises netName _
  · exact OnlyRaises.throw trivial

/-- Every error of `verifyConvertEthereumTypeTx` is one of its own verification failures
or a panic. -/
theorem verifyConvertEthereumTypeTx_onlyRaises (s : StateDB) (assetType : UInt8)
    (txHash : Hash) :
    OnlyRaises (VerifyFault netName)
      (verifyConvertEthereumTypeTx env netName s assetType txHash) := by
  unfold verifyConvertEthereumTypeTx
  refine OnlyRaises.bind (findEvent_onlyRaises env netName _ _ _) fun logs _ => ?_
  -- the pool, the type in the pools, and a type other than the asset's
  refine OnlyRaises.guard ⟨_, rfl⟩ fun _ => OnlyRaises.guard ⟨_, rfl⟩ fun _ =>
    OnlyRaises.guard ⟨_, rfl⟩ fun _ => ?_
  refine OnlyRaises.bind (checkToAddressWrapped_onlyRaises netName _) fun _ _ => ?_
  exact OnlyRaises.bind (senderPubkey_onlyRaises env netName _) fun _ _ => OnlyRaises.pure _

end Faults

end Classzz.Vm
