import Classzz.Vm.TeWaka.Basic
import Classzz.Lib.Ledger

/-!
# What the Te Waka precompile reads and writes

`StateDB` keeps the parts of the journaled state that the precompile uses:
balances, nonces, and the Te Waka storage slot at `TeWaKaAddress`. The slot
holds the RLP encoding of a registry, and every write to it is `Save` of a
registry, so the model stores the registry itself: `none` is the empty slot,
on which `Load` fails with `"Load data = 0"`. That `Load` returns what `Save`
stored, whether it decodes the bytes or takes the copy in its cache, is the
round trip of the registry's RLP codec.

The used-item record store is not part of the journaled state: it lives in
the disk database, and `ShiftItems` writes to it at every epoch height.
-/

namespace Classzz.Vm

/-- Why a side-chain transaction fails verification, one constructor for
each message of `verifyConvertEthereumTypeTx`, `verifyConfirmEthereumTypeTx`,
`verifyCrossToMainTxV3` and `CheckToAddress`. -/
inductive VerifyError where
  /-- `"[txid:%s] not find"`: no receipt for the hash. -/
  | notFind (txHash : Hash)
  /-- `"[txid:%s] Status [%d]"`. -/
  | status (txHash : Hash) (status : ℕ)
  /-- `"receipt Logs length is 0 "`. -/
  | logsEmpty
  /-- `"txLog is nil "`: no log carries the expected topic. -/
  | txLogNil
  /-- `"UnpackIntoInterface err (%s)"`. -/
  | unpack
  /-- `"tx amount [%d] > pool [%d]"`. -/
  | amountExceedsPool (txAmount : ℕ) (pool : ℤ)
  /-- `"ConvertType is [%d] CoinPools not find"`. -/
  | convertTypeNotInPools (convertType : ℕ)
  /-- `"AssetType = ConvertType = [%d]"`. -/
  | sameType (convertType : ℕ)
  /-- `CheckToAddress`: `"[ToAddress: %s] != [%s]"`, with the pool string the
  message prints. -/
  | toAddress (netName : String) (toAddr : Address) (pool : String)
  /-- An error of `CheckToAddress` wrapped by `verifyConvertEthereumTypeTx`. -/
  | checkToAddress (e : VerifyError)
  /-- `"ValidateSignatureValues invalid transaction v, r, s values"`. -/
  | signatureValues
  /-- `"Ecrecover err: %s"`. -/
  | ecrecover
  /-- `"ConvertItems [id:%d] is null"`. -/
  | itemNull (mid : ℕ)
  /-- `"ConvertType is [%d] not [%d] "`. -/
  | convertTypeMismatch (convertType itemConvertType : UInt8)
  /-- `"toaddresspuk [puk:%s] is err: %s"`. -/
  | toaddresspuk (puk : Bytes)
  /-- `"[toaddress : %s] not [toaddress2 : %s]"`. -/
  | toaddressMismatch (toAddr toAddr2 : Address)
  /-- `"amount %d not %d"`. -/
  | amountMismatch (amountIn amount2 : ℤ)
  /-- `"txjson is nil [txid:%s]"`. -/
  | txjsonNil (txHash : Hash)
  /-- `verifyCrossToMainTxV3`: `"getTransactionReceipt SideClients is null "`. -/
  | sideClientsNull
  /-- `verifyCrossToMainTxV3`: an RPC call to the side chain failed, with the
  call's name and error. -/
  | rpcCall (method err : String)
  /-- `verifyCrossToMainTxV3`: `"Amount < amounts err"`. -/
  | amountBelow
  deriving DecidableEq, Repr

/-- The errors of the Te Waka methods, one constructor for each message. -/
inductive TeWakaError where
  /-- `ErrExecutionReverted`, which `RunStaking` returns for every failure. -/
  | executionReverted
  /-- `ErrStakingInvalidInput`. -/
  | stakingInvalidInput
  /-- `ErrTxhashAlreadyInput`. -/
  | txhashAlreadyInput
  /-- `ErrRpcErr`. -/
  | rpcErr
  /-- `"isCip4 close func"`. -/
  | cip4Closed
  /-- `"Load data = 0"`. -/
  | loadDataEmpty
  /-- `"mortgage StakingAmount StakingAmount <  emimState"`. -/
  | mortgageStakingAmount
  /-- `"mortgage PubKey PubKey err"`. -/
  | mortgagePubKey
  /-- `"mortgage ToAddressNum MortgageToMax > ToAddressNum > MortgageToMin"`. -/
  | mortgageToAddressNum
  /-- `"mortgage HasStakeUser from already exist"`. -/
  | mortgageHasStakeUser
  /-- `"mortgage HasStakeToAddress ToAddress already exist"`. -/
  | mortgageHasStakeToAddress
  /-- `"mortgage CoinBaseAddress len(CoinBaseAddress) > 16"`. -/
  | mortgageCoinBaseAddress
  /-- `"update GetStakeUser from is nil"`. -/
  | updateGetStakeUser
  /-- `"update StakingAmount StakingAmount <  emimState"`. -/
  | updateStakingAmount
  /-- `"insufficient funds for gas * price + value: address %v have %v want %v"`. -/
  | insufficientFunds (address : Address) (available want : ℤ)
  /-- The error of `crypto.UnmarshalPubkey`, which `convert` returns. -/
  | invalidPubkey
  /-- `casting`: `"toaddresspuk [puk:%s] is err: %s"`. -/
  | castingPubKey (puk : Bytes)
  /-- A verification failure, under the network name of the message. -/
  | verify (netName : String) (e : VerifyError)
  /-- The error of the nested `evm.Call` of a cross-chain map. -/
  | nestedCall (err : String)
  deriving DecidableEq, Repr

/-- The state the precompile works on. -/
structure StateDB where
  balance : Address → ℤ
  nonce : Address → ℕ
  teWaka : Option TeWakaImpl

namespace StateDB

/-- `GetBalance`. -/
def getBalance (s : StateDB) (a : Address) : ℤ :=
  s.balance a

/-- `AddBalance`. -/
def addBalance (s : StateDB) (a : Address) (x : ℤ) : StateDB :=
  { s with balance := Ledger.credit s.balance a x }

/-- `SubBalance`. -/
def subBalance (s : StateDB) (a : Address) (x : ℤ) : StateDB :=
  { s with balance := Ledger.debit s.balance a x }

/-- `GetNonce`. -/
def getNonce (s : StateDB) (a : Address) : ℕ :=
  s.nonce a

/-- `TeWakaImpl.Load` from `TeWaKaAddress`. -/
def load (s : StateDB) : Except (Fault TeWakaError) TeWakaImpl :=
  match s.teWaka with
  | none => .error (.error .loadDataEmpty)
  | some twi => .ok twi

/-- `TeWakaImpl.Save` to `TeWaKaAddress`. -/
def save (s : StateDB) (twi : TeWakaImpl) : StateDB :=
  { s with teWaka := some twi }

@[simp] theorem addBalance_balance (s : StateDB) (a : Address) (x : ℤ) :
    (s.addBalance a x).balance = Ledger.credit s.balance a x := rfl

@[simp] theorem subBalance_balance (s : StateDB) (a : Address) (x : ℤ) :
    (s.subBalance a x).balance = Ledger.debit s.balance a x := rfl

@[simp] theorem save_balance (s : StateDB) (twi : TeWakaImpl) :
    (s.save twi).balance = s.balance := rfl

@[simp] theorem addBalance_teWaka (s : StateDB) (a : Address) (x : ℤ) :
    (s.addBalance a x).teWaka = s.teWaka := rfl

@[simp] theorem subBalance_teWaka (s : StateDB) (a : Address) (x : ℤ) :
    (s.subBalance a x).teWaka = s.teWaka := rfl

@[simp] theorem save_teWaka (s : StateDB) (twi : TeWakaImpl) :
    (s.save twi).teWaka = some twi := rfl

@[simp] theorem addBalance_nonce (s : StateDB) (a : Address) (x : ℤ) :
    (s.addBalance a x).nonce = s.nonce := rfl

@[simp] theorem subBalance_nonce (s : StateDB) (a : Address) (x : ℤ) :
    (s.subBalance a x).nonce = s.nonce := rfl

@[simp] theorem save_nonce (s : StateDB) (twi : TeWakaImpl) :
    (s.save twi).nonce = s.nonce := rfl

theorem load_eq_ok {s : StateDB} {twi : TeWakaImpl} :
    s.load = .ok twi ↔ s.teWaka = some twi := by
  unfold load
  split <;> simp_all

end StateDB

/-- The registry `ShiftItems` works on: what `Load` finds, or the fresh one
of `NewTeWakaImpl` when `Load` fails, since its error is dropped. -/
def shiftRegistry (s : StateDB) : TeWakaImpl :=
  s.teWaka.getD TeWakaImpl.empty

/-- `ShiftItems`: at every `DumpHeight`-th block the used items of the epoch
go to the disk store and the registry is saved with none left, by the
deferred `Save`. -/
def shiftItems (s : StateDB) (db : RecordStore) (height : ℕ) :
    StateDB × RecordStore :=
  if height % dumpHeight = 0 then
    let r := (shiftRegistry s).keepItemsByEpoch db
    (s.save r.1, r.2)
  else (s, db)

theorem shiftItems_balance (s : StateDB) (db : RecordStore) (height : ℕ) :
    (shiftItems s db height).1.balance = s.balance := by
  unfold shiftItems
  split_ifs <;> rfl

end Classzz.Vm
