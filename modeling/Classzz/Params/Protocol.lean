import Mathlib.Data.Nat.Basic

/-!
# Gas parameters of the EVM

The constants of `params/protocol_params.go` that the modelled gas functions read, as the
`uint64` values the source gives them.
-/

namespace Classzz.Params

/-! ### Storage -/

def sstoreSentryGasEIP2200 : UInt64 := 2300
def sstoreSetGasEIP2200 : UInt64 := 20000
def sstoreResetGasEIP2200 : UInt64 := 5000
def sstoreClearsScheduleRefundEIP2200 : UInt64 := 15000
def sloadGasEIP2200 : UInt64 := 800
def coldSloadCostEIP2929 : UInt64 := 2100
def warmStorageReadCostEIP2929 : UInt64 := 100
def txAccessListStorageKeyGas : UInt64 := 1900

/-- EIP-3529's `SSTORE_CLEARS_SCHEDULE`: `5000 - 2100 + 1900 = 4800`. -/
def sstoreClearsScheduleRefundEIP3529 : UInt64 :=
  sstoreResetGasEIP2200 - coldSloadCostEIP2929 + txAccessListStorageKeyGas
def selfdestructRefundGas : UInt64 := 24000

/-! ### Memory, hashing and creation -/

def memoryGas : UInt64 := 3
def quadCoeffDiv : UInt64 := 512
def copyGas : UInt64 := 3
def logGas : UInt64 := 375
def logTopicGas : UInt64 := 375
def logDataGas : UInt64 := 8
def sha3WordGas : UInt64 := 6
def sha3Gas : UInt64 := 30
def createGas : UInt64 := 32000
def create2Gas : UInt64 := 32000

/-! ### Calls -/

def callValueTransferGas : UInt64 := 9000
def callNewAccountGas : UInt64 := 25000
def callStipend : UInt64 := 2300
def coldAccountAccessCostEIP2929 : UInt64 := 2600

end Classzz.Params
