import Classzz.Core.Types.Receipt

/-!
# Chain configuration

`params.ChainConfig` with the fields the modelled code reads: the two chain
ids, the `EWASMBlock` and `NoRewardBlock` fork heights, the `CIP_1` to `CIP_5`
switch heights (`none` is a nil switch, which never activates), the side-chain
verification switch and the side-chain RPC clients. `ReChainId` is the one place that writes the configuration: from the
`CIP_4` height on it overwrites `ChainID` with `ChainIDNew`.
-/

namespace Classzz

/-- The two calls the node makes on a side-chain RPC client. Their answers
come from another chain, so they are data of the client. -/
structure SideClient where
  getTransactionReceipt : Hash → Except String (Option Receipt)
  getTransactionByHash : Hash → Except String (Option Transaction)

/-- `params.ChainConfig`. A client slot is `none` for a nil `*rpc.Client`; a
network type with no entry has the empty slice. -/
structure ChainConfig where
  chainID : ℕ
  chainIDNew : ℕ
  ewasmBlock : Option ℕ
  noRewardBlock : Option ℕ
  cip1 : Option ℕ
  cip2 : Option ℕ
  cip3 : Option ℕ
  cip4 : Option ℕ
  cip5 : Option ℕ
  verifySwitch : Bool
  sideClients : UInt8 → List (Option SideClient)

/-- `isForked`: a switch at height `s` is active at every height from `s` on;
a nil switch never is. -/
def isForked (s : Option ℕ) (head : ℕ) : Bool :=
  match s with
  | none => false
  | some s => decide (s ≤ head)

namespace ChainConfig

def IsCIP1 (c : ChainConfig) (num : ℕ) : Bool := isForked c.cip1 num
def IsCIP2 (c : ChainConfig) (num : ℕ) : Bool := isForked c.cip2 num
def IsCIP3 (c : ChainConfig) (num : ℕ) : Bool := isForked c.cip3 num
def IsCIP4 (c : ChainConfig) (num : ℕ) : Bool := isForked c.cip4 num
def IsCIP5 (c : ChainConfig) (num : ℕ) : Bool := isForked c.cip5 num

/-- `ChainConfig.ReChainId`, which writes the configuration in place. -/
def reChainId (c : ChainConfig) (num : ℕ) : ChainConfig :=
  if c.IsCIP4 num then { c with chainID := c.chainIDNew } else c

/-- `ChainConfig.ChainId`: the chain id in force at a height. -/
def chainId (c : ChainConfig) (num : ℕ) : ℕ :=
  if c.IsCIP4 num then c.chainIDNew else c.chainID

@[simp] theorem reChainId_chainIDNew (c : ChainConfig) (num : ℕ) :
    (c.reChainId num).chainIDNew = c.chainIDNew := by
  unfold reChainId
  split_ifs <;> rfl

@[simp] theorem reChainId_cip4 (c : ChainConfig) (num : ℕ) :
    (c.reChainId num).cip4 = c.cip4 := by
  unfold reChainId
  split_ifs <;> rfl

theorem reChainId_chainID (c : ChainConfig) (num : ℕ) :
    (c.reChainId num).chainID =
      if c.IsCIP4 num then c.chainIDNew else c.chainID := by
  unfold reChainId
  split_ifs <;> rfl

@[simp] theorem reChainId_IsCIP4 (c : ChainConfig) (num m : ℕ) :
    (c.reChainId num).IsCIP4 m = c.IsCIP4 m := by
  simp only [IsCIP4, reChainId_cip4]

/-- A second `ReChainId` at the same height changes nothing. -/
theorem reChainId_reChainId (c : ChainConfig) (num : ℕ) :
    (c.reChainId num).reChainId num = c.reChainId num := by
  unfold reChainId
  split_ifs <;> simp_all

end ChainConfig

/-- `MainnetChainConfig`. -/
def mainnetChainConfig : ChainConfig where
  chainID := 61
  chainIDNew := 2019
  ewasmBlock := none
  noRewardBlock := none
  cip1 := some 150000
  cip2 := some 170000
  cip3 := some 220000
  cip4 := some 977777
  cip5 := some 1100000
  verifySwitch := false
  sideClients := fun _ => []

end Classzz
