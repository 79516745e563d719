import Classzz.Params.Config
import Classzz.Vm.TeWaka.Chain
import Classzz.Consensus.Ethash.Consensus

/-!
# The chain configuration along block processing

`BlockChain` shares one `ChainConfig` with its state processor and writes it
in place: `insertChain` calls `ReChainId` before `Process`, and
`writeBlockWithState` calls it again. `ReChainId` at a height from `CIP_4` on
sets `ChainID` to `ChainIDNew`, and nothing sets it back. `MakeSigner` does
not read its block number: it returns the London signer of `ChainID` as it
stands. So the signer a block is processed with depends on the blocks the
node processed before it: once any block from `CIP_4` on was processed,
every later block, below `CIP_4` too, gets the signer of `ChainIDNew`.

The node's record store is state of the node, not of the chain: `ShiftItems`
writes it while a side block is processed, and nothing takes the records back
when the side block loses. The stake factor of header verification is read
from the state at the node's current head, not at the block's parent.
-/

namespace Classzz

/-- A London signer, which accepts a transaction only for its chain id. -/
structure LondonSigner where
  chainId : ℕ
  deriving DecidableEq, Repr

/-- `types.MakeSigner`: the London signer of the configuration's `ChainID`. -/
def makeSigner (config : ChainConfig) (_blockNumber : ℕ) : LondonSigner :=
  ⟨config.chainID⟩

/-- One block through `insertChain` and `writeBlockWithState`: the
configuration after both `ReChainId` calls, and the signer `Process` uses. -/
def insertBlock (config : ChainConfig) (number : ℕ) : ChainConfig × LondonSigner :=
  let config := config.reChainId number
  let signer := makeSigner config number
  (config.reChainId number, signer)

/-- The configuration after a node processed blocks of the given numbers. -/
def configAfter (config : ChainConfig) (history : List ℕ) : ChainConfig :=
  history.foldl (fun c n => (insertBlock c n).1) config

/-- The signer of block `number` on a node that processed `history` before it. -/
def insertChainSigner (config : ChainConfig) (history : List ℕ) (number : ℕ) :
    LondonSigner :=
  (insertBlock (configAfter config history) number).2

@[simp] theorem insertBlock_config (config : ChainConfig) (number : ℕ) :
    (insertBlock config number).1 = config.reChainId number := by
  simp [insertBlock, ChainConfig.reChainId_reChainId]

/-- What processing leaves of the configuration: `ChainIDNew` in place of
`ChainID` as soon as one processed block was from `CIP_4` on. -/
theorem configAfter_chainID (config : ChainConfig) :
    ∀ history : List ℕ,
      (configAfter config history).chainID =
        if ∃ n ∈ history, config.IsCIP4 n then config.chainIDNew else config.chainID
  | [] => by simp [configAfter]
  | n :: history => by
      have ih := configAfter_chainID (config.reChainId n) history
      simp only [configAfter, List.foldl_cons, insertBlock_config] at ih ⊢
      rw [ih, ChainConfig.reChainId_chainIDNew, ChainConfig.reChainId_chainID]
      simp only [ChainConfig.reChainId_IsCIP4, List.mem_cons, exists_eq_or_imp]
      by_cases hn : config.IsCIP4 n <;> simp [hn]

@[simp] theorem configAfter_chainIDNew (config : ChainConfig) (history : List ℕ) :
    (configAfter config history).chainIDNew = config.chainIDNew := by
  induction history generalizing config with
  | nil => rfl
  | cons n history ih =>
      simp only [configAfter, List.foldl_cons, insertBlock_config] at ih ⊢
      rw [ih, ChainConfig.reChainId_chainIDNew]

@[simp] theorem configAfter_IsCIP4 (config : ChainConfig) (history : List ℕ) (m : ℕ) :
    (configAfter config history).IsCIP4 m = config.IsCIP4 m := by
  induction history generalizing config with
  | nil => rfl
  | cons n history ih =>
      simp only [configAfter, List.foldl_cons, insertBlock_config] at ih ⊢
      rw [ih, ChainConfig.reChainId_IsCIP4]

/-- On mainnet, a block below `CIP_4` processed after the `CIP_4` block, as in
a reorganisation back below it, gets the signer of `ChainIDNew`, 2019, while
`ChainId` at its height is 61. -/
theorem insertChainSigner_after_cip4 :
    insertChainSigner mainnetChainConfig [977777] 977776 = ⟨2019⟩ ∧
      mainnetChainConfig.chainId 977776 = 61 := by
  decide

/-- `GetCurrentStakingByUser`: the stake pledged to `address` in the registry
of the node's current head state. -/
def getCurrentStakingByUser (head : Vm.StateDB) (address : Address) :
    Except (Fault Vm.TeWakaError) ℕ := do
  let t ← head.load
  pure (t.getStakingByUser address)

/-- `oneMillion`: a million coins of `10 ^ 18` units each. -/
def oneMillion : ℕ := 1000000 * 10 ^ 18

/-- `MakeFactorForMine`: the cube of the stake in millions of coins, for a
stake of at least a million coins; nil otherwise. -/
def makeFactorForMine (amount : Option ℕ) : Option ℕ :=
  match amount with
  | none => none
  | some amount => if amount < oneMillion then none else some ((amount / oneMillion) ^ 3)

theorem makeFactorForMine_millions {k : ℕ} (hk : 0 < k) :
    makeFactorForMine (some (k * oneMillion)) = some (k ^ 3) := by
  have hpos : 0 < oneMillion := by decide
  have hge : ¬ k * oneMillion < oneMillion := by
    simpa using Nat.le_mul_of_pos_left oneMillion hk
  simp [makeFactorForMine, hge, Nat.mul_div_cancel k hpos]

/-- The seal difficulty falls with the stake until the cube of the stake in
millions of coins passes the difficulty, and then jumps to the minimum: with
`k ^ 3 ≤ D < (k + 1) ^ 3`, a stake of `k` millions leaves at most 7 of the
difficulty, and one more million leaves the minimum, 1000. So for every
positive difficulty, the target `2 ^ 256 / difficulty` that `verifySeal`
divides by a positive difficulty falls when the stake grows past that
point. -/
theorem sealTarget_falls_with_stake (difficulty k : ℕ) (hk : 0 < k) (hlo : k ^ 3 ≤ difficulty)
    (hhi : difficulty < (k + 1) ^ 3) :
    (∀ amount, 0 < Ethash.sealDifficulty difficulty ((makeFactorForMine amount).map Int.ofNat)) ∧
      2 ^ 256 / Ethash.sealDifficulty difficulty
          ((makeFactorForMine (some ((k + 1) * oneMillion))).map Int.ofNat) <
        2 ^ 256 / Ethash.sealDifficulty difficulty
          ((makeFactorForMine (some (k * oneMillion))).map Int.ofNat) := by
  have hD : 0 < difficulty := lt_of_lt_of_le (Nat.pow_pos hk) hlo
  refine ⟨fun amount => Ethash.sealDifficulty_pos hD _, ?_⟩
  have hcube : 0 < k ^ 3 := Nat.pow_pos hk
  -- `(k + 1) ^ 3 ≤ (2 * k) ^ 3 = 8 * k ^ 3`, so a stake of `k` millions leaves less than 8
  have hcube8 : (k + 1) ^ 3 ≤ 8 * k ^ 3 := by
    calc (k + 1) ^ 3 ≤ (2 * k) ^ 3 := Nat.pow_le_pow_left (by omega) 3
      _ = 8 * k ^ 3 := by ring
  have hq : difficulty / k ^ 3 ≤ 7 := by
    have := (Nat.div_lt_iff_lt_mul hcube).mpr (lt_of_lt_of_le hhi hcube8)
    omega
  have hq0 : 0 < difficulty / k ^ 3 := Nat.div_pos hlo hcube
  rw [makeFactorForMine_millions hk, makeFactorForMine_millions (by omega : 0 < k + 1)]
  simp only [Option.map_some, Int.ofNat_eq_natCast]
  rw [Ethash.sealDifficulty_of_lt hhi, Ethash.sealDifficulty_of_div_pos hq0]
  calc 2 ^ 256 / minimumDifficulty < 2 ^ 256 / 7 := by decide
    _ ≤ 2 ^ 256 / (difficulty / k ^ 3) := Nat.div_le_div_left hq hq0

/-- A difficulty of 5000 with a stake of 17 and of 18 million coins: the factors
4913 and 5832 leave 1 and the minimum 1000, so the larger stake faces a
target a thousand times smaller. -/
theorem sealTarget_falls_with_stake_5000 :
    0 < 17 ∧ 17 ^ 3 ≤ 5000 ∧ 5000 < (17 + 1) ^ 3 ∧
      (∀ amount, 0 < Ethash.sealDifficulty 5000 ((makeFactorForMine amount).map Int.ofNat)) ∧
      2 ^ 256 / Ethash.sealDifficulty 5000
          ((makeFactorForMine (some ((17 + 1) * oneMillion))).map Int.ofNat) <
        2 ^ 256 / Ethash.sealDifficulty 5000
          ((makeFactorForMine (some (17 * oneMillion))).map Int.ofNat) :=
  ⟨by decide, by decide, by decide,
    sealTarget_falls_with_stake 5000 17 (by decide) (by decide) (by decide)⟩

/-- The factor `insertChain` gives the header of a block mined by `coinbase`;
a failed lookup is a nil amount. -/
def insertChainFactor (head : Vm.StateDB) (coinbase : Address) : Option ℕ :=
  makeFactorForMine (getCurrentStakingByUser head coinbase).toOption

open Vm Run in
/-- Two nodes with the same parent state process the same block differently
when one of them processed, at the epoch height, a side block with the same
burn: `ShiftItems` left its key on that node's disk, and its `convert` call
is reverted there while it pays out on the other node. -/
theorem side_block_changes_canonical_outcome :
    (runTrace (World.step sampleEnv) ⟨sampleState, []⟩
        [.call ⟨sampleCaller, 50000⟩ (.convert ⟨8, "0x01"⟩), .shift 50000]).map
        (fun r => r.1.db) = some [recordKey ⟨8, 1⟩] ∧
      (runTrace (World.step sampleEnv) ⟨sampleState, [recordKey ⟨8, 1⟩]⟩
        [.call ⟨sampleCaller, 50000⟩ (.convert ⟨8, "0x01"⟩), .shift 50000]).map
        Prod.snd = some [] ∧
      (runTrace (World.step sampleEnv) ⟨sampleState, []⟩
        [.call ⟨sampleCaller, 50000⟩ (.convert ⟨8, "0x01"⟩), .shift 50000]).map
        Prod.snd = some [.convert ⟨8, "0x01"⟩] := by
  decide

end Classzz
