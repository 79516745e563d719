import Classzz.Vm.TeWaka.State

/-!
# The Te Waka state of the genesis block

`Genesis.ToBlock` allocates the accounts, lets `OnceInitImpawnState` give an
empty Te Waka slot a fresh registry, and then builds the genesis registry
afresh: every committee member pledges from its `Coinbase` to its
`StakeBase`, with its stake moved by `GenesisLockedBalance`, and the new
registry is saved over whatever the slot held.
-/

namespace Classzz

open Vm

/-- A member of the genesis committee. -/
structure CommitteeMember where
  coinbase : Address
  stakeBase : Address
  pubkey : Bytes
  amount : ℕ
  coinBaseAddress : List Address
  deriving DecidableEq, Repr

/-- `makeImpawInitState`: an empty slot gets a fresh registry, and the Te
Waka account the nonce one. -/
def makeImpawInitState (s : StateDB) : StateDB :=
  match s.teWaka with
  | none => { s.save TeWakaImpl.empty with nonce := Function.update s.nonce teWaKaAddress 1 }
  | some _ => s

/-- `GenesisLockedBalance`. -/
def genesisLockedBalance (s : StateDB) (fromAddr toAddr : Address) (amount : ℕ) : StateDB :=
  (s.subBalance fromAddr amount).addBalance toAddr amount

/-- One turn of the committee loop of `ToBlock`. -/
def committeeStep (r : TeWakaImpl × StateDB) (member : CommitteeMember) :
    TeWakaImpl × StateDB :=
  (r.1.mortgage member.coinbase member.stakeBase member.pubkey member.amount
      member.coinBaseAddress,
    genesisLockedBalance r.2 member.coinbase member.stakeBase member.amount)

/-- The state of `ToBlock` after the allocation `alloc`. -/
def toBlockState (alloc : StateDB) (committee : List CommitteeMember) : StateDB :=
  let r := committee.foldl committeeStep (TeWakaImpl.empty, makeImpawInitState alloc)
  r.2.save r.1

/-- The pledge of a committee member. -/
def CommitteeMember.pledge (member : CommitteeMember) : Pledge :=
  ⟨member.coinbase, member.pubkey, member.stakeBase, member.amount, member.coinBaseAddress⟩

/-- The committee loop appends one pledge per member, in order. -/
theorem foldl_committeeStep_pledgeInfos :
    ∀ (committee : List CommitteeMember) (r : TeWakaImpl × StateDB),
      (committee.foldl committeeStep r).1.pledgeInfos =
        r.1.pledgeInfos ++ committee.map CommitteeMember.pledge
  | [], r => by simp
  | member :: committee, r => by
      rw [List.foldl_cons, foldl_committeeStep_pledgeInfos committee]
      simp [committeeStep, CommitteeMember.pledge]

/-- The genesis registry holds the committee's pledges and nothing else. -/
theorem toBlockState_teWaka (alloc : StateDB) (committee : List CommitteeMember) :
    ∃ t, (toBlockState alloc committee).teWaka = some t ∧
      t.pledgeInfos = committee.map CommitteeMember.pledge := by
  refine ⟨_, rfl, ?_⟩
  rw [foldl_committeeStep_pledgeInfos]
  rfl

end Classzz
