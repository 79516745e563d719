import Classzz.Vm.TeWaka.Chain
import Classzz.Core.Genesis

/-!
# The pledges of the registry

`mortgage` refuses a caller that already has a pledge and a destination that
already receives one, `Update` rewrites a coinbase list in place, and no
other method or `ShiftItems` touches the pledges. So from a genesis whose
committee has distinct coinbases and distinct stake bases, every reachable
registry has distinct pledge addresses and distinct destinations, and
`GetStakeUser` and `GetStakeToAddress` find every pledge by its key.

The destination range check of `mortgage` does not hold its promise:
`big.Int.Cmp` is never above one, so the check rejects nothing, and a pledge
to any destination is accepted.
-/

namespace Classzz.Vm

open Run

/-- No two pledges share an address, and no two a destination. -/
structure TeWakaImpl.PledgesDistinct (t : TeWakaImpl) : Prop where
  addresses : (t.pledgeInfos.map Pledge.address).Nodup
  toAddresses : (t.pledgeInfos.map Pledge.toAddress).Nodup

/-- The registry of a state, if any, has distinct pledge keys. -/
def StateDB.PledgesDistinct (s : StateDB) : Prop :=
  ∀ t, s.teWaka = some t → t.PledgesDistinct

namespace TeWakaImpl.PledgesDistinct

variable {t t' : TeWakaImpl}

theorem of_pledgeInfos_eq (hd : t.PledgesDistinct) (h : t'.pledgeInfos = t.pledgeInfos) :
    t'.PledgesDistinct :=
  ⟨h ▸ hd.addresses, h ▸ hd.toAddresses⟩

theorem update (hd : t.PledgesDistinct) {address : Address} {cba : List Address}
    (h : t.update address cba = some t') : t'.PledgesDistinct := by
  obtain ⟨haddr, hto⟩ := update_pledgeInfos_map h
  exact ⟨haddr ▸ hd.addresses, hto ▸ hd.toAddresses⟩

/-- A pledge whose address and destination the registry does not know keeps
the keys distinct. -/
theorem append (hd : t.PledgesDistinct) {p : Pledge}
    (huser : t.getStakeUser p.address = none) (hto : t.getStakeToAddress p.toAddress = none)
    (h : t'.pledgeInfos = t.pledgeInfos ++ [p]) : t'.PledgesDistinct := by
  have haddr : p.address ∉ t.pledgeInfos.map Pledge.address :=
    (getStakeUser_eq_none_iff t p.address).mp huser
  have hdest : p.toAddress ∉ t.pledgeInfos.map Pledge.toAddress :=
    (getStakeToAddress_eq_none_iff t p.toAddress).mp hto
  constructor
  · rw [h, List.map_append, List.map_singleton, ← List.concat_eq_append]
    exact hd.addresses.concat haddr
  · rw [h, List.map_append, List.map_singleton, ← List.concat_eq_append]
    exact hd.toAddresses.concat hdest

theorem empty : TeWakaImpl.empty.PledgesDistinct :=
  ⟨List.nodup_nil, List.nodup_nil⟩

end TeWakaImpl.PledgesDistinct

theorem runStaking_pledgesDistinct {env : Env} {ctx : CallContext} {call : StakingCall}
    {s s' : StateDB} {db : RecordStore} (h : runStaking env ctx call s db = .ok s')
    (hd : s.PledgesDistinct) : s'.PledgesDistinct := by
  obtain ⟨t, t', hload, hload', -, hmove⟩ := runStaking_registry h
  intro u hu
  rw [hload'] at hu
  cases hu
  have ht := hd t hload
  rcases hmove with hsame | ⟨address, cba, hupd⟩ | ⟨p, huser, hto, happ⟩
  · exact ht.of_pledgeInfos_eq hsame
  · exact ht.update hupd
  · exact ht.append huser hto happ

theorem shiftItems_pledgesDistinct {s : StateDB} {db : RecordStore} {height : ℕ}
    (hd : s.PledgesDistinct) : (shiftItems s db height).1.PledgesDistinct := by
  -- the registry `ShiftItems` saves has the pledges of the one it found, or none
  have hreg : (shiftRegistry s).PledgesDistinct := by
    cases hs : s.teWaka with
    | none => simpa [shiftRegistry, hs] using TeWakaImpl.PledgesDistinct.empty
    | some t => simpa [shiftRegistry, hs] using hd t hs
  unfold shiftItems
  split_ifs
  · intro u hu
    cases hu
    exact hreg.of_pledgeInfos_eq (TeWakaImpl.keepItemsByEpoch_pledgeInfos _ _)
  · exact hd

theorem World.step_pledgesDistinct {env : Env} {w w' : World} {e : Event}
    {out : List StakingCall} (h : World.step env w e = some (w', out))
    (hd : w.state.PledgesDistinct) : w'.state.PledgesDistinct := by
  rcases World.step_cases h with ⟨ctx, call, -, hrun, -⟩ | ⟨-, hreg, -⟩ | ⟨-, height, hshift⟩
  · exact runStaking_pledgesDistinct hrun hd
  · intro t ht
    exact hd t (hreg ▸ ht)
  · have hstate : w'.state = (shiftItems w.state w.db height).1 := by
      rw [← hshift]
    rw [hstate]
    exact shiftItems_pledgesDistinct hd

/-- A committee with distinct coinbases and distinct stake bases gives a
genesis registry with distinct keys. -/
theorem toBlockState_pledgesDistinct {alloc : StateDB} {committee : List CommitteeMember}
    (hcoinbase : (committee.map CommitteeMember.coinbase).Nodup)
    (hstake : (committee.map CommitteeMember.stakeBase).Nodup) :
    (toBlockState alloc committee).PledgesDistinct := by
  obtain ⟨t, hload, hpledges⟩ := toBlockState_teWaka alloc committee
  intro u hu
  rw [hload] at hu
  cases hu
  constructor
  · rw [hpledges, List.map_map]
    exact hcoinbase
  · rw [hpledges, List.map_map]
    exact hstake

/-- From a genesis committee with distinct coinbases and distinct stake bases,
every registry a run reaches has distinct pledge addresses and distinct
destinations, and `GetStakeUser` and `GetStakeToAddress` find every pledge
by its key. -/
theorem pledges_distinct_of_genesis {env : Env} {alloc : StateDB}
    {committee : List CommitteeMember}
    (hcoinbase : (committee.map CommitteeMember.coinbase).Nodup)
    (hstake : (committee.map CommitteeMember.stakeBase).Nodup)
    {db : RecordStore} {es : List Event} {w : World} {tr : List StakingCall}
    (h : runTrace (World.step env) ⟨toBlockState alloc committee, db⟩ es = some (w, tr)) :
    ∀ t, w.state.teWaka = some t → t.PledgesDistinct ∧
      ∀ p ∈ t.pledgeInfos,
        t.getStakeUser p.address = some p ∧ t.getStakeToAddress p.toAddress = some p := by
  have hinv : w.state.PledgesDistinct := by
    refine runTrace_invariant (fun w _ => w.state.PledgesDistinct) ?_
      (toBlockState_pledgesDistinct hcoinbase hstake) h
    intro w tr e w' out hd hstep
    exact World.step_pledgesDistinct hstep hd
  intro t ht
  have hd := hinv t ht
  exact ⟨hd, fun p hp =>
    ⟨TeWakaImpl.getStakeUser_of_mem hd.addresses hp,
      TeWakaImpl.getStakeToAddress_of_mem hd.toAddresses hp⟩⟩

/-- A committee of two with distinct keys. -/
def sampleCommittee : List CommitteeMember :=
  [⟨0x10, 0x110, [2], 0, []⟩, ⟨0x20, 0x120, [3], 0, []⟩]

/-- From the sample genesis the sample caller pledges the minimum stake to `300` and then
replaces its coinbases: both calls succeed, and the registry they leave has distinct keys. -/
theorem pledges_distinct_of_genesis_mortgage_update :
    let events : List Event :=
      [.call ⟨sampleCaller, 1⟩ (.mortgage ⟨[2], 300, mimStakingAmount, []⟩),
        .call ⟨sampleCaller, 1⟩ (.update ⟨0, [0x42]⟩)]
    (sampleCommittee.map CommitteeMember.coinbase).Nodup ∧
      (sampleCommittee.map CommitteeMember.stakeBase).Nodup ∧
      ∃ w, runTrace (World.step sampleEnv) ⟨toBlockState sampleState sampleCommittee, []⟩ events =
          some (w, [.mortgage ⟨[2], 300, mimStakingAmount, []⟩, .update ⟨0, [0x42]⟩]) ∧
        ∀ t, w.state.teWaka = some t → t.PledgesDistinct ∧ ∀ p ∈ t.pledgeInfos,
          t.getStakeUser p.address = some p ∧ t.getStakeToAddress p.toAddress = some p := by
  intro events
  have hcoinbase : (sampleCommittee.map CommitteeMember.coinbase).Nodup := by decide
  have hstake : (sampleCommittee.map CommitteeMember.stakeBase).Nodup := by decide
  -- the run, evaluated: both calls go through
  have hrun : (runTrace (World.step sampleEnv) ⟨toBlockState sampleState sampleCommittee, []⟩
      events).map Prod.snd =
      some [.mortgage ⟨[2], 300, mimStakingAmount, []⟩, .update ⟨0, [0x42]⟩] := by
    decide +kernel
  obtain ⟨⟨w, tr⟩, hw, rfl⟩ := Option.map_eq_some_iff.mp hrun
  exact ⟨hcoinbase, hstake, w, hw, pledges_distinct_of_genesis hcoinbase hstake hw⟩

/-- `big.Int.Cmp` is never above one, so the range check of `mortgage`
rejects no destination. -/
theorem mortgageToAddressOutOfRange_eq_false (n : ℕ) :
    mortgageToAddressOutOfRange n = false := by
  have hcmp : ¬ cmp n mortgageToMax > 1 := not_lt.mpr (cmp_le_one n mortgageToMax)
  simp [mortgageToAddressOutOfRange, hcmp]

/-- A pledge to the zero address, far below `MortgageToMin`, is accepted. -/
theorem mortgage_pledges_destination_zero :
    mortgage sampleEnv ⟨sampleCaller, 1⟩ ⟨[2], 0, mimStakingAmount, []⟩ sampleState =
      .ok (((sampleState.save (TeWakaImpl.empty.mortgage sampleCaller 0 [2] mimStakingAmount
        [])).subBalance sampleCaller mimStakingAmount).addBalance 0 mimStakingAmount) ∧
      (0 : Address).val < mortgageToMin := by
  refine ⟨rfl, ?_⟩
  decide

/-! ### The stake of a pledge

`mortgage` records the stake it moves as the pledge's `StakingAmount`, which
`GetStakingByUser` sums for the mining factor. `update` moves more stake to
the same destination and records none of it; and with more than 16 coinbases
it returns success before it saves the new list. -/

/-- `update` moves the stake it is given from the caller to the destination of
the caller's pledge and records none of it: the pledge keeps its
`StakingAmount`. With more than 16 coinbases it reports success and leaves the
registry as it was. -/
theorem update_moves_unrecorded_stake {ctx : CallContext} {args : UpdateArgs}
    {s s' : StateDB} {t : TeWakaImpl} {p : Pledge} (hload : s.teWaka = some t)
    (huser : t.getStakeUser ctx.caller = some p) (hto : p.toAddress ≠ ctx.caller)
    (h : update ctx args s = .ok s') :
    (∃ t' p', s'.teWaka = some t' ∧ t'.getStakeUser ctx.caller = some p' ∧
        p'.stakingAmount = p.stakingAmount ∧ p'.toAddress = p.toAddress) ∧
      s'.getBalance p.toAddress = s.getBalance p.toAddress + args.stakingAmount ∧
      (16 < args.coinBaseAddress.length → s'.teWaka = s.teWaka) := by
  obtain ⟨t₀, item, s₁, hload₀, huser₀, hstake, hsave⟩ := update_eq_ok h
  obtain rfl : t₀ = t := Option.some.inj (hload₀.symm.trans hload)
  obtain rfl : item = p := Option.some.inj (huser₀.symm.trans huser)
  -- the top-up moves balances only, the stake to the pledge's destination
  have hs₁ : s₁.teWaka = s.teWaka := by
    rcases updateStake_eq_ok hstake with ⟨-, rfl⟩ | ⟨-, -, rfl⟩ <;> rfl
  have hbal : s₁.getBalance item.toAddress =
      s.getBalance item.toAddress + args.stakingAmount := by
    rcases updateStake_eq_ok hstake with ⟨h0, rfl⟩ | ⟨-, -, rfl⟩
    · simp [h0]
    · simp [StateDB.getBalance, StateDB.addBalance, StateDB.subBalance, hto]
  refine ⟨?_, ?_, fun hlen => ?_⟩
  · rcases hsave with rfl | ⟨t', hupd, rfl⟩
    · exact ⟨t₀, item, hs₁.trans hload, huser, rfl, rfl⟩
    · -- the new coinbase list is the only change to the pledge
      refine ⟨t', { item with coinBaseAddress := args.coinBaseAddress }, rfl, ?_, rfl, rfl⟩
      rw [TeWakaImpl.getStakeUser_update hupd, huser]
      rfl
  · rcases hsave with rfl | ⟨t', -, rfl⟩
    · exact hbal
    · exact hbal
  · -- with more than 16 coinbases `update` returns before it saves
    have hl : s.load = .ok t₀ := StateDB.load_eq_ok.mpr hload
    simp only [update, hl, Except.ok_bind, huser, hstake, hlen, if_true] at h
    cases Except.pure_eq_ok.mp h
    exact hs₁

/-- The sample state after the pledge, with the pledger holding another
minimum stake. -/
def sampleRestaked : StateDB :=
  sampleMortgaged.addBalance sampleCaller mimStakingAmount

/-- The registry of `sampleRestaked`. -/
def sampleRestakedRegistry : TeWakaImpl :=
  TeWakaImpl.empty.mortgage sampleCaller 300 [2] mimStakingAmount []

/-- An `update` with another minimum stake and 17 coinbases succeeds: the
stake reaches the destination, the pledge still records one minimum stake,
and the coinbase list is not applied. -/
theorem update_moves_unrecorded_stake_restake :
    sampleRestaked.teWaka = some sampleRestakedRegistry ∧
      sampleRestakedRegistry.getStakeUser sampleCaller =
        some ⟨sampleCaller, [2], 300, mimStakingAmount, []⟩ ∧
      (300 : Address) ≠ sampleCaller ∧
      update ⟨sampleCaller, 1⟩ ⟨mimStakingAmount, List.replicate 17 0⟩ sampleRestaked =
        .ok ((sampleRestaked.subBalance sampleCaller mimStakingAmount).addBalance 300
          mimStakingAmount) ∧
      ((∃ t' p', ((sampleRestaked.subBalance sampleCaller mimStakingAmount).addBalance 300
            mimStakingAmount).teWaka = some t' ∧
          t'.getStakeUser sampleCaller = some p' ∧ p'.stakingAmount = mimStakingAmount ∧
          p'.toAddress = 300) ∧
        ((sampleRestaked.subBalance sampleCaller mimStakingAmount).addBalance 300
            mimStakingAmount).getBalance 300 =
          sampleRestaked.getBalance 300 + mimStakingAmount ∧
        (16 < (List.replicate 17 (0 : Address)).length →
          ((sampleRestaked.subBalance sampleCaller mimStakingAmount).addBalance 300
            mimStakingAmount).teWaka = sampleRestaked.teWaka)) := by
  have hload : sampleRestaked.teWaka = some sampleRestakedRegistry := rfl
  have huser : sampleRestakedRegistry.getStakeUser sampleCaller =
      some ⟨sampleCaller, [2], 300, mimStakingAmount, []⟩ := by decide
  have hto : (300 : Address) ≠ sampleCaller := by decide
  have hupdate : update ⟨sampleCaller, 1⟩ ⟨mimStakingAmount, List.replicate 17 0⟩ sampleRestaked =
      .ok ((sampleRestaked.subBalance sampleCaller mimStakingAmount).addBalance 300
        mimStakingAmount) := rfl
  exact ⟨hload, huser, hto, hupdate, update_moves_unrecorded_stake hload huser hto hupdate⟩

end Classzz.Vm
