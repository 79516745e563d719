import Classzz.Vm.TeWaka.RunStaking
import Classzz.Lib.Run

/-!
# The Te Waka state along a run of the node

A node keeps the journaled state and, beside it, the record store on disk.
Three kinds of event touch them: a call of the precompile, the `ShiftItems`
of the ethash `Finalize` at the end of every block, and any other
transaction, which changes balances and nonces and does not write the Te
Waka slot. A call that fails is reverted; a panic stops the node, so the
run ends. Each step emits the call it ran successfully, so a run's trace is
the list of successful calls.

A successful call changes the registry in one of three ways
(`runStaking_registry`): its pledges stay, or `Update` rewrites one, or
`mortgage` appends one from an address and to a destination that have
none. In every way the used items only grow. From these, a burn key, an
asset type with a hash, is paid out at most once (`convertKeys_nodup`).
Nothing ties the key's asset type to the burn, though: the same hash is
paid out again under another asset type.
-/

namespace Classzz.Vm

open Run

/-- The used items of the registry in a state; none without a registry. -/
def StateDB.usedItems (s : StateDB) : List UsedItem :=
  (s.teWaka.map TeWakaImpl.usedItems).getD []

theorem StateDB.usedItems_of_teWaka {s : StateDB} {t : TeWakaImpl} (h : s.teWaka = some t) :
    s.usedItems = t.usedItems := by
  simp [StateDB.usedItems, h]

section Registry

/-- What a successful call does to the registry it loaded. -/
theorem runStaking_registry {env : Env} {ctx : CallContext} {call : StakingCall}
    {s s' : StateDB} {db : RecordStore} (h : runStaking env ctx call s db = .ok s') :
    ∃ t t', s.teWaka = some t ∧ s'.teWaka = some t' ∧ t.usedItems ⊆ t'.usedItems ∧
      (t'.pledgeInfos = t.pledgeInfos ∨
        (∃ address cba, t.update address cba = some t') ∨
        (∃ p : Pledge, t.getStakeUser p.address = none ∧
          t.getStakeToAddress p.toAddress = none ∧ t'.pledgeInfos = t.pledgeInfos ++ [p])) := by
  rcases stakingMethod_eq_ok (revertOnError_eq_ok.mp h) with
    ⟨args, -, hm⟩ | ⟨args, -, hm⟩ | ⟨args, -, hm⟩ | ⟨args, -, hm⟩ | ⟨args, -, hm⟩
  case inl =>
    obtain ⟨t, hload, -, -, -, huser, hto, -, -, rfl⟩ := mortgage_eq_ok hm
    exact ⟨t, _, hload, rfl, fun v hv => hv, .inr (.inr ⟨_, huser, hto, rfl⟩)⟩
  case inr.inl =>
    obtain ⟨t, item, s₁, hload, -, hstake, hsave⟩ := update_eq_ok hm
    -- the top-up moves balances only
    have hs₁ : s₁.teWaka = s.teWaka := by
      rcases updateStake_eq_ok hstake with ⟨-, rfl⟩ | ⟨-, -, rfl⟩ <;> rfl
    rcases hsave with rfl | ⟨t', hupd, rfl⟩
    · exact ⟨t, t, hload, hs₁.trans hload, fun v hv => hv, .inl rfl⟩
    · refine ⟨t, t', hload, rfl, ?_, .inr (.inl ⟨_, _, hupd⟩)⟩
      rw [TeWakaImpl.update_usedItems hupd]
      exact fun v hv => hv
  case inr.inr.inl =>
    obtain ⟨t, item, hload, -, -, hpay⟩ := convert_eq_ok hm
    obtain ⟨dest, twi, htwi, rfl⟩ := convertPayout_eq_ok hpay
    have hpledges : twi.pledgeInfos = t.pledgeInfos := by
      rcases htwi with rfl | ⟨it, rfl⟩ <;> rfl
    have hused : twi.usedItems = t.usedItems := by
      rcases htwi with rfl | ⟨it, rfl⟩ <;> rfl
    refine ⟨t, _, hload, rfl, ?_, .inl (by simpa using hpledges)⟩
    intro v hv
    exact (TeWakaImpl.mem_setItem_usedItems _ _ v).mpr (.inr (hused ▸ hv))
  case inr.inr.inr.inl =>
    obtain ⟨t, item, hload, -, -, rfl⟩ := confirm_eq_ok hm
    refine ⟨t, _, hload, rfl, ?_, .inl (by simp)⟩
    intro v hv
    exact (TeWakaImpl.mem_setItem_usedItems _ _ v).mpr (.inr hv)
  case inr.inr.inr.inr =>
    obtain ⟨t, hload, -, rfl⟩ := casting_eq_ok hm
    exact ⟨t, _, hload, rfl, fun v hv => hv, .inl rfl⟩

/-- The key a `convert` call consumes. -/
def ConvertArgs.key (args : ConvertArgs) : UsedItem :=
  ⟨toUint8 args.assetType, hexToHash args.txHash⟩

/-- The key a `confirm` call consumes. -/
def ConfirmArgs.key (args : ConfirmArgs) : UsedItem :=
  ⟨toUint8 args.convertType, hexToHash args.txHash⟩

/-- The key a call consumes: the burn of a `convert`, the mint of a `confirm`. -/
def StakingCall.key : StakingCall → Option UsedItem
  | .convert args => some args.key
  | .confirm args => some args.key
  | _ => none

/-- A method that found its key unused and saved the registry with it set
found it free and leaves it used. -/
theorem key_free_then_used {s s' : StateDB} {t t' : TeWakaImpl} {db : RecordStore}
    {k : UsedItem} (hload : s.teWaka = some t) (hfree : t.hasItem k db = false)
    (hsaved : s'.teWaka = some (t'.setItem k)) :
    k ∉ s.usedItems ∧ recordKey k ∉ db ∧ k ∈ s'.usedItems := by
  obtain ⟨hnotused, hnotdb⟩ := (TeWakaImpl.hasItem_eq_false_iff _ _ _).mp hfree
  refine ⟨?_, hnotdb, ?_⟩
  · rw [StateDB.usedItems_of_teWaka hload]
    exact hnotused
  · rw [StateDB.usedItems_of_teWaka hsaved]
    exact (TeWakaImpl.mem_setItem_usedItems _ _ _).mpr (.inl rfl)

/-- A successful `convert` found its key unused, in the registry and on disk,
and leaves it used. -/
theorem runStaking_convert_key {env : Env} {ctx : CallContext} {args : ConvertArgs}
    {s s' : StateDB} {db : RecordStore}
    (h : runStaking env ctx (.convert args) s db = .ok s') :
    args.key ∉ s.usedItems ∧ recordKey args.key ∉ db ∧ args.key ∈ s'.usedItems := by
  have hm : convert env args s db = .ok s' := by
    have h' := revertOnError_eq_ok.mp h
    simp only [stakingMethod] at h'
    split_ifs at h'
    exact h'
  obtain ⟨t, item, hload, hfree, -, hpay⟩ := convert_eq_ok hm
  obtain ⟨dest, twi, -, rfl⟩ := convertPayout_eq_ok hpay
  exact key_free_then_used hload hfree (StateDB.save_teWaka _ _)

/-- A successful `confirm` found its key unused, in the registry and on disk,
and leaves it used. -/
theorem runStaking_confirm_key {env : Env} {ctx : CallContext} {args : ConfirmArgs}
    {s s' : StateDB} {db : RecordStore}
    (h : runStaking env ctx (.confirm args) s db = .ok s') :
    args.key ∉ s.usedItems ∧ recordKey args.key ∉ db ∧ args.key ∈ s'.usedItems := by
  have hm : confirm env ctx args s db = .ok s' := by
    have h' := revertOnError_eq_ok.mp h
    simp only [stakingMethod] at h'
    split_ifs at h'
    exact h'
  obtain ⟨t, item, hload, hfree, -, rfl⟩ := confirm_eq_ok hm
  exact key_free_then_used hload hfree (StateDB.save_teWaka _ _)

end Registry

/-- The node's state: the journaled state and the record store on disk. -/
structure World where
  state : StateDB
  db : RecordStore

/-- What the node does that touches the Te Waka state. -/
inductive Event where
  /-- A call of the precompile. -/
  | call (ctx : CallContext) (call : StakingCall)
  /-- `ShiftItems` at the end of the block of that height. -/
  | shift (height : ℕ)
  /-- Any other transaction: new balances and nonces. -/
  | external (balance : Address → ℤ) (nonce : Address → ℕ)

namespace World

/-- One event, with the call it ran successfully. -/
def step (env : Env) (w : World) : Event → Option (World × List StakingCall)
  | .call ctx call =>
      match runStaking env ctx call w.state w.db with
      | .ok s => some ({ w with state := s }, [call])
      | .error (.error _) => some (w, [])
      | .error (.panic _) => none
  | .shift height =>
      let r := shiftItems w.state w.db height
      some (⟨r.1, r.2⟩, [])
  | .external balance nonce =>
      some ({ w with state := { w.state with balance := balance, nonce := nonce } }, [])

/-- What a step can do: run a call that succeeds and emit it; or leave the
registry and the store, or end an epoch, and emit nothing. -/
theorem step_cases {env : Env} {w w' : World} {e : Event} {out : List StakingCall}
    (h : step env w e = some (w', out)) :
    (∃ ctx call, out = [call] ∧ runStaking env ctx call w.state w.db = .ok w'.state ∧
        w'.db = w.db) ∨
      (out = [] ∧ w'.state.teWaka = w.state.teWaka ∧ w'.db = w.db) ∨
      (out = [] ∧ ∃ height, (w'.state, w'.db) = shiftItems w.state w.db height) := by
  cases e with
  | call ctx call =>
      simp only [step] at h
      split at h
      · cases h
        exact .inl ⟨ctx, call, rfl, ‹_›, rfl⟩
      · cases h
        exact .inr (.inl ⟨rfl, rfl, rfl⟩)
      · cases h
  | shift height =>
      cases h
      exact .inr (.inr ⟨rfl, height, rfl⟩)
  | external balance nonce =>
      cases h
      exact .inr (.inl ⟨rfl, rfl, rfl⟩)

/-- An item the node refuses from now on: used in the epoch, or on disk. -/
def Consumed (w : World) (item : UsedItem) : Prop :=
  item ∈ w.state.usedItems ∨ recordKey item ∈ w.db

/-- `ShiftItems` moves the epoch's items to disk and keeps what was on disk. -/
theorem shiftItems_consumed {s : StateDB} {db : RecordStore} {height : ℕ}
    {item : UsedItem} (h : item ∈ s.usedItems ∨ recordKey item ∈ db) :
    item ∈ (shiftItems s db height).1.usedItems ∨ recordKey item ∈ (shiftItems s db height).2 := by
  unfold shiftItems
  split_ifs
  · right
    dsimp only
    rw [TeWakaImpl.keepItemsByEpoch_records, TeWakaImpl.mem_dumpUsedItems]
    rcases h with h | h
    · -- an epoch with no registry has no items
      right
      refine ⟨item, ?_, rfl⟩
      cases ht : s.teWaka with
      | none => simp [StateDB.usedItems, ht] at h
      | some t => simpa [shiftRegistry, StateDB.usedItems, ht] using h
    · exact .inl h
  · exact h

/-- Every step keeps every consumed item consumed. -/
theorem step_consumed {env : Env} {w w' : World} {e : Event} {out : List StakingCall}
    (h : step env w e = some (w', out)) {item : UsedItem} (hc : w.Consumed item) :
    w'.Consumed item := by
  rcases step_cases h with ⟨ctx, call, -, hrun, hdb⟩ | ⟨-, hreg, hdb⟩ | ⟨-, height, hshift⟩
  · obtain ⟨t, t', hload, hload', hsub, -⟩ := runStaking_registry hrun
    unfold Consumed
    rw [hdb, StateDB.usedItems_of_teWaka hload']
    rw [Consumed, StateDB.usedItems_of_teWaka hload] at hc
    exact hc.imp (fun hv => hsub hv) id
  · unfold Consumed StateDB.usedItems
    rw [hreg, hdb]
    exact hc
  · have hw' : w' = ⟨(shiftItems w.state w.db height).1, (shiftItems w.state w.db height).2⟩ := by
      rw [← hshift]
    rw [hw']
    exact shiftItems_consumed hc

/-- The keys of the `convert` calls of a trace. -/
def convertKeys (tr : List StakingCall) : List UsedItem :=
  tr.filterMap fun
    | .convert args => some args.key
    | _ => none

/-- A successful step consumed the key of its call: free before it, consumed
after it. -/
theorem step_keys {env : Env} {w w' : World} {e : Event} {out : List StakingCall}
    (h : step env w e = some (w', out)) :
    ∀ k ∈ out.filterMap StakingCall.key, ¬ w.Consumed k ∧ w'.Consumed k := by
  rcases step_cases h with ⟨ctx, call, rfl, hrun, -⟩ | ⟨rfl, -⟩ | ⟨rfl, -⟩
  · -- the methods with a key check it free and set it
    have hkey : ∀ k, call.key = some k → ¬ w.Consumed k ∧ w'.Consumed k := by
      intro k hk
      cases call with
      | convert args =>
          cases hk
          obtain ⟨hfree, hnotdb, hused⟩ := runStaking_convert_key hrun
          exact ⟨fun hc => hc.elim hfree hnotdb, .inl hused⟩
      | confirm args =>
          cases hk
          obtain ⟨hfree, hnotdb, hused⟩ := runStaking_confirm_key hrun
          exact ⟨fun hc => hc.elim hfree hnotdb, .inl hused⟩
      | _ => cases hk
    intro k hk
    obtain ⟨c, hc, hck⟩ := List.mem_filterMap.mp hk
    rw [List.mem_singleton] at hc
    subst hc
    exact hkey k hck
  · simp
  · simp

/-- Over any run, the keys consumed by any choice of its calls are distinct
and all consumed at the end: no key is consumed twice, whatever the events
between. -/
theorem keys_nodup_run (key : StakingCall → Option UsedItem)
    (hkey : ∀ c k, key c = some k → c.key = some k) {env : Env} {w w' : World}
    {es : List Event} {tr : List StakingCall} (h : runTrace (step env) w es = some (w', tr)) :
    (tr.filterMap key).Nodup ∧ ∀ k ∈ tr.filterMap key, w'.Consumed k := by
  refine runTrace_invariant
    (fun w tr => (tr.filterMap key).Nodup ∧ ∀ k ∈ tr.filterMap key, w.Consumed k) ?_
    ⟨List.nodup_nil, by simp⟩ h
  rintro w tr e w' out ⟨hnodup, hcons⟩ hstep
  have hfresh : ∀ k ∈ out.filterMap key, ¬ w.Consumed k ∧ w'.Consumed k := by
    intro k hk
    obtain ⟨c, hc, hck⟩ := List.mem_filterMap.mp hk
    exact step_keys hstep k (List.mem_filterMap.mpr ⟨c, hc, hkey c k hck⟩)
  -- a key of `out` is new to `w`, where every earlier key is consumed
  have hdisj : ∀ k ∈ tr.filterMap key, k ∉ out.filterMap key :=
    fun k hk hk' => (hfresh k hk').1 (hcons k hk)
  have hout : (out.filterMap key).Nodup := by
    rcases step_cases hstep with ⟨ctx, call, rfl, -⟩ | ⟨rfl, -⟩ | ⟨rfl, -⟩
    · cases hk : key call <;> simp [hk]
    · exact List.nodup_nil
    · exact List.nodup_nil
  refine ⟨?_, ?_⟩
  · rw [List.filterMap_append]
    exact List.nodup_append.mpr ⟨hnodup, hout, fun a ha b hb hab => hdisj a ha (hab ▸ hb)⟩
  · intro k hk
    rw [List.filterMap_append, List.mem_append] at hk
    rcases hk with hk | hk
    · exact step_consumed hstep (hcons k hk)
    · exact (hfresh k hk).2

/-- What a run keeps: its `convert` keys are distinct, and all consumed. -/
def ReplayInvariant (w : World) (tr : List StakingCall) : Prop :=
  (convertKeys tr).Nodup ∧ ∀ k ∈ convertKeys tr, w.Consumed k

/-- No key is paid out twice in any run, whatever the events between. -/
theorem convertKeys_nodup {env : Env} {w w' : World} {es : List Event}
    {tr : List StakingCall} (h : runTrace (step env) w es = some (w', tr)) :
    (convertKeys tr).Nodup := by
  have hinv : ReplayInvariant w' tr := by
    refine keys_nodup_run _ ?_ h
    -- the key of a `convert` is its key as a call; the other calls have none here
    intro c k hk
    cases c <;> first | exact hk | cases hk
  exact hinv.1

/-- The same burn hash paid out twice: once under the asset type 8 and once
under 9, which no pool lookup and no destination check covers. -/
theorem convert_pays_burn_twice :
    (runTrace (step sampleEnv) ⟨sampleState, []⟩
      [.call ⟨sampleCaller, 1⟩ (.convert ⟨8, "0x01"⟩),
        .call ⟨sampleCaller, 1⟩ (.convert ⟨9, "0x01"⟩)]).map Prod.snd =
      some [.convert ⟨8, "0x01"⟩, .convert ⟨9, "0x01"⟩] := by
  decide

end World

end Classzz.Vm
