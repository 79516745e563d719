import Classzz.Core.StateTransition
import Classzz.Core.Genesis
import Classzz.Lib.Run

/-!
# Blocks: transactions, their commits and the end of a block

`StateProcessor.Process` applies a block's transactions one after the other
with `applyTransaction`, which runs `TransitionDb` and then `Finalise(true)`;
`Ethash.Finalize` then moves balances (the rewards, the pools of `CIP_4` and
`CIP_5`), sets the Te Waka account up if its registry slot is empty
(`OnceInitImpawnState`), saves the shifted registry (`ShiftItems`) and takes
`IntermediateRoot(true)`. Other callers commit a transaction with
`IntermediateRoot`, or do not delete empty objects; a node here may commit
each transaction either way.

`Genesis.ToBlock` sets the Te Waka account up, so it starts live: it has a
nonce and code and has not self-destructed. Every step of a node keeps it
live (`teWakaLive_nodeStep`), and from a live state a transaction and its
commit change the account only by the saves of the frames that were not
reverted.
-/

namespace Classzz.Core

open State Evm
open Vm (teWaKaAddress)

/-! ### `OnceInitImpawnState` and the genesis state -/

/-- What `makeImpawInitState` writes: the encoding of `NewTeWakaImpl()` and
the hash of the code `TeWaKaAddress[:]`, RLP and Keccak images that are
taken as given. -/
structure ImpawnInit where
  registry : Bytes
  codeHash : Hash

/-- `makeImpawInitState`: an empty registry slot gets the empty registry,
and the account the nonce one and its code. -/
def makeImpawInitState (init : ImpawnInit) (s : StateDB) : StateDB :=
  match s.getTeWakaState teWaKaAddress teWakaKey with
  | (s, []) =>
      ((s.setTeWakaState teWaKaAddress teWakaKey init.registry).setNonce teWaKaAddress 1).setCode
        teWaKaAddress init.codeHash
  | (s, _) => s

/-- An account of the genesis allocation, with the hash of its code. -/
structure GenesisAccount where
  balance : ℤ
  codeHash : Hash
  nonce : UInt64

/-- One turn of the allocation loop of `ToBlock`. -/
def allocAccount (s : StateDB) (entry : Address × GenesisAccount) : StateDB :=
  ((s.addBalance entry.1 entry.2.balance).setCode entry.1 entry.2.codeHash).setNonce entry.1
    entry.2.nonce

/-- `GenesisLockedBalance`. -/
def genesisLockedBalance (s : StateDB) (fromAddr toAddr : Address) (amount : ℤ) : StateDB :=
  (s.subBalance fromAddr amount).addBalance toAddr amount

/-- The state `ToBlock` commits; `registry` is the encoding of the registry
the committee pledged into, which `toBlockState` computes. -/
def toBlock (init : ImpawnInit) (alloc : List (Address × GenesisAccount))
    (committee : List CommitteeMember) (registry : Bytes) : StateDB :=
  let s := alloc.foldl allocAccount StateDB.new
  let s := makeImpawInitState init s
  let s := committee.foldl
    (fun s member => genesisLockedBalance s member.coinbase member.stakeBase member.amount) s
  (s.setTeWakaState teWaKaAddress teWakaKey registry).intermediateRoot false

/-! ### A node's steps -/

/-- How a transaction's state is committed: `applyTransaction` takes
`Finalise(true)`, other callers `Finalise` or `IntermediateRoot` with either
flag. -/
inductive TxCommit where
  | finalise (deleteEmptyObjects : Bool)
  | intermediateRoot (deleteEmptyObjects : Bool)

def TxCommit.apply : TxCommit → StateDB → StateDB
  | .finalise del, s => s.finalise del
  | .intermediateRoot del, s => s.intermediateRoot del

/-- A state move of `Ethash.Finalize` before its root. -/
inductive BlockEffect where
  -- `accumulateRewards`, and the pools moved at `CIP_4` and `CIP_5`
  | addBalance (a : Address) (amount : ℤ)
  | subBalance (a : Address) (amount : ℤ)
  | onceInitImpawnState
  -- `ShiftItems` at a dump height: `Load`, then `Save` of the shifted registry
  | shiftItems (data : Bytes)

def BlockEffect.apply (init : ImpawnInit) : BlockEffect → StateDB → StateDB
  | .addBalance a amount, s => s.addBalance a amount
  | .subBalance a amount, s => s.subBalance a amount
  | .onceInitImpawnState, s => makeImpawInitState init s
  | .shiftItems data, s =>
      (s.getTeWakaState teWaKaAddress teWakaKey).1.setTeWakaState teWaKaAddress teWakaKey data

/-- `Ethash.Finalize`: its state moves, then `IntermediateRoot(true)`. -/
def finalize (init : ImpawnInit) (effects : List BlockEffect) (s : StateDB) : StateDB :=
  (effects.foldl (fun s e => e.apply init s) s).intermediateRoot true

/-- What a node does next: apply a transaction against a gas pool and commit
it, or end a block. -/
inductive Event where
  | applyTransaction (ctx : BlockContext) (msg : Message) (exe : Execution) (gp : UInt64)
      (commit : TxCommit)
  | finalize (effects : List BlockEffect)

/-- One step of a node. A consensus error makes the block invalid, and the
node does not go on with it. -/
def nodeStep (cfg : Config) (config : ChainConfig) (init : ImpawnInit) :
    StateDB → Event → Option StateDB
  | s, .applyTransaction ctx msg exe gp commit =>
      match transitionDb cfg config ctx msg exe gp s with
      | .ok (s', _, _) => some (commit.apply s')
      | .error _ => none
  | s, .finalize effects => some (finalize init effects s)

/-! ### The account seen through the writes -/

section AccountOrNew

variable {s t : StateDB} {a : Address}

theorem accountOrNew_update {acct : Account} (h : t.view = Function.update s.view a (some acct))
    (b : Address) : t.accountOrNew b = if b = a then acct else s.accountOrNew b := by
  by_cases hb : b = a
  · subst hb
    simp [StateDB.accountOrNew, h]
  · simp [StateDB.accountOrNew, h, hb]

theorem accountOrNew_getOrNewStateObject (b : Address) :
    (s.getOrNewStateObject a).accountOrNew b = s.accountOrNew b := by
  rw [accountOrNew_update (StateDB.view_getOrNewStateObject s a)]
  split_ifs with hb
  · subst hb
    rfl
  · rfl

end AccountOrNew

/-! ### The live account through commits and the set-up -/

/-- A live account is neither self-destructed nor empty, so no commit
deletes it. -/
theorem LiveAccount.keep {o : StateObject} (h : LiveAccount o.account) (del : Bool) :
    (o.suicided || del && o.empty) = false := by
  have hsui : o.suicided = false := h.not_suicided
  have hn : o.nonce ≠ 0 := h.nonce_ne_zero
  have hempty : o.empty = false := by
    simp [StateObject.empty, hn]
  simp [hsui, hempty]

theorem TeWakaLive.getStateObject {s : StateDB} (h : TeWakaLive s) :
    ∃ o, s.getStateObject teWaKaAddress = some o ∧ LiveAccount o.account := by
  obtain ⟨acct, hv, hlive⟩ := h
  obtain ⟨o, ho, rfl⟩ := Option.map_eq_some_iff.mp hv
  exact ⟨o, ho, hlive⟩

/-- Committing a transaction leaves the live account as it is. -/
theorem TeWakaLive.view_commit {s : StateDB} (h : TeWakaLive s) (c : TxCommit) :
    (c.apply s).view teWaKaAddress = s.view teWaKaAddress := by
  obtain ⟨o, ho, hlive⟩ := h.getStateObject
  cases c with
  | finalise del => exact StateDB.view_finalise ho (hlive.keep del)
  | intermediateRoot del => exact StateDB.view_intermediateRoot ho (hlive.keep del)

theorem TeWakaLive.commit {s : StateDB} (h : TeWakaLive s) (c : TxCommit) :
    TeWakaLive (c.apply s) := by
  obtain ⟨acct, hv, hlive⟩ := h
  refine ⟨acct, ?_, hlive⟩
  rw [TeWakaLive.view_commit ⟨acct, hv, hlive⟩ c, hv]

theorem TeWakaLive.getOrNewStateObject {s : StateDB} (h : TeWakaLive s) :
    s.getOrNewStateObject teWaKaAddress = s := by
  obtain ⟨acct, hv, -⟩ := h
  apply StateDB.getOrNewStateObject_of_exist
  simp [StateDB.exist_eq, hv]

theorem makeImpawInitState_eq (init : ImpawnInit) (s : StateDB) :
    makeImpawInitState init s =
      if ((s.accountOrNew teWaKaAddress).teWaka teWakaKey).isEmpty then
        (((s.getOrNewStateObject teWaKaAddress).setTeWakaState teWaKaAddress teWakaKey
          init.registry).setNonce teWaKaAddress 1).setCode teWaKaAddress init.codeHash
      else s.getOrNewStateObject teWaKaAddress := by
  rw [makeImpawInitState, StateDB.getTeWakaState_eq]
  cases (s.accountOrNew teWaKaAddress).teWaka teWakaKey <;> rfl

/-- The set-up leaves a live account: it writes the nonce and the code where
the slot is empty, and otherwise the account must have been live. -/
theorem teWakaLive_makeImpawInitState (init : ImpawnInit) (hcode : hasCode init.codeHash)
    {s : StateDB} (hsui : (s.accountOrNew teWaKaAddress).suicided = false)
    (hlive : ((s.accountOrNew teWaKaAddress).teWaka teWakaKey).isEmpty = false → TeWakaLive s) :
    TeWakaLive (makeImpawInitState init s) := by
  rw [makeImpawInitState_eq]
  split_ifs with hempty
  · -- the three writes, each seen at the account through `accountOrNew`
    set t₁ := (s.getOrNewStateObject teWaKaAddress).setTeWakaState teWaKaAddress teWakaKey
      init.registry
    set t₂ := t₁.setNonce teWaKaAddress 1
    have h₁ : (t₁.accountOrNew teWaKaAddress).suicided = false := by
      rw [accountOrNew_update (StateDB.view_setTeWakaState _ _ _ _), if_pos rfl]
      simpa [accountOrNew_getOrNewStateObject] using hsui
    have h₂ : t₂.accountOrNew teWaKaAddress = { t₁.accountOrNew teWaKaAddress with nonce := 1 } := by
      rw [accountOrNew_update (StateDB.view_setNonce _ _ _), if_pos rfl]
    refine ⟨_, by rw [StateDB.view_setCode, Function.update_self], ?_⟩
    refine ⟨?_, ?_, hcode⟩
    · simp [h₂]
    · simpa [h₂] using h₁
  · rw [(hlive (Bool.not_eq_true _ ▸ hempty)).getOrNewStateObject]
    exact hlive (Bool.not_eq_true _ ▸ hempty)

/-- Before the set-up: the registry slot is empty, and the account, if there
is one, has not self-destructed. -/
def Unset (s : StateDB) : Prop :=
  (s.accountOrNew teWaKaAddress).suicided = false ∧
    (s.accountOrNew teWaKaAddress).teWaka teWakaKey = []

theorem unset_new : Unset StateDB.new :=
  ⟨rfl, rfl⟩

/-- A write that keeps the flag and the slots of the account at `a` keeps
`Unset`. -/
theorem Unset.of_update {s t : StateDB} {a : Address} {acct : Account} (h : Unset s)
    (hview : t.view = Function.update s.view a (some acct))
    (hacct : a = teWaKaAddress → acct.suicided = (s.accountOrNew a).suicided ∧
      acct.teWaka = (s.accountOrNew a).teWaka) : Unset t := by
  rw [Unset, accountOrNew_update hview]
  split_ifs with ha
  · obtain ⟨hsui, hteWaka⟩ := hacct ha.symm
    subst ha
    rw [hsui, hteWaka]
    exact h
  · exact h

theorem Unset.allocAccount {s : StateDB} (h : Unset s) (entry : Address × GenesisAccount) :
    Unset (allocAccount s entry) := by
  have h₁ := h.of_update (StateDB.view_addBalance s entry.1 entry.2.balance)
    fun _ => ⟨rfl, rfl⟩
  have h₂ := h₁.of_update (StateDB.view_setCode _ entry.1 entry.2.codeHash) fun _ => ⟨rfl, rfl⟩
  exact h₂.of_update (StateDB.view_setNonce _ entry.1 entry.2.nonce) fun _ => ⟨rfl, rfl⟩

theorem TeWakaLive.genesisLockedBalance {s : StateDB} (h : TeWakaLive s) (fromAddr toAddr : Address)
    (amount : ℤ) : TeWakaLive (genesisLockedBalance s fromAddr toAddr amount) :=
  (h.of_keeps (keepsTeWaka_subBalance s fromAddr amount)).of_keeps
    (keepsTeWaka_addBalance _ toAddr amount)

theorem TeWakaLive.save {s : StateDB} (h : TeWakaLive s) (data : Bytes) :
    TeWakaLive (s.setTeWakaState teWaKaAddress teWakaKey data) :=
  h.of_keeps (keepsTeWaka_save s data)

/-- The genesis state has the account live. -/
theorem teWakaLive_toBlock (init : ImpawnInit) (hcode : hasCode init.codeHash)
    (alloc : List (Address × GenesisAccount)) (committee : List CommitteeMember)
    (registry : Bytes) : TeWakaLive (toBlock init alloc committee registry) := by
  -- the allocation writes no Te Waka slot and destroys nothing
  have hunset : Unset (alloc.foldl allocAccount StateDB.new) :=
    Run.foldl_invariant Unset (fun s entry h => h.allocAccount entry) alloc unset_new
  have hinit : TeWakaLive (makeImpawInitState init (alloc.foldl allocAccount StateDB.new)) := by
    apply teWakaLive_makeImpawInitState init hcode hunset.1
    intro hne
    simp [hunset.2] at hne
  have hlocked := Run.foldl_invariant TeWakaLive
    (fun s member h => h.genesisLockedBalance member.coinbase member.stakeBase member.amount)
    committee hinit
  exact (hlocked.save registry).commit (.intermediateRoot false)

/-! ### A node keeps the account live -/

section Node

variable (cfg : Config) (config : ChainConfig) (init : ImpawnInit)

theorem TeWakaLive.blockEffect (hcode : hasCode init.codeHash) {s : StateDB} (h : TeWakaLive s) :
    ∀ e : BlockEffect, TeWakaLive (e.apply init s)
  | .addBalance a amount => h.of_keeps (keepsTeWaka_addBalance s a amount)
  | .subBalance a amount => h.of_keeps (keepsTeWaka_subBalance s a amount)
  | .onceInitImpawnState => by
      obtain ⟨acct, hv, hlive⟩ := h
      apply teWakaLive_makeImpawInitState init hcode
      · rw [accountOrNew_of_view s _ hv]
        exact hlive.not_suicided
      · exact fun _ => ⟨acct, hv, hlive⟩
  | .shiftItems data => by
      -- `Load` reads the live account, so it creates nothing
      have hread : (s.getTeWakaState teWaKaAddress teWakaKey).1 = s := by
        rw [StateDB.getTeWakaState_eq]
        exact h.getOrNewStateObject
      simp only [BlockEffect.apply, hread]
      exact h.save data

theorem TeWakaLive.finalize (hcode : hasCode init.codeHash) {s : StateDB} (h : TeWakaLive s)
    (effects : List BlockEffect) : TeWakaLive (finalize init effects s) :=
  (Run.foldl_invariant TeWakaLive (fun _ e h => h.blockEffect init hcode e) effects h).commit
    (.intermediateRoot true)

/-- Every step of a node keeps the account live. -/
theorem teWakaLive_nodeStep (hcode : hasCode init.codeHash) :
    ∀ s e s', TeWakaLive s → nodeStep cfg config init s e = some s' → TeWakaLive s' := by
  intro s e s' h hstep
  cases e with
  | applyTransaction ctx msg exe gp commit =>
      cases htx : transitionDb cfg config ctx msg exe gp s with
      | error err => simp [nodeStep, htx] at hstep
      | ok r =>
          obtain ⟨s₁, gp₁, res⟩ := r
          simp only [nodeStep, htx, Option.some.injEq] at hstep
          subst hstep
          exact (h.of_keeps (keepsTeWaka_transitionDb h htx)).commit commit
  | finalize effects =>
      simp only [nodeStep, Option.some.injEq] at hstep
      subst hstep
      exact h.finalize init hcode effects

/-- Every state a node reaches from genesis has the account live. -/
theorem teWakaLive_run (hcode : hasCode init.codeHash) (alloc : List (Address × GenesisAccount))
    (committee : List CommitteeMember) (registry : Bytes) {events : List Event} {s : StateDB}
    (hrun : Run.run (nodeStep cfg config init) (toBlock init alloc committee registry) events =
      some s) : TeWakaLive s :=
  Run.run_invariant TeWakaLive (teWakaLive_nodeStep cfg config init hcode)
    (teWakaLive_toBlock init hcode alloc committee registry) hrun

end Node

/-- From any state a node reaches, a transaction and its commit, whichever
it is, leave the Te Waka account live, with its nonce, code and flag, and
its slots those before updated by exactly the saves of the frames that were
not reverted. -/
theorem teWaka_changed_only_by_saves (cfg : Config) (config : ChainConfig) (init : ImpawnInit)
    (hcode : hasCode init.codeHash) (alloc : List (Address × GenesisAccount))
    (committee : List CommitteeMember) (registry : Bytes) {events : List Event} {s : StateDB}
    (hrun : Run.run (nodeStep cfg config init) (toBlock init alloc committee registry) events =
      some s)
    {ctx : BlockContext} {msg : Message} {exe : Execution} {gp gp' : UInt64} {s' : StateDB}
    {res : ExecutionResult} (htx : transitionDb cfg config ctx msg exe gp s = .ok (s', gp', res))
    (commit : TxCommit) :
    ∃ acct acct', s.view teWaKaAddress = some acct ∧
      (commit.apply s').view teWaKaAddress = some acct' ∧
      Kept acct acct' res.saves ∧ LiveAccount acct' := by
  have hlive := teWakaLive_run cfg config init hcode alloc committee registry hrun
  have hkeeps := keepsTeWaka_transitionDb hlive htx
  obtain ⟨acct, hv, hacct⟩ := hlive
  obtain ⟨acct', hv', hkept⟩ := hkeeps acct hv hacct.nonce_ne_zero
  have hlive' : TeWakaLive s' := ⟨acct', hv', hacct.of_kept hkept⟩
  refine ⟨acct, acct', hv, ?_, hkept, hacct.of_kept hkept⟩
  rw [hlive'.view_commit commit, hv']

/-- At a genesis with no allocation, after a transaction that calls the contract with no value
and returns without a save, one whose call saves a registry. -/
theorem teWaka_changed_only_by_saves_save :
    ∃ s, Run.run (nodeStep ⟨fun _ _ => 0, fun _ _ _ => 0⟩ mainnetChainConfig ⟨[], 1⟩)
        (toBlock ⟨[], 1⟩ [] [] [])
        [.applyTransaction ⟨0, 0, some 0⟩ ⟨100, some teWaKaAddress, 0, 0, 0, 0, 0, 0, [], []⟩
          ⟨.ret 0, .ok, true, 0, 0⟩ 0 (.finalise true)] = some s ∧
      ∃ s' gp' res, transitionDb ⟨fun _ _ => 0, fun _ _ _ => 0⟩ mainnetChainConfig ⟨0, 0, some 0⟩
          ⟨100, some teWaKaAddress, 1, 0, 0, 0, 0, 0, [], []⟩
          ⟨.ret 0, .save [0x42] .ok, true, 0, 0⟩ 0 s = .ok (s', gp', res) ∧
        res.saves = [[0x42]] ∧
        ∃ acct acct', s.view teWaKaAddress = some acct ∧
          ((TxCommit.finalise true).apply s').view teWaKaAddress = some acct' ∧
          Kept acct acct' res.saves ∧ LiveAccount acct' := by
  -- the block so far: a call to the contract with no value that returns without a save
  have hrun : Run.run (nodeStep ⟨fun _ _ => 0, fun _ _ _ => 0⟩ mainnetChainConfig ⟨[], 1⟩)
      (toBlock ⟨[], 1⟩ [] [] [])
      [.applyTransaction ⟨0, 0, some 0⟩ ⟨100, some teWaKaAddress, 0, 0, 0, 0, 0, 0, [], []⟩
        ⟨.ret 0, .ok, true, 0, 0⟩ 0 (.finalise true)] = some _ := rfl
  refine ⟨_, hrun, ?s', ?gp', ?res, ?htx, ?hsaves,
    teWaka_changed_only_by_saves _ _ ⟨[], 1⟩ (by decide) [] [] [] hrun ?htx (.finalise true)⟩
  case htx => rfl
  case hsaves => rfl

end Classzz.Core
