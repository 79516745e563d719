import Classzz.Trie.MapSemantics
import Classzz.Rlp.Encode
import Classzz.Common.Types

/-!
# Committing an account's storage: the trie and the snapshot diff

`stateObject.updateTrie` with the snapshot tree enabled. `finalise` first moves
the dirty slots into the pending ones. A first loop then writes every pending
slot whose value differs from its origin into the storage trie: a zero value
as a deletion, any other as the RLP string of the value with its leading zeros
trimmed. The same bytes go into `StateDB.snapStorage`, under the account's hash
and the hash of the slot key, and become the next diff layer of the snapshot
at `Commit`. A second loop writes the dirty Te Waka slots into the same trie,
their bytes as they are.

The storage trie is a secure trie: a key is stored under its Keccak-256 hash,
the same hash `crypto.HashData` gives the snapshot. Keccak-256 is a parameter
(`keccak256`) and nothing is assumed of it. Go maps are association lists,
ranged over in their list order; every statement holds for every order.

What a storage read through the snapshot must return is what the trie holds
(`Agrees`): the flat entry of the slot hash, or, where the block wrote none,
what the layer below held. The first loop keeps that agreement
(`updateSlots_agrees`), and so does every run of ordinary writes and commits
over a block (`committed_of_run`). The second loop records nothing in the
snapshot, so a Te Waka slot that `updateTrie` writes into the trie is missing
from the diff layer (`teWaka_commit_unrecorded`).
-/

namespace Classzz.State.UpdateTrie

open Trie

/-- `common.TrimLeftZeroes`. -/
def trimLeftZeroes (s : Bytes) : Bytes :=
  s.dropWhile (· == 0)

/-- The parts of `stateObject` that `updateTrie` reads and writes: the account's
hash, the committed slot values (`originStorage`, zero where absent), the
pending and dirty slots, the dirty Te Waka slots and the storage trie. -/
structure StorageObject where
  addrHash : Hash
  originStorage : Hash → Hash
  pendingStorage : List (Hash × Hash)
  dirtyStorage : List (Hash × Hash)
  dirtyTeWakaStorage : List (Hash × Bytes)
  trie : Trie

/-- `StateDB.snapStorage`: for each account hash, the slot hashes written in the
block with the bytes written; `some []` records a deletion. -/
abbrev SnapStorage := Hash → Hash → Option Bytes

namespace StorageObject

/-- `stateObject.setState`: a map assignment in the dirty slots. -/
def setState (o : StorageObject) (key value : Hash) : StorageObject :=
  { o with dirtyStorage := (key, value) :: o.dirtyStorage.filter (·.1 != key) }

/-- `stateObject.setStateByteArray`, as far as `updateTrie` reads it: a map
assignment in the dirty Te Waka slots. -/
def setStateByteArray (o : StorageObject) (key : Hash) (value : Bytes) : StorageObject :=
  { o with dirtyTeWakaStorage := (key, value) :: o.dirtyTeWakaStorage.filter (·.1 != key) }

/-- `stateObject.finalise` without the prefetch: every dirty slot is assigned in
the pending ones, and the dirty slots are cleared. -/
def finalise (o : StorageObject) : StorageObject :=
  { o with
    pendingStorage := o.dirtyStorage.foldl (fun p slot => slot :: p.filter (·.1 != slot.1))
      o.pendingStorage
    dirtyStorage := [] }

end StorageObject

/-- The bytes `updateTrie` writes for a slot value: none for zero, otherwise the
RLP string of the value with its leading zeros trimmed. -/
def slotBytes (value : Hash) : Bytes :=
  if value = 0 then [] else Rlp.encodeToBytes (.bytes (trimLeftZeroes value.bytes))

variable (keccak256 : Bytes → Hash)

/-- One pending slot of the first loop of `updateTrie`. A slot whose value is its
origin is skipped; any other becomes its origin, is written to the trie (a zero
value as a deletion) and, with snapshots on, is recorded in the account's flat
storage under the hash of its key. -/
def updateSlot (snap : Bool) (acc : StorageObject × SnapStorage) (slot : Hash × Hash) :
    StorageObject × SnapStorage :=
  let (o, snapStorage) := acc
  let (key, value) := slot
  if value = o.originStorage key then acc
  else
    let v := slotBytes value
    let tr := if value = 0 then o.trie.tryDelete (keccak256 key.bytes).bytes
      else o.trie.tryUpdate (keccak256 key.bytes).bytes v
    ({ o with originStorage := Function.update o.originStorage key value, trie := tr },
      if snap then
        Function.update snapStorage o.addrHash
          (Function.update (snapStorage o.addrHash) (keccak256 key.bytes) (some v))
      else snapStorage)

/-- One dirty Te Waka slot of the second loop of `updateTrie`: its bytes go to the
trie as they are, no bytes as a deletion. -/
def updateTeWakaSlot (tr : Trie) (slot : Hash × Bytes) : Trie :=
  if slot.2.length = 0 then tr.tryDelete (keccak256 slot.1.bytes).bytes
  else tr.tryUpdate (keccak256 slot.1.bytes).bytes slot.2

/-- `stateObject.updateTrie` with the object's trie and the state's
`snapStorage`; `snap` says whether the snapshot tree is enabled. -/
def updateTrie (snap : Bool) (o : StorageObject) (snapStorage : SnapStorage) :
    StorageObject × SnapStorage :=
  let o := o.finalise
  if o.pendingStorage.isEmpty && o.dirtyTeWakaStorage.isEmpty then (o, snapStorage)
  else
    let (o', snapStorage') := o.pendingStorage.foldl (updateSlot keccak256 snap) (o, snapStorage)
    ({ o' with
        pendingStorage := []
        dirtyTeWakaStorage := []
        trie := o'.dirtyTeWakaStorage.foldl (updateTeWakaSlot keccak256) o'.trie },
      snapStorage')

/-! ### Reads through the snapshot -/

/-- A storage read through the snapshot returns what the trie holds: at every slot
hash, the block's flat entry, or where the block wrote none what the layer below
holds (`base`, no bytes for an absent slot), is what the trie reads, no bytes
for an absent slot. -/
structure Agrees (base : Hash → Bytes) (t : Trie) (flat : Hash → Option Bytes) : Prop where
  wf : t.root.WF False
  read : ∀ h : Hash, (t.tryGet h.bytes).getD [] = (flat h).getD (base h)

section Agrees

variable {base : Hash → Bytes} {t : Trie} {flat : Hash → Option Bytes}

/-- A trie that the block has not written agrees with an empty diff over itself. -/
theorem agrees_start (hwf : t.root.WF False) :
    Agrees (fun h => (t.tryGet h.bytes).getD []) t fun _ => none :=
  ⟨hwf, fun _ => rfl⟩

/-- What a well-formed trie reads after `TryUpdate`, no bytes for an absent key. -/
theorem read_tryUpdate (hwf : t.root.WF False) (key value key' : Bytes) :
    ((t.tryUpdate key value).tryGet key').getD [] =
      if key' = key then value else (t.tryGet key').getD [] := by
  rw [(Holds.tryUpdate ⟨hwf, fun _ => rfl⟩ key value).get, Function.update_apply]
  split_ifs with hk hv
  · exact hv.symm
  · rfl
  · rfl

theorem read_tryDelete (hwf : t.root.WF False) (key key' : Bytes) :
    ((t.tryDelete key).tryGet key').getD [] = if key' = key then [] else (t.tryGet key').getD [] := by
  rw [(Holds.tryDelete ⟨hwf, fun _ => rfl⟩ key).get, Function.update_apply]
  split_ifs <;> rfl

/-- Writing the same bytes at a slot hash into the trie and into the flat entries
keeps them agreeing; an empty write is a deletion in the trie. -/
theorem Agrees.update (ha : Agrees base t flat) (h : Hash) (v : Bytes) :
    Agrees base (t.tryUpdate h.bytes v) (Function.update flat h (some v)) := by
  refine ⟨(Holds.tryUpdate ⟨ha.wf, fun _ => rfl⟩ h.bytes v).wf, fun h' => ?_⟩
  rw [read_tryUpdate ha.wf, Function.update_apply]
  simp only [Hash.bytes_injective.eq_iff]
  split_ifs
  · rfl
  · exact ha.read h'

theorem Agrees.delete (ha : Agrees base t flat) (h : Hash) :
    Agrees base (t.tryDelete h.bytes) (Function.update flat h (some [])) := by
  refine ⟨(Holds.tryDelete ⟨ha.wf, fun _ => rfl⟩ h.bytes).wf, fun h' => ?_⟩
  rw [read_tryDelete ha.wf, Function.update_apply]
  simp only [Hash.bytes_injective.eq_iff]
  split_ifs
  · rfl
  · exact ha.read h'

end Agrees

/-- The frame of the first loop's step: it changes the origin values and the
trie and nothing else of the object. -/
theorem updateSlot_fst (snap : Bool) (acc : StorageObject × SnapStorage) (slot : Hash × Hash) :
    ∃ origin tr, (updateSlot keccak256 snap acc slot).1 =
      { acc.1 with originStorage := origin, trie := tr } := by
  obtain ⟨o, snapStorage⟩ := acc
  obtain ⟨key, value⟩ := slot
  unfold updateSlot
  dsimp only
  split_ifs
  · exact ⟨o.originStorage, o.trie, rfl⟩
  all_goals exact ⟨_, _, rfl⟩

theorem updateSlots_fst (snap : Bool) (slots : List (Hash × Hash))
    (acc : StorageObject × SnapStorage) :
    ∃ origin tr, (slots.foldl (updateSlot keccak256 snap) acc).1 =
      { acc.1 with originStorage := origin, trie := tr } := by
  induction slots generalizing acc with
  | nil => exact ⟨acc.1.originStorage, acc.1.trie, rfl⟩
  | cons slot slots ih =>
      obtain ⟨origin, tr, hrest⟩ := ih (updateSlot keccak256 snap acc slot)
      obtain ⟨origin', tr', hstep⟩ := updateSlot_fst keccak256 snap acc slot
      rw [List.foldl_cons, hrest, hstep]
      exact ⟨origin, tr, rfl⟩

@[simp] theorem updateSlot_addrHash (snap : Bool) (acc : StorageObject × SnapStorage)
    (slot : Hash × Hash) : (updateSlot keccak256 snap acc slot).1.addrHash = acc.1.addrHash := by
  obtain ⟨origin, tr, h⟩ := updateSlot_fst keccak256 snap acc slot
  rw [h]

@[simp] theorem updateSlots_addrHash (snap : Bool) (slots : List (Hash × Hash))
    (acc : StorageObject × SnapStorage) :
    (slots.foldl (updateSlot keccak256 snap) acc).1.addrHash = acc.1.addrHash := by
  obtain ⟨origin, tr, h⟩ := updateSlots_fst keccak256 snap slots acc
  rw [h]

@[simp] theorem updateSlots_dirtyTeWakaStorage (snap : Bool) (slots : List (Hash × Hash))
    (acc : StorageObject × SnapStorage) :
    (slots.foldl (updateSlot keccak256 snap) acc).1.dirtyTeWakaStorage =
      acc.1.dirtyTeWakaStorage := by
  obtain ⟨origin, tr, h⟩ := updateSlots_fst keccak256 snap slots acc
  rw [h]

/-- The step lemma of the first loop: with snapshots on, a pending slot keeps
the account's trie and its flat entries agreeing. -/
theorem updateSlot_agrees {base : Hash → Bytes} {o : StorageObject} {snapStorage : SnapStorage}
    (ha : Agrees base o.trie (snapStorage o.addrHash)) (slot : Hash × Hash) :
    Agrees base (updateSlot keccak256 true (o, snapStorage) slot).1.trie
      ((updateSlot keccak256 true (o, snapStorage) slot).2 o.addrHash) := by
  obtain ⟨key, value⟩ := slot
  by_cases hskip : value = o.originStorage key
  · simpa only [updateSlot, if_pos hskip] using ha
  by_cases hzero : value = 0
  · -- a zero value: deleted from the trie, recorded as no bytes
    have hv : slotBytes value = [] := if_pos hzero
    simp only [updateSlot, if_neg hskip, if_pos hzero, if_true, Function.update_self, hv]
    exact ha.delete _
  · simp only [updateSlot, if_neg hskip, if_neg hzero, if_true, Function.update_self]
    exact ha.update _ _

/-- The run lemma of the first loop: every pending slot written keeps the trie
and the flat entries agreeing. -/
theorem updateSlots_agrees {base : Hash → Bytes} (slots : List (Hash × Hash)) {o : StorageObject}
    {snapStorage : SnapStorage} (ha : Agrees base o.trie (snapStorage o.addrHash)) :
    Agrees base (slots.foldl (updateSlot keccak256 true) (o, snapStorage)).1.trie
      ((slots.foldl (updateSlot keccak256 true) (o, snapStorage)).2 o.addrHash) := by
  induction slots generalizing o snapStorage with
  | nil => exact ha
  | cons slot slots ih =>
      have hstep := updateSlot_agrees keccak256 ha slot
      have hhash := updateSlot_addrHash keccak256 true (o, snapStorage) slot
      rw [List.foldl_cons]
      rw [← hhash] at hstep ⊢
      exact ih hstep

/-! ### The commit -/

namespace StorageObject

@[simp] theorem finalise_addrHash (o : StorageObject) : o.finalise.addrHash = o.addrHash := rfl
@[simp] theorem finalise_trie (o : StorageObject) : o.finalise.trie = o.trie := rfl
@[simp] theorem finalise_dirtyTeWakaStorage (o : StorageObject) :
    o.finalise.dirtyTeWakaStorage = o.dirtyTeWakaStorage := rfl

end StorageObject

/-- `updateTrie` as a skip or the two loops, with the first loop's result taken
apart by projections. -/
theorem updateTrie_eq (snap : Bool) (o : StorageObject) (snapStorage : SnapStorage) :
    updateTrie keccak256 snap o snapStorage =
      if o.finalise.pendingStorage.isEmpty && o.finalise.dirtyTeWakaStorage.isEmpty then
        (o.finalise, snapStorage)
      else
        let r := o.finalise.pendingStorage.foldl (updateSlot keccak256 snap) (o.finalise, snapStorage)
        ({ r.1 with
            pendingStorage := []
            dirtyTeWakaStorage := []
            trie := o.dirtyTeWakaStorage.foldl (updateTeWakaSlot keccak256) r.1.trie }, r.2) := by
  unfold updateTrie
  dsimp only
  split
  · rfl
  · rw [updateSlots_dirtyTeWakaStorage]
    rfl

/-- Without dirty Te Waka slots, `updateTrie` with snapshots on keeps the account's
trie and flat entries agreeing. -/
theorem updateTrie_agrees {base : Hash → Bytes} {o : StorageObject} {snapStorage : SnapStorage}
    (hte : o.dirtyTeWakaStorage = []) (ha : Agrees base o.trie (snapStorage o.addrHash)) :
    (updateTrie keccak256 true o snapStorage).1.addrHash = o.addrHash ∧
      (updateTrie keccak256 true o snapStorage).1.dirtyTeWakaStorage = [] ∧
      Agrees base (updateTrie keccak256 true o snapStorage).1.trie
        ((updateTrie keccak256 true o snapStorage).2 o.addrHash) := by
  rw [updateTrie_eq]
  split_ifs
  · exact ⟨rfl, hte, ha⟩
  · -- the second loop runs over no slots
    have hslots := updateSlots_agrees keccak256 o.finalise.pendingStorage (o := o.finalise) ha
    refine ⟨updateSlots_addrHash keccak256 true _ _, rfl, ?_⟩
    rw [hte]
    exact hslots

/-- The second loop's step reads back the Te Waka slot's bytes at the hash of its
key, on a well-formed trie. -/
theorem read_updateTeWakaSlot {t : Trie} (hwf : t.root.WF False) (key : Hash) (value : Bytes) :
    ((updateTeWakaSlot keccak256 t (key, value)).tryGet (keccak256 key.bytes).bytes).getD [] =
      value := by
  unfold updateTeWakaSlot
  split_ifs with hempty
  · rw [read_tryDelete hwf, if_pos rfl]
    exact (List.length_eq_zero_iff.mp hempty).symm
  · rw [read_tryUpdate hwf, if_pos rfl]

/-! ### Runs of writes and commits -/

/-- What happens to an account's storage between commits, and the commit:
`stateObject.setState` (what `SetState` does once its check passes),
`setStateByteArray` (what `SetTeWakaState` does to the object) and
`updateTrie` (`commit`, which `IntermediateRoot` and `Commit` run). -/
inductive Modification where
  | setState (key value : Hash)
  | setTeWakaState (key : Hash) (value : Bytes)
  | commit

/-- One modification, with the snapshot tree enabled or not. -/
def Modification.apply (snap : Bool) (acc : StorageObject × SnapStorage) :
    Modification → StorageObject × SnapStorage
  | .setState key value => (acc.1.setState key value, acc.2)
  | .setTeWakaState key value => (acc.1.setStateByteArray key value, acc.2)
  | .commit => updateTrie keccak256 snap acc.1 acc.2

/-- A Te Waka write. -/
def Modification.isTeWaka : Modification → Bool
  | .setTeWakaState .. => true
  | .setState .. | .commit => false

/-- The invariant of a run without Te Waka writes: the account keeps its hash, has
no dirty Te Waka slots, and its trie agrees with its flat entries. -/
def Committed (base : Hash → Bytes) (addrHash : Hash) (acc : StorageObject × SnapStorage) : Prop :=
  acc.1.addrHash = addrHash ∧ acc.1.dirtyTeWakaStorage = [] ∧
    Agrees base acc.1.trie (acc.2 addrHash)

/-- The step lemma: a write of an ordinary slot or a commit keeps the invariant. -/
theorem Committed.apply {base : Hash → Bytes} {addrHash : Hash} {acc : StorageObject × SnapStorage}
    (hc : Committed base addrHash acc) {m : Modification} (hm : m.isTeWaka = false) :
    Committed base addrHash (m.apply keccak256 true acc) := by
  obtain ⟨hhash, hte, ha⟩ := hc
  cases m with
  | setState key value => exact ⟨hhash, hte, ha⟩
  | setTeWakaState key value => cases hm
  | commit =>
      subst hhash
      exact updateTrie_agrees keccak256 hte ha

/-- The run lemma: with snapshots on, every run of ordinary writes and commits
keeps the account's trie and flat entries agreeing. -/
theorem Committed.run {base : Hash → Bytes} {addrHash : Hash} :
    ∀ (mods : List Modification), (∀ m ∈ mods, m.isTeWaka = false) →
      ∀ {acc : StorageObject × SnapStorage}, Committed base addrHash acc →
        Committed base addrHash (mods.foldl (Modification.apply keccak256 true) acc)
  | [], _, _, hc => hc
  | m :: mods, hmods, _, hc =>
      Committed.run mods (fun m' hm' => hmods m' (List.mem_cons_of_mem m hm'))
        (hc.apply keccak256 (hmods m List.mem_cons_self))

/-- Without Te Waka writes the snapshot agrees with the trie over a block: from
the trie at the block's start and the empty `snapStorage` of a new block, every
run of ordinary writes and commits ends with every slot hash reading the same
through the snapshot as through the trie. -/
theorem committed_of_run (o : StorageObject) (hwf : o.trie.root.WF False)
    (hte : o.dirtyTeWakaStorage = []) (mods : List Modification)
    (hmods : ∀ m ∈ mods, m.isTeWaka = false) :
    Committed (fun h => (o.trie.tryGet h.bytes).getD []) o.addrHash
      (mods.foldl (Modification.apply keccak256 true) (o, fun _ _ => none)) :=
  Committed.run keccak256 mods hmods ⟨rfl, hte, agrees_start hwf⟩

/-- A Te Waka write is committed to the trie and not to the snapshot: from an
account with nothing else to commit whose trie agrees with its flat entries,
`SetTeWakaState` and `updateTrie` leave the trie reading the new bytes at the hash
of the key and the snapshot storage as it was, so that a read through the
snapshot no longer returns what the trie holds wherever it did not already
return those bytes. -/
theorem teWaka_commit_unrecorded {base : Hash → Bytes} (o : StorageObject)
    (snapStorage : SnapStorage) (key : Hash) (value : Bytes)
    (hclean : o.pendingStorage = [] ∧ o.dirtyStorage = [] ∧ o.dirtyTeWakaStorage = [])
    (ha : Agrees base o.trie (snapStorage o.addrHash))
    (hread : (snapStorage o.addrHash (keccak256 key.bytes)).getD (base (keccak256 key.bytes)) ≠
      value) :
    let r := [Modification.setTeWakaState key value, .commit].foldl
      (Modification.apply keccak256 true) (o, snapStorage)
    (r.1.trie.tryGet (keccak256 key.bytes).bytes).getD [] = value ∧ r.2 = snapStorage ∧
      ¬ Agrees base r.1.trie (r.2 r.1.addrHash) := by
  obtain ⟨hpending, hdirty, hte⟩ := hclean
  -- the commit runs the second loop over the one Te Waka slot and nothing else
  have hr : [Modification.setTeWakaState key value, .commit].foldl
      (Modification.apply keccak256 true) (o, snapStorage) =
        ({ o.setStateByteArray key value with
            pendingStorage := []
            dirtyTeWakaStorage := []
            trie := updateTeWakaSlot keccak256 o.trie (key, value) }, snapStorage) := by
    simp only [List.foldl_cons, List.foldl_nil, Modification.apply, updateTrie_eq,
      StorageObject.setStateByteArray, StorageObject.finalise, hpending, hdirty, hte]
    rfl
  have htrie := read_updateTeWakaSlot keccak256 ha.wf key value
  rw [hr]
  refine ⟨htrie, rfl, fun hafter => hread ?_⟩
  -- the snapshot reads the key's hash as before; the trie reads the new bytes
  exact (hafter.read (keccak256 key.bytes)).symm.trans htrie

/-- The failing input: a new account with an empty trie, an empty snapshot diff
over a layer below that holds nothing, and `SetTeWakaState(0x00..00, [0x01])`
committed; any function stands for Keccak-256. -/
theorem teWaka_commit_unrecorded_fresh :
    let o : StorageObject := ⟨0, fun _ => 0, [], [], [], Trie.empty⟩
    let snapStorage : SnapStorage := fun _ _ => none
    let base : Hash → Bytes := fun _ => []
    let r := [Modification.setTeWakaState 0 [1], .commit].foldl
      (Modification.apply bytesToHash true) (o, snapStorage)
    Agrees base o.trie (snapStorage o.addrHash) ∧
      (r.1.trie.tryGet (bytesToHash (0 : Hash).bytes).bytes).getD [] = [1] ∧ r.2 = snapStorage ∧
      ¬ Agrees base r.1.trie (r.2 r.1.addrHash) :=
  have ha : Agrees (fun _ => []) Trie.empty (fun _ => none) := ⟨trivial, fun _ => rfl⟩
  ⟨ha, teWaka_commit_unrecorded bytesToHash ⟨0, fun _ => 0, [], [], [], Trie.empty⟩ _ 0 [1]
    ⟨rfl, rfl, rfl⟩ ha (by decide)⟩

end Classzz.State.UpdateTrie
