import Classzz.Common.Types
import Classzz.Lib.UndoLog

/-!
# The journalled state

`state.StateDB` and `state.stateObject`, with the parts of an account that
decide whether it is empty and the Te Waka storage: nonce, balance, code
hash, the Te Waka slots committed to the storage trie and the dirty ones of
the current transaction, and the `suicided` and `deleted` flags. Ordinary
storage, code bytes, logs, refunds and the access list are left out; none of
them is read by emptiness or by the Te Waka storage.

Every change goes through the journal, which records how to undo it, and
`RevertToSnapshot` undoes the entries recorded since a snapshot. A revision
is identified here with the journal length that `Snapshot` stores for it;
the EVM only reverts to the snapshot of its own frame, which is still valid.

`Finalise` marks the objects that the journal dirtied for deletion when they
self-destructed, or when they are empty and empty objects are deleted, and
clears the journal. `IntermediateRoot` then moves the dirty Te Waka slots of
the live ones into their tries. A deleted object is gone: a later access
creates a new one, with no storage.

The view of the state is what a reader sees of each live account
(`StateDB.view`); undoing an entry changes it by what it determines, so the
journal is a lawful undo log (`lawful`).
-/

namespace Classzz.State

/-- `emptyCodeHash`, the Keccak-256 hash of no code. -/
def emptyCodeHash : Hash :=
  hexToHash "c5d2460186f7233c927e7db2dcc703c0e500b653ca82273b7bfad8045d85a470"

/-- `stateObject`. `teWakaTrie` is the Te Waka part of the storage trie (an
absent slot reads as no bytes) and `dirtyTeWakaStorage` the map of slots
written in the current transaction. -/
structure StateObject where
  nonce : UInt64
  balance : ℤ
  codeHash : Hash
  teWakaTrie : Hash → Bytes
  dirtyTeWakaStorage : List (Hash × Bytes)
  suicided : Bool
  deleted : Bool

/-- What a reader sees of a live account. -/
structure Account where
  nonce : UInt64
  balance : ℤ
  codeHash : Hash
  suicided : Bool
  teWaka : Hash → Bytes

namespace StateObject

/-- `newObject` with an empty `Account`: no nonce, balance or code, and an
empty storage trie. -/
def new : StateObject where
  nonce := 0
  balance := 0
  codeHash := emptyCodeHash
  teWakaTrie := fun _ => []
  dirtyTeWakaStorage := []
  suicided := false
  deleted := false

/-- `stateObject.empty`. -/
def empty (o : StateObject) : Bool :=
  o.nonce == 0 && o.balance == 0 && o.codeHash == emptyCodeHash && o.dirtyTeWakaStorage.isEmpty

/-- `stateObject.GetTeWakaState`: the dirty value, or the trie's. Its
`originTeWakaStorage` cache holds exactly this value for every slot it
holds, so it is not kept. -/
def getTeWakaState (o : StateObject) (key : Hash) : Bytes :=
  (o.dirtyTeWakaStorage.lookup key).getD (o.teWakaTrie key)

/-- `stateObject.setStateByteArray`: a map assignment in the dirty slots. -/
def setStateByteArray (o : StateObject) (key : Hash) (value : Bytes) : StateObject :=
  { o with dirtyTeWakaStorage := (key, value) :: o.dirtyTeWakaStorage.filter (·.1 != key) }

/-- The Te Waka part of `stateObject.updateTrie`: every dirty slot goes to
the trie, an empty value as a deletion, and the dirty map is emptied. -/
def updateTrie (o : StateObject) : StateObject :=
  { o with teWakaTrie := o.getTeWakaState, dirtyTeWakaStorage := [] }

/-- The account a reader sees. -/
def account (o : StateObject) : Account :=
  ⟨o.nonce, o.balance, o.codeHash, o.suicided, o.getTeWakaState⟩

end StateObject

/-- The journal entries, each with what its `revert` needs. -/
inductive JournalEntry where
  | createObjectChange (account : Address)
  | resetObjectChange (account : Address) (prev : StateObject)
  | suicideChange (account : Address) (prev : Bool) (prevbalance : ℤ)
  | balanceChange (account : Address) (prev : ℤ)
  | nonceChange (account : Address) (prev : UInt64)
  | codeChange (account : Address) (prevhash : Hash)
  | teWakaStorageChange (account : Address) (key : Hash) (prevalue : Bytes)
  | touchChange (account : Address)

/-- `journalEntry.dirtied`: the address an entry marks dirty; a reset marks
none. -/
def JournalEntry.dirtied : JournalEntry → Option Address
  | .createObjectChange a => some a
  | .resetObjectChange _ _ => none
  | .suicideChange a _ _ => some a
  | .balanceChange a _ => some a
  | .nonceChange a _ => some a
  | .codeChange a _ => some a
  | .teWakaStorageChange a _ _ => some a
  | .touchChange a => some a

/-- `state.StateDB`. `stateObjects` holds every account, deleted ones with
their flag set; the journal is kept newest first, and its dirty addresses
are those its entries dirty. -/
structure StateDB where
  stateObjects : Address → Option StateObject
  journal : List JournalEntry
  stateObjectsPending : Address → Bool

namespace StateDB

variable (s : StateDB) (a : Address)

/-- `getStateObject`: the live object, none for a missing or deleted one. -/
def getStateObject : Option StateObject :=
  (s.stateObjects a).filter (!·.deleted)

/-- `Exist`. -/
def exist : Bool :=
  (s.getStateObject a).isSome

/-- `Empty`: a missing account, or one that `empty` says is. -/
def empty : Bool :=
  match s.getStateObject a with
  | some o => o.empty
  | none => true

/-- `GetBalance`. -/
def getBalance : ℤ :=
  ((s.getStateObject a).map (·.balance)).getD 0

/-- `GetNonce`. -/
def getNonce : UInt64 :=
  ((s.getStateObject a).map (·.nonce)).getD 0

/-- `GetCodeHash`: the zero hash for a missing account. -/
def getCodeHash : Hash :=
  ((s.getStateObject a).map (·.codeHash)).getD 0

/-- What a reader sees of every live account. -/
def view : Address → Option Account :=
  fun b => (s.getStateObject b).map StateObject.account

/-- Applies `f` to the live object at `a`, without a journal entry. -/
def setLive (f : StateObject → StateObject) : StateDB :=
  match s.getStateObject a with
  | some o => { s with stateObjects := Function.update s.stateObjects a (some (f o)) }
  | none => s

/-- A journalled change of the live object at `a`: the entry records what
`f` overwrites. -/
def change (entry : StateObject → JournalEntry) (f : StateObject → StateObject) : StateDB :=
  match s.getStateObject a with
  | some o =>
      { s with journal := entry o :: s.journal,
               stateObjects := Function.update s.stateObjects a (some (f o)) }
  | none => s

/-- `createObject`: a new object replaces whatever is at `a`, live or
deleted, which the journal keeps. The second result is the object replaced,
if it was live. -/
def createObject : StateDB × Option StateObject :=
  let prev := s.stateObjects a
  let entry := match prev with
    | none => JournalEntry.createObjectChange a
    | some p => .resetObjectChange a p
  ({ s with journal := entry :: s.journal,
            stateObjects := Function.update s.stateObjects a (some StateObject.new) },
    prev.filter (!·.deleted))

/-- `GetOrNewStateObject`, as the state it leaves. -/
def getOrNewStateObject : StateDB :=
  if s.exist a then s else (s.createObject a).1

/-- `stateObject.SetBalance` of the live object at `a`. -/
def setBalance (x : ℤ) : StateDB :=
  s.change a (fun o => .balanceChange a o.balance) fun o => { o with balance := x }

/-- `stateObject.touch`. -/
def touch : StateDB :=
  s.change a (fun _ => .touchChange a) id

/-- `AddBalance`: adding nothing only touches an empty account. -/
def addBalance (x : ℤ) : StateDB :=
  let s := s.getOrNewStateObject a
  match s.getStateObject a with
  | some o => if x = 0 then (if o.empty then s.touch a else s) else s.setBalance a (o.balance + x)
  | none => s

/-- `SubBalance`. -/
def subBalance (x : ℤ) : StateDB :=
  let s := s.getOrNewStateObject a
  match s.getStateObject a with
  | some o => if x = 0 then s else s.setBalance a (o.balance - x)
  | none => s

/-- `SetNonce`. -/
def setNonce (n : UInt64) : StateDB :=
  (s.getOrNewStateObject a).change a (fun o => .nonceChange a o.nonce) fun o => { o with nonce := n }

/-- `SetCode`, with the hash of the code. -/
def setCode (h : Hash) : StateDB :=
  (s.getOrNewStateObject a).change a (fun o => .codeChange a o.codeHash)
    fun o => { o with codeHash := h }

/-- `SetTeWakaState`: the entry records the value `GetTeWakaState` reads. -/
def setTeWakaState (key : Hash) (value : Bytes) : StateDB :=
  (s.getOrNewStateObject a).change a (fun o => .teWakaStorageChange a key (o.getTeWakaState key))
    fun o => o.setStateByteArray key value

/-- `Suicide`: nothing for a missing account. -/
def suicide : StateDB :=
  s.change a (fun o => .suicideChange a o.suicided o.balance)
    fun o => { o with suicided := true, balance := 0 }

/-- `CreateAccount`: a new object, which keeps the balance of a live one it
replaces. -/
def createAccount : StateDB :=
  match s.createObject a with
  | (s', some p) => s'.setLive a fun o => { o with balance := p.balance }
  | (s', none) => s'

/-- `Transfer`: `SubBalance` from the sender, then `AddBalance` to the
recipient. -/
def transfer (sender recipient : Address) (amount : ℤ) : StateDB :=
  (s.subBalance sender amount).addBalance recipient amount

/-- `GetTeWakaState`. It goes through `GetOrNewStateObject`, so reading a
missing account creates it: the state it leaves comes with the bytes. -/
def getTeWakaState (key : Hash) : StateDB × Bytes :=
  let s := s.getOrNewStateObject a
  (s, ((s.getStateObject a).map (·.getTeWakaState key)).getD [])

/-- `New` over the empty root: no account yet. -/
def new : StateDB where
  stateObjects := fun _ => none
  journal := []
  stateObjectsPending := fun _ => false

end StateDB

namespace JournalEntry

/-- `journalEntry.revert`. A change of a missing object, on which the code
would dereference nil, changes nothing. -/
def revert : JournalEntry → StateDB → StateDB
  | .createObjectChange a, s => { s with stateObjects := Function.update s.stateObjects a none }
  | .resetObjectChange a prev, s =>
      { s with stateObjects := Function.update s.stateObjects a (some prev) }
  | .suicideChange a prev prevbalance, s =>
      s.setLive a fun o => { o with suicided := prev, balance := prevbalance }
  | .balanceChange a prev, s => s.setLive a fun o => { o with balance := prev }
  | .nonceChange a prev, s => s.setLive a fun o => { o with nonce := prev }
  | .codeChange a prevhash, s => s.setLive a fun o => { o with codeHash := prevhash }
  | .teWakaStorageChange a key prevalue, s => s.setLive a fun o => o.setStateByteArray key prevalue
  | .touchChange _, s => s

/-- Undoes the newest entry and drops it from the journal. -/
def undo (e : JournalEntry) (s : StateDB) : StateDB :=
  e.revert { s with journal := s.journal.tail }

end JournalEntry

namespace StateDB

/-- `Snapshot`: the revision is the journal length. -/
def snapshot (s : StateDB) : ℕ :=
  s.journal.length

/-- `RevertToSnapshot`: undoes the entries recorded since the snapshot. -/
def revertToSnapshot (s : StateDB) (revid : ℕ) : StateDB :=
  UndoLog.revertTo StateDB.journal JournalEntry.undo revid s

/-- `journal.dirties`: the addresses the journal's entries dirty. -/
def dirties (s : StateDB) : List Address :=
  s.journal.filterMap JournalEntry.dirtied

/-- `Finalise`: a dirty object that self-destructed, or is empty when empty
objects are deleted, is marked deleted; the dirty ones become pending; the
journal is cleared. -/
def finalise (s : StateDB) (deleteEmptyObjects : Bool) : StateDB where
  stateObjects := fun a =>
    if a ∈ s.dirties then
      (s.stateObjects a).map fun o =>
        if o.suicided || (deleteEmptyObjects && o.empty) then { o with deleted := true } else o
    else s.stateObjects a
  journal := []
  stateObjectsPending := fun a => s.stateObjectsPending a || decide (a ∈ s.dirties)

/-- `IntermediateRoot`: `Finalise`, then the Te Waka slots of every pending
live object go to its trie. -/
def intermediateRoot (s : StateDB) (deleteEmptyObjects : Bool) : StateDB :=
  let s := s.finalise deleteEmptyObjects
  { s with
    stateObjects := fun a =>
      if s.stateObjectsPending a then
        (s.stateObjects a).map fun o => if o.deleted then o else o.updateTrie
      else s.stateObjects a
    stateObjectsPending := fun _ => false }

end StateDB

end Classzz.State
