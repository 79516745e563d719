import Classzz.Common.Types
import Classzz.Lib.UndoLog

/-!
# Storage, the refund counter and the access list

The other half of `state.StateDB` (`StateDB.lean` has the accounts' fields and the Te Waka
storage): the storage slots of every account, the refund counter and the access list, with the
journal entries that change them.

The committed value of a slot (`GetCommittedState`: the object's pending write, its cached
value or its trie's) does not change during a transaction, and the slots written in it are in
`dirtyStorage`. A new object has an empty trie, so every slot of it is committed as zero, and a
missing or deleted object reads as zero. `stateObjects` holds every account, deleted ones with
their flag set, as in `StateDB.lean`.

The journal entries that change none of these (balances, nonces, code, suicides, touches, Te
Waka slots, logs) are left out: undoing them changes nothing here, so reverting to a snapshot
undoes the same changes. A revision is the journal length, as in `StateDB.lean`.

The counter is a `uint64`, as in the source: `AddRefund` wraps, and `SubRefund` compares before
it takes off.

The view of this half is the committed and current value of every slot of every live account,
the counter and the access list (`StateDB.view`); undoing an entry changes it by what it
determines, so the journal is a lawful undo log of it (`lawful`).
-/

namespace Classzz.State.Storage

/-- The storage part of a `stateObject`: `committed` is what `GetCommittedState` reads and
`dirtyStorage` the map of slots written in the current transaction. -/
structure StateObject where
  committed : Hash → Hash
  dirtyStorage : Hash → Option Hash
  deleted : Bool

namespace StateObject

/-- `newObject` with an empty account: an empty trie and nothing written. -/
def new : StateObject where
  committed := fun _ => 0
  dirtyStorage := fun _ => none
  deleted := false

/-- `stateObject.GetCommittedState`. -/
def getCommittedState (o : StateObject) (key : Hash) : Hash :=
  o.committed key

/-- `stateObject.GetState`: the dirty value, or the committed one. -/
def getState (o : StateObject) (key : Hash) : Hash :=
  (o.dirtyStorage key).getD (o.getCommittedState key)

/-- `stateObject.setState`: a map assignment in the dirty slots. -/
def setState (o : StateObject) (key value : Hash) : StateObject :=
  { o with dirtyStorage := Function.update o.dirtyStorage key (some value) }

/-- The committed and the current value of every slot. -/
def slots (o : StateObject) : (Hash → Hash) × (Hash → Hash) :=
  (o.getCommittedState, o.getState)

@[simp] theorem deleted_setState (o : StateObject) (key value : Hash) :
    (o.setState key value).deleted = o.deleted := rfl

@[simp] theorem slots_setState (o : StateObject) (key value : Hash) :
    (o.setState key value).slots = (o.slots.1, Function.update o.slots.2 key value) := by
  refine Prod.ext rfl (funext fun k => ?_)
  by_cases hk : k = key
  · subst hk
    simp [slots, setState, getState]
  · simp [slots, setState, getState, getCommittedState, Function.update_of_ne hk]

end StateObject

/-- `accessList`, as what it holds: the set of slots of each address present. -/
abbrev AccessList := Address → Option (Hash → Bool)

namespace AccessList

/-- `newAccessList`. -/
def new : AccessList := fun _ => none

/-- `accessList.ContainsAddress`. -/
def containsAddress (al : AccessList) (address : Address) : Bool :=
  (al address).isSome

/-- `accessList.Contains`: whether the address is present, and whether the slot is. -/
def contains (al : AccessList) (address : Address) (slot : Hash) : Bool × Bool :=
  match al address with
  | none => (false, false)
  | some slots => (true, slots slot)

/-- `accessList.AddAddress`, with whether the address was added. -/
def addAddress (al : AccessList) (address : Address) : AccessList × Bool :=
  match al address with
  | some _ => (al, false)
  | none => (Function.update al address (some fun _ => false), true)

/-- `accessList.AddSlot`, with whether the address and whether the slot were added. -/
def addSlot (al : AccessList) (address : Address) (slot : Hash) : AccessList × Bool × Bool :=
  match al address with
  | none => (Function.update al address (some (Function.update (fun _ => false) slot true)), true, true)
  | some slots =>
    if slots slot then (al, false, false)
    else (Function.update al address (some (Function.update slots slot true)), false, true)

/-- `accessList.DeleteSlot`. It panics for an address that is not present, which the journal's
order rules out; that case changes nothing here. -/
def deleteSlot (al : AccessList) (address : Address) (slot : Hash) : AccessList :=
  match al address with
  | none => al
  | some slots => Function.update al address (some (Function.update slots slot false))

/-- `accessList.DeleteAddress`. -/
def deleteAddress (al : AccessList) (address : Address) : AccessList :=
  Function.update al address none

end AccessList

/-- The journal entries that change this half of the state, each with what its `revert`
needs. -/
inductive JournalEntry where
  | createObjectChange (account : Address)
  | resetObjectChange (account : Address) (prev : StateObject)
  | storageChange (account : Address) (key prevalue : Hash)
  | refundChange (prev : UInt64)
  | accessListAddAccountChange (address : Address)
  | accessListAddSlotChange (address : Address) (slot : Hash)

/-- The storage half of `state.StateDB`; the journal is kept newest first. -/
structure StateDB where
  stateObjects : Address → Option StateObject
  journal : List JournalEntry
  refund : UInt64
  accessList : AccessList

namespace StateDB

variable (s : StateDB) (a : Address)

/-- `getStateObject`: the live object, none for a missing or deleted one. -/
def getStateObject : Option StateObject :=
  (s.stateObjects a).filter (!·.deleted)

/-- `GetState`: zero for a missing account. -/
def getState (key : Hash) : Hash :=
  ((s.getStateObject a).map (·.getState key)).getD 0

/-- `GetCommittedState`: zero for a missing account. -/
def getCommittedState (key : Hash) : Hash :=
  ((s.getStateObject a).map (·.getCommittedState key)).getD 0

/-- Applies `f` to the live object at `a`, without a journal entry. -/
def setLive (f : StateObject → StateObject) : StateDB :=
  match s.getStateObject a with
  | some o => { s with stateObjects := Function.update s.stateObjects a (some (f o)) }
  | none => s

/-- `createObject`: a new object replaces whatever is at `a`, live or deleted, which the journal
keeps. -/
def createObject : StateDB :=
  let entry := match s.stateObjects a with
    | none => JournalEntry.createObjectChange a
    | some p => .resetObjectChange a p
  { s with journal := entry :: s.journal,
           stateObjects := Function.update s.stateObjects a (some StateObject.new) }

/-- `GetOrNewStateObject`, as the state it leaves. -/
def getOrNewStateObject : StateDB :=
  if (s.getStateObject a).isSome then s else s.createObject a

/-- `SetState`, through `GetOrNewStateObject`: writing the value the slot holds records
nothing. -/
def setState (key value : Hash) : StateDB :=
  let s := s.getOrNewStateObject a
  match s.getStateObject a with
  | some o =>
    if o.getState key = value then s
    else { s with journal := .storageChange a key (o.getState key) :: s.journal,
                  stateObjects := Function.update s.stateObjects a (some (o.setState key value)) }
  | none => s

/-- The storage part of `CreateAccount`: a new object. -/
def createAccount : StateDB :=
  s.createObject a

/-- `AddRefund`. -/
def addRefund (gas : UInt64) : StateDB :=
  { s with journal := .refundChange s.refund :: s.journal, refund := s.refund + gas }

/-- `SubRefund`: `none` is the panic `"Refund counter below zero (gas: %d > refund: %d)"`, and
otherwise the entry is journalled and the gas taken off. -/
def subRefund (gas : UInt64) : Option StateDB :=
  if gas > s.refund then none
  else some { s with journal := .refundChange s.refund :: s.journal, refund := s.refund - gas }

/-- The state of a chain with no account yet, and an empty access list. -/
def new : StateDB where
  stateObjects := fun _ => none
  journal := []
  refund := 0
  accessList := AccessList.new

/-- `SlotInAccessList`. -/
def slotInAccessList (slot : Hash) : Bool × Bool :=
  s.accessList.contains a slot

/-- `AddAddressToAccessList`. -/
def addAddressToAccessList : StateDB :=
  match s.accessList.addAddress a with
  | (al, true) => { s with accessList := al, journal := .accessListAddAccountChange a :: s.journal }
  | (_, false) => s

/-- `AddSlotToAccessList`: an entry for the address if it was added, then one for the slot. -/
def addSlotToAccessList (slot : Hash) : StateDB :=
  match s.accessList.addSlot a slot with
  | (al, addrMod, slotMod) =>
    let s := { s with accessList := al }
    let s := if addrMod then { s with journal := .accessListAddAccountChange a :: s.journal } else s
    if slotMod then { s with journal := .accessListAddSlotChange a slot :: s.journal } else s

end StateDB

namespace JournalEntry

/-- `journalEntry.revert`. A storage change of a missing object, on which the code would
dereference nil, changes nothing. -/
def revert : JournalEntry → StateDB → StateDB
  | .createObjectChange a, s => { s with stateObjects := Function.update s.stateObjects a none }
  | .resetObjectChange a prev, s =>
    { s with stateObjects := Function.update s.stateObjects a (some prev) }
  | .storageChange a key prevalue, s => s.setLive a fun o => o.setState key prevalue
  | .refundChange prev, s => { s with refund := prev }
  | .accessListAddAccountChange a, s => { s with accessList := s.accessList.deleteAddress a }
  | .accessListAddSlotChange a slot, s =>
    { s with accessList := s.accessList.deleteSlot a slot }

/-- Undoes the newest entry and drops it from the journal. -/
def undo (e : JournalEntry) (s : StateDB) : StateDB :=
  e.revert { s with journal := s.journal.tail }

end JournalEntry

namespace StateDB

/-- `Snapshot`: the revision is the journal length. -/
def snapshot (s : StateDB) : ℕ :=
  s.journal.length

/-- `RevertToSnapshot`: undoes the entries recorded since the snapshot. -/
def revertToSnapshot (s : StateDB) (revid : ℕ) : StateDB :=
  UndoLog.revertTo StateDB.journal JournalEntry.undo revid s

end StateDB

/-! ### The view -/

/-- What a reader sees of this half of the state: the committed and the current value of every
slot of every live account, the refund counter and the access list. -/
@[ext] structure View where
  storage : Address → Option ((Hash → Hash) × (Hash → Hash))
  refund : UInt64
  accessList : AccessList

/-- The slots of the account at `a` as the getters read them: those of a new object where there
is none. -/
def View.slotsAt (v : View) (a : Address) : (Hash → Hash) × (Hash → Hash) :=
  (v.storage a).getD StateObject.new.slots

namespace StateDB

variable (s : StateDB) (a : Address)

/-- The view of the state. -/
def view : View :=
  ⟨fun b => (s.getStateObject b).map StateObject.slots, s.refund, s.accessList⟩

@[simp] theorem view_refund : s.view.refund = s.refund := rfl

@[simp] theorem view_accessList : s.view.accessList = s.accessList := rfl

theorem getState_eq (key : Hash) : s.getState a key = (s.view.slotsAt a).2 key := by
  cases h : s.getStateObject a <;> simp [getState, view, View.slotsAt, h, StateObject.slots,
    StateObject.new, StateObject.getState, StateObject.getCommittedState]

theorem getCommittedState_eq (key : Hash) :
    s.getCommittedState a key = (s.view.slotsAt a).1 key := by
  cases h : s.getStateObject a <;> simp [getCommittedState, view, View.slotsAt, h,
    StateObject.slots, StateObject.new, StateObject.getCommittedState]

theorem getStateObject_of_update {t : StateDB} {x : Option StateObject}
    (h : t.stateObjects = Function.update s.stateObjects a x) (b : Address) :
    t.getStateObject b = if b = a then x.filter (!·.deleted) else s.getStateObject b := by
  by_cases hb : b = a
  · subst hb
    simp [getStateObject, h]
  · simp [getStateObject, h, hb]

theorem getStateObject_update (x : Option StateObject) (b : Address) :
    ({ s with stateObjects := Function.update s.stateObjects a x } : StateDB).getStateObject b =
      if b = a then x.filter (!·.deleted) else s.getStateObject b :=
  getStateObject_of_update s a rfl b

/-- Applying `f` to the live object at `a` changes its slots as `G`. -/
theorem storage_setLive {f : StateObject → StateObject}
    {G : (Hash → Hash) × (Hash → Hash) → (Hash → Hash) × (Hash → Hash)}
    (hdel : ∀ o, (f o).deleted = o.deleted) (hslots : ∀ o, (f o).slots = G o.slots) :
    (s.setLive a f).view.storage = Function.update s.view.storage a ((s.view.storage a).map G) := by
  funext b
  unfold setLive
  split
  · rename_i o ho
    have hlive : o.deleted = false := by
      simp only [getStateObject, Option.filter_eq_some_iff] at ho
      simpa using ho.2
    by_cases hb : b = a
    · subst hb
      simp [view, getStateObject_update, hdel, hlive, ho, hslots]
    · simp [view, getStateObject_update, hb]
  · rename_i ho
    by_cases hb : b = a
    · subst hb
      simp [view, ho]
    · simp [Function.update_of_ne hb]

theorem refund_setLive (f : StateObject → StateObject) : (s.setLive a f).refund = s.refund := by
  unfold setLive
  split <;> rfl

theorem accessList_setLive (f : StateObject → StateObject) :
    (s.setLive a f).accessList = s.accessList := by
  unfold setLive
  split <;> rfl

theorem journal_setLive (f : StateObject → StateObject) : (s.setLive a f).journal = s.journal := by
  unfold setLive
  split <;> rfl

theorem storage_createObject :
    (s.createObject a).view.storage = Function.update s.view.storage a (some StateObject.new.slots) := by
  funext b
  have h := getStateObject_of_update s a (t := s.createObject a) rfl b
  by_cases hb : b = a
  · subst hb
    simp [view, h, StateObject.new]
  · simp [view, h, hb]

end StateDB

namespace JournalEntry

/-- What undoing an entry does to the view. -/
def revertView : JournalEntry → View → View
  | .createObjectChange a, v => { v with storage := Function.update v.storage a none }
  | .resetObjectChange a prev, v =>
    { v with storage := Function.update v.storage a (if prev.deleted then none else some prev.slots) }
  | .storageChange a key prevalue, v =>
    { v with storage := Function.update v.storage a ((v.storage a).map fun sl =>
        (sl.1, Function.update sl.2 key prevalue)) }
  | .refundChange prev, v => { v with refund := prev }
  | .accessListAddAccountChange a, v => { v with accessList := v.accessList.deleteAddress a }
  | .accessListAddSlotChange a slot, v => { v with accessList := v.accessList.deleteSlot a slot }

theorem view_revert (e : JournalEntry) (s : StateDB) : (e.revert s).view = e.revertView s.view := by
  cases e with
  | createObjectChange a =>
    refine View.ext ?_ rfl rfl
    funext b
    simp only [revert, revertView, StateDB.view, StateDB.getStateObject_update, Function.update_apply]
    split_ifs <;> rfl
  | resetObjectChange a prev =>
    refine View.ext ?_ rfl rfl
    funext b
    simp only [revert, revertView, StateDB.view, StateDB.getStateObject_update, Function.update_apply]
    split_ifs with hb hdel <;> simp_all [Option.filter]
  | storageChange a key prevalue =>
    exact View.ext (StateDB.storage_setLive s a (fun _ => rfl)
      fun o => StateObject.slots_setState o key prevalue) (StateDB.refund_setLive s a _)
      (StateDB.accessList_setLive s a _)
  | refundChange prev => rfl
  | accessListAddAccountChange a => rfl
  | accessListAddSlotChange a slot => rfl

theorem journal_revert (e : JournalEntry) (s : StateDB) : (e.revert s).journal = s.journal := by
  cases e <;> first | rfl | exact StateDB.journal_setLive _ _ _

end JournalEntry

/-- The journal is a lawful undo log of the view. -/
theorem lawful : UndoLog.Lawful StateDB.journal JournalEntry.undo StateDB.view where
  pop e es s h := by
    rw [JournalEntry.undo, JournalEntry.journal_revert, h, List.tail_cons]
  congr e s t h := by
    simp only [JournalEntry.undo, JournalEntry.view_revert]
    exact congrArg e.revertView h

namespace StateDB

variable (s : StateDB) (a : Address)

/-! ### What each operation does to the view -/

theorem live_of_getStateObject {o : StateObject} (ho : s.getStateObject a = some o) :
    s.stateObjects a = some o ∧ o.deleted = false := by
  simpa [getStateObject, Option.filter_eq_some_iff] using ho

theorem storage_of_getStateObject {o : StateObject} (ho : s.getStateObject a = some o) :
    s.view.storage a = some o.slots := by
  simp [view, ho]

/-- Putting a live object at `a` puts its slots there. -/
theorem storage_of_update {t : StateDB} {o : StateObject}
    (h : t.stateObjects = Function.update s.stateObjects a (some o)) (hlive : o.deleted = false) :
    t.view.storage = Function.update s.view.storage a (some o.slots) := by
  funext b
  have hb := getStateObject_of_update s a h b
  by_cases hba : b = a
  · subst hba
    simp [view, hb, hlive]
  · simp [view, hb, hba]

theorem refund_getOrNewStateObject : (s.getOrNewStateObject a).refund = s.refund := by
  unfold getOrNewStateObject createObject
  split <;> rfl

theorem accessList_getOrNewStateObject :
    (s.getOrNewStateObject a).accessList = s.accessList := by
  unfold getOrNewStateObject createObject
  split <;> rfl

/-- `GetOrNewStateObject` leaves a live object at `a`, with the slots the getters read there. -/
theorem getOrNewStateObject_spec :
    ∃ o, (s.getOrNewStateObject a).getStateObject a = some o ∧ o.slots = s.view.slotsAt a := by
  unfold getOrNewStateObject
  split
  · rename_i h
    obtain ⟨o, ho⟩ := Option.isSome_iff_exists.mp h
    exact ⟨o, ho, by simp [View.slotsAt, view, ho]⟩
  · rename_i h
    have hnone : s.getStateObject a = none := by simpa using h
    refine ⟨StateObject.new, ?_, by simp [View.slotsAt, view, hnone]⟩
    rw [getStateObject_of_update s a (t := s.createObject a) rfl]
    simp [StateObject.new]

theorem storage_getOrNewStateObject :
    (s.getOrNewStateObject a).view.storage =
      Function.update s.view.storage a (some (s.view.slotsAt a)) := by
  unfold getOrNewStateObject
  split
  · rename_i h
    obtain ⟨o, ho⟩ := Option.isSome_iff_exists.mp h
    have hsl : s.view.storage a = some (s.view.slotsAt a) := by simp [View.slotsAt, view, ho]
    exact (Function.update_eq_self_iff.mpr hsl.symm).symm
  · rename_i h
    have hnone : s.getStateObject a = none := by simpa using h
    rw [storage_createObject]
    simp [View.slotsAt, view, hnone]

/-- `SetState` sets the current value of the slot, in a new account if there is none. -/
theorem view_setState (key value : Hash) :
    (s.setState a key value).view = { s.view with storage := (Function.update s.view.storage a
      (some ((s.view.slotsAt a).1, Function.update (s.view.slotsAt a).2 key value))) } := by
  obtain ⟨o, ho, hslots⟩ := getOrNewStateObject_spec s a
  have hget : o.getState key = (s.view.slotsAt a).2 key := by rw [← hslots]; rfl
  have hlive := ((s.getOrNewStateObject a).live_of_getStateObject a ho).2
  unfold setState
  simp only [ho]
  split_ifs with heq
  · -- the slot holds the value already: only `GetOrNewStateObject` acts
    refine View.ext ?_ (refund_getOrNewStateObject s a) (accessList_getOrNewStateObject s a)
    rw [storage_getOrNewStateObject, ← heq, hget, Function.update_eq_self]
  · refine View.ext ?_ (refund_getOrNewStateObject s a) (accessList_getOrNewStateObject s a)
    rw [storage_of_update _ a rfl (by simpa using hlive), storage_getOrNewStateObject,
      Function.update_idem, StateObject.slots_setState, hslots]

@[simp] theorem refund_setState (key value : Hash) : (s.setState a key value).refund = s.refund :=
  congrArg View.refund (view_setState s a key value)

theorem view_createAccount :
    (s.createAccount a).view =
      { s.view with storage := (Function.update s.view.storage a (some StateObject.new.slots)) } :=
  View.ext (storage_createObject s a) rfl rfl

theorem view_addRefund (gas : UInt64) :
    (s.addRefund gas).view = { s.view with refund := s.refund + gas } := rfl

/-- `AddRefund` adds the gas to the counter when the sum stays below `2 ^ 64`. -/
theorem toNat_refund_addRefund {gas : UInt64} (h : s.refund.toNat + gas.toNat < 2 ^ 64) :
    (s.addRefund gas).refund.toNat = s.refund.toNat + gas.toNat := by
  rw [addRefund, UInt64.toNat_add, Nat.mod_eq_of_lt h]

theorem view_subRefund {gas : UInt64} {t : StateDB} (h : s.subRefund gas = some t) :
    gas ≤ s.refund ∧ t.view = { s.view with refund := s.refund - gas } := by
  unfold subRefund at h
  split_ifs at h with hgt
  cases h
  exact ⟨by simpa using hgt, rfl⟩

/-- What `SubRefund` takes off does not wrap. -/
theorem toNat_refund_subRefund {gas : UInt64} {t : StateDB} (h : s.subRefund gas = some t) :
    gas.toNat ≤ s.refund.toNat ∧ t.refund.toNat = s.refund.toNat - gas.toNat := by
  obtain ⟨hle, hview⟩ := view_subRefund s h
  have ht : t.refund = s.refund - gas := congrArg View.refund hview
  exact ⟨UInt64.le_iff_toNat_le.mp hle, by rw [ht, UInt64.toNat_sub_of_le _ _ hle]⟩

theorem view_addSlotToAccessList (slot : Hash) :
    (s.addSlotToAccessList a slot).view.storage = s.view.storage ∧
      (s.addSlotToAccessList a slot).refund = s.refund := by
  unfold addSlotToAccessList
  split
  split_ifs <;> exact ⟨rfl, rfl⟩

/-! ### Runs that a revert undoes -/

theorem view_undo (e : JournalEntry) (t : StateDB) : (e.undo t).view = e.revertView t.view :=
  JournalEntry.view_revert e _

/-- `t` came from `s` by journalled changes, and undoing the entries recorded since gives back
the view of `s`. -/
def Reaches (s t : StateDB) : Prop :=
  ∃ es, UndoLog.Undoes journal JournalEntry.undo view es s t

theorem Reaches.refl : Reaches s s :=
  ⟨[], UndoLog.Undoes.refl s⟩

theorem Reaches.trans {s t u : StateDB} : Reaches s t → Reaches t u → Reaches s u
  | ⟨_, h₁⟩, ⟨_, h₂⟩ => ⟨_, UndoLog.Undoes.trans lawful h₁ h₂⟩

/-- Reverting to the snapshot taken at `s` gives back its journal and its view. -/
theorem Reaches.revert {s t : StateDB} (h : Reaches s t) :
    (t.revertToSnapshot s.snapshot).journal = s.journal ∧
      (t.revertToSnapshot s.snapshot).view = s.view := by
  obtain ⟨es, hes⟩ := h
  rw [revertToSnapshot, snapshot, UndoLog.Undoes.revertTo_eq hes]
  exact ⟨UndoLog.log_undoAll lawful hes.1, hes.2⟩

theorem Reaches.to_revert {s t : StateDB} (h : Reaches s t) :
    Reaches s (t.revertToSnapshot s.snapshot) :=
  ⟨[], UndoLog.Undoes.of_view_eq h.revert.1 h.revert.2⟩

/-- A step that records one entry, whose undoing gives back the view. -/
theorem reaches_single {s t : StateDB} {e : JournalEntry} (hlog : t.journal = e :: s.journal)
    (hview : e.revertView t.view = s.view) : Reaches s t :=
  ⟨[e], UndoLog.Undoes.single hlog (by rw [view_undo]; exact hview)⟩

/-- A step that records two entries, whose undoing, the newer first, gives back the view. -/
theorem reaches_pair {s t : StateDB} {d e : JournalEntry}
    (hlog : t.journal = e :: d :: s.journal)
    (hview : d.revertView (e.revertView t.view) = s.view) : Reaches s t :=
  ⟨[e, d], hlog, by simp only [UndoLog.undoAll_cons, UndoLog.undoAll_nil, view_undo]; exact hview⟩

theorem reaches_createObject : Reaches s (s.createObject a) := by
  have hstorage := storage_createObject s a
  cases hp : s.stateObjects a with
  | none =>
    refine reaches_single (e := .createObjectChange a) (by simp [createObject, hp])
      (View.ext ?_ rfl rfl)
    have hnone : s.view.storage a = none := by simp [view, getStateObject, hp]
    simp only [JournalEntry.revertView, hstorage, Function.update_idem]
    exact Function.update_eq_self_iff.mpr hnone.symm
  | some p =>
    refine reaches_single (e := .resetObjectChange a p) (by simp [createObject, hp])
      (View.ext ?_ rfl rfl)
    have hp' : s.view.storage a = if p.deleted then none else some p.slots := by
      cases hd : p.deleted <;> simp [view, getStateObject, hp, hd]
    simp only [JournalEntry.revertView, hstorage, Function.update_idem]
    exact Function.update_eq_self_iff.mpr hp'.symm

theorem reaches_getOrNewStateObject : Reaches s (s.getOrNewStateObject a) := by
  unfold getOrNewStateObject
  split
  · exact Reaches.refl s
  · exact reaches_createObject s a

/-- The entry of a write records the value it overwrites, so undoing it restores the slot. -/
theorem reaches_write {t u : StateDB} {o : StateObject} {key value : Hash}
    (ho : t.getStateObject a = some o)
    (hobj : u.stateObjects = Function.update t.stateObjects a (some (o.setState key value)))
    (hlog : u.journal = .storageChange a key (o.getState key) :: t.journal)
    (hr : u.refund = t.refund) (hal : u.accessList = t.accessList) : Reaches t u := by
  have hlive := (t.live_of_getStateObject a ho).2
  refine reaches_single hlog (View.ext ?_ hr hal)
  have hupd := storage_of_update t a hobj (by simpa using hlive)
  have hold : o.slots.2 key = o.getState key := rfl
  simp only [JournalEntry.revertView, hupd, Function.update_self, Option.map_some,
    StateObject.slots_setState, Function.update_idem, ← hold, Function.update_eq_self]
  rw [Function.update_eq_self_iff]
  exact (t.storage_of_getStateObject a ho).symm

theorem reaches_setState (key value : Hash) : Reaches s (s.setState a key value) := by
  obtain ⟨o, ho, -⟩ := getOrNewStateObject_spec s a
  set t := s.getOrNewStateObject a with ht
  have hlive := (t.live_of_getStateObject a ho).2
  have hreach : Reaches s t := reaches_getOrNewStateObject s a
  unfold setState
  simp only [← ht, ho]
  split_ifs with heq
  · exact hreach
  · exact hreach.trans (reaches_write a ho rfl rfl rfl rfl)

theorem reaches_createAccount : Reaches s (s.createAccount a) :=
  reaches_createObject s a

theorem reaches_addRefund (gas : UInt64) : Reaches s (s.addRefund gas) :=
  reaches_single (e := .refundChange s.refund) rfl rfl

theorem reaches_subRefund {gas : UInt64} {t : StateDB} (h : s.subRefund gas = some t) :
    Reaches s t := by
  unfold subRefund at h
  split_ifs at h
  cases h
  exact reaches_single (e := .refundChange s.refund) rfl rfl

theorem reaches_addSlotToAccessList (slot : Hash) : Reaches s (s.addSlotToAccessList a slot) := by
  unfold addSlotToAccessList AccessList.addSlot
  cases hal : s.accessList a with
  | none =>
    -- the address and the slot were added: two entries, the slot's on top
    refine reaches_pair (d := .accessListAddAccountChange a)
      (e := .accessListAddSlotChange a slot) rfl (View.ext rfl rfl ?_)
    simp only [JournalEntry.revertView, AccessList.deleteSlot, AccessList.deleteAddress, if_true,
      view_accessList, Function.update_self, Function.update_idem]
    rw [Function.update_eq_self_iff]
    exact hal.symm
  | some slots =>
    by_cases hin : slots slot = true
    · simp only [hin, if_true]
      exact Reaches.refl s
    · simp only [hin, Bool.false_eq_true, if_false]
      refine reaches_single (e := .accessListAddSlotChange a slot) rfl (View.ext rfl rfl ?_)
      have hslot : Function.update slots slot false = slots :=
        Function.update_eq_self_iff.mpr (by simpa using hin)
      simp only [JournalEntry.revertView, AccessList.deleteSlot, if_true, view_accessList,
        Function.update_self, Function.update_idem, hslot]
      rw [Function.update_eq_self_iff]
      exact hal.symm

end StateDB

end Classzz.State.Storage
