import Classzz.Core.State.StateDB

/-!
# The journal is an undo log

Each operation of the state changes the view (`StateDB.view`) at one
address, in a way stated here once as a view equation, and undoing a journal
entry changes the view by what the view itself determines
(`JournalEntry.revertView`). So the journal is a lawful undo log, and every
operation that journals its change can be reverted: `Reaches s t` says that
`t` came from `s` by journalled changes, which `RevertToSnapshot` undoes in
the view.
-/

namespace Classzz.State

namespace StateObject

theorem lookup_filter_ne {l : List (Hash × Bytes)} {j k : Hash} (hjk : j ≠ k) :
    (l.filter (·.1 != k)).lookup j = l.lookup j := by
  induction l with
  | nil => rfl
  | cons p l ih =>
      obtain ⟨i, v⟩ := p
      by_cases hik : i = k
      · subst hik
        have hji : (j == i) = false := beq_false_of_ne hjk
        simp [List.lookup_cons, hji, ih]
      · have hik' : (i != k) = true := bne_iff_ne.mpr hik
        simp [List.filter, hik', List.lookup_cons, ih]

@[simp] theorem getTeWakaState_setStateByteArray (o : StateObject) (key : Hash) (value : Bytes) :
    (o.setStateByteArray key value).getTeWakaState = Function.update o.getTeWakaState key value := by
  funext j
  by_cases hj : j = key
  · subst hj
    simp [getTeWakaState, setStateByteArray]
  · simp only [getTeWakaState, setStateByteArray, Function.update_of_ne hj, List.lookup_cons,
      beq_false_of_ne hj, lookup_filter_ne hj]

theorem account_setStateByteArray (o : StateObject) (key : Hash) (value : Bytes) :
    (o.setStateByteArray key value).account =
      { o.account with teWaka := Function.update o.account.teWaka key value } := by
  simp only [account, getTeWakaState_setStateByteArray]
  rfl

@[simp] theorem getTeWakaState_updateTrie (o : StateObject) :
    o.updateTrie.getTeWakaState = o.getTeWakaState := by
  funext key
  simp [getTeWakaState, updateTrie]

@[simp] theorem deleted_updateTrie (o : StateObject) : o.updateTrie.deleted = o.deleted := rfl

@[simp] theorem account_updateTrie (o : StateObject) : o.updateTrie.account = o.account := by
  simp only [account, getTeWakaState_updateTrie]
  rfl

end StateObject

namespace StateDB

variable (s : StateDB) (a : Address)

theorem getStateObject_update (f : Address → Option StateObject) (x : Option StateObject)
    (b : Address) :
    ({ s with stateObjects := Function.update f a x } : StateDB).getStateObject b =
      if b = a then x.filter (!·.deleted) else (f b).filter (!·.deleted) := by
  by_cases hb : b = a
  · subst hb
    simp [getStateObject]
  · simp [getStateObject, hb]

/-- Applying `f` to the live object at `a` changes the view there as `G`. -/
theorem view_setLive {f : StateObject → StateObject} {G : Account → Account}
    (hdel : ∀ o, (f o).deleted = o.deleted) (hacc : ∀ o, (f o).account = G o.account) :
    (s.setLive a f).view = Function.update s.view a ((s.view a).map G) := by
  funext b
  unfold setLive
  split
  · rename_i o ho
    have hlive : o.deleted = false := by
      simp only [getStateObject, Option.filter_eq_some_iff] at ho
      simpa using ho.2
    by_cases hb : b = a
    · subst hb
      simp [view, getStateObject_update, hdel, hlive, ho, hacc]
    · simp [view, hb, getStateObject]
  · rename_i ho
    by_cases hb : b = a
    · subst hb
      simp [view, ho]
    · simp [Function.update_of_ne hb]

theorem view_change {e : StateObject → JournalEntry} {f : StateObject → StateObject}
    {G : Account → Account} (hdel : ∀ o, (f o).deleted = o.deleted)
    (hacc : ∀ o, (f o).account = G o.account) :
    (s.change a e f).view = Function.update s.view a ((s.view a).map G) := by
  rw [← view_setLive s a hdel hacc]
  unfold change setLive
  split <;> rfl

theorem journal_change (e : StateObject → JournalEntry) (f : StateObject → StateObject) :
    (s.change a e f).journal = ((s.getStateObject a).map e).toList ++ s.journal := by
  unfold change
  split <;> simp_all

theorem journal_setLive (f : StateObject → StateObject) : (s.setLive a f).journal = s.journal := by
  unfold setLive
  split <;> rfl

theorem view_createObject :
    (s.createObject a).1.view = Function.update s.view a (some StateObject.new.account) := by
  funext b
  simp only [view, getStateObject, createObject, Function.update_apply]
  split_ifs <;> simp [StateObject.new]

theorem view_eq_none_iff : s.view a = none ↔ s.exist a = false := by
  simp [view, exist]

/-- `GetOrNewStateObject` leaves a live account as it is and makes a new one
where there is none. -/
theorem view_getOrNewStateObject :
    (s.getOrNewStateObject a).view =
      Function.update s.view a (some ((s.view a).getD StateObject.new.account)) := by
  unfold getOrNewStateObject
  split
  · rename_i hex
    obtain ⟨acct, hacct⟩ : ∃ acct, s.view a = some acct := by
      simpa [view, exist, Option.isSome_iff_exists] using hex
    rw [hacct, Option.getD_some, ← hacct, Function.update_eq_self]
  · rename_i hex
    rw [view_createObject, (view_eq_none_iff s a).mpr (by simpa using hex), Option.getD_none]

end StateDB

namespace JournalEntry

/-- What undoing an entry does to the view. -/
def revertView : JournalEntry → (Address → Option Account) → Address → Option Account
  | .createObjectChange a, v => Function.update v a none
  | .resetObjectChange a prev, v =>
      Function.update v a (if prev.deleted then none else some prev.account)
  | .suicideChange a prev prevbalance, v =>
      Function.update v a ((v a).map fun acct => { acct with suicided := prev, balance := prevbalance })
  | .balanceChange a prev, v => Function.update v a ((v a).map fun acct => { acct with balance := prev })
  | .nonceChange a prev, v => Function.update v a ((v a).map fun acct => { acct with nonce := prev })
  | .codeChange a prevhash, v =>
      Function.update v a ((v a).map fun acct => { acct with codeHash := prevhash })
  | .teWakaStorageChange a key prevalue, v =>
      Function.update v a ((v a).map fun acct =>
        { acct with teWaka := Function.update acct.teWaka key prevalue })
  | .touchChange _, v => v

theorem view_revert (e : JournalEntry) (s : StateDB) : (e.revert s).view = e.revertView s.view := by
  cases e with
  | createObjectChange a =>
      funext b
      simp only [revert, revertView, StateDB.view, StateDB.getStateObject, Function.update_apply]
      split_ifs <;> rfl
  | resetObjectChange a prev =>
      funext b
      simp only [revert, revertView, StateDB.view, StateDB.getStateObject, Function.update_apply]
      split_ifs with hb hdel <;> simp_all [Option.filter]
  | suicideChange a prev prevbalance =>
      exact StateDB.view_setLive s a (fun _ => rfl) fun _ => rfl
  | balanceChange a prev => exact StateDB.view_setLive s a (fun _ => rfl) fun _ => rfl
  | nonceChange a prev => exact StateDB.view_setLive s a (fun _ => rfl) fun _ => rfl
  | codeChange a prevhash => exact StateDB.view_setLive s a (fun _ => rfl) fun _ => rfl
  | teWakaStorageChange a key prevalue =>
      exact StateDB.view_setLive s a (fun _ => rfl) fun o =>
        StateObject.account_setStateByteArray o key prevalue
  | touchChange a => rfl

theorem journal_revert (e : JournalEntry) (s : StateDB) : (e.revert s).journal = s.journal := by
  cases e <;> first | rfl | exact StateDB.journal_setLive _ _ _

end JournalEntry

/-- The journal is a lawful undo log of the view. -/
theorem lawful : UndoLog.Lawful StateDB.journal JournalEntry.undo StateDB.view where
  pop e es s h := by
    rw [JournalEntry.undo, JournalEntry.journal_revert, h, List.tail_cons]
  congr e s t h := by
    simp only [JournalEntry.undo, JournalEntry.view_revert]
    exact congrArg e.revertView h

namespace StateDB

variable (s : StateDB) (a : Address)

/-- The account at `a` as an operation that creates a missing one starts
from. -/
def accountOrNew : Account :=
  (s.view a).getD StateObject.new.account

theorem view_congr {s t : StateDB} (h : s.stateObjects = t.stateObjects) : s.view = t.view := by
  funext b
  simp [view, getStateObject, h]

theorem getStateObject_getOrNewStateObject :
    ∃ o, (s.getOrNewStateObject a).getStateObject a = some o ∧ o.account = s.accountOrNew a := by
  have h := congrFun (view_getOrNewStateObject s a) a
  simp only [Function.update_self, view, Option.map_eq_some_iff] at h
  obtain ⟨o, ho, hacc⟩ := h
  exact ⟨o, ho, hacc⟩

/-- `GetTeWakaState` reads the slot of the account it finds or creates. -/
theorem getTeWakaState_eq (key : Hash) :
    s.getTeWakaState a key = (s.getOrNewStateObject a, (s.accountOrNew a).teWaka key) := by
  obtain ⟨o, ho, hacc⟩ := getStateObject_getOrNewStateObject s a
  simp only [getTeWakaState, ho, Option.map_some, Option.getD_some, ← hacc]
  rfl

/-- `GetOrNewStateObject` changes nothing where the account is live. -/
theorem getOrNewStateObject_of_exist (h : s.exist a = true) : s.getOrNewStateObject a = s := by
  simp [getOrNewStateObject, h]

/-- A change of one field of the live object at `a`, after
`GetOrNewStateObject`, changes the view there by the same field. -/
theorem view_change_getOrNew {e : StateObject → JournalEntry} {f : StateObject → StateObject}
    {G : Account → Account} (hdel : ∀ o, (f o).deleted = o.deleted)
    (hacc : ∀ o, (f o).account = G o.account) :
    ((s.getOrNewStateObject a).change a e f).view =
      Function.update s.view a (some (G (s.accountOrNew a))) := by
  obtain ⟨o, ho, hoacc⟩ := getStateObject_getOrNewStateObject s a
  rw [view_change _ a hdel hacc, view_getOrNewStateObject]
  simp [accountOrNew]

theorem view_setBalance (x : ℤ) :
    (s.setBalance a x).view = Function.update s.view a ((s.view a).map fun acct =>
      { acct with balance := x }) :=
  view_change s a (fun _ => rfl) fun _ => rfl

theorem view_touch : (s.touch a).view = s.view := by
  rw [touch, view_change s a (f := id) (G := id) (fun _ => rfl) (fun _ => rfl)]
  simp

/-- `AddBalance` adds to the balance, of a new account if there is none. -/
theorem view_addBalance (x : ℤ) :
    (s.addBalance a x).view = Function.update s.view a
      (some { s.accountOrNew a with balance := (s.accountOrNew a).balance + x }) := by
  obtain ⟨o, ho, hoacc⟩ := getStateObject_getOrNewStateObject s a
  have hview : (s.getOrNewStateObject a).view a = some (s.accountOrNew a) := by
    simp [view, ho, hoacc]
  unfold addBalance
  simp only [ho]
  split_ifs with hx hempty
  · rw [view_touch, view_getOrNewStateObject, hx, add_zero]
    rfl
  · rw [view_getOrNewStateObject, hx, add_zero]
    rfl
  · rw [view_setBalance, hview, view_getOrNewStateObject, Function.update_idem]
    simp [← hoacc, StateObject.account]

/-- `SubBalance` takes from the balance, of a new account if there is none. -/
theorem view_subBalance (x : ℤ) :
    (s.subBalance a x).view = Function.update s.view a
      (some { s.accountOrNew a with balance := (s.accountOrNew a).balance - x }) := by
  obtain ⟨o, ho, hoacc⟩ := getStateObject_getOrNewStateObject s a
  have hview : (s.getOrNewStateObject a).view a = some (s.accountOrNew a) := by
    simp [view, ho, hoacc]
  unfold subBalance
  simp only [ho]
  split_ifs with hx
  · rw [view_getOrNewStateObject, hx, sub_zero]
    rfl
  · rw [view_setBalance, hview, view_getOrNewStateObject, Function.update_idem]
    simp [← hoacc, StateObject.account]

theorem view_setNonce (n : UInt64) :
    (s.setNonce a n).view = Function.update s.view a (some { s.accountOrNew a with nonce := n }) :=
  view_change_getOrNew s a (f := fun o => { o with nonce := n })
    (G := fun acct => { acct with nonce := n }) (fun _ => rfl) fun _ => rfl

theorem view_setCode (h : Hash) :
    (s.setCode a h).view = Function.update s.view a (some { s.accountOrNew a with codeHash := h }) :=
  view_change_getOrNew s a (f := fun o => { o with codeHash := h })
    (G := fun acct => { acct with codeHash := h }) (fun _ => rfl) fun _ => rfl

theorem view_setTeWakaState (key : Hash) (value : Bytes) :
    (s.setTeWakaState a key value).view = Function.update s.view a
      (some { s.accountOrNew a with
        teWaka := Function.update (s.accountOrNew a).teWaka key value }) :=
  view_change_getOrNew s a (f := fun o => o.setStateByteArray key value)
    (G := fun acct => { acct with teWaka := Function.update acct.teWaka key value }) (fun _ => rfl)
    fun o => StateObject.account_setStateByteArray o key value

theorem view_suicide :
    (s.suicide a).view = Function.update s.view a ((s.view a).map fun acct =>
      { acct with suicided := true, balance := 0 }) :=
  view_change s a (fun _ => rfl) fun _ => rfl

/-- `CreateAccount` makes a new account, which keeps the balance of a live
one it replaces. -/
theorem view_createAccount :
    (s.createAccount a).view = Function.update s.view a
      (some { StateObject.new.account with balance := s.getBalance a }) := by
  unfold createAccount
  split
  · rename_i s' p hc
    have hs' : s' = (s.createObject a).1 := by rw [hc]
    have hp : s.getStateObject a = some p := by
      have := congrArg Prod.snd hc
      simpa [createObject, getStateObject] using this
    rw [view_setLive s' a (f := fun o => { o with balance := p.balance })
      (G := fun acct => { acct with balance := p.balance }) (fun _ => rfl) (fun _ => rfl), hs',
      view_createObject, Function.update_idem]
    simp [getBalance, hp, StateObject.account]
  · rename_i s' hc
    have hs' : s' = (s.createObject a).1 := by rw [hc]
    have hp : s.getStateObject a = none := by
      have := congrArg Prod.snd hc
      simpa [createObject, getStateObject] using this
    rw [hs', view_createObject]
    simp [getBalance, hp, StateObject.account, StateObject.new]

/-- `t` came from `s` by journalled changes, and undoing the entries recorded
since gives back the view of `s`. -/
def Reaches (s t : StateDB) : Prop :=
  ∃ es, UndoLog.Undoes journal JournalEntry.undo view es s t

theorem Reaches.refl : Reaches s s :=
  ⟨[], UndoLog.Undoes.refl s⟩

theorem Reaches.trans {s t u : StateDB} : Reaches s t → Reaches t u → Reaches s u
  | ⟨_, h₁⟩, ⟨_, h₂⟩ => ⟨_, UndoLog.Undoes.trans lawful h₁ h₂⟩

/-- Reverting to the snapshot taken at `s` gives back its journal and its
view. -/
theorem Reaches.revert {s t : StateDB} (h : Reaches s t) :
    (t.revertToSnapshot s.snapshot).journal = s.journal ∧
      (t.revertToSnapshot s.snapshot).view = s.view := by
  obtain ⟨es, hes⟩ := h
  rw [revertToSnapshot, snapshot, UndoLog.Undoes.revertTo_eq hes]
  exact ⟨UndoLog.log_undoAll lawful hes.1, hes.2⟩

theorem Reaches.to_revert {s t : StateDB} (h : Reaches s t) :
    Reaches s (t.revertToSnapshot s.snapshot) :=
  ⟨[], UndoLog.Undoes.of_view_eq h.revert.1 h.revert.2⟩

/-- One journalled change whose entry, undone, restores what it changed. -/
theorem reaches_change {e : StateObject → JournalEntry} {f : StateObject → StateObject}
    {G : Account → Account} (hdel : ∀ o, (f o).deleted = o.deleted)
    (hacc : ∀ o, (f o).account = G o.account)
    (hrev : ∀ o v, (e o).revertView (Function.update v a (some (G o.account))) =
      Function.update v a (some o.account)) :
    Reaches s (s.change a e f) := by
  cases ho : s.getStateObject a with
  | none =>
      have hs : s.change a e f = s := by simp [change, ho]
      rw [hs]
      exact Reaches.refl s
  | some o =>
      refine ⟨[e o], UndoLog.Undoes.single (by simp [journal_change, ho]) ?_⟩
      have hview : s.view a = some o.account := by simp [view, ho]
      show ((e o).revert { s.change a e f with journal := _ }).view = s.view
      rw [JournalEntry.view_revert]
      show (e o).revertView (s.change a e f).view = s.view
      rw [view_change s a hdel hacc, hview, Option.map_some, hrev, ← hview, Function.update_eq_self]

/-- A step that records one entry, whose undoing puts the objects back. -/
theorem reaches_of_undo {s t : StateDB} {e : JournalEntry} (hlog : t.journal = e :: s.journal)
    (hobj : (e.undo t).stateObjects = s.stateObjects) : Reaches s t :=
  ⟨[e], UndoLog.Undoes.single hlog (view_congr hobj)⟩

theorem reaches_createObject : Reaches s (s.createObject a).1 := by
  cases hp : s.stateObjects a with
  | none =>
      refine reaches_of_undo (e := .createObjectChange a) (by simp [createObject, hp]) ?_
      simp [JournalEntry.undo, JournalEntry.revert, createObject, Function.update_idem,
        ← hp, Function.update_eq_self]
  | some p =>
      refine reaches_of_undo (e := .resetObjectChange a p) (by simp [createObject, hp]) ?_
      simp [JournalEntry.undo, JournalEntry.revert, createObject, Function.update_idem,
        ← hp, Function.update_eq_self]

theorem reaches_getOrNewStateObject : Reaches s (s.getOrNewStateObject a) := by
  unfold getOrNewStateObject
  split
  · exact Reaches.refl s
  · exact reaches_createObject s a

theorem reaches_setBalance (x : ℤ) : Reaches s (s.setBalance a x) :=
  reaches_change s a (f := fun o => { o with balance := x })
    (G := fun acct => { acct with balance := x }) (fun _ => rfl) (fun _ => rfl)
    fun o v => by simp [JournalEntry.revertView, StateObject.account]

theorem reaches_touch : Reaches s (s.touch a) :=
  reaches_change s a (f := id) (G := id) (fun _ => rfl) (fun _ => rfl)
    fun _ _ => rfl

theorem reaches_addBalance (x : ℤ) : Reaches s (s.addBalance a x) := by
  have h₀ := reaches_getOrNewStateObject s a
  dsimp only [addBalance]
  split
  · split_ifs
    · exact h₀.trans (reaches_touch _ a)
    · exact h₀
    · exact h₀.trans (reaches_setBalance _ a _)
  · exact h₀

theorem reaches_subBalance (x : ℤ) : Reaches s (s.subBalance a x) := by
  have h₀ := reaches_getOrNewStateObject s a
  dsimp only [subBalance]
  split
  · split_ifs
    · exact h₀
    · exact h₀.trans (reaches_setBalance _ a _)
  · exact h₀

theorem reaches_transfer (sender recipient : Address) (amount : ℤ) :
    Reaches s (s.transfer sender recipient amount) :=
  (reaches_subBalance s sender amount).trans (reaches_addBalance _ recipient amount)

theorem reaches_setNonce (n : UInt64) : Reaches s (s.setNonce a n) :=
  (reaches_getOrNewStateObject s a).trans <|
    reaches_change _ a (f := fun o => { o with nonce := n })
      (G := fun acct => { acct with nonce := n }) (fun _ => rfl) (fun _ => rfl)
      fun o v => by simp [JournalEntry.revertView, StateObject.account]

theorem reaches_setCode (h : Hash) : Reaches s (s.setCode a h) :=
  (reaches_getOrNewStateObject s a).trans <|
    reaches_change _ a (f := fun o => { o with codeHash := h })
      (G := fun acct => { acct with codeHash := h }) (fun _ => rfl) (fun _ => rfl)
      fun o v => by simp [JournalEntry.revertView, StateObject.account]

theorem reaches_setTeWakaState (key : Hash) (value : Bytes) :
    Reaches s (s.setTeWakaState a key value) :=
  (reaches_getOrNewStateObject s a).trans <|
    reaches_change _ a (f := fun o => o.setStateByteArray key value)
      (G := fun acct => { acct with teWaka := Function.update acct.teWaka key value })
      (fun _ => rfl) (fun o => StateObject.account_setStateByteArray o key value)
      fun o v => by simp [JournalEntry.revertView, StateObject.account]

theorem reaches_suicide : Reaches s (s.suicide a) :=
  reaches_change s a (f := fun o => { o with suicided := true, balance := 0 })
    (G := fun acct => { acct with suicided := true, balance := 0 }) (fun _ => rfl) (fun _ => rfl)
    fun o v => by simp [JournalEntry.revertView, StateObject.account]

/-- `CreateAccount` records the object it replaces, or that there was none,
and undoing that puts the objects back, the carried balance included. -/
theorem reaches_createAccount : Reaches s (s.createAccount a) := by
  cases hp : s.stateObjects a with
  | none =>
      have hs : s.createAccount a = (s.createObject a).1 := by
        simp [createAccount, createObject, hp]
      rw [hs]
      exact reaches_createObject s a
  | some p =>
      by_cases hdel : p.deleted
      · have hs : s.createAccount a = (s.createObject a).1 := by
          simp [createAccount, createObject, hp, hdel, Option.filter_some]
        rw [hs]
        exact reaches_createObject s a
      -- the carried balance is set without an entry; undoing the reset
      -- overwrites it with the old object
      · refine reaches_of_undo (e := .resetObjectChange a p) ?_ ?_
        · simp [createAccount, createObject, hp, hdel, setLive, getStateObject, Option.filter_some,
            StateObject.new]
        · simp [createAccount, createObject, hp, hdel, setLive, getStateObject, Option.filter_some,
            StateObject.new, JournalEntry.undo, JournalEntry.revert]

/-! The getters read the view. -/

theorem exist_eq : s.exist a = (s.view a).isSome := by
  simp [exist, view]

theorem getBalance_eq : s.getBalance a = ((s.view a).map (·.balance)).getD 0 := by
  simp [getBalance, view, Option.map_map]
  rfl

theorem getNonce_eq : s.getNonce a = ((s.view a).map (·.nonce)).getD 0 := by
  simp [getNonce, view, Option.map_map]
  rfl

theorem getCodeHash_eq : s.getCodeHash a = ((s.view a).map (·.codeHash)).getD 0 := by
  simp [getCodeHash, view, Option.map_map]
  rfl

/-! What survives the end of a transaction. -/

theorem getStateObject_eq_some {o : StateObject} :
    s.getStateObject a = some o ↔ s.stateObjects a = some o ∧ o.deleted = false := by
  simp [getStateObject, Option.filter_eq_some_iff]

section Finalise

variable {s a} {del : Bool} {o : StateObject}

/-- A live object that is neither suicided nor, when empty objects go, empty
stays as it was through `Finalise`. -/
theorem getStateObject_finalise (ho : s.getStateObject a = some o)
    (hkeep : (o.suicided || del && o.empty) = false) :
    (s.finalise del).getStateObject a = some o := by
  obtain ⟨hso, hlive⟩ := (getStateObject_eq_some s a).mp ho
  have hfin : (s.finalise del).stateObjects a = some o := by
    simp only [finalise]
    split_ifs
    · simp only [hso, Option.map_some]
      rw [hkeep]
      rfl
    · exact hso
  exact (getStateObject_eq_some _ a).mpr ⟨hfin, hlive⟩

theorem view_finalise (ho : s.getStateObject a = some o)
    (hkeep : (o.suicided || del && o.empty) = false) :
    (s.finalise del).view a = s.view a := by
  simp [view, getStateObject_finalise ho hkeep, ho]

/-- `IntermediateRoot` moves the Te Waka slots of such an object to its trie,
which the view does not see. -/
theorem view_intermediateRoot (ho : s.getStateObject a = some o)
    (hkeep : (o.suicided || del && o.empty) = false) :
    (s.intermediateRoot del).view a = s.view a := by
  obtain ⟨hso, hlive⟩ :=
    (getStateObject_eq_some _ a).mp (getStateObject_finalise ho hkeep)
  have hview : s.view a = some o.account := by simp [view, ho]
  rw [hview]
  simp only [view, getStateObject, intermediateRoot]
  split_ifs <;> simp [hso, hlive]

theorem journal_finalise : (s.finalise del).journal = [] := rfl

theorem journal_intermediateRoot : (s.intermediateRoot del).journal = [] := rfl

end Finalise

/-! ### What a revert does not restore

`stateObject.empty` reads the dirty Te Waka map, and undoing a Te Waka write
puts the old value back into that map rather than removing the slot. -/

section Empty

variable {s : StateDB} {a : Address} {o : StateObject}

/-- Reverting to the snapshot of `s` undoes the one entry recorded since. -/
theorem revertToSnapshot_cons {t : StateDB} {e : JournalEntry} (h : t.journal = e :: s.journal) :
    t.revertToSnapshot s.snapshot = e.undo t :=
  UndoLog.revertTo_of_log (show t.journal = [e] ++ s.journal from h)

theorem setTeWakaState_of_live (ho : s.getStateObject a = some o) (key : Hash) (value : Bytes) :
    s.setTeWakaState a key value =
      { s with journal := .teWakaStorageChange a key (o.getTeWakaState key) :: s.journal,
               stateObjects := Function.update s.stateObjects a (some (o.setStateByteArray key value)) } := by
  have hexist : s.exist a = true := by simp [exist, ho]
  simp only [setTeWakaState, getOrNewStateObject_of_exist s a hexist, change, ho]

theorem getStateObject_setLive {f : StateObject → StateObject}
    (hdel : ∀ o, (f o).deleted = o.deleted) :
    (s.setLive a f).getStateObject a = (s.getStateObject a).map f := by
  unfold setLive
  split
  · rename_i o ho
    have hlive : o.deleted = false := ((getStateObject_eq_some s a).mp ho).2
    simp [getStateObject_update, hdel, hlive, ho]
  · rename_i ho
    simp [ho]

/-- After a Te Waka write to a live object and its revert, the object holds
the slot twice written in its dirty map. -/
theorem getStateObject_revert_setTeWakaState (ho : s.getStateObject a = some o) (key : Hash)
    (value : Bytes) :
    ((s.setTeWakaState a key value).revertToSnapshot s.snapshot).getStateObject a =
      some ((o.setStateByteArray key value).setStateByteArray key (o.getTeWakaState key)) := by
  have hlive : o.deleted = false := ((getStateObject_eq_some s a).mp ho).2
  rw [revertToSnapshot_cons (by rw [setTeWakaState_of_live ho]), setTeWakaState_of_live ho]
  -- the undo is a `setLive` on the state with the entry popped
  rw [JournalEntry.undo, JournalEntry.revert,
    getStateObject_setLive (f := fun o' => o'.setStateByteArray key (o.getTeWakaState key))
      fun _ => rfl]
  simp [getStateObject, Option.filter_some, StateObject.setStateByteArray, hlive]

/-- So the object is not empty after the revert, whatever it was before. -/
theorem empty_revert_setTeWakaState (ho : s.getStateObject a = some o) (key : Hash)
    (value : Bytes) :
    ((s.setTeWakaState a key value).revertToSnapshot s.snapshot).empty a = false := by
  rw [empty, getStateObject_revert_setTeWakaState ho]
  simp [StateObject.empty, StateObject.setStateByteArray]

/-- A zero credit touches an empty live account, and `Finalise(true)` then
deletes it. -/
theorem exist_finalise_addBalance_zero (ho : s.getStateObject a = some o)
    (hempty : o.empty = true) : ((s.addBalance a 0).finalise true).exist a = false := by
  have hexist : s.exist a = true := by simp [exist, ho]
  have hdirty : a ∈ (s.touch a).dirties := by
    simp [dirties, touch, change, ho, JournalEntry.dirtied]
  have hso : (s.touch a).stateObjects a = some o := by
    simp [touch, change, ho]
  simp only [addBalance, getOrNewStateObject_of_exist s a hexist, ho, hempty,
    if_true]
  simp [exist, getStateObject, finalise, hdirty, hso, hempty]

/-- A zero credit leaves a live account that is not empty as it is, and
`Finalise(true)` keeps it unless it self-destructed. -/
theorem exist_finalise_addBalance_zero_of_not_empty (ho : s.getStateObject a = some o)
    (hempty : o.empty = false) (hsui : o.suicided = false) :
    ((s.addBalance a 0).finalise true).exist a = true := by
  have hexist : s.exist a = true := by simp [exist, ho]
  simp only [addBalance, getOrNewStateObject_of_exist s a hexist, ho, hempty]
  simp [exist, getStateObject_finalise ho (by simp [hsui, hempty])]

end Empty

/-- A Te Waka write and its revert leave every account reading as before,
but an account that was empty is not empty any more; a zero-value credit
and `Finalise(true)` then keep it, where without the write and its revert
they delete it. -/
theorem revertToSnapshot_setTeWakaState_empty :
    ∃ s t : StateDB, s = StateDB.new.createAccount 7 ∧
      t = (s.setTeWakaState 7 0 [1]).revertToSnapshot s.snapshot ∧
      t.view = s.view ∧ s.empty 7 = true ∧ t.empty 7 = false ∧
      ((s.addBalance 7 0).finalise true).exist 7 = false ∧
      ((t.addBalance 7 0).finalise true).exist 7 = true := by
  have ho : (StateDB.new.createAccount 7).getStateObject 7 = some StateObject.new := rfl
  have hnew : StateObject.new.empty = true := by decide
  refine ⟨_, _, rfl, rfl, (reaches_setTeWakaState _ 7 0 [1]).revert.2, by rw [empty, ho]; exact hnew,
    empty_revert_setTeWakaState ho 0 [1], exist_finalise_addBalance_zero ho hnew, ?_⟩
  apply exist_finalise_addBalance_zero_of_not_empty (getStateObject_revert_setTeWakaState ho 0 [1])
  · simp [StateObject.empty, StateObject.setStateByteArray]
  · rfl

end StateDB

end Classzz.State
