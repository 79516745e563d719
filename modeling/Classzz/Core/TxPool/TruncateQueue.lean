import Mathlib

/-!
# Truncating the future queue

`TxPool.truncateQueue` in `core/tx_pool.go`. When the accounts' queues hold more than
`GlobalQueue` transactions, it drops the excess from the accounts that are not local. It sorts
them with `sort.Sort(addressesByHeartbeat)`, whose `Less` puts the older heartbeat first, and
then takes accounts from the end of the sorted slice: all of an account's transactions while
they are no more than what is left to drop, and otherwise its last ones, one at a time.

An account's queue is its transactions as `Flatten` lists them, in nonce order, and an
account with none has left the map. `removeTx` of a queued transaction takes it out of its
account's queue and deletes the queue once it is empty. The sort is a parameter: any result
`sort.Sort` may return, that is the same accounts ordered by heartbeat.

The loop keeps what the function's comment and the rest of its text promise: it drops nothing
of a local account (`truncateQueue_of_isLocal`), only the newest nonces of an account
(`truncateQueue_prefix`), and stops once the queues are down to `GlobalQueue`
(`sum_truncateQueue`). But it takes the accounts from the end of a slice sorted oldest first,
so it empties the most recently active account first (`truncateQueue_newest_first`).
-/

namespace Classzz.TxPool

variable {Addr Tx : Type*} [DecidableEq Addr]

/-- `sorted` is a result `sort.Sort` of `addressesByHeartbeat` may give for the accounts `l`:
the same accounts, each once, with no account's heartbeat before that of an account ahead of
it. -/
def SortedByHeartbeat (beats : Addr → ℕ) (l sorted : List Addr) : Prop :=
  List.Perm sorted l ∧ sorted.Pairwise fun a b => beats a ≤ beats b

/-- The inner loop of a partial drop: `removeTx` of `txs[i]` for `i` from the last index
down, while `drop` is positive. -/
def removeFromEnd : ℕ → List Tx → List Tx
  | 0, txs => txs
  | _ + 1, [] => []
  | drop + 1, txs@(_ :: _) => removeFromEnd drop txs.dropLast

/-- One turn of the loop, on the account at the end of `addresses`: if it holds no more
transactions than there are to drop, all of them go and the account leaves the queue;
otherwise its last `drop` go. Returns the queues and what is left to drop. -/
def dropAccount (queue : Addr → List Tx) (drop : ℕ) (addr : Addr) : (Addr → List Tx) × ℕ :=
  let list := queue addr
  if list.length ≤ drop then (Function.update queue addr [], drop - list.length)
  else (Function.update queue addr (removeFromEnd drop list), 0)

/-- The loop of `truncateQueue` while there is something to drop and an account left,
taking the accounts from the end of `addresses`: `rev` is that list reversed. -/
def dropLoop : (Addr → List Tx) → ℕ → List Addr → Addr → List Tx
  | queue, 0, _ => queue
  | queue, _ + 1, [] => queue
  | queue, drop + 1, addr :: rev =>
    let r := dropAccount queue (drop + 1) addr
    dropLoop r.1 r.2 rev

/-- `truncateQueue`, on the queues of the accounts `accounts` (the map's keys), with the
pool's `GlobalQueue`, its local accounts and the sort of the accounts by heartbeat. -/
def truncateQueue (globalQueue : ℕ) (isLocal : Addr → Bool) (sort : List Addr → List Addr)
    (accounts : List Addr) (queue : Addr → List Tx) : Addr → List Tx :=
  let queued := (accounts.map fun a => (queue a).length).sum
  if queued ≤ globalQueue then queue
  else
    let addresses := sort (accounts.filter fun a => !isLocal a)
    dropLoop queue (queued - globalQueue) addresses.reverse

/-! ### One account -/

theorem removeFromEnd_eq (drop : ℕ) (txs : List Tx) :
    removeFromEnd drop txs = txs.take (txs.length - drop) := by
  induction drop generalizing txs with
  | zero => simp [removeFromEnd]
  | succ drop ih =>
    cases txs with
    | nil => simp [removeFromEnd]
    | cons tx txs =>
      -- each turn removes the last transaction left
      rw [removeFromEnd, ih, List.dropLast_eq_take, List.take_take, List.length_take]
      congr 1
      simp only [List.length_cons]
      omega

/-- An account's turn leaves it the first of its transactions, as many as are not dropped,
and takes from `drop` what it dropped. -/
theorem dropAccount_eq (queue : Addr → List Tx) (drop : ℕ) (addr : Addr) :
    dropAccount queue drop addr =
      (Function.update queue addr ((queue addr).take ((queue addr).length - drop)),
        drop - (queue addr).length) := by
  dsimp only [dropAccount]
  split_ifs with hle
  · rw [Nat.sub_eq_zero_of_le hle, List.take_zero]
  · rw [removeFromEnd_eq, Nat.sub_eq_zero_of_le (Nat.le_of_lt (Nat.lt_of_not_le hle))]

/-! ### The loop -/

/-- An account the loop does not reach keeps its queue. -/
theorem dropLoop_of_not_mem (queue : Addr → List Tx) (drop : ℕ) {rev : List Addr} {a : Addr}
    (ha : a ∉ rev) : dropLoop queue drop rev a = queue a := by
  induction rev generalizing queue drop with
  | nil => cases drop <;> rfl
  | cons b rev ih =>
    cases drop with
    | zero => rfl
    | succ drop =>
      have hab : a ≠ b := fun h => ha (h ▸ List.mem_cons_self)
      rw [dropLoop, ih _ _ (fun h => ha (List.mem_cons_of_mem b h)), dropAccount_eq]
      exact Function.update_of_ne hab _ _

/-- The loop leaves each account a prefix of its queue: it drops only the newest nonces. -/
theorem dropLoop_prefix (queue : Addr → List Tx) (drop : ℕ) (rev : List Addr) (a : Addr) :
    dropLoop queue drop rev a <+: queue a := by
  induction rev generalizing queue drop with
  | nil => cases drop <;> exact List.prefix_refl _
  | cons b rev ih =>
    cases drop with
    | zero => exact List.prefix_refl _
    | succ drop =>
      rw [dropLoop, dropAccount_eq]
      refine (ih _ _).trans ?_
      dsimp only
      by_cases hab : a = b
      · subst hab
        rw [Function.update_self]
        exact List.take_prefix _ _
      · exact (Function.update_of_ne hab _ _) ▸ List.prefix_refl _

/-- Summing lengths over distinct accounts, after one account's queue changes. -/
theorem sum_update {accounts : List Addr} (hnd : accounts.Nodup) (queue : Addr → List Tx)
    {b : Addr} (hb : b ∈ accounts) (txs : List Tx) :
    (accounts.map fun a => (Function.update queue b txs a).length).sum + (queue b).length =
      (accounts.map fun a => (queue a).length).sum + txs.length := by
  induction accounts with
  | nil => exact absurd hb List.not_mem_nil
  | cons c cs ih =>
    obtain ⟨hc, hcs⟩ := List.nodup_cons.mp hnd
    simp only [List.map_cons, List.sum_cons]
    by_cases hbc : b = c
    · -- the changed account is the first; the rest are left as they were
      subst hbc
      have hrest : (cs.map fun a => (Function.update queue b txs a).length) =
          cs.map fun a => (queue a).length :=
        List.map_congr_left fun a ha => by
          rw [Function.update_of_ne (fun (h : a = b) => hc (h ▸ ha))]
      rw [hrest, Function.update_self]
      omega
    · have ih' := ih hcs (List.mem_of_ne_of_mem hbc hb)
      rw [Function.update_of_ne (Ne.symm hbc)]
      omega

/-- The loop over distinct accounts drops `drop` transactions, or all those the accounts it
reaches hold if they are fewer. -/
theorem sum_dropLoop {accounts : List Addr} (hnd : accounts.Nodup) (queue : Addr → List Tx)
    (drop : ℕ) {rev : List Addr} (hrev : rev.Nodup) (hsub : ∀ a ∈ rev, a ∈ accounts) :
    (accounts.map fun a => (dropLoop queue drop rev a).length).sum +
        min drop (rev.map fun a => (queue a).length).sum =
      (accounts.map fun a => (queue a).length).sum := by
  induction rev generalizing queue drop with
  | nil => cases drop <;> simp [dropLoop]
  | cons b rev ih =>
    obtain ⟨hb, hrev'⟩ := List.nodup_cons.mp hrev
    cases drop with
    | zero => simp [dropLoop]
    | succ drop =>
      rw [dropLoop, dropAccount_eq]
      dsimp only
      -- the accounts after `b` see `b`'s queue already cut
      have hrest : (rev.map fun a => (Function.update queue b
          ((queue b).take ((queue b).length - (drop + 1))) a).length) =
          rev.map fun a => (queue a).length :=
        List.map_congr_left fun a ha => by
          rw [Function.update_of_ne (fun (h : a = b) => hb (h ▸ ha))]
      have ih' := ih (Function.update queue b ((queue b).take ((queue b).length - (drop + 1))))
        (drop + 1 - (queue b).length) hrev' (fun a ha => hsub a (List.mem_cons_of_mem b ha))
      rw [hrest] at ih'
      have hupd := sum_update hnd queue (hsub b List.mem_cons_self)
        ((queue b).take ((queue b).length - (drop + 1)))
      rw [List.length_take] at hupd
      simp only [List.map_cons, List.sum_cons]
      omega

/-! ### `truncateQueue` -/

section Truncate

variable (globalQueue : ℕ) (isLocal : Addr → Bool) (sort : List Addr → List Addr)
  (accounts : List Addr) (queue : Addr → List Tx)

/-- No transaction of a local account is dropped. -/
theorem truncateQueue_of_isLocal
    (hsort : List.Perm (sort (accounts.filter fun a => !isLocal a))
      (accounts.filter fun a => !isLocal a)) {a : Addr}
    (ha : isLocal a = true) : truncateQueue globalQueue isLocal sort accounts queue a = queue a := by
  unfold truncateQueue
  split_ifs
  · rfl
  · apply dropLoop_of_not_mem
    rw [List.mem_reverse, hsort.mem_iff, List.mem_filter]
    simp [ha]

/-- Only the newest nonces of an account are dropped. -/
theorem truncateQueue_prefix (a : Addr) :
    truncateQueue globalQueue isLocal sort accounts queue a <+: queue a := by
  unfold truncateQueue
  split_ifs
  · exact List.prefix_refl _
  · exact dropLoop_prefix _ _ _ a

/-- The queues end at `GlobalQueue` transactions, or with every account that is not local
emptied if that is not enough. -/
theorem sum_truncateQueue
    (hsort : List.Perm (sort (accounts.filter fun a => !isLocal a))
      (accounts.filter fun a => !isLocal a)) (hnd : accounts.Nodup) :
    (accounts.map fun a => (truncateQueue globalQueue isLocal sort accounts queue a).length).sum =
      (accounts.map fun a => (queue a).length).sum -
        min ((accounts.map fun a => (queue a).length).sum - globalQueue)
          (((accounts.filter fun a => !isLocal a).map fun a => (queue a).length).sum) := by
  dsimp only [truncateQueue]
  split_ifs with hle
  · rw [Nat.sub_eq_zero_of_le hle, Nat.zero_min, Nat.sub_zero]
  · -- the reversed sort holds the same accounts as the filter, so the same total
    have hperm : List.Perm (sort (accounts.filter fun a => !isLocal a)).reverse
        (accounts.filter fun a => !isLocal a) := (List.reverse_perm _).trans hsort
    have hsum := sum_dropLoop hnd queue
      ((accounts.map fun a => (queue a).length).sum - globalQueue)
      (hperm.nodup_iff.mpr (hnd.filter _))
      (fun a ha => (List.mem_filter.mp (hperm.mem_iff.mp ha)).1)
    rw [(hperm.map _).sum_eq] at hsum
    omega

/-- The least recently active accounts are not emptied first: if the account with the newest
heartbeat, among those that are not local, holds at least as many queued transactions as must
go, they all go from it, and every other account keeps its whole queue, however old its
heartbeat. -/
theorem truncateQueue_newest_first (beats : Addr → ℕ)
    (hsort : SortedByHeartbeat beats (accounts.filter fun a => !isLocal a)
      (sort (accounts.filter fun a => !isLocal a)))
    {b : Addr} (hb : b ∈ accounts) (hlb : isLocal b = false)
    (hnewest : ∀ c ∈ accounts, isLocal c = false → c ≠ b → beats c < beats b)
    (hover : globalQueue < (accounts.map fun a => (queue a).length).sum)
    (henough : (accounts.map fun a => (queue a).length).sum - globalQueue ≤ (queue b).length)
    (a : Addr) (hab : a ≠ b) :
    truncateQueue globalQueue isLocal sort accounts queue a = queue a ∧
      truncateQueue globalQueue isLocal sort accounts queue b =
        (queue b).take ((queue b).length -
          ((accounts.map fun a => (queue a).length).sum - globalQueue)) := by
  set drop := (accounts.map fun a => (queue a).length).sum - globalQueue with hdrop
  set sorted := sort (accounts.filter fun a => !isLocal a)
  obtain ⟨hperm, hpair⟩ := hsort
  -- `b` is the last account of the sorted slice, so the loop takes it first
  have hbmem : b ∈ sorted := hperm.mem_iff.mpr (List.mem_filter.mpr ⟨hb, by simp [hlb]⟩)
  have hlast : sorted.getLast (List.ne_nil_of_mem hbmem) = b := by
    by_contra hne
    set x := sorted.getLast (List.ne_nil_of_mem hbmem)
    have hx : x ∈ accounts ∧ (!isLocal x) = true :=
      List.mem_filter.mp (hperm.mem_iff.mp (List.getLast_mem _))
    have hlt := hnewest x hx.1 (by simpa using hx.2) hne
    -- `b` stands before the last account, so its heartbeat is not after the last's
    have hsplit := List.dropLast_append_getLast (List.ne_nil_of_mem hbmem)
    have hbinit : b ∈ sorted.dropLast := by
      have := hbmem
      rw [← hsplit, List.mem_append, List.mem_singleton] at this
      exact this.resolve_right (Ne.symm hne)
    rw [← hsplit, List.pairwise_append] at hpair
    have hle := hpair.2.2 b hbinit x (List.mem_singleton_self x)
    omega
  have hrev : sorted.reverse = b :: sorted.dropLast.reverse := by
    conv_lhs => rw [← List.dropLast_append_getLast (List.ne_nil_of_mem hbmem), hlast]
    simp
  have hpos : 0 < drop := by omega
  obtain ⟨d, hd⟩ : ∃ d, drop = d + 1 := ⟨drop - 1, by omega⟩
  -- one turn on `b` drops all there is to drop
  have hturn : dropAccount queue drop b =
      (Function.update queue b ((queue b).take ((queue b).length - drop)), 0) := by
    rw [dropAccount_eq, Nat.sub_eq_zero_of_le henough]
  have hrun : truncateQueue globalQueue isLocal sort accounts queue =
      Function.update queue b ((queue b).take ((queue b).length - drop)) := by
    unfold truncateQueue
    rw [if_neg (Nat.not_le_of_gt hover)]
    show dropLoop queue drop sorted.reverse = _
    rw [hrev, hd, dropLoop, ← hd, hturn]
    funext c
    cases sorted.dropLast.reverse <;> rfl
  rw [hrun, Function.update_of_ne hab, Function.update_self]
  exact ⟨rfl, rfl⟩

instance neZero_two : NeZero (2 : ℕ) := ⟨by decide⟩

/-- Two accounts, `0` with the older heartbeat. -/
def twoAccounts : List (Fin 2) := [0, 1]

/-- One queued transaction each, the nonce `0`. -/
def oneEach : Fin 2 → List ℕ := fun _ => [0]

/-- No account is local. -/
def noLocals : Fin 2 → Bool := fun _ => false

/-- Two accounts with one queued transaction each and room for one: the account with the
newer heartbeat loses its transaction, the older one keeps it. -/
theorem truncateQueue_newest_first_twoAccounts :
    (SortedByHeartbeat Fin.val (twoAccounts.filter fun a => !noLocals a)
        (id (twoAccounts.filter fun a => !noLocals a)) ∧
      (1 : Fin 2) ∈ twoAccounts ∧ noLocals 1 = false ∧
      (∀ c ∈ twoAccounts, noLocals c = false → c ≠ 1 → c.val < (1 : Fin 2).val) ∧
      1 < (twoAccounts.map fun a => (oneEach a).length).sum ∧
      (twoAccounts.map fun a => (oneEach a).length).sum - 1 ≤ (oneEach 1).length ∧
      (0 : Fin 2) ≠ 1) ∧
    truncateQueue 1 noLocals id twoAccounts oneEach 0 = oneEach 0 ∧
      truncateQueue 1 noLocals id twoAccounts oneEach 1 =
        (oneEach 1).take ((oneEach 1).length -
          ((twoAccounts.map fun a => (oneEach a).length).sum - 1)) :=
  have hsort : SortedByHeartbeat Fin.val (twoAccounts.filter fun a => !noLocals a)
      (id (twoAccounts.filter fun a => !noLocals a)) := ⟨by decide, by decide⟩
  ⟨⟨hsort, by decide, rfl, by decide, by decide, by decide, by decide⟩,
    truncateQueue_newest_first 1 noLocals id twoAccounts oneEach Fin.val hsort (by decide) rfl
      (by decide) (by decide) (by decide) 0 (by decide)⟩

end Truncate

end Classzz.TxPool
