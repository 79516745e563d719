import Mathlib.Data.List.TakeDrop
import Classzz.Core.TxPool.TruncateQueue

/-!
# Truncating the pending lists

`TxPool.truncatePending` in `core/tx_pool.go`, with `txSortedMap.Cap` of `core/tx_list.go` and
`txNoncer.setIfLower` of `core/tx_noncer.go`. When the accounts hold more than `GlobalSlots`
pending transactions, the accounts that are not local and hold more than `AccountSlots` are
pushed into a priority queue by their length. The first phase pops them, longest first, while
the count is above `GlobalSlots`; from the second one on, it caps every earlier offender by one
transaction a round until the one popped before the newest is down to the newest one's length.
If the count is still too high, the second phase caps all offenders a round at a time until the
newest one is down to `AccountSlots`. Each cap drops the highest nonce and lowers the account's
pending nonce with `setIfLower`; the count `pending` goes down by one for each.

An account's list is its transactions as `Flatten` lists them, in nonce order. The order in
which the queue gives the accounts back is a parameter: any order `prque` may pop, that is the
accounts it was given, the longest first (`PoppedLongestFirst`).

The loops return for every state, and what they return is fair in the sense of the function's
comment (`truncatePending_fair`): no local account loses a transaction, no account is cut
below `AccountSlots`, an account loses only its newest transactions with its nonce lowered to
the least of them, and either the total is down to `GlobalSlots` or no account that is not
local holds more than `AccountSlots`. What carries the first phase is that the offenders popped
so far all hold as many transactions as each other while the count stays high (`PopInv`).
-/

namespace Classzz.TxPool

variable {Addr Tx : Type*} [DecidableEq Addr]

/-! ### The model -/

/-- `txSortedMap.Cap(threshold)` on an account's transactions in nonce order: nothing goes if
they are no more than `threshold`; otherwise those past `threshold` go, the highest nonce first.
A negative threshold reads the heap index at `-1`, a panic (`none`). Returns the kept and the
dropped transactions. -/
def cap (threshold : ℤ) (txs : List Tx) : Option (List Tx × List Tx) :=
  if (txs.length : ℤ) ≤ threshold then some (txs, [])
  else if threshold < 0 then none
  else some (txs.take threshold.toNat, (txs.drop threshold.toNat).reverse)

/-- `txNoncer.setIfLower`: the account's nonce becomes `nonce` if that is lower. The noncer's
fallback to the state's nonce for an account it has not seen is part of `nonces`. -/
def setIfLower (nonces : Addr → ℕ) (addr : Addr) (nonce : ℕ) : Addr → ℕ :=
  if nonces addr ≤ nonce then nonces else Function.update nonces addr nonce

/-- The part of the pool `truncatePending` reads and writes. -/
structure Pending (Addr Tx : Type*) where
  /-- each account's pending transactions, in nonce order -/
  pending : Addr → List Tx
  /-- `pool.pendingNonces` -/
  pendingNonces : Addr → ℕ

/-- The state of the loops: the pool, with the running count `pending` of the function. -/
structure Truncation (Addr Tx : Type*) extends Pending Addr Tx where
  count : ℕ

/-- The body of the inner loops for one offender: `list.Cap(list.Len() - 1)`, `setIfLower` with
each dropped transaction's nonce, and `pending--`. -/
def capOffender (nonce : Tx → ℕ) (s : Truncation Addr Tx) (addr : Addr) :
    Option (Truncation Addr Tx) :=
  let list := s.pending addr
  match cap ((list.length : ℤ) - 1) list with
  | none => none
  | some (kept, caps) =>
    some { s with
      pending := Function.update s.pending addr kept
      pendingNonces := caps.foldl (fun nonces tx => setIfLower nonces addr (nonce tx))
        s.pendingNonces
      count := s.count - 1 }

/-- One pass of an inner `for` loop: the offenders `round` capped in turn. -/
def capRound (nonce : Tx → ℕ) (s : Truncation Addr Tx) (round : List Addr) :
    Option (Truncation Addr Tx) :=
  round.foldlM (capOffender nonce) s

/-! ### One offender, one round -/

section Round

variable {nonce : Tx → ℕ}

/-- Capping a nonempty list at one less than its length drops its last transaction. -/
theorem cap_length_sub_one {txs : List Tx} (h : txs ≠ []) :
    cap ((txs.length : ℤ) - 1) txs = some (txs.dropLast, [txs.getLast h]) := by
  have hpos : 0 < txs.length := List.length_pos_iff.mpr h
  have htoNat : ((txs.length : ℤ) - 1).toNat = txs.length - 1 := by omega
  unfold cap
  rw [if_neg (by omega), if_neg (by omega), htoNat, List.drop_length_sub_one h,
    List.dropLast_eq_take]
  rfl

@[simp]
theorem setIfLower_self (nonces : Addr → ℕ) (addr : Addr) (n : ℕ) :
    setIfLower nonces addr n addr = min (nonces addr) n := by
  unfold setIfLower
  split_ifs with h
  · exact (Nat.min_eq_left h).symm
  · rw [Function.update_self]
    exact (Nat.min_eq_right (Nat.le_of_lt (Nat.lt_of_not_le h))).symm

@[simp]
theorem setIfLower_of_ne (nonces : Addr → ℕ) {addr a : Addr} (n : ℕ) (h : a ≠ addr) :
    setIfLower nonces addr n a = nonces a := by
  unfold setIfLower
  split_ifs
  · rfl
  · exact Function.update_of_ne h _ _

theorem capOffender_of_ne_nil {s : Truncation Addr Tx} {addr : Addr} (hne : s.pending addr ≠ []) :
    capOffender nonce s addr = some { s with
      pending := Function.update s.pending addr (s.pending addr).dropLast
      pendingNonces := setIfLower s.pendingNonces addr (nonce ((s.pending addr).getLast hne))
      count := s.count - 1 } := by
  dsimp only [capOffender]
  rw [cap_length_sub_one hne]
  rfl

/-- An offender with nothing left to cap panics: `Cap(-1)` reads its heap index at `-1`. -/
theorem capOffender_of_nil {s : Truncation Addr Tx} {addr : Addr} (h : s.pending addr = []) :
    capOffender nonce s addr = none := by
  dsimp only [capOffender]
  rw [h]
  rfl

/-- What a cap that returns did: the offender had a transaction, and lost its last one. -/
theorem capOffender_eq_some {s s' : Truncation Addr Tx} {addr : Addr}
    (h : capOffender nonce s addr = some s') :
    ∃ hne : s.pending addr ≠ [], s' = { s with
      pending := Function.update s.pending addr (s.pending addr).dropLast
      pendingNonces := setIfLower s.pendingNonces addr (nonce ((s.pending addr).getLast hne))
      count := s.count - 1 } := by
  by_cases hnil : s.pending addr = []
  · rw [capOffender_of_nil hnil] at h
    cases h
  · rw [capOffender_of_ne_nil hnil] at h
    exact ⟨hnil, (Option.some.inj h).symm⟩

theorem capRound_cons (s : Truncation Addr Tx) (b : Addr) (round : List Addr) :
    capRound nonce s (b :: round) = (capOffender nonce s b).bind fun s₁ => capRound nonce s₁ round :=
  rfl

theorem length_capOffender_le {s s' : Truncation Addr Tx} {b : Addr}
    (h : capOffender nonce s b = some s') (a : Addr) :
    (s'.pending a).length ≤ (s.pending a).length := by
  obtain ⟨hne, rfl⟩ := capOffender_eq_some h
  by_cases hab : a = b
  · subst hab
    simp
  · simp [Function.update_of_ne hab]

theorem length_capOffender_lt {s s' : Truncation Addr Tx} {b : Addr}
    (h : capOffender nonce s b = some s') : (s'.pending b).length < (s.pending b).length := by
  obtain ⟨hne, rfl⟩ := capOffender_eq_some h
  have hpos := List.length_pos_iff.mpr hne
  simp only [Function.update_self, List.length_dropLast]
  omega

/-- A round shortens no list. -/
theorem length_capRound_le {s s' : Truncation Addr Tx} {round : List Addr}
    (h : capRound nonce s round = some s') (a : Addr) :
    (s'.pending a).length ≤ (s.pending a).length := by
  induction round generalizing s with
  | nil =>
    cases h
    exact Nat.le_refl _
  | cons b round ih =>
    rw [capRound_cons, Option.bind_eq_some_iff] at h
    obtain ⟨s₁, h₁, h₂⟩ := h
    exact Nat.le_trans (ih h₂) (length_capOffender_le h₁ a)

/-- A round that returns shortens each offender it caps. -/
theorem length_capRound_lt {s s' : Truncation Addr Tx} {round : List Addr}
    (h : capRound nonce s round = some s') {a : Addr} (ha : a ∈ round) :
    (s'.pending a).length < (s.pending a).length := by
  induction round generalizing s with
  | nil => exact absurd ha List.not_mem_nil
  | cons b round ih =>
    rw [capRound_cons, Option.bind_eq_some_iff] at h
    obtain ⟨s₁, h₁, h₂⟩ := h
    rcases List.mem_cons.mp ha with rfl | ha
    · exact Nat.lt_of_le_of_lt (length_capRound_le h₂ a) (length_capOffender_lt h₁)
    · exact Nat.lt_of_lt_of_le (ih h₂ ha) (length_capOffender_le h₁ a)

end Round

/-! ### The loops -/

/-- `for pending > GlobalSlots && pool.pending[watch].Len() > bound`, capping a round of
offenders each time: `watch :: older` are the offenders up to `watch`, newest first, and a round
takes them oldest first. The first phase runs it with the newest offender's length as `bound`
and the one before it as `watch`; the second with `AccountSlots` and the newest as `watch`.
Each round shortens `watch`'s list, so the loop ends. -/
def capWhile (nonce : Tx → ℕ) (globalSlots bound : ℕ) (watch : Addr) (older : List Addr)
    (s : Truncation Addr Tx) : Option (Truncation Addr Tx) :=
  if globalSlots < s.count ∧ bound < (s.pending watch).length then
    match _hround : capRound nonce s (watch :: older).reverse with
    | none => none
    | some s' => capWhile nonce globalSlots bound watch older s'
  else some s
termination_by (s.pending watch).length
decreasing_by exact length_capRound_lt _hround (List.mem_reverse.mpr List.mem_cons_self)

/-- The first phase: pop the next offender while the count is above `GlobalSlots`, and from the
second on bring the earlier ones down to its length. `offenders` is newest first. -/
def popLoop (nonce : Tx → ℕ) (globalSlots : ℕ) :
    List Addr → List Addr → Truncation Addr Tx → Option (Truncation Addr Tx × List Addr)
  | [], offenders, s => some (s, offenders)
  | offender :: spammers, offenders, s =>
    if globalSlots < s.count then
      match offenders with
      | [] => popLoop nonce globalSlots spammers [offender] s
      | watch :: older =>
        match capWhile nonce globalSlots (s.pending offender).length watch older s with
        | none => none
        | some s' => popLoop nonce globalSlots spammers (offender :: watch :: older) s'
    else some (s, offenders)

/-- The accounts pushed into `spammers`: not local, and holding more than `AccountSlots`. -/
def spammers (accountSlots : ℕ) (isLocal : Addr → Bool) (accounts : List Addr)
    (pending : Addr → List Tx) : List Addr :=
  accounts.filter fun a => !isLocal a && decide (accountSlots < (pending a).length)

/-- `popped` is an order in which `prque` may give back the accounts `pushed`, each pushed with
its length as priority: the same accounts, the greatest priority first. -/
def PoppedLongestFirst (len : Addr → ℕ) (pushed popped : List Addr) : Prop :=
  List.Perm popped pushed ∧ popped.Pairwise fun a b => len b ≤ len a

/-- `truncatePending` on the accounts `accounts` (the keys of `pool.pending`), with
`GlobalSlots`, `AccountSlots`, the pool's local accounts and `pop`, the order in which the queue
gives back what was pushed into it. `none` is a panic. -/
def truncatePending (nonce : Tx → ℕ) (globalSlots accountSlots : ℕ) (isLocal : Addr → Bool)
    (pop : List Addr → List Addr) (accounts : List Addr) (p : Pending Addr Tx) :
    Option (Pending Addr Tx) :=
  let pending := (accounts.map fun a => (p.pending a).length).sum
  if pending ≤ globalSlots then some p
  else
    let order := pop (spammers accountSlots isLocal accounts p.pending)
    match popLoop nonce globalSlots order [] { p with count := pending } with
    | none => none
    | some (s, offenders) =>
      -- if still above the limit, the second phase, on the newest offender
      match offenders with
      | watch :: older =>
        if globalSlots < s.count then
          (capWhile nonce globalSlots accountSlots watch older s).map Truncation.toPending
        else some s.toPending
      | [] => some s.toPending

/-! ### What the caps keep -/

/-- The least of `n` and the nonces of `dropped`: what `setIfLower` leaves of an account's
nonce once `dropped` are gone. -/
def lowestNonce (nonce : Tx → ℕ) (n : ℕ) (dropped : List Tx) : ℕ :=
  dropped.foldr (fun tx m => min (nonce tx) m) n

/-- What the function's comment promises of a result `p'` of the pool `p`: no local account
loses a transaction, no account is cut below `AccountSlots`, an account loses only its newest
transactions and its pending nonce ends at the least of its old value and their nonces, and
either the pending total is down to `GlobalSlots` or no account that is not local holds more
than `AccountSlots`. -/
structure Fair (nonce : Tx → ℕ) (globalSlots accountSlots : ℕ) (isLocal : Addr → Bool)
    (accounts : List Addr) (p p' : Pending Addr Tx) : Prop where
  locals : ∀ a, isLocal a = true → p'.pending a = p.pending a
  floor : ∀ a, (p'.pending a).length < accountSlots → p'.pending a = p.pending a
  newest : ∀ a, p'.pending a <+: p.pending a ∧ p'.pendingNonces a =
    lowestNonce nonce (p.pendingNonces a) ((p.pending a).drop (p'.pending a).length)
  limit : (accounts.map fun a => (p'.pending a).length).sum ≤ globalSlots ∨
    ∀ a ∈ accounts, isLocal a = false → (p'.pending a).length ≤ accountSlots

section Nonces

variable {nonce : Tx → ℕ}

theorem le_lowestNonce {m n : ℕ} {dropped : List Tx} (hn : m ≤ n)
    (hd : ∀ tx ∈ dropped, m ≤ nonce tx) : m ≤ lowestNonce nonce n dropped := by
  induction dropped with
  | nil => exact hn
  | cons tx dropped ih =>
    exact Nat.le_min.mpr ⟨hd tx List.mem_cons_self,
      ih fun t ht => hd t (List.mem_cons_of_mem tx ht)⟩

/-- Where an account's transactions run in increasing nonce order below its pending nonce, as
in the pool's states, the least of what is dropped from position `k` on is the nonce at `k`:
the smallest nonce dropped. -/
theorem lowestNonce_drop {txs : List Tx} {n k : ℕ} (hsorted : (txs.map nonce).Pairwise (· < ·))
    (hn : ∀ tx ∈ txs, nonce tx < n) (hk : k < txs.length) :
    lowestNonce nonce n (txs.drop k) = nonce txs[k] := by
  have hp : (txs.drop k).Pairwise fun a b => nonce a < nonce b :=
    (List.pairwise_map.mp hsorted).sublist (List.drop_sublist _ _)
  rw [List.drop_eq_getElem_cons hk] at hp ⊢
  have hrest : nonce txs[k] ≤ lowestNonce nonce n (txs.drop (k + 1)) :=
    le_lowestNonce (Nat.le_of_lt (hn _ (List.getElem_mem hk)))
      fun tx htx => Nat.le_of_lt ((List.pairwise_cons.mp hp).1 tx htx)
  exact Nat.min_eq_left hrest

omit [DecidableEq Addr] in
/-- In a fair result, an account that lost transactions, which ran in increasing nonce order
below its pending nonce, ends with its pending nonce at the smallest nonce it lost. -/
theorem Fair.pendingNonces_eq {globalSlots accountSlots : ℕ} {isLocal : Addr → Bool}
    {accounts : List Addr} {p p' : Pending Addr Tx}
    (h : Fair nonce globalSlots accountSlots isLocal accounts p p') {a : Addr}
    (hsorted : ((p.pending a).map nonce).Pairwise (· < ·))
    (hn : ∀ tx ∈ p.pending a, nonce tx < p.pendingNonces a)
    (hlost : (p'.pending a).length < (p.pending a).length) :
    p'.pendingNonces a = nonce (p.pending a)[(p'.pending a).length] := by
  rw [(h.newest a).2]
  exact lowestNonce_drop hsorted hn hlost

end Nonces

section Tracks

variable (nonce : Tx → ℕ) (accounts : List Addr) (p : Pending Addr Tx)

/-- What the loops keep of the pool `p` they started from: each list is a prefix of its start,
each nonce the least of its start and the nonces dropped, and the count is the total. -/
structure Tracks (s : Truncation Addr Tx) : Prop where
  kept : ∀ a, s.pending a <+: p.pending a
  nonces : ∀ a, s.pendingNonces a =
    lowestNonce nonce (p.pendingNonces a) ((p.pending a).drop (s.pending a).length)
  count : s.count = (accounts.map fun a => (s.pending a).length).sum

variable {nonce accounts p}

omit [DecidableEq Addr] in
theorem tracks_start :
    Tracks nonce accounts p { p with count := (accounts.map fun a => (p.pending a).length).sum } :=
  ⟨fun a => List.prefix_refl _, fun a => by simp [lowestNonce], rfl⟩

/-- Dropping the last of a nonempty prefix `l` of `L` adds it in front of what is dropped of
`L`. -/
theorem drop_length_sub_one_of_prefix {l L : List Tx} (hp : l <+: L) (hne : l ≠ []) :
    L.drop (l.length - 1) = l.getLast hne :: L.drop l.length := by
  obtain ⟨t, rfl⟩ := hp
  rw [List.drop_append_of_le_length (Nat.sub_le _ _), List.drop_length_sub_one hne, List.drop_left]
  rfl

/-- The step: a cap of an account keeps `Tracks`. -/
theorem Tracks.capOffender {s s' : Truncation Addr Tx} {b : Addr} (hT : Tracks nonce accounts p s)
    (hnd : accounts.Nodup) (hb : b ∈ accounts) (h : capOffender nonce s b = some s') :
    Tracks nonce accounts p s' := by
  obtain ⟨hne, rfl⟩ := capOffender_eq_some h
  have hpos := List.length_pos_iff.mpr hne
  refine ⟨fun a => ?_, fun a => ?_, ?_⟩
  · dsimp only
    by_cases hab : a = b
    · subst hab
      rw [Function.update_self]
      exact (List.dropLast_prefix _).trans (hT.kept a)
    · rw [Function.update_of_ne hab]
      exact hT.kept a
  · dsimp only
    by_cases hab : a = b
    · -- the dropped transaction joins those already dropped, in front
      subst hab
      rw [Function.update_self, setIfLower_self, List.length_dropLast,
        drop_length_sub_one_of_prefix (hT.kept a) hne, hT.nonces a]
      simp only [lowestNonce, List.foldr_cons]
      exact Nat.min_comm _ _
    · rw [Function.update_of_ne hab, setIfLower_of_ne _ _ hab]
      exact hT.nonces a
  · have hsum := sum_update hnd s.pending hb (s.pending b).dropLast
    rw [List.length_dropLast] at hsum
    have hcount := hT.count
    dsimp only
    omega

/-- A round over distinct accounts, each with a transaction, caps each of them once and keeps
`Tracks`. -/
theorem Tracks.capRound {s : Truncation Addr Tx} {round : List Addr}
    (hT : Tracks nonce accounts p s) (hnd : accounts.Nodup) (hround : round.Nodup)
    (hsub : ∀ a ∈ round, a ∈ accounts) (hne : ∀ a ∈ round, s.pending a ≠ []) :
    ∃ s', capRound nonce s round = some s' ∧ Tracks nonce accounts p s' ∧
      ∀ a, s'.pending a = if a ∈ round then (s.pending a).dropLast else s.pending a := by
  induction round generalizing s with
  | nil => exact ⟨s, rfl, hT, fun a => by simp⟩
  | cons b round ih =>
    obtain ⟨hb, hround'⟩ := List.nodup_cons.mp hround
    obtain ⟨s₁, h₁⟩ : ∃ s₁, TxPool.capOffender nonce s b = some s₁ :=
      ⟨_, capOffender_of_ne_nil (hne b List.mem_cons_self)⟩
    have hpend₁ : s₁.pending = Function.update s.pending b (s.pending b).dropLast := by
      obtain ⟨_, rfl⟩ := capOffender_eq_some h₁
      rfl
    -- the rest of the round sees its offenders as they were
    have hrest : ∀ a ∈ round, s₁.pending a = s.pending a := fun a ha => by
      rw [hpend₁, Function.update_of_ne (fun (h : a = b) => hb (h ▸ ha))]
    obtain ⟨s', h', hT', hpend'⟩ := ih (hT.capOffender hnd (hsub b List.mem_cons_self) h₁)
      hround' (fun a ha => hsub a (List.mem_cons_of_mem b ha))
      (fun a ha => hrest a ha ▸ hne a (List.mem_cons_of_mem b ha))
    refine ⟨s', by rw [capRound_cons, h₁]; exact h', hT', fun a => ?_⟩
    rw [hpend' a]
    by_cases haR : a ∈ round
    · rw [if_pos haR, if_pos (List.mem_cons_of_mem b haR), hrest a haR]
    · rw [if_neg haR, hpend₁]
      by_cases hab : a = b
      · subst hab
        rw [if_pos List.mem_cons_self, Function.update_self]
      · rw [if_neg (by simp [hab, haR]), Function.update_of_ne hab]

end Tracks

/-! ### The loops' runs -/

section Run

variable {nonce : Tx → ℕ} {globalSlots bound : ℕ} {watch : Addr} {older : List Addr}

theorem capWhile_stop {s : Truncation Addr Tx}
    (h : ¬(globalSlots < s.count ∧ bound < (s.pending watch).length)) :
    capWhile nonce globalSlots bound watch older s = some s := by
  rw [capWhile, if_neg h]

theorem capWhile_round {s s₁ : Truncation Addr Tx}
    (h : globalSlots < s.count ∧ bound < (s.pending watch).length)
    (h₁ : capRound nonce s (watch :: older).reverse = some s₁) :
    capWhile nonce globalSlots bound watch older s =
      capWhile nonce globalSlots bound watch older s₁ := by
  rw [capWhile, if_pos h]
  split
  · next heq =>
    rw [h₁] at heq
    cases heq
  · next s' heq =>
    rw [h₁] at heq
    cases heq
    rfl

/-- The offenders `round` all hold `len` transactions. -/
def Level (s : Truncation Addr Tx) (round : List Addr) (len : ℕ) : Prop :=
  ∀ a ∈ round, (s.pending a).length = len

variable {accounts : List Addr} {p : Pending Addr Tx}

/-- The run of `capWhile`: from offenders at one level, not below `bound`, it returns with them
at one level still, not below `bound`, and down to `bound` if the count is still high; no other
account changes. The induction is on the offenders' level. -/
theorem Tracks.capWhile {s : Truncation Addr Tx} {len : ℕ} (hT : Tracks nonce accounts p s)
    (hnd : accounts.Nodup) (hround : (watch :: older).Nodup)
    (hsub : ∀ a ∈ watch :: older, a ∈ accounts) (hlev : Level s (watch :: older) len)
    (hbound : bound ≤ len) :
    ∃ s' len', capWhile nonce globalSlots bound watch older s = some s' ∧
      Tracks nonce accounts p s' ∧ (∀ a ∉ watch :: older, s'.pending a = s.pending a) ∧
      Level s' (watch :: older) len' ∧ bound ≤ len' ∧ (globalSlots < s'.count → len' ≤ bound) := by
  induction len generalizing s with
  | zero =>
    -- nothing above the bound: the loop does not run
    have hw := hlev watch List.mem_cons_self
    exact ⟨s, 0, capWhile_stop (by omega), hT, fun _ _ => rfl, hlev, hbound,
      fun _ => Nat.zero_le _⟩
  | succ len ih =>
    have hw := hlev watch List.mem_cons_self
    by_cases hrun : globalSlots < s.count ∧ bound < (s.pending watch).length
    · -- one round takes every offender down by one
      have hne : ∀ a ∈ (watch :: older).reverse, s.pending a ≠ [] := fun a ha => by
        rw [← List.length_pos_iff, hlev a (List.mem_reverse.mp ha)]
        exact Nat.succ_pos len
      obtain ⟨s₁, h₁, hT₁, hpend₁⟩ := hT.capRound hnd ((List.reverse_perm _).nodup_iff.mpr hround)
        (fun a ha => hsub a (List.mem_reverse.mp ha)) hne
      have hlev₁ : Level s₁ (watch :: older) len := fun a ha => by
        rw [hpend₁ a, if_pos (List.mem_reverse.mpr ha), List.length_dropLast, hlev a ha]
        rfl
      obtain ⟨s', len', h', hT', hframe', hrest'⟩ := ih hT₁ hlev₁ (by omega)
      refine ⟨s', len', by rw [capWhile_round hrun h₁]; exact h', hT', fun a ha => ?_, hrest'⟩
      rw [hframe' a ha, hpend₁ a, if_neg (fun h => ha (List.mem_reverse.mp h))]
    · refine ⟨s, len + 1, capWhile_stop hrun, hT, fun _ _ => rfl, hlev, hbound, fun hc => ?_⟩
      omega

end Run

/-! ### The first phase -/

section Pop

variable (nonce : Tx → ℕ) (globalSlots accountSlots : ℕ) (accounts : List Addr)
  (p : Pending Addr Tx)

/-- What the first phase keeps between pops, of the offenders popped so far (newest first):
only they have lost transactions, the newest none, all still hold more than `AccountSlots`,
and while the count is above `GlobalSlots` they hold as many as each other. -/
structure PopInv (s : Truncation Addr Tx) (offenders : List Addr) : Prop where
  tracks : Tracks nonce accounts p s
  frame : ∀ a ∉ offenders, s.pending a = p.pending a
  newest : ∀ w ∈ offenders.head?, s.pending w = p.pending w
  above : ∀ a ∈ offenders, accountSlots < (s.pending a).length
  level : globalSlots < s.count → ∃ len, Level s offenders len

/-- The order the queue pops in: distinct accounts of `accounts` that are not local and hold
more than `AccountSlots`, the longest first. -/
structure PopOrder (isLocal : Addr → Bool) (order : List Addr) : Prop where
  nodup : order.Nodup
  longest : order.Pairwise fun a b => (p.pending b).length ≤ (p.pending a).length
  spam : ∀ a ∈ order, a ∈ accounts ∧ isLocal a = false ∧ accountSlots < (p.pending a).length

variable {nonce globalSlots accountSlots accounts p}

omit [DecidableEq Addr] in
theorem popInv_start :
    PopInv nonce globalSlots accountSlots accounts p
      { p with count := (accounts.map fun a => (p.pending a).length).sum } [] :=
  ⟨tracks_start, fun _ _ => rfl, fun _ h => absurd h (by simp), fun _ h => absurd h List.not_mem_nil,
    fun _ => ⟨0, fun _ h => absurd h List.not_mem_nil⟩⟩

variable {isLocal : Addr → Bool} {order : List Addr}

omit [DecidableEq Addr] in
theorem PopOrder.spam_of_offender (hO : PopOrder accountSlots accounts p isLocal order)
    {offenders rest : List Addr} (horder : offenders.reverse ++ rest = order) {a : Addr}
    (ha : a ∈ offenders) :
    a ∈ accounts ∧ isLocal a = false ∧ accountSlots < (p.pending a).length :=
  hO.spam a (horder ▸ List.mem_append_left _ (List.mem_reverse.mpr ha))

omit [DecidableEq Addr] in
theorem PopOrder.nodup_offenders (hO : PopOrder accountSlots accounts p isLocal order)
    {offenders rest : List Addr} (horder : offenders.reverse ++ rest = order) :
    offenders.Nodup := by
  have hnd : (offenders.reverse ++ rest).Nodup := horder ▸ hO.nodup
  exact (List.reverse_perm _).nodup_iff.mp (List.nodup_append.mp hnd).1

omit [DecidableEq Addr] in
/-- The step: popping the first offender starts the list of offenders. -/
theorem PopInv.pop_first {s : Truncation Addr Tx} {o : Addr} {rest : List Addr}
    (hO : PopOrder accountSlots accounts p isLocal order)
    (hinv : PopInv nonce globalSlots accountSlots accounts p s []) (horder : o :: rest = order) :
    PopInv nonce globalSlots accountSlots accounts p s [o] := by
  have ho : o ∈ order := horder ▸ List.mem_cons_self
  have hso : s.pending o = p.pending o := hinv.frame o List.not_mem_nil
  refine ⟨hinv.tracks, fun a ha => hinv.frame a List.not_mem_nil, fun w hw => ?_, fun a ha => ?_,
    fun _ => ⟨(s.pending o).length, fun a ha => by rw [List.mem_singleton.mp ha]⟩⟩
  · rw [← Option.mem_some_iff.mp hw]
    exact hso
  · rw [List.mem_singleton.mp ha, hso]
    exact (hO.spam o ho).2.2

/-- The step: popping a later offender `o` and bringing the earlier ones down to its length
keeps the invariant. The earlier ones are at one level, that of the newest of them, which was
popped before `o` and so is no shorter. -/
theorem PopInv.pop_next {s : Truncation Addr Tx} {o w : Addr} {older rest : List Addr}
    (hnd : accounts.Nodup) (hO : PopOrder accountSlots accounts p isLocal order)
    (hinv : PopInv nonce globalSlots accountSlots accounts p s (w :: older))
    (horder : (w :: older).reverse ++ o :: rest = order) (hc : globalSlots < s.count) :
    ∃ s', capWhile nonce globalSlots (s.pending o).length w older s = some s' ∧
      PopInv nonce globalSlots accountSlots accounts p s' (o :: w :: older) := by
  have hnd' : ((w :: older).reverse ++ o :: rest).Nodup := horder ▸ hO.nodup
  have hpair' : ((w :: older).reverse ++ o :: rest).Pairwise
      fun a b => (p.pending b).length ≤ (p.pending a).length := horder ▸ hO.longest
  rw [List.nodup_append] at hnd'
  rw [List.pairwise_append] at hpair'
  have hw : w ∈ (w :: older).reverse := List.mem_reverse.mpr List.mem_cons_self
  have ho : o ∉ w :: older := fun h => hnd'.2.2 o (List.mem_reverse.mpr h) o List.mem_cons_self rfl
  have hoo : o ∈ order := horder ▸ List.mem_append_right _ List.mem_cons_self
  have hso : s.pending o = p.pending o := hinv.frame o ho
  have hsw : s.pending w = p.pending w := hinv.newest w rfl
  obtain ⟨len, hlev⟩ := hinv.level hc
  -- the new bound is no more than the earlier offenders' level
  have hbound : (s.pending o).length ≤ len := by
    rw [← hlev w List.mem_cons_self, hso, hsw]
    exact hpair'.2.2 w hw o List.mem_cons_self
  obtain ⟨s', len', h', hT', hframe', hlev', hb', hdone'⟩ :=
    hinv.tracks.capWhile hnd (hO.nodup_offenders horder)
      (fun a ha => (hO.spam_of_offender horder ha).1) hlev hbound
  have hslots : accountSlots < (s.pending o).length := by
    rw [hso]
    exact (hO.spam o hoo).2.2
  refine ⟨s', h', hT', fun a ha => ?_, fun x hx => ?_, fun a ha => ?_, fun hc' => ⟨len', ?_⟩⟩
  · have ha' : a ∉ w :: older := fun h => ha (List.mem_cons_of_mem o h)
    rw [hframe' a ha', hinv.frame a ha']
  · rw [← Option.mem_some_iff.mp hx, hframe' o ho, hso]
  · rcases List.mem_cons.mp ha with h | ha
    · rw [h, hframe' o ho]
      exact hslots
    · rw [hlev' a ha]
      exact Nat.lt_of_lt_of_le hslots hb'
  · -- the count still high, the earlier offenders are down to `o`'s length
    intro a ha
    rcases List.mem_cons.mp ha with h | ha
    · rw [h, hframe' o ho]
      exact Nat.le_antisymm hb' (hdone' hc')
    · exact hlev' a ha

/-- The run of the first phase: from the invariant, with `rest` left to pop, it returns with
the invariant, having popped a prefix of the order, and all of it if the count is still high.
The induction is on what is left to pop. -/
theorem PopInv.popLoop {s : Truncation Addr Tx} {offenders rest : List Addr}
    (hnd : accounts.Nodup) (hO : PopOrder accountSlots accounts p isLocal order)
    (hinv : PopInv nonce globalSlots accountSlots accounts p s offenders)
    (horder : offenders.reverse ++ rest = order) :
    ∃ s' offenders', TxPool.popLoop nonce globalSlots rest offenders s = some (s', offenders') ∧
      PopInv nonce globalSlots accountSlots accounts p s' offenders' ∧
      ∃ rest', offenders'.reverse ++ rest' = order ∧ (globalSlots < s'.count → rest' = []) := by
  induction rest generalizing s offenders with
  | nil => exact ⟨s, offenders, rfl, hinv, [], horder, fun _ => rfl⟩
  | cons o rest ih =>
    by_cases hc : globalSlots < s.count
    · cases offenders with
      | nil =>
        obtain ⟨s', offenders', h', hrun⟩ := ih (hinv.pop_first hO horder) (by simpa using horder)
        refine ⟨s', offenders', ?_, hrun⟩
        rw [TxPool.popLoop, if_pos hc]
        exact h'
      | cons w older =>
        obtain ⟨s₁, h₁, hinv₁⟩ := hinv.pop_next hnd hO horder hc
        obtain ⟨s', offenders', h', hrun⟩ := ih hinv₁ (by simpa using horder)
        refine ⟨s', offenders', ?_, hrun⟩
        rw [TxPool.popLoop, if_pos hc, h₁]
        exact h'
    · have h : TxPool.popLoop nonce globalSlots (o :: rest) offenders s = some (s, offenders) := by
        cases offenders <;> simp [TxPool.popLoop, hc]
      exact ⟨s, offenders, h, hinv, o :: rest, horder, fun h => absurd h hc⟩

end Pop

/-! ### The result -/

section Result

variable (nonce : Tx → ℕ) (accountSlots : ℕ) (accounts : List Addr) (p : Pending Addr Tx)

/-- What the function returns, of its offenders: only they have lost transactions, and none is
below `AccountSlots`. -/
structure Outcome (s : Truncation Addr Tx) (offenders : List Addr) : Prop where
  tracks : Tracks nonce accounts p s
  frame : ∀ a ∉ offenders, s.pending a = p.pending a
  floor : ∀ a ∈ offenders, accountSlots ≤ (s.pending a).length

variable {nonce accountSlots accounts p} {globalSlots : ℕ} {isLocal : Addr → Bool}

omit [DecidableEq Addr] in
theorem PopInv.outcome {s : Truncation Addr Tx} {offenders : List Addr}
    (hinv : PopInv nonce globalSlots accountSlots accounts p s offenders) :
    Outcome nonce accountSlots accounts p s offenders :=
  ⟨hinv.tracks, hinv.frame, fun a ha => Nat.le_of_lt (hinv.above a ha)⟩

omit [DecidableEq Addr] in
/-- A result whose offenders are not local is fair once it is within one of the two limits. -/
theorem Outcome.fair {s : Truncation Addr Tx} {offenders : List Addr}
    (h : Outcome nonce accountSlots accounts p s offenders)
    (hloc : ∀ a ∈ offenders, isLocal a = false)
    (hlimit : (accounts.map fun a => (s.pending a).length).sum ≤ globalSlots ∨
      ∀ a ∈ accounts, isLocal a = false → (s.pending a).length ≤ accountSlots) :
    Fair nonce globalSlots accountSlots isLocal accounts p s.toPending := by
  refine ⟨fun a ha => h.frame a fun hm => ?_, fun a ha => h.frame a fun hm => ?_,
    fun a => ⟨h.tracks.kept a, h.tracks.nonces a⟩, hlimit⟩
  · rw [hloc a hm] at ha
    cases ha
  · have hfloor := h.floor a hm
    omega

omit [DecidableEq Addr] in
theorem mem_spammers {pending : Addr → List Tx} {a : Addr} :
    a ∈ spammers accountSlots isLocal accounts pending ↔
      a ∈ accounts ∧ isLocal a = false ∧ accountSlots < (pending a).length := by
  simp [spammers]

omit [DecidableEq Addr] in
theorem PoppedLongestFirst.popOrder {order : List Addr} (hnd : accounts.Nodup)
    (h : PoppedLongestFirst (fun a => (p.pending a).length)
      (spammers accountSlots isLocal accounts p.pending) order) :
    PopOrder accountSlots accounts p isLocal order :=
  ⟨h.1.nodup_iff.mpr (hnd.filter _), h.2, fun _ ha => mem_spammers.mp (h.1.mem_iff.mp ha)⟩

omit [DecidableEq Addr] in
/-- An account that is not local and was never pushed holds no more than `AccountSlots`. -/
theorem le_accountSlots_of_not_mem {order : List Addr}
    (hperm : List.Perm order (spammers accountSlots isLocal accounts p.pending)) {a : Addr}
    (ha : a ∈ accounts) (hl : isLocal a = false) (hno : a ∉ order) :
    (p.pending a).length ≤ accountSlots := by
  by_contra hlt
  exact hno (hperm.mem_iff.mpr (mem_spammers.mpr ⟨ha, hl, by omega⟩))

end Result

/-- `truncatePending` returns, for every pool, and what it returns is `Fair`. -/
theorem truncatePending_fair (nonce : Tx → ℕ) (globalSlots accountSlots : ℕ)
    (isLocal : Addr → Bool) (pop : List Addr → List Addr) {accounts : List Addr}
    (hnd : accounts.Nodup) (p : Pending Addr Tx)
    (hpop : PoppedLongestFirst (fun a => (p.pending a).length)
      (spammers accountSlots isLocal accounts p.pending)
      (pop (spammers accountSlots isLocal accounts p.pending))) :
    ∃ p', truncatePending nonce globalSlots accountSlots isLocal pop accounts p = some p' ∧
      Fair nonce globalSlots accountSlots isLocal accounts p p' := by
  have hO := hpop.popOrder hnd
  dsimp only [truncatePending]
  split_ifs with hle
  · -- at or below the limit nothing is dropped
    exact ⟨p, rfl, fun _ _ => rfl, fun _ _ => rfl,
      fun a => ⟨List.prefix_refl _, by simp [lowestNonce]⟩, .inl hle⟩
  · obtain ⟨s, offenders, h₁, hinv, rest, horder, hall⟩ :=
      popInv_start.popLoop hnd hO (List.nil_append _)
    rw [h₁]
    have hloc : ∀ a ∈ offenders, isLocal a = false := fun a ha =>
      (hO.spam_of_offender horder ha).2.1
    -- with the count still high every account was popped, so the others were within the limit
    have hrest : globalSlots < s.count → ∀ a ∈ accounts, isLocal a = false → a ∉ offenders →
        (s.pending a).length ≤ accountSlots := fun hc a ha hl hno => by
      rw [hinv.frame a hno]
      refine le_accountSlots_of_not_mem hpop.1 ha hl fun hm => hno ?_
      rw [← horder, hall hc, List.append_nil] at hm
      exact List.mem_reverse.mp hm
    have hsum : ¬globalSlots < s.count →
        (accounts.map fun a => (s.pending a).length).sum ≤ globalSlots := fun hc => by
      rw [← hinv.tracks.count]
      omega
    cases offenders with
    | nil =>
      refine ⟨s.toPending, rfl, hinv.outcome.fair hloc ?_⟩
      by_cases hc : globalSlots < s.count
      · exact .inr fun a ha hl => hrest hc a ha hl List.not_mem_nil
      · exact .inl (hsum hc)
    | cons w older =>
      dsimp only
      by_cases hc : globalSlots < s.count
      · -- the second phase, down to `AccountSlots`
        rw [if_pos hc]
        obtain ⟨len, hlev⟩ := hinv.level hc
        have hbound : accountSlots ≤ len := by
          rw [← hlev w List.mem_cons_self]
          exact Nat.le_of_lt (hinv.above w List.mem_cons_self)
        obtain ⟨s', len', h', hT', hframe', hlev', hb', hdone'⟩ :=
          hinv.tracks.capWhile hnd (hO.nodup_offenders horder)
            (fun a ha => (hO.spam_of_offender horder ha).1) hlev hbound
        rw [h']
        have hout : Outcome nonce accountSlots accounts p s' (w :: older) :=
          ⟨hT', fun a ha => (hframe' a ha).trans (hinv.frame a ha),
            fun a ha => hlev' a ha ▸ hb'⟩
        refine ⟨s'.toPending, rfl, hout.fair hloc ?_⟩
        by_cases hc' : globalSlots < s'.count
        · refine .inr fun a ha hl => ?_
          by_cases hm : a ∈ w :: older
          · rw [hlev' a hm]
            exact hdone' hc'
          · rw [hframe' a hm]
            exact hrest hc a ha hl hm
        · refine .inl ?_
          rw [← hT'.count]
          omega
      · rw [if_neg hc]
        exact ⟨s.toPending, rfl, hinv.outcome.fair hloc (.inl (hsum hc))⟩

/-- Two accounts that are not local, with three and two pending transactions. -/
def twoSpammers : Pending (Fin 2) ℕ :=
  ⟨fun a => if a = 0 then [0, 1, 2] else [0, 1], fun a => if a = 0 then 3 else 2⟩

/-- Two global slots and one slot an account, for the two accounts popped longest first. -/
theorem truncatePending_fair_twoSpammers :
    twoAccounts.Nodup ∧
      PoppedLongestFirst (fun a => (twoSpammers.pending a).length)
        (spammers 1 noLocals twoAccounts twoSpammers.pending)
        (id (spammers 1 noLocals twoAccounts twoSpammers.pending)) ∧
      ∃ p', truncatePending id 2 1 noLocals id twoAccounts twoSpammers = some p' ∧
        Fair id 2 1 noLocals twoAccounts twoSpammers p' :=
  have hpop : PoppedLongestFirst (fun a => (twoSpammers.pending a).length)
      (spammers 1 noLocals twoAccounts twoSpammers.pending)
      (id (spammers 1 noLocals twoAccounts twoSpammers.pending)) := ⟨by decide, by decide⟩
  ⟨by decide, hpop, truncatePending_fair id 2 1 noLocals id (by decide) twoSpammers hpop⟩

end Classzz.TxPool
