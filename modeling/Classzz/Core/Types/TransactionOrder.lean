import Mathlib.Data.Prod.Lex
import Mathlib.Data.List.AList
import Mathlib.Data.List.Nodup
import Classzz.Core.Types.Receipt
import Classzz.Lib.BinaryHeap
import Classzz.Lib.Run

/-!
# The miner's order of transactions

`TransactionsByPriceAndNonce` hands the miner its pending transactions one at a time: the best
paying among the next transactions of all senders, and each sender's transactions in their
order. It keeps the next transaction of every sender, its head, in a price heap
(`TxByPriceAndTime` over `container/heap`) and the rest of each sender's list in a map. `Shift`
replaces the best head by the next transaction of its sender; `Pop` drops the sender.

A transaction is kept with the fields the ordering reads, its nonce, fee caps and the time it
was first seen (`PendingTx`). `Sender` is a function given with the set: recovering it from the
signature is not modelled. The map is a
function from addresses to optional lists; the map handed to the constructor is the list of
its entries in the order Go's `range` visits them, which may be any order.

The miner calls `Peek` and then `Shift` or `Pop`; `step` is one such call, and the trace of a
run records what each `Peek` returned and the call after it. What a run keeps is `Tracks`:
the heap is ordered, every head was wrapped at the set's base fee, and for each sender the
transactions Peek returned, its head and the rest of its list in the map make up its list, in
order, with a Pop only ever last.
-/

namespace Classzz

/-- A pending transaction as the miner orders it: the transaction, which names its signer, the
nonce and the two fee caps of its inner data (a legacy or access-list transaction has its
`GasPrice` as both caps), and `time`, when it was first seen. -/
structure PendingTx where
  tx : Transaction
  nonce : UInt64
  gasTipCap : ℤ
  gasFeeCap : ℤ
  time : ℤ
  deriving DecidableEq, Repr

/-- The error of `EffectiveGasTip`, `ErrGasFeeCapTooLow`. -/
inductive GasTipError where
  | gasFeeCapTooLow
  deriving DecidableEq, Repr

namespace PendingTx

/-- `EffectiveGasTip`: what the miner earns per gas at `baseFee`, and
`ErrGasFeeCapTooLow` alongside when the fee cap is below the base fee. -/
def effectiveGasTip (tx : PendingTx) : Option ℤ → ℤ × Option GasTipError
  | none => (tx.gasTipCap, none)
  | some baseFee =>
    (min tx.gasTipCap (tx.gasFeeCap - baseFee),
      if cmp tx.gasFeeCap baseFee = -1 then some .gasFeeCapTooLow else none)

/-- `EffectiveGasTipValue`: the tip without the error. -/
def effectiveGasTipValue (tx : PendingTx) (baseFee : Option ℤ) : ℤ :=
  (tx.effectiveGasTip baseFee).1

/-- The fee cap covers the base fee: `EffectiveGasTip` returns no error. -/
def FeeCapCovers (baseFee : Option ℤ) (tx : PendingTx) : Prop :=
  ∀ b, baseFee = some b → b ≤ tx.gasFeeCap

instance (baseFee : Option ℤ) (tx : PendingTx) : Decidable (FeeCapCovers baseFee tx) :=
  match baseFee with
  | none => isTrue fun _ h => by cases h
  | some b => decidable_of_iff (b ≤ tx.gasFeeCap) (by simp [FeeCapCovers])

theorem effectiveGasTip_snd_eq_none {tx : PendingTx} {baseFee : Option ℤ} :
    (tx.effectiveGasTip baseFee).2 = none ↔ FeeCapCovers baseFee tx := by
  cases baseFee with
  | none => simp [effectiveGasTip, FeeCapCovers]
  | some b =>
    simp only [effectiveGasTip, FeeCapCovers, Option.some.injEq, forall_eq', cmp]
    split_ifs <;> simp_all

end PendingTx

/-- `TxWithMinerFee`: a transaction with the tip it pays the miner. -/
structure TxWithMinerFee where
  tx : PendingTx
  minerFee : ℤ
  deriving DecidableEq, Repr

/-- `NewTxWithMinerFee`: the transaction with its effective tip, or the error when its fee
cap is below the base fee. -/
def newTxWithMinerFee (tx : PendingTx) (baseFee : Option ℤ) : Except GasTipError TxWithMinerFee :=
  match tx.effectiveGasTip baseFee with
  | (_, some err) => .error err
  | (minerFee, none) => .ok ⟨tx, minerFee⟩

theorem newTxWithMinerFee_eq_ok {tx : PendingTx} {baseFee : Option ℤ} {w : TxWithMinerFee} :
    newTxWithMinerFee tx baseFee = .ok w ↔
      tx.FeeCapCovers baseFee ∧ w = ⟨tx, tx.effectiveGasTipValue baseFee⟩ := by
  rw [← PendingTx.effectiveGasTip_snd_eq_none, PendingTx.effectiveGasTipValue]
  unfold newTxWithMinerFee
  split <;> rename_i fee e he <;> simp [he, eq_comm]

theorem newTxWithMinerFee_eq_error {tx : PendingTx} {baseFee : Option ℤ} :
    (∃ e, newTxWithMinerFee tx baseFee = .error e) ↔ ¬ tx.FeeCapCovers baseFee := by
  rw [← PendingTx.effectiveGasTip_snd_eq_none]
  unfold newTxWithMinerFee
  split
  · rename_i e he
    simp only [he, reduceCtorEq, not_false_eq_true, iff_true]
    exact ⟨e, trivial⟩
  · rename_i he
    simp [he]

namespace TxByPriceAndTime

/-- `Less`: the higher miner fee first, and at equal fees the transaction seen first. -/
def less (a b : TxWithMinerFee) : Bool :=
  let c := cmp a.minerFee b.minerFee
  if c = 0 then decide (a.tx.time < b.tx.time) else decide (c > 0)

/-- What `Less` sorts by: the miner fee, highest first, then the time first seen. -/
def key (w : TxWithMinerFee) : ℤ ×ₗ ℤ :=
  toLex (-w.minerFee, w.tx.time)

theorem less_eq_key (a b : TxWithMinerFee) : less a b = decide (key a < key b) := by
  simp only [less, key, cmp, Prod.Lex.toLex_lt_toLex]
  split_ifs <;> simp_all <;> omega

theorem weakOrder : BinaryHeap.WeakOrder less :=
  BinaryHeap.WeakOrder.of_key less key less_eq_key

/-- Not less than `b` is a tip no higher, and at an equal tip a time no earlier. -/
theorem less_eq_false_iff (a b : TxWithMinerFee) :
    less a b = false ↔ a.minerFee ≤ b.minerFee ∧ (a.minerFee = b.minerFee → b.tx.time ≤ a.tx.time) := by
  rw [less_eq_key, decide_eq_false_iff_not, key, key, Prod.Lex.toLex_lt_toLex]
  constructor
  · intro h
    refine ⟨by omega, fun heq => ?_⟩
    exact not_lt.mp fun hlt => h (.inr ⟨by omega, hlt⟩)
  · rintro ⟨hle, htime⟩ (hlt | ⟨heq, hlt⟩)
    · omega
    · exact absurd (htime (by omega)) (not_le.mpr hlt)

end TxByPriceAndTime

/-- `TransactionsByPriceAndNonce`: the rest of each sender's list, the heads in a price heap,
and the base fee the heads were wrapped at. The signer is the `sender` function the
operations take. -/
structure TransactionsByPriceAndNonce where
  txs : Address → Option (List PendingTx)
  heads : List TxWithMinerFee
  baseFee : Option ℤ

/-- `Shift` or `Pop`. -/
inductive Op where
  | shift
  | pop
  deriving DecidableEq, Repr

namespace TransactionsByPriceAndNonce

variable (sender : PendingTx → Address)

/-- One turn of the constructor's loop, at the entry of `from`: the entry's first transaction
becomes the sender's head and the rest stays in the map, unless the first transaction is not
the sender's or its fee cap is below the base fee, when the entry is deleted. `none` for an
empty list, where `accTxs[0]` panics. -/
def headStep (t : TransactionsByPriceAndNonce) (entry : Σ _ : Address, List PendingTx) :
    Option TransactionsByPriceAndNonce :=
  match entry.2 with
  | [] => none
  | tx :: rest =>
    match newTxWithMinerFee tx t.baseFee with
    | .ok wrapped =>
      if sender tx = entry.1 then
        some { t with
          heads := t.heads ++ [wrapped]
          txs := Function.update t.txs entry.1 (some rest) }
      else some { t with txs := Function.update t.txs entry.1 none }
    | .error _ => some { t with txs := Function.update t.txs entry.1 none }

/-- `NewTransactionsByPriceAndNonce`: the loop visits the map's entries in the order of
`entries`, and the heads it collects become a heap. -/
def new (txs : AList fun _ : Address => List PendingTx) (baseFee : Option ℤ) :
    Option TransactionsByPriceAndNonce := do
  let t ← txs.entries.foldlM (headStep sender) ⟨fun a => txs.lookup a, [], baseFee⟩
  pure { t with heads := BinaryHeap.init TxByPriceAndTime.less t.heads }

/-- `Peek`: the best head, if any. -/
def peek (t : TransactionsByPriceAndNonce) : Option PendingTx :=
  t.heads.head?.map (·.tx)

/-- `Pop`: drop the best head, and so its sender. `none` on no heads, where `heap.Pop`
panics. -/
def pop (t : TransactionsByPriceAndNonce) : Option TransactionsByPriceAndNonce :=
  (BinaryHeap.pop TxByPriceAndTime.less t.heads).map fun r => { t with heads := r.1 }

/-- `Shift`: replace the best head by the next transaction of its sender, or pop it when the
sender has none left or the next pays less than the base fee. `none` on no heads, where
`t.heads[0]` panics. -/
def shift (t : TransactionsByPriceAndNonce) : Option TransactionsByPriceAndNonce :=
  match t.heads with
  | [] => none
  | top :: _ =>
    let acc := sender top.tx
    match t.txs acc with
    | some (tx :: rest) =>
      match newTxWithMinerFee tx t.baseFee with
      | .ok wrapped =>
        some { t with
          heads := BinaryHeap.fix TxByPriceAndTime.less (t.heads.set 0 wrapped) 0
          txs := Function.update t.txs acc (some rest) }
      | .error _ => t.pop
    | _ => t.pop

/-- One call of the miner's loop: `Peek`, then `Shift` or `Pop`, recording what Peek returned
and the call. `none` when Peek returns nothing, where either call panics. -/
def step (t : TransactionsByPriceAndNonce) (op : Op) :
    Option (TransactionsByPriceAndNonce × List (PendingTx × Op)) :=
  match t.peek with
  | none => none
  | some tx =>
    (match op with
      | .shift => t.shift sender
      | .pop => t.pop).map fun t' => (t', [(tx, op)])

/-! ### What each call does -/

theorem pop_eq_some {t t' : TransactionsByPriceAndNonce} (h : t.pop = some t') :
    ∃ top, BinaryHeap.pop TxByPriceAndTime.less t.heads = some (t'.heads, top) ∧
      t' = { t with heads := t'.heads } := by
  unfold pop at h
  obtain ⟨⟨h', top⟩, hp, rfl⟩ := Option.map_eq_some_iff.mp h
  exact ⟨top, hp, rfl⟩

/-- `Shift` either replaces the best head by its sender's next transaction, or pops it when
that sender has no next transaction whose fee cap covers the base fee. -/
theorem shift_eq_some {t t' : TransactionsByPriceAndNonce} (h : t.shift sender = some t') :
    ∃ top tail, t.heads = top :: tail ∧
      ((∃ tx rest w, t.txs (sender top.tx) = some (tx :: rest) ∧
          newTxWithMinerFee tx t.baseFee = .ok w ∧
          t' = { t with
            heads := BinaryHeap.fix TxByPriceAndTime.less (t.heads.set 0 w) 0
            txs := Function.update t.txs (sender top.tx) (some rest) }) ∨
       ((∀ tx rest, t.txs (sender top.tx) = some (tx :: rest) → ¬ tx.FeeCapCovers t.baseFee) ∧
          t.pop = some t')) := by
  unfold shift at h
  split at h
  · cases h
  · rename_i top tail hheads
    refine ⟨top, tail, hheads, ?_⟩
    dsimp only at h
    split at h
    · rename_i tx rest htxs
      split at h
      · rename_i w hw
        exact .inl ⟨tx, rest, w, htxs, hw, (Option.some.inj h).symm⟩
      · rename_i e he
        refine .inr ⟨fun tx' rest' h' => ?_, h⟩
        rw [htxs, Option.some.injEq, List.cons.injEq] at h'
        rw [← h'.1]
        exact newTxWithMinerFee_eq_error.mp ⟨e, he⟩
    · rename_i hnot
      exact .inr ⟨fun tx rest h' => absurd h' (hnot tx rest), h⟩

/-- A turn of the constructor's loop either keeps the entry's first transaction as a head, or
deletes the entry because that transaction is not the sender's or its fee cap is below the
base fee. -/
theorem headStep_eq_some {t t₁ : TransactionsByPriceAndNonce} {k : Address}
    {L : List PendingTx} (h : headStep sender t ⟨k, L⟩ = some t₁) :
    ∃ tx rest, L = tx :: rest ∧
      ((∃ w, newTxWithMinerFee tx t.baseFee = .ok w ∧ sender tx = k ∧
          t₁ = { t with heads := t.heads ++ [w], txs := Function.update t.txs k (some rest) }) ∨
        ((¬ tx.FeeCapCovers t.baseFee ∨ sender tx ≠ k) ∧
          t₁ = { t with txs := Function.update t.txs k none })) := by
  unfold headStep at h
  split at h
  · cases h
  · rename_i tx rest hL
    refine ⟨tx, rest, hL, ?_⟩
    split at h
    · rename_i w hw
      split_ifs at h with hk
      · exact .inl ⟨w, hw, hk, (Option.some.inj h).symm⟩
      · exact .inr ⟨.inr hk, (Option.some.inj h).symm⟩
    · rename_i e he
      exact .inr ⟨.inl (newTxWithMinerFee_eq_error.mp ⟨e, he⟩), (Option.some.inj h).symm⟩

/-- A call of the miner's loop peeks the best head and records it with the call. -/
theorem step_eq_some {t t' : TransactionsByPriceAndNonce} {op : Op}
    {out : List (PendingTx × Op)} (h : t.step sender op = some (t', out)) :
    ∃ top tail, t.heads = top :: tail ∧ out = [(top.tx, op)] ∧
      (op = .shift → t.shift sender = some t') ∧ (op = .pop → t.pop = some t') := by
  unfold step peek at h
  cases hh : t.heads with
  | nil => simp [hh] at h
  | cons top tail =>
    simp only [hh, List.head?_cons, Option.map_some] at h
    obtain ⟨t₁, h₁, heq⟩ := Option.map_eq_some_iff.mp h
    rw [Prod.mk.injEq] at heq
    obtain ⟨rfl, rfl⟩ := heq
    refine ⟨top, tail, rfl, rfl, ?_, ?_⟩ <;> rintro rfl <;> exact h₁

/-! ### What a run keeps -/

section Run

variable (txs : AList fun _ : Address => List PendingTx) (baseFee : Option ℤ)

/-- The heads of sender `a`. -/
def headsOf (t : TransactionsByPriceAndNonce) (a : Address) : List TxWithMinerFee :=
  t.heads.filter fun w => sender w.tx = a

/-- The calls of a run at sender `a`'s transactions. -/
def callsOf (tr : List (PendingTx × Op)) (a : Address) : List (PendingTx × Op) :=
  tr.filter fun p => sender p.1 = a

/-- The list of sender `a` in the map handed to the constructor: none for a sender not in it. -/
def listOf (a : Address) : List PendingTx :=
  (txs.lookup a).getD []

/-- Where sender `a` stands after a run with trace `tr`: the transactions Peek returned of it
are the front of its list, followed either by its one head and the rest of its list in the
map, or, with no head left, by the rest of its list, which ended at a Pop or at a
transaction whose fee cap is below the base fee (or is empty). -/
def SenderStands (t : TransactionsByPriceAndNonce) (tr : List (PendingTx × Op)) (a : Address) :
    Prop :=
  (∃ w rest, headsOf sender t a = [w] ∧ t.txs a = some rest ∧
      (callsOf sender tr a).map Prod.fst ++ w.tx :: rest = listOf txs a) ∨
  (headsOf sender t a = [] ∧ ∃ rest, (callsOf sender tr a).map Prod.fst ++ rest = listOf txs a ∧
      ((callsOf sender tr a).getLast?.map Prod.snd = some .pop ∨
        ∀ x ∈ rest.head?, ¬ x.FeeCapCovers baseFee))

/-- What a run of the miner's calls keeps of the set built from `txs` at `baseFee`, with the
trace `tr` of the run so far. -/
structure Tracks (t : TransactionsByPriceAndNonce) (tr : List (PendingTx × Op)) : Prop where
  baseFee_eq : t.baseFee = baseFee
  ordered : BinaryHeap.OrderedFrom TxByPriceAndTime.less t.heads t.heads.length 0
  wrapped : ∀ w ∈ t.heads, newTxWithMinerFee w.tx baseFee = .ok w
  covered : ∀ p ∈ tr, p.1.FeeCapCovers baseFee
  shifts : ∀ a, ∀ p ∈ (callsOf sender tr a).dropLast, p.2 = .shift
  popped : ∀ a, (callsOf sender tr a).getLast?.map Prod.snd = some .pop → headsOf sender t a = []
  stands : ∀ a, SenderStands sender txs baseFee t tr a

/-- What the constructor's loop keeps while the entries `es` are still to visit: the heads
were wrapped at the base fee, a sender still to visit has its entry and no head, and every
other sender stands at the start of its list. -/
structure Collects (t : TransactionsByPriceAndNonce) (es : List (Σ _ : Address, List PendingTx)) :
    Prop where
  baseFee_eq : t.baseFee = baseFee
  wrapped : ∀ w ∈ t.heads, newTxWithMinerFee w.tx baseFee = .ok w
  todo : ∀ a ∈ es.keys, t.txs a = txs.lookup a ∧ headsOf sender t a = []
  done : ∀ a ∉ es.keys, SenderStands sender txs baseFee t [] a

theorem callsOf_append_single (tr : List (PendingTx × Op)) (x : PendingTx) (op : Op)
    (a : Address) :
    callsOf sender (tr ++ [(x, op)]) a =
      callsOf sender tr a ++ if sender x = a then [(x, op)] else [] := by
  unfold callsOf
  rw [List.filter_append]
  by_cases h : sender x = a <;> simp [h]

/-- A sender whose heads, map entry and calls are as they were stands where it stood. -/
theorem SenderStands.congr {t t' : TransactionsByPriceAndNonce} {tr tr' : List (PendingTx × Op)}
    {a : Address} (hs : SenderStands sender txs baseFee t tr a)
    (hheads : (headsOf sender t' a).Perm (headsOf sender t a)) (htxs : t'.txs a = t.txs a)
    (hcalls : callsOf sender tr' a = callsOf sender tr a) :
    SenderStands sender txs baseFee t' tr' a := by
  rcases hs with ⟨w, rest, hw, hr, hl⟩ | ⟨hn, rest, hl, hstop⟩
  · rw [hw] at hheads
    exact .inl ⟨w, rest, List.perm_singleton.mp hheads, htxs ▸ hr, hcalls ▸ hl⟩
  · rw [hn] at hheads
    exact .inr ⟨List.perm_nil.mp hheads, rest, hcalls ▸ hl, hcalls ▸ hstop⟩

/-- After the best head leaves the heap or is replaced by one of its own sender, every other
sender has the heads it had. -/
theorem headsOf_perm_of_ne {t t' : TransactionsByPriceAndNonce} {top : TxWithMinerFee}
    {tail new : List TxWithMinerFee} (hh : t.heads = top :: tail)
    (hp : t'.heads.Perm (new ++ tail)) (hnew : ∀ w ∈ new, sender w.tx = sender top.tx)
    {a : Address} (ha : sender top.tx ≠ a) :
    (headsOf sender t' a).Perm (headsOf sender t a) := by
  have hnil : new.filter (fun w => sender w.tx = a) = [] :=
    List.filter_eq_nil_iff.mpr fun w hw => by simpa [hnew w hw] using ha
  have htop : headsOf sender t a = tail.filter fun w => sender w.tx = a := by
    simp [headsOf, hh, ha]
  rw [htop]
  unfold headsOf
  simpa [List.filter_append, hnil] using hp.filter (fun w => decide (sender w.tx = a))

variable {sender txs baseFee}

/-- The best head is its sender's only head, followed in its sender's list by the rest of
that list in the map. -/
theorem Tracks.top {t : TransactionsByPriceAndNonce} {tr : List (PendingTx × Op)}
    {top : TxWithMinerFee} {tail : List TxWithMinerFee} (ht : Tracks sender txs baseFee t tr)
    (hh : t.heads = top :: tail) :
    tail.filter (fun w => sender w.tx = sender top.tx) = [] ∧
    ∃ rest, t.txs (sender top.tx) = some rest ∧
      (callsOf sender tr (sender top.tx)).map Prod.fst ++ top.tx :: rest =
        listOf txs (sender top.tx) := by
  have hheads : headsOf sender t (sender top.tx) =
      top :: tail.filter fun w => sender w.tx = sender top.tx := by
    simp [headsOf, hh]
  rcases ht.stands (sender top.tx) with ⟨w, rest, hw, hr, hl⟩ | ⟨hn, -⟩
  · rw [hw, List.cons.injEq] at hheads
    obtain ⟨rfl, htail⟩ := hheads
    exact ⟨htail.symm, rest, hr, hl⟩
  · rw [hn] at hheads
    cases hheads

/-- Calls whose last is no Pop and whose others are shifts are all shifts. -/
theorem all_shift {l : List (PendingTx × Op)} (hl : ∀ p ∈ l.dropLast, p.2 = .shift)
    (hlast : l.getLast?.map Prod.snd ≠ some .pop) : ∀ p ∈ l, p.2 = .shift := by
  intro p hp
  rcases List.eq_nil_or_concat l with rfl | ⟨l', q, rfl⟩
  · cases hp
  rw [List.concat_eq_append] at hl hlast hp
  rw [List.dropLast_concat] at hl
  rcases List.mem_append.mp hp with hp | hp
  · exact hl p hp
  · rw [List.mem_singleton] at hp
    subst hp
    rw [List.getLast?_concat, Option.map_some, ne_eq, Option.some.injEq] at hlast
    cases h : p.2
    · rfl
    · exact absurd h hlast

/-- The trace after a call at the best head has only transactions whose fee cap covers the
base fee. -/
theorem Tracks.covered_append {t : TransactionsByPriceAndNonce} {tr : List (PendingTx × Op)}
    {top : TxWithMinerFee} {tail : List TxWithMinerFee} (op : Op)
    (ht : Tracks sender txs baseFee t tr) (hh : t.heads = top :: tail) :
    ∀ p ∈ tr ++ [(top.tx, op)], p.1.FeeCapCovers baseFee := by
  intro p hp
  rcases List.mem_append.mp hp with hp | hp
  · exact ht.covered p hp
  · rw [List.mem_singleton] at hp
    subst hp
    exact (newTxWithMinerFee_eq_ok.mp (ht.wrapped top (by simp [hh]))).1

/-- A call at the best head comes after shifts only: its sender still had a head, so its
last call was no Pop. -/
theorem Tracks.shifts_append {t : TransactionsByPriceAndNonce} {tr : List (PendingTx × Op)}
    {top : TxWithMinerFee} {tail : List TxWithMinerFee} (op : Op)
    (ht : Tracks sender txs baseFee t tr) (hh : t.heads = top :: tail) (a : Address) :
    ∀ p ∈ (callsOf sender (tr ++ [(top.tx, op)]) a).dropLast, p.2 = .shift := by
  rw [callsOf_append_single]
  split_ifs with ha
  · subst ha
    have hnotpop : (callsOf sender tr (sender top.tx)).getLast?.map Prod.snd ≠ some .pop := by
      intro hpop
      have hmem : top ∈ headsOf sender t (sender top.tx) := by simp [headsOf, hh]
      rw [ht.popped _ hpop] at hmem
      cases hmem
    rw [List.dropLast_concat]
    exact all_shift (ht.shifts _) hnotpop
  · rw [List.append_nil]
    exact ht.shifts a

/-- A call at another sender's best head leaves sender `a` where it stood, when its heads
and its map entry are as they were. -/
theorem Tracks.other {t t' : TransactionsByPriceAndNonce} {tr : List (PendingTx × Op)}
    {x : PendingTx} {op : Op} {a : Address} (ht : Tracks sender txs baseFee t tr)
    (ha : sender x ≠ a) (hheads : (headsOf sender t' a).Perm (headsOf sender t a))
    (htxs : t'.txs a = t.txs a) :
    ((callsOf sender (tr ++ [(x, op)]) a).getLast?.map Prod.snd = some .pop →
        headsOf sender t' a = []) ∧
      SenderStands sender txs baseFee t' (tr ++ [(x, op)]) a := by
  have hcalls : callsOf sender (tr ++ [(x, op)]) a = callsOf sender tr a := by
    rw [callsOf_append_single, if_neg ha, List.append_nil]
  refine ⟨fun hlast => ?_, (ht.stands a).congr sender txs baseFee hheads htxs hcalls⟩
  rw [hcalls] at hlast
  rw [ht.popped a hlast] at hheads
  exact List.perm_nil.mp hheads

/-- A call that drops the best head: `Pop`, or a `Shift` whose sender has no next
transaction whose fee cap covers the base fee. -/
theorem Tracks.drop {t t' : TransactionsByPriceAndNonce} {tr : List (PendingTx × Op)}
    {top : TxWithMinerFee} {tail : List TxWithMinerFee} {op : Op}
    (ht : Tracks sender txs baseFee t tr) (hh : t.heads = top :: tail) (hp : t.pop = some t')
    (hstop : op = .pop ∨
      ∀ tx rest, t.txs (sender top.tx) = some (tx :: rest) → ¬ tx.FeeCapCovers baseFee) :
    Tracks sender txs baseFee t' (tr ++ [(top.tx, op)]) := by
  obtain ⟨top', hpop, ht'⟩ := pop_eq_some hp
  obtain ⟨hfirst, hperm, hord⟩ := BinaryHeap.pop_spec TxByPriceAndTime.weakOrder ht.ordered hpop
  rw [hh, List.head?_cons, Option.some.injEq] at hfirst
  subst hfirst
  rw [hh] at hperm
  have htail : t'.heads.Perm ([] ++ tail) := List.Perm.cons_inv hperm
  obtain ⟨hown, rest, hrest, hlist⟩ := ht.top hh
  have htxs : t'.txs = t.txs := by rw [ht']
  have hothers : ∀ a, sender top.tx ≠ a → (headsOf sender t' a).Perm (headsOf sender t a) :=
    fun a ha => headsOf_perm_of_ne sender hh htail (by simp) ha
  -- the sender of the best head has no head left
  have hgone : headsOf sender t' (sender top.tx) = [] := by
    have hfilter := htail.filter fun w => decide (sender w.tx = sender top.tx)
    rw [List.nil_append, hown] at hfilter
    exact List.perm_nil.mp hfilter
  refine ⟨by rw [ht']; exact ht.baseFee_eq, hord, ?_, ht.covered_append op hh,
    ht.shifts_append op hh, ?_, ?_⟩
  · intro w hw
    exact ht.wrapped w (by rw [hh]; exact List.mem_cons_of_mem _ (htail.subset hw))
  · intro a hlast
    by_cases ha : sender top.tx = a
    · exact ha ▸ hgone
    · exact (ht.other ha (hothers a ha) (by rw [htxs])).1 hlast
  · intro a
    by_cases ha : sender top.tx = a
    · subst ha
      refine .inr ⟨hgone, rest, ?_, ?_⟩
      · rw [callsOf_append_single, if_pos rfl, List.map_append, List.map_singleton,
          List.append_assoc, List.singleton_append]
        exact hlist
      · rw [callsOf_append_single, if_pos rfl, List.getLast?_concat, Option.map_some]
        rcases hstop with rfl | hnext
        · exact .inl rfl
        · refine .inr fun x hx => ?_
          obtain ⟨rest', rfl⟩ : ∃ rest', rest = x :: rest' := by
            cases rest with
            | nil => cases hx
            | cons y ys => exact ⟨ys, by rw [List.head?_cons, Option.mem_some_iff] at hx; rw [hx]⟩
          exact hnext x rest' hrest
    · exact (ht.other ha (hothers a ha) (by rw [htxs])).2

/-- A `Shift` that replaces the best head by the next transaction of its sender. -/
theorem Tracks.replace {t : TransactionsByPriceAndNonce} {tr : List (PendingTx × Op)}
    {top : TxWithMinerFee} {tail : List TxWithMinerFee} {tx : PendingTx}
    {rest : List PendingTx} {w : TxWithMinerFee}
    (hsender : ∀ a, ∀ x ∈ listOf txs a, sender x = a)
    (ht : Tracks sender txs baseFee t tr) (hh : t.heads = top :: tail)
    (htxs : t.txs (sender top.tx) = some (tx :: rest))
    (hw : newTxWithMinerFee tx t.baseFee = .ok w) :
    Tracks sender txs baseFee
      { t with
        heads := BinaryHeap.fix TxByPriceAndTime.less (t.heads.set 0 w) 0
        txs := Function.update t.txs (sender top.tx) (some rest) }
      (tr ++ [(top.tx, .shift)]) := by
  obtain ⟨hown, rest₀, hrest₀, hlist⟩ := ht.top hh
  rw [htxs, Option.some.injEq] at hrest₀
  subst hrest₀
  rw [ht.baseFee_eq] at hw
  have hwtx : w.tx = tx := by rw [(newTxWithMinerFee_eq_ok.mp hw).2]
  -- the new head is its sender's next transaction
  have hsame : sender w.tx = sender top.tx := by
    rw [hwtx]
    exact hsender _ tx (by rw [← hlist]; simp)
  have hperm : (BinaryHeap.fix TxByPriceAndTime.less (t.heads.set 0 w) 0).Perm ([w] ++ tail) := by
    have hset : t.heads.set 0 w = [w] ++ tail := by rw [hh]; rfl
    exact hset ▸ BinaryHeap.fix_zero_perm _ _
  have hothers : ∀ a, sender top.tx ≠ a → (headsOf sender
      { t with
        heads := BinaryHeap.fix TxByPriceAndTime.less (t.heads.set 0 w) 0
        txs := Function.update t.txs (sender top.tx) (some rest) } a).Perm (headsOf sender t a) :=
    fun a ha => headsOf_perm_of_ne sender hh hperm (by simpa using hsame) ha
  refine ⟨ht.baseFee_eq, ?_, ?_, ht.covered_append .shift hh, ht.shifts_append .shift hh, ?_, ?_⟩
  · have hlen : (BinaryHeap.fix TxByPriceAndTime.less (t.heads.set 0 w) 0).length =
        t.heads.length := by
      rw [hperm.length_eq, hh]
      simp
    show BinaryHeap.OrderedFrom _ _ (BinaryHeap.fix TxByPriceAndTime.less (t.heads.set 0 w) 0).length 0
    rw [hlen]
    exact BinaryHeap.fix_set_zero_ordered TxByPriceAndTime.weakOrder ht.ordered w
  · intro v hv
    rcases List.mem_append.mp (hperm.subset hv) with hv | hv
    · rw [List.mem_singleton.mp hv, hwtx]
      exact hw
    · exact ht.wrapped v (by rw [hh]; exact List.mem_cons_of_mem _ hv)
  · intro a hlast
    by_cases ha : sender top.tx = a
    · subst ha
      rw [callsOf_append_single, if_pos rfl, List.getLast?_concat] at hlast
      cases hlast
    · exact (ht.other ha (hothers a ha) (Function.update_of_ne (Ne.symm ha) _ _)).1 hlast
  · intro a
    by_cases ha : sender top.tx = a
    · subst ha
      refine .inl ⟨w, rest, ?_, Function.update_self _ _ _, ?_⟩
      · have hfilter := hperm.filter fun v => decide (sender v.tx = sender top.tx)
        rw [List.filter_append, hown, List.append_nil, List.filter_singleton, hsame] at hfilter
        simp only [decide_true, cond_true] at hfilter
        exact List.perm_singleton.mp hfilter
      · rw [callsOf_append_single, if_pos rfl, List.map_append, List.map_singleton,
          List.append_assoc, List.singleton_append, hwtx]
        exact hlist
    · exact (ht.other ha (hothers a ha) (Function.update_of_ne (Ne.symm ha) _ _)).2

/-- Every call of the miner's loop keeps what a run keeps. -/
theorem Tracks.step {t t' : TransactionsByPriceAndNonce} {tr out : List (PendingTx × Op)}
    {op : Op} (hsender : ∀ a, ∀ x ∈ listOf txs a, sender x = a)
    (ht : Tracks sender txs baseFee t tr) (h : t.step sender op = some (t', out)) :
    Tracks sender txs baseFee t' (tr ++ out) := by
  obtain ⟨top, tail, hh, rfl, hshift, hpop⟩ := step_eq_some sender h
  cases op with
  | shift =>
    obtain ⟨top', tail', hh', hcase⟩ := shift_eq_some sender (hshift rfl)
    rw [hh, List.cons.injEq] at hh'
    obtain ⟨rfl, rfl⟩ := hh'
    rcases hcase with ⟨tx, rest, w, htxs, hw, rfl⟩ | ⟨hnext, hp⟩
    · exact ht.replace hsender hh htxs hw
    · exact ht.drop hh hp (.inr (ht.baseFee_eq ▸ hnext))
  | pop => exact ht.drop hh (hpop rfl) (.inl rfl)

/-! ### The set the constructor builds -/

theorem listOf_of_mem {k : Address} {L : List PendingTx} (h : ⟨k, L⟩ ∈ txs.entries) :
    listOf txs k = L := by
  rw [listOf, AList.mem_lookup_iff.mpr h, Option.getD_some]

/-- One turn of the constructor's loop: the sender it visits now stands at the start of its
list, and every other sender is as it was. -/
theorem Collects.visit {t t₁ : TransactionsByPriceAndNonce} {k : Address}
    {L : List PendingTx} {es : List (Σ _ : Address, List PendingTx)}
    (hsender : ∀ a, ∀ x ∈ listOf txs a, sender x = a) (hmem : ⟨k, L⟩ ∈ txs.entries)
    (hk : k ∉ es.keys) (hc : Collects sender txs baseFee t (⟨k, L⟩ :: es))
    (h : headStep sender t ⟨k, L⟩ = some t₁) : Collects sender txs baseFee t₁ es := by
  obtain ⟨tx, rest, rfl, hcase⟩ := headStep_eq_some sender h
  have hlist := listOf_of_mem hmem
  obtain ⟨htxs, hnone⟩ := hc.todo k (by simp)
  have htx : sender tx = k := hsender k tx (by rw [hlist]; simp)
  -- the visited sender's heads and entry, and those of every other sender
  have hothers : ∀ a ≠ k, headsOf sender t₁ a = headsOf sender t a ∧ t₁.txs a = t.txs a := by
    intro a ha
    rcases hcase with ⟨w, hw, -, rfl⟩ | ⟨-, rfl⟩
    · have hwtx : w.tx = tx := by rw [(newTxWithMinerFee_eq_ok.mp hw).2]
      refine ⟨?_, Function.update_of_ne ha _ _⟩
      simp [headsOf, List.filter_append, hwtx, htx, Ne.symm ha]
    · exact ⟨rfl, Function.update_of_ne ha _ _⟩
  refine ⟨?_, ?_, ?_, ?_⟩
  · rcases hcase with ⟨w, -, -, rfl⟩ | ⟨-, rfl⟩ <;> exact hc.baseFee_eq
  · intro w' hw'
    rcases hcase with ⟨w, hw, -, rfl⟩ | ⟨-, rfl⟩
    · rcases List.mem_append.mp hw' with hw' | hw'
      · exact hc.wrapped w' hw'
      · rw [List.mem_singleton.mp hw', ← hc.baseFee_eq, (newTxWithMinerFee_eq_ok.mp hw).2]
        rw [(newTxWithMinerFee_eq_ok.mp hw).2] at hw
        exact hw
    · exact hc.wrapped w' hw'
  · intro a ha
    have hak : a ≠ k := fun h => hk (h ▸ ha)
    rw [(hothers a hak).1, (hothers a hak).2]
    exact hc.todo a (by simp [ha])
  · intro a ha
    by_cases hak : a = k
    · subst hak
      rcases hcase with ⟨w, hw, -, rfl⟩ | ⟨hbad, rfl⟩
      · have hwtx : w.tx = tx := by rw [(newTxWithMinerFee_eq_ok.mp hw).2]
        refine .inl ⟨w, rest, ?_, Function.update_self _ _ _, ?_⟩
        · unfold headsOf at hnone ⊢
          rw [List.filter_append, hnone, List.nil_append, List.filter_singleton, hwtx, htx]
          simp
        · simp [callsOf, hwtx, hlist]
      · refine .inr ⟨hnone, tx :: rest, by simp [callsOf, hlist], .inr ?_⟩
        intro x hx
        rw [List.head?_cons, Option.mem_some_iff] at hx
        subst hx
        rw [← hc.baseFee_eq]
        exact hbad.resolve_right (not_not.mpr htx)
    · exact (hc.done a (by simp [ha, hak])).congr sender txs baseFee
        (by rw [(hothers a hak).1]) (hothers a hak).2 rfl

theorem headStep_isSome (t : TransactionsByPriceAndNonce) (k : Address) (tx : PendingTx)
    (rest : List PendingTx) : (headStep sender t ⟨k, tx :: rest⟩).isSome := by
  unfold headStep
  split
  · rename_i h
    cases h
  · split
    · split_ifs <;> rfl
    · rfl

/-- The constructor's loop, over entries of the map with distinct senders and non-empty
lists, does not panic, and leaves every sender at the start of its list. -/
theorem Collects.foldlM (hsender : ∀ a, ∀ x ∈ listOf txs a, sender x = a) :
    ∀ (es : List (Σ _ : Address, List PendingTx)) {t : TransactionsByPriceAndNonce},
      (∀ e ∈ es, e ∈ txs.entries) → es.NodupKeys → (∀ e ∈ es, e.2 ≠ []) →
      Collects sender txs baseFee t es →
      ∃ t', es.foldlM (headStep sender) t = some t' ∧ Collects sender txs baseFee t' []
  | [], t, _, _, _, hc => ⟨t, rfl, hc⟩
  | ⟨k, L⟩ :: es, t, hmem, hnd, hne, hc => by
    obtain ⟨tx, rest, rfl⟩ := List.exists_cons_of_ne_nil (hne _ List.mem_cons_self)
    obtain ⟨t₁, h₁⟩ : ∃ t₁, headStep sender t ⟨k, tx :: rest⟩ = some t₁ :=
      Option.isSome_iff_exists.mp (headStep_isSome t k tx rest)
    rw [List.nodupKeys_cons] at hnd
    have hc₁ := hc.visit hsender (hmem _ List.mem_cons_self) hnd.1 h₁
    obtain ⟨t', hfold, hc'⟩ := Collects.foldlM hsender es (fun e he => hmem e (List.mem_cons_of_mem _ he))
      hnd.2 (fun e he => hne e (List.mem_cons_of_mem _ he)) hc₁
    exact ⟨t', by rw [List.foldlM_cons, h₁]; exact hfold, hc'⟩

/-- The constructor, on a map of non-empty lists each of its sender's transactions, does
not panic, and its set is where every run starts. -/
theorem new_eq_some (hne : ∀ e ∈ txs.entries, e.2 ≠ [])
    (hsender : ∀ a, ∀ x ∈ listOf txs a, sender x = a) :
    ∃ t₀, new sender txs baseFee = some t₀ ∧ Tracks sender txs baseFee t₀ [] := by
  have hstart : Collects sender txs baseFee ⟨fun a => txs.lookup a, [], baseFee⟩ txs.entries :=
    { baseFee_eq := rfl
      wrapped := by simp
      todo := fun a _ => ⟨rfl, rfl⟩
      done := fun a ha => by
        have hnone : txs.lookup a = none := AList.lookup_eq_none.mpr (by rwa [AList.mem_keys])
        exact .inr ⟨rfl, [], by simp [callsOf, listOf, hnone], .inr (by simp)⟩ }
  obtain ⟨t, hfold, hc⟩ :=
    Collects.foldlM hsender txs.entries (fun e he => he) txs.nodupKeys hne hstart
  have hperm := BinaryHeap.init_perm TxByPriceAndTime.less t.heads
  refine ⟨{ t with heads := BinaryHeap.init TxByPriceAndTime.less t.heads }, by simp [new, hfold],
    hc.baseFee_eq, BinaryHeap.init_ordered TxByPriceAndTime.weakOrder t.heads,
    fun w hw => hc.wrapped w (hperm.subset hw), by simp, by simp [callsOf], by simp [callsOf],
    fun a => (hc.done a (by simp)).congr sender txs baseFee (hperm.filter _) rfl rfl⟩

/-! ### What the miner sees -/

/-- The front of a list, all of whose elements pass, is a front of what passes. -/
theorem prefix_takeWhile_of_append {α : Type*} {l r L : List α} {p : α → Bool}
    (h : l ++ r = L) (hp : ∀ x ∈ l, p x) : l <+: L.takeWhile p := by
  rw [← h, List.takeWhile_append_of_pos hp]
  exact List.prefix_append _ _

/-- Peek returns a transaction of sender `a` only from a head of `a`. -/
theorem peek_filter_of_headsOf {t : TransactionsByPriceAndNonce} {a : Address}
    {ws : List TxWithMinerFee} (hws : headsOf sender t a = ws) :
    (t.peek.toList.filter fun x => sender x = a) <+: ws.map (·.tx) := by
  cases hh : t.heads with
  | nil => simp [peek, hh]
  | cons root tail =>
    by_cases ha : sender root.tx = a
    · have hws' : ws = root :: tail.filter fun w => sender w.tx = a := by
        rw [← hws]
        simp [headsOf, hh, ha]
      simp [peek, hh, ha, hws']
    · simp [peek, hh, ha]

theorem map_fst_filter (tr : List (PendingTx × Op)) (a : Address) :
    (tr.map Prod.fst).filter (fun x => sender x = a) = (callsOf sender tr a).map Prod.fst := by
  simp [callsOf, List.filter_map, Function.comp_def]

/-- The transactions of sender `a` that Peek has returned, and the one the next Peek returns,
are the front of `a`'s list before its first transaction whose fee cap is below the base
fee. -/
theorem Tracks.peeks_prefix {t : TransactionsByPriceAndNonce} {tr : List (PendingTx × Op)}
    (ht : Tracks sender txs baseFee t tr) (a : Address) :
    ((tr.map Prod.fst ++ t.peek.toList).filter fun x => sender x = a) <+:
      (listOf txs a).takeWhile fun x => decide (x.FeeCapCovers baseFee) := by
  rw [List.filter_append, map_fst_filter]
  have hseen : ∀ x ∈ (callsOf sender tr a).map Prod.fst, decide (x.FeeCapCovers baseFee) := by
    intro x hx
    obtain ⟨p, hp, rfl⟩ := List.mem_map.mp hx
    exact decide_eq_true (ht.covered p (List.mem_filter.mp hp).1)
  rcases ht.stands a with ⟨w, rest, hw, -, hl⟩ | ⟨hn, rest, hl, -⟩
  · -- the Peeks so far and the head of `a`, which the next Peek may return
    have hwcov : w.tx.FeeCapCovers baseFee :=
      (newTxWithMinerFee_eq_ok.mp (ht.wrapped w (List.mem_filter.mp (hw ▸ List.mem_singleton_self w)).1)).1
    have hfront : (callsOf sender tr a).map Prod.fst ++ [w.tx] <+:
        (listOf txs a).takeWhile fun x => decide (x.FeeCapCovers baseFee) := by
      refine prefix_takeWhile_of_append (r := rest) (by simpa using hl) ?_
      intro x hx
      rcases List.mem_append.mp hx with hx | hx
      · exact hseen x hx
      · rw [List.mem_singleton.mp hx]
        exact decide_eq_true hwcov
    exact ((List.prefix_append_right_inj _).mpr (by simpa using peek_filter_of_headsOf hw)).trans hfront
  · have hpeek := peek_filter_of_headsOf hn
    rw [List.map_nil, List.prefix_nil] at hpeek
    rw [hpeek, List.append_nil]
    exact prefix_takeWhile_of_append hl hseen

/-- A sender without a head left ended at a Pop or at its first transaction whose fee cap is
below the base fee. -/
theorem Tracks.ended {t : TransactionsByPriceAndNonce} {tr : List (PendingTx × Op)}
    (ht : Tracks sender txs baseFee t tr) {a : Address} (hgone : ∀ w ∈ t.heads, sender w.tx ≠ a) :
    (callsOf sender tr a).getLast?.map Prod.snd = some .pop ∨
      (callsOf sender tr a).map Prod.fst =
        (listOf txs a).takeWhile fun x => decide (x.FeeCapCovers baseFee) := by
  rcases ht.stands a with ⟨w, rest, hw, -, -⟩ | ⟨-, rest, hl, hstop⟩
  · have hmem := List.mem_filter.mp (hw ▸ List.mem_singleton_self w)
    exact absurd (of_decide_eq_true hmem.2) (hgone w hmem.1)
  · refine hstop.imp_right fun hnext => ?_
    have hseen : ∀ x ∈ (callsOf sender tr a).map Prod.fst, decide (x.FeeCapCovers baseFee) := by
      intro x hx
      obtain ⟨p, hp, rfl⟩ := List.mem_map.mp hx
      exact decide_eq_true (ht.covered p (List.mem_filter.mp hp).1)
    rw [← hl, List.takeWhile_append_of_pos hseen]
    cases rest with
    | nil => simp
    | cons x rest => simp [hnext x (by simp)]

/-- Peek returns a head with the highest effective tip, and among the heads with that tip one
seen first. -/
theorem Tracks.peek_best {t : TransactionsByPriceAndNonce} {tr : List (PendingTx × Op)}
    (ht : Tracks sender txs baseFee t tr) {top : PendingTx} (htop : t.peek = some top) :
    ∀ w ∈ t.heads, w.tx.effectiveGasTipValue baseFee ≤ top.effectiveGasTipValue baseFee ∧
      (w.tx.effectiveGasTipValue baseFee = top.effectiveGasTipValue baseFee →
        top.time ≤ w.tx.time) := by
  intro w hw
  obtain ⟨root, tail, hh⟩ : ∃ root tail, t.heads = root :: tail := List.exists_cons_of_ne_nil
    (List.ne_nil_of_mem hw)
  rw [peek, hh, List.head?_cons, Option.map_some, Option.some.injEq] at htop
  subst htop
  obtain ⟨k, hk, rfl⟩ := List.getElem_of_mem hw
  have h0 : 0 < t.heads.length := by omega
  -- no head is less than the root
  have hmin := BinaryHeap.root_min TxByPriceAndTime.weakOrder le_rfl ht.ordered k hk
  rw [BinaryHeap.lessAt_of_lt _ hk h0, TxByPriceAndTime.less_eq_false_iff] at hmin
  have hfee : ∀ v ∈ t.heads, v.minerFee = v.tx.effectiveGasTipValue baseFee := fun v hv =>
    congrArg TxWithMinerFee.minerFee (newTxWithMinerFee_eq_ok.mp (ht.wrapped v hv)).2
  have hroot : t.heads[0] = root := by simp [hh]
  rw [hroot] at hmin
  rw [← hfee _ hw, ← hfee root (by simp [hh])]
  exact hmin

/-- A list whose elements of each sender have no repeats has none. -/
theorem nodup_of_filter_nodup {l : List PendingTx}
    (h : ∀ a, (l.filter fun x => sender x = a).Nodup) : l.Nodup := by
  rw [List.nodup_iff_count_le_one]
  intro x
  have hx := List.nodup_iff_count_le_one.mp (h (sender x)) x
  rwa [List.count_filter (by simp)] at hx


end Run

/-- What the miner sees of the set built from `txs` at `baseFee`: after any run of its calls,
(a) the transactions of each sender that Peek returned, the next Peek's included, are the
front of the sender's list before its first transaction whose fee cap is below the base fee,
a Pop of its head was its last call and no later Peek returns it, and a sender without a head
ended at a Pop or at that transaction; (b) Peek returns a head with the highest effective tip,
and among the heads with that tip one seen first; and (c) no transaction is returned twice. -/
def MinerOrder (txs : AList fun _ : Address => List PendingTx) (baseFee : Option ℤ) : Prop :=
  ∃ t₀, new sender txs baseFee = some t₀ ∧
    ∀ ops t tr, Run.runTrace (step sender) t₀ ops = some (t, tr) →
      (∀ e ∈ txs.entries,
        ((tr.map Prod.fst ++ t.peek.toList).filter fun x => sender x = e.1) <+:
            e.2.takeWhile (fun x => decide (x.FeeCapCovers baseFee)) ∧
          (∀ p ∈ (callsOf sender tr e.1).dropLast, p.2 = .shift) ∧
          ((callsOf sender tr e.1).getLast?.map Prod.snd = some .pop →
            ∀ x ∈ t.peek, sender x ≠ e.1) ∧
          ((∀ w ∈ t.heads, sender w.tx ≠ e.1) →
            (callsOf sender tr e.1).getLast?.map Prod.snd = some .pop ∨
              (callsOf sender tr e.1).map Prod.fst =
                e.2.takeWhile fun x => decide (x.FeeCapCovers baseFee))) ∧
      (∀ top ∈ t.peek, ∀ w ∈ t.heads,
        w.tx.effectiveGasTipValue baseFee ≤ top.effectiveGasTipValue baseFee ∧
          (w.tx.effectiveGasTipValue baseFee = top.effectiveGasTipValue baseFee →
            top.time ≤ w.tx.time)) ∧
      (tr.map Prod.fst ++ t.peek.toList).Nodup

theorem peeks_honour_nonce_and_price (txs : AList fun _ : Address => List PendingTx) (baseFee : Option ℤ)
    (hne : ∀ e ∈ txs.entries, e.2 ≠ [])
    (hsender : ∀ e ∈ txs.entries, ∀ tx ∈ e.2, sender tx = e.1)
    (hsorted : ∀ e ∈ txs.entries, e.2.Pairwise fun x y => x.nonce < y.nonce) :
    MinerOrder sender txs baseFee := by
  have hsender' : ∀ a, ∀ x ∈ listOf txs a, sender x = a := by
    intro a x hx
    cases hl : txs.lookup a with
    | none => simp [listOf, hl] at hx
    | some L =>
      rw [listOf, hl, Option.getD_some] at hx
      exact hsender ⟨a, L⟩ (AList.mem_lookup_iff.mp hl) x hx
  have hnodup : ∀ a, (listOf txs a).Nodup := by
    intro a
    cases hl : txs.lookup a with
    | none => simp [listOf, hl]
    | some L =>
      rw [listOf, hl, Option.getD_some]
      exact (hsorted ⟨a, L⟩ (AList.mem_lookup_iff.mp hl)).imp fun {x y} h heq => by
        subst heq
        exact UInt64.lt_irrefl x.nonce h
  obtain ⟨t₀, hnew, h₀⟩ := new_eq_some hne hsender'
  refine ⟨t₀, hnew, fun ops t tr hrun => ?_⟩
  -- every run keeps `Tracks`, one call at a time
  have ht : Tracks sender txs baseFee t tr :=
    Run.runTrace_invariant (Tracks sender txs baseFee)
      (fun _ _ _ _ _ hs hstep => hs.step hsender' hstep) h₀ hrun
  refine ⟨fun e he => ?_, fun top htop => ht.peek_best htop, ?_⟩
  · rw [← listOf_of_mem he]
    refine ⟨ht.peeks_prefix e.1, ht.shifts e.1, fun hpop x hx hxa => ?_, ht.ended⟩
    -- a sender whose head was popped has no head the next Peek could return
    have hpeek := peek_filter_of_headsOf (ht.popped e.1 hpop)
    rw [List.map_nil, List.prefix_nil] at hpeek
    have hmem : x ∈ t.peek.toList.filter fun x => sender x = e.1 :=
      List.mem_filter.mpr ⟨Option.mem_toList.mpr hx, decide_eq_true hxa⟩
    rw [hpeek] at hmem
    cases hmem
  · exact nodup_of_filter_nodup fun a =>
      (hnodup a).sublist ((ht.peeks_prefix a).sublist.trans (List.takeWhile_sublist _))

/-- A transaction of the sample set: `V` stands for the signature that names the sender. -/
def sampleTx (v : ℕ) (nonce : UInt64) (cap time : ℤ) : PendingTx :=
  ⟨⟨2, 1, none, v, 0, 0⟩, nonce, cap, cap, time⟩

def sampleSender (tx : PendingTx) : Address :=
  if tx.tx.v = 1 then 1 else 2

/-- Two senders: the first with a transaction that pays well and one whose fee cap is below a
base fee of ten, the second with one. -/
def sampleTxs : AList fun _ : Address => List PendingTx :=
  ⟨[⟨1, [sampleTx 1 0 30 5, sampleTx 1 1 8 6]⟩, ⟨2, [sampleTx 2 0 20 7]⟩], by unfold List.NodupKeys; decide⟩

theorem peeks_honour_nonce_and_price_sample :
    (∀ e ∈ sampleTxs.entries, e.2 ≠ []) ∧
      (∀ e ∈ sampleTxs.entries, ∀ tx ∈ e.2, sampleSender tx = e.1) ∧
      (∀ e ∈ sampleTxs.entries, e.2.Pairwise fun x y => x.nonce < y.nonce) ∧
      MinerOrder sampleSender sampleTxs (some 10) :=
  have hne : ∀ e ∈ sampleTxs.entries, e.2 ≠ [] := by decide
  have hsender : ∀ e ∈ sampleTxs.entries, ∀ tx ∈ e.2, sampleSender tx = e.1 := by decide
  have hsorted : ∀ e ∈ sampleTxs.entries, e.2.Pairwise fun x y => x.nonce < y.nonce := by
    decide
  ⟨hne, hsender, hsorted,
    peeks_honour_nonce_and_price sampleSender sampleTxs (some 10) hne hsender hsorted⟩

end TransactionsByPriceAndNonce

end Classzz
