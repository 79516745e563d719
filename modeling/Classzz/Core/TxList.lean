import Mathlib.Data.List.Sort
import Classzz.Lib.BinaryHeapSift
import Classzz.Core.TxPool.TruncatePending

/-!
# The nonce-sorted transaction map

`txSortedMap` (core/tx_list.go) keeps an account's transactions in a map from nonce to
transaction, with a heap of the nonces (`index`) to take them out lowest nonce first, and a cache
of the transactions in nonce order that the mutations either patch or drop.

`Valid` is the representation invariant: the heap holds the nonces of the items, each once, in
heap order, and the cache, when there is one, is the items in increasing nonce order. Every
mutation keeps it, and on a valid map each does what its comment says: `Forward` takes out the
nonces below its threshold, `Cap` the highest nonces past its limit (as `cap` of the transaction
pool model, on the items in nonce order), `Ready` the run of consecutive nonces from the lowest,
and the strict lists' `Filter` and `Remove` split the items into what was removed, what that
invalidated and what is left.

The map is its values in iteration order, each stored under its own nonce, as `Put` stores it;
Go's iteration order is unspecified, and nothing proved here depends on it. A missing entry reads
as Go's nil (`none`), and a slicing or indexing that would panic is `none`.
-/

namespace Classzz.TxPool

/-- `nonceHeap.Less`. -/
def nonceLess (a b : UInt64) : Bool := decide (a < b)

/-- `txSortedMap`: the items, the nonce heap and the sorted cache (`none` for nil). -/
structure TxSortedMap (Tx : Type) where
  items : List Tx
  index : List UInt64
  cache : Option (List Tx)

variable {Tx : Type} (nonce : Tx → UInt64)

/-- `newTxSortedMap`. -/
def newTxSortedMap : TxSortedMap Tx := ⟨[], [], none⟩

namespace TxSortedMap

/-- `m.items[n]`. -/
def get (m : TxSortedMap Tx) (n : UInt64) : Option Tx :=
  m.items.find? fun tx => nonce tx = n

/-- `delete(m.items, n)`. -/
def deleteItem (items : List Tx) (n : UInt64) : List Tx :=
  items.filter fun tx => nonce tx ≠ n

/-- `m.items[nonce] = tx`: in place if the nonce is there, else a new entry. -/
def setItem (items : List Tx) (tx : Tx) : List Tx :=
  if items.any (fun t => nonce t = nonce tx) then
    items.map fun t => if nonce t = nonce tx then tx else t
  else items ++ [tx]

/-- `Put`. -/
def Put (m : TxSortedMap Tx) (tx : Tx) : TxSortedMap Tx :=
  let n := nonce tx
  { items := setItem nonce m.items tx
    index := if get nonce m n = none then BinaryHeap.push nonceLess m.index n else m.index
    cache := none }

/-- The length a successful `heap.Pop` leaves. -/
theorem length_of_pop {h h' : List UInt64} {x : UInt64}
    (hp : BinaryHeap.pop nonceLess h = some (h', x)) : h'.length + 1 = h.length := by
  have hne : h.length ≠ 0 := by
    intro h0
    rw [BinaryHeap.pop, if_pos h0] at hp
    cases hp
  rw [BinaryHeap.pop_eq_some nonceLess (Nat.pos_of_ne_zero hne), Option.some.injEq,
    Prod.mk.injEq] at hp
  rw [← hp.1, List.length_take, BinaryHeap.length_downLoop, BinaryHeap.length_swapAt]
  omega

/-- The loop of `Forward`: pop nonces while the lowest is below the threshold. -/
def forwardLoop (threshold : UInt64) (m : TxSortedMap Tx) (removed : List (Option Tx)) :
    TxSortedMap Tx × List (Option Tx) :=
  match m.index with
  | [] => (m, removed)
  | n₀ :: _ =>
    if n₀ < threshold then
      match hp : BinaryHeap.pop nonceLess m.index with
      | some (index, n) =>
        forwardLoop threshold { m with items := deleteItem nonce m.items n, index }
          (removed ++ [get nonce m n])
      | none => (m, removed)
    else (m, removed)
termination_by m.index.length
decreasing_by
  have := length_of_pop hp
  omega

/-- `Forward`: the popped transactions, and the cache shifted past them. -/
def Forward (m : TxSortedMap Tx) (threshold : UInt64) :
    Option (TxSortedMap Tx × List (Option Tx)) :=
  let (m, removed) := forwardLoop nonce threshold m []
  match m.cache with
  | none => some (m, removed)
  | some c =>
    if removed.length ≤ c.length then
      some ({ m with cache := some (c.drop removed.length) }, removed)
    else none

/-- `filter`: drop the items `f` holds of, in iteration order; the heap is left as it was. -/
def filter (m : TxSortedMap Tx) (f : Tx → Bool) : TxSortedMap Tx × List Tx :=
  let removed := m.items.filter f
  ({ m with
      items := m.items.filter fun tx => !f tx
      cache := if removed.isEmpty then m.cache else none },
    removed)

/-- `reheap`: the heap rebuilt from the nonces of the items in iteration order. -/
def reheap (m : TxSortedMap Tx) : TxSortedMap Tx :=
  { m with index := BinaryHeap.init nonceLess (m.items.map nonce), cache := none }

/-- `Filter`: `filter`, then `reheap` if anything went. -/
def Filter (m : TxSortedMap Tx) (f : Tx → Bool) : TxSortedMap Tx × List Tx :=
  let (m, removed) := filter m f
  (if removed.isEmpty then m else reheap nonce m, removed)

/-- The loop of `Cap` over the sorted heap: while `size > threshold`, drop the item at the nonce
`index[size - 1]`. At `size = 0` the index is read at `-1`, a panic. -/
def capLoop (threshold : ℤ) (index : List UInt64) :
    ℕ → List Tx → List (Option Tx) → Option (List Tx × List (Option Tx))
  | 0, items, drops => if threshold < 0 then none else some (items, drops)
  | k + 1, items, drops =>
    if threshold < k + 1 then
      match index[k]? with
      | some n =>
        capLoop threshold index k (deleteItem nonce items n)
          (drops ++ [items.find? fun tx => nonce tx = n])
      | none => none
    else some (items, drops)

/-- `Cap`. The sort of the heap is `sort.Sort(*m.index)`; slicing it past its length is a
panic here (Go would read its spare capacity, which it has only when the index is longer than
the items). -/
def Cap (m : TxSortedMap Tx) (threshold : ℤ) : Option (TxSortedMap Tx × List (Option Tx)) :=
  if (m.items.length : ℤ) ≤ threshold then some (m, [])
  else
    let index := m.index.mergeSort fun a b => decide (a ≤ b)
    match capLoop nonce threshold index m.items.length m.items [] with
    | none => none
    | some (items, drops) =>
      if threshold.toNat ≤ index.length then
        let index := BinaryHeap.init nonceLess (index.take threshold.toNat)
        match m.cache with
        | none => some ({ items, index, cache := none }, drops)
        | some c =>
          if drops.length ≤ c.length then
            some ({ items, index, cache := some (c.take (c.length - drops.length)) }, drops)
          else none
      else none

/-- `Remove`: find the nonce in the heap by a linear search and `heap.Remove` it. -/
def Remove (m : TxSortedMap Tx) (n : UInt64) : TxSortedMap Tx × Bool :=
  if get nonce m n = none then (m, false)
  else
    let index :=
      match m.index.findIdx? (· = n) with
      | some i => ((BinaryHeap.remove nonceLess m.index i).map (·.1)).getD m.index
      | none => m.index
    ({ items := deleteItem nonce m.items n, index, cache := none }, true)

/-- The loop of `Ready`: take the lowest nonce while it is the next one of the run. -/
def readyLoop (next : UInt64) (m : TxSortedMap Tx) (ready : List (Option Tx)) :
    TxSortedMap Tx × List (Option Tx) :=
  match m.index with
  | [] => (m, ready)
  | n₀ :: _ =>
    if n₀ = next then
      match hp : BinaryHeap.pop nonceLess m.index with
      | some (index, _) =>
        readyLoop (next + 1) { m with items := deleteItem nonce m.items next, index }
          (ready ++ [get nonce m next])
      | none => (m, ready)
    else (m, ready)
termination_by m.index.length
decreasing_by
  have := length_of_pop hp
  omega

/-- `Ready`. -/
def Ready (m : TxSortedMap Tx) (start : UInt64) : TxSortedMap Tx × List (Option Tx) :=
  match m.index with
  | [] => (m, [])
  | n₀ :: _ =>
    if n₀ > start then (m, [])
    else
      let (m, ready) := readyLoop nonce n₀ m []
      ({ m with cache := none }, ready)

/-- `flatten`: the cache, made by sorting the items by nonce if there is none. -/
def flatten (m : TxSortedMap Tx) : TxSortedMap Tx × List Tx :=
  match m.cache with
  | some c => (m, c)
  | none =>
    let c := m.items.mergeSort fun a b => decide (nonce a ≤ nonce b)
    ({ m with cache := some c }, c)

/-! ### The nonce order -/

theorem weakOrder_nonceLess : BinaryHeap.WeakOrder nonceLess :=
  BinaryHeap.WeakOrder.of_key nonceLess UInt64.toNat fun a b => by
    simp only [nonceLess, UInt64.lt_iff_toNat_lt]

/-- The root of a heap of nonces is its least element. -/
theorem head_le_of_mem {index : List UInt64}
    (ho : BinaryHeap.OrderedFrom nonceLess index index.length 0) {n₀ : UInt64}
    {rest : List UInt64} (hi : index = n₀ :: rest) {n : UInt64} (hn : n ∈ index) : n₀ ≤ n := by
  obtain ⟨k, hk, rfl⟩ := List.getElem_of_mem hn
  have hmin := BinaryHeap.root_min weakOrder_nonceLess le_rfl ho k hk
  rw [BinaryHeap.lessAt_of_lt nonceLess hk (by omega), nonceLess, decide_eq_false_iff_not,
    UInt64.not_lt] at hmin
  have h0 : index[0] = n₀ := by simp only [hi, List.getElem_cons_zero]
  rwa [h0] at hmin

/-- The items in increasing nonce order. -/
def SortedItems (items c : List Tx) : Prop :=
  c.Perm items ∧ c.Pairwise fun a b => nonce a < nonce b

theorem SortedItems.eq {items c c' : List Tx} (h : SortedItems nonce items c)
    (h' : SortedItems nonce items c') : c = c' :=
  (h.1.trans h'.1.symm).eq_of_pairwise
    (fun _ _ _ _ hab hba => absurd (UInt64.lt_trans hab hba) (UInt64.lt_irrefl _)) h.2 h'.2

/-- Distinct nonces in nondecreasing order are in increasing order. -/
theorem pairwise_lt_of_le {c : List Tx} (hnd : (c.map nonce).Nodup)
    (hle : c.Pairwise fun a b => nonce a ≤ nonce b) : c.Pairwise fun a b => nonce a < nonce b :=
  (hle.and (List.pairwise_map.mp hnd)).imp fun h => UInt64.lt_of_le_of_ne h.1 h.2

/-- Sorting by a `UInt64` key orders by the key. -/
theorem pairwise_mergeSort_key {α : Type} (key : α → UInt64) (l : List α) :
    (l.mergeSort fun a b => decide (key a ≤ key b)).Pairwise fun a b => key a ≤ key b := by
  have hle : (l.mergeSort fun a b => decide (key a ≤ key b)).Pairwise
      fun a b => decide (key a ≤ key b) = true :=
    List.pairwise_mergeSort
      (fun a b c hab hbc => by
        simp only [decide_eq_true_eq] at hab hbc ⊢
        exact UInt64.le_trans hab hbc)
      (fun a b => by rcases UInt64.le_total (key a) (key b) with h | h <;> simp [h]) l
  exact hle.imp fun h => of_decide_eq_true h

/-- Sorting items of distinct nonces sorts them strictly. -/
theorem sortedItems_mergeSort {items : List Tx} (hnd : (items.map nonce).Nodup) :
    SortedItems nonce items (items.mergeSort fun a b => decide (nonce a ≤ nonce b)) := by
  have hperm := List.mergeSort_perm items fun a b => decide (nonce a ≤ nonce b)
  exact ⟨hperm, pairwise_lt_of_le nonce ((hperm.map nonce).nodup_iff.mpr hnd)
    (pairwise_mergeSort_key nonce items)⟩

/-! ### The map -/

section Items

variable {items : List Tx}

theorem get_eq_none_iff (m : TxSortedMap Tx) (n : UInt64) :
    get nonce m n = none ↔ n ∉ m.items.map nonce := by
  rw [get, List.find?_eq_none]
  simp

/-- Under distinct nonces an item is what its nonce finds. -/
theorem find?_of_mem (hnd : (items.map nonce).Nodup) {tx : Tx} (htx : tx ∈ items) :
    items.find? (fun t => nonce t = nonce tx) = some tx := by
  induction items with
  | nil => cases htx
  | cons a items ih =>
    rw [List.map_cons, List.nodup_cons] at hnd
    rw [List.find?_cons]
    rcases List.mem_cons.mp htx with rfl | htx
    · simp
    · have hne : nonce a ≠ nonce tx := fun h => hnd.1 (h ▸ List.mem_map_of_mem htx)
      simp only [hne, decide_false]
      exact ih hnd.2 htx

theorem map_deleteItem (items : List Tx) (n : UInt64) :
    (deleteItem nonce items n).map nonce = (items.map nonce).filter (· ≠ n) := by
  rw [deleteItem, List.filter_map]
  rfl

theorem nodup_deleteItem (hnd : (items.map nonce).Nodup) (n : UInt64) :
    ((deleteItem nonce items n).map nonce).Nodup := by
  rw [map_deleteItem]
  exact hnd.filter _

/-- An item, then the others. -/
theorem perm_cons_deleteItem (hnd : (items.map nonce).Nodup) {tx : Tx} (htx : tx ∈ items) :
    items.Perm (tx :: deleteItem nonce items (nonce tx)) := by
  induction items with
  | nil => cases htx
  | cons a items ih =>
    rw [List.map_cons, List.nodup_cons] at hnd
    rcases List.mem_cons.mp htx with rfl | htx
    · -- no other item has the nonce of the first
      have hrest : deleteItem nonce items (nonce tx) = items := by
        refine List.filter_eq_self.mpr fun b hb => ?_
        have : nonce b ≠ nonce tx := fun h => hnd.1 (h ▸ List.mem_map_of_mem hb)
        simpa using this
      simp only [deleteItem, List.filter_cons, ne_eq, not_true_eq_false, decide_false,
        Bool.false_eq_true, if_false]
      rw [← deleteItem, hrest]
    · have hne : nonce a ≠ nonce tx := fun h => hnd.1 (h ▸ List.mem_map_of_mem htx)
      simp only [deleteItem, List.filter_cons, ne_eq, hne, not_false_eq_true, decide_true,
        if_true]
      rw [← deleteItem]
      exact ((ih hnd.2 htx).cons a).trans (List.Perm.swap tx a _)

theorem map_setItem (items : List Tx) (tx : Tx) :
    (setItem nonce items tx).map nonce =
      if nonce tx ∈ items.map nonce then items.map nonce else items.map nonce ++ [nonce tx] := by
  unfold setItem
  by_cases hn : nonce tx ∈ items.map nonce
  · have hany : items.any (fun t => decide (nonce t = nonce tx)) = true := by
      obtain ⟨t, ht, hnt⟩ := List.mem_map.mp hn
      exact List.any_eq_true.mpr ⟨t, ht, by simpa using hnt⟩
    rw [if_pos hany, if_pos hn, List.map_map]
    refine List.map_congr_left fun t _ => ?_
    by_cases h : nonce t = nonce tx <;> simp [h]
  · have hany : items.any (fun t => decide (nonce t = nonce tx)) = false := by
      rw [Bool.eq_false_iff, ne_eq, List.any_eq_true]
      rintro ⟨t, ht, hnt⟩
      exact hn (List.mem_map.mpr ⟨t, ht, by simpa using hnt⟩)
    rw [if_neg (by rw [hany]; exact Bool.false_ne_true), if_neg hn, List.map_append,
      List.map_singleton]

end Items

/-! ### The invariant -/

/-- The heap holds the nonces of the items, each once, in heap order. -/
structure Indexed (m : TxSortedMap Tx) : Prop where
  nodup : (m.items.map nonce).Nodup
  index : m.index.Perm (m.items.map nonce)
  heap : BinaryHeap.OrderedFrom nonceLess m.index m.index.length 0

/-- The representation invariant: the heap indexes the items and the cache, when there is one,
is the items in nonce order. -/
structure Valid (m : TxSortedMap Tx) : Prop extends Indexed nonce m where
  cache : ∀ c, m.cache = some c → SortedItems nonce m.items c

theorem valid_newTxSortedMap : Valid nonce (newTxSortedMap : TxSortedMap Tx) where
  nodup := List.nodup_nil
  index := List.Perm.nil
  heap _ _ hk := absurd hk (Nat.not_lt_zero _)
  cache _ h := by cases h

/-- `Put` keeps the invariant. -/
theorem Valid.Put {m : TxSortedMap Tx} (hv : Valid nonce m) (tx : Tx) :
    Valid nonce (m.Put nonce tx) := by
  unfold TxSortedMap.Put
  dsimp only
  by_cases hn : nonce tx ∈ m.items.map nonce
  · -- a replacement: the nonces stay
    have hget : get nonce m (nonce tx) ≠ none := fun h => (get_eq_none_iff nonce m _).mp h hn
    refine ⟨⟨?_, ?_, ?_⟩, fun c hc => by cases hc⟩
    · rw [map_setItem, if_pos hn]
      exact hv.nodup
    · rw [if_neg hget, map_setItem, if_pos hn]
      exact hv.index
    · rw [if_neg hget]
      exact hv.heap
  · -- a new nonce: pushed on the heap
    have hget : get nonce m (nonce tx) = none := (get_eq_none_iff nonce m _).mpr hn
    obtain ⟨hperm, hord⟩ := BinaryHeap.push_spec weakOrder_nonceLess hv.heap (nonce tx)
    have hlen : (BinaryHeap.push nonceLess m.index (nonce tx)).length = m.index.length + 1 := by
      rw [hperm.length_eq, List.length_append, List.length_singleton]
    refine ⟨⟨?_, ?_, ?_⟩, fun c hc => by cases hc⟩
    · rw [map_setItem, if_neg hn]
      exact List.nodup_append.mpr ⟨hv.nodup, List.nodup_singleton _,
        fun a ha b hb hab => hn (by rw [List.mem_singleton.mp hb] at hab; exact hab ▸ ha)⟩
    · rw [if_pos hget, map_setItem, if_neg hn]
      exact hperm.trans (hv.index.append_right _)
    · rw [if_pos hget, hlen]
      exact hord

/-- A heap that holds the nonces but `n`, in heap order, indexes the items but the one at `n`. -/
theorem indexed_deleteItem {m : TxSortedMap Tx} (hnd : (m.items.map nonce).Nodup) {n : UInt64}
    {index : List UInt64} (hkeys : (n :: index).Perm (m.items.map nonce))
    (hord : BinaryHeap.OrderedFrom nonceLess index index.length 0) (cache : Option (List Tx)) :
    Indexed nonce ⟨deleteItem nonce m.items n, index, cache⟩ := by
  have hndi : (n :: index).Nodup := hkeys.nodup_iff.mpr hnd
  refine ⟨nodup_deleteItem nonce hnd n, ?_, hord⟩
  have hrest : index.filter (· ≠ n) = index :=
    List.filter_eq_self.mpr fun b hb => by
      have hbn : b ≠ n := fun h => (List.nodup_cons.mp hndi).1 (h ▸ hb)
      simpa using hbn
  have hfilter := hkeys.filter (· ≠ n)
  rw [List.filter_cons_of_neg (by simp), hrest] at hfilter
  rw [map_deleteItem]
  exact hfilter

/-- A pop takes the root, an item's nonce, and leaves the rest indexed. -/
theorem Indexed.pop {m : TxSortedMap Tx} (hi : Indexed nonce m) {index : List UInt64}
    {n : UInt64} (hp : BinaryHeap.pop nonceLess m.index = some (index, n)) :
    m.index.head? = some n ∧ n ∈ m.items.map nonce ∧
      Indexed nonce { m with items := deleteItem nonce m.items n, index } := by
  obtain ⟨hhead, hperm, hord⟩ := BinaryHeap.pop_spec weakOrder_nonceLess hi.heap hp
  have hkeys := hperm.trans hi.index
  exact ⟨hhead, hkeys.subset (List.mem_cons_self ..),
    indexed_deleteItem nonce hi.nodup hkeys hord m.cache⟩

/-- The items in nonce order below a nonce are a prefix of them. -/
theorem filter_eq_takeWhile {c : List Tx} (hc : c.Pairwise fun a b => nonce a < nonce b)
    (t : UInt64) :
    c.filter (fun tx => decide (nonce tx < t)) = c.takeWhile (fun tx => decide (nonce tx < t)) ∧
      c.filter (fun tx => !decide (nonce tx < t)) =
        c.dropWhile fun tx => decide (nonce tx < t) := by
  induction c with
  | nil => exact ⟨rfl, rfl⟩
  | cons a c ih =>
    obtain ⟨hlt, hc⟩ := List.pairwise_cons.mp hc
    obtain ⟨ih₁, ih₂⟩ := ih hc
    by_cases ha : nonce a < t
    · rw [List.filter_cons_of_pos (by simpa using ha),
        List.takeWhile_cons_of_pos (by simpa using ha),
        List.filter_cons_of_neg (by simpa using ha), List.dropWhile_cons_of_pos (by simpa using ha),
        ih₁, ih₂]
      exact ⟨rfl, rfl⟩
    · -- from the first nonce at or above `t` on, every nonce is
      have hall : ∀ b ∈ c, ¬nonce b < t := fun b hb hbt =>
        ha (UInt64.lt_trans (hlt b hb) hbt)
      rw [List.filter_cons_of_neg (by simpa using ha),
        List.takeWhile_cons_of_neg (by simpa using ha),
        List.filter_cons_of_pos (by simpa using ha), List.dropWhile_cons_of_neg (by simpa using ha),
        List.filter_eq_nil_iff.mpr fun b hb => by simpa using hall b hb,
        List.filter_eq_self.mpr fun b hb => by simpa using hall b hb]
      exact ⟨rfl, rfl⟩

/-- Dropping as many as there are items below `t` from the items in nonce order leaves the
others in nonce order. -/
theorem SortedItems.drop_lt {items c : List Tx} (hs : SortedItems nonce items c) (t : UInt64) :
    SortedItems nonce (items.filter fun tx => !decide (nonce tx < t))
      (c.drop (items.filter fun tx => decide (nonce tx < t)).length) := by
  obtain ⟨htake, hdrop⟩ := filter_eq_takeWhile nonce hs.2 t
  have hlen : (items.filter fun tx => decide (nonce tx < t)).length =
      (c.takeWhile fun tx => decide (nonce tx < t)).length := by
    rw [← htake, (hs.1.filter _).length_eq]
  have hsplit := List.takeWhile_append_dropWhile (p := fun tx => decide (nonce tx < t)) (l := c)
  have hd : c.drop (c.takeWhile fun tx => decide (nonce tx < t)).length =
      c.dropWhile fun tx => decide (nonce tx < t) := by
    calc c.drop (c.takeWhile fun tx => decide (nonce tx < t)).length
        = ((c.takeWhile fun tx => decide (nonce tx < t)) ++
            c.dropWhile fun tx => decide (nonce tx < t)).drop
            (c.takeWhile fun tx => decide (nonce tx < t)).length := by rw [hsplit]
      _ = c.dropWhile fun tx => decide (nonce tx < t) := List.drop_left
  rw [hlen, hd, ← hdrop]
  exact ⟨hs.1.filter _, hs.2.sublist List.filter_sublist⟩

/-- An item found by the nonce of a popped index entry. -/
theorem get_of_mem_keys {m : TxSortedMap Tx} (hnd : (m.items.map nonce).Nodup) {n : UInt64}
    (hn : n ∈ m.items.map nonce) :
    ∃ tx ∈ m.items, nonce tx = n ∧ get nonce m n = some tx := by
  obtain ⟨tx, htx, rfl⟩ := List.mem_map.mp hn
  exact ⟨tx, htx, rfl, find?_of_mem nonce hnd htx⟩

/-- `Forward`'s loop takes out exactly the items below the threshold. -/
theorem forwardLoop_spec (t : UInt64) (m : TxSortedMap Tx) (removed : List (Option Tx)) :
    Indexed nonce m →
      Indexed nonce (forwardLoop nonce t m removed).1 ∧
      (forwardLoop nonce t m removed).1.items =
        m.items.filter (fun tx => !decide (nonce tx < t)) ∧
      (forwardLoop nonce t m removed).1.cache = m.cache ∧
      (forwardLoop nonce t m removed).2.Perm
        (removed ++ (m.items.filter fun tx => decide (nonce tx < t)).map some) := by
  fun_induction forwardLoop nonce t m removed with
  | case1 m removed hidx =>
    -- no nonces, so no items
    intro hi
    have hkeys := hi.index
    rw [hidx, List.nil_perm] at hkeys
    have hnil : m.items = [] := List.map_eq_nil_iff.mp hkeys
    rw [hnil]
    exact ⟨hi, rfl, rfl, by rw [List.filter_nil, List.map_nil, List.append_nil]⟩
  | case2 m removed n₀ tail hidx hlt index n hp ih =>
    -- the root is below the threshold and goes
    intro hi
    obtain ⟨hhead, hmem, hi'⟩ := hi.pop nonce hp
    obtain ⟨h₁, h₂, h₃, h₄⟩ := ih hi'
    rw [hidx, List.head?_cons, Option.some.injEq] at hhead
    subst hhead
    obtain ⟨tx, htx, hntx, hget⟩ := get_of_mem_keys nonce hi.nodup hmem
    have hperm := perm_cons_deleteItem nonce hi.nodup htx
    rw [hntx] at hperm
    refine ⟨h₁, ?_, h₃, ?_⟩
    · rw [h₂, deleteItem, List.filter_filter]
      refine List.filter_congr fun b _ => ?_
      by_cases hb : nonce b = n₀
      · simp [hb, hlt]
      · simp [hb]
    · have hbelow := (hperm.filter fun tx => decide (nonce tx < t)).map some
      rw [List.filter_cons_of_pos (by rw [hntx]; simpa using hlt), List.map_cons] at hbelow
      rw [hget] at h₄ ⊢
      rw [List.append_assoc, List.singleton_append] at h₄
      exact h₄.trans (hbelow.symm.append_left removed)
  | case3 m removed n₀ tail hidx hlt hp =>
    intro _
    rw [BinaryHeap.pop_eq_none_iff, hidx] at hp
    cases hp
  | case4 m removed n₀ tail hidx hlt =>
    -- the root is at or above the threshold, and so is every nonce
    intro hi
    have hall : ∀ tx ∈ m.items, ¬nonce tx < t := fun tx htx hlt' => by
      have hmem : nonce tx ∈ m.index := hi.index.symm.subset (List.mem_map_of_mem htx)
      exact hlt (UInt64.lt_of_le_of_lt (head_le_of_mem hi.heap hidx hmem) hlt')
    refine ⟨hi, ?_, rfl, ?_⟩
    · exact (List.filter_eq_self.mpr fun tx htx => by simpa using hall tx htx).symm
    · rw [List.filter_eq_nil_iff.mpr fun tx htx => by simpa using hall tx htx, List.map_nil,
        List.append_nil]

/-- `Forward` on a valid map: it does not panic, takes out exactly the items below the threshold
and keeps the invariant. -/
theorem Valid.Forward {m : TxSortedMap Tx} (hv : Valid nonce m) (t : UInt64) :
    ∃ m' removed, m.Forward nonce t = some (m', removed) ∧ Valid nonce m' ∧
      m'.items = m.items.filter (fun tx => !decide (nonce tx < t)) ∧
      removed.Perm ((m.items.filter fun tx => decide (nonce tx < t)).map some) := by
  obtain ⟨h₁, h₂, h₃, h₄⟩ := forwardLoop_spec nonce t m [] hv.toIndexed
  rw [List.nil_append] at h₄
  unfold TxSortedMap.Forward
  generalize forwardLoop nonce t m [] = r at h₁ h₂ h₃ h₄
  obtain ⟨m₁, removed⟩ := r
  dsimp only at h₁ h₂ h₃ h₄ ⊢
  cases hc : m₁.cache with
  | none =>
    refine ⟨m₁, removed, rfl, ⟨h₁, fun c h => by rw [hc] at h; cases h⟩, h₂, h₄⟩
  | some c =>
    -- the cache loses its prefix below the threshold
    rw [h₃] at hc
    have hs := hv.cache c hc
    have hlen : removed.length = (m.items.filter fun tx => decide (nonce tx < t)).length := by
      rw [h₄.length_eq, List.length_map]
    have hle : removed.length ≤ c.length := by
      rw [hlen, hs.1.length_eq]
      exact List.length_filter_le _ _
    dsimp only
    rw [if_pos hle]
    refine ⟨_, removed, rfl, ⟨⟨h₁.nodup, h₁.index, h₁.heap⟩, fun c' h => ?_⟩, h₂, h₄⟩
    rw [Option.some.injEq] at h
    rw [← h, h₂, hlen]
    exact hs.drop_lt nonce t

/-! ### `filter`, `reheap` and `Filter` -/

/-- `reheap` indexes the items again, whatever the heap was. -/
theorem valid_reheap {m : TxSortedMap Tx} (hnd : (m.items.map nonce).Nodup) :
    Valid nonce (m.reheap nonce) where
  nodup := hnd
  index := BinaryHeap.init_perm nonceLess _
  heap := BinaryHeap.init_ordered weakOrder_nonceLess _
  cache _ h := by cases h

theorem filter_spec (m : TxSortedMap Tx) (f : Tx → Bool) :
    (m.filter f).1.items = m.items.filter (fun tx => !f tx) ∧ (m.filter f).2 = m.items.filter f :=
  ⟨rfl, rfl⟩

/-- `filter` followed by `reheap` keeps the invariant. -/
theorem Valid.filter_reheap {m : TxSortedMap Tx} (hv : Valid nonce m) (f : Tx → Bool) :
    Valid nonce ((m.filter f).1.reheap nonce) :=
  valid_reheap nonce (hv.nodup.sublist (List.filter_sublist.map nonce))

/-- `Filter` keeps the invariant, and splits the items by `f`. -/
theorem Valid.Filter {m : TxSortedMap Tx} (hv : Valid nonce m) (f : Tx → Bool) :
    Valid nonce (m.Filter nonce f).1 ∧
      (m.Filter nonce f).1.items = m.items.filter (fun tx => !f tx) ∧
      (m.Filter nonce f).2 = m.items.filter f := by
  unfold TxSortedMap.Filter
  dsimp only
  by_cases he : (m.items.filter f).isEmpty
  · -- nothing went: the map is as it was
    have hall : m.items.filter (fun tx => !f tx) = m.items := by
      refine List.filter_eq_self.mpr fun tx htx => ?_
      have hnf : ¬f tx = true := fun hf => by
        have hmem : tx ∈ m.items.filter f := List.mem_filter.mpr ⟨htx, hf⟩
        rw [List.isEmpty_iff.mp he] at hmem
        cases hmem
      simpa using hnf
    rw [if_pos (by simpa [filter] using he)]
    refine ⟨?_, rfl, rfl⟩
    have hm : (m.filter f).1 = m := by
      simp only [filter, if_pos he, hall]
    rw [hm]
    exact hv
  · rw [if_neg (by simpa [filter] using he)]
    exact ⟨hv.filter_reheap nonce f, rfl, rfl⟩

/-! ### `Remove` -/

/-- `Remove` keeps the invariant, deletes the item at the nonce and says whether there was one. -/
theorem Valid.Remove {m : TxSortedMap Tx} (hv : Valid nonce m) (n : UInt64) :
    Valid nonce (m.Remove nonce n).1 ∧ (m.Remove nonce n).2 = decide (n ∈ m.items.map nonce) ∧
      (m.Remove nonce n).1.items = deleteItem nonce m.items n := by
  unfold TxSortedMap.Remove
  by_cases hn : n ∈ m.items.map nonce
  · have hget : get nonce m n ≠ none := fun h => (get_eq_none_iff nonce m n).mp h hn
    rw [if_neg hget]
    dsimp only
    -- the linear search finds the nonce in the heap
    have hidx : n ∈ m.index := hv.index.symm.subset hn
    obtain ⟨i, hi⟩ : ∃ i, m.index.findIdx? (· = n) = some i := by
      cases h : m.index.findIdx? (· = n) with
      | none =>
        have := List.findIdx?_eq_none_iff.mp h n hidx
        simp at this
      | some i => exact ⟨i, rfl⟩
    obtain ⟨hlt, hat, -⟩ := List.findIdx?_eq_some_iff_getElem.mp hi
    have hat' : m.index[i] = n := by simpa using hat
    obtain ⟨⟨index, x⟩, hr⟩ : ∃ r, BinaryHeap.remove nonceLess m.index i = some r := by
      cases h : BinaryHeap.remove nonceLess m.index i with
      | none => exact absurd ((BinaryHeap.remove_eq_none_iff nonceLess _ _).mp h) (by omega)
      | some r => exact ⟨r, rfl⟩
    obtain ⟨hx, hperm, hord⟩ := BinaryHeap.remove_spec weakOrder_nonceLess hv.heap hr
    rw [List.getElem?_eq_getElem hlt, hat', Option.some.injEq] at hx
    subst hx
    have hkeys : (n :: index).Perm (m.items.map nonce) :=
      (List.perm_append_singleton _ _).symm.trans (hperm.trans hv.index)
    rw [hi]
    dsimp only
    rw [hr]
    have hind := indexed_deleteItem nonce hv.nodup hkeys hord none
    exact ⟨⟨hind, fun c h => by cases h⟩, by simp [hn], rfl⟩
  · have hget : get nonce m n = none := (get_eq_none_iff nonce m n).mpr hn
    rw [if_pos hget]
    have hsame : deleteItem nonce m.items n = m.items :=
      List.filter_eq_self.mpr fun tx htx => by
        have : nonce tx ≠ n := fun h => hn (h ▸ List.mem_map_of_mem htx)
        simpa using this
    exact ⟨hv, by simp [hn], hsame.symm⟩

/-! ### `Ready` -/

theorem offset_succ (next : UInt64) (j : ℕ) :
    next + 1 + UInt64.ofNat j = next + UInt64.ofNat (j + 1) := by
  rw [UInt64.add_assoc, UInt64.ofNat_add, UInt64.add_comm (UInt64.ofNat j)]
  rfl

/-- Above a nonce below another, the next nonce is at most the other. -/
theorem add_one_le_of_lt {a b : UInt64} (h : a < b) : a + 1 ≤ b := by
  rw [UInt64.lt_iff_toNat_lt] at h
  rw [UInt64.le_iff_toNat_le, UInt64.toNat_add, UInt64.toNat_one]
  have hb := UInt64.toNat_lt b
  rw [Nat.mod_eq_of_lt (by omega)]
  omega

/-- `Ready`'s loop, started at or below every nonce, takes out the run of consecutive nonces
from `next`. -/
theorem readyLoop_spec (next : UInt64) (m : TxSortedMap Tx) (ready : List (Option Tx)) :
    Indexed nonce m → (∀ x ∈ m.index, next ≤ x) →
      Indexed nonce (readyLoop nonce next m ready).1 ∧
      (readyLoop nonce next m ready).1.cache = m.cache ∧
      ∃ run : List Tx, (readyLoop nonce next m ready).2 = ready ++ run.map some ∧
        run.map nonce = (List.range run.length).map (fun j => next + UInt64.ofNat j) ∧
        (∀ tx ∈ run, tx ∈ m.items) ∧
        (readyLoop nonce next m ready).1.items =
          m.items.filter (fun tx => decide (nonce tx ∉ run.map nonce)) ∧
        next + UInt64.ofNat run.length ∉ (readyLoop nonce next m ready).1.items.map nonce := by
  fun_induction readyLoop nonce next m ready with
  | case1 next m ready hidx =>
    intro hi _
    have hkeys := hi.index
    rw [hidx, List.nil_perm] at hkeys
    have hnil : m.items = [] := List.map_eq_nil_iff.mp hkeys
    refine ⟨hi, rfl, [], ?_, rfl, fun _ h => absurd h List.not_mem_nil, ?_, ?_⟩
    · rw [List.map_nil, List.append_nil]
    · rw [hnil]
      rfl
    · rw [hnil]
      exact List.not_mem_nil
  | case2 m ready n₀ tail hidx index x hp ih =>
    -- the root is the next nonce of the run and goes
    intro hi hge
    obtain ⟨hhead, hmem, hi'⟩ := hi.pop nonce hp
    rw [hidx, List.head?_cons, Option.some.injEq] at hhead
    subst hhead
    have hge' : ∀ y ∈ index, n₀ + 1 ≤ y := by
      obtain ⟨-, hperm, -⟩ := BinaryHeap.pop_spec weakOrder_nonceLess hi.heap hp
      have hnd : (n₀ :: index).Nodup := (hperm.trans hi.index).nodup_iff.mpr hi.nodup
      intro y hy
      have hne : n₀ ≠ y := fun h => (List.nodup_cons.mp hnd).1 (h ▸ hy)
      exact add_one_le_of_lt
        (UInt64.lt_of_le_of_ne (hge y (hperm.subset (List.mem_cons_of_mem _ hy))) hne)
    obtain ⟨h₁, h₂, run, hrun, hnonces, hsub, hitems, hmax⟩ := ih hi' hge'
    obtain ⟨tx, htx, hntx, hget⟩ := get_of_mem_keys nonce hi.nodup hmem
    refine ⟨h₁, h₂, tx :: run, ?_, ?_, ?_, ?_, ?_⟩
    · rw [hrun, hget, List.map_cons, List.append_assoc, List.singleton_append]
    · rw [List.map_cons, hnonces, List.length_cons, List.range_succ_eq_map, List.map_cons,
        List.map_map, hntx]
      refine congrArg₂ _ (UInt64.add_zero n₀).symm (List.map_congr_left fun j _ => ?_)
      exact offset_succ n₀ j
    · intro t ht
      rcases List.mem_cons.mp ht with rfl | ht
      · exact htx
      · exact List.mem_of_mem_filter (hsub t ht)
    · rw [hitems, deleteItem, List.filter_filter, List.map_cons]
      refine List.filter_congr fun b _ => ?_
      by_cases hb : nonce b = n₀ <;> simp [hb, hntx]
    · rw [List.length_cons, ← offset_succ]
      exact hmax
  | case3 m ready n₀ tail hidx hp =>
    intro _ _
    rw [BinaryHeap.pop_eq_none_iff, hidx] at hp
    cases hp
  | case4 next m ready n₀ tail hidx hne =>
    -- the least nonce is not the next one, so the next one is not there
    intro hi hge
    refine ⟨hi, rfl, [], ?_, rfl, fun _ h => absurd h List.not_mem_nil, ?_, ?_⟩
    · rw [List.map_nil, List.append_nil]
    · exact (List.filter_eq_self.mpr fun tx _ => by simp).symm
    · intro hn
      rw [List.length_nil] at hn
      have hmem : next ∈ m.index := hi.index.symm.subset (by simpa using hn)
      exact hne (UInt64.le_antisymm (head_le_of_mem hi.heap hidx hmem)
        (hge n₀ (by rw [hidx]; exact List.mem_cons_self ..)))

/-- `Ready` on a valid map keeps the invariant; it does nothing when every nonce is above
`start`, and otherwise takes out the run of consecutive nonces from the least, up to the first
one missing. -/
theorem Valid.Ready {m : TxSortedMap Tx} (hv : Valid nonce m) (start : UInt64) :
    Valid nonce (m.Ready nonce start).1 ∧
      ((∀ x ∈ m.items.map nonce, start < x) → m.Ready nonce start = (m, [])) ∧
      ∀ n₀ ∈ m.items.map nonce, (∀ x ∈ m.items.map nonce, n₀ ≤ x) → n₀ ≤ start →
        ∃ run : List Tx, (m.Ready nonce start).2 = run.map some ∧
          run.map nonce = (List.range run.length).map (fun j => n₀ + UInt64.ofNat j) ∧
          (∀ tx ∈ run, tx ∈ m.items) ∧
          (m.Ready nonce start).1.items =
            m.items.filter (fun tx => decide (nonce tx ∉ run.map nonce)) ∧
          n₀ + UInt64.ofNat run.length ∉ (m.Ready nonce start).1.items.map nonce := by
  unfold TxSortedMap.Ready
  cases hidx : m.index with
  | nil =>
    have hkeys := hv.index
    rw [hidx, List.nil_perm] at hkeys
    refine ⟨hv, fun _ => rfl, fun n₀ hn₀ => ?_⟩
    rw [hkeys] at hn₀
    exact absurd hn₀ List.not_mem_nil
  | cons r tail =>
    have hroot : ∀ x ∈ m.items.map nonce, r ≤ x := fun x hx =>
      head_le_of_mem hv.heap hidx (hv.index.symm.subset hx)
    have hr : r ∈ m.items.map nonce := hv.index.subset (by rw [hidx]; exact List.mem_cons_self ..)
    dsimp only
    by_cases hgt : r > start
    · -- every nonce is above `start`
      rw [if_pos hgt]
      refine ⟨hv, fun _ => rfl, fun n₀ hn₀ hmin hle => ?_⟩
      exact absurd (UInt64.lt_of_lt_of_le hgt (UInt64.le_trans (hroot n₀ hn₀) hle))
        (UInt64.lt_irrefl _)
    · rw [if_neg hgt]
      obtain ⟨h₁, h₂, run, hrun, hnonces, hsub, hitems, hmax⟩ :=
        readyLoop_spec nonce r m [] hv.toIndexed (fun x hx => hroot x (hv.index.subset hx))
      generalize readyLoop nonce r m [] = res at h₁ h₂ hrun hitems hmax
      obtain ⟨m₁, ready⟩ := res
      dsimp only at h₁ h₂ hrun hitems hmax ⊢
      refine ⟨⟨⟨h₁.nodup, h₁.index, h₁.heap⟩, fun c h => by cases h⟩,
        fun hall => absurd (hall r hr) hgt, fun n₀ hn₀ hmin _ => ?_⟩
      -- the least nonce is the root
      have hn₀r : n₀ = r := UInt64.le_antisymm (hmin r hr) (hroot n₀ hn₀)
      subst hn₀r
      refine ⟨run, ?_, hnonces, hsub, hitems, hmax⟩
      rw [hrun, List.nil_append]

/-! ### `Cap` -/

theorem nodup_of_sorted {c : List Tx} (hc : c.Pairwise fun a b => nonce a < nonce b) :
    (c.map nonce).Nodup :=
  List.pairwise_map.mpr (hc.imp UInt64.ne_of_lt)

/-- The heap sorted is the nonces of the items in nonce order. -/
theorem mergeSort_index {m : TxSortedMap Tx} (hi : Indexed nonce m) {c : List Tx}
    (hc : SortedItems nonce m.items c) :
    m.index.mergeSort (fun a b => decide (a ≤ b)) = c.map nonce := by
  have hperm : (m.index.mergeSort fun a b => decide (a ≤ b)).Perm (c.map nonce) :=
    (List.mergeSort_perm _ _).trans (hi.index.trans (hc.1.map nonce).symm)
  have hsorted : (m.index.mergeSort fun a b => decide (a ≤ b)).Pairwise fun a b => a ≤ b :=
    pairwise_mergeSort_key (fun a => a) m.index
  refine hperm.eq_of_pairwise (fun _ _ _ _ hab hba => UInt64.le_antisymm hab hba) hsorted ?_
  exact List.pairwise_map.mpr (hc.2.imp UInt64.le_of_lt)

/-- At size `threshold` the loop of `Cap` stops. -/
theorem capLoop_toNat {threshold : ℤ} (hnn : 0 ≤ threshold) (index : List UInt64)
    (items : List Tx) (drops : List (Option Tx)) :
    capLoop nonce threshold index threshold.toNat items drops = some (items, drops) := by
  cases ht : threshold.toNat with
  | zero => rw [capLoop, if_neg (by omega)]
  | succ t => rw [capLoop, if_neg (by omega)]

/-- Under a negative threshold the loop of `Cap` reads the heap down to index `-1`. -/
theorem capLoop_of_neg {threshold : ℤ} (hneg : threshold < 0) (index : List UInt64) :
    ∀ k (items : List Tx) drops, k ≤ index.length →
      capLoop nonce threshold index k items drops = none
  | 0, items, drops, _ => by rw [capLoop, if_pos hneg]
  | k + 1, items, drops, hk => by
    rw [capLoop, if_pos (by omega), List.getElem?_eq_getElem (by omega)]
    exact capLoop_of_neg hneg index k _ _ (by omega)

/-- From size `threshold + j` down to `threshold`, the loop of `Cap` drops the items in nonce
order past `threshold`, the highest first, and keeps the first `threshold`. -/
theorem capLoop_spec {threshold : ℤ} (hnn : 0 ≤ threshold) {sorted : List Tx}
    (hc : sorted.Pairwise fun a b => nonce a < nonce b) :
    ∀ j (items : List Tx) drops, threshold.toNat + j ≤ sorted.length →
      items.Perm (sorted.take (threshold.toNat + j)) →
      ∃ items', capLoop nonce threshold (sorted.map nonce) (threshold.toNat + j) items drops =
          some (items', drops ++ ((sorted.drop threshold.toNat).take j).reverse.map some) ∧
        items'.Perm (sorted.take threshold.toNat)
  | 0, items, drops, _, hp => by
    refine ⟨items, ?_, hp⟩
    rw [Nat.add_zero, capLoop_toNat nonce hnn, List.take_zero, List.reverse_nil, List.map_nil,
      List.append_nil]
  | j + 1, items, drops, hlen, hp => by
    have hk : threshold.toNat + j < sorted.length := by omega
    -- the item at size `threshold + j + 1` is the highest one left
    have hsplit : sorted.take (threshold.toNat + j + 1) =
        sorted.take (threshold.toNat + j) ++ [sorted[threshold.toNat + j]] := by
      rw [List.take_add_one, List.getElem?_eq_getElem hk, Option.toList_some]
    rw [← Nat.add_assoc] at hp
    have hnd : (items.map nonce).Nodup :=
      (hp.map nonce).nodup_iff.mpr (nodup_of_sorted nonce (hc.sublist (List.take_sublist _ _)))
    rw [hsplit] at hp
    have hmem : sorted[threshold.toNat + j] ∈ items :=
      hp.symm.subset (List.mem_append_right _ (List.mem_singleton_self _))
    have hrest : (deleteItem nonce items (nonce sorted[threshold.toNat + j])).Perm
        (sorted.take (threshold.toNat + j)) :=
      ((perm_cons_deleteItem nonce hnd hmem).symm.trans
        (hp.trans (List.perm_append_singleton _ _))).cons_inv
    obtain ⟨items', hloop, hperm⟩ :=
      capLoop_spec hnn hc j _
        (drops ++ [items.find? fun tx => nonce tx = nonce sorted[threshold.toNat + j]])
        (by omega) hrest
    refine ⟨items', ?_, hperm⟩
    rw [← Nat.add_assoc, capLoop, if_pos (by omega), List.getElem?_map,
      List.getElem?_eq_getElem hk, Option.map_some]
    dsimp only
    rw [hloop, find?_of_mem nonce hnd hmem, List.take_add_one, List.getElem?_drop,
      List.getElem?_eq_getElem hk, Option.toList_some, List.reverse_append, List.reverse_singleton,
      List.singleton_append, List.map_cons, List.append_assoc, List.singleton_append]

/-- `Cap` on a valid map is `cap` of the transaction pool on the items in nonce order: it panics
where `cap` does (a negative threshold under the length), and otherwise drops what `cap` drops,
the highest nonce first, keeps the invariant, and keeps what `cap` keeps. -/
theorem Valid.Cap {m : TxSortedMap Tx} (hv : Valid nonce m) {c : List Tx}
    (hc : SortedItems nonce m.items c) (threshold : ℤ) :
    (cap threshold c = none → m.Cap nonce threshold = none) ∧
      ∀ kept dropped, cap threshold c = some (kept, dropped) →
        ∃ m', m.Cap nonce threshold = some (m', dropped.map some) ∧ Valid nonce m' ∧
          SortedItems nonce m'.items kept := by
  have hlen : c.length = m.items.length := hc.1.length_eq
  unfold TxSortedMap.Cap cap
  by_cases hle : (m.items.length : ℤ) ≤ threshold
  · -- under the limit nothing goes
    rw [if_pos hle, if_pos (by rwa [hlen])]
    refine ⟨nofun, fun kept dropped h => ?_⟩
    rw [Option.some.injEq, Prod.mk.injEq] at h
    obtain ⟨rfl, rfl⟩ := h
    exact ⟨m, rfl, hv, hc⟩
  rw [if_neg hle, if_neg (by rwa [hlen]), mergeSort_index nonce hv.toIndexed hc]
  dsimp only
  by_cases hneg : threshold < 0
  · rw [if_pos hneg, capLoop_of_neg nonce hneg _ _ _ _ (by rw [List.length_map, hlen])]
    exact ⟨fun _ => rfl, fun _ _ => nofun⟩
  rw [if_neg hneg]
  -- the loop runs from the length down to the threshold
  have hnn : 0 ≤ threshold := by omega
  obtain ⟨items', hloop, hperm⟩ := capLoop_spec nonce hnn hc.2
    (m.items.length - threshold.toNat) m.items [] (by omega)
    (by rw [show threshold.toNat + (m.items.length - threshold.toNat) = c.length by omega,
      List.take_length]; exact hc.1.symm)
  rw [show threshold.toNat + (m.items.length - threshold.toNat) = m.items.length by omega,
    List.take_of_length_le (by rw [List.length_drop]; omega), List.nil_append] at hloop
  have hsorted : SortedItems nonce items' (c.take threshold.toNat) :=
    ⟨hperm.symm, hc.2.sublist (List.take_sublist _ _)⟩
  have hindexed : Indexed nonce ⟨items', BinaryHeap.init nonceLess
      ((c.map nonce).take threshold.toNat), none⟩ :=
    ⟨(hperm.map nonce).nodup_iff.mpr (nodup_of_sorted nonce hsorted.2),
      (BinaryHeap.init_perm nonceLess _).trans
        (by rw [← List.map_take]; exact (hperm.map nonce).symm),
      BinaryHeap.init_ordered weakOrder_nonceLess _⟩
  rw [hloop]
  dsimp only
  rw [if_pos (by rw [List.length_map]; omega)]
  refine ⟨nofun, fun kept dropped h => ?_⟩
  rw [Option.some.injEq, Prod.mk.injEq] at h
  obtain ⟨rfl, rfl⟩ := h
  cases hcache : m.cache with
  | none => exact ⟨_, rfl, ⟨hindexed, fun _ h => by cases h⟩, hsorted⟩
  | some cc =>
    -- the cache is the items in nonce order and loses its tail
    have hcc : cc = c := (hv.cache cc hcache).eq nonce hc
    subst hcc
    have hdrops : ((cc.drop threshold.toNat).reverse.map some).length ≤ cc.length := by
      rw [List.length_map, List.length_reverse, List.length_drop]
      omega
    dsimp only
    rw [if_pos hdrops]
    refine ⟨_, rfl, ⟨⟨hindexed.nodup, hindexed.index, hindexed.heap⟩, fun c' h => ?_⟩, hsorted⟩
    rw [Option.some.injEq] at h
    rw [← h, List.length_map, List.length_reverse, List.length_drop,
      show cc.length - (cc.length - threshold.toNat) = threshold.toNat by omega]
    exact hsorted

/-! ### `flatten` -/

/-- `flatten` returns the items in nonce order, and caching them keeps the invariant. -/
theorem Valid.flatten {m : TxSortedMap Tx} (hv : Valid nonce m) :
    Valid nonce (m.flatten nonce).1 ∧ (m.flatten nonce).1.items = m.items ∧
      SortedItems nonce m.items (m.flatten nonce).2 := by
  unfold TxSortedMap.flatten
  cases hc : m.cache with
  | some c => exact ⟨hv, rfl, hv.cache c hc⟩
  | none =>
    have hs := sortedItems_mergeSort nonce hv.nodup
    refine ⟨⟨⟨hv.nodup, hv.index, hv.heap⟩, fun c h => ?_⟩, rfl, hs⟩
    rw [Option.some.injEq] at h
    rw [← h]
    exact hs

/-- Under a threshold that is not negative, `cap` keeps the first `threshold` transactions and
drops the rest, the last first. -/
theorem cap_of_nonneg {threshold : ℤ} (hnn : 0 ≤ threshold) (c : List Tx) :
    cap threshold c = some (c.take threshold.toNat, (c.drop threshold.toNat).reverse) := by
  unfold cap
  by_cases hle : (c.length : ℤ) ≤ threshold
  · rw [if_pos hle, List.take_of_length_le (by omega), List.drop_of_length_le (by omega),
      List.reverse_nil]
  · rw [if_neg hle, if_neg (by omega)]

/-! ### Runs -/

/-- The mutations of a map, with their arguments. `txList.Filter` uses `filter` followed by
`reheap`, which is one mutation here: `filter` alone leaves the heap stale on purpose. -/
inductive Op (Tx : Type)
  | put (tx : Tx)
  | forward (threshold : UInt64)
  | filter (f : Tx → Bool)
  | filterReheap (f : Tx → Bool)
  | cap (threshold : ℤ)
  | remove (n : UInt64)
  | ready (start : UInt64)
  | flatten

/-- One mutation; `none` for a panic. -/
def step (m : TxSortedMap Tx) : Op Tx → Option (TxSortedMap Tx)
  | .put tx => some (m.Put nonce tx)
  | .forward threshold => (m.Forward nonce threshold).map Prod.fst
  | .filter f => some (m.Filter nonce f).1
  | .filterReheap f => some ((m.filter f).1.reheap nonce)
  | .cap threshold => (m.Cap nonce threshold).map Prod.fst
  | .remove n => some (m.Remove nonce n).1
  | .ready start => some (m.Ready nonce start).1
  | .flatten => some (m.flatten nonce).1

/-- The map a sequence of mutations leaves, from a new one. -/
def run (ops : List (Op Tx)) : Option (TxSortedMap Tx) :=
  ops.foldlM (step nonce) newTxSortedMap

/-- Every mutation that does not panic keeps the invariant. -/
theorem Valid.step {m m' : TxSortedMap Tx} (hv : Valid nonce m) :
    ∀ op, m.step nonce op = some m' → Valid nonce m'
  | .put tx, h => by
    rw [TxSortedMap.step, Option.some.injEq] at h
    exact h ▸ hv.Put nonce tx
  | .forward threshold, h => by
    obtain ⟨m₁, removed, hf, hv₁, -⟩ := hv.Forward nonce threshold
    rw [TxSortedMap.step, hf, Option.map_some, Option.some.injEq] at h
    exact h ▸ hv₁
  | .filter f, h => by
    rw [TxSortedMap.step, Option.some.injEq] at h
    exact h ▸ (hv.Filter nonce f).1
  | .filterReheap f, h => by
    rw [TxSortedMap.step, Option.some.injEq] at h
    exact h ▸ hv.filter_reheap nonce f
  | .cap threshold, h => by
    -- the items in nonce order decide what `Cap` does
    have hc := sortedItems_mergeSort nonce hv.nodup
    obtain ⟨hnone, hsome⟩ := hv.Cap nonce hc threshold
    rw [TxSortedMap.step] at h
    cases hcap : cap threshold (m.items.mergeSort fun a b => decide (nonce a ≤ nonce b)) with
    | none => rw [hnone hcap, Option.map_none] at h; cases h
    | some r =>
      obtain ⟨m₁, hm, hv₁, -⟩ := hsome r.1 r.2 hcap
      rw [hm, Option.map_some, Option.some.injEq] at h
      exact h ▸ hv₁
  | .remove n, h => by
    rw [TxSortedMap.step, Option.some.injEq] at h
    exact h ▸ (hv.Remove nonce n).1
  | .ready start, h => by
    rw [TxSortedMap.step, Option.some.injEq] at h
    exact h ▸ (hv.Ready nonce start).1
  | .flatten, h => by
    rw [TxSortedMap.step, Option.some.injEq] at h
    exact h ▸ (hv.flatten nonce).1

/-- ... and so does every sequence of them. -/
theorem Valid.foldlM {m : TxSortedMap Tx} (hv : Valid nonce m) :
    ∀ (ops : List (Op Tx)) {m'}, ops.foldlM (TxSortedMap.step nonce) m = some m' → Valid nonce m'
  | [], m', h => by
    rw [List.foldlM_nil, Option.pure_def, Option.some.injEq] at h
    exact h ▸ hv
  | op :: ops, m', h => by
    rw [List.foldlM_cons] at h
    obtain ⟨m₁, h₁, h₂⟩ := Option.bind_eq_some_iff.mp h
    exact (hv.step nonce op h₁).foldlM ops h₂

end TxSortedMap

/-- `txList`; `costcap` is a `big.Int` that only ever holds costs, which are not negative. -/
structure TxList (Tx : Type) where
  strict : Bool
  txs : TxSortedMap Tx
  costcap : ℕ
  gascap : UInt64

namespace TxList

variable (gas : Tx → UInt64) (cost : Tx → ℕ)

/-- `Filter`: drop what costs more than `costLimit` or needs more gas than `gasLimit`; a strict
list also drops everything above the lowest nonce dropped. Returns the removed and the
invalidated transactions. -/
def Filter (l : TxList Tx) (costLimit : ℕ) (gasLimit : UInt64) : TxList Tx × List Tx × List Tx :=
  if l.costcap ≤ costLimit ∧ l.gascap ≤ gasLimit then (l, [], [])
  else
    let l := { l with costcap := costLimit, gascap := gasLimit }
    let (txs, removed) := l.txs.Filter nonce fun tx => gas tx > gasLimit || cost tx > costLimit
    if removed.isEmpty then ({ l with txs }, [], [])
    else
      let (txs, invalids) :=
        if l.strict then
          let lowest :=
            removed.foldl (fun lowest tx => if lowest > nonce tx then nonce tx else lowest)
            (-1 : UInt64)
          txs.filter fun tx => nonce tx > lowest
        else (txs, [])
      ({ l with txs := txs.reheap nonce }, removed, invalids)

/-- `Remove`: whether the transaction's nonce was there, and what a strict list invalidates. -/
def Remove (l : TxList Tx) (tx : Tx) : TxList Tx × Bool × List Tx :=
  let n := nonce tx
  let (txs, found) := l.txs.Remove nonce n
  if !found then ({ l with txs }, false, [])
  else if l.strict then
    let (txs, invalids) := txs.Filter nonce fun tx => nonce tx > n
    ({ l with txs }, true, invalids)
  else ({ l with txs }, true, [])

/-- The fold of `Filter` for the lowest removed nonce ends at most at its start and at each
nonce it passed. -/
theorem foldl_lowest_le (removed : List Tx) (init : UInt64) :
    removed.foldl (fun lowest tx => if lowest > nonce tx then nonce tx else lowest) init ≤ init ∧
      ∀ r ∈ removed,
        removed.foldl (fun lowest tx => if lowest > nonce tx then nonce tx else lowest) init ≤
          nonce r := by
  induction removed generalizing init with
  | nil => exact ⟨UInt64.le_refl _, fun r hr => absurd hr List.not_mem_nil⟩
  | cons a removed ih =>
    have hstep : (if init > nonce a then nonce a else init) ≤ init ∧
        (if init > nonce a then nonce a else init) ≤ nonce a := by
      by_cases h : init > nonce a
      · rw [if_pos h]
        exact ⟨UInt64.le_of_lt h, UInt64.le_refl _⟩
      · rw [if_neg h]
        exact ⟨UInt64.le_refl _, UInt64.not_lt.mp h⟩
    obtain ⟨h₁, h₂⟩ := ih (if init > nonce a then nonce a else init)
    rw [List.foldl_cons]
    refine ⟨UInt64.le_trans h₁ hstep.1, fun r hr => ?_⟩
    rcases List.mem_cons.mp hr with rfl | hr
    · exact UInt64.le_trans h₁ hstep.2
    · exact h₂ r hr

/-- Below or at a bound, and not at a nonce, is below it. -/
theorem lt_of_le_of_mem_filter {items : List Tx} (hnd : (items.map nonce).Nodup) {p : Tx → Bool}
    {tx x : Tx} (htx : tx ∈ items.filter fun t => !p t) (hx : x ∈ items.filter p)
    (hle : nonce tx ≤ nonce x) : nonce tx < nonce x := by
  refine UInt64.lt_of_le_of_ne hle fun heq => ?_
  obtain ⟨htx, hntx⟩ := List.mem_filter.mp htx
  obtain ⟨hx, hpx⟩ := List.mem_filter.mp hx
  have := List.inj_on_of_nodup_map hnd htx hx heq
  subst this
  simp [hpx] at hntx

/-- `Filter` on a strict list of a valid map keeps the invariant and splits the transactions
into the removed ones, those they invalidate and the rest, each of the rest below every removed
nonce. -/
theorem Filter_strict (l : TxList Tx) (hs : l.strict = true)
    (hv : TxSortedMap.Valid nonce l.txs) (costLimit : ℕ) (gasLimit : UInt64) :
    TxSortedMap.Valid nonce (l.Filter nonce gas cost costLimit gasLimit).1.txs ∧
      ((l.Filter nonce gas cost costLimit gasLimit).2.1 ++
          (l.Filter nonce gas cost costLimit gasLimit).2.2 ++
          (l.Filter nonce gas cost costLimit gasLimit).1.txs.items).Perm l.txs.items ∧
      ∀ tx ∈ (l.Filter nonce gas cost costLimit gasLimit).1.txs.items,
        ∀ x ∈ (l.Filter nonce gas cost costLimit gasLimit).2.1, nonce tx < nonce x := by
  unfold TxList.Filter
  by_cases hcap : l.costcap ≤ costLimit ∧ l.gascap ≤ gasLimit
  · -- the caps say nothing is over the limits
    rw [if_pos hcap]
    exact ⟨hv, List.Perm.refl _, fun _ _ _ hx => absurd hx List.not_mem_nil⟩
  rw [if_neg hcap]
  dsimp only
  obtain ⟨hv₁, hitems, hremoved⟩ :=
    TxSortedMap.Valid.Filter nonce hv fun tx => gas tx > gasLimit || cost tx > costLimit
  generalize l.txs.Filter nonce (fun tx => gas tx > gasLimit || cost tx > costLimit) = r
    at hv₁ hitems hremoved
  obtain ⟨txs, removed⟩ := r
  dsimp only at hv₁ hitems hremoved ⊢
  -- what went and what stays split the items
  have hsplit : (removed ++ txs.items).Perm l.txs.items := by
    rw [hitems, hremoved]
    exact List.filter_append_perm _ _
  by_cases he : removed.isEmpty
  · rw [if_pos he]
    rw [List.isEmpty_iff.mp he] at hsplit
    exact ⟨hv₁, hsplit, fun _ _ _ hx => absurd hx List.not_mem_nil⟩
  rw [if_neg he, hs, if_pos rfl]
  dsimp only
  have hlow := foldl_lowest_le nonce removed (-1)
  generalize removed.foldl (fun lowest tx => if lowest > nonce tx then nonce tx else lowest)
    (-1 : UInt64) = lowest at hlow
  refine ⟨hv₁.filter_reheap nonce _, ?_, fun tx htx x hx => ?_⟩
  · -- the invalidated and the rest split what stayed
    rw [List.append_assoc]
    exact ((List.filter_append_perm _ _).append_left removed).trans hsplit
  · have htx' : tx ∈ txs.items := List.mem_of_mem_filter htx
    have hle : nonce tx ≤ lowest := by
      have := (List.mem_filter.mp htx).2
      simpa using this
    have hlx := hlow.2 x hx
    rw [hitems] at htx'
    rw [hremoved] at hx
    exact lt_of_le_of_mem_filter nonce hv.nodup htx' hx (UInt64.le_trans hle hlx)

/-- `Remove` on a strict list of a valid map keeps the invariant, says whether the nonce was
there, and splits the transactions into the one at the nonce, those it invalidates and the rest,
each of the rest below the nonce when it was found. -/
theorem Remove_strict (l : TxList Tx) (hs : l.strict = true)
    (hv : TxSortedMap.Valid nonce l.txs) (tx : Tx) :
    TxSortedMap.Valid nonce (l.Remove nonce tx).1.txs ∧
      (l.Remove nonce tx).2.1 = decide (nonce tx ∈ l.txs.items.map nonce) ∧
      (l.txs.items.filter (fun y => nonce y = nonce tx) ++ (l.Remove nonce tx).2.2 ++
          (l.Remove nonce tx).1.txs.items).Perm l.txs.items ∧
      ((l.Remove nonce tx).2.1 = true →
        ∀ y ∈ (l.Remove nonce tx).1.txs.items, nonce y < nonce tx) := by
  unfold TxList.Remove
  dsimp only
  obtain ⟨hv₁, hfound, hitems⟩ := TxSortedMap.Valid.Remove nonce hv (nonce tx)
  generalize l.txs.Remove nonce (nonce tx) = r at hv₁ hfound hitems
  obtain ⟨txs, found⟩ := r
  dsimp only at hv₁ hfound hitems ⊢
  -- the item at the nonce and the others split the items
  have hsplit :
      (l.txs.items.filter (fun y => nonce y = nonce tx) ++ txs.items).Perm l.txs.items := by
    rw [hitems, TxSortedMap.deleteItem]
    simp only [ne_eq, decide_not]
    exact List.filter_append_perm _ _
  cases found with
  | false =>
    rw [Bool.not_false, if_pos rfl]
    refine ⟨hv₁, hfound, ?_, nofun⟩
    rw [List.append_nil]
    exact hsplit
  | true =>
    rw [Bool.not_true, if_neg Bool.false_ne_true, hs, if_pos rfl]
    dsimp only
    obtain ⟨hv₂, hitems₂, hinvalid⟩ :=
      TxSortedMap.Valid.Filter nonce hv₁ fun y => nonce y > nonce tx
    refine ⟨hv₂, hfound, ?_, fun _ y hy => ?_⟩
    · rw [hitems₂, hinvalid, List.append_assoc]
      exact ((List.filter_append_perm _ _).append_left _).trans hsplit
    · -- what stays is at or below the nonce, and not at it
      rw [hitems₂, hitems, TxSortedMap.deleteItem, List.mem_filter, List.mem_filter] at hy
      obtain ⟨⟨_, hne⟩, hle⟩ := hy
      simp only [gt_iff_lt, Bool.not_eq_true', decide_eq_false_iff_not, UInt64.not_lt] at hle
      exact UInt64.lt_of_le_of_ne hle (by simpa using hne)

end TxList

namespace TxSortedMap

/-- Every map that a sequence of mutations leaves keeps the representation invariant, and on it
`flatten`, `Forward`, `Cap` under a threshold that is not negative, `Ready`, and a strict list's
`Filter` and `Remove` do what their comments say. -/
theorem run_consistent (ops : List (Op Tx)) (m : TxSortedMap Tx) (hrun : run nonce ops = some m) :
    Valid nonce m ∧
      SortedItems nonce m.items (m.flatten nonce).2 ∧
      (∀ t : UInt64, ∃ m' removed, m.Forward nonce t = some (m', removed) ∧
        m'.items = m.items.filter (fun tx => !decide (nonce tx < t)) ∧
        removed.Perm ((m.items.filter fun tx => decide (nonce tx < t)).map some)) ∧
      (∀ n : ℤ, 0 ≤ n → ∃ m',
        m.Cap nonce n = some (m', ((m.flatten nonce).2.drop n.toNat).reverse.map some) ∧
        SortedItems nonce m'.items ((m.flatten nonce).2.take n.toNat)) ∧
      (∀ start, ∀ n₀ ∈ m.items.map nonce, (∀ x ∈ m.items.map nonce, n₀ ≤ x) → n₀ ≤ start →
        ∃ run : List Tx, (m.Ready nonce start).2 = run.map some ∧
          run.map nonce = (List.range run.length).map (fun j => n₀ + UInt64.ofNat j) ∧
          (∀ tx ∈ run, tx ∈ m.items) ∧
          (m.Ready nonce start).1.items =
            m.items.filter (fun tx => decide (nonce tx ∉ run.map nonce)) ∧
          n₀ + UInt64.ofNat run.length ∉ (m.Ready nonce start).1.items.map nonce) ∧
      (∀ (gas : Tx → UInt64) (cost : Tx → ℕ) (costcap costLimit : ℕ) (gascap gasLimit : UInt64),
        let r := (TxList.mk true m costcap gascap).Filter nonce gas cost costLimit gasLimit
        Valid nonce r.1.txs ∧ (r.2.1 ++ r.2.2 ++ r.1.txs.items).Perm m.items ∧
          ∀ tx ∈ r.1.txs.items, ∀ x ∈ r.2.1, nonce tx < nonce x) ∧
      (∀ (costcap : ℕ) (gascap : UInt64) (tx : Tx),
        let r := (TxList.mk true m costcap gascap).Remove nonce tx
        Valid nonce r.1.txs ∧ r.2.1 = decide (nonce tx ∈ m.items.map nonce) ∧
          (m.items.filter (fun y => nonce y = nonce tx) ++ r.2.2 ++ r.1.txs.items).Perm m.items ∧
          (r.2.1 = true → ∀ y ∈ r.1.txs.items, nonce y < nonce tx)) := by
  have hv : Valid nonce m := (valid_newTxSortedMap nonce).foldlM nonce ops hrun
  have hc := (hv.flatten nonce).2.2
  refine ⟨hv, hc, fun t => ?_, fun n hn => ?_, fun start => (hv.Ready nonce start).2.2,
    fun gas cost _ costLimit _ gasLimit =>
      TxList.Filter_strict nonce gas cost _ rfl hv costLimit gasLimit,
    fun _ _ tx => TxList.Remove_strict nonce _ rfl hv tx⟩
  · obtain ⟨m', removed, hf, -, hitems, hremoved⟩ := hv.Forward nonce t
    exact ⟨m', removed, hf, hitems, hremoved⟩
  · -- `Cap` is `cap` on the items in nonce order
    obtain ⟨m', hcap, -, hkept⟩ := (hv.Cap nonce hc n).2 _ _ (cap_of_nonneg hn _)
    exact ⟨m', hcap, hkept⟩

/-- A negative threshold makes `Cap` read the heap at `-1`, even on a new map. -/
theorem Cap_panics_below_zero :
    run id ([] : List (Op UInt64)) = some newTxSortedMap ∧
      (newTxSortedMap : TxSortedMap UInt64).Cap id (-1) = none :=
  ⟨rfl, rfl⟩

theorem run_consistent_two_puts :
    let m : TxSortedMap UInt64 := ⟨[5, 7], [5, 7], none⟩
    run id [.put 5, .put 7] = some m ∧
      (Valid id m ∧
        SortedItems id m.items (m.flatten id).2 ∧
        (∀ t : UInt64, ∃ m' removed, m.Forward id t = some (m', removed) ∧
          m'.items = m.items.filter (fun tx => !decide (id tx < t)) ∧
          removed.Perm ((m.items.filter fun tx => decide (id tx < t)).map some)) ∧
        (∀ n : ℤ, 0 ≤ n → ∃ m',
          m.Cap id n = some (m', ((m.flatten id).2.drop n.toNat).reverse.map some) ∧
          SortedItems id m'.items ((m.flatten id).2.take n.toNat)) ∧
        (∀ start, ∀ n₀ ∈ m.items.map id, (∀ x ∈ m.items.map id, n₀ ≤ x) → n₀ ≤ start →
          ∃ run : List UInt64, (m.Ready id start).2 = run.map some ∧
            run.map id = (List.range run.length).map (fun j => n₀ + UInt64.ofNat j) ∧
            (∀ tx ∈ run, tx ∈ m.items) ∧
            (m.Ready id start).1.items =
              m.items.filter (fun tx => decide (id tx ∉ run.map id)) ∧
            n₀ + UInt64.ofNat run.length ∉ (m.Ready id start).1.items.map id) ∧
        (∀ (gas : UInt64 → UInt64) (cost : UInt64 → ℕ) (costcap costLimit : ℕ)
            (gascap gasLimit : UInt64),
          let r := (TxList.mk true m costcap gascap).Filter id gas cost costLimit gasLimit
          Valid id r.1.txs ∧ (r.2.1 ++ r.2.2 ++ r.1.txs.items).Perm m.items ∧
            ∀ tx ∈ r.1.txs.items, ∀ x ∈ r.2.1, id tx < id x) ∧
        (∀ (costcap : ℕ) (gascap : UInt64) (tx : UInt64),
          let r := (TxList.mk true m costcap gascap).Remove id tx
          Valid id r.1.txs ∧ r.2.1 = decide (id tx ∈ m.items.map id) ∧
            (m.items.filter (fun y => id y = id tx) ++ r.2.2 ++ r.1.txs.items).Perm m.items ∧
            (r.2.1 = true → ∀ y ∈ r.1.txs.items, id y < id tx))) :=
  by
  intro m
  have hrun : run id [.put 5, .put 7] = some m := by
    simp [run, step, newTxSortedMap, TxSortedMap.Put, setItem, get, BinaryHeap.push_nil,
      BinaryHeap.push_singleton, nonceLess, m]
  exact ⟨hrun, run_consistent id _ _ hrun⟩

end TxSortedMap

end Classzz.TxPool
