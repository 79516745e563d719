import Mathlib
import Classzz.Les.Flowcontrol.Recharge

/-!
# What the client manager keeps

The manager's bookkeeping rests on one invariant (`ClientManager.Inv`): the queue's callback has
kept every `queueIndex` equal to the node's position in `rcQueue` (`-1` out of it), every node
that charges is in the queue, and `sumRecharge` is the sum of the `MinRecharge` of the queued
nodes that charge. Nodes leave the queue lazily: one that fills up through a correction stays
queued, adds nothing to the sum, and is dropped when `updateRecharge` pops it.

Each queue operation keeps the indices right (`QueueIndexed`); the loop of `updateRecharge`
keeps the invariant round by round and, since every round that goes on takes a node out of the
queue, ends within its fuel (`Inv.updateRecharge`); `updateNodeRc` takes the node's rate out of
the sum and puts the new one in, with the node back in the queue exactly when it charges
(`Inv.updateNodeRc`). So no call the nodes make panics, and every run keeps the invariant
(`Inv.step`, `Inv.run`).
-/

namespace Classzz.Flowcontrol.Recharge

open Classzz.Prque PositionIndex

namespace PieceWiseLinear

/-- The fold of `Valid` from a flag and the last `X` seen. -/
theorem foldl_valid_iff (b : Bool) (y : UInt64) (pwl : PieceWiseLinear) :
    (pwl.foldl (fun (r : Bool × UInt64) p => (r.1 && !(p.x < r.2), p.x)) (b, y)).1 = true ↔
      b = true ∧ (y :: pwl.map (·.x)).IsChain (· ≤ ·) := by
  induction pwl generalizing b y with
  | nil => simp
  | cons p ps ih =>
    rw [List.foldl_cons, ih, List.map_cons, List.isChain_cons_cons, Bool.and_eq_true,
      Bool.not_eq_true', decide_eq_false_iff_not, UInt64.not_lt, and_assoc]

/-- A valid curve's `X` coordinates do not decrease. -/
theorem pairwise_of_valid {pwl : PieceWiseLinear} (hv : pwl.Valid = true) :
    pwl.Pairwise fun p q => p.x ≤ q.x := by
  have hchain := ((foldl_valid_iff true 0 pwl).mp hv).2.tail
  exact List.pairwise_map.mp (List.isChain_iff_pairwise.mp hchain)

/-- `ValueAt`'s search on a valid curve splits it at `x`: the points before the segment it
finds are left of `x`, the others at or right of it. -/
theorem segment_split {pwl : PieceWiseLinear} (hv : pwl.Valid = true) (x : UInt64) :
    (∀ p ∈ pwl.take (pwl.segment x), p.x < x) ∧ ∀ p ∈ pwl.drop (pwl.segment x), x ≤ p.x := by
  -- at or right of `x` is kept along the curve
  have hmono : pwl.Pairwise fun p q => (!decide (x > p.x)) = true → (!decide (x > q.x)) = true :=
    (pairwise_of_valid hv).imp fun hpq hp => by
      simp only [Bool.not_eq_true', decide_eq_false_iff_not, gt_iff_lt, UInt64.not_lt] at hp ⊢
      exact UInt64.le_trans hp hpq
  obtain ⟨hbefore, hafter⟩ := Search.search_split hmono
  refine ⟨fun p hp => ?_, fun p hp => ?_⟩
  · have := hbefore p hp
    simpa using this
  · have := hafter p hp
    simpa using this

/-- A point before the segment `ValueAt` finds is left of `x`. -/
theorem getElem_x_lt {pwl : PieceWiseLinear} (hv : pwl.Valid = true) {x : UInt64} {k : ℕ}
    (hk : k < pwl.segment x) (hlen : k < pwl.length) : pwl[k].x < x := by
  have hmem : pwl[k] ∈ pwl.take (pwl.segment x) :=
    List.mem_take_iff_getElem.mpr ⟨k, by omega, rfl⟩
  exact (segment_split hv x).1 _ hmem

/-- A point from the segment `ValueAt` finds on is at or right of `x`. -/
theorem le_getElem_x {pwl : PieceWiseLinear} (hv : pwl.Valid = true) {x : UInt64} {k : ℕ}
    (hk : pwl.segment x ≤ k) (hlen : k < pwl.length) : x ≤ pwl[k].x := by
  have hmem : pwl[k] ∈ pwl.drop (pwl.segment x) := by
    rw [List.mem_iff_getElem]
    refine ⟨k - pwl.segment x, by simp; omega, ?_⟩
    rw [List.getElem_drop]
    congr 1
    omega
  exact (segment_split hv x).2 _ hmem

/-- `ValueAt` on a valid curve: left of the first point it is the first point's value, past the
last one the last point's, and otherwise `x` lies in the segment between the point before the
search's answer and the point at it, where the value is the line through the two points. -/
theorem valueAt_segment {pwl : PieceWiseLinear} (hv : pwl.Valid = true) (x : UInt64) :
    (∀ p₀ rest, pwl = p₀ :: rest → pwl.segment x = 0 →
      x ≤ p₀.x ∧ pwl.valueAt x = p₀.y.toFloat) ∧
    (∀ hne : pwl ≠ [], pwl.segment x = pwl.length →
      (∀ p ∈ pwl, p.x < x) ∧ pwl.valueAt x = (pwl.getLast hne).y.toFloat) ∧
    ∀ i (hi : i + 1 < pwl.length), pwl.segment x = i + 1 →
      pwl[i].x < x ∧ x ≤ pwl[i + 1].x ∧
        pwl.valueAt x = pwl[i].y.toFloat +
          (pwl[i + 1].y - pwl[i].y).toFloat * (x - pwl[i].x).toFloat /
            (pwl[i + 1].x - pwl[i].x).toFloat := by
  refine ⟨?first, ?last, ?middle⟩
  case first =>
    rintro p₀ rest rfl h0
    refine ⟨le_getElem_x (k := 0) hv (by omega) (by simp), ?_⟩
    simp only [valueAt, h0, if_true]
  case last =>
    intro hne hlen
    have hall : ∀ p ∈ pwl, p.x < x := by
      have := (segment_split hv x).1
      rwa [hlen, List.take_length] at this
    refine ⟨hall, ?_⟩
    cases pwl with
    | nil => exact absurd rfl hne
    | cons p₀ rest =>
      have hat : (p₀ :: rest)[rest.length]? = some (p₀ :: rest)[rest.length] :=
        List.getElem?_eq_getElem (by simp)
      have hpast : (p₀ :: rest)[rest.length + 1]? = none := List.getElem?_eq_none (by simp)
      simp only [valueAt, hlen, List.length_cons, Nat.add_one_ne_zero, if_false,
        Nat.add_sub_cancel, hat, hpast, List.getLast_eq_getElem]
  case middle =>
    intro i hi hseg
    have hlt : pwl[i].x < x := getElem_x_lt hv (by omega) (by omega)
    have hle : x ≤ pwl[i + 1].x := le_getElem_x hv (by omega) hi
    refine ⟨hlt, hle, ?_⟩
    -- the two points bracket `x`, so the segment is at least one wide
    have hdx : ¬ (pwl[i + 1].x - pwl[i].x < 1) := by
      have hle' : pwl[i].x ≤ pwl[i + 1].x := UInt64.le_of_lt (UInt64.lt_of_lt_of_le hlt hle)
      rw [UInt64.lt_iff_toNat_lt, UInt64.toNat_sub_of_le _ _ hle', UInt64.toNat_one]
      rw [UInt64.lt_iff_toNat_lt] at hlt
      rw [UInt64.le_iff_toNat_le] at hle
      omega
    cases pwl with
    | nil => simp at hi
    | cons p₀ rest =>
      simp only [valueAt, hseg, Nat.add_one_ne_zero, if_false, Nat.add_sub_cancel,
        List.getElem?_eq_getElem (Nat.lt_of_succ_lt hi), List.getElem?_eq_getElem hi, hdx]

theorem valueAt_segment_fifteen :
    Valid [(⟨0, 0⟩ : CurvePoint), ⟨10, 5⟩, ⟨20, 7⟩] = true ∧
      segment [(⟨0, 0⟩ : CurvePoint), ⟨10, 5⟩, ⟨20, 7⟩] 15 = 1 + 1 ∧
      valueAt [(⟨0, 0⟩ : CurvePoint), ⟨10, 5⟩, ⟨20, 7⟩] 15 =
        (5 : UInt64).toFloat + ((7 : UInt64) - 5).toFloat * ((15 : UInt64) - 10).toFloat /
          ((20 : UInt64) - 10).toFloat :=
  ⟨by decide, by decide, ((valueAt_segment (by decide) 15).2.2 1 (by decide) (by decide)).2.2⟩

end PieceWiseLinear

namespace Node

/-- The node recharges: its corrected value is below its limit. -/
def Charging (node : Node) : Prop := node.rc.corrBufValue < node.params.bufLimit.toInt64

instance (node : Node) : Decidable node.Charging := inferInstanceAs (Decidable (_ < _))

/-- The rate the node adds to `sumRecharge`: its `MinRecharge` while it charges. -/
def rate (node : Node) : UInt64 := if node.Charging then node.params.minRecharge else 0

/-- What the manager keeps of every node: its corrected value at most its limit, and a positive
`MinRecharge`. -/
structure WF (node : Node) : Prop where
  corr_le : node.rc.corrBufValue ≤ node.params.bufLimit.toInt64
  minRecharge_ne : node.params.minRecharge ≠ 0

@[simp] theorem params_fill (node : Node) : node.fill.params = node.params := rfl

@[simp] theorem bufValue_fill (node : Node) : node.fill.bufValue = node.bufValue := rfl

@[simp] theorem fill_fill (node : Node) : node.fill.fill = node.fill := rfl

theorem not_charging_fill (node : Node) : ¬node.fill.Charging :=
  Int64.lt_irrefl

theorem WF.fill {node : Node} (h : node.WF) : node.fill.WF :=
  ⟨Int64.le_refl _, h.minRecharge_ne⟩

/-- A node the manager keeps is full exactly when it does not charge. -/
theorem WF.not_charging_iff {node : Node} (h : node.WF) :
    ¬node.Charging ↔ node.rc.corrBufValue = node.params.bufLimit.toInt64 := by
  unfold Charging
  constructor
  · intro hnc
    exact Int64.le_antisymm h.corr_le (Int64.not_lt.mp hnc)
  · intro heq
    rw [heq]
    exact Int64.lt_irrefl

theorem rate_of_not_charging {node : Node} (h : ¬node.Charging) : node.rate = 0 := by
  rw [rate, if_neg h]

theorem rate_of_charging {node : Node} (h : node.Charging) : node.rate = node.params.minRecharge := by
  rw [rate, if_pos h]

/-- What `updateNodeRc` takes off the sum for a node that was not full is the node's rate. -/
theorem WF.sub_rate {node : Node} (h : node.WF) (s : UInt64) :
    (if node.rc.corrBufValue = node.params.bufLimit.toInt64 then s
      else s - node.params.minRecharge) = s - node.rate := by
  by_cases hc : node.Charging
  · rw [rate_of_charging hc, if_neg fun he => h.not_charging_iff.mpr he hc]
  · rw [rate_of_not_charging hc, if_pos (h.not_charging_iff.mp hc), sub_zero]

end Node

variable {ι : Type} [DecidableEq ι]

namespace ClientManager

/-- The nodes in the recharge queue, in heap order. -/
def queued (cm : ClientManager ι) : List ι := cm.rcQueue.cont.values

/-- The rate of a node the manager has; `0` for one it has not. -/
def rateOf (nodes : ι → Option Node) (n : ι) : UInt64 := ((nodes n).map Node.rate).getD 0

theorem rateOf_update (nodes : ι → Option Node) (n : ι) (node : Node) (m : ι) :
    rateOf (Function.update nodes n (some node)) m = if m = n then node.rate else rateOf nodes m := by
  by_cases hm : m = n
  · subst hm
    simp [rateOf]
  · simp [rateOf, hm]

omit [DecidableEq ι] in
theorem rateOf_eq_rate {nodes : ι → Option Node} {n : ι} {node : Node} (h : nodes n = some node) :
    rateOf nodes n = node.rate := by
  rw [rateOf, h]
  rfl

/-- Changing one node leaves the rates of a list without it. -/
theorem sum_rateOf_update {l : List ι} {n : ι} (hn : n ∉ l) (nodes : ι → Option Node)
    (node : Node) :
    (l.map (rateOf (Function.update nodes n (some node)))).sum = (l.map (rateOf nodes)).sum := by
  congr 1
  refine List.map_congr_left fun m hm => ?_
  rw [rateOf_update, if_neg fun h : m = n => hn (h ▸ hm)]

/-- The queue is indexed by `queueIndex`, with no call of the callback left to make. -/
structure QueueIndexed (cm : ClientManager ι) : Prop where
  tracked : cm.rcQueue.cont.Tracked cm.queueIndex
  reports : cm.rcQueue.cont.reports = []

/-- The manager's bookkeeping. -/
structure Inv (cm : ClientManager ι) : Prop where
  queue : cm.QueueIndexed
  sumRecharge_eq : cm.sumRecharge = (cm.queued.map (rateOf cm.nodes)).sum
  queued_known : ∀ n ∈ cm.queued, cm.nodes n ≠ none
  charging_queued : ∀ n node, cm.nodes n = some node → node.Charging → n ∈ cm.queued
  wf : ∀ n node, cm.nodes n = some node → node.WF

variable {cm : ClientManager ι}

/-! ### The queue operations -/

theorem QueueIndexed.indexed (hq : cm.QueueIndexed) : IndexedBy cm.queueIndex cm.queued := by
  have h := hq.tracked.indexed
  rw [hq.reports, record_nil] at h
  exact h

theorem QueueIndexed.length_queued (hq : cm.QueueIndexed) :
    cm.queued.length = cm.rcQueue.size := by
  rw [queued, Sstack.length_values, hq.tracked.wf.slots_items.1]
  rfl

/-- With no call left to make, the queue an operation is handed is the manager's own. -/
theorem QueueIndexed.reset (hq : cm.QueueIndexed) :
    (⟨{ cm.rcQueue.cont with reports := [] }⟩ : Prque ι) = cm.rcQueue := by
  rw [← hq.reports]

/-- An operation that keeps the record right leaves the queue indexed, and the rest of the
manager as it was. -/
theorem QueueIndexed.withQueue {β : Type} (hq : cm.QueueIndexed)
    (op : Prque ι → Option (Prque ι × β)) {q : Prque ι} {b : β} (hop : op cm.rcQueue = some (q, b))
    (ht : q.cont.Tracked cm.queueIndex) :
    ∃ cm', cm.withQueue op = some (cm', b) ∧ cm'.QueueIndexed ∧ cm'.queued = q.cont.values ∧
      cm' = { cm with rcQueue := cm'.rcQueue, queueIndex := cm'.queueIndex } :=
  ⟨_, by rw [ClientManager.withQueue, hq.reset, hop]; rfl, ⟨ht.flush, rfl⟩, rfl, rfl⟩

theorem QueueIndexed.popItem (hq : cm.QueueIndexed) (hne : cm.queued ≠ []) :
    ∃ cm' m, cm.withQueue Prque.popItem = some (cm', m) ∧ cm'.QueueIndexed ∧
      (m :: cm'.queued).Perm cm.queued ∧
      cm' = { cm with rcQueue := cm'.rcQueue, queueIndex := cm'.queueIndex } := by
  have h0 : 0 < cm.rcQueue.size := hq.length_queued ▸ List.length_pos_of_ne_nil hne
  obtain ⟨p', v, hpop, ht', hperm, -⟩ := Prque.Tracked.popItem hq.tracked h0
  obtain ⟨cm', hwq, hq', hvals, hframe⟩ := hq.withQueue _ hpop ht'
  refine ⟨cm', v, hwq, hq', ?_, hframe⟩
  rw [hvals]
  exact hperm

theorem QueueIndexed.queuePush (hq : cm.QueueIndexed) {n : ι} (hn : n ∉ cm.queued)
    (priority : Int64) :
    ∃ cm', cm.queuePush n priority = some cm' ∧ cm'.QueueIndexed ∧
      cm'.queued.Perm (cm.queued ++ [n]) ∧
      cm' = { cm with rcQueue := cm'.rcQueue, queueIndex := cm'.queueIndex } := by
  obtain ⟨p', hpush, ht', hperm, -⟩ := Prque.Tracked.push hq.tracked hn priority
  obtain ⟨cm', hwq, hq', hvals, hframe⟩ :=
    hq.withQueue (fun q => (q.push n priority).map fun q' => (q', ())) (by rw [hpush]; rfl) ht'
  refine ⟨cm', by rw [ClientManager.queuePush, hwq]; rfl, hq', ?_, hframe⟩
  rw [hvals]
  exact hperm

/-- `Remove(node.queueIndex)` of a queued node takes it out. -/
theorem QueueIndexed.remove (hq : cm.QueueIndexed) {n : ι} (hn : n ∈ cm.queued) :
    ∃ cm', (cm.withQueue fun q => q.remove (cm.queueIndex n)).map (·.1) = some cm' ∧
      cm'.QueueIndexed ∧ (cm'.queued ++ [n]).Perm cm.queued ∧
      cm' = { cm with rcQueue := cm'.rcQueue, queueIndex := cm'.queueIndex } := by
  obtain ⟨hnn, hlt, hat⟩ := hq.indexed.getElem?_idx hn
  obtain ⟨p', x, hrem, hx, ht', hperm, -⟩ :=
    Prque.Tracked.remove hq.tracked (hq.length_queued ▸ hlt)
  have hxn : x.value = n := by
    rw [← queued, hat, Option.some.injEq] at hx
    exact hx.symm
  rw [Int.toNat_of_nonneg hnn] at hrem
  obtain ⟨cm', hwq, hq', hvals, hframe⟩ := hq.withQueue (fun q => q.remove (cm.queueIndex n))
    hrem ht'
  refine ⟨cm', by rw [hwq]; rfl, hq', ?_, hframe⟩
  rw [hvals, ← hxn]
  exact hperm

/-! ### The sum of the rates -/

/-- The sum over a list is the sum without `n` and `n`'s share, if it is there. -/
theorem sum_map_eq_erase_add (l : List ι) (f : ι → UInt64) (n : ι) :
    (l.map f).sum = ((l.erase n).map f).sum + if n ∈ l then f n else 0 := by
  split_ifs with hn
  · rw [← List.sum_map_erase f hn, add_comm]
  · rw [List.erase_of_not_mem hn, add_zero]

/-- A node that is not queued adds nothing to the sum. -/
theorem Inv.rateOf_of_not_mem (h : cm.Inv) {n : ι} (hn : n ∉ cm.queued) :
    rateOf cm.nodes n = 0 := by
  cases hnode : cm.nodes n with
  | none => rw [rateOf, hnode]; rfl
  | some node =>
    rw [rateOf, hnode, Option.map_some, Option.getD_some]
    exact Node.rate_of_not_charging fun hc => hn (h.charging_queued n node hnode hc)

theorem Inv.sumRecharge_eq_erase (h : cm.Inv) (n : ι) :
    cm.sumRecharge = ((cm.queued.erase n).map (rateOf cm.nodes)).sum + rateOf cm.nodes n := by
  rw [h.sumRecharge_eq, sum_map_eq_erase_add _ _ n]
  split_ifs with hn
  · rfl
  · rw [h.rateOf_of_not_mem hn]

/-- While `sumRecharge` is positive the queue is not empty. -/
theorem Inv.queued_ne_nil (h : cm.Inv) (hpos : 0 < cm.sumRecharge) : cm.queued ≠ [] := by
  intro hnil
  rw [h.sumRecharge_eq, hnil, List.map_nil, List.sum_nil] at hpos
  exact UInt64.lt_irrefl 0 hpos

/-! ### Three moves that keep the bookkeeping

Every change the manager makes to a node and the queue is made of these: a node set to one
that does not charge, with its rate out of the sum; a node that does not charge taken out of the
queue; and a node that charges put into the queue, with its rate in the sum. -/

/-- Node `n` set to one that does not charge, and `n`'s rate out of the sum. -/
theorem Inv.setIdle (h : cm.Inv) {cm' : ClientManager ι} (hq : cm'.QueueIndexed)
    (hqueued : cm'.queued = cm.queued) {n : ι} {node : Node}
    (hnodes : cm'.nodes = Function.update cm.nodes n (some node)) (hwf : node.WF)
    (hidle : ¬node.Charging) (hsum : cm'.sumRecharge = cm.sumRecharge - rateOf cm.nodes n) :
    cm'.Inv where
  queue := hq
  sumRecharge_eq := by
    have hrate : rateOf (Function.update cm.nodes n (some node)) n = 0 := by
      rw [rateOf_update, if_pos rfl, Node.rate_of_not_charging hidle]
    rw [hsum, hqueued, hnodes, sum_map_eq_erase_add cm.queued _ n,
      sum_rateOf_update h.queue.indexed.nodup.not_mem_erase, hrate, ite_self, add_zero,
      h.sumRecharge_eq_erase n, add_sub_cancel_right]
  queued_known m hm := by
    rw [hnodes]
    by_cases hmn : m = n
    · subst hmn
      simp
    · rw [Function.update_of_ne hmn]
      exact h.queued_known m (hqueued ▸ hm)
  charging_queued m node' hm hc := by
    rw [hnodes] at hm
    rw [hqueued]
    by_cases hmn : m = n
    · subst hmn
      rw [Function.update_self, Option.some.injEq] at hm
      exact absurd (hm ▸ hc) hidle
    · rw [Function.update_of_ne hmn] at hm
      exact h.charging_queued m node' hm hc
  wf m node' hm := by
    rw [hnodes] at hm
    by_cases hmn : m = n
    · subst hmn
      rw [Function.update_self, Option.some.injEq] at hm
      exact hm ▸ hwf
    · rw [Function.update_of_ne hmn] at hm
      exact h.wf m node' hm

/-- Lazy removal: a node that does not charge may leave the queue. -/
theorem Inv.drop (h : cm.Inv) {cm' : ClientManager ι} {n : ι} (hq : cm'.QueueIndexed)
    (hperm : cm'.queued.Perm (cm.queued.erase n)) (hnodes : cm'.nodes = cm.nodes)
    (hsum : cm'.sumRecharge = cm.sumRecharge) (hidle : rateOf cm.nodes n = 0)
    (hnc : ∀ node, cm.nodes n = some node → ¬node.Charging) : cm'.Inv where
  queue := hq
  sumRecharge_eq := by
    rw [hsum, h.sumRecharge_eq, hnodes, (hperm.map _).sum_eq, sum_map_eq_erase_add cm.queued _ n,
      hidle, ite_self, add_zero]
  queued_known m hm := hnodes ▸ h.queued_known m (List.mem_of_mem_erase (hperm.subset hm))
  charging_queued m node hm hc := by
    have hmq := h.charging_queued m node (hnodes ▸ hm) hc
    have hmn : m ≠ n := by
      rintro rfl
      exact hnc node (hnodes ▸ hm) hc
    exact hperm.symm.subset ((List.mem_erase_of_ne hmn).mpr hmq)
  wf m node hm := h.wf m node (hnodes ▸ hm)

/-- A node that charges, not yet queued, put into the queue with its rate into the sum. -/
theorem Inv.enqueue (h : cm.Inv) {cm' : ClientManager ι} {n : ι} (hn : n ∉ cm.queued)
    (hq : cm'.QueueIndexed) (hperm : cm'.queued.Perm (cm.queued ++ [n])) {node : Node}
    (hnodes : cm'.nodes = Function.update cm.nodes n (some node)) (hwf : node.WF)
    (hc : node.Charging) (hsum : cm'.sumRecharge = cm.sumRecharge + node.params.minRecharge) :
    cm'.Inv where
  queue := hq
  sumRecharge_eq := by
    rw [hsum, hnodes, (hperm.map _).sum_eq, List.map_append, List.sum_append, List.map_singleton,
      List.sum_singleton, sum_rateOf_update hn, rateOf_update, if_pos rfl, Node.rate_of_charging hc,
      h.sumRecharge_eq]
  queued_known m hm := by
    rw [hnodes]
    by_cases hmn : m = n
    · subst hmn
      simp
    · rw [Function.update_of_ne hmn]
      rcases List.mem_append.mp (hperm.subset hm) with hm' | hm'
      · exact h.queued_known m hm'
      · exact absurd (List.mem_singleton.mp hm') hmn
  charging_queued m node' hm hc' := by
    rw [hnodes] at hm
    refine hperm.symm.subset ?_
    by_cases hmn : m = n
    · subst hmn
      exact List.mem_append_right _ (List.mem_singleton_self m)
    · rw [Function.update_of_ne hmn] at hm
      exact List.mem_append_left _ (h.charging_queued m node' hm hc')
  wf m node' hm := by
    rw [hnodes] at hm
    by_cases hmn : m = n
    · subst hmn
      rw [Function.update_self, Option.some.injEq] at hm
      exact hm ▸ hwf
    · rw [Function.update_of_ne hmn] at hm
      exact h.wf m node' hm

/-- The queue rearranged, the nodes and the sum as they were. -/
theorem Inv.of_perm (h : cm.Inv) {cm' : ClientManager ι} (hq : cm'.QueueIndexed)
    (hperm : cm'.queued.Perm cm.queued) (hnodes : cm'.nodes = cm.nodes)
    (hsum : cm'.sumRecharge = cm.sumRecharge) : cm'.Inv where
  queue := hq
  sumRecharge_eq := by rw [hsum, h.sumRecharge_eq, hnodes, (hperm.map _).sum_eq]
  queued_known m hm := hnodes ▸ h.queued_known m (hperm.subset hm)
  charging_queued m node hm hc := hperm.symm.subset (h.charging_queued m node (hnodes ▸ hm) hc)
  wf m node hm := h.wf m node (hnodes ▸ hm)

/-- The bookkeeping reads the queue, the indices, the nodes and the sum only. -/
theorem Inv.of_frame (h : cm.Inv) {cm' : ClientManager ι} (hq : cm'.rcQueue = cm.rcQueue)
    (hidx : cm'.queueIndex = cm.queueIndex) (hnodes : cm'.nodes = cm.nodes)
    (hsum : cm'.sumRecharge = cm.sumRecharge) : cm'.Inv := by
  have hq' : cm'.QueueIndexed := by
    constructor
    · rw [hq, hidx]
      exact h.queue.tracked
    · rw [hq]
      exact h.queue.reports
  refine h.of_perm hq' ?_ hnodes hsum
  show cm'.rcQueue.cont.values.Perm cm.rcQueue.cont.values
  rw [hq]

/-! ### `updateRecharge` -/

omit [DecidableEq ι] in
/-- A queue operation changes the queue and the indices only. -/
theorem frame_eq {cm' : ClientManager ι}
    (hframe : cm' = { cm with rcQueue := cm'.rcQueue, queueIndex := cm'.queueIndex }) :
    cm'.nodes = cm.nodes ∧ cm'.sumRecharge = cm.sumRecharge := by
  rw [hframe]
  exact ⟨rfl, rfl⟩

/-- Every node as it was or filled up: what `updateRecharge` does to the nodes. -/
def Fills (cm cm' : ClientManager ι) : Prop :=
  ∀ n, cm'.nodes n = cm.nodes n ∨ cm'.nodes n = (cm.nodes n).map Node.fill

omit [DecidableEq ι] in
theorem Fills.refl (cm : ClientManager ι) : Fills cm cm := fun _ => Or.inl rfl

omit [DecidableEq ι] in
theorem Fills.trans {cm₁ cm₂ cm₃ : ClientManager ι} (h₁ : Fills cm₁ cm₂) (h₂ : Fills cm₂ cm₃) :
    Fills cm₁ cm₃ := by
  intro n
  rcases h₂ n with h | h <;> rcases h₁ n with h' | h'
  · exact Or.inl (h.trans h')
  · exact Or.inr (h.trans h')
  · exact Or.inr (by rw [h, h'])
  · right
    rw [h, h', Option.map_map]
    rfl

omit [DecidableEq ι] in
theorem Fills.of_nodes_eq {cm' : ClientManager ι} (h : cm'.nodes = cm.nodes) : Fills cm cm' :=
  fun n => Or.inl (congrFun h n)

omit [DecidableEq ι] in
/-- A node that is filled up keeps its parameters and its buffer value. -/
theorem Fills.some {cm' : ClientManager ι} (hf : Fills cm cm') {n : ι} {node : Node}
    (hnode : cm.nodes n = some node) :
    ∃ node', cm'.nodes n = some node' ∧ node'.params = node.params ∧
      node'.bufValue = node.bufValue := by
  rcases hf n with he | he <;> rw [he, hnode]
  · exact ⟨node, rfl, rfl, rfl⟩
  · exact ⟨node.fill, rfl, rfl, rfl⟩

omit [DecidableEq ι] in
theorem Fills.none {cm' : ClientManager ι} (hf : Fills cm cm') {n : ι}
    (hn : cm.nodes n = none) : cm'.nodes n = none := by
  rcases hf n with he | he <;> rw [he, hn]
  rfl

/-- The two managers know the same nodes, whatever their fields: no call but `connect` adds a
node, and none takes one away. -/
def SameNodes (cm cm' : ClientManager ι) : Prop :=
  ∀ n, cm'.nodes n = none ↔ cm.nodes n = none

omit [DecidableEq ι] in
theorem SameNodes.trans {cm₁ cm₂ cm₃ : ClientManager ι} (h₁ : SameNodes cm₁ cm₂)
    (h₂ : SameNodes cm₂ cm₃) : SameNodes cm₁ cm₃ :=
  fun n => (h₂ n).trans (h₁ n)

omit [DecidableEq ι] in
theorem SameNodes.of_nodes_eq {cm' : ClientManager ι} (h : cm'.nodes = cm.nodes) :
    SameNodes cm cm' :=
  fun n => by rw [h]

omit [DecidableEq ι] in
/-- Every node left as it was or filled up, but `n`, which is there before and after. -/
theorem sameNodes_of_fillsExcept {cm' : ClientManager ι} {n : ι} (hn : cm.nodes n ≠ none)
    (hn' : cm'.nodes n ≠ none)
    (h : ∀ m, m ≠ n → cm'.nodes m = cm.nodes m ∨ cm'.nodes m = (cm.nodes m).map Node.fill) :
    SameNodes cm cm' := by
  intro m
  by_cases hmn : m = n
  · subst hmn
    exact ⟨fun h' => absurd h' hn', fun h' => absurd h' hn⟩
  · rcases h m hmn with he | he <;> rw [he]
    exact Option.map_eq_none_iff

omit [DecidableEq ι] in
theorem Fills.sameNodes {cm' : ClientManager ι} (hf : Fills cm cm') : SameNodes cm cm' := by
  intro m
  rcases hf m with he | he <;> rw [he]
  exact Option.map_eq_none_iff

theorem sameNodes_update {cm' : ClientManager ι} {n : ι} (hn : cm.nodes n ≠ none) {node : Node}
    (hnodes : cm'.nodes = Function.update cm.nodes n (some node)) : SameNodes cm cm' := by
  intro m
  rw [hnodes]
  by_cases hmn : m = n
  · subst hmn
    rw [Function.update_self]
    exact ⟨fun h' => absurd h' (Option.some_ne_none node), fun h' => absurd h' hn⟩
  · rw [Function.update_of_ne hmn]

/-- A node `updateRecharge` finishes: filled up, its rate off the sum. A full node is its own
filling and adds nothing. -/
theorem finishNode_eq {m : ι} {node : Node} (hwf : node.WF) (hnode : cm.nodes m = some node) :
    cm.finishNode m node = { cm with
      nodes := Function.update cm.nodes m (some node.fill)
      sumRecharge := cm.sumRecharge - node.rate } := by
  unfold finishNode
  split_ifs with hc
  · rw [Node.rate_of_charging hc]
  · have hfill : node.fill = node := by
      unfold Node.fill
      rw [← hwf.not_charging_iff.mp hc]
    rw [Node.rate_of_not_charging hc, sub_zero, hfill, ← hnode, Function.update_eq_self]

/-- A round of the loop that pops node `m`: it goes back and the loop ends, or it has finished
and the loop goes on, whatever the floating-point values come to. -/
theorem rechargeLoop_pop (now lastUpdate : Int64) (fuel : ℕ) {cm₁ : ClientManager ι} {m : ι}
    {node : Node} (hpos : 0 < cm.sumRecharge) (hpop : cm.withQueue Prque.popItem = some (cm₁, m))
    (hnode : cm₁.nodes m = some node) :
    ∃ dtNext advance : Int64, rechargeLoop now (fuel + 1) cm lastUpdate =
      if now - lastUpdate < dtNext then
        (cm₁.queuePush m (-node.rc.rcFullIntValue)).bind fun cm =>
          some { cm with rcLastIntValue := cm.rcLastIntValue + advance }
      else
        rechargeLoop now fuel { cm₁.finishNode m node with rcLastIntValue := node.rc.rcFullIntValue }
          (lastUpdate + dtNext) := by
  rw [rechargeLoop, if_pos hpos]
  simp only [hpop, hnode, Option.bind_eq_bind, Option.bind_some]
  exact ⟨_, _, rfl⟩

/-- The popped node finished: filled up in place, then out of the queue. -/
theorem Inv.finish (h : cm.Inv) {cm₁ : ClientManager ι} {m : ι} (hq₁ : cm₁.QueueIndexed)
    (hperm : (m :: cm₁.queued).Perm cm.queued)
    (hframe : cm₁ = { cm with rcQueue := cm₁.rcQueue, queueIndex := cm₁.queueIndex })
    {node : Node} (hnode : cm.nodes m = some node) (r : Int64) :
    ({ cm₁ with
      nodes := Function.update cm₁.nodes m (some node.fill)
      sumRecharge := cm₁.sumRecharge - node.rate
      rcLastIntValue := r } : ClientManager ι).Inv := by
  obtain ⟨hnodes₁, hsum₁⟩ := frame_eq hframe
  have hA : ({ cm with
      nodes := Function.update cm.nodes m (some node.fill)
      sumRecharge := cm.sumRecharge - rateOf cm.nodes m } : ClientManager ι).Inv :=
    h.setIdle ⟨h.queue.tracked, h.queue.reports⟩ rfl rfl (h.wf m node hnode).fill
      (Node.not_charging_fill node) rfl
  have hm : m ∈ cm.queued := hperm.subset List.mem_cons_self
  refine hA.drop ⟨hq₁.tracked, hq₁.reports⟩ (hperm.trans (List.perm_cons_erase hm)).cons_inv ?_ ?_ ?_
    ?_
  · show Function.update cm₁.nodes m (some node.fill) = Function.update cm.nodes m (some node.fill)
    rw [hnodes₁]
  · show cm₁.sumRecharge - node.rate = cm.sumRecharge - rateOf cm.nodes m
    rw [hsum₁, rateOf_eq_rate hnode]
  · show rateOf (Function.update cm.nodes m (some node.fill)) m = 0
    rw [rateOf_update, if_pos rfl, Node.rate_of_not_charging (Node.not_charging_fill node)]
  · intro node' hnode'
    change Function.update cm.nodes m (some node.fill) m = some node' at hnode'
    rw [Function.update_self, Option.some.injEq] at hnode'
    exact hnode' ▸ Node.not_charging_fill node

/-- The loop of `updateRecharge` ends within its fuel and keeps the bookkeeping; every node is
left as it was or filled up. -/
theorem Inv.rechargeLoop (now : Int64) : ∀ (fuel : ℕ) (cm : ClientManager ι) (lastUpdate : Int64),
    cm.Inv → cm.queued.length < fuel →
      ∃ cm', rechargeLoop now fuel cm lastUpdate = some cm' ∧ cm'.Inv ∧ Fills cm cm'
  | 0, _, _, _, hlen => absurd hlen (Nat.not_lt_zero _)
  | fuel + 1, cm, lastUpdate, h, hlen => by
    by_cases hpos : 0 < cm.sumRecharge
    · -- the first node to finish leaves the queue
      obtain ⟨cm₁, m, hpop, hq₁, hperm, hframe⟩ := h.queue.popItem (h.queued_ne_nil hpos)
      obtain ⟨hnodes₁, hsum₁⟩ := frame_eq hframe
      have hm : m ∈ cm.queued := hperm.subset List.mem_cons_self
      have hm₁ : m ∉ cm₁.queued :=
        (List.nodup_cons.mp (hperm.nodup_iff.mpr h.queue.indexed.nodup)).1
      obtain ⟨node, hnode⟩ := Option.ne_none_iff_exists'.mp (h.queued_known m hm)
      have hnode₁ : cm₁.nodes m = some node := by rw [hnodes₁]; exact hnode
      obtain ⟨dtNext, advance, hloop⟩ := rechargeLoop_pop now lastUpdate fuel hpos hpop hnode₁
      rw [hloop, finishNode_eq (h.wf m node hnode) hnode₁]
      split_ifs
      · -- not finished: back into the queue, and the loop ends
        obtain ⟨cm₂, hpush, hq₂, hperm₂, hframe₂⟩ := hq₁.queuePush hm₁ (-node.rc.rcFullIntValue)
        obtain ⟨hnodes₂, hsum₂⟩ := frame_eq hframe₂
        refine ⟨{ cm₂ with rcLastIntValue := cm₂.rcLastIntValue + advance }, by rw [hpush]; rfl,
          h.of_perm ⟨hq₂.tracked, hq₂.reports⟩ ?_
          (hnodes₂.trans hnodes₁) (hsum₂.trans hsum₁), Fills.of_nodes_eq (hnodes₂.trans hnodes₁)⟩
        exact hperm₂.trans ((List.perm_append_singleton m _).trans hperm)
      · -- finished: filled and out of the queue, and the loop goes on with one node less
        have h₃ := h.finish hq₁ hperm hframe hnode node.rc.rcFullIntValue
        have hlen₁ : cm₁.queued.length < fuel := by
          have := hperm.length_eq
          rw [List.length_cons] at this
          omega
        obtain ⟨cm', hrest, h', hfills'⟩ := Inv.rechargeLoop now fuel _ _ h₃ hlen₁
        refine ⟨cm', hrest, h', Fills.trans ?_ hfills'⟩
        intro n
        dsimp only
        rw [hnodes₁]
        by_cases hnm : n = m
        · subst hnm
          right
          rw [Function.update_self, hnode]
          rfl
        · left
          exact Function.update_of_ne hnm _ _
    · refine ⟨cm, ?_, h, Fills.refl cm⟩
      rw [ClientManager.rechargeLoop, if_neg hpos]

theorem Inv.updateRecharge (h : cm.Inv) (now : Int64) :
    ∃ cm', cm.updateRecharge now = some cm' ∧ cm'.Inv ∧ Fills cm cm' :=
  Inv.rechargeLoop now _ _ _ (h.of_frame rfl rfl rfl rfl)
    (by show cm.queued.length < _; rw [h.queue.length_queued]; exact Nat.lt_succ_self _)

/-! ### `updateNodeRc` -/

/-- The start of `requeue`: the node out of the queue if it is there. -/
theorem QueueIndexed.removeQueued (hq : cm.QueueIndexed) (n : ι) :
    ∃ cm', cm.removeQueued n = some cm' ∧
      cm'.QueueIndexed ∧ cm'.queued.Perm (cm.queued.erase n) ∧
      cm' = { cm with rcQueue := cm'.rcQueue, queueIndex := cm'.queueIndex } := by
  unfold ClientManager.removeQueued
  split_ifs with hidx
  · have hn : n ∈ cm.queued := (hq.indexed.mem_iff n).mpr hidx
    obtain ⟨cm', hrem, hq', hperm, hframe⟩ := hq.remove hn
    refine ⟨cm', hrem, hq', ?_, hframe⟩
    exact ((List.perm_append_singleton n _).symm.trans (hperm.trans (List.perm_cons_erase hn))).cons_inv
  · have hn : n ∉ cm.queued := fun hn => hidx ((hq.indexed.mem_iff n).mp hn)
    exact ⟨cm, rfl, hq, by rw [List.erase_of_not_mem hn], rfl⟩

/-- `requeue` of a node that charges, its rate already in the sum: out of the queue if it was
there, and back in once. -/
theorem Inv.requeue (h : cm.Inv) {n : ι} {node : Node} (hwf : node.WF) (hc : node.Charging) :
    ∃ cm', ({ cm with
        sumRecharge := cm.sumRecharge - rateOf cm.nodes n + node.params.minRecharge
        nodes := Function.update cm.nodes n (some node) } : ClientManager ι).requeue n = some cm' ∧
      cm'.Inv ∧ (∃ node', cm'.nodes n = some node' ∧ node'.params = node.params ∧
        node'.bufValue = node.bufValue) ∧ ∀ m, m ≠ n → cm'.nodes m = cm.nodes m := by
  -- the node idle in place, and out of the queue if it was there: what the rest starts from
  have hA : ({ cm with
      nodes := Function.update cm.nodes n (some node.fill)
      sumRecharge := cm.sumRecharge - rateOf cm.nodes n } : ClientManager ι).Inv :=
    h.setIdle ⟨h.queue.tracked, h.queue.reports⟩ rfl rfl hwf.fill (Node.not_charging_fill node) rfl
  obtain ⟨cm₂, hrem, hq₂, hperm₂, hframe₂⟩ := QueueIndexed.removeQueued
    (⟨h.queue.tracked, h.queue.reports⟩ : ({ cm with
      sumRecharge := cm.sumRecharge - rateOf cm.nodes n + node.params.minRecharge
      nodes := Function.update cm.nodes n (some node) } : ClientManager ι).QueueIndexed) n
  obtain ⟨hnodes₂, hsum₂⟩ := frame_eq hframe₂
  have hn₂ : n ∉ cm₂.queued := fun hn => h.queue.indexed.nodup.not_mem_erase (hperm₂.subset hn)
  have hB : ({ cm₂ with
      nodes := Function.update cm.nodes n (some node.fill)
      sumRecharge := cm.sumRecharge - rateOf cm.nodes n } : ClientManager ι).Inv := by
    refine hA.drop ⟨hq₂.tracked, hq₂.reports⟩ hperm₂ rfl rfl ?_ ?_
    · show rateOf (Function.update cm.nodes n (some node.fill)) n = 0
      rw [rateOf_update, if_pos rfl, Node.rate_of_not_charging (Node.not_charging_fill node)]
    · intro node' hnode'
      change Function.update cm.nodes n (some node.fill) n = some node' at hnode'
      rw [Function.update_self, Option.some.injEq] at hnode'
      exact hnode' ▸ Node.not_charging_fill node
  have hnode₂ : cm₂.nodes n = some node := by rw [hnodes₂]; exact Function.update_self ..
  have hmr : node.params.minRecharge.toInt64 ≠ 0 := fun h0 => hwf.minRecharge_ne (by
    have h := congrArg Int64.toUInt64 h0
    rwa [UInt64.toUInt64_toInt64] at h)
  -- the node's finishing point set, and into the queue
  set rcFull := node.rc.fullIntValue node.params cm₂.rcLastIntValue
  set node₅ : Node :=
    { node with rc := { node.rc with rcLastIntValue := cm₂.rcLastIntValue, rcFullIntValue := rcFull } }
    with hnode₅
  have hwf₅ : node₅.WF := ⟨hwf.corr_le, hwf.minRecharge_ne⟩
  have hc₅ : node₅.Charging := hc
  obtain ⟨cm₄, hpush, hq₄, hperm₄, hframe₄⟩ := QueueIndexed.queuePush
    (⟨hq₂.tracked, hq₂.reports⟩ :
      ({ cm₂ with nodes := Function.update cm₂.nodes n (some node₅) } : ClientManager ι).QueueIndexed)
    hn₂ (-rcFull)
  obtain ⟨hnodes₄, hsum₄⟩ := frame_eq hframe₄
  refine ⟨cm₄, ?_, hB.enqueue hn₂ hq₄ hperm₄ ?_ hwf₅ hc₅ ?_, ⟨node₅, ?_, rfl, rfl⟩, ?_⟩
  · rw [ClientManager.requeue, hrem, Option.bind_eq_bind, Option.bind_some, hnode₂,
      Option.bind_eq_bind, Option.bind_some, if_neg hmr]
    exact hpush
  · rw [hnodes₄]
    show Function.update cm₂.nodes n _ = Function.update (Function.update cm.nodes n _) n _
    rw [hnodes₂]
    simp only [Function.update_idem]
  · rw [hsum₄, hsum₂]
  · rw [hnodes₄]
    exact Function.update_self ..
  · intro m hmn
    rw [hnodes₄]
    show Function.update cm₂.nodes n _ m = _
    rw [Function.update_of_ne hmn, hnodes₂]
    exact Function.update_of_ne hmn _ _

omit [DecidableEq ι] in
@[simp] theorem params_recharged (cm : ClientManager ι) (node : Node) :
    (cm.recharged node).params = node.params := rfl

omit [DecidableEq ι] in
@[simp] theorem bufValue_recharged (cm : ClientManager ι) (node : Node) :
    (cm.recharged node).bufValue = node.bufValue := rfl

/-- `updateNodeRc` once `updateRecharge` has run: the node recharged, corrected and given
`params`, its rate off the sum, and back in the queue at its new rate unless the correction
filled it up. -/
theorem updateNodeRc_eq {cm₁ : ClientManager ι} {n : ι} {node : Node} {bvc now : Int64}
    {params : ServerParams} (hup : cm.updateRecharge now = some cm₁)
    (hnode : cm₁.nodes n = some node) (hwf : node.WF) :
    cm.updateNodeRc n bvc params now =
      if corrected (cm₁.recharged node) bvc params ≥ params.bufLimit.toInt64 then
        some { cm₁ with
          sumRecharge := cm₁.sumRecharge - node.rate
          nodes := Function.update cm₁.nodes n (some { cm₁.recharged node with
            params, rc := { (cm₁.recharged node).rc with corrBufValue := params.bufLimit.toInt64 } }) }
      else
        requeue { cm₁ with
          sumRecharge := cm₁.sumRecharge - node.rate + params.minRecharge
          nodes := Function.update cm₁.nodes n (some { cm₁.recharged node with
            params, rc := { (cm₁.recharged node).rc with
              corrBufValue := corrected (cm₁.recharged node) bvc params } }) } n := by
  rw [ClientManager.updateNodeRc, hup, Option.bind_eq_bind, Option.bind_some, hnode,
    Option.bind_eq_bind, Option.bind_some]
  dsimp only
  rw [params_recharged, hwf.sub_rate]
  split_ifs <;> rfl

/-- `updateNodeRc` with parameters of positive `MinRecharge` does not panic and keeps the
bookkeeping. Node `n` gets the parameters and keeps its buffer value; every other node is as
it was or filled up by `updateRecharge`. -/
theorem Inv.updateNodeRc (h : cm.Inv) {n : ι} {node : Node} (hnode : cm.nodes n = some node)
    (bvc : Int64) {params : ServerParams} (hmr : params.minRecharge ≠ 0) (now : Int64) :
    ∃ cm', cm.updateNodeRc n bvc params now = some cm' ∧ cm'.Inv ∧
      (∃ node', cm'.nodes n = some node' ∧ node'.params = params ∧
        node'.bufValue = node.bufValue) ∧
      ∀ m, m ≠ n → cm'.nodes m = cm.nodes m ∨ cm'.nodes m = (cm.nodes m).map Node.fill := by
  obtain ⟨cm₁, hup, h₁, hfills⟩ := h.updateRecharge now
  obtain ⟨node₁, hnode₁, -, hbuf₁⟩ := hfills.some hnode
  rw [updateNodeRc_eq hup hnode₁ (h₁.wf n node₁ hnode₁)]
  split_ifs with hfull
  · -- filled up by the correction: idle in place
    refine ⟨_, rfl, h₁.setIdle ⟨h₁.queue.tracked, h₁.queue.reports⟩ rfl rfl ⟨Int64.le_refl _, hmr⟩
      Int64.lt_irrefl ?_, ⟨_, Function.update_self .., rfl, ?_⟩, fun m hmn => ?_⟩
    · show cm₁.sumRecharge - node₁.rate = _
      rw [rateOf_eq_rate hnode₁]
    · rw [bufValue_recharged, hbuf₁]
    · show Function.update cm₁.nodes n _ m = _ ∨ Function.update cm₁.nodes n _ m = _
      rw [Function.update_of_ne hmn]
      exact hfills m
  · -- still charging: back into the queue at its new rate
    have hc : ({ cm₁.recharged node₁ with params, rc := { (cm₁.recharged node₁).rc with
        corrBufValue := corrected (cm₁.recharged node₁) bvc params } } : Node).Charging :=
      Int64.not_le.mp hfull
    obtain ⟨cm', hreq, h', ⟨node', hn', hp', hb'⟩, hothers⟩ :=
      h₁.requeue ⟨Int64.le_of_lt hc, hmr⟩ hc
    rw [rateOf_eq_rate hnode₁] at hreq
    refine ⟨cm', hreq, h', ⟨node', hn', hp', ?_⟩, fun m hmn => ?_⟩
    · rw [hb', bufValue_recharged, hbuf₁]
    · rw [hothers m hmn]
      exact hfills m

/-! ### The calls -/

/-- The manager `NewClientManager` starts from. -/
theorem inv_empty :
    ({ curve := [], sumRecharge := 0, totalRecharge := 0, totalConnected := 0, rcLastUpdate := 0,
       rcLastIntValue := 0, rcQueue := newWrapAround (some id), nodes := fun _ => none,
       queueIndex := fun _ => -1 } : ClientManager ι).Inv where
  queue := ⟨Sstack.tracked_newSstack true fun _ => rfl, rfl⟩
  sumRecharge_eq := by
    show 0 = ((newSstack (some id) true : Sstack ι).values.map _).sum
    rw [Sstack.values, Sstack.items_newSstack]
    rfl
  queued_known n hn := by
    change n ∈ (newSstack (some id) true : Sstack ι).values at hn
    rw [Sstack.values, Sstack.items_newSstack] at hn
    exact absurd hn List.not_mem_nil
  charging_queued _ _ hn := (Option.some_ne_none _ hn.symm).elim
  wf _ _ hn := (Option.some_ne_none _ hn.symm).elim

/-- A node `connect` sets up is full and out of the queue; the manager did not know it, so its
index is `-1` already. -/
theorem Inv.connect (h : cm.Inv) {n : ι} (hn : cm.nodes n = none) {params : ServerParams}
    (hmr : params.minRecharge ≠ 0) (now : Int64) :
    ∃ cm', cm.connect n params now = some cm' ∧ cm'.Inv ∧ cm'.nodes n ≠ none ∧
      ∀ m, m ≠ n → (cm'.nodes m = none ↔ cm.nodes m = none) := by
  obtain ⟨cm₁, hup, h₁, hfills⟩ := h.updateRecharge now
  have hn₁ := hfills.none hn
  have hidx : Function.update cm₁.queueIndex n (-1) = cm₁.queueIndex :=
    Function.update_eq_self_iff.mpr
      (h₁.queue.indexed.not_mem n fun hq => h₁.queued_known n hq hn₁).symm
  let cm₂ : ClientManager ι := { cm₁ with
    nodes := Function.update cm₁.nodes n (some (newNode params cm₁.rcLastIntValue))
    queueIndex := Function.update cm₁.queueIndex n (-1)
    totalConnected := cm₁.totalConnected + params.minRecharge }
  have hq : cm₂.QueueIndexed := by
    constructor
    · show cm₁.rcQueue.cont.Tracked (Function.update cm₁.queueIndex n (-1))
      rw [hidx]
      exact h₁.queue.tracked
    · exact h₁.queue.reports
  refine ⟨cm₂, by rw [ClientManager.connect, hup]; rfl,
    h₁.setIdle hq rfl rfl ⟨Int64.le_refl _, hmr⟩ Int64.lt_irrefl ?_, ?_, fun m hmn => ?_⟩
  · show cm₁.sumRecharge = cm₁.sumRecharge - rateOf cm₁.nodes n
    rw [rateOf, hn₁, Option.map_none, Option.getD_none, sub_zero]
  · show Function.update cm₁.nodes n _ n ≠ none
    rw [Function.update_self]
    exact Option.some_ne_none _
  · show Function.update cm₁.nodes n _ m = none ↔ _
    rw [Function.update_of_ne hmn]
    exact hfills.sameNodes m

theorem Inv.disconnect (h : cm.Inv) {n : ι} (hn : cm.nodes n ≠ none) (now : Int64) :
    ∃ cm', cm.disconnect n now = some cm' ∧ cm'.Inv ∧ SameNodes cm cm' := by
  obtain ⟨node, hnode⟩ := Option.ne_none_iff_exists'.mp hn
  obtain ⟨cm₁, hup, h₁, hfills⟩ := h.updateRecharge now
  obtain ⟨node₁, hnode₁, -, -⟩ := hfills.some hnode
  refine ⟨{ cm₁ with totalConnected := cm₁.totalConnected - node₁.params.minRecharge }, ?_,
    h₁.of_frame rfl rfl rfl rfl, hfills.sameNodes⟩
  rw [ClientManager.disconnect, hup, Option.bind_eq_bind, Option.bind_some, hnode₁,
    Option.bind_eq_bind, Option.bind_some]
  rfl

/-- `accepted` does not panic: the node's `MinRecharge` it divides by is the one it had. -/
theorem Inv.accepted (h : cm.Inv) {n : ι} (hn : cm.nodes n ≠ none) (maxCost : UInt64)
    (now : Int64) :
    ∃ cm' priority, cm.accepted n maxCost now = some (cm', priority) ∧ cm'.Inv ∧
      SameNodes cm cm' := by
  obtain ⟨node, hnode⟩ := Option.ne_none_iff_exists'.mp hn
  have hmr := (h.wf n node hnode).minRecharge_ne
  obtain ⟨cm₁, hrc, h₁, ⟨node₁, hnode₁, hp₁, -⟩, hothers⟩ :=
    h.updateNodeRc hnode (-maxCost.toInt64) hmr now
  have hsame := sameNodes_of_fillsExcept hn (by rw [hnode₁]; exact Option.some_ne_none _) hothers
  rw [ClientManager.accepted, hnode, Option.bind_eq_bind, Option.bind_some, hrc,
    Option.bind_eq_bind, Option.bind_some, hnode₁, Option.bind_some, hp₁, if_neg hmr]
  exact ⟨cm₁, _, rfl, h₁, hsame⟩

/-- The buffer value is no part of the bookkeeping. -/
theorem Inv.setBufValue (h : cm.Inv) {n : ι} {node : Node} (hnode : cm.nodes n = some node)
    (v : Int64) :
    ({ cm with nodes := Function.update cm.nodes n (some { node with bufValue := v }) } :
      ClientManager ι).Inv := by
  have hrate : rateOf (Function.update cm.nodes n (some { node with bufValue := v })) =
      rateOf cm.nodes := by
    funext m
    rw [rateOf_update]
    split_ifs with hm
    · rw [hm, rateOf_eq_rate hnode]
      rfl
    · rfl
  refine ⟨⟨h.queue.tracked, h.queue.reports⟩, ?_, fun m hm => ?_, fun m node' hm hc => ?_,
    fun m node' hm => ?_⟩
  · show cm.sumRecharge = (cm.queued.map _).sum
    rw [hrate]
    exact h.sumRecharge_eq
  all_goals by_cases hmn : m = n
  · subst hmn
    intro he
    change Function.update cm.nodes m _ m = none at he
    rw [Function.update_self] at he
    exact Option.some_ne_none _ he
  · exact (Function.update_of_ne hmn _ _).trans_ne (h.queued_known m hm)
  · subst hmn
    change Function.update cm.nodes m _ m = _ at hm
    rw [Function.update_self, Option.some.injEq] at hm
    subst hm
    exact h.charging_queued m node hnode hc
  · change Function.update cm.nodes n _ m = _ at hm
    rw [Function.update_of_ne hmn] at hm
    exact h.charging_queued m node' hm hc
  · subst hmn
    change Function.update cm.nodes m _ m = _ at hm
    rw [Function.update_self, Option.some.injEq] at hm
    subst hm
    exact ⟨(h.wf m node hnode).corr_le, (h.wf m node hnode).minRecharge_ne⟩
  · change Function.update cm.nodes n _ m = _ at hm
    rw [Function.update_of_ne hmn] at hm
    exact h.wf m node' hm

/-- `updateBuffer` does not panic and keeps the bookkeeping; the node's buffer value is never
lowered, and ends at least its corrected value. -/
theorem Inv.updateBuffer (h : cm.Inv) {n : ι} {node : Node} (hnode : cm.nodes n = some node)
    (add now : Int64) :
    ∃ cm' node', cm.updateBuffer n add now = some cm' ∧ cm'.Inv ∧ cm'.nodes n = some node' ∧
      node.bufValue ≤ node'.bufValue ∧ node'.rc.corrBufValue ≤ node'.bufValue ∧
      node'.params = node.params ∧
      (node'.bufValue = node.bufValue ∨ node'.bufValue = node'.rc.corrBufValue) ∧
      SameNodes cm cm' := by
  obtain ⟨cm₁, hrc, h₁, ⟨node₁, hnode₁, hp₁, hbuf₁⟩, hothers⟩ :=
    h.updateNodeRc hnode add (h.wf n node hnode).minRecharge_ne now
  have hn₁ : cm₁.nodes n ≠ none := by
    rw [hnode₁]
    exact Option.some_ne_none _
  have hsame := sameNodes_of_fillsExcept (by rw [hnode]; exact Option.some_ne_none _) hn₁ hothers
  have hub : cm.updateBuffer n add now = some (if node₁.rc.corrBufValue > node₁.bufValue then
      { cm₁ with
        nodes := Function.update cm₁.nodes n (some { node₁ with bufValue := node₁.rc.corrBufValue }) }
      else cm₁) := by
    rw [ClientManager.updateBuffer, hnode, Option.bind_eq_bind, Option.bind_some, hrc,
      Option.bind_eq_bind, Option.bind_some, hnode₁, Option.bind_some]
    rfl
  rw [hub, ← hbuf₁]
  split_ifs with hgt
  · -- raised to the corrected value
    exact ⟨_, _, rfl, h₁.setBufValue hnode₁ _, Function.update_self .., Int64.le_of_lt hgt,
      Int64.le_refl _, hp₁, Or.inr rfl, hsame.trans (sameNodes_update hn₁ rfl)⟩
  · exact ⟨cm₁, node₁, rfl, h₁, hnode₁, Int64.le_refl _, Int64.not_lt.mp hgt, hp₁, Or.inl rfl,
      hsame⟩

theorem Inv.updateParams (h : cm.Inv) {n : ι} (hn : cm.nodes n ≠ none) {params : ServerParams}
    (hmr : params.minRecharge ≠ 0) (now : Int64) :
    ∃ cm', cm.updateParams n params now = some cm' ∧ cm'.Inv ∧ SameNodes cm cm' := by
  obtain ⟨node, hnode⟩ := Option.ne_none_iff_exists'.mp hn
  obtain ⟨cm₁, hup, h₁, hfills⟩ := h.updateRecharge now
  obtain ⟨node₁, hnode₁, -, -⟩ := hfills.some hnode
  -- the total connected rate is no part of the bookkeeping
  have h₂ : ({ cm₁ with totalConnected :=
      cm₁.totalConnected + (params.minRecharge - node₁.params.minRecharge) } :
        ClientManager ι).Inv := h₁.of_frame rfl rfl rfl rfl
  obtain ⟨cm', hrc, h', ⟨node', hnode', -⟩, hothers⟩ := h₂.updateNodeRc hnode₁ 0 hmr now
  have hsame := sameNodes_of_fillsExcept (show cm₁.nodes n ≠ none by
    rw [hnode₁]; exact Option.some_ne_none _) (by rw [hnode']; exact Option.some_ne_none _) hothers
  refine ⟨cm', ?_, h', hfills.sameNodes.trans hsame⟩
  rw [ClientManager.updateParams, hup, Option.bind_eq_bind, Option.bind_some, hnode₁,
    Option.bind_eq_bind, Option.bind_some]
  exact hrc

theorem Inv.SetRechargeCurve (h : cm.Inv) (curve : PieceWiseLinear) (now : Int64) :
    ∃ cm', cm.SetRechargeCurve curve now = some cm' ∧ cm'.Inv ∧ SameNodes cm cm' := by
  obtain ⟨cm₁, hup, h₁, hfills⟩ := h.updateRecharge now
  exact ⟨cm₁.setCurve curve, by rw [ClientManager.SetRechargeCurve, hup]; rfl,
    h₁.of_frame rfl rfl rfl rfl, hfills.sameNodes⟩

/-- An enabled call does not panic and keeps the bookkeeping. -/
theorem Inv.step (h : cm.Inv) {e : Event ι} (he : cm.Enabled e) :
    ∃ cm', cm.step e = some cm' ∧ cm'.Inv := by
  cases e with
  | connect n params now =>
    obtain ⟨cm', hc, h', -⟩ := h.connect he.1 he.2 now
    exact ⟨cm', hc, h'⟩
  | disconnect n now =>
    obtain ⟨cm', hd, h', -⟩ := h.disconnect he now
    exact ⟨cm', hd, h'⟩
  | accepted n maxCost now =>
    obtain ⟨cm', priority, hacc, h', -⟩ := h.accepted he maxCost now
    exact ⟨cm', by rw [ClientManager.step, hacc]; rfl, h'⟩
  | processed n maxCost realCost now =>
    obtain ⟨node, hnode⟩ := Option.ne_none_iff_exists'.mp he
    obtain ⟨cm', -, hub, h', -⟩ := h.updateBuffer hnode _ now
    exact ⟨cm', hub, h'⟩
  | updateBuffer n add now =>
    obtain ⟨node, hnode⟩ := Option.ne_none_iff_exists'.mp he
    obtain ⟨cm', -, hub, h', -⟩ := h.updateBuffer hnode add now
    exact ⟨cm', hub, h'⟩
  | updateParams n params now =>
    obtain ⟨cm', hu, h', -⟩ := h.updateParams he.1 he.2 now
    exact ⟨cm', hu, h'⟩
  | setRechargeCurve curve now =>
    obtain ⟨cm', hs, h', -⟩ := h.SetRechargeCurve curve now
    exact ⟨cm', hs, h'⟩

/-- A run of enabled calls does not panic and keeps the bookkeeping; by induction on the run,
one call at a time. -/
theorem Inv.run (h : cm.Inv) {events : List (Event ι)} (he : cm.EnabledAlong events) :
    ∃ cm', cm.run events = some cm' ∧ cm'.Inv := by
  rw [ClientManager.run, Run.foldlM_eq_run]
  exact Run.run_progress Inv (fun _ _ h he => h.step he) h he

/-- `NewClientManager` starts with the bookkeeping right. -/
theorem Inv.of_newClientManager {curve : Option PieceWiseLinear} {now : Int64}
    (hnew : newClientManager curve now = some cm) : cm.Inv := by
  cases curve with
  | none =>
    obtain rfl := Option.some.inj hnew
    exact inv_empty
  | some curve =>
    obtain ⟨cm₁, hup, h₁, -⟩ := (inv_empty (ι := ι)).updateRecharge now
    have hsome : newClientManager (some curve) now = some (cm₁.setCurve curve) := by
      rw [newClientManager, hup]
      rfl
    rw [hsome] at hnew
    obtain rfl := Option.some.inj hnew
    exact h₁.of_frame rfl rfl rfl rfl

/-- `NewClientManager` starts with no nodes. -/
theorem nodes_of_newClientManager {curve : Option PieceWiseLinear} {now : Int64}
    (hnew : newClientManager curve now = some cm) (n : ι) : cm.nodes n = none := by
  cases curve with
  | none =>
    obtain rfl := Option.some.inj hnew
    rfl
  | some curve =>
    obtain ⟨cm₁, hup, -, hfills⟩ := (inv_empty (ι := ι)).updateRecharge now
    rw [newClientManager, hup] at hnew
    obtain rfl := Option.some.inj hnew
    exact hfills.none rfl

/-! ### Runs from a new manager -/

/-- From a new manager, a run of enabled calls goes through without a panic and leaves the
bookkeeping right. -/
theorem run_newClientManager {curve : Option PieceWiseLinear} {now : Int64}
    (hnew : newClientManager curve now = some cm) {events : List (Event ι)}
    (he : cm.EnabledAlong events) : ∃ cm', cm.run events = some cm' ∧ cm'.Inv :=
  (Inv.of_newClientManager hnew).run he

/-- Connecting a node to a new manager and having a request of it accepted is a run of enabled
calls. -/
theorem enabledAlong_connect_accepted {cm : ClientManager ℕ}
    (hnew : newClientManager none 0 = some cm) :
    cm.EnabledAlong [.connect 0 ⟨10, 1⟩ 0, .accepted 0 4 1] := by
  obtain rfl := Option.some.inj hnew
  refine ⟨⟨rfl, by decide⟩, fun cm₁ hstep => ⟨?_, fun _ _ => trivial⟩⟩
  cases hstep
  exact Option.some_ne_none _

theorem run_newClientManager_connect_accepted :
    ∃ cm : ClientManager ℕ, newClientManager none 0 = some cm ∧
      ∃ cm', cm.run [.connect 0 ⟨10, 1⟩ 0, .accepted 0 4 1] = some cm' ∧ cm'.Inv :=
  ⟨_, rfl, run_newClientManager (show newClientManager none 0 = some _ from rfl)
    (enabledAlong_connect_accepted rfl)⟩

/-- From a new manager, after a run of enabled calls the callback of `rcQueue` has left every
node's `queueIndex` at its position in the queue, and at `-1` for a node not in it. -/
theorem queueIndex_run {curve : Option PieceWiseLinear} {now : Int64}
    (hnew : newClientManager curve now = some cm) {events : List (Event ι)}
    (he : cm.EnabledAlong events) :
    ∃ cm', cm.run events = some cm' ∧ ∀ n,
      (n ∉ cm'.rcQueue.cont.values ↔ cm'.queueIndex n = -1) ∧
      (n ∈ cm'.rcQueue.cont.values →
        ∃ k : ℕ, cm'.queueIndex n = k ∧ cm'.rcQueue.cont.values[k]? = some n) := by
  obtain ⟨cm', hrun, h'⟩ := (Inv.of_newClientManager hnew).run he
  refine ⟨cm', hrun, fun n => ⟨?_, fun hn => ?_⟩⟩
  · rw [← not_ne_iff, ← h'.queue.indexed.mem_iff n]
    rfl
  · -- the recorded index is not negative, so it is the position `toNat` reads
    obtain ⟨hnn, -, hat⟩ := h'.queue.indexed.getElem?_idx hn
    exact ⟨_, (Int.toNat_of_nonneg hnn).symm, hat⟩

theorem queueIndex_run_connect_accepted :
    ∃ cm : ClientManager ℕ, newClientManager none 0 = some cm ∧
      ∃ cm', cm.run [.connect 0 ⟨10, 1⟩ 0, .accepted 0 4 1] = some cm' ∧ ∀ n,
        (n ∉ cm'.rcQueue.cont.values ↔ cm'.queueIndex n = -1) ∧
        (n ∈ cm'.rcQueue.cont.values →
          ∃ k : ℕ, cm'.queueIndex n = k ∧ cm'.rcQueue.cont.values[k]? = some n) :=
  ⟨_, rfl, queueIndex_run (show newClientManager none 0 = some _ from rfl)
    (enabledAlong_connect_accepted rfl)⟩

/-- `processed` never lowers a node's buffer value, and leaves it at least the node's corrected
value. -/
theorem processed_bufValue (h : cm.Inv) {n : ι} {node : Node} (hnode : cm.nodes n = some node)
    (maxCost realCost : UInt64) (now : Int64) :
    ∃ cm' node', cm.processed n maxCost realCost now = some cm' ∧ cm'.nodes n = some node' ∧
      node.bufValue ≤ node'.bufValue ∧ node'.rc.corrBufValue ≤ node'.bufValue := by
  obtain ⟨cm', node', hub, -, hnode', hle, hcorr, -⟩ := h.updateBuffer hnode _ now
  exact ⟨cm', node', hub, hnode', hle, hcorr⟩

theorem processed_bufValue_connected :
    ∃ cm : ClientManager ℕ, cm.Inv ∧ cm.nodes 0 = some (newNode ⟨10, 1⟩ 0) ∧
      ∃ cm' node', cm.processed 0 4 3 1 = some cm' ∧ cm'.nodes 0 = some node' ∧
        (newNode ⟨10, 1⟩ 0).bufValue ≤ node'.bufValue ∧
        node'.rc.corrBufValue ≤ node'.bufValue := by
  obtain ⟨cm, hc, h, -⟩ := (inv_empty (ι := ℕ)).connect (n := 0) rfl
    (show (⟨10, 1⟩ : ServerParams).minRecharge ≠ 0 by decide) 0
  cases hc
  exact ⟨_, h, rfl, processed_bufValue h rfl 4 3 1⟩

end ClientManager

end Classzz.Flowcontrol.Recharge
