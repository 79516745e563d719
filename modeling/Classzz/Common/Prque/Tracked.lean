import Mathlib
import Classzz.Common.Prque.Prque
import Classzz.Lib.PositionIndex
import Classzz.Lib.Run

/-!
# The queue's index callback

A queue made with a callback `setIndex` reports every move of a value: `Swap` reports the two
new positions, `Push` the new last one, and `Pop` the value's leaving with `-1`. A caller that
keeps the last report for each value (`PositionIndex.record`) finds a value in the queue from its
index alone, as `ClientManager` does with a node's `queueIndex`.

When the callback reports positions as they are and the record so far indexes the stack's
values (`Sstack.Tracked`), each of the stack's own steps keeps that, a `Push` of a value not
yet there included. Every step of the heap algorithms is one of them (`HeapInterface.Preserves`),
so the record still indexes the values after the queue's `Push`, `PopItem` and `Remove`
(`Tracked.push`, `Tracked.popItem`, `Tracked.remove`), in either order of the queue.
-/

set_option linter.dupNamespace false

namespace Classzz.Prque

open HeapInterface BinaryHeap PositionIndex

variable {V : Type*}

namespace Sstack

/-- The values of the stack's items, in slot order. -/
def values (s : Sstack V) : List V := s.items.map Item.value

theorem length_values (s : Sstack V) : s.values.length = s.items.length :=
  List.length_map _

/-- Only the slots of the items hold one. -/
theorem WF.lt_size_of_get? {s : Sstack V} (hw : s.WF) {i : ℕ} {it : Item V}
    (h : Paged.get? blockSize s.blocks i = some (some it)) : i < s.size := by
  obtain ⟨hlen, hslots⟩ := hw.slots_items
  rw [Paged.get?_eq blockSize_pos hw.shape, hslots] at h
  exact hlen ▸ Paged.lt_of_getElem?_filled h

/-! ### What the callback reports -/

/-- A `Swap` with a callback hands it two items: the one from `j`, now at `i`, and the one from
`i`, now at `j`. An empty slot makes the callback panic. -/
theorem swap_reports {s s' : Sstack V} {f : ℤ → ℤ} (hf : s.setIndex = some f) {i j : ℕ}
    (h : s.swap i j = some s') :
    ∃ a b, Paged.get? blockSize s.blocks j = some (some a) ∧
      Paged.get? blockSize s.blocks i = some (some b) ∧
      s'.reports = s.reports ++ [(a.value, f i), (b.value, f j)] := by
  unfold swap at h
  split at h
  · rename_i a b ha hb
    obtain ⟨s₂, hcall, rfl⟩ := Option.map_eq_some_iff.mp h
    obtain ⟨s₁, hcall₁, hcall₂⟩ := Option.bind_eq_some_iff.mp hcall
    cases a with
    | none => simp [callSetIndex, hf] at hcall₁
    | some a =>
      simp only [callSetIndex, hf, Option.map_some, Option.some.injEq] at hcall₁
      subst hcall₁
      cases b with
      | none => simp [callSetIndex] at hcall₂
      | some b =>
        simp only [callSetIndex, Option.map_some, Option.some.injEq] at hcall₂
        subst hcall₂
        exact ⟨a, b, ha, hb, by simp⟩
  · cases h

/-- A `Pop` with a callback hands it the item taken out, with `-1`. -/
theorem pop_reports {s : Sstack V} {f : ℤ → ℤ} (hf : s.setIndex = some f)
    {r : Sstack V × Option (Item V)} (h : s.pop = some r) :
    ∃ it, r.2 = some it ∧ r.1.reports = s.reports ++ [(it.value, f (-1))] := by
  unfold pop at h
  split_ifs at h
  dsimp only at h
  split at h
  · cases h
  · rename_i res hread
    obtain ⟨s₂, hrest, rfl⟩ := Option.map_eq_some_iff.mp h
    obtain ⟨s₁, hset, hcall⟩ := Option.bind_eq_some_iff.mp hrest
    -- the slot's write and the step back leave the callback and its record
    have hframe : s₁ = { s.retreat with blocks := s₁.blocks } := setActive_frame hset
    have hf₁ : s₁.setIndex = some f := by rw [hframe, retreat_frame]; exact hf
    have hr₁ : s₁.reports = s.reports := by rw [hframe, retreat_frame]
    cases res with
    | none => simp [callSetIndex, hf₁] at hcall
    | some it =>
      simp only [callSetIndex, hf₁, Option.map_some, Option.some.injEq] at hcall
      subst hcall
      exact ⟨it, rfl, by rw [hr₁]⟩

/-! ### The record indexes the values -/

variable [DecidableEq V]

/-- The callback reports positions, and the record of its reports over the caller's `idx`
indexes the stack's values. -/
structure Tracked (idx : V → ℤ) (s : Sstack V) : Prop where
  wf : s.WF
  setIndex_eq : s.setIndex = some id
  indexed : IndexedBy (record idx s.reports) s.values

variable {idx : V → ℤ}

theorem Tracked.swap {s s' : Sstack V} (ht : s.Tracked idx) {i j : ℕ}
    (h : s.swap i j = some s') : s'.Tracked idx := by
  obtain ⟨a, b, ha, hb, hrep⟩ := swap_reports ht.setIndex_eq h
  have hlen := ht.wf.slots_items.1
  have hi := ht.wf.lt_size_of_get? hb
  have hj := ht.wf.lt_size_of_get? ha
  obtain ⟨s'', hswap, hw', hitems, -⟩ := swap_spec ht.wf hi hj
  rw [h, Option.some.injEq] at hswap
  subst hswap
  -- the items read are the ones at `j` and `i`
  rw [ht.wf.get?_of_lt hj, List.getElem?_eq_getElem (by omega), Option.some.injEq,
    Option.some.injEq] at ha
  rw [ht.wf.get?_of_lt hi, List.getElem?_eq_getElem (by omega), Option.some.injEq,
    Option.some.injEq] at hb
  have hi' : i < s.values.length := by rw [length_values]; omega
  have hj' : j < s.values.length := by rw [length_values]; omega
  have hidx := ht.indexed.swap hi' hj'
  refine ⟨hw', (congrArg Prod.fst (keeps_config.swap s i j s' h)).trans ht.setIndex_eq, ?_⟩
  rw [hrep, record_append, values, hitems, map_swapAt, ← ha, ← hb]
  simpa [values] using hidx

/-- The stack's own `Push` of a value not yet there. -/
theorem Tracked.pushSlot {s s' : Sstack V} (ht : s.Tracked idx) {x : Item V}
    (hx : x.value ∉ s.values) (h : s.push (some x) = some s') : s'.Tracked idx := by
  obtain ⟨-, hrep⟩ := push_size_reports h
  obtain ⟨s'', hpush, hw', hitems, -⟩ := push_spec ht.wf x
  rw [h, Option.some.injEq] at hpush
  subst hpush
  have hlen : (s.values.length : ℤ) = s.size := by rw [length_values, ht.wf.slots_items.1]
  refine ⟨hw', (congrArg Prod.fst (keeps_config.push s (some x) s' h)).trans ht.setIndex_eq, ?_⟩
  have hvalues : s'.values = s.values ++ [x.value] := by
    rw [values, hitems, List.map_append, List.map_singleton, values]
  rw [hrep, ht.setIndex_eq, record_append, hvalues]
  simpa [hlen] using ht.indexed.append hx

/-- The stack's own `Pop`. -/
theorem Tracked.popSlot {s : Sstack V} (ht : s.Tracked idx) {r : Sstack V × Option (Item V)}
    (h : s.pop = some r) : r.1.Tracked idx := by
  obtain ⟨it, hit, hrep⟩ := pop_reports ht.setIndex_eq h
  have h0 : 0 < s.size := Nat.pos_of_ne_zero fun h0 => by simp [pop, h0] at h
  obtain ⟨s', x, hpop, hw', hitems, -⟩ := pop_spec ht.wf h0
  rw [h, Option.some.injEq] at hpop
  subst hpop
  cases hit
  have hvalues : s.values = s'.values ++ [it.value] := by
    rw [values, hitems, List.map_append, List.map_singleton, values]
  refine ⟨hw', (congrArg Prod.fst (keeps_config.pop s _ h)).trans ht.setIndex_eq, ?_⟩
  rw [hrep, record_append]
  exact (hvalues ▸ ht.indexed).dropLast

/-- The heap algorithms keep the record right. -/
theorem preserves_tracked : Preserves (heap (V := V)) (Tracked idx) :=
  ⟨fun _ _ _ _ h ht => ht.swap h, fun _ _ h ht => ht.popSlot h⟩

/-- The caller takes the reports in: the record is now its own. -/
theorem Tracked.flush {s : Sstack V} (ht : s.Tracked idx) :
    ({ s with reports := [] } : Sstack V).Tracked (record idx s.reports) :=
  ⟨ht.wf.reports [], ht.setIndex_eq, ht.indexed⟩

theorem tracked_newSstack (wrapAround : Bool) (hidx : ∀ a, idx a = -1) :
    (newSstack (some id) wrapAround : Sstack V).Tracked idx :=
  ⟨newSstack_wf _ _, rfl, by rw [values, items_newSstack]; exact indexedBy_nil hidx⟩

end Sstack

/-! ### The queue's operations -/

namespace Prque

variable [DecidableEq V] {idx : V → ℤ}

open Sstack

/-- `Push` of a value not in the queue keeps the record right and adds the value. -/
theorem Tracked.push {p : Prque V} (ht : p.cont.Tracked idx) {data : V}
    (hx : data ∉ p.cont.values) (priority : Int64) :
    ∃ p', p.push data priority = some p' ∧ p'.cont.Tracked idx ∧
      p'.cont.values.Perm (p.cont.values ++ [data]) ∧ p'.cont.wrapAround = p.cont.wrapAround := by
  obtain ⟨s', hpush, ⟨-, hwrap'⟩, hitems'⟩ :=
    push_sim (simulates p.cont.wrapAround) ⟨ht.wf, rfl⟩ ⟨data, priority⟩
  refine ⟨⟨s'⟩, by rw [Prque.push, hpush]; rfl, ?_, ?_, hwrap'⟩
  · exact preserves_tracked.heapPush (fun _ h₁ => ht.pushSlot hx h₁) hpush
  · have hperm := (push_perm (before p.cont.wrapAround) p.cont.items ⟨data, priority⟩).map
      Item.value
    rw [List.map_append] at hperm
    rw [values, hitems']
    exact hperm

/-- `PopItem` of a queue with items keeps the record right and takes one value out. -/
theorem Tracked.popItem {p : Prque V} (ht : p.cont.Tracked idx) (h0 : 0 < p.size) :
    ∃ p' v, p.popItem = some (p', v) ∧ p'.cont.Tracked idx ∧
      (v :: p'.cont.values).Perm p.cont.values ∧ p'.cont.wrapAround = p.cont.wrapAround := by
  have hlen : p.cont.items.length = p.size := ht.wf.slots_items.1
  obtain ⟨h', x, hp⟩ : ∃ h' x, BinaryHeap.pop (before p.cont.wrapAround) p.cont.items =
      some (h', x) := ⟨_, _, pop_eq_some _ (by omega)⟩
  obtain ⟨s', hpop, ⟨-, hwrap'⟩, hitems'⟩ :=
    pop_sim (simulates p.cont.wrapAround) ⟨ht.wf, rfl⟩ hp
  refine ⟨⟨s'⟩, x.value, by rw [Prque.popItem, hpop]; rfl, preserves_tracked.heapPop hpop ht,
    ?_, hwrap'⟩
  rw [values, hitems', values]
  exact (pop_perm _ hp).map Item.value

/-- `Remove(i)` within the queue keeps the record right and takes out the value at `i`. -/
theorem Tracked.remove {p : Prque V} (ht : p.cont.Tracked idx) {i : ℕ} (hi : i < p.size) :
    ∃ p' x, p.remove i = some (p', some x) ∧ p.cont.values[i]? = some x.value ∧
      p'.cont.Tracked idx ∧ (p'.cont.values ++ [x.value]).Perm p.cont.values ∧
      p'.cont.wrapAround = p.cont.wrapAround := by
  have hlen : p.cont.items.length = p.size := ht.wf.slots_items.1
  obtain ⟨⟨h', x⟩, hr⟩ := Option.ne_none_iff_exists'.mp
    (mt (remove_eq_none_iff (before p.cont.wrapAround) p.cont.items i).mp (by omega))
  obtain ⟨hat, hperm⟩ := remove_perm _ hr
  obtain ⟨s', hrem, ⟨-, hwrap'⟩, hitems'⟩ :=
    remove_sim (simulates p.cont.wrapAround) ⟨ht.wf, rfl⟩ hr
  refine ⟨⟨s'⟩, x, ?_, ?_, preserves_tracked.remove hrem ht, ?_, hwrap'⟩
  · rw [Prque.remove, if_neg (by omega), Int.toNat_natCast, hrem]
    rfl
  · rw [values, List.getElem?_map, hat]
    rfl
  · have hperm' := hperm.map Item.value
    rw [List.map_append, List.map_singleton] at hperm'
    rw [values, hitems']
    exact hperm'

/-- `Pop` of a queue with items keeps the record right and takes one value out. -/
theorem Tracked.pop {p : Prque V} (ht : p.cont.Tracked idx) (h0 : 0 < p.size) :
    ∃ p' v priority, p.pop = some (p', v, priority) ∧ p'.cont.Tracked idx ∧
      (v :: p'.cont.values).Perm p.cont.values := by
  obtain ⟨p', v, hpop, ht', hperm, -⟩ := Tracked.popItem ht h0
  -- `Pop` and `PopItem` take the same item off the heap
  obtain ⟨r, hr, hrv⟩ : ∃ r, HeapInterface.pop Sstack.heap p.cont = some r ∧
      r.2.map (fun it => (⟨r.1⟩, it.value)) = some (p', v) := by
    rw [Prque.popItem] at hpop
    exact Option.bind_eq_some_iff.mp hpop
  obtain ⟨it, hit, hitv⟩ := Option.map_eq_some_iff.mp hrv
  refine ⟨p', v, it.priority, ?_, ht', hperm⟩
  rw [Prque.pop, hr, Option.bind_some, hit, Option.map_some]
  rw [Prod.mk.injEq] at hitv
  rw [← hitv.1, ← hitv.2]

/-- `Reset` of an empty queue keeps the record right. Of a queue with values it does not: the
reports stay with the caller, so each value the queue held keeps the position it last had. -/
theorem Tracked.reset {p : Prque V} (ht : p.cont.Tracked idx) (h0 : p.size = 0) :
    p.reset.cont.Tracked idx := by
  obtain ⟨hv, hitems⟩ := valid_reset p
  have hnil : p.cont.values = [] := by
    rw [← List.length_eq_zero_iff, length_values, ht.wf.slots_items.1]
    exact h0
  have hnil' : p.reset.cont.values = [] := by
    rw [values, show p.reset.cont.items = p.reset.items from rfl, hitems, List.map_nil]
  refine ⟨hv.wf, ht.setIndex_eq, ?_⟩
  rw [hnil']
  exact hnil ▸ ht.indexed

end Prque

/-! ### Runs of calls -/

namespace Prque

/-- When a call may come: a value is pushed while it is not in the queue (the callback reports
by value), `Pop`, `PopItem` and `Remove(i)` find an item there, and `Reset` finds none. -/
def Enabled (p : Prque V) : Op V → Prop
  | .push data _ => data ∉ p.cont.values
  | .pop => 0 < p.size
  | .popItem => 0 < p.size
  | .remove i => i < p.size
  | .reset => p.size = 0

/-- Every call of the run is enabled when it comes. -/
def EnabledAlong (p : Prque V) (ops : List (Op V)) : Prop :=
  Run.EnabledAlong Enabled step p ops

variable [DecidableEq V] {idx : V → ℤ}

open Sstack

/-- An enabled call keeps the record right. -/
theorem Tracked.step {p : Prque V} (ht : p.cont.Tracked idx) {op : Op V} (he : p.Enabled op) :
    ∃ p', p.step op = some p' ∧ p'.cont.Tracked idx := by
  cases op with
  | push data priority =>
    obtain ⟨p', hpush, ht', -⟩ := Tracked.push ht he priority
    exact ⟨p', hpush, ht'⟩
  | pop =>
    obtain ⟨p', v, priority, hpop, ht', -⟩ := Tracked.pop ht he
    exact ⟨p', by rw [Prque.step, hpop]; rfl, ht'⟩
  | popItem =>
    obtain ⟨p', v, hpop, ht', -⟩ := Tracked.popItem ht he
    exact ⟨p', by rw [Prque.step, hpop]; rfl, ht'⟩
  | remove i =>
    -- a negative index removes nothing; the others are positions within the queue
    by_cases hi : i < 0
    · refine ⟨p, ?_, ht⟩
      rw [Prque.step, Prque.remove, if_pos hi]
      rfl
    · have hi' : 0 ≤ i := by omega
      have hlt : i.toNat < p.size := by
        have he' : i < p.size := he
        omega
      obtain ⟨p', x, hrem, -, ht', -⟩ := Tracked.remove ht hlt
      refine ⟨p', ?_, ht'⟩
      rw [Prque.step, ← Int.toNat_of_nonneg hi', hrem]
      rfl
  | reset => exact ⟨p.reset, rfl, Tracked.reset ht he⟩

/-- A run of enabled calls keeps the record right; by induction on the run. -/
theorem Tracked.run {p : Prque V} (ht : p.cont.Tracked idx) {ops : List (Op V)}
    (he : p.EnabledAlong ops) : ∃ p', p.run ops = some p' ∧ p'.cont.Tracked idx := by
  rw [Prque.run, Run.foldlM_eq_run]
  exact Run.run_progress (fun p => p.cont.Tracked idx) (fun _ _ ht he => Tracked.step ht he) ht he

/-- On a queue made by `New` or `NewWrapAround` with a callback that reports positions, every
run of enabled calls goes through, and the index last reported for each value is its position in
the stack, `-1` for a value no longer there. -/
theorem run_setIndex (wrapAround : Bool) {ops : List (Op V)}
    (he : (⟨newSstack (some id) wrapAround⟩ : Prque V).EnabledAlong ops) :
    ∃ p', (⟨newSstack (some id) wrapAround⟩ : Prque V).run ops = some p' ∧
      IndexedBy (record (fun _ => -1) p'.cont.reports) p'.cont.values := by
  obtain ⟨p', hrun, ht'⟩ := Tracked.run (tracked_newSstack wrapAround fun _ => rfl) he
  exact ⟨p', hrun, ht'.indexed⟩

theorem run_setIndex_push_pop :
    (⟨newSstack (some id) false⟩ : Prque ℕ).EnabledAlong [.push 1 5, .pop] ∧
      ∃ p', (⟨newSstack (some id) false⟩ : Prque ℕ).run [.push 1 5, .pop] = some p' ∧
        IndexedBy (record (fun _ => -1) p'.cont.reports) p'.cont.values := by
  have ht : (⟨newSstack (some id) false⟩ : Prque ℕ).cont.Tracked (fun _ => -1) :=
    tracked_newSstack false fun _ => rfl
  have hnil : (⟨newSstack (some id) false⟩ : Prque ℕ).cont.values = [] := by
    rw [values, items_newSstack, List.map_nil]
  have h1 : (1 : ℕ) ∉ (⟨newSstack (some id) false⟩ : Prque ℕ).cont.values := by simp [hnil]
  obtain ⟨p₁, hpush, ht₁, hperm, -⟩ := Tracked.push ht h1 5
  -- after the push the queue holds one value, so the pop finds it
  have hsize : 0 < p₁.size := by
    have hlen := hperm.length_eq
    rw [hnil, length_values, ht₁.wf.slots_items.1] at hlen
    rw [Prque.size, Sstack.len, hlen]
    decide
  have he : (⟨newSstack (some id) false⟩ : Prque ℕ).EnabledAlong [.push 1 5, .pop] := by
    refine ⟨h1, fun p hp => ⟨?_, fun _ _ => trivial⟩⟩
    rw [Prque.step, hpush, Option.some.injEq] at hp
    exact hp ▸ hsize
  exact ⟨he, run_setIndex false he⟩

end Prque

end Classzz.Prque
