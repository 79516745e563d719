import Classzz.Common.Prque.Sstack
import Mathlib.Data.Int.Order.Basic

/-!
# `Prque`

The priority queue is `container/heap` over its block-paged stack. Through the stack's
simulation of its items (`Sstack.simulates`) every operation is `BinaryHeap`'s on the items, so
under the plain order, where `Less` is a strict weak order, the queue keeps the heap order:
`Pop` and `Peek` give an item of greatest priority, `Remove(i)` removes the item at `i`, and the
items are the ones pushed less the ones taken out, however many blocks they fill (`Valid.push`,
`Valid.pop`, `Valid.remove`).

`Reset` builds the queue again with `New`, so a queue made by `NewWrapAround` orders by plain
comparison after it (`reset_loses_wrapAround`).
-/

set_option linter.dupNamespace false

namespace Classzz.Prque

open HeapInterface BinaryHeap

variable {V : Type*}

/-- `Prque`. -/
structure Prque (V : Type*) where
  cont : Sstack V

/-- `New`. -/
def new (setIndex : Option (ℤ → ℤ)) : Prque V := ⟨newSstack setIndex false⟩

/-- `NewWrapAround`. -/
def newWrapAround (setIndex : Option (ℤ → ℤ)) : Prque V := ⟨newSstack setIndex true⟩

namespace Prque

/-- `Push`. -/
def push (p : Prque V) (data : V) (priority : Int64) : Option (Prque V) :=
  (HeapInterface.push Sstack.heap p.cont (some ⟨data, priority⟩)).map Prque.mk

/-- `Peek`: the item at the root; an empty queue has none there and panics. -/
def peek (p : Prque V) : Option (V × Int64) :=
  match p.cont.blocks[0]?.bind (·[0]?) with
  | some (some it) => some (it.value, it.priority)
  | _ => none

/-- `Pop`. -/
def pop (p : Prque V) : Option (Prque V × V × Int64) :=
  (HeapInterface.pop Sstack.heap p.cont).bind fun r => r.2.map fun it => (⟨r.1⟩, it.value, it.priority)

/-- `PopItem`. -/
def popItem (p : Prque V) : Option (Prque V × V) :=
  (HeapInterface.pop Sstack.heap p.cont).bind fun r => r.2.map fun it => (⟨r.1⟩, it.value)

/-- `Remove`: what `heap.Remove` returns, the stack's `*item`; `nil` for a negative index. -/
def remove (p : Prque V) (i : ℤ) : Option (Prque V × Option (Item V)) :=
  if i < 0 then some (p, none)
  else (HeapInterface.remove Sstack.heap p.cont i.toNat).map fun r => (⟨r.1⟩, r.2)

/-- `Empty`. -/
def empty (p : Prque V) : Bool := p.cont.len = 0

/-- `Size`. -/
def size (p : Prque V) : ℕ := p.cont.len

/-- `Reset`: `*p = *New(p.cont.setIndex)`. What the callback recorded stays with the caller. -/
def reset (p : Prque V) : Prque V :=
  ⟨{ newSstack p.cont.setIndex false with reports := p.cont.reports }⟩

/-- The items of the queue, in heap order. -/
def items (p : Prque V) : List (Item V) := p.cont.items

/-- A well-formed stack of the queue's order whose items are in heap order. -/
structure Valid (w : Bool) (p : Prque V) : Prop where
  wf : p.cont.WF
  wrapAround : p.cont.wrapAround = w
  ordered : OrderedFrom (Sstack.before w) p.items p.items.length 0

theorem valid_new (setIndex : Option (ℤ → ℤ)) : (new setIndex : Prque V).Valid false :=
  ⟨Sstack.newSstack_wf _ _, rfl, by simp [items, new, OrderedFrom]⟩

theorem valid_newWrapAround (setIndex : Option (ℤ → ℤ)) :
    (newWrapAround setIndex : Prque V).Valid true :=
  ⟨Sstack.newSstack_wf _ _, rfl, by simp [items, newWrapAround, OrderedFrom]⟩

theorem reset_eq (p : Prque V) :
    p.reset = ⟨{ newSstack p.cont.setIndex false with reports := p.cont.reports }⟩ := rfl

/-- `Reset` empties the queue, and orders it by plain comparison. -/
theorem valid_reset (p : Prque V) : p.reset.Valid false ∧ p.reset.items = [] := by
  have hw := (Sstack.newSstack_wf (V := V) p.cont.setIndex false).reports p.cont.reports
  have hitems : p.reset.items = [] := hw.items_eq rfl (by simp [newSstack, Paged.filled])
  exact ⟨⟨hw, rfl, by simp [hitems, OrderedFrom]⟩, hitems⟩

/-! ### The plain order -/

/-- Plain `Less` is a strict weak order: it compares priorities. -/
theorem weakOrder_before : WeakOrder (Sstack.before (V := V) false) :=
  WeakOrder.of_key _ (fun it => -it.priority.toInt) fun a b => by
    simp only [Sstack.before, Bool.false_eq_true, if_false, gt_iff_lt, Int64.lt_iff_toInt_lt,
      decide_eq_decide]
    omega

section Plain

/-- `Push` keeps the queue valid and adds the item. -/
theorem Valid.push {p : Prque V} (hv : p.Valid false) (data : V) (priority : Int64) :
    ∃ p', p.push data priority = some p' ∧ p'.Valid false ∧
      p'.items.Perm (p.items ++ [⟨data, priority⟩]) := by
  obtain ⟨s', hpush, ⟨hw', hwrap'⟩, hitems'⟩ :=
    push_sim (Sstack.simulates false) ⟨hv.wf, hv.wrapAround⟩ ⟨data, priority⟩
  obtain ⟨hperm, hord⟩ := push_spec weakOrder_before hv.ordered ⟨data, priority⟩
  have hitems : (⟨s'⟩ : Prque V).items = BinaryHeap.push (Sstack.before false) p.items
      ⟨data, priority⟩ := hitems'
  refine ⟨⟨s'⟩, by rw [Prque.push, hpush]; rfl, ⟨hw', hwrap', ?_⟩, ?_⟩
  · rw [hitems, hperm.length_eq, List.length_append, List.length_singleton]
    exact hord
  · rw [hitems]
    exact hperm

/-- An item of an ordered heap has no greater priority than its root. -/
theorem priority_le_root {h : List (Item V)} (ho : OrderedFrom (Sstack.before false) h h.length 0)
    {it : Item V} (hit : it ∈ h) {x : Item V} (hx : h.head? = some x) : it.priority ≤ x.priority := by
  obtain ⟨k, hk, rfl⟩ := List.getElem_of_mem hit
  have h0 : 0 < h.length := by omega
  have hroot := root_min weakOrder_before le_rfl ho k hk
  rw [lessAt_of_lt _ hk h0] at hroot
  rw [List.head?_eq_getElem?, List.getElem?_eq_getElem h0, Option.some.injEq] at hx
  subst hx
  simpa [Sstack.before, Int64.lt_iff_toInt_lt, Int64.le_iff_toInt_le] using hroot

/-- `Pop` of a queue with items gives an item of greatest priority and keeps the rest valid. -/
theorem Valid.pop {p : Prque V} (hv : p.Valid false) (h0 : 0 < p.size) :
    ∃ p' x, p.pop = some (p', x.value, x.priority) ∧ p'.Valid false ∧
      (x :: p'.items).Perm p.items ∧ ∀ it ∈ p.items, it.priority ≤ x.priority := by
  have hlen : p.items.length = p.size := hv.wf.slots_items.1
  obtain ⟨h', x, hp⟩ : ∃ h' x, BinaryHeap.pop (Sstack.before false) p.items = some (h', x) :=
    ⟨_, _, pop_eq_some _ (by omega)⟩
  obtain ⟨hhead, hperm, hord⟩ := pop_spec weakOrder_before hv.ordered hp
  obtain ⟨s', hpop, ⟨hw', hwrap'⟩, hitems'⟩ :=
    pop_sim (Sstack.simulates false) ⟨hv.wf, hv.wrapAround⟩ hp
  refine ⟨⟨s'⟩, x, by rw [Prque.pop, hpop]; rfl, ⟨hw', hwrap', ?_⟩, ?_, fun it hit =>
    priority_le_root hv.ordered hit hhead⟩
  · rw [items, hitems']
    exact hord
  · rw [items, hitems']
    exact hperm

/-- `Peek` gives what `Pop` would. -/
theorem Valid.peek {p : Prque V} (hv : p.Valid w) (h0 : 0 < p.size) :
    ∃ x, p.items.head? = some x ∧ p.peek = some (x.value, x.priority) := by
  have hlen := hv.wf.slots_items.1
  obtain ⟨x, hx⟩ : ∃ x, p.items[0]? = some x :=
    ⟨_, List.getElem?_eq_getElem (by rw [items, hlen]; exact h0)⟩
  have hread : p.cont.blocks[0]?.bind (·[0]?) = some (some x) := by
    rw [Sstack.get_active _ blockSize_pos, Nat.zero_mul, Nat.zero_add, hv.wf.get?_of_lt h0]
    exact congrArg some hx
  refine ⟨x, by rw [List.head?_eq_getElem?]; exact hx, ?_⟩
  rw [Prque.peek, hread]

/-- `Remove(i)` within the queue returns the stack's item at `i` and keeps the rest valid. -/
theorem Valid.remove {p : Prque V} (hv : p.Valid false) {i : ℕ} (hi : i < p.size) :
    ∃ p' x, p.remove i = some (p', some x) ∧ p.items[i]? = some x ∧ p'.Valid false ∧
      (p'.items ++ [x]).Perm p.items := by
  have hlen : p.items.length = p.size := hv.wf.slots_items.1
  obtain ⟨⟨h', x⟩, hr⟩ := Option.ne_none_iff_exists'.mp
    (mt (remove_eq_none_iff (Sstack.before false) p.items i).mp (by omega))
  obtain ⟨hat, hperm, hord⟩ := remove_spec weakOrder_before hv.ordered hr
  obtain ⟨s', hrem, ⟨hw', hwrap'⟩, hitems'⟩ :=
    remove_sim (Sstack.simulates false) ⟨hv.wf, hv.wrapAround⟩ hr
  refine ⟨⟨s'⟩, x, ?_, hat, ⟨hw', hwrap', ?_⟩, ?_⟩
  · rw [Prque.remove, if_neg (by omega), Int.toNat_natCast, hrem]
    rfl
  · rw [items, hitems']
    exact hord
  · rw [items, hitems']
    exact hperm

end Plain

/-! ### `Reset` and the wrap-around order -/

/-- Two pushes onto an empty queue and a pop: the second item comes out first exactly when the
queue's `Less` puts it before the first. -/
theorem push_push_pop {s : Sstack V} (hw : s.WF) (hempty : s.items = []) (A B : Item V) :
    ((((⟨s⟩ : Prque V).push A.value A.priority).bind (·.push B.value B.priority)).bind
      Prque.pop).map (·.2) =
      some (if Sstack.before s.wrapAround B A then (B.value, B.priority) else (A.value, A.priority)) := by
  have hsim := Sstack.simulates (V := V) s.wrapAround
  obtain ⟨s₁, hpush₁, hinv₁, hitems₁⟩ := push_sim hsim ⟨hw, rfl⟩ A
  obtain ⟨s₂, hpush₂, hinv₂, hitems₂⟩ := push_sim hsim hinv₁ B
  rw [hitems₁, hempty, push_nil, push_singleton] at hitems₂
  have hA : (⟨s⟩ : Prque V).push A.value A.priority = some ⟨s₁⟩ := by
    rw [Prque.push, hpush₁]
    rfl
  have hB : (⟨s₁⟩ : Prque V).push B.value B.priority = some ⟨s₂⟩ := by
    rw [Prque.push, hpush₂]
    rfl
  rw [hA, Option.bind_some, hB, Option.bind_some]
  -- the pair in the stack, and which of them the pop takes
  cases hlt : Sstack.before s.wrapAround B A with
  | false =>
    rw [hlt] at hitems₂
    obtain ⟨s₃, hpop, -, -⟩ := pop_sim hsim hinv₂ (by rw [hitems₂]; exact pop_pair _ A B)
    simp [Prque.pop, hpop]
  | true =>
    rw [hlt] at hitems₂
    obtain ⟨s₃, hpop, -, -⟩ := pop_sim hsim hinv₂ (by rw [hitems₂]; exact pop_pair _ B A)
    simp [Prque.pop, hpop]

/-- A queue made by `NewWrapAround` pops by wrapped difference, but after `Reset` by plain
comparison: for two priorities whose wrapped difference and plain order disagree, the two
queues pop different items. -/
theorem reset_loses_wrapAround (p : Prque V) (setIndex : Option (ℤ → ℤ)) (a b : V)
    (pa pb : Int64) (hwrap : pb - pa > 0) (hplain : pa > pb) :
    ((((newWrapAround setIndex : Prque V).push a pa).bind (·.push b pb)).bind Prque.pop).map
        (·.2) = some (b, pb) ∧
      (((p.reset.push a pa).bind (·.push b pb)).bind Prque.pop).map (·.2) = some (a, pa) := by
  have hnew := push_push_pop (Sstack.newSstack_wf (V := V) setIndex true)
    (Sstack.items_newSstack setIndex true) ⟨a, pa⟩ ⟨b, pb⟩
  have hreset := push_push_pop (valid_reset p).1.wf (valid_reset p).2 ⟨a, pa⟩ ⟨b, pb⟩
  have hbefore : Sstack.before true (⟨b, pb⟩ : Item V) ⟨a, pa⟩ = true := by
    simpa [Sstack.before] using hwrap
  have hnot : Sstack.before false (⟨b, pb⟩ : Item V) ⟨a, pa⟩ = false := by
    simp only [Sstack.before, Bool.false_eq_true, if_false, decide_eq_false_iff_not, gt_iff_lt,
      Int64.lt_iff_toInt_lt]
    rw [gt_iff_lt, Int64.lt_iff_toInt_lt] at hplain
    omega
  rw [show (newSstack setIndex true : Sstack V).wrapAround = true from rfl, hbefore, if_pos rfl]
    at hnew
  rw [(valid_reset p).1.wrapAround, hnot, if_neg Bool.false_ne_true] at hreset
  exact ⟨hnew, hreset⟩

theorem reset_loses_wrapAround_extremes :
    (-9223372036854775807 : Int64) - 9223372036854775807 > 0 ∧
    (9223372036854775807 : Int64) > -9223372036854775807 ∧
    ((((newWrapAround (some id) : Prque ℕ).push 1 9223372036854775807).bind
      (·.push 2 (-9223372036854775807))).bind Prque.pop).map (·.2) =
      some (2, -9223372036854775807) ∧
    (((((newWrapAround (some id) : Prque ℕ).reset.push 1 9223372036854775807).bind
      (·.push 2 (-9223372036854775807))).bind Prque.pop).map (·.2) =
      some (1, 9223372036854775807)) :=
  ⟨by decide, by decide, reset_loses_wrapAround (newWrapAround (some id)) (some id) 1 2 _ _
    (by decide) (by decide)⟩

/-! ### Runs of calls -/

/-- The calls on a queue. -/
inductive Op (V : Type*) where
  | push (data : V) (priority : Int64)
  | pop
  | popItem
  | remove (i : ℤ)
  | reset

/-- One call; what a call returns goes to the caller. -/
def step (p : Prque V) : Op V → Option (Prque V)
  | .push data priority => p.push data priority
  | .pop => p.pop.map (·.1)
  | .popItem => p.popItem.map (·.1)
  | .remove i => (p.remove i).map (·.1)
  | .reset => some p.reset

/-- A run of calls. -/
def run (p : Prque V) (ops : List (Op V)) : Option (Prque V) :=
  ops.foldlM step p

end Prque

end Classzz.Prque
