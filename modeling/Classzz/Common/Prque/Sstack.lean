import Classzz.Lib.HeapInterface
import Classzz.Lib.Paged

/-!
# The block-paged stack under the priority queues

`sstack` keeps its items in blocks of `blockSize` slots, with the block being filled (`active`)
and the next free slot in it (`offset`). It is the `heap.Interface` of `Prque` and `LazyQueue`:
`Less` compares priorities (higher first, or by wrapped difference), `Swap` exchanges two slots,
and both report the new positions through the callback `setIndex`.

The callback is kept as what it records: `setIndex` maps a position to the index it reports for
the value (`Prque`'s caller takes the position itself, `LazyQueue` translates it), and `reports`
lists the calls made, oldest first. They are the caller's: `Reset` leaves them.

A stack is well formed (`WF`) when the blocks have `blockSize` slots, `active` and `offset`
point at the first free slot, and the slots hold the items and then nothing. Its `items` are then
a slice on which `Push`, `Pop` and `Swap` act as on a list (`simulates`), so the heap algorithms
on the stack are `BinaryHeap`'s on that slice.
-/

namespace Classzz.Prque

open HeapInterface BinaryHeap

/-- `blockSize`. -/
def blockSize : ℕ := 4096

theorem blockSize_pos : 0 < blockSize := by
  unfold blockSize
  omega

/-- `item`. -/
structure Item (V : Type*) where
  value : V
  priority : Int64

variable {V : Type*}

/-- `sstack`. `active` is the index of the block that Go's `active` slice shares. -/
structure Sstack (V : Type*) where
  setIndex : Option (ℤ → ℤ)
  size : ℕ
  capacity : ℕ
  offset : ℕ
  wrapAround : Bool
  blocks : List (List (Option (Item V)))
  active : ℕ
  reports : List (V × ℤ)

/-- `newSstack`. -/
def newSstack (setIndex : Option (ℤ → ℤ)) (wrapAround : Bool) : Sstack V where
  setIndex := setIndex
  size := 0
  capacity := blockSize
  offset := 0
  wrapAround := wrapAround
  blocks := [List.replicate blockSize none]
  active := 0
  reports := []

namespace Sstack

/-- `s.setIndex(data.(*item).value, i)` when a callback is set; a nil item panics there. -/
def callSetIndex (s : Sstack V) (data : Option (Item V)) (i : ℤ) : Option (Sstack V) :=
  match s.setIndex with
  | none => some s
  | some f => data.map fun it => { s with reports := s.reports ++ [(it.value, f i)] }

/-- `s.active[s.offset] = x`. -/
def setActive (s : Sstack V) (x : Option (Item V)) : Option (Sstack V) :=
  if s.offset < blockSize then some { s with blocks := s.blocks.modify s.active (·.set s.offset x) }
  else none

/-- The start of `Push`: a new block when the stack is full, the next block when the active one
is. -/
def advance (s : Sstack V) : Option (Sstack V) :=
  if s.size = s.capacity then
    some { s with
      blocks := s.blocks ++ [List.replicate blockSize none]
      active := s.blocks.length
      capacity := s.capacity + blockSize
      offset := 0 }
  else if s.offset = blockSize then
    if s.size / blockSize < s.blocks.length then
      some { s with active := s.size / blockSize, offset := 0 }
    else none
  else some s

/-- `Push`. -/
def push (s : Sstack V) (data : Option (Item V)) : Option (Sstack V) :=
  s.advance.bind fun s₁ => (s₁.callSetIndex data s₁.size).bind fun s₂ =>
    (s₂.setActive data).map fun s₃ => { s₃ with offset := s₃.offset + 1, size := s₃.size + 1 }

/-- The start of `Pop`: one slot back, into the previous block when the active one is
empty. -/
def retreat (s : Sstack V) : Sstack V :=
  if s.offset = 0 then
    { s with size := s.size - 1, offset := blockSize - 1, active := (s.size - 1) / blockSize }
  else { s with size := s.size - 1, offset := s.offset - 1 }

/-- `Pop`. The heap never pops an empty stack (its `Swap` panics first); Go would take its size
to `-1`, which is `none` here. -/
def pop (s : Sstack V) : Option (Sstack V × Option (Item V)) :=
  if s.size = 0 then none
  else
    let s₁ := s.retreat
    match s₁.blocks[s₁.active]?.bind (·[s₁.offset]?) with
    | none => none
    | some res => ((s₁.setActive none).bind fun s₂ => s₂.callSetIndex res (-1)).map (·, res)

/-- `Len`. -/
def len (s : Sstack V) : ℕ := s.size

/-- The order of `Less`: by wrapped difference or by value, higher first. -/
def before (wrapAround : Bool) (a b : Item V) : Bool :=
  if wrapAround then a.priority - b.priority > 0 else a.priority > b.priority

/-- `Less`; a nil or missing slot panics. -/
def less (s : Sstack V) (i j : ℕ) : Option Bool :=
  match Paged.get? blockSize s.blocks i, Paged.get? blockSize s.blocks j with
  | some (some a), some (some b) => some (before s.wrapAround a b)
  | _, _ => none

/-- `Swap`. -/
def swap (s : Sstack V) (i j : ℕ) : Option (Sstack V) :=
  match Paged.get? blockSize s.blocks j, Paged.get? blockSize s.blocks i with
  | some a, some b =>
    ((s.callSetIndex a i).bind fun s₁ => s₁.callSetIndex b j).map fun s₂ =>
      { s₂ with blocks := Paged.set blockSize (Paged.set blockSize s₂.blocks i a) j b }
  | _, _ => none

/-- The stack as a `heap.Interface` of item pointers. -/
def heap : Interface (Sstack V) (Option (Item V)) where
  len := len
  less := less
  swap := swap
  push := push
  pop := pop

/-- The items in the first `size` slots. -/
def items (s : Sstack V) : List (Item V) :=
  (s.blocks.flatten.take s.size).reduceOption

/-- A well-formed stack. -/
structure WF (s : Sstack V) : Prop where
  shape : Paged.Shape blockSize s.blocks
  capacity_eq : s.capacity = s.blocks.length * blockSize
  position : s.active * blockSize + s.offset = s.size
  offset_le : s.offset ≤ blockSize
  active_lt : s.active < s.blocks.length
  size_le : s.size ≤ s.capacity
  slots : ∃ items : List (Item V), items.length = s.size ∧
    s.blocks.flatten = Paged.filled items (s.capacity - s.size)

/-! ### The callback and the slots -/

@[simp] theorem callSetIndex_some (s : Sstack V) (it : Item V) (i : ℤ) :
    s.callSetIndex (some it) i =
      some (match s.setIndex with
        | none => s
        | some f => { s with reports := s.reports ++ [(it.value, f i)] }) := by
  unfold callSetIndex
  split <;> rfl

/-- The callback changes nothing but its record. -/
theorem callSetIndex_eq {s s' : Sstack V} {data : Option (Item V)} {i : ℤ}
    (h : s.callSetIndex data i = some s') : ∃ r, s' = { s with reports := r } := by
  unfold callSetIndex at h
  split at h
  · cases h
    exact ⟨s.reports, rfl⟩
  · obtain ⟨it, -, rfl⟩ := Option.map_eq_some_iff.mp h
    exact ⟨_, rfl⟩

theorem WF.items_eq {s : Sstack V} (hw : s.WF) {items : List (Item V)} (hlen : items.length = s.size)
    (hslots : s.blocks.flatten = Paged.filled items (s.capacity - s.size)) : s.items = items := by
  rw [Sstack.items, hslots, ← hlen, Paged.reduceOption_take_filled]

theorem WF.slots_items {s : Sstack V} (hw : s.WF) :
    s.items.length = s.size ∧ s.blocks.flatten = Paged.filled s.items (s.capacity - s.size) := by
  obtain ⟨items, hlen, hslots⟩ := hw.slots
  rw [hw.items_eq hlen hslots]
  exact ⟨hlen, hslots⟩

/-- A slot of the slice holds its item. -/
theorem WF.get?_of_lt {s : Sstack V} (hw : s.WF) {i : ℕ} (hi : i < s.size) :
    Paged.get? blockSize s.blocks i = some s.items[i]? := by
  obtain ⟨hlen, hslots⟩ := hw.slots_items
  rw [Paged.get?_eq blockSize_pos hw.shape, hslots, Paged.getElem?_filled_of_lt (by omega),
    List.getElem?_eq_getElem (by omega)]

theorem WF.reports {s : Sstack V} (hw : s.WF) (r : List (V × ℤ)) : { s with reports := r }.WF :=
  ⟨hw.shape, hw.capacity_eq, hw.position, hw.offset_le, hw.active_lt, hw.size_le, hw.slots⟩

/-- Slot `o` of block `a` is the slot `a * blockSize + o`. -/
theorem div_mod_slot {a o : ℕ} (ho : o < blockSize) :
    (a * blockSize + o) / blockSize = a ∧ (a * blockSize + o) % blockSize = o := by
  constructor
  · rw [Nat.mul_comm, Nat.mul_add_div blockSize_pos, Nat.div_eq_of_lt ho, Nat.add_zero]
  · rw [Nat.mul_comm, Nat.mul_add_mod, Nat.mod_eq_of_lt ho]

/-- `active[offset] = x` writes the slot `active * blockSize + offset`. -/
theorem modify_active (blocks : List (List (Option (Item V)))) {a o : ℕ} (ho : o < blockSize)
    (x : Option (Item V)) :
    blocks.modify a (·.set o x) = Paged.set blockSize blocks (a * blockSize + o) x := by
  rw [Paged.set, (div_mod_slot ho).1, (div_mod_slot ho).2]

/-- `active[offset]` reads the slot `active * blockSize + offset`. -/
theorem get_active (blocks : List (List (Option (Item V)))) {a o : ℕ} (ho : o < blockSize) :
    blocks[a]?.bind (·[o]?) = Paged.get? blockSize blocks (a * blockSize + o) := by
  rw [Paged.get?, (div_mod_slot ho).1, (div_mod_slot ho).2]

/-! ### `Push` -/

/-- A well-formed stack whose next slot is free in its active block. -/
structure Ready (s : Sstack V) : Prop where
  wf : s.WF
  offset_lt : s.offset < blockSize
  size_lt : s.size < s.capacity

/-- `advance` changes only the blocks and where the next slot is. -/
theorem advance_frame {s s₁ : Sstack V} (h : s.advance = some s₁) :
    s₁ = { s with
      blocks := s₁.blocks, active := s₁.active, capacity := s₁.capacity, offset := s₁.offset } := by
  unfold advance at h
  split_ifs at h <;> cases h <;> rfl

theorem advance_spec {s : Sstack V} (hw : s.WF) :
    ∃ s₁, s.advance = some s₁ ∧ s₁.Ready ∧ s₁.items = s.items := by
  obtain ⟨hlen, hslots⟩ := hw.slots_items
  have hcap := hw.capacity_eq
  have hpos := hw.position
  have hbs := blockSize_pos
  by_cases hfull : s.size = s.capacity
  · -- a new block
    have hslots₁ : (s.blocks ++ [List.replicate blockSize none]).flatten =
        Paged.filled s.items (s.capacity + blockSize - s.size) := by
      rw [List.flatten_append, hslots, List.flatten_singleton, hfull, Nat.sub_self,
        Nat.add_sub_cancel_left, Paged.filled, Paged.filled, List.replicate_zero, List.append_nil]
    have hw₁ : WF { s with
        blocks := s.blocks ++ [List.replicate blockSize none]
        active := s.blocks.length
        capacity := s.capacity + blockSize
        offset := 0 } :=
      ⟨hw.shape.append (List.length_replicate ..), by simp [hcap, Nat.succ_mul],
        by simp [← hcap, hfull], Nat.zero_le _, by simp, by simp only; omega, s.items, hlen, hslots₁⟩
    exact ⟨_, by rw [advance, if_pos hfull], ⟨hw₁, hbs, by simp only; omega⟩,
      hw₁.items_eq hlen hslots₁⟩
  by_cases hend : s.offset = blockSize
  · -- the next block, which is there: the stack is not full
    have hsize : (s.active + 1) * blockSize = s.size := by
      rw [Nat.succ_mul, ← hpos, hend]
    have hnext : s.size / blockSize = s.active + 1 := by
      rw [← hsize, Nat.mul_div_cancel _ hbs]
    have hlt : s.active + 1 < s.blocks.length := by
      have hs : (s.active + 1) * blockSize < s.blocks.length * blockSize := by
        rw [hsize, ← hcap]
        exact Nat.lt_of_le_of_ne hw.size_le hfull
      exact Nat.lt_of_mul_lt_mul_right hs
    have hw₁ : WF { s with active := s.size / blockSize, offset := 0 } :=
      ⟨hw.shape, hcap, by simp only [hnext, Nat.add_zero]; exact hsize,
        Nat.zero_le _, by simpa only [hnext] using hlt, hw.size_le, hw.slots⟩
    exact ⟨_, by rw [advance, if_neg hfull, if_pos hend, if_pos (by omega)],
      ⟨hw₁, hbs, Nat.lt_of_le_of_ne hw.size_le hfull⟩, rfl⟩
  · exact ⟨s, by rw [advance, if_neg hfull, if_neg hend],
      ⟨hw, Nat.lt_of_le_of_ne hw.offset_le hend, Nat.lt_of_le_of_ne hw.size_le hfull⟩, rfl⟩

/-- Writing the next slot of a stack whose next slot is free pushes onto its items. -/
theorem Ready.write {s : Sstack V} (hr : s.Ready) (x : Item V) :
    WF { s with
      blocks := Paged.set blockSize s.blocks s.size (some x), offset := s.offset + 1, size := s.size + 1 } ∧
    items { s with
      blocks := Paged.set blockSize s.blocks s.size (some x), offset := s.offset + 1,
        size := s.size + 1 } = s.items ++ [x] := by
  obtain ⟨hlen, hslots⟩ := hr.wf.slots_items
  obtain ⟨k, hk⟩ : ∃ k, s.capacity - s.size = k + 1 :=
    ⟨s.capacity - s.size - 1, by have := hr.size_lt; omega⟩
  have hslots' : (Paged.set blockSize s.blocks s.size (some x)).flatten =
      Paged.filled (s.items ++ [x]) (s.capacity - (s.size + 1)) := by
    rw [Paged.flatten_set blockSize_pos hr.wf.shape, hslots, hk, ← hlen, Paged.set_filled_length]
    congr 1
    omega
  have hlen' : (s.items ++ [x]).length = s.size + 1 := by simp [hlen]
  have hw' : WF { s with
      blocks := Paged.set blockSize s.blocks s.size (some x), offset := s.offset + 1, size := s.size + 1 } :=
    ⟨Paged.shape_set blockSize_pos hr.wf.shape _ _, by simp [hr.wf.capacity_eq],
      by simp only; rw [← Nat.add_assoc, hr.wf.position], hr.offset_lt, by simpa using hr.wf.active_lt,
      hr.size_lt, _, hlen', hslots'⟩
  exact ⟨hw', hw'.items_eq hlen' hslots'⟩

/-- `Push` onto a well-formed stack pushes onto its items. -/
theorem push_spec {s : Sstack V} (hw : s.WF) (x : Item V) :
    ∃ s', s.push (some x) = some s' ∧ s'.WF ∧ s'.items = s.items ++ [x] ∧
      s'.wrapAround = s.wrapAround := by
  obtain ⟨s₁, hadv, hr, hitems⟩ := advance_spec hw
  have hframe := advance_frame hadv
  obtain ⟨hw', hitems'⟩ := hr.write x
  have hwrite : s₁.blocks.modify s₁.active (·.set s₁.offset (some x)) =
      Paged.set blockSize s₁.blocks s₁.size (some x) := by
    rw [modify_active _ hr.offset_lt, hr.wf.position]
  rw [← hitems]
  cases hsi : s₁.setIndex with
  | none =>
    refine ⟨_, by simp [push, hadv, callSetIndex, hsi, setActive, hr.offset_lt, hwrite], hw',
      hitems', ?_⟩
    rw [hframe]
  | some f =>
    refine ⟨_, by simp [push, hadv, callSetIndex, hsi, setActive, hr.offset_lt, hwrite],
      hw'.reports (s₁.reports ++ [(x.value, f s₁.size)]), hitems', ?_⟩
    rw [hframe]

/-! ### `Pop` -/

theorem retreat_frame (s : Sstack V) :
    s.retreat = { s with
      size := s.size - 1, offset := s.retreat.offset, active := s.retreat.active } := by
  unfold retreat
  split_ifs <;> rfl

/-- After `retreat` the next slot is the last full one. -/
theorem retreat_spec {s : Sstack V} (hw : s.WF) (h0 : 0 < s.size) :
    s.retreat.active * blockSize + s.retreat.offset = s.size - 1 ∧
      s.retreat.offset < blockSize ∧ s.retreat.active < s.blocks.length := by
  have hpos := hw.position
  have hbs := blockSize_pos
  have hlast : s.size - 1 < s.blocks.length * blockSize := by
    have := hw.size_le
    rw [hw.capacity_eq] at this
    omega
  unfold retreat
  by_cases hoff : s.offset = 0
  · -- into the previous block: its last slot
    rw [if_pos hoff]
    have hact : blockSize ≤ s.active * blockSize := by
      rcases Nat.eq_zero_or_pos s.active with h | h
      · rw [h, Nat.zero_mul] at hpos
        omega
      · exact Nat.le_mul_of_pos_left _ h
    have hprev : s.size - 1 = (s.active - 1) * blockSize + (blockSize - 1) := by
      rw [Nat.sub_mul, Nat.one_mul]
      omega
    have hdiv : (s.size - 1) / blockSize = s.active - 1 := by
      rw [hprev]
      exact (div_mod_slot (by omega)).1
    refine ⟨by simp only [hdiv]; omega, by simp only; omega, ?_⟩
    simp only [hdiv]
    exact Nat.lt_of_le_of_lt (Nat.sub_le _ _) hw.active_lt
  · rw [if_neg hoff]
    exact ⟨by simp only; omega, by simp only; have := hw.offset_le; omega, hw.active_lt⟩

/-- `Pop` of a well-formed stack with items pops its last item. -/
theorem pop_spec {s : Sstack V} (hw : s.WF) (h0 : 0 < s.size) :
    ∃ s' x, s.pop = some (s', some x) ∧ s'.WF ∧ s.items = s'.items ++ [x] ∧
      s'.wrapAround = s.wrapAround := by
  obtain ⟨hlen, hslots⟩ := hw.slots_items
  obtain ⟨a₁, o₁, hframe⟩ : ∃ a₁ o₁, s.retreat = { s with
      size := s.size - 1, offset := o₁, active := a₁ } := ⟨_, _, retreat_frame s⟩
  obtain ⟨hpos, hoff, hact⟩ := retreat_spec hw h0
  simp only [hframe] at hpos hoff hact
  obtain ⟨init, x, hsplit⟩ : ∃ init x, s.items = init ++ [x] :=
    ⟨_, _, (List.dropLast_append_getLast (List.ne_nil_of_length_pos (by omega))).symm⟩
  have hinit : init.length = s.size - 1 := by
    rw [← hlen, hsplit, List.length_append, List.length_singleton, Nat.add_sub_cancel]
  -- the slot read is the last full one
  have hread : s.blocks[a₁]?.bind (·[o₁]?) = some (some x) := by
    rw [get_active _ hoff, hpos, hw.get?_of_lt (by omega), hsplit,
      List.getElem?_append_right (by omega), hinit, Nat.sub_self]
    rfl
  have hslots' : (Paged.set blockSize s.blocks (s.size - 1) none).flatten =
      Paged.filled init (s.capacity - (s.size - 1)) := by
    rw [Paged.flatten_set blockSize_pos hw.shape, hslots, hsplit, ← hinit, Paged.set_filled_last]
    congr 1
    have := hw.size_le
    omega
  have hwrite : s.blocks.modify a₁ (·.set o₁ none) = Paged.set blockSize s.blocks (s.size - 1) none := by
    rw [modify_active _ hoff, hpos]
  have hw' : WF { s with
      size := s.size - 1, offset := o₁, active := a₁,
        blocks := Paged.set blockSize s.blocks (s.size - 1) none } :=
    ⟨Paged.shape_set blockSize_pos hw.shape _ _, by simpa using hw.capacity_eq, hpos, Nat.le_of_lt hoff,
      by simpa using hact, by simp only; have := hw.size_le; omega, init, hinit, hslots'⟩
  have hitems' := hw'.items_eq hinit hslots'
  rw [hsplit]
  cases hsi : s.setIndex with
  | none =>
    refine ⟨_, x, ?_, hw', (congrArg (· ++ [x]) hitems').symm, rfl⟩
    simp [pop, Nat.pos_iff_ne_zero.mp h0, hframe, hread, setActive, hoff, hwrite, callSetIndex, hsi]
  | some f =>
    refine ⟨_, x, ?_, hw'.reports (s.reports ++ [(x.value, f (-1))]),
      (congrArg (· ++ [x]) hitems').symm, rfl⟩
    simp [pop, Nat.pos_iff_ne_zero.mp h0, hframe, hread, setActive, hoff, hwrite, callSetIndex, hsi]

/-! ### `Less` and `Swap` -/

theorem less_spec {s : Sstack V} (hw : s.WF) {i j : ℕ} (hi : i < s.size) (hj : j < s.size) :
    s.less i j = some (lessAt (before s.wrapAround) s.items i j) := by
  have hlen := hw.slots_items.1
  rw [less, hw.get?_of_lt hi, hw.get?_of_lt hj, List.getElem?_eq_getElem (by omega),
    List.getElem?_eq_getElem (by omega), lessAt_of_lt _ (by omega) (by omega)]

/-- `Swap` within the items swaps them. -/
theorem swap_spec {s : Sstack V} (hw : s.WF) {i j : ℕ} (hi : i < s.size) (hj : j < s.size) :
    ∃ s', s.swap i j = some s' ∧ s'.WF ∧ s'.items = swapAt s.items i j ∧
      s'.wrapAround = s.wrapAround := by
  obtain ⟨hlen, hslots⟩ := hw.slots_items
  have hi' : i < s.items.length := by omega
  have hj' : j < s.items.length := by omega
  have hswap : swapAt s.items i j = (s.items.set i s.items[j]).set j s.items[i] := by
    rw [swapAt, List.getElem?_eq_getElem hi', List.getElem?_eq_getElem hj']
  have hlen' : (swapAt s.items i j).length = s.size := by rw [length_swapAt, hlen]
  -- the two writes write the flat slots
  have hslots' : (Paged.set blockSize (Paged.set blockSize s.blocks i (some s.items[j])) j
      (some s.items[i])).flatten = Paged.filled (swapAt s.items i j) (s.capacity - s.size) := by
    rw [Paged.flatten_set blockSize_pos (Paged.shape_set blockSize_pos hw.shape _ _),
      Paged.flatten_set blockSize_pos hw.shape, hslots, Paged.set_filled_of_lt hi',
      Paged.set_filled_of_lt (by simpa using hj'), hswap]
  have hw' : WF { s with
      blocks := Paged.set blockSize (Paged.set blockSize s.blocks i (some s.items[j])) j
        (some s.items[i]) } :=
    ⟨Paged.shape_set blockSize_pos (Paged.shape_set blockSize_pos hw.shape _ _) _ _,
      by simpa using hw.capacity_eq, hw.position, hw.offset_le, by simpa using hw.active_lt,
      hw.size_le, _, hlen', hslots'⟩
  have hitems' := hw'.items_eq hlen' hslots'
  have hget : ∀ k (hk : k < s.items.length), Paged.get? blockSize s.blocks k =
      some (some s.items[k]) := fun k hk => by
    rw [hw.get?_of_lt (by omega), List.getElem?_eq_getElem hk]
  cases hsi : s.setIndex with
  | none =>
    exact ⟨_, by simp [swap, hget i hi', hget j hj', callSetIndex, hsi], hw', hitems', rfl⟩
  | some f =>
    exact ⟨_, by simp [swap, hget i hi', hget j hj', callSetIndex, hsi],
      hw'.reports (s.reports ++ [(s.items[j].value, f i), (s.items[i].value, f j)]), hitems', rfl⟩

/-! ### The stack as a heap -/

/-- Under well-formedness, the stack is its items for the heap algorithms, in either order. -/
theorem simulates (w : Bool) :
    Simulates (heap (V := V)) (before w) items some fun s => s.WF ∧ s.wrapAround = w where
  len_eq s h := h.1.slots_items.1.symm
  less_eq s i j h hi hj := by
    rw [← h.2]
    exact less_spec h.1 hi hj
  swap_eq s i j h hi hj := by
    obtain ⟨s', hswap, hw', hitems, hwrap⟩ := swap_spec h.1 hi hj
    exact ⟨s', hswap, ⟨hw', hwrap.trans h.2⟩, hitems⟩
  push_eq s x h := by
    obtain ⟨s', hpush, hw', hitems, hwrap⟩ := push_spec h.1 x
    exact ⟨s', hpush, ⟨hw', hwrap.trans h.2⟩, hitems⟩
  pop_eq s h h0 := by
    obtain ⟨s', x, hpop, hw', hitems, hwrap⟩ := pop_spec h.1 h0
    exact ⟨s', x, hpop, ⟨hw', hwrap.trans h.2⟩, hitems⟩

theorem newSstack_wf (setIndex : Option (ℤ → ℤ)) (wrapAround : Bool) :
    (newSstack setIndex wrapAround : Sstack V).WF :=
  ⟨by simp only [newSstack, Paged.shape_cons, Paged.shape_nil, List.length_replicate, and_self],
    by simp only [newSstack, List.length_singleton, Nat.one_mul],
    by simp only [newSstack, Nat.zero_mul, Nat.add_zero], Nat.zero_le _,
    by simp only [newSstack, List.length_singleton, Nat.zero_lt_one], Nat.zero_le _, [], rfl,
    by simp only [newSstack, List.flatten_singleton, Paged.filled, List.map_nil, List.nil_append,
      Nat.sub_zero]⟩

@[simp] theorem items_newSstack (setIndex : Option (ℤ → ℤ)) (wrapAround : Bool) :
    (newSstack setIndex wrapAround : Sstack V).items = [] :=
  (newSstack_wf setIndex wrapAround).items_eq rfl
    (by simp only [newSstack, List.flatten_singleton, Paged.filled, List.map_nil, List.nil_append,
      Nat.sub_zero])

/-! ### What the operations keep -/

theorem setActive_frame {s s' : Sstack V} {x : Option (Item V)} (h : s.setActive x = some s') :
    s' = { s with blocks := s'.blocks } := by
  unfold setActive at h
  split_ifs at h
  cases h
  rfl

/-- No operation changes the callback or the order. -/
theorem keeps_config : Keeps (heap (V := V)) fun s => (s.setIndex, s.wrapAround) where
  swap s i j s' h := by
    have h : s.swap i j = some s' := h
    unfold swap at h
    split at h
    · obtain ⟨s₂, hcall, rfl⟩ := Option.map_eq_some_iff.mp h
      obtain ⟨s₁, hcall₁, hcall₂⟩ := Option.bind_eq_some_iff.mp hcall
      obtain ⟨r₁, rfl⟩ := callSetIndex_eq hcall₁
      obtain ⟨r₂, rfl⟩ := callSetIndex_eq hcall₂
      rfl
    · cases h
  push s x s' h := by
    obtain ⟨s₁, hadv, h⟩ := Option.bind_eq_some_iff.mp h
    obtain ⟨s₂, hcall, h⟩ := Option.bind_eq_some_iff.mp h
    obtain ⟨s₃, hset, rfl⟩ := Option.map_eq_some_iff.mp h
    obtain ⟨r, rfl⟩ := callSetIndex_eq hcall
    rw [setActive_frame hset, advance_frame hadv]
  pop s r h := by
    have h : s.pop = some r := h
    unfold pop at h
    split_ifs at h
    dsimp only at h
    split at h
    · cases h
    · obtain ⟨s₃, hrest, rfl⟩ := Option.map_eq_some_iff.mp h
      obtain ⟨s₂, hset, hcall⟩ := Option.bind_eq_some_iff.mp hrest
      obtain ⟨r', rfl⟩ := callSetIndex_eq hcall
      rw [setActive_frame hset, retreat_frame]

/-- The callback's record after a `Push`: the pushed value at the old size, if a callback is
set. -/
theorem push_size_reports {s s' : Sstack V} {x : Item V} (h : s.push (some x) = some s') :
    s'.size = s.size + 1 ∧
      s'.reports = s.reports ++ (s.setIndex.map fun f => (x.value, f s.size)).toList := by
  obtain ⟨s₁, hadv, h⟩ := Option.bind_eq_some_iff.mp h
  obtain ⟨s₂, hcall, h⟩ := Option.bind_eq_some_iff.mp h
  obtain ⟨s₃, hset, rfl⟩ := Option.map_eq_some_iff.mp h
  rw [setActive_frame hset]
  have hframe := advance_frame hadv
  rw [hframe] at hcall
  cases hsi : s.setIndex with
  | none =>
    simp only [callSetIndex, hsi, Option.some.injEq] at hcall
    subst hcall
    simp
  | some f =>
    simp only [callSetIndex, hsi, Option.map_some, Option.some.injEq] at hcall
    subst hcall
    simp

end Sstack

end Classzz.Prque
