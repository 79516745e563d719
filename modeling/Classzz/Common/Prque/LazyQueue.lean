import Classzz.Common.Prque.Sstack
import Classzz.Lib.Run

/-!
# `LazyQueue`

Two stacks ordered by estimated priority and a third by actual priority. Items go into
`queue[1]`; `refresh` re-estimates the items of `queue[0]` into `queue[1]` and swaps the two.
The caller's index of an item is virtual: the stack made with `setIndex0` reports position `i` as
`2 i` and the one made with `setIndex1` as `2 i + 1`, and `Remove(index)` picks the stack
`index & 1 ^ indexOffset`, `indexOffset` flipping with every swap.

The stacks agree with `indexOffset` (`Consistent`) when the stack in slot `k` is the one whose
indices have parity `k ^ indexOffset`. Every operation but `Reset` keeps this; `Reset` makes new
stacks in their first places without touching `indexOffset`, which `NewLazyQueue` has already
flipped once, so after it a removal by a reported index goes to the other stack
(`reset_remove_misses`).

The callback calls of the two stacks go to the one caller: `reports` lists them, oldest first,
and an operation on a stack hands it the list and takes it back.
-/

namespace Classzz.Prque

open HeapInterface

variable {V : Type*}

/-- `setIndex0`: the even virtual indices; `-1` stays `-1`. -/
def setIndex0 (i : ℤ) : ℤ := if i = -1 then -1 else i + i

/-- `setIndex1`: the odd virtual indices. -/
def setIndex1 (i : ℤ) : ℤ := i + i + 1

/-- `LazyQueue`. The clock is read by the caller and passed to the operations that read it;
`setIndex` is the caller's record `reports`. -/
structure LazyQueue (V : Type*) where
  queue0 : Sstack V
  queue1 : Sstack V
  popQueue : Sstack V
  period : Int64
  maxUntil : Int64
  indexOffset : ℕ
  priority : V → Int64
  maxPriority : V → Int64 → Int64
  lastRefresh1 : Int64
  lastRefresh2 : Int64
  reports : List (V × ℤ)

namespace LazyQueue

/-- `q.queue[k]`; an index other than `0` and `1` panics. -/
def queueAt (q : LazyQueue V) (k : ℤ) : Option (Sstack V) :=
  if k = 0 then some q.queue0 else if k = 1 then some q.queue1 else none

/-- `q.queue[k] = s`. -/
def setQueue (q : LazyQueue V) (k : ℤ) (s : Sstack V) : LazyQueue V :=
  if k = 0 then { q with queue0 := s } else { q with queue1 := s }

/-- An operation on `q.queue[k]`, whose callback calls go to the caller's record. -/
def onQueue {β : Type*} (q : LazyQueue V) (k : ℤ) (f : Sstack V → Option (Sstack V × β)) :
    Option (LazyQueue V × β) :=
  (q.queueAt k).bind fun s => (f { s with reports := q.reports }).map fun r =>
    ({ q.setQueue k r.1 with reports := r.1.reports }, r.2)

/-- `heap.Pop(s).(*item).value`; a nil item panics. -/
def popValue (s : Sstack V) : Option (Sstack V × V) :=
  (HeapInterface.pop Sstack.heap s).bind fun r => r.2.map fun it => (r.1, it.value)

/-- `Reset`. -/
def reset (q : LazyQueue V) : LazyQueue V :=
  { q with queue0 := newSstack (some setIndex0) false, queue1 := newSstack (some setIndex1) false }

/-- `Push`: into `queue[1]`, estimated until `maxUntil`. -/
def push (q : LazyQueue V) (data : V) : Option (LazyQueue V) :=
  (q.onQueue 1 fun s =>
    (HeapInterface.push Sstack.heap s (some ⟨data, q.maxPriority data q.maxUntil⟩)).map (·, ())).map
      Prod.fst

/-- The loop of `refresh`: `queue[0]` popped into `queue[1]`, one item a pass. Each pass takes
one item out of `queue[0]`, so its size is enough passes. -/
def drain : ℕ → LazyQueue V → Option (LazyQueue V)
  | 0, q => if q.queue0.len = 0 then some q else none
  | n + 1, q =>
    if q.queue0.len = 0 then some q
    else (q.onQueue 0 popValue).bind fun r => (r.1.push r.2).bind (drain n)

/-- `refresh`. -/
def refresh (now : Int64) (q : LazyQueue V) : Option (LazyQueue V) :=
  let q₁ := { q with maxUntil := now + q.period }
  (drain q₁.queue0.len q₁).map fun q₂ => { q₂ with
    queue0 := q₂.queue1, queue1 := q₂.queue0, indexOffset := 1 - q₂.indexOffset,
    maxUntil := q₂.maxUntil + q₂.period }

/-- The condition of `Refresh`'s loop. -/
def refreshDue (now : Int64) (q : LazyQueue V) : Bool :=
  now - q.lastRefresh2 ≥ q.period * 2

/-- The loop of `Refresh`. Two passes bring both last refreshes to `now`; after them the
condition no longer changes, and when it still holds (`2 * period ≤ 0`) Go loops forever:
`none`. -/
def refreshLoop (now : Int64) : ℕ → LazyQueue V → Option (LazyQueue V)
  | 0, q => if refreshDue now q then none else some q
  | n + 1, q =>
    if refreshDue now q then
      (refresh now q).bind fun q₁ =>
        refreshLoop now n { q₁ with lastRefresh2 := q₁.lastRefresh1, lastRefresh1 := now }
    else some q

/-- `Refresh`, at the time `now` the clock gives. -/
def Refresh (now : Int64) (q : LazyQueue V) : Option (LazyQueue V) :=
  refreshLoop now 2 q

/-- `NewLazyQueue`: reset, then one refresh. -/
def new (priority : V → Int64) (maxPriority : V → Int64 → Int64) (now period : Int64) :
    Option (LazyQueue V) :=
  refresh now (reset
    { queue0 := newSstack none false
      queue1 := newSstack none false
      popQueue := newSstack none false
      period := period
      maxUntil := 0
      indexOffset := 0
      priority := priority
      maxPriority := maxPriority
      lastRefresh1 := now
      lastRefresh2 := now
      reports := [] })

/-- `Remove(index)`: the value of the removed item; `nil` for a negative index. -/
def remove (q : LazyQueue V) (index : ℤ) : Option (LazyQueue V × Option V) :=
  if index < 0 then some (q, none)
  else
    (q.onQueue ((index.toNat % 2 ^^^ q.indexOffset : ℕ) : ℤ) fun s =>
      (HeapInterface.remove Sstack.heap s (index.toNat / 2)).bind fun r =>
        r.2.map fun it => (r.1, it.value)).map fun r => (r.1, some r.2)

/-- `Update(index)`: `Push(Remove(index))`. A negative index has Go push a nil value, for which
the typed model has no value: `none`. -/
def update (q : LazyQueue V) (index : ℤ) : Option (LazyQueue V) :=
  (q.remove index).bind fun r => r.2.bind r.1.push

/-- The root item of a stack, `s.blocks[0][0]`; a nil item panics. -/
def top (s : Sstack V) : Option (Item V) :=
  match s.blocks[0]?.bind (·[0]?) with
  | some (some it) => some it
  | _ => none

/-- `peekIndex`: the stack with the higher root estimate, or `-1`. -/
def peekIndex (q : LazyQueue V) : Option ℤ :=
  if q.queue0.len ≠ 0 then
    if q.queue1.len ≠ 0 then
      (top q.queue1).bind fun a => (top q.queue0).map fun b =>
        if a.priority > b.priority then 1 else 0
    else some 0
  else if q.queue1.len ≠ 0 then some 1 else some (-1)

/-- `for q.popQueue.Len() != 0 { q.Push(heap.Pop(q.popQueue).(*item).value) }`. -/
def pushBack : ℕ → LazyQueue V → Option (LazyQueue V)
  | 0, q => if q.popQueue.len = 0 then some q else none
  | n + 1, q =>
    if q.popQueue.len = 0 then some q
    else (popValue q.popQueue).bind fun r => ({ q with popQueue := r.1 }.push r.2).bind (pushBack n)

/-- Whether `popQueue`'s best item beats the best estimate left. -/
def releases (q : LazyQueue V) (nextIndex : ℤ) : Option Bool :=
  if q.popQueue.len = 0 then some false
  else if nextIndex = -1 then some true
  else (q.queueAt nextIndex).bind fun s => (top s).bind fun a =>
    (top q.popQueue).map fun b => decide (a.priority < b.priority)

/-- The inner loop of `MultiPop`: items of `popQueue` handed to the callback while they beat
the best estimate left. The result says whether the callback stopped the pop. -/
def deliver (callback : V → Int64 → Bool) :
    ℕ → LazyQueue V → ℤ → List (V × Int64) → Option (LazyQueue V × ℤ × List (V × Int64) × Bool)
  | 0, q, nextIndex, out => (releases q nextIndex).bind fun b =>
    if b then none else some (q, nextIndex, out, false)
  | n + 1, q, nextIndex, out => (releases q nextIndex).bind fun b =>
    if b then
      (HeapInterface.pop Sstack.heap q.popQueue).bind fun r => r.2.bind fun i =>
        let q₁ := { q with popQueue := r.1 }
        if !callback i.value i.priority then
          (pushBack q₁.popQueue.len q₁).map fun q₂ => (q₂, nextIndex, out ++ [(i.value, i.priority)], true)
        else (peekIndex q₁).bind fun k => deliver callback n q₁ k (out ++ [(i.value, i.priority)])
    else some (q, nextIndex, out, false)

/-- The outer loop of `MultiPop`: the best estimated item moves to `popQueue` at its actual
priority, then `deliver`. Each pass takes an item out of the two stacks for good. -/
def multiPopLoop (callback : V → Int64 → Bool) :
    ℕ → LazyQueue V → ℤ → List (V × Int64) → Option (LazyQueue V × List (V × Int64))
  | 0, q, nextIndex, out => if nextIndex = -1 then some (q, out) else none
  | n + 1, q, nextIndex, out =>
    if nextIndex = -1 then some (q, out)
    else (q.onQueue nextIndex popValue).bind fun r =>
      (HeapInterface.push Sstack.heap r.1.popQueue (some ⟨r.2, q.priority r.2⟩)).bind fun pq =>
        let q₁ := { r.1 with popQueue := pq }
        (peekIndex q₁).bind fun k => (deliver callback (q₁.queue0.len + q₁.queue1.len + 1) q₁ k out).bind
          fun d => if d.2.2.2 then some (d.1, d.2.2.1) else multiPopLoop callback n d.1 d.2.1 d.2.2.1

/-- `MultiPop`: the queue afterwards and what the callback was handed, in order. The callback
does not touch the queue. -/
def multiPop (callback : V → Int64 → Bool) (q : LazyQueue V) :
    Option (LazyQueue V × List (V × Int64)) :=
  (peekIndex q).bind fun k => multiPopLoop callback (q.queue0.len + q.queue1.len + 1) q k []

/-- `Pop`: `MultiPop` with a callback that takes one item; `nil, 0` when there is none. -/
def pop (q : LazyQueue V) : Option (LazyQueue V × Option (V × Int64)) :=
  (multiPop (fun _ _ => false) q).map fun r => (r.1, r.2.head?)

/-- `Empty`. -/
def empty (q : LazyQueue V) : Bool := q.queue0.len = 0 ∧ q.queue1.len = 0

/-- `Size`. -/
def size (q : LazyQueue V) : ℕ := q.queue0.len + q.queue1.len

/-! ### The stacks and `indexOffset` -/

/-- The index translation of the stack whose virtual indices have parity `j`. -/
def translate (j : ℕ) : ℤ → ℤ := if j = 0 then setIndex0 else setIndex1

/-- The stack in slot `k` translates to the parity `k ^ indexOffset`. -/
structure Consistent (q : LazyQueue V) : Prop where
  offset_le : q.indexOffset ≤ 1
  queue0 : q.queue0.setIndex = some (translate q.indexOffset)
  queue1 : q.queue1.setIndex = some (translate (1 - q.indexOffset))

theorem queueAt_eq_some {q : LazyQueue V} {k : ℤ} {s : Sstack V} (h : q.queueAt k = some s) :
    (k = 0 ∧ s = q.queue0) ∨ (k = 1 ∧ s = q.queue1) := by
  unfold queueAt at h
  split_ifs at h with h0 h1
  · exact Or.inl ⟨h0, (Option.some.inj h).symm⟩
  · exact Or.inr ⟨h1, (Option.some.inj h).symm⟩

/-- An operation on a stack that keeps its callback. -/
def KeepsSetIndex {β : Type*} (f : Sstack V → Option (Sstack V × β)) : Prop :=
  ∀ s r, f s = some r → r.1.setIndex = s.setIndex

theorem keepsSetIndex_push (x : Item V) :
    KeepsSetIndex fun s => (HeapInterface.push Sstack.heap s (some x)).map (·, ()) := by
  intro s r h
  obtain ⟨s', hpush, rfl⟩ := Option.map_eq_some_iff.mp h
  exact congrArg Prod.fst (Sstack.keeps_config.heapPush hpush)

theorem keepsSetIndex_popValue : KeepsSetIndex (popValue (V := V)) := by
  intro s r h
  obtain ⟨r', hpop, h⟩ := Option.bind_eq_some_iff.mp h
  obtain ⟨it, -, rfl⟩ := Option.map_eq_some_iff.mp h
  exact congrArg Prod.fst (Sstack.keeps_config.heapPop hpop)

theorem keepsSetIndex_remove (i : ℕ) :
    KeepsSetIndex fun s : Sstack V => (HeapInterface.remove Sstack.heap s i).bind fun r =>
      r.2.map fun it => (r.1, it.value) := by
  intro s r h
  obtain ⟨r', hrem, h⟩ := Option.bind_eq_some_iff.mp h
  obtain ⟨it, -, rfl⟩ := Option.map_eq_some_iff.mp h
  exact congrArg Prod.fst (Sstack.keeps_config.remove hrem)

/-- An operation on one stack that keeps its callback keeps the queue consistent, and
`indexOffset`, `popQueue` and the estimates as they were. -/
theorem Consistent.onQueue {β : Type*} {q q' : LazyQueue V} {k : ℤ}
    {f : Sstack V → Option (Sstack V × β)} {b : β} (hc : q.Consistent) (hf : KeepsSetIndex f)
    (h : q.onQueue k f = some (q', b)) :
    q'.Consistent ∧ q'.indexOffset = q.indexOffset ∧ q'.popQueue = q.popQueue ∧
      q'.maxUntil = q.maxUntil ∧ q'.period = q.period := by
  obtain ⟨s, hs, h⟩ := Option.bind_eq_some_iff.mp h
  obtain ⟨r, hr, hq'⟩ := Option.map_eq_some_iff.mp h
  have hkeep : r.1.setIndex = s.setIndex := hf { s with reports := q.reports } r hr
  rw [Prod.mk.injEq] at hq'
  obtain ⟨rfl, -⟩ := hq'
  rcases queueAt_eq_some hs with ⟨rfl, rfl⟩ | ⟨rfl, rfl⟩
  · exact ⟨⟨hc.offset_le, hkeep.trans hc.queue0, hc.queue1⟩, rfl, rfl, rfl, rfl⟩
  · exact ⟨⟨hc.offset_le, hc.queue0, hkeep.trans hc.queue1⟩, rfl, rfl, rfl, rfl⟩

theorem Consistent.push {q q' : LazyQueue V} (hc : q.Consistent) {x : V}
    (h : q.push x = some q') : q'.Consistent ∧ q'.indexOffset = q.indexOffset ∧
      q'.popQueue = q.popQueue ∧ q'.maxUntil = q.maxUntil ∧ q'.period = q.period := by
  obtain ⟨r, hr, rfl⟩ := Option.map_eq_some_iff.mp h
  exact hc.onQueue (keepsSetIndex_push _) hr

theorem Consistent.drain : ∀ (n : ℕ) {q q' : LazyQueue V}, q.Consistent → drain n q = some q' →
    q'.Consistent ∧ q'.indexOffset = q.indexOffset ∧ q'.maxUntil = q.maxUntil ∧
      q'.period = q.period
  | 0, q, q', hc, h => by
    unfold LazyQueue.drain at h
    split_ifs at h
    cases h
    exact ⟨hc, rfl, rfl, rfl⟩
  | n + 1, q, q', hc, h => by
    unfold LazyQueue.drain at h
    split_ifs at h
    · cases h
      exact ⟨hc, rfl, rfl, rfl⟩
    · -- one item popped from the first stack and pushed into the second
      obtain ⟨r, hpop, h⟩ := Option.bind_eq_some_iff.mp h
      obtain ⟨q₂, hpush, hrest⟩ := Option.bind_eq_some_iff.mp h
      obtain ⟨hc₁, ho₁, -, hm₁, hp₁⟩ := hc.onQueue keepsSetIndex_popValue hpop
      obtain ⟨hc₂, ho₂, -, hm₂, hp₂⟩ := hc₁.push hpush
      obtain ⟨hc', ho', hm', hp'⟩ := Consistent.drain n hc₂ hrest
      exact ⟨hc', ho'.trans (ho₂.trans ho₁), hm'.trans (hm₂.trans hm₁), hp'.trans (hp₂.trans hp₁)⟩

/-- `refresh` swaps the stacks and flips `indexOffset`: the queue stays consistent. -/
theorem Consistent.refresh {q q' : LazyQueue V} (hc : q.Consistent) {now : Int64}
    (h : refresh now q = some q') : q'.Consistent := by
  obtain ⟨q₂, hdrain, rfl⟩ := Option.map_eq_some_iff.mp h
  obtain ⟨hc₂, ho₂, -, -⟩ := Consistent.drain _ (q := { q with maxUntil := now + q.period })
    ⟨hc.offset_le, hc.queue0, hc.queue1⟩ hdrain
  have hoff : q₂.indexOffset = 0 ∨ q₂.indexOffset = 1 := by have := hc₂.offset_le; omega
  refine ⟨by simp only; omega, hc₂.queue1, ?_⟩
  · simp only
    rw [hc₂.queue0]
    rcases hoff with h | h <;> rw [h]

theorem Consistent.refreshLoop {now : Int64} : ∀ (n : ℕ) {q q' : LazyQueue V}, q.Consistent →
    LazyQueue.refreshLoop now n q = some q' → q'.Consistent
  | 0, q, q', hc, h => by
    unfold LazyQueue.refreshLoop at h
    split_ifs at h
    cases h
    exact hc
  | n + 1, q, q', hc, h => by
    unfold LazyQueue.refreshLoop at h
    split_ifs at h
    · obtain ⟨q₁, hr, hrest⟩ := Option.bind_eq_some_iff.mp h
      have hc₁ := hc.refresh hr
      have hc₂ : ({ q₁ with lastRefresh2 := q₁.lastRefresh1, lastRefresh1 := now } :
          LazyQueue V).Consistent := ⟨hc₁.offset_le, hc₁.queue0, hc₁.queue1⟩
      exact Consistent.refreshLoop n hc₂ hrest
    · cases h
      exact hc

theorem Consistent.remove {q q' : LazyQueue V} (hc : q.Consistent) {index : ℤ} {v : Option V}
    (h : q.remove index = some (q', v)) : q'.Consistent := by
  unfold LazyQueue.remove at h
  split_ifs at h
  · cases h
    exact hc
  · obtain ⟨r, hr, hq'⟩ := Option.map_eq_some_iff.mp h
    cases hq'
    exact (hc.onQueue (keepsSetIndex_remove _) hr).1

theorem Consistent.update {q q' : LazyQueue V} (hc : q.Consistent) {index : ℤ}
    (h : q.update index = some q') : q'.Consistent := by
  obtain ⟨r, hr, h⟩ := Option.bind_eq_some_iff.mp h
  obtain ⟨v, -, hpush⟩ := Option.bind_eq_some_iff.mp h
  exact (Consistent.remove hc hr).push hpush |>.1

/-- `popQueue` is no part of the consistency. -/
theorem Consistent.withPopQueue {q : LazyQueue V} (hc : q.Consistent) (pq : Sstack V) :
    ({ q with popQueue := pq } : LazyQueue V).Consistent :=
  ⟨hc.offset_le, hc.queue0, hc.queue1⟩

theorem Consistent.pushBack : ∀ (n : ℕ) {q q' : LazyQueue V}, q.Consistent →
    LazyQueue.pushBack n q = some q' → q'.Consistent
  | 0, q, q', hc, h => by
    unfold LazyQueue.pushBack at h
    split_ifs at h
    cases h
    exact hc
  | n + 1, q, q', hc, h => by
    unfold LazyQueue.pushBack at h
    split_ifs at h
    · cases h
      exact hc
    · obtain ⟨r, -, h⟩ := Option.bind_eq_some_iff.mp h
      obtain ⟨q₁, hpush, hrest⟩ := Option.bind_eq_some_iff.mp h
      exact Consistent.pushBack n ((hc.withPopQueue r.1).push hpush).1 hrest

theorem Consistent.deliver {callback : V → Int64 → Bool} : ∀ (n : ℕ) {q : LazyQueue V}
    {k : ℤ} {out : List (V × Int64)} {d : LazyQueue V × ℤ × List (V × Int64) × Bool},
    q.Consistent → deliver callback n q k out = some d → d.1.Consistent
  | 0, q, k, out, d, hc, h => by
    unfold LazyQueue.deliver at h
    obtain ⟨b, -, h⟩ := Option.bind_eq_some_iff.mp h
    split_ifs at h
    cases h
    exact hc
  | n + 1, q, k, out, d, hc, h => by
    unfold LazyQueue.deliver at h
    obtain ⟨b, -, h⟩ := Option.bind_eq_some_iff.mp h
    split_ifs at h
    · obtain ⟨r, -, h⟩ := Option.bind_eq_some_iff.mp h
      obtain ⟨i, -, h⟩ := Option.bind_eq_some_iff.mp h
      dsimp only at h
      split_ifs at h
      · -- the callback stopped: what is left goes back into the queue
        obtain ⟨q₂, hback, rfl⟩ := Option.map_eq_some_iff.mp h
        exact Consistent.pushBack _ (hc.withPopQueue r.1) hback
      · obtain ⟨k', -, hrest⟩ := Option.bind_eq_some_iff.mp h
        exact Consistent.deliver n (hc.withPopQueue r.1) hrest
    · cases h
      exact hc

theorem Consistent.multiPopLoop {callback : V → Int64 → Bool} : ∀ (n : ℕ) {q : LazyQueue V}
    {k : ℤ} {out : List (V × Int64)} {d : LazyQueue V × List (V × Int64)},
    q.Consistent → multiPopLoop callback n q k out = some d → d.1.Consistent
  | 0, q, k, out, d, hc, h => by
    unfold LazyQueue.multiPopLoop at h
    split_ifs at h
    cases h
    exact hc
  | n + 1, q, k, out, d, hc, h => by
    unfold LazyQueue.multiPopLoop at h
    split_ifs at h
    · cases h
      exact hc
    · -- the best estimated item moves to `popQueue`, then `deliver`
      obtain ⟨r, hpop, h⟩ := Option.bind_eq_some_iff.mp h
      obtain ⟨pq, -, h⟩ := Option.bind_eq_some_iff.mp h
      dsimp only at h
      obtain ⟨k', -, h⟩ := Option.bind_eq_some_iff.mp h
      obtain ⟨d', hdeliver, h⟩ := Option.bind_eq_some_iff.mp h
      have hc' := Consistent.deliver _
        ((hc.onQueue keepsSetIndex_popValue hpop).1.withPopQueue pq) hdeliver
      split_ifs at h
      · cases h
        exact hc'
      · exact Consistent.multiPopLoop n hc' h

theorem Consistent.multiPop {q : LazyQueue V} {callback : V → Int64 → Bool}
    {d : LazyQueue V × List (V × Int64)} (hc : q.Consistent)
    (h : multiPop callback q = some d) : d.1.Consistent := by
  obtain ⟨k, -, h⟩ := Option.bind_eq_some_iff.mp h
  exact Consistent.multiPopLoop _ hc h

/-! ### Runs -/

/-- The operations of a `LazyQueue`. -/
inductive Op (V : Type*)
  | push (data : V)
  | update (index : ℤ)
  | remove (index : ℤ)
  | refresh (now : Int64)
  | multiPop (callback : V → Int64 → Bool)
  | pop
  | reset

/-- One operation. -/
def step (q : LazyQueue V) : Op V → Option (LazyQueue V)
  | .push data => q.push data
  | .update index => q.update index
  | .remove index => (q.remove index).map Prod.fst
  | .refresh now => q.Refresh now
  | .multiPop callback => (q.multiPop callback).map Prod.fst
  | .pop => q.pop.map Prod.fst
  | .reset => some q.reset

/-- A run of operations; a panic ends it. -/
def run (q : LazyQueue V) (ops : List (Op V)) : Option (LazyQueue V) :=
  ops.foldlM step q

/-- Every operation but `Reset` keeps the stacks consistent with `indexOffset`. -/
theorem Consistent.step {q q' : LazyQueue V} (hc : q.Consistent) {op : Op V} (hop : op ≠ .reset)
    (h : q.step op = some q') : q'.Consistent := by
  cases op with
  | push data => exact (hc.push h).1
  | update index => exact hc.update h
  | remove index =>
    obtain ⟨r, hr, rfl⟩ := Option.map_eq_some_iff.mp h
    exact hc.remove hr
  | refresh now => exact Consistent.refreshLoop 2 hc h
  | multiPop callback =>
    obtain ⟨r, hr, rfl⟩ := Option.map_eq_some_iff.mp h
    exact hc.multiPop hr
  | pop =>
    obtain ⟨r, hr, rfl⟩ := Option.map_eq_some_iff.mp h
    obtain ⟨d, hd, rfl⟩ := Option.map_eq_some_iff.mp hr
    exact hc.multiPop hd
  | reset => exact absurd rfl hop

theorem Consistent.run {q q' : LazyQueue V} (hc : q.Consistent) {ops : List (Op V)}
    (hops : ∀ op ∈ ops, op ≠ .reset) (h : q.run ops = some q') : q'.Consistent := by
  rw [LazyQueue.run, Run.foldlM_eq_run] at h
  exact Run.run_invariant_of_mem Consistent (fun _ op _ hop hq hstep => hq.step (hops op hop) hstep)
    hc h

/-- `NewLazyQueue` refreshes once: the queue is consistent, with `indexOffset` flipped to `1`. -/
theorem new_consistent (priority : V → Int64) (maxPriority : V → Int64 → Int64)
    (now period : Int64) :
    ∃ q, new priority maxPriority now period = some q ∧ q.Consistent ∧ q.indexOffset = 1 :=
  ⟨_, rfl, ⟨le_rfl, rfl, rfl⟩, rfl⟩

/-- After `NewLazyQueue` and `Reset`, a pushed value is reported at index `1`, and removing
index `1` goes to the other, empty stack and panics. -/
theorem new_reset_remove_misses (priority : V → Int64) (maxPriority : V → Int64 → Int64)
    (now period : Int64) (x : V) :
    ∃ q q', new priority maxPriority now period = some q ∧ q.reset.push x = some q' ∧
      q'.reports.getLast? = some (x, 1) ∧ q'.remove 1 = none := by
  obtain ⟨q, hnew, -, hoff⟩ := new_consistent priority maxPriority now period
  -- the push goes into the fresh `setIndex1` stack, at position `0`
  let s : Sstack V := { newSstack (some setIndex1) false with reports := q.reports }
  have hw : s.WF := (Sstack.newSstack_wf _ _).reports _
  obtain ⟨s', hpush, -⟩ := Sstack.push_spec hw ⟨x, q.maxPriority x q.maxUntil⟩
  obtain ⟨hsize, hreports⟩ := Sstack.push_size_reports hpush
  have hheap : HeapInterface.push Sstack.heap s (some ⟨x, q.maxPriority x q.maxUntil⟩) =
      some s' := by
    have hlen : Sstack.heap.len s' - 1 = 0 := by
      simp only [Sstack.heap, Sstack.len, hsize]
      rfl
    rw [HeapInterface.push, show Sstack.heap.push s _ = s.push _ from rfl, hpush, Option.bind_some,
      hlen, up_zero]
  refine ⟨q, { q.reset.setQueue 1 s' with reports := s'.reports }, hnew, ?_, ?_, ?_⟩
  · have hheap' : HeapInterface.push Sstack.heap { newSstack (some setIndex1) false with
        reports := q.reports } (some ⟨x, q.maxPriority x q.maxUntil⟩) = some s' := hheap
    simp only [push, onQueue, reset, queueAt, if_neg (show (1 : ℤ) ≠ 0 by decide), if_true,
      Option.bind_some, hheap', Option.map_some]
  · rw [hreports]
    simp [s, newSstack, setIndex1]
  · -- `1 & 1 ^ 1` is `0`: the other stack, which is empty
    have hslot : ((1 : ℤ).toNat % 2 ^^^ (reset q).indexOffset : ℕ) = 0 := by
      simp only [reset, hoff]
      rfl
    simp only [remove, setQueue, if_neg (show (1 : ℤ) ≠ 0 by decide), show ¬ (1 : ℤ) < 0 by decide,
      if_false]
    rw [show ((1 : ℤ).toNat % 2 ^^^ (reset q).indexOffset : ℕ) = 0 from hslot]
    simp [onQueue, queueAt, reset, HeapInterface.remove, Sstack.heap, Sstack.len, newSstack]

end LazyQueue

end Classzz.Prque
