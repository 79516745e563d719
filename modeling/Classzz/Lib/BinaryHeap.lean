import Mathlib

/-!
# A binary heap in a slice

Go's `container/heap` keeps a heap in any sequence that can compare and swap the elements at
two positions, `Less(i, j)` and `Swap(i, j)`. This file models it on a slice compared through
an element order `less`: a list, with `lessAt` and `swapAt` for the two calls, and the heap's
`up`, `down`, `Init`, `Fix`, and `Pop` for a slice whose own `Pop` cuts off its last element.

The first `n` positions are in heap order from `lo` (`OrderedFrom`) when no child among them
whose parent is at `lo` or later is less than its parent. While `down` sifts an element towards
the leaves the slice keeps `DownOrder`: the order holds except under the position the element
has reached, and that position's children are not less than its parent. `DownOrder.move` and
`DownOrder.finish` are the two ways one turn of the loop ends, and `downLoop_ordered` is the
loop. `Init` runs `down` from the last parent back to the root, each run widening the ordered
part by one parent (`init_ordered`). In an ordered heap no element is less than the root
(`root_min`), and `Fix` of the root and `Pop` give ordered heaps back.

What this needs of `less` is that it is a strict weak order: asymmetric, with "not less"
transitive (`WeakOrder`).
-/

namespace BinaryHeap

variable {α : Type*}

/-! ### The slice -/

/-- `Swap(i, j)`. Go panics outside the slice; the heap only swaps within it. -/
def swapAt (h : List α) (i j : ℕ) : List α :=
  match h[i]?, h[j]? with
  | some a, some b => (h.set i b).set j a
  | _, _ => h

@[simp] theorem length_swapAt (h : List α) (i j : ℕ) : (swapAt h i j).length = h.length := by
  unfold swapAt
  split <;> simp

/-- Within the slice, the swap reads each position through the transposition of `i` and `j`. -/
theorem getElem?_swapAt {h : List α} {i j : ℕ} (hi : i < h.length) (hj : j < h.length) (k : ℕ) :
    (swapAt h i j)[k]? = h[Equiv.swap i j k]? := by
  simp only [swapAt, List.getElem?_eq_getElem hi, List.getElem?_eq_getElem hj,
    List.getElem?_set, List.length_set, Equiv.swap_apply_def]
  by_cases hkj : k = j <;> by_cases hki : k = i <;> simp_all [Ne.symm]

theorem swapAt_perm (h : List α) (i j : ℕ) : (swapAt h i j).Perm h := by
  by_cases hij : i < h.length ∧ j < h.length
  · simp only [swapAt, List.getElem?_eq_getElem hij.1, List.getElem?_eq_getElem hij.2]
    exact List.set_set_perm hij.1 hij.2
  · unfold swapAt
    split
    · rename_i a b ha hb
      exact absurd ⟨(List.getElem?_eq_some_iff.mp ha).1, (List.getElem?_eq_some_iff.mp hb).1⟩ hij
    · exact List.Perm.refl h

theorem map_swapAt {β : Type*} (f : α → β) (h : List α) (i j : ℕ) :
    (swapAt h i j).map f = swapAt (h.map f) i j := by
  unfold swapAt
  rw [List.getElem?_map, List.getElem?_map]
  cases h[i]? <;> cases h[j]? <;> simp [List.map_set]

/-- A swap of two positions before `n` leaves the positions from `n` on as they were. -/
theorem getElem?_swapAt_of_le {h : List α} {i j n k : ℕ} (hi : i < n) (hj : j < n)
    (hn : n ≤ h.length) (hk : n ≤ k) : (swapAt h i j)[k]? = h[k]? := by
  rw [getElem?_swapAt (by omega) (by omega), Equiv.swap_apply_of_ne_of_ne (by omega) (by omega)]

variable (less : α → α → Bool)

/-- `Less(i, j)` of a slice compared by `less`; false outside the slice. -/
def lessAt (h : List α) (i j : ℕ) : Bool :=
  match h[i]?, h[j]? with
  | some a, some b => less a b
  | _, _ => false

theorem lessAt_of_lt {h : List α} {i j : ℕ} (hi : i < h.length) (hj : j < h.length) :
    lessAt less h i j = less h[i] h[j] := by
  simp [lessAt, List.getElem?_eq_getElem hi, List.getElem?_eq_getElem hj]

theorem lessAt_swapAt {h : List α} {i j : ℕ} (hi : i < h.length) (hj : j < h.length) (k l : ℕ) :
    lessAt less (swapAt h i j) k l = lessAt less h (Equiv.swap i j k) (Equiv.swap i j l) := by
  simp only [lessAt, getElem?_swapAt hi hj]

/-- Comparing within the first `n` of a slice is comparing within the whole. -/
theorem lessAt_take {h : List α} {n k l : ℕ} (hk : k < n) (hl : l < n) :
    lessAt less (h.take n) k l = lessAt less h k l := by
  simp only [lessAt, List.getElem?_take, hk, hl, if_true]

theorem lessAt_set_of_ne {h : List α} {p k l : ℕ} (x : α) (hk : k ≠ p) (hl : l ≠ p) :
    lessAt less (h.set p x) k l = lessAt less h k l := by
  simp only [lessAt, List.getElem?_set_ne (Ne.symm hk), List.getElem?_set_ne (Ne.symm hl)]

/-- What the heap needs of `less`: it is asymmetric, and not being less is transitive. -/
structure WeakOrder : Prop where
  asymm : ∀ a b, less a b = true → less b a = false
  not_trans : ∀ a b c, less a b = false → less b c = false → less a c = false

/-- An order read off a key in a linear order is a strict weak order. -/
theorem WeakOrder.of_key {β : Type*} [LinearOrder β] (key : α → β)
    (hkey : ∀ a b, less a b = decide (key a < key b)) : WeakOrder less where
  asymm a b h := by
    rw [hkey] at h ⊢
    exact decide_eq_false (lt_asymm (of_decide_eq_true h))
  not_trans a b c h₁ h₂ := by
    rw [hkey] at h₁ h₂ ⊢
    have hba : key b ≤ key a := not_lt.mp (of_decide_eq_false h₁)
    have hcb : key c ≤ key b := not_lt.mp (of_decide_eq_false h₂)
    exact decide_eq_false (not_lt.mpr (le_trans hcb hba))

/-! ### The heap's loops -/

/-- The parent of position `j`, `(j - 1) / 2`. The root is its own parent, as in Go's integer
division of `-1`. -/
def parent (j : ℕ) : ℕ := (j - 1) / 2

theorem parent_lt {j : ℕ} (hj : 0 < j) : parent j < j := by
  unfold parent
  omega

/-- The child of `i` that `down` compares with: the right one when it is among the first `n`
and less than the left one, else the left. -/
def minChild (h : List α) (n i : ℕ) : ℕ :=
  if 2 * i + 2 < n ∧ lessAt less h (2 * i + 2) (2 * i + 1) = true then 2 * i + 2 else 2 * i + 1

theorem parent_minChild (h : List α) (n i : ℕ) : parent (minChild less h n i) = i := by
  unfold minChild parent
  split_ifs <;> omega

theorem lt_minChild (h : List α) (n i : ℕ) : i < minChild less h n i := by
  unfold minChild
  split_ifs <;> omega

theorem minChild_lt (h : List α) {n i : ℕ} (hc : 2 * i + 1 < n) : minChild less h n i < n := by
  unfold minChild
  split_ifs with h₂
  · exact h₂.1
  · exact hc

/-- The loop of `down`: sift the element at `i` down among the first `n`, swapping it with its
lesser child while that child is less than it. The result is the slice and where it stopped. -/
def downLoop (h : List α) (i n : ℕ) : List α × ℕ :=
  if hc : 2 * i + 1 < n then
    if lessAt less h (minChild less h n i) i then
      downLoop (swapAt h i (minChild less h n i)) (minChild less h n i) n
    else (h, i)
  else (h, i)
termination_by n - i
decreasing_by
  have h₁ := lt_minChild less h n i
  have h₂ := minChild_lt less h hc
  omega

/-- `down`: the slice, and whether the element moved. -/
def down (h : List α) (i0 n : ℕ) : List α × Bool :=
  let r := downLoop less h i0 n
  (r.1, decide (r.2 > i0))

/-- `up`: swap the element at `j` with its parent while it is less than the parent. -/
def up (h : List α) (j : ℕ) : List α :=
  if hj : parent j = j ∨ lessAt less h j (parent j) = false then h
  else up (swapAt h (parent j) j) (parent j)
termination_by j
decreasing_by
  have hle : parent j ≤ j := by unfold parent; omega
  omega

/-- `heap.Init`: `down` from the last parent, `n / 2 - 1`, back to the root. -/
def init (h : List α) : List α :=
  let n := h.length
  (List.range (n / 2)).reverse.foldl (fun h i => (down less h i n).1) h

/-- `heap.Fix`: the order again after the element at `i` changed. -/
def fix (h : List α) (i : ℕ) : List α :=
  let r := down less h i h.length
  if r.2 then r.1 else up less r.1 i

/-- `heap.Pop` of a slice whose own `Pop` cuts off its last element (`old[0 : n-1]`): the root
goes to the end, the element put at the root sifts down among the others, and the end is cut
off and returned. On an empty slice `Swap(0, -1)` panics: `none`. -/
def pop (h : List α) : Option (List α × α) :=
  if h.length = 0 then none
  else
    let n := h.length - 1
    let h' := (down less (swapAt h 0 n) 0 n).1
    h'[n]?.map fun x => (h'.take n, x)

/-! ### What the loops keep of the slice -/

theorem downLoop_perm (h : List α) (i n : ℕ) : (downLoop less h i n).1.Perm h := by
  fun_induction downLoop less h i n with
  | case1 h i hc hlt ih => exact ih.trans (swapAt_perm h _ _)
  | case2 h i hc hlt => exact List.Perm.refl h
  | case3 h i hc => exact List.Perm.refl h

theorem length_downLoop (h : List α) (i n : ℕ) : (downLoop less h i n).1.length = h.length :=
  (downLoop_perm less h i n).length_eq

/-- `down` among the first `n` leaves the positions from `n` on as they were. -/
theorem getElem?_downLoop_of_le (h : List α) (i : ℕ) {n k : ℕ} (hn : n ≤ h.length)
    (hk : n ≤ k) : (downLoop less h i n).1[k]? = h[k]? := by
  fun_induction downLoop less h i n with
  | case1 h i hc hlt ih =>
    rw [ih (by simpa using hn), getElem?_swapAt_of_le (by omega)
      (minChild_lt less h hc) hn hk]
  | case2 => rfl
  | case3 => rfl

theorem up_zero (h : List α) : up less h 0 = h := by
  rw [up]
  simp [parent]

/-- `Fix` of the root is `down` from the root: `up` from the root does nothing. -/
theorem fix_zero (h : List α) : fix less h 0 = (downLoop less h 0 h.length).1 := by
  simp only [fix, down, up_zero, ite_self]

theorem fix_zero_perm (h : List α) : (fix less h 0).Perm h := by
  rw [fix_zero]
  exact downLoop_perm less h 0 _

/-- Runs of `down` among the first `n`, from any positions, only permute the slice. -/
theorem foldl_down_perm (n : ℕ) :
    ∀ (is : List ℕ) (h : List α), (is.foldl (fun h i => (down less h i n).1) h).Perm h
  | [], h => List.Perm.refl h
  | i :: is, h => (foldl_down_perm n is _).trans (downLoop_perm less h i n)

theorem init_perm (h : List α) : (init less h).Perm h :=
  foldl_down_perm less _ _ h

/-! ### Heap order -/

/-- Heap order among the first `n` from `lo`: no child there whose parent is at `lo` or later is
less than its parent. -/
def OrderedFrom (h : List α) (n lo : ℕ) : Prop :=
  ∀ k, 0 < k → k < n → lo ≤ parent k → lessAt less h k (parent k) = false

/-- What `down` keeps while the element it sifts is at `i`: the order from `lo` holds except
under `i`, and the children of `i` are not less than the parent of `i`. -/
structure DownOrder (h : List α) (n lo i : ℕ) : Prop where
  lo_le : lo ≤ i
  except : ∀ k, 0 < k → k < n → lo ≤ parent k → parent k ≠ i → lessAt less h k (parent k) = false
  grand : 0 < i → lo ≤ parent i → ∀ c, c < n → parent c = i →
    lessAt less h c (parent i) = false

section Order

variable {less} (hw : WeakOrder less)
include hw

theorem WeakOrder.irrefl (a : α) : less a a = false := by
  cases h : less a a
  · rfl
  · exact absurd (hw.asymm a a h) (by simp [h])

theorem lessAt_asymm {h : List α} {i j : ℕ} (hlt : lessAt less h i j = true) :
    lessAt less h j i = false := by
  unfold lessAt at hlt ⊢
  split at hlt
  · rename_i a b ha hb
    simp only [ha, hb]
    exact hw.asymm a b hlt
  · cases hlt

theorem lessAt_irrefl (h : List α) (i : ℕ) : lessAt less h i i = false := by
  unfold lessAt
  split
  · rename_i a b ha hb
    rw [ha, Option.some.injEq] at hb
    rw [hb]
    exact hw.irrefl b
  · rfl

/-- Not being less passes through a position of the slice. -/
theorem lessAt_not_trans {h : List α} {i j k : ℕ} (hj : j < h.length)
    (h₁ : lessAt less h i j = false) (h₂ : lessAt less h j k = false) :
    lessAt less h i k = false := by
  by_cases hik : i < h.length ∧ k < h.length
  · rw [lessAt_of_lt less hik.1 hj] at h₁
    rw [lessAt_of_lt less hj hik.2] at h₂
    rw [lessAt_of_lt less hik.1 hik.2]
    exact hw.not_trans _ _ _ h₁ h₂
  · unfold lessAt
    split
    · rename_i a b ha hb
      exact absurd ⟨(List.getElem?_eq_some_iff.mp ha).1, (List.getElem?_eq_some_iff.mp hb).1⟩ hik
    · rfl

/-- The child `down` picks is not more than either child. -/
theorem minChild_min {h : List α} {n i c : ℕ} (hc0 : 0 < c) (hc : c < n)
    (hpc : parent c = i) : lessAt less h c (minChild less h n i) = false := by
  have hchild : c = 2 * i + 1 ∨ c = 2 * i + 2 := by unfold parent at hpc; omega
  unfold minChild
  split_ifs with hright
  · rcases hchild with rfl | rfl
    · exact lessAt_asymm hw hright.2
    · exact lessAt_irrefl hw h _
  · rcases hchild with rfl | rfl
    · exact lessAt_irrefl hw h _
    · simpa [hc] using hright

/-- One turn of `down` that swaps: the order it keeps moves with the element. -/
theorem DownOrder.move {h : List α} {n lo i : ℕ} (hn : n ≤ h.length)
    (o : DownOrder less h n lo i) (hc : 2 * i + 1 < n)
    (hlt : lessAt less h (minChild less h n i) i = true) :
    DownOrder less (swapAt h i (minChild less h n i)) n lo (minChild less h n i) := by
  have hpj := parent_minChild less h n i
  have hij := lt_minChild less h n i
  have hjn := minChild_lt less h hc
  have hmin : ∀ c, 0 < c → c < n → parent c = i → lessAt less h c (minChild less h n i) = false :=
    fun c hc0 hcn hpc => minChild_min hw hc0 hcn hpc
  generalize minChild less h n i = j at hpj hij hjn hlt hmin ⊢
  have hi : i < h.length := by omega
  have hj : j < h.length := by omega
  refine ⟨by have := o.lo_le; omega, ?_, ?_⟩
  · intro k hk0 hkn hlo hkj
    rw [lessAt_swapAt less hi hj]
    -- the element moved down, the child moved up, and everything else in place
    by_cases hkj' : k = j
    · rw [hkj', Equiv.swap_apply_right, hpj, Equiv.swap_apply_left]
      exact lessAt_asymm hw hlt
    by_cases hki : k = i
    · have hi0 : 0 < i := hki ▸ hk0
      have hpi := parent_lt hi0
      rw [hki, Equiv.swap_apply_left, Equiv.swap_apply_of_ne_of_ne (by omega) (by omega)]
      exact o.grand hi0 (hki ▸ hlo) j hjn hpj
    rw [Equiv.swap_apply_of_ne_of_ne hki hkj']
    by_cases hpk : parent k = i
    · rw [hpk, Equiv.swap_apply_left]
      exact hmin k hk0 hkn hpk
    · rw [Equiv.swap_apply_of_ne_of_ne hpk hkj]
      exact o.except k hk0 hkn hlo hpk
  · intro _ hlo c hcn hpc
    have hci : c ≠ i := by have := parent_lt (show 0 < c by unfold parent at hpc; omega); omega
    have hcj : c ≠ j := by have := parent_lt (show 0 < c by unfold parent at hpc; omega); omega
    rw [lessAt_swapAt less hi hj, hpj, Equiv.swap_apply_of_ne_of_ne hci hcj, Equiv.swap_apply_left,
      ← hpc]
    exact o.except c (by unfold parent at hpc; omega) hcn (by have := o.lo_le; omega) (by omega)

/-- The turn of `down` that stops: the order holds under `i` too. -/
theorem DownOrder.finish {h : List α} {n lo i : ℕ} (o : DownOrder less h n lo i)
    (hn : n ≤ h.length) (hstop : 2 * i + 1 < n → lessAt less h (minChild less h n i) i = false) :
    OrderedFrom less h n lo := by
  intro k hk0 hkn hlo
  by_cases hpk : parent k = i
  · have hc : 2 * i + 1 < n := by unfold parent at hpk; omega
    have hj := minChild_lt less h hc
    rw [hpk]
    exact lessAt_not_trans hw (by omega) (minChild_min hw hk0 hkn hpk) (hstop hc)
  · exact o.except k hk0 hkn hlo hpk

/-- `down` from a slice in `DownOrder` leaves the first `n` in order from `lo`. -/
theorem downLoop_ordered {h : List α} {i n lo : ℕ} (hn : n ≤ h.length)
    (o : DownOrder less h n lo i) : OrderedFrom less (downLoop less h i n).1 n lo := by
  fun_induction downLoop less h i n with
  | case1 h i hc hlt ih => exact ih (by simpa using hn) (o.move hw hn hc hlt)
  | case2 h i hc hlt => exact o.finish hw hn fun _ => by simpa using hlt
  | case3 h i hc => exact o.finish hw hn fun hc' => absurd hc' hc

omit hw in
/-- Order from the next position is where `down` starts at `i`. -/
theorem DownOrder.start {h : List α} {n i : ℕ} (ho : OrderedFrom less h n (i + 1)) :
    DownOrder less h n i i where
  lo_le := le_rfl
  except k hk0 hkn hlo hpk := ho k hk0 hkn (by omega)
  grand hi hlo := absurd hlo (by have := parent_lt hi; omega)

omit hw in
/-- From the last parent on there is nothing to order. -/
theorem orderedFrom_half (h : List α) (n : ℕ) : OrderedFrom less h n (n / 2) := by
  intro k hk0 hkn hlo
  unfold parent at hlo
  omega

/-- `Init`'s loop: each run of `down` orders one more parent, down to the root. -/
theorem foldl_down_ordered {n : ℕ} : ∀ (m : ℕ) {h : List α}, n ≤ h.length →
    OrderedFrom less h n m →
    OrderedFrom less ((List.range m).reverse.foldl (fun h i => (down less h i n).1) h) n 0
  | 0, _, _, ho => ho
  | m + 1, h, hn, ho => by
    rw [List.range_succ, List.reverse_append, List.reverse_singleton, List.singleton_append,
      List.foldl_cons]
    exact foldl_down_ordered m (by rw [down, length_downLoop]; exact hn)
      (downLoop_ordered hw hn (DownOrder.start ho))

theorem init_ordered (h : List α) : OrderedFrom less (init less h) (init less h).length 0 := by
  rw [(init_perm less h).length_eq]
  exact foldl_down_ordered hw _ le_rfl (orderedFrom_half h _)

/-- No element of an ordered heap is less than its root. -/
theorem root_min {h : List α} {n : ℕ} (hn : n ≤ h.length) (ho : OrderedFrom less h n 0) :
    ∀ k < n, lessAt less h k 0 = false := by
  intro k
  induction k using Nat.strong_induction_on with
  | _ k ih =>
    intro hk
    rcases Nat.eq_zero_or_pos k with rfl | hk0
    · exact lessAt_irrefl hw h 0
    · have hpk := parent_lt hk0
      exact lessAt_not_trans hw (by omega) (ho k hk0 hk (Nat.zero_le _)) (ih _ hpk (by omega))

omit hw in
theorem OrderedFrom.take {h : List α} {n lo : ℕ} (ho : OrderedFrom less h n lo) :
    OrderedFrom less (h.take n) n lo := by
  intro k hk0 hkn hlo
  rw [lessAt_take less hkn (Nat.lt_trans (parent_lt hk0) hkn)]
  exact ho k hk0 hkn hlo

omit hw in
/-- A new root of an ordered heap is where `down` starts at the root. -/
theorem downOrder_set_zero {h : List α} {n : ℕ} (ho : OrderedFrom less h n 0) (x : α) :
    DownOrder less (h.set 0 x) n 0 0 where
  lo_le := le_rfl
  except k hk0 hkn hlo hpk := by
    rw [lessAt_set_of_ne less x (by omega) hpk]
    exact ho k hk0 hkn hlo
  grand hi := absurd hi (lt_irrefl 0)

/-- `Fix` of a new root gives an ordered heap back. -/
theorem fix_set_zero_ordered {h : List α} (ho : OrderedFrom less h h.length 0) (x : α) :
    OrderedFrom less (fix less (h.set 0 x) 0) h.length 0 := by
  rw [fix_zero, List.length_set]
  exact downLoop_ordered hw (by simp) (downOrder_set_zero ho x)

end Order

/-! ### `Pop` -/

/-- A slice is its first `n` and then its element at `n`, when that is the last. -/
theorem take_append_of_getElem? {d : List α} {n : ℕ} {y : α} (hlen : d.length = n + 1)
    (hdn : d[n]? = some y) : d.take n ++ [y] = d := by
  rw [← Option.toList_some, ← hdn, ← List.take_add_one, List.take_of_length_le (by omega)]

/-- `Pop` of a slice that has something: the root, and the rest after the last element took
its place and sifted down. -/
theorem pop_eq_some {h : List α} (hne : 0 < h.length) :
    pop less h = some ((downLoop less (swapAt h 0 (h.length - 1)) 0 (h.length - 1)).1.take
      (h.length - 1), h[0]) := by
  have hlast : h.length - 1 < h.length := by omega
  rw [pop, if_neg (by omega)]
  simp only [down]
  rw [getElem?_downLoop_of_le less _ _ (by simp) le_rfl, getElem?_swapAt hne hlast,
    Equiv.swap_apply_right, List.getElem?_eq_getElem hne]
  rfl

theorem pop_eq_none_iff (h : List α) : pop less h = none ↔ h = [] := by
  rcases Nat.eq_zero_or_pos h.length with h0 | h0
  · rw [pop, if_pos h0]
    simpa using h0
  · rw [pop_eq_some less h0]
    simpa using List.ne_nil_of_length_pos h0

/-- `Pop` takes out one element and keeps the others, whatever the order. -/
theorem pop_perm {h h' : List α} {x : α} (hp : pop less h = some (h', x)) : (x :: h').Perm h := by
  have hne : 0 < h.length := by
    rcases Nat.eq_zero_or_pos h.length with h0 | h0
    · rw [pop, if_pos h0] at hp
      cases hp
    · exact h0
  rw [pop_eq_some less hne, Option.some.injEq, Prod.mk.injEq] at hp
  obtain ⟨rfl, rfl⟩ := hp
  obtain ⟨n, hn⟩ : ∃ n, n + 1 = h.length := ⟨h.length - 1, by omega⟩
  rw [show h.length - 1 = n by omega]
  generalize hd : (downLoop less (swapAt h 0 n) 0 n).1 = d
  have hdlen : d.length = n + 1 := by rw [← hd, length_downLoop, length_swapAt, hn]
  have hdn : d[n]? = some h[0] := by
    rw [← hd, getElem?_downLoop_of_le less _ _ (by simp; omega) le_rfl,
      getElem?_swapAt hne (by omega), Equiv.swap_apply_right, List.getElem?_eq_getElem hne]
  -- the cut slice and the root make up the sifted slice
  have hroot : (h[0] :: d.take n).Perm d := by
    have hperm := (List.perm_append_singleton h[0] (d.take n)).symm
    rwa [take_append_of_getElem? hdlen hdn] at hperm
  exact hroot.trans ((hd ▸ downLoop_perm less _ 0 n).trans (swapAt_perm h 0 n))

section PopOrder

variable {less} (hw : WeakOrder less)
include hw

omit hw in
/-- After the root and the last element swap, `down` starts at the root of the rest. -/
theorem downOrder_swapAt_last {h : List α} {n : ℕ} (ho : OrderedFrom less h h.length 0)
    (hn : n + 1 = h.length) : DownOrder less (swapAt h 0 n) n 0 0 where
  lo_le := le_rfl
  except k hk0 hkn hlo hpk := by
    have hpk' := parent_lt hk0
    rw [lessAt_swapAt less (by omega) (by omega), Equiv.swap_apply_of_ne_of_ne (by omega) (by omega),
      Equiv.swap_apply_of_ne_of_ne hpk (by omega)]
    exact ho k hk0 (by omega) hlo
  grand hi := absurd hi (Nat.lt_irrefl 0)

/-- `Pop` of an ordered heap returns its root and leaves the rest ordered. -/
theorem pop_spec {h h' : List α} {x : α} (ho : OrderedFrom less h h.length 0)
    (hp : pop less h = some (h', x)) :
    h.head? = some x ∧ (x :: h').Perm h ∧ OrderedFrom less h' h'.length 0 := by
  have hperm := pop_perm less hp
  have hne : 0 < h.length := List.length_pos_of_ne_nil fun h0 => by
    rw [h0, List.perm_nil] at hperm
    cases hperm
  rw [pop_eq_some less hne, Option.some.injEq, Prod.mk.injEq] at hp
  obtain ⟨rfl, rfl⟩ := hp
  refine ⟨by simp [List.head?_eq_getElem?, List.getElem?_eq_getElem hne], hperm, ?_⟩
  obtain ⟨n, hn⟩ : ∃ n, n + 1 = h.length := ⟨h.length - 1, by omega⟩
  rw [show h.length - 1 = n by omega]
  generalize hd : (downLoop less (swapAt h 0 n) 0 n).1 = d
  have hlen : (d.take n).length = n := by
    rw [List.length_take, ← hd, length_downLoop, length_swapAt]
    omega
  rw [hlen]
  exact (hd ▸ downLoop_ordered hw (by simp; omega) (downOrder_swapAt_last ho hn)).take

end PopOrder

end BinaryHeap
