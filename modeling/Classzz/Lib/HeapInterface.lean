import Classzz.Lib.BinaryHeapSift

/-!
# `container/heap` over an interface

The heap algorithms as they drive a container through its own `Len`, `Less`, `Swap`, `Push` and
`Pop`, any of which may panic (`none`). Positions are natural numbers: the one negative position
the algorithms form, `Len() - 1` of an empty container, is an index no container has, and the
`Swap` it is passed to panics.

A container `Simulates` a slice of abstract elements when, under its invariant, its operations
within range act on that slice as the slice's own operations do. The heap algorithms then act on
the container as `BinaryHeap`'s act on the slice (`up_sim`, `push_sim`, `pop_sim`,
`remove_sim`), so the order and the contents proved there hold of the container.
-/

namespace HeapInterface

open BinaryHeap

/-- `heap.Interface`, with the panics of its methods as `none`. -/
structure Interface (σ α : Type*) where
  len : σ → ℕ
  less : σ → ℕ → ℕ → Option Bool
  swap : σ → ℕ → ℕ → Option σ
  push : σ → α → Option σ
  pop : σ → Option (σ × α)

variable {σ α : Type*} (I : Interface σ α)

/-- `up(h, j)`. -/
def up (s : σ) (j : ℕ) : Option σ :=
  if hj : parent j = j then some s
  else
    match I.less s j (parent j) with
    | some true => (I.swap s (parent j) j).bind fun s' => up s' (parent j)
    | some false => some s
    | none => none
termination_by j
decreasing_by
  have hle : parent j ≤ j := by unfold parent; omega
  omega

theorem up_zero (s : σ) : up I s 0 = some s := by
  rw [up, dif_pos (show parent 0 = 0 from rfl)]

/-- The child `down` compares with: the right one if it is among the first `n` and less than the
left one. -/
def pickChild (s : σ) (i n : ℕ) : Option ℕ :=
  if 2 * i + 2 < n then
    (I.less s (2 * i + 2) (2 * i + 1)).map fun b => if b then 2 * i + 2 else 2 * i + 1
  else some (2 * i + 1)

theorem pickChild_bounds {s : σ} {i n j : ℕ} (hc : 2 * i + 1 < n) (hj : pickChild I s i n = some j) :
    i < j ∧ j < n := by
  unfold pickChild at hj
  split_ifs at hj with h₂
  · obtain ⟨b, -, hb⟩ := Option.map_eq_some_iff.mp hj
    cases b <;> simp at hb <;> omega
  · cases hj
    omega

/-- The loop of `down(h, i0, n)`: the container and the position the element stopped at. -/
def downLoop (s : σ) (i n : ℕ) : Option (σ × ℕ) :=
  if hc : 2 * i + 1 < n then
    match hj : pickChild I s i n with
    | none => none
    | some j =>
      match I.less s j i with
      | some true => (I.swap s i j).bind fun s' => downLoop s' j n
      | some false => some (s, i)
      | none => none
  else some (s, i)
termination_by n - i
decreasing_by
  have := pickChild_bounds I hc hj
  omega

/-- `down(h, i0, n)`: the container, and whether the element moved. -/
def down (s : σ) (i0 n : ℕ) : Option (σ × Bool) :=
  (downLoop I s i0 n).map fun r => (r.1, decide (r.2 > i0))

/-- `heap.Push`. -/
def push (s : σ) (x : α) : Option σ :=
  (I.push s x).bind fun s' => up I s' (I.len s' - 1)

/-- `heap.Pop`: the root goes to the end, the new root sifts down among the rest, and the
container pops its end. On an empty container `Swap(0, -1)` panics. -/
def pop (s : σ) : Option (σ × α) :=
  if I.len s = 0 then none
  else
    let n := I.len s - 1
    (I.swap s 0 n).bind fun s₁ => (down I s₁ 0 n).bind fun r => I.pop r.1

/-- `if !down(h, i, n) { up(h, i) }`. -/
def downOrUp (s : σ) (i n : ℕ) : Option σ :=
  (down I s i n).bind fun r => if r.2 then some r.1 else up I r.1 i

/-- `heap.Remove(h, i)`: the last element takes the place of the one at `i`, sifts down or up,
and the container pops its end. On an empty container `Swap(i, -1)` panics. -/
def remove (s : σ) (i : ℕ) : Option (σ × α) :=
  if I.len s = 0 then none
  else
    let n := I.len s - 1
    (if n ≠ i then (I.swap s i n).bind fun s₁ => downOrUp I s₁ i n else some s).bind I.pop

/-- A turn of `down`'s loop once the child to compare with is picked. -/
theorem downLoop_pick {s : σ} {i n j : ℕ} (hc : 2 * i + 1 < n) (hj : pickChild I s i n = some j) :
    downLoop I s i n = match I.less s j i with
      | some true => (I.swap s i j).bind fun s' => downLoop I s' j n
      | some false => some (s, i)
      | none => none := by
  rw [downLoop, dif_pos hc]
  split
  · rename_i hnone
    rw [hj] at hnone
    cases hnone
  · rename_i j' hj'
    rw [hj] at hj'
    cases hj'
    rfl

/-- What a container must do for the heap algorithms to act on it as on the slice `abs s` of
abstract elements, `lift` being how an abstract element is handed to the container. -/
structure Simulates {β : Type*} (less : β → β → Bool) (abs : σ → List β) (lift : β → α)
    (Inv : σ → Prop) : Prop where
  len_eq : ∀ s, Inv s → I.len s = (abs s).length
  less_eq : ∀ s i j, Inv s → i < I.len s → j < I.len s →
    I.less s i j = some (lessAt less (abs s) i j)
  swap_eq : ∀ s i j, Inv s → i < I.len s → j < I.len s →
    ∃ s', I.swap s i j = some s' ∧ Inv s' ∧ abs s' = swapAt (abs s) i j
  push_eq : ∀ s x, Inv s → ∃ s', I.push s (lift x) = some s' ∧ Inv s' ∧ abs s' = abs s ++ [x]
  pop_eq : ∀ s, Inv s → 0 < I.len s →
    ∃ s' x, I.pop s = some (s', lift x) ∧ Inv s' ∧ abs s = abs s' ++ [x]

section Sim

variable {I} {β : Type*} {less : β → β → Bool} {abs : σ → List β} {lift : β → α}
  {Inv : σ → Prop} (hs : Simulates I less abs lift Inv)
include hs

theorem up_sim {s : σ} (hinv : Inv s) {j : ℕ} (hj : j < I.len s) :
    ∃ s', up I s j = some s' ∧ Inv s' ∧ abs s' = BinaryHeap.up less (abs s) j := by
  induction j using Nat.strong_induction_on generalizing s with
  | _ j ih =>
    by_cases hroot : parent j = j
    · -- at the root `up` stops at once
      refine ⟨s, ?_, hinv, ?_⟩
      · rw [up, dif_pos hroot]
      · rw [BinaryHeap.up, dif_pos (Or.inl hroot)]
    have hpj : parent j < j := by unfold parent at hroot ⊢; omega
    have hless := hs.less_eq s j (parent j) hinv hj (by omega)
    cases hlt : lessAt less (abs s) j (parent j) with
    | false =>
      refine ⟨s, ?_, hinv, ?_⟩
      · rw [up, dif_neg hroot, hless, hlt]
      · rw [BinaryHeap.up, dif_pos (Or.inr hlt)]
    | true =>
      -- one swap with the parent, then `up` from the parent's position
      obtain ⟨s₁, hswap, hinv₁, habs₁⟩ := hs.swap_eq s (parent j) j hinv (by omega) hj
      have hlen₁ : I.len s₁ = I.len s := by
        rw [hs.len_eq s₁ hinv₁, hs.len_eq s hinv, habs₁, length_swapAt]
      obtain ⟨s', hup, hinv', habs'⟩ := ih (parent j) hpj hinv₁ (by omega)
      refine ⟨s', ?_, hinv', ?_⟩
      · rw [up, dif_neg hroot, hless, hlt]
        simpa [hswap] using hup
      · rw [BinaryHeap.up, dif_neg (by simp [hroot, hlt]), habs', habs₁]

theorem pickChild_sim {s : σ} (hinv : Inv s) {i n : ℕ} (hn : n ≤ I.len s) (hc : 2 * i + 1 < n) :
    pickChild I s i n = some (minChild less (abs s) n i) := by
  unfold pickChild minChild
  by_cases h₂ : 2 * i + 2 < n
  · rw [if_pos h₂, hs.less_eq s _ _ hinv (by omega) (by omega)]
    by_cases hlt : lessAt less (abs s) (2 * i + 2) (2 * i + 1) = true <;> simp [h₂, hlt]
  · rw [if_neg h₂, if_neg (fun h => h₂ h.1)]

theorem downLoop_sim {s : σ} (hinv : Inv s) {i n : ℕ} (hn : n ≤ I.len s) :
    ∃ s', downLoop I s i n = some (s', (BinaryHeap.downLoop less (abs s) i n).2) ∧ Inv s' ∧
      abs s' = (BinaryHeap.downLoop less (abs s) i n).1 := by
  induction hk : n - i using Nat.strong_induction_on generalizing s i with
  | _ k ih =>
    by_cases hc : 2 * i + 1 < n
    · have hpick := pickChild_sim hs hinv hn hc
      have hj := minChild_lt less (abs s) hc
      have hij := lt_minChild less (abs s) n i
      have hless := hs.less_eq s (minChild less (abs s) n i) i hinv (by omega) (by omega)
      cases hlt : lessAt less (abs s) (minChild less (abs s) n i) i with
      | false =>
        refine ⟨s, ?_, hinv, ?_⟩
        · rw [downLoop_pick I hc hpick, hless, hlt, BinaryHeap.downLoop, dif_pos hc,
            if_neg (by simp [hlt])]
        · rw [BinaryHeap.downLoop, dif_pos hc, if_neg (by simp [hlt])]
      | true =>
        -- one swap with the lesser child, then the loop from the child's position
        obtain ⟨s₁, hswap, hinv₁, habs₁⟩ :=
          hs.swap_eq s i (minChild less (abs s) n i) hinv (by omega) (by omega)
        have hlen₁ : I.len s₁ = I.len s := by
          rw [hs.len_eq s₁ hinv₁, hs.len_eq s hinv, habs₁, length_swapAt]
        obtain ⟨s', hloop, hinv', habs'⟩ :=
          ih (n - minChild less (abs s) n i) (by omega) hinv₁ (by omega) rfl
        have hstep : BinaryHeap.downLoop less (abs s) i n = BinaryHeap.downLoop less
            (swapAt (abs s) i (minChild less (abs s) n i)) (minChild less (abs s) n i) n := by
          rw [BinaryHeap.downLoop, dif_pos hc, if_pos hlt]
        rw [habs₁] at hloop habs'
        refine ⟨s', ?_, hinv', ?_⟩
        · rw [downLoop_pick I hc hpick, hless, hlt, hstep, hswap, Option.bind_some]
          exact hloop
        · rw [hstep, habs']
    · refine ⟨s, ?_, hinv, ?_⟩
      · rw [downLoop, dif_neg hc, BinaryHeap.downLoop, dif_neg hc]
      · rw [BinaryHeap.downLoop, dif_neg hc]

theorem down_sim {s : σ} (hinv : Inv s) {i n : ℕ} (hn : n ≤ I.len s) :
    ∃ s', down I s i n = some (s', (BinaryHeap.down less (abs s) i n).2) ∧ Inv s' ∧
      abs s' = (BinaryHeap.down less (abs s) i n).1 := by
  obtain ⟨s', hloop, hinv', habs'⟩ := downLoop_sim hs hinv (i := i) hn
  exact ⟨s', by simp [down, hloop, BinaryHeap.down], hinv', habs'⟩

/-- `heap.Push` pushes onto the slice and sifts up, as `BinaryHeap.push`. -/
theorem push_sim {s : σ} (hinv : Inv s) (x : β) :
    ∃ s', push I s (lift x) = some s' ∧ Inv s' ∧ abs s' = BinaryHeap.push less (abs s) x := by
  obtain ⟨s₁, hpush, hinv₁, habs₁⟩ := hs.push_eq s x hinv
  have hlen₁ : I.len s₁ = (abs s).length + 1 := by
    rw [hs.len_eq s₁ hinv₁, habs₁, List.length_append, List.length_singleton]
  obtain ⟨s', hup, hinv', habs'⟩ := up_sim hs hinv₁ (j := (abs s).length) (by omega)
  refine ⟨s', ?_, hinv', ?_⟩
  · rw [push, hpush, Option.bind_some, hlen₁, Nat.add_sub_cancel]
    exact hup
  · rw [habs', habs₁, BinaryHeap.push]

/-- The container's own `Pop`: its end is cut off and returned. -/
theorem pop_last {s : σ} (hinv : Inv s) {n : ℕ} (hlen : I.len s = n + 1) :
    ∃ s' x, I.pop s = some (s', lift x) ∧ Inv s' ∧ abs s' = (abs s).take n ∧
      (abs s)[n]? = some x := by
  obtain ⟨s', x, hpop, hinv', habs⟩ := hs.pop_eq s hinv (by omega)
  have hlen' : (abs s').length = n := by
    have := hs.len_eq s hinv
    rw [habs, List.length_append, List.length_singleton] at this
    omega
  refine ⟨s', x, hpop, hinv', ?_, ?_⟩
  · rw [habs, List.take_left' hlen']
  · rw [habs, List.getElem?_append_right (by omega), hlen', Nat.sub_self]
    rfl

/-- `heap.Pop` pops the slice as `BinaryHeap.pop` does. -/
theorem pop_sim {s : σ} (hinv : Inv s) {h' : List β} {x : β}
    (hp : BinaryHeap.pop less (abs s) = some (h', x)) :
    ∃ s', pop I s = some (s', lift x) ∧ Inv s' ∧ abs s' = h' := by
  have hne : 0 < (abs s).length := by
    rcases Nat.eq_zero_or_pos (abs s).length with h0 | h0
    · rw [BinaryHeap.pop, if_pos h0] at hp
      cases hp
    · exact h0
  obtain ⟨n, hn⟩ : ∃ n, (abs s).length = n + 1 := ⟨(abs s).length - 1, by omega⟩
  have hlen := hs.len_eq s hinv
  obtain ⟨s₁, hswap, hinv₁, habs₁⟩ := hs.swap_eq s 0 n hinv (by omega) (by omega)
  obtain ⟨s₂, hdown, hinv₂, habs₂⟩ := down_sim hs hinv₁ (i := 0) (n := n)
    (by rw [hs.len_eq s₁ hinv₁, habs₁, length_swapAt]; omega)
  have hlen₂ : I.len s₂ = n + 1 := by
    rw [hs.len_eq s₂ hinv₂, habs₂, habs₁]
    simp [BinaryHeap.down, length_downLoop, hn]
  obtain ⟨s', y, hpop, hinv', htake, hlast⟩ := pop_last hs hinv₂ hlen₂
  -- the slice `BinaryHeap.pop` cuts is the one the container popped
  rw [BinaryHeap.pop, if_neg (by omega)] at hp
  simp only [hn, Nat.add_sub_cancel] at hp
  rw [← habs₁, ← habs₂, hlast, Option.map_some, Option.some.injEq, Prod.mk.injEq] at hp
  obtain ⟨rfl, rfl⟩ := hp
  refine ⟨s', ?_, hinv', htake⟩
  rw [pop, if_neg (by omega)]
  simp only [show I.len s - 1 = n by omega]
  rw [hswap, Option.bind_some, hdown, Option.bind_some]
  exact hpop

theorem downOrUp_sim {s : σ} (hinv : Inv s) {i n : ℕ} (hi : i < n) (hn : n ≤ I.len s) :
    ∃ s', downOrUp I s i n = some s' ∧ Inv s' ∧ abs s' = BinaryHeap.downOrUp less (abs s) i n := by
  obtain ⟨s₁, hdown, hinv₁, habs₁⟩ := down_sim hs hinv (i := i) hn
  rw [downOrUp, hdown, Option.bind_some]
  cases hmoved : (BinaryHeap.down less (abs s) i n).2 with
  | true =>
    refine ⟨s₁, rfl, hinv₁, ?_⟩
    simp only [BinaryHeap.downOrUp, hmoved, if_true]
    exact habs₁
  | false =>
    have hlen₁ : I.len s₁ = I.len s := by
      rw [hs.len_eq s₁ hinv₁, hs.len_eq s hinv, habs₁]
      simp [BinaryHeap.down, length_downLoop]
    obtain ⟨s', hup, hinv', habs'⟩ := up_sim hs hinv₁ (j := i) (by omega)
    refine ⟨s', by simpa using hup, hinv', ?_⟩
    simp only [BinaryHeap.downOrUp, hmoved, Bool.false_eq_true, if_false]
    rw [habs', habs₁]

/-- `heap.Remove` removes from the slice as `BinaryHeap.remove` does. -/
theorem remove_sim {s : σ} (hinv : Inv s) {i : ℕ} {h' : List β} {x : β}
    (hr : BinaryHeap.remove less (abs s) i = some (h', x)) :
    ∃ s', remove I s i = some (s', lift x) ∧ Inv s' ∧ abs s' = h' := by
  have hi : i < (abs s).length := by
    by_contra hi
    rw [BinaryHeap.remove, if_neg hi] at hr
    cases hr
  obtain ⟨n, hn⟩ : ∃ n, (abs s).length = n + 1 := ⟨(abs s).length - 1, by omega⟩
  have hlen := hs.len_eq s hinv
  -- the container before its `Pop`, and the slice it stands for
  obtain ⟨s₂, hpre, hinv₂, habs₂⟩ : ∃ s₂, (if n ≠ i then (I.swap s i n).bind fun s₁ =>
      downOrUp I s₁ i n else some s) = some s₂ ∧ Inv s₂ ∧
      abs s₂ = if n ≠ i then BinaryHeap.downOrUp less (swapAt (abs s) i n) i n else abs s := by
    by_cases hni : n ≠ i
    · obtain ⟨s₁, hswap, hinv₁, habs₁⟩ := hs.swap_eq s i n hinv (by omega) (by omega)
      obtain ⟨s₂, hdu, hinv₂, habs₂⟩ := downOrUp_sim hs hinv₁ (i := i) (n := n) (by omega)
        (by rw [hs.len_eq s₁ hinv₁, habs₁, length_swapAt]; omega)
      refine ⟨s₂, ?_, hinv₂, ?_⟩
      · rw [if_pos hni, hswap, Option.bind_some]
        exact hdu
      · rw [if_pos hni, habs₂, habs₁]
    · exact ⟨s, by rw [if_neg hni], hinv, by rw [if_neg hni]⟩
  have hlen₂ : I.len s₂ = n + 1 := by
    rw [hs.len_eq s₂ hinv₂, habs₂]
    split <;> simp [hn]
  obtain ⟨s', y, hpop, hinv', htake, hlast⟩ := pop_last hs hinv₂ hlen₂
  rw [BinaryHeap.remove, if_pos hi] at hr
  simp only [hn, Nat.add_sub_cancel] at hr
  rw [← habs₂, hlast, Option.map_some, Option.some.injEq, Prod.mk.injEq] at hr
  obtain ⟨rfl, rfl⟩ := hr
  refine ⟨s', ?_, hinv', htake⟩
  rw [remove, if_neg (by omega)]
  simp only [show I.len s - 1 = n by omega]
  rw [hpre, Option.bind_some]
  exact hpop

end Sim

/-! ### What the algorithms keep -/

/-- A property of the container that every `Swap` and `Pop` it carries out keeps. -/
structure Preserves (P : σ → Prop) : Prop where
  swap : ∀ s i j s', I.swap s i j = some s' → P s → P s'
  pop : ∀ s r, I.pop s = some r → P s → P r.1

section Preserves

variable {I} {P : σ → Prop} (hp : Preserves I P)
include hp

theorem Preserves.up : ∀ {s s' : σ} {j : ℕ}, up I s j = some s' → P s → P s' := by
  intro s s' j h
  -- one case per branch of `up`; only the swap with the parent changes the container
  fun_induction HeapInterface.up I s j with
  | case1 s j hj =>
    cases h
    exact id
  | case2 s j hj hlt ih =>
    obtain ⟨s₁, hswap, hrest⟩ := Option.bind_eq_some_iff.mp h
    exact fun hs => ih _ hrest (hp.swap _ _ _ _ hswap hs)
  | case3 s j hj hlt =>
    cases h
    exact id
  | case4 s j hj hlt => cases h

theorem Preserves.downLoop : ∀ {s s' : σ} {i n k : ℕ}, downLoop I s i n = some (s', k) →
    P s → P s' := by
  intro s s' i n k h
  fun_induction HeapInterface.downLoop I s i n with
  | case1 s i hc hj => cases h
  | case2 s i hc j hj hlt ih =>
    obtain ⟨s₁, hswap, hrest⟩ := Option.bind_eq_some_iff.mp h
    exact fun hs => ih _ hrest (hp.swap _ _ _ _ hswap hs)
  | case3 s i hc j hj hlt =>
    cases h
    exact id
  | case4 s i hc j hj hlt => cases h
  | case5 s i hc =>
    cases h
    exact id

theorem Preserves.down {s s' : σ} {i n : ℕ} {moved : Bool}
    (h : HeapInterface.down I s i n = some (s', moved)) : P s → P s' := by
  obtain ⟨r, hloop, hr⟩ := Option.map_eq_some_iff.mp h
  cases hr
  exact hp.downLoop hloop

/-- `heap.Push` keeps what the container's own `Push` of the element keeps. -/
theorem Preserves.heapPush {s s' : σ} {x : α} (hpush : ∀ s₁, I.push s x = some s₁ → P s₁)
    (h : HeapInterface.push I s x = some s') : P s' := by
  obtain ⟨s₁, hpush₁, hup⟩ := Option.bind_eq_some_iff.mp h
  exact hp.up hup (hpush s₁ hpush₁)

theorem Preserves.heapPop {s : σ} {r : σ × α} (h : HeapInterface.pop I s = some r) :
    P s → P r.1 := by
  unfold HeapInterface.pop at h
  split_ifs at h
  obtain ⟨s₁, hswap, h⟩ := Option.bind_eq_some_iff.mp h
  obtain ⟨d, hdown, hpop⟩ := Option.bind_eq_some_iff.mp h
  exact fun hs => hp.pop _ _ hpop (hp.down hdown (hp.swap _ _ _ _ hswap hs))

theorem Preserves.downOrUp {s s' : σ} {i n : ℕ} (h : HeapInterface.downOrUp I s i n = some s') :
    P s → P s' := by
  obtain ⟨d, hdown, hrest⟩ := Option.bind_eq_some_iff.mp h
  have hd := hp.down hdown
  split at hrest
  · cases hrest
    exact hd
  · exact fun hs => hp.up hrest (hd hs)

theorem Preserves.remove {s : σ} {i : ℕ} {r : σ × α} (h : HeapInterface.remove I s i = some r) :
    P s → P r.1 := by
  unfold HeapInterface.remove at h
  split_ifs at h
  obtain ⟨s₂, hpre, hpop⟩ := Option.bind_eq_some_iff.mp h
  -- the last element moved in and sifted, or it was the one removed
  split_ifs at hpre
  · obtain ⟨s₁, hswap, hdu⟩ := Option.bind_eq_some_iff.mp hpre
    exact fun hs => hp.pop _ _ hpop (hp.downOrUp hdu (hp.swap _ _ _ _ hswap hs))
  · cases hpre
    exact hp.pop _ _ hpop

end Preserves

/-! ### What the algorithms leave alone -/

/-- A part of the container that its `Swap`, `Push` and `Pop` do not change. -/
structure Keeps {κ : Type*} (key : σ → κ) : Prop where
  swap : ∀ s i j s', I.swap s i j = some s' → key s' = key s
  push : ∀ s x s', I.push s x = some s' → key s' = key s
  pop : ∀ s r, I.pop s = some r → key r.1 = key s

section Keeps

variable {I} {κ : Type*} {key : σ → κ} (hk : Keeps I key)
include hk

/-- An unchanged part keeps each of its values. -/
theorem Keeps.preserves (c : κ) : Preserves I fun s => key s = c :=
  ⟨fun s i j s' h hs => (hk.swap s i j s' h).trans hs, fun s r h hs => (hk.pop s r h).trans hs⟩

theorem Keeps.up {s s' : σ} {j : ℕ} (h : up I s j = some s') : key s' = key s :=
  (hk.preserves (key s)).up h rfl

theorem Keeps.downLoop {s s' : σ} {i n k : ℕ} (h : downLoop I s i n = some (s', k)) :
    key s' = key s :=
  (hk.preserves (key s)).downLoop h rfl

theorem Keeps.down {s s' : σ} {i n : ℕ} {moved : Bool}
    (h : HeapInterface.down I s i n = some (s', moved)) :
    key s' = key s :=
  (hk.preserves (key s)).down h rfl

theorem Keeps.heapPush {s s' : σ} {x : α} (h : HeapInterface.push I s x = some s') :
    key s' = key s :=
  (hk.preserves (key s)).heapPush (fun _ hpush => hk.push _ _ _ hpush) h

theorem Keeps.heapPop {s : σ} {r : σ × α} (h : HeapInterface.pop I s = some r) :
    key r.1 = key s :=
  (hk.preserves (key s)).heapPop h rfl

theorem Keeps.downOrUp {s s' : σ} {i n : ℕ} (h : HeapInterface.downOrUp I s i n = some s') :
    key s' = key s :=
  (hk.preserves (key s)).downOrUp h rfl

theorem Keeps.remove {s : σ} {i : ℕ} {r : σ × α} (h : HeapInterface.remove I s i = some r) :
    key r.1 = key s :=
  (hk.preserves (key s)).remove h rfl

end Keeps

end HeapInterface
