import Classzz.Lib.BinaryHeap

/-!
# Sifting up: `Push` and `Remove`

The two operations of `container/heap` that sift an element up. `Push` appends and sifts up;
`Remove(i)` moves the last element to `i`, sifts it down and, if it did not move, up, and cuts
off the end.

While `up` moves an element towards the root the slice keeps `UpOrder`: every pair of parent
and child is in order except the element and its parent, and the element's children are not
less than its parent (`UpOrder.move`, `up_ordered`). `Remove` starts from `FixOrder`: in order
except at the replaced position, whose children are not less than its parent. If the new
element is more than a child it goes down from an order `down` can start from
(`FixOrder.toDownOrder`); otherwise its children are not less than it and it goes up
(`FixOrder.toUpOrder`).
-/

namespace BinaryHeap

variable {α : Type*} (less : α → α → Bool)

/-- `heap.Push` on a slice whose own `Push` appends. -/
def push (h : List α) (x : α) : List α :=
  up less (h ++ [x]) h.length

/-- `if !down(h, i, n) { up(h, i) }`: the element at `i` sifts down among the first `n`, and up
if it did not move. -/
def downOrUp (h : List α) (i n : ℕ) : List α :=
  let r := down less h i n
  if r.2 then r.1 else up less r.1 i

/-- `heap.Remove(i)` on a slice whose own `Pop` cuts off its last element. An index outside the
slice panics: `none`. -/
def remove (h : List α) (i : ℕ) : Option (List α × α) :=
  if i < h.length then
    let n := h.length - 1
    let h' := if n ≠ i then downOrUp less (swapAt h i n) i n else h
    h'[n]?.map fun x => (h'.take n, x)
  else none

theorem up_perm (h : List α) (j : ℕ) : (up less h j).Perm h := by
  fun_induction up less h j with
  | case1 h j hj => exact List.Perm.refl h
  | case2 h j hj ih => exact ih.trans (swapAt_perm h _ _)

theorem length_up (h : List α) (j : ℕ) : (up less h j).length = h.length :=
  (up_perm less h j).length_eq

/-- `up` from a position before `n` leaves the positions from `n` on as they were. -/
theorem getElem?_up_of_le (h : List α) {j n k : ℕ} (hj : j < n) (hn : n ≤ h.length)
    (hk : n ≤ k) : (up less h j)[k]? = h[k]? := by
  fun_induction up less h j with
  | case1 => rfl
  | case2 h j hj' ih =>
    have hp : parent j < j := parent_lt (by unfold parent at hj'; omega)
    rw [ih (by omega) (by simpa using hn), getElem?_swapAt_of_le (by omega) hj hn hk]

theorem le_downLoop_snd (h : List α) (i n : ℕ) : i ≤ (downLoop less h i n).2 := by
  fun_induction downLoop less h i n with
  | case1 h i hc hlt ih => exact Nat.le_trans (Nat.le_of_lt (lt_minChild less h n i)) ih
  | case2 => exact le_rfl
  | case3 => exact le_rfl

/-- `down` moves the element when its first turn swaps. -/
theorem down_snd_of_swaps {h : List α} {i n : ℕ} (hc : 2 * i + 1 < n)
    (hlt : lessAt less h (minChild less h n i) i = true) : (down less h i n).2 = true := by
  have hmoved := le_downLoop_snd less (swapAt h i (minChild less h n i)) (minChild less h n i) n
  have hi := lt_minChild less h n i
  rw [down, downLoop, dif_pos hc, if_pos hlt]
  simpa using Nat.lt_of_lt_of_le hi hmoved

/-- `down` does nothing when its first turn stops. -/
theorem down_of_stops {h : List α} {i n : ℕ}
    (hstop : 2 * i + 1 < n → lessAt less h (minChild less h n i) i = false) :
    down less h i n = (h, false) := by
  rw [down, downLoop]
  by_cases hc : 2 * i + 1 < n
  · rw [dif_pos hc, if_neg (by simp [hstop hc])]
    simp
  · rw [dif_neg hc]
    simp

theorem downOrUp_perm (h : List α) (i n : ℕ) : (downOrUp less h i n).Perm h := by
  cases hm : (down less h i n).2
  · simp only [downOrUp, hm, Bool.false_eq_true, if_false]
    exact (up_perm less _ i).trans (downLoop_perm less h i n)
  · simp only [downOrUp, hm, if_true]
    exact downLoop_perm less h i n

@[simp] theorem length_downOrUp (h : List α) (i n : ℕ) : (downOrUp less h i n).length = h.length :=
  (downOrUp_perm less h i n).length_eq

/-- `down` among the first `n` and `up` from a position before `n` leave the positions from `n`
on as they were. -/
theorem getElem?_downOrUp_of_le (h : List α) {i n k : ℕ} (hi : i < n) (hn : n ≤ h.length)
    (hk : n ≤ k) : (downOrUp less h i n)[k]? = h[k]? := by
  have hdown := getElem?_downLoop_of_le less h i hn hk
  cases hm : (down less h i n).2
  · simp only [downOrUp, hm, Bool.false_eq_true, if_false]
    rw [getElem?_up_of_le less _ hi (by rw [down, length_downLoop]; exact hn) hk]
    exact hdown
  · simp only [downOrUp, hm, if_true]
    exact hdown

theorem lessAt_append_of_lt {h : List α} (t : List α) {k l : ℕ} (hk : k < h.length)
    (hl : l < h.length) : lessAt less (h ++ t) k l = lessAt less h k l := by
  simp only [lessAt, List.getElem?_append_left hk, List.getElem?_append_left hl]

theorem lt_length_of_lessAt {h : List α} {i j : ℕ} (hlt : lessAt less h i j = true) :
    i < h.length ∧ j < h.length := by
  unfold lessAt at hlt
  split at hlt
  · rename_i a b ha hb
    exact ⟨(List.getElem?_eq_some_iff.mp ha).1, (List.getElem?_eq_some_iff.mp hb).1⟩
  · cases hlt

/-- The element and its parent are the one pair `up` may find out of order. -/
structure UpOrder (h : List α) (n j : ℕ) : Prop where
  except : ∀ k, 0 < k → k < n → k ≠ j → lessAt less h k (parent k) = false
  grand : 0 < j → ∀ c, 0 < c → c < n → parent c = j → lessAt less h c (parent j) = false

/-- Where no child is less than the parent except possibly under the replaced position `i`,
and the children of `i` are not less than the parent of `i`. -/
structure FixOrder (h : List α) (n i : ℕ) : Prop where
  except : ∀ k, 0 < k → k < n → k ≠ i → parent k ≠ i → lessAt less h k (parent k) = false
  grand : 0 < i → ∀ c, 0 < c → c < n → parent c = i → lessAt less h c (parent i) = false

/-- The turn of `up` that stops: at the root, or not less than the parent. -/
theorem UpOrder.finish {h : List α} {n j : ℕ} (o : UpOrder less h n j)
    (hstop : parent j = j ∨ lessAt less h j (parent j) = false) : OrderedFrom less h n 0 := by
  intro k hk0 hkn _
  by_cases hkj : k = j
  · subst hkj
    rcases hstop with hroot | hge
    · unfold parent at hroot
      omega
    · exact hge
  · exact o.except k hk0 hkn hkj

section Order

variable {less} (hw : WeakOrder less)
include hw

theorem lessAt_trans {h : List α} {i j k : ℕ} (h₁ : lessAt less h i j = true)
    (h₂ : lessAt less h j k = true) : lessAt less h i k = true := by
  by_contra hik
  have hji := lessAt_asymm hw h₁
  have hjk := lessAt_not_trans hw (lt_length_of_lessAt less h₁).1 hji (by simpa using hik)
  rw [hjk] at h₂
  cases h₂

/-- One turn of `up` that swaps: the element moves to its parent's position, and the order it
keeps moves with it. -/
theorem UpOrder.move {h : List α} {n j : ℕ} (hn : n ≤ h.length) (o : UpOrder less h n j)
    (hj0 : 0 < j) (hjn : j < n) (hlt : lessAt less h j (parent j) = true) :
    UpOrder less (swapAt h (parent j) j) n (parent j) := by
  have hpj := parent_lt hj0
  generalize hp : parent j = p at hpj hlt
  have hpl : p < h.length := by omega
  have hjl : j < h.length := by omega
  refine ⟨fun k hk0 hkn hkp => ?_, fun hp0 c hc0 hcn hpc => ?_⟩
  · rw [lessAt_swapAt less hpl hjl]
    by_cases hkj : k = j
    · -- the pair the element left: its old parent is now its child
      rw [hkj, Equiv.swap_apply_right, hp, Equiv.swap_apply_left]
      exact lessAt_asymm hw hlt
    rw [Equiv.swap_apply_of_ne_of_ne hkp hkj]
    by_cases hpk : parent k = j
    · -- a child of `j` now under the old parent
      rw [hpk, Equiv.swap_apply_right]
      have := o.grand hj0 k hk0 hkn hpk
      rwa [hp] at this
    by_cases hpk' : parent k = p
    · -- a sibling of `j`: it was not less than the parent, which is more than the element
      rw [hpk', Equiv.swap_apply_left]
      have hkp' : lessAt less h k p = false := hpk' ▸ o.except k hk0 hkn hkj
      cases hkj' : lessAt less h k j
      · rfl
      · rw [lessAt_trans hw hkj' hlt] at hkp'
        cases hkp'
    · rw [Equiv.swap_apply_of_ne_of_ne hpk' hpk]
      exact o.except k hk0 hkn hkj
  · -- the children of the new position against its parent
    have hpp := parent_lt hp0
    have hswap : Equiv.swap p j (parent p) = parent p :=
      Equiv.swap_apply_of_ne_of_ne (by omega) (by omega)
    rw [lessAt_swapAt less hpl hjl, hswap]
    have hpabove : lessAt less h p (parent p) = false := o.except p hp0 (by omega) (by omega)
    by_cases hcj : c = j
    · rw [hcj, Equiv.swap_apply_right]
      exact hpabove
    · have hcp : c ≠ p := by have := parent_lt hc0; omega
      rw [Equiv.swap_apply_of_ne_of_ne hcp hcj]
      exact lessAt_not_trans hw hpl (hpc ▸ o.except c hc0 hcn hcj) hpabove

/-- `up` from a slice in `UpOrder` leaves the first `n` in order. -/
theorem up_ordered {h : List α} {n j : ℕ} (hn : n ≤ h.length) (hjn : j < n)
    (o : UpOrder less h n j) : OrderedFrom less (up less h j) n 0 := by
  fun_induction up less h j with
  | case1 h j hj => exact o.finish less hj
  | case2 h j hj ih =>
    have hj0 : 0 < j := by
      rcases Nat.eq_zero_or_pos j with rfl | h0
      · simp [parent] at hj
      · exact h0
    simp only [not_or, Bool.not_eq_false] at hj
    exact ih (by simpa using hn) (by have := parent_lt hj0; omega) (o.move hw hn hj0 hjn hj.2)

/-- `Push` keeps an ordered heap ordered and adds the element. -/
theorem push_spec {h : List α} (ho : OrderedFrom less h h.length 0) (x : α) :
    (push less h x).Perm (h ++ [x]) ∧ OrderedFrom less (push less h x) (h.length + 1) 0 := by
  refine ⟨up_perm less _ _, up_ordered hw (by simp) (by omega) ⟨fun k hk0 hkn hkj => ?_, ?_⟩⟩
  · have hpk := parent_lt hk0
    rw [lessAt_append_of_lt less _ (by omega) (by omega)]
    exact ho k hk0 (by omega) (Nat.zero_le _)
  · -- the appended element has no children
    intro _ c hc0 hcn hpc
    have := parent_lt hc0
    omega

/-- Where the replaced element is more than a child, `down` starts from it in `DownOrder`:
the element is more than a child that is not less than its parent. -/
theorem FixOrder.toDownOrder {h : List α} {n i : ℕ} (o : FixOrder less h n i) (hc : 2 * i + 1 < n)
    (hlt : lessAt less h (minChild less h n i) i = true) : DownOrder less h n 0 i := by
  refine ⟨Nat.zero_le _, fun k hk0 hkn _ hpk => ?_, fun hi0 _ c hcn hpc => ?_⟩
  · by_cases hki : k = i
    · -- the edge above `i`: the element is above a child that is not below the parent
      subst hki
      have hmin := lt_minChild less h n k
      have hcp : lessAt less h (minChild less h n k) (parent k) = false :=
        o.grand hk0 _ (by omega) (minChild_lt less h hc) (parent_minChild less h n k)
      cases hup : lessAt less h k (parent k)
      · rfl
      · rw [lessAt_trans hw hlt hup] at hcp
        cases hcp
    · exact o.except k hk0 hkn hki hpk
  · exact o.grand hi0 c (by unfold parent at hpc; omega) hcn hpc

/-- Where the replaced element is not more than its children, `up` starts from it. -/
theorem FixOrder.toUpOrder {h : List α} {n i : ℕ} (hn : n ≤ h.length) (o : FixOrder less h n i)
    (hstop : 2 * i + 1 < n → lessAt less h (minChild less h n i) i = false) :
    UpOrder less h n i := by
  refine ⟨fun k hk0 hkn hki => ?_, o.grand⟩
  by_cases hpk : parent k = i
  · have hc : 2 * i + 1 < n := by unfold parent at hpk; omega
    have hj := minChild_lt less h hc
    rw [hpk]
    exact lessAt_not_trans hw (by omega) (minChild_min hw hk0 hkn hpk) (hstop hc)
  · exact o.except k hk0 hkn hki hpk

/-- `down` or `up` from where `Remove` put the last element: an order for whichever runs. -/
theorem downOrUp_ordered {h : List α} {n i : ℕ} (hn : n ≤ h.length) (hin : i < n)
    (o : FixOrder less h n i) : OrderedFrom less (downOrUp less h i n) n 0 := by
  by_cases hmove : 2 * i + 1 < n ∧ lessAt less h (minChild less h n i) i = true
  · -- the element goes down
    have hdown := down_snd_of_swaps less hmove.1 hmove.2
    simp only [downOrUp, hdown, if_true]
    exact downLoop_ordered hw hn (o.toDownOrder hw hmove.1 hmove.2)
  · -- it stays, and goes up
    have hstop : 2 * i + 1 < n → lessAt less h (minChild less h n i) i = false :=
      fun hc => by simpa [hc] using hmove
    simp only [downOrUp, down_of_stops less hstop, Bool.false_eq_true, if_false]
    exact up_ordered hw hn hin (o.toUpOrder hw hn hstop)

omit hw in
/-- After the element at `i` and the last element swap, the rest is in `FixOrder` at `i`. -/
theorem fixOrder_swapAt_last {h : List α} {n i : ℕ} (hw : WeakOrder less)
    (ho : OrderedFrom less h h.length 0) (hn : n + 1 = h.length) (hin : i < n) :
    FixOrder less (swapAt h i n) n i where
  except k hk0 hkn hki hpk := by
    have hpk' := parent_lt hk0
    rw [lessAt_swapAt less (by omega) (by omega), Equiv.swap_apply_of_ne_of_ne hki (by omega),
      Equiv.swap_apply_of_ne_of_ne hpk (by omega)]
    exact ho k hk0 (by omega) (Nat.zero_le _)
  grand hi0 c hc0 hcn hpc := by
    have hpi := parent_lt hi0
    have hic : i < c := hpc ▸ parent_lt hc0
    rw [lessAt_swapAt less (by omega) (by omega), Equiv.swap_apply_of_ne_of_ne (by omega) (by omega),
      Equiv.swap_apply_of_ne_of_ne (by omega) (by omega)]
    -- the child was not less than `i`, which was not less than its parent
    have hci : lessAt less h c i = false := hpc ▸ ho c hc0 (by omega) (Nat.zero_le _)
    exact lessAt_not_trans hw (by omega) hci (ho i hi0 (by omega) (Nat.zero_le _))

/-- `Remove(i)` of an ordered heap returns the element at `i` and leaves the rest ordered. -/
theorem remove_spec {h h' : List α} {i : ℕ} {x : α} (ho : OrderedFrom less h h.length 0)
    (hr : remove less h i = some (h', x)) :
    h[i]? = some x ∧ (h' ++ [x]).Perm h ∧ OrderedFrom less h' h'.length 0 := by
  have hi : i < h.length := by
    by_contra hi
    rw [remove, if_neg hi] at hr
    cases hr
  obtain ⟨n, hn⟩ : ∃ n, n + 1 = h.length := ⟨h.length - 1, by omega⟩
  -- the slice before its end is cut off
  obtain ⟨d, hd, hlen, hdn, hperm, hord⟩ : ∃ d : List α,
      remove less h i = d[n]?.map (fun x => (d.take n, x)) ∧ d.length = n + 1 ∧
        d[n]? = h[i]? ∧ d.Perm h ∧ OrderedFrom less d n 0 := by
    by_cases hni : n = i
    · subst hni
      refine ⟨h, ?_, hn.symm, rfl, List.Perm.refl h, fun k hk0 hkn _ => ho k hk0 (by omega) (Nat.zero_le _)⟩
      simp [remove, hi, show h.length - 1 = n by omega]
    · have hin : i < n := by omega
      refine ⟨downOrUp less (swapAt h i n) i n, ?_, ?_, ?_, ?_, ?_⟩
      · simp [remove, hi, show h.length - 1 = n by omega, hni]
      · rw [length_downOrUp, length_swapAt, hn]
      · rw [getElem?_downOrUp_of_le less _ hin (by simp; omega) le_rfl, getElem?_swapAt hi (by omega),
          Equiv.swap_apply_right]
      · exact (downOrUp_perm less _ i n).trans (swapAt_perm h i n)
      · exact downOrUp_ordered hw (by simp; omega) hin (fixOrder_swapAt_last hw ho hn hin)
  rw [hd, hdn, List.getElem?_eq_getElem hi, Option.map_some, Option.some.injEq,
    Prod.mk.injEq] at hr
  obtain ⟨rfl, rfl⟩ := hr
  have hsplit := take_append_of_getElem? hlen (hdn.trans (List.getElem?_eq_getElem hi))
  refine ⟨List.getElem?_eq_getElem hi, by rw [hsplit]; exact hperm, ?_⟩
  rw [List.length_take, min_eq_left (by omega)]
  exact hord.take

end Order

/-- `Remove(i)` panics exactly outside the slice. -/
theorem remove_eq_none_iff (h : List α) (i : ℕ) : remove less h i = none ↔ h.length ≤ i := by
  by_cases hi : i < h.length
  · have hlen : ∀ d : List α, d.length = h.length → d[h.length - 1]? ≠ none := fun d hd => by
      rw [ne_eq, List.getElem?_eq_none_iff]
      omega
    have hd := hlen (if h.length - 1 ≠ i then downOrUp less (swapAt h i (h.length - 1)) i (h.length - 1)
      else h) (by split <;> simp)
    simp only [remove, hi, if_true, Option.map_eq_none_iff]
    exact ⟨fun hn => absurd hn hd, fun hle => absurd hle (by omega)⟩
  · simp only [remove, hi, if_false, true_iff]
    omega

/-- `heap.Push` appends and sifts up: the slice and the new element, whatever the order. -/
theorem push_perm (h : List α) (x : α) : (push less h x).Perm (h ++ [x]) :=
  up_perm less _ _

/-- `Remove(i)` takes out the element at `i` and keeps the others, whatever the order. -/
theorem remove_perm {h h' : List α} {i : ℕ} {x : α} (hr : remove less h i = some (h', x)) :
    h[i]? = some x ∧ (h' ++ [x]).Perm h := by
  have hi : i < h.length := by
    by_contra hi
    rw [remove, if_neg hi] at hr
    cases hr
  obtain ⟨n, hn⟩ : ∃ n, n + 1 = h.length := ⟨h.length - 1, by omega⟩
  -- the slice before its end is cut off: the element at `i` ends up last
  obtain ⟨d, hd, hlen, hdn, hperm⟩ : ∃ d : List α,
      remove less h i = d[n]?.map (fun x => (d.take n, x)) ∧ d.length = n + 1 ∧
        d[n]? = h[i]? ∧ d.Perm h := by
    by_cases hni : n = i
    · subst hni
      exact ⟨h, by simp [remove, hi, show h.length - 1 = n by omega], hn.symm, rfl,
        List.Perm.refl h⟩
    · refine ⟨downOrUp less (swapAt h i n) i n, ?_, ?_, ?_, ?_⟩
      · simp [remove, hi, show h.length - 1 = n by omega, hni]
      · rw [length_downOrUp, length_swapAt, hn]
      · rw [getElem?_downOrUp_of_le less _ (by omega) (by simp; omega) le_rfl,
          getElem?_swapAt hi (by omega), Equiv.swap_apply_right]
      · exact (downOrUp_perm less _ i n).trans (swapAt_perm h i n)
  rw [hd, hdn, List.getElem?_eq_getElem hi, Option.map_some, Option.some.injEq,
    Prod.mk.injEq] at hr
  obtain ⟨rfl, rfl⟩ := hr
  refine ⟨List.getElem?_eq_getElem hi, ?_⟩
  rw [take_append_of_getElem? hlen (hdn.trans (List.getElem?_eq_getElem hi))]
  exact hperm

/-! ### Small heaps -/

theorem push_nil (x : α) : push less [] x = [x] :=
  up_zero less [x]

/-- The second element goes to the root when it is less than the first. -/
theorem push_singleton (a b : α) : push less [a] b = if less b a then [b, a] else [a, b] := by
  have hlt : lessAt less [a, b] 1 (parent 1) = less b a := rfl
  have hroot : parent 1 ≠ 1 := by decide
  rw [push, List.singleton_append, List.length_singleton, up]
  cases h : less b a
  · rw [dif_pos (Or.inr (hlt.trans h))]
    rfl
  · rw [dif_neg (by simp [hroot, hlt, h])]
    exact up_zero less _

theorem pop_pair (a b : α) : pop less [a, b] = some ([b], a) := by
  have hlen : [a, b].length - 1 = 1 := rfl
  rw [pop_eq_some less (by simp), hlen, downLoop, dif_neg (by omega)]
  rfl

end BinaryHeap
