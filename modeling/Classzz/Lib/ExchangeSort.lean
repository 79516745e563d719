import Mathlib

/-!
# Sorting a slice by exchanges, and dropping the repeats of a sorted slice

Two loops that Go code writes in place over a slice. The exchange sort
compares `xs[i]` with each later `xs[j]` and swaps the two when
`xs[i] > xs[j]`, so that the inner loop at `i` leaves the least of `xs[i:]` at
`i`. Its invariant (`Outer`) is that `xs[:i]` is sorted and no larger than
anything in `xs[i:]`; the inner loop keeps `xs[:i]` and permutes `xs[i:]`
(`Inner`). The second loop removes `xs[i]` when it equals `xs[i-1]`, which on a
sorted slice leaves every value once (`dedup_spec`).
-/

namespace ExchangeSort

variable {α : Type*} [Inhabited α]

/-- `xs[i], xs[j] = xs[j], xs[i]`. -/
def swap (xs : List α) (i j : ℕ) : List α :=
  (xs.set i (xs.getD j default)).set j (xs.getD i default)

@[simp] theorem length_swap (xs : List α) (i j : ℕ) : (swap xs i j).length = xs.length := by
  simp [swap]

theorem getD_swap {xs : List α} {i j k : ℕ} (hi : i < xs.length) (hj : j < xs.length) :
    (swap xs i j).getD k default =
      if k = j then xs.getD i default else if k = i then xs.getD j default
      else xs.getD k default := by
  unfold swap
  by_cases hkj : k = j
  · subst hkj
    simp [List.getD_eq_getElem?_getD, hj]
  · by_cases hki : k = i
    · subst hki
      simp [List.getD_eq_getElem?_getD, hi, hj, hkj, Ne.symm hkj]
    · simp [List.getD_eq_getElem?_getD, List.getElem?_set_ne (Ne.symm hkj),
        List.getElem?_set_ne (Ne.symm hki), hkj, hki]

theorem swap_perm {xs : List α} {i j : ℕ} (hi : i < xs.length) (hj : j < xs.length) :
    List.Perm (swap xs i j) xs := by
  have hgi : xs.getD i default = xs[i] := by simp [List.getD_eq_getElem?_getD, hi]
  have hgj : xs.getD j default = xs[j] := by simp [List.getD_eq_getElem?_getD, hj]
  rw [swap, hgi, hgj]
  exact List.set_set_perm hi hj

/-- A swap behind `i` leaves `xs[:i]` and permutes `xs[i:]`. -/
theorem take_drop_swap {xs : List α} {i j k : ℕ} (hij : i ≤ j) (hik : i ≤ k)
    (hj : j < xs.length) (hk : k < xs.length) :
    (swap xs j k).take i = xs.take i ∧ List.Perm ((swap xs j k).drop i) (xs.drop i) := by
  have htake : (swap xs j k).take i = xs.take i := by
    simp only [swap, List.take_set_of_le hik, List.take_set_of_le hij]
  refine ⟨htake, ?_⟩
  have hperm : List.Perm ((swap xs j k).take i ++ (swap xs j k).drop i)
      (xs.take i ++ xs.drop i) := by
    rw [List.take_append_drop, List.take_append_drop]
    exact swap_perm hj hk
  rw [htake] at hperm
  exact (List.perm_append_left_iff _).mp hperm

variable [LinearOrder α]

/-- The inner loop `for j := i + 1; j < len(xs); j++`, from `j` on. -/
def inner (i : ℕ) (xs : List α) (j : ℕ) : List α :=
  if h : j < xs.length then
    if xs.getD i default > xs.getD j default then inner i (swap xs i j) (j + 1)
    else inner i xs (j + 1)
  else xs
termination_by xs.length - j
decreasing_by
  · simp only [length_swap]
    omega
  · omega

theorem length_inner (i : ℕ) (xs : List α) (j : ℕ) : (inner i xs j).length = xs.length := by
  fun_induction inner i xs j with
  | case1 xs j h hgt ih => rw [ih, length_swap]
  | case2 xs j h hgt ih => exact ih
  | case3 xs j h => rfl

/-- The outer loop `for i := 0; i < len(xs); i++`, from `i` on. -/
def outer (xs : List α) (i : ℕ) : List α :=
  if h : i < xs.length then outer (inner i xs (i + 1)) (i + 1) else xs
termination_by xs.length - i
decreasing_by
  rw [length_inner]
  omega

/-- The exchange sort of a slice. -/
def sort (xs : List α) : List α := outer xs 0

/-- The loop `for i := 1; i < len(xs); i++` that removes `xs[i]` when it
repeats `xs[i-1]`, from `i` on. After a removal its `i--` and the loop's
`i++` cancel. -/
def dedup (xs : List α) (i : ℕ) : List α :=
  if h : i < xs.length then
    if xs.getD i default = xs.getD (i - 1) default then dedup (xs.eraseIdx i) i
    else dedup xs (i + 1)
  else xs
termination_by xs.length - i
decreasing_by
  · rw [List.length_eraseIdx_of_lt h]
    omega
  · omega

/-! ### The exchange sort -/

/-- What the inner loop at `i` keeps up to `j`: `xs[:i]` as it was, `xs[i:]`
a permutation, and `xs[i]` no larger than `xs[i+1:j]`. -/
structure Inner (xs₀ : List α) (i : ℕ) (xs : List α) (j : ℕ) : Prop where
  take_eq : xs.take i = xs₀.take i
  drop_perm : List.Perm (xs.drop i) (xs₀.drop i)
  le : ∀ k, i < k → k < j → xs.getD i default ≤ xs.getD k default

/-- A turn of the inner loop that swaps: the smaller `xs[j]` moves to `i`, and
`xs[i]` to `j`. -/
theorem Inner.step_swap {xs₀ xs : List α} {i j : ℕ} (h : Inner xs₀ i xs j) (hij : i < j)
    (hj : j < xs.length) (hgt : xs.getD i default > xs.getD j default) :
    Inner xs₀ i (swap xs i j) (j + 1) := by
  obtain ⟨htake, hdrop⟩ := take_drop_swap (Nat.le_refl i) (Nat.le_of_lt hij) (by omega) hj
  refine ⟨htake.trans h.take_eq, hdrop.trans h.drop_perm, fun k hik hkj => ?_⟩
  rw [getD_swap (by omega) hj, getD_swap (by omega) hj]
  simp only [show i ≠ j by omega, if_false, if_true]
  rcases Nat.lt_or_ge k j with hk | hk
  · simp only [show k ≠ j by omega, show k ≠ i by omega, if_false]
    exact le_trans (le_of_lt hgt) (h.le k hik hk)
  · simp only [show k = j by omega, if_true]
    exact le_of_lt hgt

/-- A turn of the inner loop that keeps the slice. -/
theorem Inner.step_keep {xs₀ xs : List α} {i j : ℕ} (h : Inner xs₀ i xs j)
    (hgt : ¬ xs.getD i default > xs.getD j default) : Inner xs₀ i xs (j + 1) := by
  refine ⟨h.take_eq, h.drop_perm, fun k hik hkj => ?_⟩
  rcases Nat.lt_or_ge k j with hk | hk
  · exact h.le k hik hk
  · rw [show k = j by omega]
    exact not_lt.mp hgt

/-- The inner loop at `i` leaves at `i` a value no larger than any after it. -/
theorem Inner.run {xs₀ xs : List α} {i j : ℕ} (h : Inner xs₀ i xs j) (hij : i < j) :
    Inner xs₀ i (inner i xs j) (inner i xs j).length := by
  fun_induction inner i xs j with
  | case1 xs j hj hgt ih => exact ih (h.step_swap hij hj hgt) (by omega)
  | case2 xs j hj hgt ih => exact ih (h.step_keep hgt) (by omega)
  | case3 xs j hj => exact ⟨h.take_eq, h.drop_perm, fun k hik hk => h.le k hik (by omega)⟩

/-- The invariant of the outer loop at `i`: `xs[:i]` sorted and no larger than
anything in `xs[i:]`, the whole a permutation of the input. -/
structure Outer (xs₀ xs : List α) (i : ℕ) : Prop where
  perm : List.Perm xs xs₀
  sorted : (xs.take i).Pairwise (· ≤ ·)
  le : ∀ a ∈ xs.take i, ∀ b ∈ xs.drop i, a ≤ b

/-- One turn of the outer loop puts the least of `xs[i:]` at `i`. -/
theorem Outer.step {xs₀ xs : List α} {i : ℕ} (h : Outer xs₀ xs i) (hi : i < xs.length) :
    Outer xs₀ (inner i xs (i + 1)) (i + 1) := by
  have hin : Inner xs i (inner i xs (i + 1)) (inner i xs (i + 1)).length :=
    Inner.run ⟨rfl, List.Perm.refl _, fun k hik hk => absurd hk (by omega)⟩ (by omega)
  have hlen : (inner i xs (i + 1)).length = xs.length := length_inner _ _ _
  generalize inner i xs (i + 1) = ys at hin hlen ⊢
  have hiy : i < ys.length := by omega
  -- what `ys` holds from `i` on is what `xs` held there
  have hmem : ∀ b ∈ ys.drop i, b ∈ xs.drop i := fun b hb => hin.drop_perm.subset hb
  have hyi : ys[i] ∈ ys.drop i := List.mem_iff_getElem.mpr ⟨0, by simp; omega, by simp⟩
  have htake : ys.take (i + 1) = xs.take i ++ [ys[i]] := by
    rw [List.take_succ_eq_append_getElem hiy, hin.take_eq]
  refine ⟨?_, ?_, fun a ha b hb => ?_⟩
  · have hys : List.Perm ys xs := by
      rw [← List.take_append_drop i ys, ← List.take_append_drop i xs, hin.take_eq]
      exact List.Perm.append_left _ hin.drop_perm
    exact hys.trans h.perm
  · rw [htake, List.pairwise_append]
    refine ⟨h.sorted, List.pairwise_singleton _ _, fun a ha b hb => ?_⟩
    rw [List.mem_singleton] at hb
    exact hb ▸ h.le a ha _ (hmem _ hyi)
  · have hb' : b ∈ ys.drop i := (List.drop_sublist_drop_left _ (Nat.le_succ i)).subset hb
    rw [htake, List.mem_append, List.mem_singleton] at ha
    rcases ha with ha | rfl
    · exact h.le a ha b (hmem b hb')
    · -- `ys[i]` is no larger than anything after it
      obtain ⟨m, hm, rfl⟩ := List.mem_iff_getElem.mp hb
      have hm' : i + 1 + m < ys.length := by simp at hm; omega
      have hle := hin.le (i + 1 + m) (by omega) hm'
      simpa [List.getD_eq_getElem?_getD, hiy, hm'] using hle

theorem Outer.run {xs₀ xs : List α} {i : ℕ} (h : Outer xs₀ xs i) :
    List.Perm (outer xs i) xs₀ ∧ (outer xs i).Pairwise (· ≤ ·) := by
  fun_induction outer xs i with
  | case1 xs i hi ih => exact ih (h.step hi)
  | case2 xs i hi =>
    refine ⟨h.perm, ?_⟩
    simpa [List.take_of_length_le (show xs.length ≤ i by omega)] using h.sorted

/-- The exchange sort sorts its slice. -/
theorem sort_spec (xs : List α) : List.Perm (sort xs) xs ∧ (sort xs).Pairwise (· ≤ ·) :=
  Outer.run ⟨List.Perm.refl _, by simp, by simp⟩

/-! ### Dropping repeats -/

/-- The invariant of the dedup loop at `i`: the slice stays sorted with the
values it had, and `xs[:i]` is strictly increasing. -/
structure Dedup (xs₀ xs : List α) (i : ℕ) : Prop where
  sorted : xs.Pairwise (· ≤ ·)
  strict : (xs.take i).Pairwise (· < ·)
  mem : ∀ a, a ∈ xs ↔ a ∈ xs₀

theorem Dedup.step_repeat {xs₀ xs : List α} {i : ℕ} (h : Dedup xs₀ xs i) (hi1 : 1 ≤ i)
    (hi : i < xs.length) (heq : xs.getD i default = xs.getD (i - 1) default) :
    Dedup xs₀ (xs.eraseIdx i) i := by
  refine ⟨h.sorted.sublist (List.eraseIdx_sublist _ _), ?_, fun a => ?_⟩
  · have htake : (xs.eraseIdx i).take i = xs.take i := by
      rw [List.eraseIdx_eq_take_drop_succ, List.take_append_of_le_length (by simp; omega),
        List.take_take, Nat.min_self]
    rw [htake]
    exact h.strict
  · -- the removed value is still there, at `i - 1`
    rw [← h.mem a, List.mem_eraseIdx_iff_getElem, List.mem_iff_getElem]
    constructor
    · rintro ⟨m, hm, -, rfl⟩
      exact ⟨m, hm, rfl⟩
    · rintro ⟨m, hm, rfl⟩
      by_cases hmi : m = i
      · subst hmi
        refine ⟨m - 1, by omega, by omega, ?_⟩
        simpa [List.getD_eq_getElem?_getD, hi, show m - 1 < xs.length by omega] using heq.symm
      · exact ⟨m, hm, hmi, rfl⟩

theorem Dedup.step_next {xs₀ xs : List α} {i : ℕ} (h : Dedup xs₀ xs i) (hi1 : 1 ≤ i)
    (hi : i < xs.length) (hne : xs.getD i default ≠ xs.getD (i - 1) default) :
    Dedup xs₀ xs (i + 1) := by
  refine ⟨h.sorted, ?_, h.mem⟩
  have hget : ∀ {m} (hm : m < xs.length), xs.getD m default = xs[m] := fun hm => by
    simp [List.getD_eq_getElem?_getD, hm]
  have hlt : xs[i - 1] < xs[i] := by
    rw [hget hi, hget (show i - 1 < xs.length by omega)] at hne
    exact lt_of_le_of_ne (List.pairwise_iff_getElem.mp h.sorted _ _ _ _ (by omega)) (Ne.symm hne)
  rw [List.take_succ_eq_append_getElem hi, List.pairwise_append]
  refine ⟨h.strict, List.pairwise_singleton _ _, fun a ha b hb => ?_⟩
  rw [List.mem_singleton] at hb
  subst hb
  obtain ⟨m, hm, rfl⟩ := List.mem_iff_getElem.mp ha
  simp only [List.length_take, List.getElem_take] at hm ⊢
  rcases Nat.lt_or_ge m (i - 1) with hm' | hm'
  · exact lt_of_le_of_lt (List.pairwise_iff_getElem.mp h.sorted _ _ _ _ hm') hlt
  · have hmi : m = i - 1 := by omega
    subst hmi
    exact hlt

theorem Dedup.run {xs₀ xs : List α} {i : ℕ} (h : Dedup xs₀ xs i) (hi1 : 1 ≤ i) :
    (dedup xs i).Pairwise (· < ·) ∧ ∀ a, a ∈ dedup xs i ↔ a ∈ xs₀ := by
  fun_induction dedup xs i with
  | case1 xs i hi heq ih => exact ih (h.step_repeat hi1 hi heq) hi1
  | case2 xs i hi hne ih => exact ih (h.step_next hi1 hi hne) (by omega)
  | case3 xs i hi =>
    refine ⟨?_, h.mem⟩
    simpa [List.take_of_length_le (show xs.length ≤ i by omega)] using h.strict

/-- On a sorted slice the dedup loop leaves each value once, in increasing
order. -/
theorem dedup_spec {xs : List α} (h : xs.Pairwise (· ≤ ·)) :
    (dedup xs 1).Pairwise (· < ·) ∧ ∀ a, a ∈ dedup xs 1 ↔ a ∈ xs := by
  refine Dedup.run ⟨h, ?_, fun _ => Iff.rfl⟩ (Nat.le_refl 1)
  cases xs <;> simp

end ExchangeSort
