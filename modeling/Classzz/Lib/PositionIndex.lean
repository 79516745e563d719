import Classzz.Lib.BinaryHeap

/-!
# Positions reported by a callback

A container that tells its caller where each element went, through a callback `setIndex(x, i)`
at every move, lets the caller find an element again without a search. What the caller keeps is
the last index reported for each element (`record`). It is right when it gives each element of
the slice its position and every other element `-1` (`IndexedBy`), the elements being distinct.

A swap of two positions reports both new positions, an append reports the new last position,
and cutting off the last element reports `-1`; each keeps the record right (`IndexedBy.swap`,
`IndexedBy.append`, `IndexedBy.dropLast`). The record then answers the two questions a caller
asks: whether an element is there, and at which position (`IndexedBy.mem_iff`,
`IndexedBy.getElem?_idx`).
-/

namespace PositionIndex

open BinaryHeap

variable {α : Type*}

/-- `idx` gives each element of `l` its position and every other element `-1`; the elements of
`l` are distinct. -/
structure IndexedBy (idx : α → ℤ) (l : List α) : Prop where
  nodup : l.Nodup
  getElem : ∀ k (hk : k < l.length), idx l[k] = k
  not_mem : ∀ a, a ∉ l → idx a = -1

theorem indexedBy_nil {idx : α → ℤ} (h : ∀ a, idx a = -1) : IndexedBy idx [] :=
  ⟨List.nodup_nil, fun _ hk => absurd hk (Nat.not_lt_zero _), fun a _ => h a⟩

variable {idx : α → ℤ} {l : List α}

/-- An element is there exactly when its record is not `-1`. -/
theorem IndexedBy.mem_iff (h : IndexedBy idx l) (a : α) : a ∈ l ↔ idx a ≠ -1 := by
  constructor
  · intro ha
    obtain ⟨k, hk, rfl⟩ := List.getElem_of_mem ha
    rw [h.getElem k hk]
    omega
  · intro hne
    by_contra ha
    exact hne (h.not_mem a ha)

/-- The record of an element that is there is its position. -/
theorem IndexedBy.getElem?_idx (h : IndexedBy idx l) {a : α} (ha : a ∈ l) :
    0 ≤ idx a ∧ (idx a).toNat < l.length ∧ l[(idx a).toNat]? = some a := by
  obtain ⟨k, hk, rfl⟩ := List.getElem_of_mem ha
  rw [h.getElem k hk, Int.toNat_natCast]
  exact ⟨Int.natCast_nonneg k, hk, List.getElem?_eq_getElem hk⟩

/-- Two positions of distinct elements hold the same element only if they are one. -/
theorem IndexedBy.getElem_inj (h : IndexedBy idx l) {i j : ℕ} (hi : i < l.length)
    (hj : j < l.length) (heq : l[i] = l[j]) : i = j :=
  (List.Nodup.getElem_inj_iff h.nodup).mp heq

variable [DecidableEq α]

/-- The indices last reported for each element, after the reports `rs`, oldest first. -/
def record (idx : α → ℤ) (rs : List (α × ℤ)) : α → ℤ :=
  rs.foldl (fun f r => Function.update f r.1 r.2) idx

@[simp] theorem record_nil (idx : α → ℤ) : record idx [] = idx := rfl

@[simp] theorem record_append (idx : α → ℤ) (rs rs' : List (α × ℤ)) :
    record idx (rs ++ rs') = record (record idx rs) rs' := by
  rw [record, List.foldl_append]
  rfl

@[simp] theorem record_cons (idx : α → ℤ) (r : α × ℤ) (rs : List (α × ℤ)) :
    record idx (r :: rs) = record (Function.update idx r.1 r.2) rs := rfl

/-- A swap reports the element moved to `i`, then the one moved to `j`. -/
theorem IndexedBy.swap (h : IndexedBy idx l) {i j : ℕ} (hi : i < l.length) (hj : j < l.length) :
    IndexedBy (record idx [(l[j], (i : ℤ)), (l[i], (j : ℤ))]) (swapAt l i j) := by
  have hperm := swapAt_perm l i j
  refine ⟨hperm.nodup_iff.mpr h.nodup, fun k hk => ?_, fun a ha => ?_⟩
  · -- the element now at `k` came from `swap i j k`; the last report about it names `k`
    have hget : l[Equiv.swap i j k]? = some (swapAt l i j)[k] := by
      rw [← getElem?_swapAt hi hj k, List.getElem?_eq_getElem hk]
    simp only [record_cons, record_nil, Function.update_apply]
    by_cases hkj : k = j
    · subst hkj
      rw [Equiv.swap_apply_right, List.getElem?_eq_getElem hi, Option.some.injEq] at hget
      rw [if_pos hget.symm]
    · by_cases hki : k = i
      · subst hki
        rw [Equiv.swap_apply_left, List.getElem?_eq_getElem hj, Option.some.injEq] at hget
        have hne : (swapAt l k j)[k] ≠ l[k] := fun he =>
          hkj (h.getElem_inj hj hi (hget.trans he)).symm
        rw [if_neg hne, if_pos hget.symm]
      · rw [Equiv.swap_apply_of_ne_of_ne hki hkj] at hget
        have hkl : k < l.length := by simpa using hk
        rw [List.getElem?_eq_getElem hkl, Option.some.injEq] at hget
        have hni : (swapAt l i j)[k] ≠ l[i] := fun he => hki (h.getElem_inj hkl hi (hget.trans he))
        have hnj : (swapAt l i j)[k] ≠ l[j] := fun he => hkj (h.getElem_inj hkl hj (hget.trans he))
        rw [if_neg hni, if_neg hnj, ← hget, h.getElem k hkl]
  · have ha' : a ∉ l := fun hal => ha (hperm.mem_iff.mpr hal)
    have hai : a ≠ l[i] := by rintro rfl; exact ha' (List.getElem_mem hi)
    have haj : a ≠ l[j] := by rintro rfl; exact ha' (List.getElem_mem hj)
    simp only [record_cons, record_nil, Function.update_apply, if_neg hai, if_neg haj]
    exact h.not_mem a ha'

/-- An append of an element that is not there reports the new last position. -/
theorem IndexedBy.append (h : IndexedBy idx l) {a : α} (ha : a ∉ l) :
    IndexedBy (record idx [(a, (l.length : ℤ))]) (l ++ [a]) := by
  refine ⟨List.nodup_append.mpr ⟨h.nodup, List.nodup_singleton a, ?_⟩, fun k hk => ?_,
    fun b hb => ?_⟩
  · intro x hx y hy
    rw [List.mem_singleton] at hy
    rintro rfl
    exact ha (hy ▸ hx)
  · simp only [record_cons, record_nil, Function.update_apply]
    rw [List.length_append, List.length_singleton] at hk
    by_cases hlast : k = l.length
    · subst hlast
      simp
    · have hkl : k < l.length := by omega
      rw [List.getElem_append_left hkl]
      have hne : l[k] ≠ a := fun he => ha (he ▸ List.getElem_mem hkl)
      rw [if_neg hne, h.getElem k hkl]
  · have hba : b ≠ a := by rintro rfl; exact hb (List.mem_append_right l (List.mem_singleton_self b))
    simp only [record_cons, record_nil, Function.update_apply, if_neg hba]
    exact h.not_mem b fun hbl => hb (List.mem_append_left _ hbl)

/-- Cutting off the last element reports it gone. -/
theorem IndexedBy.dropLast {a : α} (h : IndexedBy idx (l ++ [a])) :
    IndexedBy (record idx [(a, -1)]) l := by
  have hnd := List.nodup_append.mp h.nodup
  have ha : a ∉ l := fun hal => hnd.2.2 a hal a (List.mem_singleton_self a) rfl
  refine ⟨hnd.1, fun k hk => ?_, fun b hb => ?_⟩
  · have hne : l[k] ≠ a := fun he => ha (he ▸ List.getElem_mem hk)
    simp only [record_cons, record_nil, Function.update_apply, if_neg hne]
    have := h.getElem k (by rw [List.length_append]; omega)
    rwa [List.getElem_append_left hk] at this
  · simp only [record_cons, record_nil, Function.update_apply]
    split_ifs with hba
    · rfl
    · exact h.not_mem b fun hbl => (List.mem_append.mp hbl).elim hb
        fun hs => hba (List.mem_singleton.mp hs)

end PositionIndex
