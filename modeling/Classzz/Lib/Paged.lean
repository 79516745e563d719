import Mathlib.Data.List.Basic
import Mathlib.Data.List.ReduceOption

/-!
# Paged arrays

A list of pages of `P` slots each, addressed as `pages[i / P][i % P]`. Where every page has `P`
slots (`Shape`), reading that slot reads the flat list at `i` (`get?_eq`) and writing it writes
the flat list (`flatten_set`).

A stack kept in such slots has its elements first and empty slots after (`filled`); pushing
writes the first empty slot and popping empties the last full one.
-/

namespace Paged

variable {α : Type*} {P : ℕ}

/-- Every page has `P` slots. -/
def Shape (P : ℕ) (pages : List (List α)) : Prop :=
  ∀ pg ∈ pages, pg.length = P

/-- `pages[i / P][i % P]`; `none` where the indexing is out of range. -/
def get? (P : ℕ) (pages : List (List α)) (i : ℕ) : Option α :=
  pages[i / P]?.bind (·[i % P]?)

/-- `pages[i / P][i % P] = x`. -/
def set (P : ℕ) (pages : List (List α)) (i : ℕ) (x : α) : List (List α) :=
  pages.modify (i / P) (·.set (i % P) x)

@[simp] theorem shape_nil : Shape P ([] : List (List α)) := by
  simp [Shape]

@[simp] theorem shape_cons {pg : List α} {pages : List (List α)} :
    Shape P (pg :: pages) ↔ pg.length = P ∧ Shape P pages :=
  List.forall_mem_cons

theorem Shape.append {pages : List (List α)} (hs : Shape P pages) {pg : List α}
    (hpg : pg.length = P) : Shape P (pages ++ [pg]) := by
  intro q hq
  rcases List.mem_append.mp hq with hq | hq
  · exact hs q hq
  · rw [List.mem_singleton.mp hq, hpg]

theorem length_flatten {pages : List (List α)} (hs : Shape P pages) :
    pages.flatten.length = pages.length * P := by
  induction pages with
  | nil => simp
  | cons pg pages ih =>
    rw [shape_cons] at hs
    rw [List.flatten_cons, List.length_append, ih hs.2, hs.1, List.length_cons, Nat.succ_mul,
      Nat.add_comm]

/-- An index past the first page is an index into the rest. -/
theorem div_mod_of_le (hP : 0 < P) {i : ℕ} (hi : P ≤ i) :
    i / P = (i - P) / P + 1 ∧ i % P = (i - P) % P :=
  ⟨Nat.div_eq_sub_div hP hi, Nat.mod_eq_sub_mod hi⟩

section Shaped

variable (hP : 0 < P)
include hP

theorem get?_eq {pages : List (List α)} (hs : Shape P pages) (i : ℕ) :
    get? P pages i = pages.flatten[i]? := by
  induction pages generalizing i with
  | nil => simp [get?]
  | cons pg pages ih =>
    rw [shape_cons] at hs
    rw [List.flatten_cons]
    by_cases hi : i < P
    · -- the first page
      rw [get?, Nat.div_eq_of_lt hi, Nat.mod_eq_of_lt hi, List.getElem?_append_left (by omega)]
      rfl
    · obtain ⟨hdiv, hmod⟩ := div_mod_of_le hP (Nat.le_of_not_lt hi)
      rw [get?, hdiv, hmod, List.getElem?_cons_succ, List.getElem?_append_right (by omega), hs.1,
        ← ih hs.2]
      rfl

theorem flatten_set {pages : List (List α)} (hs : Shape P pages) (i : ℕ) (x : α) :
    (set P pages i x).flatten = pages.flatten.set i x := by
  induction pages generalizing i with
  | nil => simp [set]
  | cons pg pages ih =>
    rw [shape_cons] at hs
    by_cases hi : i < P
    · rw [set, Nat.div_eq_of_lt hi, Nat.mod_eq_of_lt hi, List.modify_zero_cons, List.flatten_cons,
        List.flatten_cons, List.set_append_left _ _ (by omega)]
    · obtain ⟨hdiv, hmod⟩ := div_mod_of_le hP (Nat.le_of_not_lt hi)
      have hrest := ih hs.2 (i - P)
      rw [set] at hrest
      rw [set, hdiv, hmod, List.modify_succ_cons, List.flatten_cons, List.flatten_cons, hrest,
        List.set_append_right _ _ (by omega), hs.1]

theorem shape_set {pages : List (List α)} (hs : Shape P pages) (i : ℕ) (x : α) :
    Shape P (set P pages i x) := by
  induction pages generalizing i with
  | nil => simp [set]
  | cons pg pages ih =>
    rw [shape_cons] at hs
    by_cases hi : i < P
    · rw [set, Nat.div_eq_of_lt hi, List.modify_zero_cons, shape_cons, List.length_set]
      exact hs
    · obtain ⟨hdiv, -⟩ := div_mod_of_le hP (Nat.le_of_not_lt hi)
      have hrest := ih hs.2 (i - P)
      rw [set] at hrest
      rw [set, hdiv, List.modify_succ_cons, shape_cons]
      exact ⟨hs.1, by rwa [Nat.mod_eq_sub_mod (Nat.le_of_not_lt hi)]⟩

end Shaped

@[simp] theorem length_set (pages : List (List α)) (i : ℕ) (x : α) :
    (set P pages i x).length = pages.length :=
  List.length_modify _ _ _

/-! ### Full slots, then empty ones -/

/-- The slots of `items`, then `k` empty slots. -/
def filled (items : List α) (k : ℕ) : List (Option α) :=
  items.map some ++ List.replicate k none

@[simp] theorem length_filled (items : List α) (k : ℕ) :
    (filled items k).length = items.length + k := by
  simp [filled]

theorem getElem?_filled_of_lt {items : List α} {i : ℕ} (hi : i < items.length) (k : ℕ) :
    (filled items k)[i]? = some (some items[i]) := by
  rw [filled, List.getElem?_append_left (by simpa using hi), List.getElem?_map,
    List.getElem?_eq_getElem hi]
  rfl

/-- Only the first `items.length` slots hold an element. -/
theorem lt_of_getElem?_filled {items : List α} {k i : ℕ} {x : α}
    (h : (filled items k)[i]? = some (some x)) : i < items.length := by
  by_contra hi
  rw [filled, List.getElem?_append_right (by simpa using Nat.le_of_not_lt hi),
    List.getElem?_replicate] at h
  split_ifs at h
  cases h

theorem set_filled_of_lt {items : List α} {i : ℕ} (hi : i < items.length) (k : ℕ) (x : α) :
    (filled items k).set i (some x) = filled (items.set i x) k := by
  rw [filled, List.set_append_left _ _ (by simpa using hi), ← List.map_set, filled]

/-- Writing the first empty slot pushes. -/
theorem set_filled_length (items : List α) (k : ℕ) (x : α) :
    (filled items (k + 1)).set items.length (some x) = filled (items ++ [x]) k := by
  rw [filled, List.set_append_right _ _ (by simp), List.length_map, Nat.sub_self,
    List.replicate_succ, List.set_cons_zero, filled, List.map_append, List.map_singleton,
    List.append_assoc, List.singleton_append]

/-- Emptying the last full slot pops. -/
theorem set_filled_last (items : List α) (x : α) (k : ℕ) :
    (filled (items ++ [x]) k).set items.length none = filled items (k + 1) := by
  rw [filled, List.map_append, List.map_singleton, List.append_assoc,
    List.set_append_right _ _ (by simp), List.length_map, Nat.sub_self, List.singleton_append,
    List.set_cons_zero, filled, List.replicate_succ]

/-- The elements are what the full slots hold. -/
theorem reduceOption_take_filled (items : List α) (k : ℕ) :
    ((filled items k).take items.length).reduceOption = items := by
  rw [filled, List.take_left' (by simp)]
  simp [List.reduceOption]

end Paged
