import Mathlib.Data.List.Basic

/-!
# Go slices over a heap of arrays

A Go slice is a header, a backing array with a length and a capacity, over an array that other
slices may share. `append` writes into the backing array while the capacity allows, and
otherwise copies into a fresh array that the runtime grows to a capacity of its own choosing
(`Growth`); deleting an element with `append(s[:i], s[i+1:]...)` moves the later elements down
in place. The arrays live in a heap (`Arrays`) with an allocation counter, so a fresh array is
one that no header mentions yet.

What a slice holds is the first `len` cells of its array (`contents`). Each operation on a slice
writes its own array or a fresh one and nothing else (`ChangesOnly`, `Grows`), so a slice over
another allocated array holds what it held (`ChangesOnly.contents`): the frame rule that an
aliasing argument rests on. Building a slice by appending from an empty one (`build`), as copy
loops and decoders do, writes only fresh arrays.
-/

namespace GoSlice

/-- How far the runtime grows the array of an `append` that overflows it: from the old capacity,
to hold the new length. -/
structure Growth where
  grow : ℕ → ℕ → ℕ
  le_grow : ∀ cap len, len ≤ grow cap len

/-- `growslice` below 256 elements, without the rounding up to a size class: the capacity
doubles, or goes straight to the new length past that. -/
def Growth.doubling : Growth :=
  ⟨fun cap len => if len > 2 * cap then len else 2 * cap, fun cap len => by split_ifs <;> omega⟩

/-- A slice header: its backing array, its length and its capacity. -/
structure Slice where
  array : ℕ
  len : ℕ
  cap : ℕ
  deriving DecidableEq, Repr

/-- A heap of arrays of `α`: the cells of every allocated array, and the next free location. -/
structure Arrays (α : Type*) where
  cells : ℕ → List α
  next : ℕ

variable {α : Type*}

/-- The heap with no array. -/
def Arrays.empty : Arrays α :=
  ⟨fun _ => [], 0⟩

namespace Arrays

/-- What a slice holds: the first `len` cells of its array. -/
def contents (h : Arrays α) (s : Slice) : List α :=
  (h.cells s.array).take s.len

/-- A header fits its array: an allocated array of `cap` cells, of which `len` are in use. -/
structure Fits (h : Arrays α) (s : Slice) : Prop where
  len_le : s.len ≤ s.cap
  length_cells : (h.cells s.array).length = s.cap
  lt_next : s.array < h.next

/-- `append(s[:i], s[i+1:]...)` for `i < len(s)`: the cells after `i` move down one in place,
and the last cell in use keeps its value. -/
def deleteAt (h : Arrays α) (s : Slice) (i : ℕ) : Slice × Arrays α :=
  let cells := ((h.cells s.array).take s.len).eraseIdx i ++ (h.cells s.array).drop (s.len - 1)
  (⟨s.array, s.len - 1, s.cap⟩, { h with cells := Function.update h.cells s.array cells })

section Defs

variable [Inhabited α]

/-- `make([]T, len(l), cap)` holding `l`: a fresh array, its cells past `l` zero. -/
def alloc (h : Arrays α) (l : List α) (cap : ℕ) : Slice × Arrays α :=
  (⟨h.next, l.length, cap⟩,
    ⟨Function.update h.cells h.next (l ++ List.replicate (cap - l.length) default), h.next + 1⟩)

/-- `append(s, x)`: in place while the capacity allows, else into a fresh, grown array. -/
def append (g : Growth) (h : Arrays α) (s : Slice) (x : α) : Slice × Arrays α :=
  if s.len < s.cap then
    (⟨s.array, s.len + 1, s.cap⟩,
      { h with cells := Function.update h.cells s.array ((h.cells s.array).set s.len x) })
  else h.alloc (h.contents s ++ [x]) (g.grow s.cap (s.len + 1))

/-- A slice built by appending the elements of `l` one by one to `make([]T, 0, 0)`. -/
def build (g : Growth) (h : Arrays α) (l : List α) : Slice × Arrays α :=
  l.foldl (fun p x => p.2.append g p.1 x) (h.alloc [] 0)

end Defs

/-- `h'` differs from `h` at most in the array `a` and in fresh arrays. -/
structure ChangesOnly (h h' : Arrays α) (a : ℕ) : Prop where
  next_le : h.next ≤ h'.next
  cells_eq : ∀ b, b < h.next → b ≠ a → h'.cells b = h.cells b

/-- `h'` differs from `h` only in fresh arrays. -/
structure Grows (h h' : Arrays α) : Prop where
  next_le : h.next ≤ h'.next
  cells_eq : ∀ b, b < h.next → h'.cells b = h.cells b

section Frame

variable {h h' h'' : Arrays α}

theorem Grows.refl (h : Arrays α) : Grows h h :=
  ⟨Nat.le_refl _, fun _ _ => rfl⟩

theorem Grows.trans (h₁ : Grows h h') (h₂ : Grows h' h'') : Grows h h'' :=
  ⟨Nat.le_trans h₁.next_le h₂.next_le, fun b hb => (h₂.cells_eq b (Nat.lt_of_lt_of_le hb h₁.next_le)).trans
    (h₁.cells_eq b hb)⟩

theorem Grows.changesOnly (hg : Grows h h') (a : ℕ) : ChangesOnly h h' a :=
  ⟨hg.next_le, fun b hb _ => hg.cells_eq b hb⟩

/-- After a heap that only grew, changing an array that was fresh still only grows it. -/
theorem Grows.trans_changesOnly {a : ℕ} (hg : Grows h h') (hc : ChangesOnly h' h'' a)
    (ha : h.next ≤ a) : Grows h h'' :=
  ⟨Nat.le_trans hg.next_le hc.next_le, fun b hb => (hc.cells_eq b (Nat.lt_of_lt_of_le hb hg.next_le)
    (by omega)).trans (hg.cells_eq b hb)⟩

/-- Changing an array that is fresh for `h` only grows `h`. -/
theorem ChangesOnly.grows {a : ℕ} (hc : ChangesOnly h h' a) (ha : h.next ≤ a) : Grows h h' :=
  ⟨hc.next_le, fun b hb => hc.cells_eq b hb (by omega)⟩

/-- A slice over another allocated array holds what it held, and still fits. -/
theorem ChangesOnly.contents {a : ℕ} (hc : ChangesOnly h h' a) {t : Slice} (ht : h.Fits t)
    (hta : t.array ≠ a) : h'.contents t = h.contents t ∧ h'.Fits t := by
  have hcells := hc.cells_eq t.array ht.lt_next hta
  refine ⟨by rw [Arrays.contents, hcells]; rfl, ht.len_le, by rw [hcells]; exact ht.length_cells,
    Nat.lt_of_lt_of_le ht.lt_next hc.next_le⟩

theorem Grows.contents (hg : Grows h h') {t : Slice} (ht : h.Fits t) :
    h'.contents t = h.contents t ∧ h'.Fits t := by
  have hcells := hg.cells_eq t.array ht.lt_next
  refine ⟨by rw [Arrays.contents, hcells]; rfl, ht.len_le, by rw [hcells]; exact ht.length_cells,
    Nat.lt_of_lt_of_le ht.lt_next hg.next_le⟩

end Frame

/-! ### What each operation does -/

section Ops

variable (g : Growth) {h : Arrays α}

/-- Deleting the element at `i` writes the slice's own array, which keeps its cells. -/
theorem deleteAt_spec {s : Slice} (hs : h.Fits s) {i : ℕ} (hi : i < s.len) :
    (h.deleteAt s i).2.Fits (h.deleteAt s i).1 ∧
      (h.deleteAt s i).2.contents (h.deleteAt s i).1 = (h.contents s).eraseIdx i ∧
      ChangesOnly h (h.deleteAt s i).2 s.array ∧ (h.deleteAt s i).1.array = s.array := by
  have hlen := hs.length_cells
  have hle := hs.len_le
  have hkept : (((h.cells s.array).take s.len).eraseIdx i).length = s.len - 1 := by
    rw [List.length_eraseIdx, if_pos (by simp; omega), List.length_take]
    omega
  refine ⟨⟨by simp only [deleteAt]; omega, ?_, hs.lt_next⟩, ?_,
    ⟨Nat.le_refl _, fun b _ hb => by simp [deleteAt, Function.update_of_ne hb]⟩, rfl⟩
  · simp only [deleteAt, Function.update_self, List.length_append, hkept, List.length_drop, hlen]
    omega
  · simp only [deleteAt, contents, Function.update_self]
    exact List.take_left' hkept

variable [Inhabited α] (h)

theorem alloc_spec (l : List α) {cap : ℕ} (hcap : l.length ≤ cap) :
    (h.alloc l cap).2.Fits (h.alloc l cap).1 ∧
      (h.alloc l cap).2.contents (h.alloc l cap).1 = l ∧
      Grows h (h.alloc l cap).2 ∧ (h.alloc l cap).1.array = h.next := by
  refine ⟨⟨hcap, ?_, Nat.lt_succ_self _⟩, ?_, ⟨Nat.le_succ _, fun b hb => ?_⟩, rfl⟩
  · simp only [alloc, Function.update_self, List.length_append, List.length_replicate]
    omega
  · simp [alloc, contents]
  · simp [alloc, Function.update_of_ne (Nat.ne_of_lt hb)]

variable {h}

/-- `append` adds the element at the end, writing the slice's own array or a fresh one. -/
theorem append_spec {s : Slice} (hs : h.Fits s) (x : α) :
    (h.append g s x).2.Fits (h.append g s x).1 ∧
      (h.append g s x).2.contents (h.append g s x).1 = h.contents s ++ [x] ∧
      ChangesOnly h (h.append g s x).2 s.array ∧
      ((h.append g s x).1.array = s.array ∨ h.next ≤ (h.append g s x).1.array) := by
  unfold append
  split_ifs with hlt
  · -- the element goes into the next cell of the array
    have hlen := hs.length_cells
    refine ⟨⟨hlt, by simp [hlen], hs.lt_next⟩, ?_, ⟨Nat.le_refl _, fun b _ hb => ?_⟩, .inl rfl⟩
    · simp only [contents, Function.update_self]
      rw [List.take_add_one, List.getElem?_set_self (by omega), List.take_set_of_le (Nat.le_refl _)]
      rfl
    · simp [Function.update_of_ne hb]
  · -- a fresh array, grown past the capacity
    have hlen : (h.contents s ++ [x]).length = s.len + 1 := by
      simp only [contents, List.length_append, List.length_take, hs.length_cells,
        List.length_singleton]
      have := hs.len_le
      omega
    obtain ⟨hfit, hcont, hgrow, harr⟩ :=
      alloc_spec h (h.contents s ++ [x]) (Nat.le_trans (Nat.le_of_eq hlen) (g.le_grow s.cap (s.len + 1)))
    exact ⟨hfit, hcont, hgrow.changesOnly s.array, .inr (Nat.le_of_eq harr.symm)⟩

/-- Appending the elements one by one from an empty slice gives a slice that holds them, over a
fresh array, and writes fresh arrays only. -/
theorem build_spec (l : List α) :
    (h.build g l).2.Fits (h.build g l).1 ∧ (h.build g l).2.contents (h.build g l).1 = l ∧
      Grows h (h.build g l).2 ∧ h.next ≤ (h.build g l).1.array := by
  obtain ⟨hfit₀, hcont₀, hgrow₀, harr₀⟩ := alloc_spec h ([] : List α) (Nat.le_refl 0)
  -- the loop carries a fitting slice over a fresh array, holding the elements so far
  suffices H : ∀ (l : List α) (p : Slice × Arrays α), p.2.Fits p.1 → Grows h p.2 →
      h.next ≤ p.1.array →
      (l.foldl (fun p x => p.2.append g p.1 x) p).2.Fits (l.foldl (fun p x => p.2.append g p.1 x) p).1 ∧
        (l.foldl (fun p x => p.2.append g p.1 x) p).2.contents
          (l.foldl (fun p x => p.2.append g p.1 x) p).1 = p.2.contents p.1 ++ l ∧
        Grows h (l.foldl (fun p x => p.2.append g p.1 x) p).2 ∧
        h.next ≤ (l.foldl (fun p x => p.2.append g p.1 x) p).1.array by
    have := H l (h.alloc [] 0) hfit₀ hgrow₀ (Nat.le_of_eq harr₀.symm)
    rwa [hcont₀, List.nil_append] at this
  intro l
  induction l with
  | nil => exact fun p hp hg ha => ⟨hp, (List.append_nil _).symm, hg, ha⟩
  | cons x l ih =>
    intro p hp hg ha
    obtain ⟨hfit, hcont, hchg, harr⟩ := append_spec g hp x
    have hg' : Grows h (p.2.append g p.1 x).2 := hg.trans_changesOnly hchg ha
    have ha' : h.next ≤ (p.2.append g p.1 x).1.array := by
      rcases harr with harr | harr
      · rw [harr]
        exact ha
      · exact Nat.le_trans hg.next_le harr
    obtain ⟨hfit', hcont', hgrow', harr'⟩ := ih _ hfit hg' ha'
    refine ⟨hfit', ?_, hgrow', harr'⟩
    rw [List.foldl_cons, hcont', hcont, List.append_assoc, List.singleton_append]
end Ops

end Arrays

end GoSlice
