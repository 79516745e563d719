import Mathlib.Data.List.Basic

/-!
# Binary search and sorted association lists

`search n f` is the loop of a binary search for the first index of `[0, n)` at which `f` holds,
`n` if there is none. It halves `[i, j)` until it is empty, keeping `f` false below `i` and true at
`j` unless `j = n` (`Bounds`); for an `f` that is false and then true (`Flips`) the answer is the
first index where `f` holds (`search_spec`). On a list read through `f`, the answer splits the list
into the elements where `f` fails and those where it holds (`search_split`).

A list of pairs strictly increasing in its keys is a finite map (`Sorted`): `sortedInsert` puts a
key in its place, replacing the pair of the same key, `List.lookup` reads a key back
(`lookup_sortedInsert`), and both are read off the split of the list at the key (`sortedInsert_split`,
`lookup_split`).
-/

namespace Search

section Loop

/-- The loop on `[i, j)`. `fuel` bounds the rounds; `j - i` of it is enough (`loop_bounds`). -/
def loop (f : ℕ → Bool) : ℕ → ℕ → ℕ → ℕ
  | 0, i, _ => i
  | fuel + 1, i, j =>
      if i < j then
        let h := (i + j) / 2
        if !f h then loop f fuel (h + 1) j else loop f fuel i h
      else i

/-- The first index of `[0, n)` at which `f` holds, or `n`. -/
def search (n : ℕ) (f : ℕ → Bool) : ℕ :=
  loop f n 0 n

/-- `f` is false and then true on `[0, n)`. -/
def Flips (n : ℕ) (f : ℕ → Bool) : Prop :=
  ∀ a b, a ≤ b → b < n → f a = true → f b = true

/-- What the loop keeps of `[i, j)`: `f` fails below `i` and holds at `j`, unless `j = n`. -/
structure Bounds (n : ℕ) (f : ℕ → Bool) (i j : ℕ) : Prop where
  le : i ≤ j
  le_n : j ≤ n
  false_below : ∀ k < i, f k = false
  true_at : j < n → f j = true

variable {n : ℕ} {f : ℕ → Bool} {i j : ℕ}

theorem bounds_init : Bounds n f 0 n :=
  ⟨Nat.zero_le n, Nat.le_refl n, fun _ h => absurd h (Nat.not_lt_zero _), fun h => absurd h (Nat.lt_irrefl n)⟩

/-- The middle fails: by `Flips` so does everything below it. -/
theorem Bounds.right (hf : Flips n f) (h : Bounds n f i j) (hlt : i < j)
    (hm : f ((i + j) / 2) = false) : Bounds n f ((i + j) / 2 + 1) j := by
  refine ⟨by omega, h.le_n, fun k hk => ?_, h.true_at⟩
  cases hfk : f k with
  | false => rfl
  | true =>
      have := hf k ((i + j) / 2) (by omega) (by have := h.le_n; omega) hfk
      rw [hm] at this
      exact absurd this Bool.false_ne_true

theorem Bounds.left (h : Bounds n f i j) (hlt : i < j) (hm : f ((i + j) / 2) = true) :
    Bounds n f i ((i + j) / 2) :=
  ⟨by omega, by have := h.le_n; omega, h.false_below, fun _ => hm⟩

/-- With enough fuel the loop closes `[i, j)` on the first index where `f` holds. -/
theorem loop_bounds (hf : Flips n f) :
    ∀ (fuel i j : ℕ), Bounds n f i j → j - i ≤ fuel →
      Bounds n f (loop f fuel i j) (loop f fuel i j)
  | 0, i, j, h, hfuel => by
      have hj : j = i := by have := h.le; omega
      subst hj
      exact h
  | fuel + 1, i, j, h, hfuel => by
      rw [loop]
      by_cases hlt : i < j
      · rw [if_pos hlt]
        dsimp only
        cases hm : f ((i + j) / 2) with
        | false => exact loop_bounds hf fuel _ j (h.right hf hlt hm) (by omega)
        | true => exact loop_bounds hf fuel i _ (h.left hlt hm) (by omega)
      · rw [if_neg hlt]
        have hj : j = i := by have := h.le; omega
        subst hj
        exact h

theorem loop_le : ∀ (fuel i j : ℕ), i ≤ j → loop f fuel i j ≤ j
  | 0, _, _, h => h
  | fuel + 1, i, j, h => by
      rw [loop]
      by_cases hlt : i < j
      · rw [if_pos hlt]
        dsimp only
        cases f ((i + j) / 2) with
        | false => exact loop_le fuel _ j (by omega)
        | true => exact Nat.le_trans (loop_le fuel i _ (by omega)) (by omega)
      · rw [if_neg hlt]
        exact h

/-- The answer is in `[0, n]` whatever `f` is. -/
theorem search_le (n : ℕ) (f : ℕ → Bool) : search n f ≤ n :=
  loop_le n 0 n (Nat.zero_le n)

theorem search_spec (hf : Flips n f) :
    search n f ≤ n ∧ (∀ k < search n f, f k = false) ∧ (search n f < n → f (search n f) = true) := by
  have h := loop_bounds hf n 0 n bounds_init (by omega)
  exact ⟨h.le_n, h.false_below, h.true_at⟩

end Loop

section List

variable {α : Type*} {l : List α} {p : α → Bool}

/-- The search over a list whose elements fail `p` and then satisfy it: the list splits at the
answer into the elements that fail `p` and those that satisfy it. -/
theorem search_split (hl : l.Pairwise (fun a b => p a = true → p b = true)) :
    (∀ x ∈ l.take (search l.length fun i => l[i]?.all p), p x = false) ∧
      ∀ x ∈ l.drop (search l.length fun i => l[i]?.all p), p x = true := by
  set i := search l.length fun i => l[i]?.all p
  have hflips : Flips l.length fun i => l[i]?.all p := by
    intro a b hab hb ha
    have ha' : a < l.length := by omega
    dsimp only at ha ⊢
    rw [List.getElem?_eq_getElem ha', Option.all_some] at ha
    rw [List.getElem?_eq_getElem hb, Option.all_some]
    rcases Nat.lt_or_eq_of_le hab with hab | rfl
    · exact List.pairwise_iff_getElem.mp hl a b ha' hb hab ha
    · exact ha
  obtain ⟨-, hbelow, hat⟩ := search_spec hflips
  constructor
  · intro x hx
    obtain ⟨k, hk, rfl⟩ := List.mem_take_iff_getElem.mp hx
    have := hbelow k (Nat.lt_of_lt_of_le hk (Nat.min_le_left _ _))
    rwa [List.getElem?_eq_getElem, Option.all_some] at this
  · intro x hx
    obtain ⟨k, hk, rfl⟩ := List.mem_drop_iff_getElem.mp hx
    have hi : i < l.length := by omega
    have := hat hi
    rw [List.getElem?_eq_getElem hi, Option.all_some] at this
    rcases Nat.eq_zero_or_pos k with rfl | hpos
    · simpa using this
    · exact List.pairwise_iff_getElem.mp hl i (i + k) hi (by omega) (by omega) this

end List

section SortedMap

variable {κ β : Type*}

section Lookup

variable [DecidableEq κ] {k : κ}

theorem lookup_cons_ne {k' : κ} {v : β} {l : List (κ × β)} (h : k' ≠ k) :
    ((k, v) :: l).lookup k' = l.lookup k' := by
  rw [List.lookup_cons, beq_false_of_ne h]

end Lookup

variable [LT κ]

/-- The pairs are strictly increasing in their keys. -/
def Sorted (l : List (κ × β)) : Prop :=
  l.Pairwise fun a b => a.1 < b.1

variable [DecidableRel (α := κ) (· < ·)] [DecidableEq κ] {k : κ} {x : β}

/-- Put `(k, x)` in its place, replacing the pair with the key `k`. -/
def sortedInsert (k : κ) (x : β) : List (κ × β) → List (κ × β)
  | [] => [(k, x)]
  | (k', x') :: rest =>
      if k < k' then (k, x) :: (k', x') :: rest
      else if k = k' then (k, x) :: rest
      else (k', x') :: sortedInsert k x rest

theorem mem_sortedInsert {l : List (κ × β)} {a : κ × β} (h : a ∈ sortedInsert k x l) :
    a = (k, x) ∨ a ∈ l := by
  induction l with
  | nil => simpa [sortedInsert] using h
  | cons hd tl ih =>
      obtain ⟨k', x'⟩ := hd
      rw [sortedInsert] at h
      split_ifs at h with h₁ h₂
      · simpa using h
      · simp only [List.mem_cons] at h
        rcases h with h | h
        · exact .inl h
        · exact .inr (List.mem_cons_of_mem _ h)
      · simp only [List.mem_cons] at h
        rcases h with h | h
        · exact .inr (h ▸ List.mem_cons_self)
        · rcases ih h with h | h
          · exact .inl h
          · exact .inr (List.mem_cons_of_mem _ h)

theorem lookup_sortedInsert (l : List (κ × β)) (k' : κ) :
    (sortedInsert k x l).lookup k' = if k' = k then some x else l.lookup k' := by
  induction l with
  | nil =>
      by_cases hk : k' = k
      · subst hk
        simp [sortedInsert]
      · rw [sortedInsert, lookup_cons_ne hk, if_neg hk]
  | cons hd tl ih =>
      obtain ⟨k'', x''⟩ := hd
      rw [sortedInsert]
      by_cases hk : k' = k
      · -- the new pair comes before any other pair of its key
        subst hk
        rw [if_pos rfl]
        split_ifs with h₁ h₂
        · exact List.lookup_cons_self
        · exact List.lookup_cons_self
        · rw [lookup_cons_ne h₂, ih, if_pos rfl]
      · rw [if_neg hk]
        split_ifs with h₁ h₂
        · rw [lookup_cons_ne hk]
        · rw [lookup_cons_ne hk, lookup_cons_ne (h₂ ▸ hk)]
        · by_cases hk'' : k' = k''
          · subst hk''
            rw [List.lookup_cons_self, List.lookup_cons_self]
          · rw [lookup_cons_ne hk'', lookup_cons_ne hk'', ih, if_neg hk]

variable [Std.Trichotomous (α := κ) (· < ·)] [Trans (α := κ) (β := κ) (γ := κ) (· < ·) (· < ·) (· < ·)]

theorem Sorted.sortedInsert {l : List (κ × β)} (h : Sorted l) : Sorted (sortedInsert k x l) := by
  induction l with
  | nil => exact List.pairwise_singleton _ _
  | cons hd tl ih =>
      obtain ⟨k', x'⟩ := hd
      have hhd : ∀ a ∈ tl, k' < a.1 := fun a ha => List.rel_of_pairwise_cons h ha
      rw [Sorted, Search.sortedInsert]
      split_ifs with h₁ h₂
      · -- before the head: below everything after it
        refine List.Pairwise.cons (fun a ha => ?_) h
        rcases List.mem_cons.mp ha with rfl | ha
        · exact h₁
        · exact Trans.trans h₁ (hhd _ ha)
      · -- the head's key: its place
        subst h₂
        exact List.Pairwise.cons (fun a ha => hhd _ ha) h.of_cons
      · -- after the head: the key is above it
        have hk : k' < k := by
          by_contra hk
          exact h₂ (Std.Trichotomous.trichotomous k k' h₁ hk)
        refine List.Pairwise.cons (fun a ha => ?_) (ih h.of_cons)
        rcases mem_sortedInsert ha with rfl | ha
        · exact hk
        · exact hhd _ ha

variable [Std.Irrefl (α := κ) (· < ·)]

/-- Inserting into a list split at the key: the pairs below it, then the new pair, then the pairs
above it, dropping the one with the key. -/
theorem sortedInsert_split {pre post : List (κ × β)} (hpre : ∀ a ∈ pre, a.1 < k)
    (hpost : ∀ a ∈ post, ¬ a.1 < k) :
    sortedInsert k x (pre ++ post) =
      pre ++ (k, x) :: match post with
        | [] => []
        | a :: rest => if a.1 = k then rest else a :: rest := by
  induction pre with
  | nil =>
      cases post with
      | nil => rfl
      | cons a rest =>
          obtain ⟨k', x'⟩ := a
          have hk := hpost (k', x') List.mem_cons_self
          rw [List.nil_append, sortedInsert]
          by_cases hlt : k < k'
          · have hne : k' ≠ k := by
              rintro rfl
              exact Std.Irrefl.irrefl k' hlt
            rw [if_pos hlt]
            dsimp only
            rw [if_neg hne, List.nil_append]
          · have heq : k = k' := Std.Trichotomous.trichotomous k k' hlt hk
            subst heq
            rw [if_neg hlt, if_pos rfl]
            dsimp only
            rw [if_pos rfl, List.nil_append]
  | cons a pre ih =>
      obtain ⟨k', x'⟩ := a
      have hk : k' < k := hpre (k', x') List.mem_cons_self
      have hnlt : ¬ k < k' := fun h => Std.Irrefl.irrefl k (Trans.trans h hk)
      have hne : k ≠ k' := by
        rintro rfl
        exact Std.Irrefl.irrefl k hk
      rw [List.cons_append, sortedInsert, if_neg hnlt, if_neg hne,
        ih fun a ha => hpre a (List.mem_cons_of_mem _ ha)]
      rfl

/-- A sorted list split at the key has it, if anywhere, at the head of the upper part. -/
theorem lookup_split {pre post : List (κ × β)} (hpre : ∀ a ∈ pre, a.1 < k)
    (hpost : ∀ a ∈ post, ¬ a.1 < k) (hsorted : Sorted post) :
    (pre ++ post).lookup k = match post with
      | [] => none
      | a :: _ => if a.1 = k then some a.2 else none := by
  induction pre with
  | nil =>
      cases post with
      | nil => rfl
      | cons a rest =>
          obtain ⟨k', x'⟩ := a
          by_cases hk : k' = k
          · subst hk
            dsimp only
            rw [List.nil_append, List.lookup_cons_self, if_pos rfl]
          · -- the head is above the key, and the rest above the head
            have hlt : k < k' := by
              by_contra hlt
              exact hk (Std.Trichotomous.trichotomous k' k (hpost _ List.mem_cons_self) hlt)
            have hrest : ∀ a ∈ rest, a.1 ≠ k := fun a ha he =>
              Std.Irrefl.irrefl k (he ▸ Trans.trans hlt (List.rel_of_pairwise_cons hsorted ha))
            dsimp only
            rw [List.nil_append, lookup_cons_ne (Ne.symm hk), if_neg hk]
            exact List.lookup_eq_none_iff.mpr fun p hp => bne_iff_ne.mpr fun he => hrest p hp he.symm
  | cons a pre ih =>
      obtain ⟨k', x'⟩ := a
      have hne : k ≠ k' := by
        rintro rfl
        exact Std.Irrefl.irrefl k (hpre (k, x') List.mem_cons_self)
      rw [List.cons_append, lookup_cons_ne hne]
      exact ih fun a ha => hpre a (List.mem_cons_of_mem _ ha)

end SortedMap

end Search
