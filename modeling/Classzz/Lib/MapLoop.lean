import Mathlib.Data.List.AList

/-!
# Loops over finite maps

A finite map with distinct keys is an `AList`, and a loop over its entries a `foldl` over
them, in whatever order they come. The loops here write each key they visit into another
map: they assign it a value made from the value there and their own, or they delete it.
Since the keys are distinct, what the result holds at a key is decided by the visit of that
key alone, so the order of the visits does not matter (`lookup_foldl_insert`,
`lookup_foldl_erase`). A loop that reads only the keys is a fold over them (`foldl_keys`).
-/

namespace AList

variable {α β γ : Type*}

/-- A loop that reads only the keys. -/
theorem foldl_keys {δ : Type*} (s : AList fun _ : α => γ) (g : δ → α → δ) (d : δ) :
    s.foldl (fun d a _ => g d a) d = s.keys.foldl g d := by
  rw [AList.foldl, keys, List.keys, List.foldl_map]

/-- A loop whose steps change a part of the state as steps of their own on that part
computes that part as a loop of those steps. -/
theorem foldl_hom {δ ε : Type*} (f : δ → ε) {g₁ : δ → α → γ → δ} {g₂ : ε → α → γ → ε}
    (h : ∀ d a c, g₂ (f d) a c = f (g₁ d a c)) (s : AList fun _ : α => γ) (d : δ) :
    s.foldl g₂ (f d) = f (s.foldl g₁ d) :=
  List.foldl_hom f fun d e => h d e.1 e.2

/-- A loop whose steps leave a part of the state as it is leaves it. -/
theorem foldl_frame {δ ε : Type*} (f : δ → ε) {g : δ → α → γ → δ}
    (h : ∀ d a c, f (g d a c) = f d) (s : AList fun _ : α => γ) (d : δ) :
    f (s.foldl g d) = f d := by
  have hloop : s.foldl (fun e _ _ => e) (f d) = f (s.foldl g d) :=
    foldl_hom f (fun d a c => (h d a c).symm) s d
  rw [← hloop, foldl_keys]
  induction s.keys with
  | nil => rfl
  | cons a l ih => exact ih

variable [DecidableEq α]

/-- `lookup_foldl_insert` on the entries of the visiting map. -/
theorem lookup_foldl_insert_entries (g : Option β → γ → β) (x : α) :
    ∀ (l : List (Sigma fun _ : α => γ)), l.NodupKeys → ∀ (t : AList fun _ : α => β),
      (l.foldl (fun t e => t.insert e.1 (g (t.lookup e.1) e.2)) t).lookup x =
        (l.dlookup x).elim (t.lookup x) fun c => some (g (t.lookup x) c)
  | [], _, _ => rfl
  | e :: l, hl, t => by
    obtain ⟨he, hl⟩ := List.nodupKeys_cons.mp hl
    rw [List.foldl_cons, lookup_foldl_insert_entries g x l hl]
    by_cases hx : x = e.1
    · -- the visit of `x`; the rest of the loop does not come back to it
      subst hx
      have hrest : l.dlookup e.1 = none := List.dlookup_eq_none.mpr he
      rw [hrest, lookup_insert, List.dlookup_cons_eq]
      rfl
    · rw [List.dlookup_cons_ne l e hx, lookup_insert_ne hx]

/-- A loop that assigns every key it visits in another map, to a value made from the
value there and its own: at every key the result holds that assignment if the loop visits
the key, and the other map's value if not. -/
theorem lookup_foldl_insert (g : Option β → γ → β) (s : AList fun _ : α => γ)
    (t : AList fun _ : α => β) (x : α) :
    (s.foldl (fun t a c => t.insert a (g (t.lookup a) c)) t).lookup x =
      (s.lookup x).elim (t.lookup x) fun c => some (g (t.lookup x) c) :=
  lookup_foldl_insert_entries g x s.entries s.nodupKeys t

/-- `lookup_foldl_erase` on the keys of the visiting map. -/
theorem lookup_foldl_erase_keys (x : α) :
    ∀ (l : List α) (t : AList fun _ : α => β),
      (l.foldl (fun t a => t.erase a) t).lookup x = if x ∈ l then none else t.lookup x
  | [], _ => rfl
  | a :: l, t => by
    rw [List.foldl_cons, lookup_foldl_erase_keys x l]
    by_cases hx : x = a
    · subst hx
      simp
    · simp [hx, lookup_erase_ne hx]

/-- A loop that deletes every key it visits from another map. -/
theorem lookup_foldl_erase (s : AList fun _ : α => γ) (t : AList fun _ : α => β) (x : α) :
    (s.foldl (fun t a _ => t.erase a) t).lookup x = if x ∈ s then none else t.lookup x := by
  rw [foldl_keys, lookup_foldl_erase_keys]
  by_cases hx : x ∈ s
  · rw [if_pos (mem_keys.mp hx), if_pos hx]
  · rw [if_neg (mt mem_keys.mpr hx), if_neg hx]

end AList
