import Mathlib.Data.List.Basic
import Mathlib.Order.Defs.Unbundled

/-!
# Keys that part to the left

`LeftOf a b`: the lists `a` and `b` agree up to a position where both go on, and there `a` has
the smaller element. Such keys are in increasing lexicographic order with neither a prefix of the other
(`LeftOf.lt_not_prefix`): the order in which a builder that only ever grows the right edge of a trie must
be handed its keys.

The relation is read off one element at a time (`leftOf_cons_cons_iff`), survives a common
prefix (`LeftOf.append`), splits where the left key continues a known prefix
(`LeftOf.append_left_cases`), and is carried through a `flatMap` by a code that keeps it on
single letters (`LeftOf.flatMap`).
-/

namespace KeyOrder

variable {α β : Type*}

section LT

variable [LT α]

/-- `a` and `b` part at some position, `a` with the smaller element. -/
def LeftOf (a b : List α) : Prop :=
  ∃ p x y s t, a = p ++ x :: s ∧ b = p ++ y :: t ∧ x < y

theorem leftOf_cons_cons {x y : α} (a b : List α) (h : x < y) : LeftOf (x :: a) (y :: b) :=
  ⟨[], x, y, a, b, rfl, rfl, h⟩

theorem LeftOf.cons (x : α) {a b : List α} (h : LeftOf a b) : LeftOf (x :: a) (x :: b) := by
  obtain ⟨p, u, v, s, t, rfl, rfl, huv⟩ := h
  exact ⟨x :: p, u, v, s, t, rfl, rfl, huv⟩

theorem LeftOf.append (p : List α) {a b : List α} (h : LeftOf a b) : LeftOf (p ++ a) (p ++ b) := by
  obtain ⟨q, u, v, s, t, rfl, rfl, huv⟩ := h
  exact ⟨p ++ q, u, v, s, t, by rw [List.append_assoc], by rw [List.append_assoc], huv⟩

theorem not_leftOf_nil_left (b : List α) : ¬ LeftOf [] b := by
  rintro ⟨p, x, y, s, t, ha, -, -⟩
  simp at ha

theorem not_leftOf_nil_right (a : List α) : ¬ LeftOf a [] := by
  rintro ⟨p, x, y, s, t, -, hb, -⟩
  simp at hb

theorem leftOf_cons_cons_iff {x y : α} {a b : List α} :
    LeftOf (x :: a) (y :: b) ↔ x < y ∨ (x = y ∧ LeftOf a b) := by
  constructor
  · rintro ⟨_ | ⟨z, p⟩, u, v, s, t, ha, hb, huv⟩
    · -- the lists part at their first elements
      simp only [List.nil_append, List.cons.injEq] at ha hb
      obtain ⟨rfl, -⟩ := ha
      obtain ⟨rfl, -⟩ := hb
      exact .inl huv
    · simp only [List.cons_append, List.cons.injEq] at ha hb
      obtain ⟨rfl, rfl⟩ := ha
      obtain ⟨rfl, rfl⟩ := hb
      exact .inr ⟨rfl, p, u, v, s, t, rfl, rfl, huv⟩
  · rintro (h | ⟨rfl, h⟩)
    · exact leftOf_cons_cons a b h
    · exact h.cons x

/-- A key left of `k ++ last` either continues `k` too, by a key left of `last`, or parts
from `k` itself. -/
theorem LeftOf.append_left_cases {k last rest : List α} (h : LeftOf (k ++ last) rest) :
    (∃ rest', rest = k ++ rest' ∧ LeftOf last rest') ∨
      ∃ p x y s t, k = p ++ x :: s ∧ rest = p ++ y :: t ∧ x < y := by
  induction k generalizing rest with
  | nil => exact .inl ⟨rest, rfl, h⟩
  | cons z k ih =>
    cases rest with
    | nil => exact absurd h (not_leftOf_nil_right _)
    | cons y rest =>
      rcases leftOf_cons_cons_iff.mp h with hzy | ⟨rfl, htail⟩
      · exact .inr ⟨[], z, y, k, rest, rfl, rfl, hzy⟩
      · rcases ih htail with ⟨rest', rfl, hlast⟩ | ⟨p, x, y', s, t, rfl, rfl, hxy⟩
        · exact .inl ⟨rest', rfl, hlast⟩
        · exact .inr ⟨z :: p, x, y', s, t, rfl, rfl, hxy⟩

/-- A code that keeps the order of single letters keeps it on words. -/
theorem LeftOf.flatMap [LT β] {f : α → List β} (hf : ∀ x y, x < y → LeftOf (f x) (f y))
    {a b : List α} (h : LeftOf a b) : LeftOf (a.flatMap f) (b.flatMap f) := by
  obtain ⟨p, x, y, s, t, rfl, rfl, hxy⟩ := h
  obtain ⟨q, u, v, r, w, hx, hy, huv⟩ := hf x y hxy
  refine ⟨p.flatMap f ++ q, u, v, r ++ s.flatMap f, w ++ t.flatMap f, ?_, ?_, huv⟩
  · simp [List.flatMap_append, hx]
  · simp [List.flatMap_append, hy]

/-- Keys that part to the left are in increasing lexicographic order, neither a prefix of the
other. -/
theorem LeftOf.lt_not_prefix [Std.Asymm (α := α) (· < ·)] {a b : List α} (h : LeftOf a b) :
    a < b ∧ ¬ a <+: b ∧ ¬ b <+: a := by
  obtain ⟨p, x, y, s, t, rfl, rfl, hxy⟩ := h
  induction p with
  | nil =>
    -- the first elements differ, the smaller one in `a`
    have hne : x ≠ y := fun he => asymm hxy (he ▸ hxy)
    simp only [List.nil_append, List.cons_lt_cons_iff, List.cons_prefix_cons]
    exact ⟨.inl hxy, fun hp => hne hp.1, fun hp => hne hp.1.symm⟩
  | cons z p ih =>
    simp only [List.cons_append, List.cons_lt_cons_iff, List.cons_prefix_cons, true_and]
    exact ⟨.inr ih.1, ih.2.1, ih.2.2⟩

end LT

instance asymm_uint8_lt : Std.Asymm (α := UInt8) (· < ·) :=
  ⟨fun a b h h' => by
    rw [UInt8.lt_iff_toNat_lt] at h h'
    omega⟩

end KeyOrder
