import Mathlib.Logic.Basic
import Mathlib.Tactic.SplitIfs

/-!
# Inverting computations in `Except`

A `do` block in `Except` returns `.ok b` only when every bind succeeds and
every guard `if c then throw e` is passed. The lemmas here turn such an
equation into the facts about its steps, in the block's own order, so that a
proof about a program never unfolds `bind`: `simp only` with them flattens a
block into a conjunction, and what is left are the pattern matches of the
block, which `split` takes apart.

What a block can fail with is a postcondition on its errors, `OnlyRaises P`,
with one rule for each way a block is built: a value, a `throw`, a `bind`, a
guard and a branch. A proof that every error of a program is of some kind
follows the program's text with these rules.
-/

namespace Except

variable {ε α β : Type}

theorem bind_eq_ok {x : Except ε α} {f : α → Except ε β} {b : β} :
    x >>= f = .ok b ↔ ∃ a, x = .ok a ∧ f a = .ok b := by
  cases x <;> simp [bind, Except.bind]

theorem throw_bind {e : ε} {f : α → Except ε β} :
    (throw e >>= f : Except ε β) = throw e := rfl

theorem ok_bind {a : α} {f : α → Except ε β} : (Except.ok a >>= f) = f a := rfl

theorem map_throw {f : α → β} {e : ε} : (f <$> (throw e : Except ε α)) = throw e := rfl

theorem throw_ne_ok {e : ε} {b : β} : (throw e : Except ε β) ≠ .ok b := by
  simp [throw, throwThe, MonadExceptOf.throw]

/-- A guard of a `do` block is passed only when its condition fails. -/
theorem ite_throw_eq_ok {c : Prop} [Decidable c] {e : ε} {y : Except ε β} {b : β} :
    (if c then throw e else y) = .ok b ↔ ¬ c ∧ y = .ok b := by
  split_ifs with h
  · simp [h]
  · simp [h]

/-- A step made only when `c` holds, as `if c then x` in a `do` block, leaves the rest of
the block to succeed. -/
theorem ite_bind_eq_ok_right {c : Prop} [Decidable c] {x : Except ε Unit} {y : Except ε β}
    {b : β} (h : (if c then x >>= fun _ => y else y) = .ok b) : y = .ok b := by
  split_ifs at h
  · obtain ⟨_, -, hy⟩ := bind_eq_ok.mp h
    exact hy
  · exact h

theorem pure_eq_ok {a b : α} : (pure a : Except ε α) = .ok b ↔ a = b := by
  simp [pure, Except.pure]

/-- Relabelling the errors keeps every success. -/
theorem mapError_eq_ok {ε' : Type} {f : ε → ε'} {x : Except ε α} {a : α} :
    x.mapError f = .ok a ↔ x = .ok a := by
  cases x <;> simp [Except.mapError]

/-- A fold succeeds when its first part does and the rest succeeds from there. -/
theorem foldlM_append_eq_ok {f : β → α → Except ε β} {l₁ l₂ : List α} {b b' : β} :
    (l₁ ++ l₂).foldlM f b = .ok b' ↔ ∃ m, l₁.foldlM f b = .ok m ∧ l₂.foldlM f m = .ok b' := by
  rw [List.foldlM_append]
  exact bind_eq_ok

/-- A property that every successful step keeps holds after every successful fold. -/
theorem foldlM_invariant (P : β → Prop) {f : β → α → Except ε β}
    (hstep : ∀ b a b', P b → f b a = .ok b' → P b') :
    ∀ {l : List α} {b b' : β}, P b → l.foldlM f b = .ok b' → P b'
  | [], b, b', h0, h => by
    rw [List.foldlM_nil, pure_eq_ok] at h
    exact h ▸ h0
  | a :: l, b, b', h0, h => by
    rw [List.foldlM_cons] at h
    obtain ⟨m, hm, hrest⟩ := bind_eq_ok.mp h
    exact foldlM_invariant P hstep (hstep b a m h0 hm) hrest

/-! ### The errors a computation raises -/

/-- Every error `x` raises satisfies `P`. -/
def OnlyRaises (P : ε → Prop) (x : Except ε α) : Prop :=
  ∀ e, x = .error e → P e

namespace OnlyRaises

variable {P : ε → Prop}

theorem ok (a : α) : OnlyRaises P (.ok a : Except ε α) := by
  intro e h
  cases h

theorem pure (a : α) : OnlyRaises P (Pure.pure a : Except ε α) := ok a

theorem throw {e : ε} (h : P e) : OnlyRaises P (MonadExcept.throw e : Except ε α) := by
  intro e' he'
  cases he'
  exact h

/-- A bind raises what its first step raises, or what its rest raises after a success. -/
theorem bind {x : Except ε α} {f : α → Except ε β} (hx : OnlyRaises P x)
    (hf : ∀ a, x = .ok a → OnlyRaises P (f a)) : OnlyRaises P (x >>= f) := by
  intro e he
  cases hxa : x with
  | error e' =>
      rw [hxa] at he
      have hee : e' = e := Except.error.inj he
      exact hee ▸ hx e' hxa
  | ok a =>
      rw [hxa] at he
      exact hf a hxa e he

/-- A guard `if c then throw e` of a `do` block, followed by the rest `k` of the block. -/
theorem guard {c : Prop} [Decidable c] {e : ε} {k : Unit → Except ε α} (he : P e)
    (hk : ¬ c → OnlyRaises P (k ())) :
    OnlyRaises P (if c then MonadExcept.throw e >>= k else k ()) := by
  split_ifs with hc
  · exact throw he
  · exact hk hc

end OnlyRaises

end Except
