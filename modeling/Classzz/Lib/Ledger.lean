import Mathlib.Algebra.BigOperators.Group.Finset.Piecewise
import Mathlib.Algebra.Order.Ring.Int
import Mathlib.Data.Fintype.Basic
import Mathlib.Tactic.Ring

/-!
# Ledgers of integer balances

A ledger assigns an integer balance to every account. `credit` and `debit`
move one balance; `total` sums the balances of a finite type of accounts.
The lemmas are the ones a balance-keeping program needs: how one credit
moves the total, that a debit followed by credits of the same amount keeps
it, and when debits keep every balance non-negative. `Conserves` packs the
two facts a move of value owes, and composes along a run of moves.
-/

namespace Ledger

section Update

variable {α : Type*} [DecidableEq α]

/-- Adds `x` to the balance of `a`, leaving every other balance alone. -/
def credit (bal : α → ℤ) (a : α) (x : ℤ) : α → ℤ :=
  Function.update bal a (bal a + x)

/-- Takes `x` from the balance of `a`. -/
def debit (bal : α → ℤ) (a : α) (x : ℤ) : α → ℤ :=
  credit bal a (-x)

@[simp] theorem credit_self (bal : α → ℤ) (a : α) (x : ℤ) :
    credit bal a x a = bal a + x := by
  simp [credit]

@[simp] theorem credit_of_ne {bal : α → ℤ} {a b : α} (x : ℤ) (h : b ≠ a) :
    credit bal a x b = bal b := by
  simp [credit, h]

theorem credit_apply (bal : α → ℤ) (a b : α) (x : ℤ) :
    credit bal a x b = bal b + if b = a then x else 0 := by
  by_cases h : b = a
  · subst h
    simp
  · simp [h]

@[simp] theorem debit_apply (bal : α → ℤ) (a b : α) (x : ℤ) :
    debit bal a x b = bal b - if b = a then x else 0 := by
  rw [debit, credit_apply]
  split_ifs <;> ring

@[simp] theorem credit_zero (bal : α → ℤ) (a : α) : credit bal a 0 = bal := by
  funext b
  simp [credit_apply]

/-- Every balance is non-negative. -/
def Nonneg (bal : α → ℤ) : Prop :=
  ∀ a, 0 ≤ bal a

theorem Nonneg.credit {bal : α → ℤ} (h : Nonneg bal) (a : α) {x : ℤ}
    (hx : 0 ≤ x) : Nonneg (credit bal a x) := by
  intro b
  rw [credit_apply]
  have hb := h b
  split_ifs <;> omega

/-- A debit keeps the ledger non-negative when the account covers it. -/
theorem Nonneg.debit {bal : α → ℤ} (h : Nonneg bal) {a : α} {x : ℤ}
    (hx : x ≤ bal a) : Nonneg (debit bal a x) := by
  intro b
  rw [debit_apply]
  have hb := h b
  split_ifs with hba
  · subst hba
    omega
  · omega

/-- Moves `x` from `a` to `b`. -/
def transfer (bal : α → ℤ) (a b : α) (x : ℤ) : α → ℤ :=
  credit (debit bal a x) b x

/-- A transfer the sender covers keeps the ledger non-negative. -/
theorem Nonneg.transfer {bal : α → ℤ} (h : Nonneg bal) {a : α} (b : α) {x : ℤ}
    (hx0 : 0 ≤ x) (hx : x ≤ bal a) : Nonneg (Ledger.transfer bal a b x) :=
  (h.debit hx).credit b hx0

/-- Paying `x` out of `a` as `x - y` to `b` and `y` to `c` keeps the ledger
non-negative when `a` covers `x` and `0 ≤ y ≤ x`. -/
theorem Nonneg.debit_split {bal : α → ℤ} (h : Nonneg bal) {a : α} (b c : α) {x y : ℤ}
    (hx : x ≤ bal a) (hy0 : 0 ≤ y) (hyx : y ≤ x) :
    Nonneg (Ledger.credit (Ledger.credit (Ledger.debit bal a x) b (x - y)) c y) := by
  have hdebit : Nonneg (Ledger.debit bal a x) := h.debit hx
  have hrest : 0 ≤ x - y := by omega
  exact (hdebit.credit b hrest).credit c hy0

end Update

section Total

variable {α : Type*} [Fintype α]

/-- The sum of all balances. -/
def total (bal : α → ℤ) : ℤ :=
  ∑ a, bal a

/-- A move of balances that keeps the total and, from a non-negative ledger,
leaves a non-negative one. -/
def Conserves (bal bal' : α → ℤ) : Prop :=
  total bal' = total bal ∧ (Nonneg bal → Nonneg bal')

theorem Conserves.refl (bal : α → ℤ) : Conserves bal bal :=
  ⟨rfl, id⟩

theorem Conserves.trans {bal₁ bal₂ bal₃ : α → ℤ} (h₁₂ : Conserves bal₁ bal₂)
    (h₂₃ : Conserves bal₂ bal₃) : Conserves bal₁ bal₃ :=
  ⟨h₂₃.1.trans h₁₂.1, fun h => h₂₃.2 (h₁₂.2 h)⟩

variable [DecidableEq α]

theorem total_credit (bal : α → ℤ) (a : α) (x : ℤ) :
    total (credit bal a x) = total bal + x := by
  have hsum : ∀ b, credit bal a x b = bal b + if b = a then x else 0 :=
    fun b => credit_apply bal a b x
  rw [total, total, Finset.sum_congr rfl (fun b _ => hsum b),
    Finset.sum_add_distrib, Finset.sum_ite_eq' Finset.univ a (fun _ => x)]
  simp

theorem total_debit (bal : α → ℤ) (a : α) (x : ℤ) :
    total (debit bal a x) = total bal - x := by
  rw [debit, total_credit]
  ring

/-- Taking `x` from one account and paying it out as `y` and `x - y` to two
accounts, in any order and with any of the three accounts equal, keeps the
total. -/
theorem total_debit_split (bal : α → ℤ) (a b c : α) (x y : ℤ) :
    total (credit (credit (debit bal a x) b (x - y)) c y) = total bal := by
  rw [total_credit, total_credit, total_debit]
  ring

theorem total_transfer (bal : α → ℤ) (a b : α) (x : ℤ) :
    total (transfer bal a b x) = total bal := by
  rw [transfer, total_credit, total_debit]
  ring

theorem conserves_transfer {bal : α → ℤ} {a : α} (b : α) {x : ℤ} (hx0 : 0 ≤ x)
    (hx : x ≤ bal a) : Conserves bal (transfer bal a b x) :=
  ⟨total_transfer bal a b x, fun h => h.transfer b hx0 hx⟩

theorem conserves_debit_split {bal : α → ℤ} {a : α} (b c : α) {x y : ℤ}
    (hx : x ≤ bal a) (hy0 : 0 ≤ y) (hyx : y ≤ x) :
    Conserves bal (credit (credit (debit bal a x) b (x - y)) c y) :=
  ⟨total_debit_split bal a b c x y, fun h => h.debit_split b c hx hy0 hyx⟩

end Total

end Ledger
