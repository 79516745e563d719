import Mathlib.Order.Basic
import Mathlib.Data.List.Basic

/-!
# Bloom filters

A Bloom filter answers whether a key may have been added to it: it is a set of bits, and
for each key the positions of the bits that stand for it, chosen by the filter's own hash
functions. Adding a key sets its bits; a key is contained when all its bits are set. So a
filter may contain a key that was never added, but never misses one that was.

Filters are ordered by what they contain (`f ≤ g`: `g` contains every key `f` contains).
Adding a key only grows a filter (`le_add`), and so does every loop of steps that each only
grow it (`le_foldl`); such a loop contains every key one of its steps adds
(`contains_foldl`).
-/

namespace Bloom

variable {κ : Type*}

/-- A filter over keys `κ`: for each key the positions of its bits, and the bits set. -/
structure Filter (κ : Type*) where
  positions : κ → List ℕ
  bits : ℕ → Bool

namespace Filter

/-- A filter with no bit set. -/
def new (positions : κ → List ℕ) : Filter κ :=
  ⟨positions, fun _ => false⟩

/-- Adding a key sets its bits. -/
def add (f : Filter κ) (x : κ) : Filter κ :=
  { f with bits := fun i => f.bits i || decide (i ∈ f.positions x) }

/-- A key is contained when all its bits are set. -/
def contains (f : Filter κ) (x : κ) : Bool :=
  (f.positions x).all f.bits

instance : Preorder (Filter κ) where
  le f g := ∀ x, f.contains x = true → g.contains x = true
  le_refl _ _ h := h
  le_trans _ _ _ hfg hgh x h := hgh x (hfg x h)

theorem contains_of_le {f g : Filter κ} (hfg : f ≤ g) {x : κ} (h : f.contains x = true) :
    g.contains x = true :=
  hfg x h

@[simp] theorem contains_add_self (f : Filter κ) (x : κ) : (f.add x).contains x = true := by
  simp only [contains, add, List.all_eq_true, Bool.or_eq_true, decide_eq_true_eq]
  intro i hi
  exact Or.inr hi

theorem le_add (f : Filter κ) (x : κ) : f ≤ f.add x := by
  intro y hy
  simp only [contains, List.all_eq_true] at hy ⊢
  intro i hi
  simp [add, hy i hi]

/-- A loop whose every step only grows the filter grows it. -/
theorem le_foldl {ε : Type*} {step : Filter κ → ε → Filter κ} (hstep : ∀ f e, f ≤ step f e) :
    ∀ (l : List ε) (f : Filter κ), f ≤ l.foldl step f
  | [], _ => le_refl _
  | e :: l, f => le_trans (hstep f e) (le_foldl hstep l (step f e))

/-- A loop whose every step only grows the filter contains what one of its steps adds. -/
theorem contains_foldl {ε : Type*} {step : Filter κ → ε → Filter κ}
    (hstep : ∀ f e, f ≤ step f e) {e : ε} {x : κ} (hx : ∀ f, (step f e).contains x = true) :
    ∀ (l : List ε), e ∈ l → ∀ f : Filter κ, (l.foldl step f).contains x = true
  | e' :: l, he, f => by
    rw [List.foldl_cons]
    rcases List.mem_cons.mp he with rfl | he
    · exact contains_of_le (le_foldl hstep l _) (hx f)
    · exact contains_foldl hstep hx l he (step f e')

end Filter

end Bloom
