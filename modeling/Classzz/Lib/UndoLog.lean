import Mathlib.Logic.Function.Basic
import Mathlib.Data.List.Basic

/-!
# Undo logs

A state that keeps a log of entries, one for each change it makes, each of
which knows how to undo its change. Reverting to an earlier point undoes the
entries recorded since, the newest first.

What such a log guarantees is stated through a view of the state: undoing
an entry pops it and changes the view by what the view itself determines
(`Lawful`). `Undoes es s t` says that the entries `es` were recorded on the
way from `s` to `t` and that undoing them brings the view back to that of
`s`. It holds of a step that records one entry and can be undone, it
composes along a run (`Undoes.trans`), and a run whose tail was reverted
undoes as the run without it (`Undoes.undone`). So a nested run that fails
and reverts leaves no trace in the view, whatever ran inside it.
-/

namespace UndoLog

variable {σ ε α : Type*}

section Defs

variable (log : σ → List ε) (undo : ε → σ → σ) (view : σ → α)

/-- Undoes the entries in order, the first one first. -/
def undoAll : List ε → σ → σ
  | [], s => s
  | e :: es, s => undoAll es (undo e s)

/-- Reverts to the point where the log had `n` entries: undoes the entries
recorded since, the newest first. -/
def revertTo (n : ℕ) (s : σ) : σ :=
  undoAll undo ((log s).take ((log s).length - n)) s

/-- What a log must do: undoing an entry pops it from the log, and changes
the view by what the view determines. -/
structure Lawful : Prop where
  pop : ∀ e es s, log s = e :: es → log (undo e s) = es
  congr : ∀ e s t, view s = view t → view (undo e s) = view (undo e t)

/-- The entries `es` were recorded on the way from `s` to `t`, the newest
first, and undoing them gives back the view of `s`. -/
def Undoes (es : List ε) (s t : σ) : Prop :=
  log t = es ++ log s ∧ view (undoAll undo es t) = view s

end Defs

variable {log : σ → List ε} {undo : ε → σ → σ} {view : σ → α}

@[simp] theorem undoAll_nil (s : σ) : undoAll undo [] s = s := rfl

@[simp] theorem undoAll_cons (e : ε) (es : List ε) (s : σ) :
    undoAll undo (e :: es) s = undoAll undo es (undo e s) := rfl

theorem undoAll_append (es₁ es₂ : List ε) (s : σ) :
    undoAll undo (es₁ ++ es₂) s = undoAll undo es₂ (undoAll undo es₁ s) := by
  induction es₁ generalizing s with
  | nil => rfl
  | cons e es ih => exact ih (undo e s)

section Lawful

variable (hL : Lawful log undo view)
include hL

/-- Undoing the entries at the front of the log pops them. -/
theorem log_undoAll {es l : List ε} {s : σ} (h : log s = es ++ l) :
    log (undoAll undo es s) = l := by
  induction es generalizing s with
  | nil => simpa using h
  | cons e es ih => exact ih (hL.pop e _ s h)

/-- Undoing the same entries from two states with one view gives one view. -/
theorem view_undoAll_congr (es : List ε) {s t : σ} (h : view s = view t) :
    view (undoAll undo es s) = view (undoAll undo es t) := by
  induction es generalizing s t with
  | nil => exact h
  | cons e es ih => exact ih (hL.congr e s t h)

/-- Runs compose: the entries of the later part come first in the log. -/
theorem Undoes.trans {es₁ es₂ : List ε} {s t u : σ} (h₁ : Undoes log undo view es₁ s t)
    (h₂ : Undoes log undo view es₂ t u) : Undoes log undo view (es₂ ++ es₁) s u := by
  refine ⟨by rw [h₂.1, h₁.1, List.append_assoc], ?_⟩
  -- undo the later part first, which gives back the view of `t`
  calc view (undoAll undo (es₂ ++ es₁) u)
      = view (undoAll undo es₁ (undoAll undo es₂ u)) := by rw [undoAll_append]
    _ = view (undoAll undo es₁ t) := view_undoAll_congr hL es₁ h₂.2
    _ = view s := h₁.2

/-- Undoing what a run recorded gives back the log and the view it started
from. -/
theorem Undoes.undone {es : List ε} {s t : σ} (h : Undoes log undo view es s t) :
    Undoes log undo view [] s (undoAll undo es t) :=
  ⟨by rw [List.nil_append]; exact log_undoAll hL h.1, h.2⟩

end Lawful

theorem Undoes.refl (s : σ) : Undoes log undo view [] s s :=
  ⟨rfl, rfl⟩

/-- A step that records nothing and keeps the view. -/
theorem Undoes.of_view_eq {s t : σ} (hlog : log t = log s) (hview : view t = view s) :
    Undoes log undo view [] s t :=
  ⟨hlog, hview⟩

/-- A step that records one entry, whose undoing gives back the view. -/
theorem Undoes.single {e : ε} {s t : σ} (hlog : log t = e :: log s)
    (hview : view (undo e t) = view s) : Undoes log undo view [e] s t :=
  ⟨hlog, hview⟩

/-- Reverting to the length the log had at `s` undoes exactly what was
recorded since. -/
theorem revertTo_of_log {es : List ε} {s t : σ} (h : log t = es ++ log s) :
    revertTo log undo (log s).length t = undoAll undo es t := by
  have htake : (log t).take ((log t).length - (log s).length) = es := by
    rw [h, List.length_append, Nat.add_sub_cancel, List.take_left]
  rw [revertTo, htake]

theorem Undoes.revertTo_eq {es : List ε} {s t : σ} (h : Undoes log undo view es s t) :
    revertTo log undo (log s).length t = undoAll undo es t :=
  revertTo_of_log h.1

end UndoLog
