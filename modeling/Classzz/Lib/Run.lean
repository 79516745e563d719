import Mathlib.Data.Option.Basic
import Mathlib.Data.List.Basic

/-!
# Runs of a partial step function

A system that takes inputs one at a time is a step function
`σ → ε → Option σ`; `none` is a step after which the system does not go on.
`run` feeds it a list of inputs. A step may also emit outputs, which
`runTrace` collects in order.

What is proved of a run is proved of one step: `run_invariant` lifts a
property every step keeps to every run, and `runTrace_invariant` does the
same for a property of the state and the outputs so far; the `_of_mem` forms
ask it only of the steps on the run's own inputs. `run_progress` adds that a
run of enabled steps does not stop, where every enabled step goes through.
Models that write a run as `List.foldlM` use these through `foldlM_eq_run`.
`foldl_simulation` relates two folds over the same inputs by a relation every
pair of steps keeps.
-/

namespace Run

variable {σ ε ω : Type*}

/-- Feeds the inputs to `step` in order; `none` once a step gives none. -/
def run (step : σ → ε → Option σ) : σ → List ε → Option σ
  | s, [] => some s
  | s, e :: es => (step s e).bind fun s' => run step s' es

@[simp] theorem run_nil (step : σ → ε → Option σ) (s : σ) : run step s [] = some s := rfl

@[simp] theorem run_cons (step : σ → ε → Option σ) (s : σ) (e : ε) (es : List ε) :
    run step s (e :: es) = (step s e).bind fun s' => run step s' es := rfl

section Invariant

variable {step : σ → ε → Option σ}

/-- A property every step keeps holds after every run. -/
theorem run_invariant (P : σ → Prop) (hstep : ∀ s e s', P s → step s e = some s' → P s') :
    ∀ {s : σ} {es : List ε} {s' : σ}, P s → run step s es = some s' → P s'
  | s, [], s', h0, h => by
      simp only [run_nil, Option.some.injEq] at h
      exact h ▸ h0
  | s, e :: es, s', h0, h => by
      simp only [run_cons, Option.bind_eq_some_iff] at h
      obtain ⟨s₁, h₁, hrest⟩ := h
      exact run_invariant P hstep (hstep s e s₁ h0 h₁) hrest

/-- A property that every step on an input of the run keeps holds after the
run. -/
theorem run_invariant_of_mem (P : σ → Prop) :
    ∀ {s : σ} {es : List ε} {s' : σ},
      (∀ s e s', e ∈ es → P s → step s e = some s' → P s') → P s → run step s es = some s' → P s'
  | s, [], s', _, h0, h => by
      simp only [run_nil, Option.some.injEq] at h
      exact h ▸ h0
  | s, e :: es, s', hstep, h0, h => by
      simp only [run_cons, Option.bind_eq_some_iff] at h
      obtain ⟨s₁, h₁, hrest⟩ := h
      have hstep' : ∀ s e' s', e' ∈ es → P s → step s e' = some s' → P s' :=
        fun s e' s' he => hstep s e' s' (List.mem_cons_of_mem e he)
      exact run_invariant_of_mem P hstep' (hstep s e s₁ List.mem_cons_self h0 h₁) hrest

/-- The same for a loop that cannot stop early, a fold. -/
theorem foldl_invariant (P : σ → Prop) {f : σ → ε → σ} (hf : ∀ s e, P s → P (f s e)) :
    ∀ (es : List ε) {s : σ}, P s → P (es.foldl f s)
  | [], _, h => h
  | e :: es, s, h => foldl_invariant P hf es (hf s e h)

/-- A relation that every pair of steps on the same input keeps holds between two folds over the
same inputs: one fold simulates the other. -/
theorem foldl_simulation {τ : Type*} (R : σ → τ → Prop) {f : σ → ε → σ} {g : τ → ε → τ}
    (hfg : ∀ s t e, R s t → R (f s e) (g t e)) :
    ∀ (es : List ε) {s : σ} {t : τ}, R s t → R (es.foldl f s) (es.foldl g t)
  | [], _, _, h => h
  | e :: es, s, t, h => foldl_simulation R hfg es (hfg s t e h)

/-- `run` is the monadic fold of `step` in `Option`, the form the models write their runs in. -/
theorem foldlM_eq_run (step : σ → ε → Option σ) :
    ∀ (s : σ) (es : List ε), es.foldlM step s = run step s es
  | _, [] => rfl
  | s, e :: es => by
    rw [List.foldlM_cons, run_cons]
    cases step s e with
    | none => rfl
    | some s' => exact foldlM_eq_run step s' es

end Invariant

section Progress

/-- Each input of the run is enabled in the state the inputs before it lead to. -/
def EnabledAlong (Enabled : σ → ε → Prop) (step : σ → ε → Option σ) : σ → List ε → Prop
  | _, [] => True
  | s, e :: es => Enabled s e ∧ ∀ s', step s e = some s' → EnabledAlong Enabled step s' es

variable {step : σ → ε → Option σ}

/-- Progress over a run: where every enabled step goes through and keeps `P`, a run of enabled
steps goes through and keeps `P`. -/
theorem run_progress (P : σ → Prop) {Enabled : σ → ε → Prop}
    (hstep : ∀ s e, P s → Enabled s e → ∃ s', step s e = some s' ∧ P s') :
    ∀ {s : σ} {es : List ε}, P s → EnabledAlong Enabled step s es →
      ∃ s', run step s es = some s' ∧ P s'
  | s, [], hs, _ => ⟨s, rfl, hs⟩
  | s, e :: es, hs, ⟨he, hrest⟩ => by
    obtain ⟨s₁, h₁, hs₁⟩ := hstep s e hs he
    obtain ⟨s', hrun, hs'⟩ := run_progress P hstep hs₁ (hrest s₁ h₁)
    refine ⟨s', ?_, hs'⟩
    rw [run_cons, h₁, Option.bind_some]
    exact hrun

end Progress

section Trace

/-- A step that emits outputs, lifted to carry the outputs so far. -/
def traced (step : σ → ε → Option (σ × List ω)) : σ × List ω → ε → Option (σ × List ω)
  | (s, tr), e => (step s e).map fun r => (r.1, tr ++ r.2)

/-- The run of a step that emits outputs, from no outputs. -/
def runTrace (step : σ → ε → Option (σ × List ω)) (s : σ) (es : List ε) :
    Option (σ × List ω) :=
  run (traced step) (s, []) es

variable {step : σ → ε → Option (σ × List ω)}

/-- A property of the state and the outputs so far that every step keeps
holds after every run. -/
theorem runTrace_invariant (P : σ → List ω → Prop)
    (hstep : ∀ s tr e s' out, P s tr → step s e = some (s', out) → P s' (tr ++ out))
    {s : σ} {es : List ε} {s' : σ} {tr : List ω} (h0 : P s [])
    (h : runTrace step s es = some (s', tr)) : P s' tr := by
  have hinv : ∀ (p : σ × List ω) e p', P p.1 p.2 → traced step p e = some p' →
      P p'.1 p'.2 := by
    rintro ⟨s, tr⟩ e p' hp hp'
    simp only [traced, Option.map_eq_some_iff] at hp'
    obtain ⟨⟨s₁, out⟩, h₁, rfl⟩ := hp'
    exact hstep s tr e s₁ out hp h₁
  exact run_invariant (fun p => P p.1 p.2) hinv h0 h

/-- The same for a property that only the steps on the run's inputs need keep. -/
theorem runTrace_invariant_of_mem (P : σ → List ω → Prop) {s : σ} {es : List ε} {s' : σ}
    {tr : List ω}
    (hstep : ∀ s tr e s' out, e ∈ es → P s tr → step s e = some (s', out) → P s' (tr ++ out))
    (h0 : P s []) (h : runTrace step s es = some (s', tr)) : P s' tr := by
  have hinv : ∀ (p : σ × List ω) e p', e ∈ es → P p.1 p.2 → traced step p e = some p' →
      P p'.1 p'.2 := by
    rintro ⟨s, tr⟩ e p' he hp hp'
    simp only [traced, Option.map_eq_some_iff] at hp'
    obtain ⟨⟨s₁, out⟩, h₁, rfl⟩ := hp'
    exact hstep s tr e s₁ out he hp h₁
  exact run_invariant_of_mem (fun p => P p.1 p.2) hinv h0 h

end Trace

end Run
