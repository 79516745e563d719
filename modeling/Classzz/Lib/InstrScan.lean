import Mathlib.Order.Basic
import Mathlib.Data.List.Basic

/-!
# Sequential scans of a code with immediate operands

A code whose instructions may carry immediate operands is read from position
`0`: the opcode `a` at `p` is followed by `w a` positions of immediate data, and
the next opcode is at `p + 1 + w a`. `IsStart w xs p` says that the scan of `xs`
meets an opcode at `p`; `IsImm w xs p` says that `p` lies in the immediate data
of an opcode the scan meets. The data of the last opcode may run past the end of
`xs`, so `IsImm` is not bounded by the length.

An analysis of such a code rests on two facts proved here: two opcodes the scan
meets never overlap (`IsStart.next_le`), and each position of the code is met
as an opcode or lies in immediate data, never both (`isStart_or_isImm`,
`IsImm.not_isStart`). `isImm_before_next` is the step of a scan that marks the
immediate data of each opcode it meets.
-/

namespace InstrScan

variable {α : Type*} (w : α → ℕ) (xs : List α)

/-- The positions at which the scan of `xs` meets an opcode. -/
inductive IsStart : ℕ → Prop
  | zero : IsStart 0
  | next {p : ℕ} {a : α} : IsStart p → xs[p]? = some a → IsStart (p + 1 + w a)

/-- The positions inside the immediate data of an opcode the scan meets. -/
def IsImm (p : ℕ) : Prop :=
  ∃ q a, IsStart w xs q ∧ xs[q]? = some a ∧ q < p ∧ p ≤ q + w a

variable {w xs}

/-- Two opcodes the scan meets do not overlap: the instruction at the earlier
one ends at or before the later one. -/
theorem IsStart.next_le {p q : ℕ} (hp : IsStart w xs p) (hq : IsStart w xs q)
    (hlt : p < q) : ∃ a, xs[p]? = some a ∧ p + 1 + w a ≤ q := by
  -- strong induction on the later start, through the start `r` it is reached from
  induction q using Nat.strongRecOn generalizing p with
  | _ q ih =>
    cases hq with
    | zero => omega
    | @next r b hr hb =>
      rcases Nat.lt_trichotomy p r with hpr | rfl | hrp
      · obtain ⟨a, ha, hle⟩ := ih r (by omega) hp hr hpr
        exact ⟨a, ha, by omega⟩
      · exact ⟨b, hb, Nat.le_refl _⟩
      · -- `p` would start inside the immediate data of the opcode at `r`
        obtain ⟨b', hb', hle⟩ := ih p hlt hr hp hrp
        obtain rfl : b' = b := Option.some.inj (hb'.symm.trans hb)
        omega

/-- The scan never meets an opcode inside immediate data. -/
theorem IsImm.not_isStart {p : ℕ} (hi : IsImm w xs p) : ¬ IsStart w xs p := by
  obtain ⟨q, a, hq, ha, hqp, hpq⟩ := hi
  intro hp
  obtain ⟨b, hb, hle⟩ := hq.next_le hp hqp
  obtain rfl : b = a := Option.some.inj (hb.symm.trans ha)
  omega

/-- Each position of the code is an opcode the scan meets or immediate data. -/
theorem isStart_or_isImm {p : ℕ} (hp : p < xs.length) : IsStart w xs p ∨ IsImm w xs p := by
  induction p with
  | zero => exact .inl .zero
  | succ p ih =>
    have hget : xs[p]? = some xs[p] := List.getElem?_eq_getElem (by omega)
    rcases ih (by omega) with hs | ⟨q, a, hq, ha, hqp, hpq⟩
    · -- the instruction at `p` either has no data or covers `p + 1`
      rcases Nat.eq_zero_or_pos (w xs[p]) with h0 | hpos
      · left
        simpa [h0] using hs.next hget
      · exact .inr ⟨p, xs[p], hs, hget, by omega, by omega⟩
    · -- `p + 1` is still in the data of `q`, or the next opcode after it
      rcases Nat.lt_or_ge p (q + w a) with hlt | hge
      · exact .inr ⟨q, a, hq, ha, by omega, by omega⟩
      · left
        have hend : p + 1 = q + 1 + w a := by omega
        exact hend ▸ hq.next ha

/-- Inside the code, a position is an opcode the scan meets exactly when it is
not immediate data. -/
theorem isStart_iff_not_isImm {p : ℕ} (hp : p < xs.length) :
    IsStart w xs p ↔ ¬ IsImm w xs p :=
  ⟨fun hs hi => hi.not_isStart hs, fun hi => (isStart_or_isImm hp).resolve_right hi⟩

/-- The step of a scan that marks data: below the end of the instruction at a
start `s`, the immediate positions are those before `s` and the data of `s`. -/
theorem isImm_before_next {s : ℕ} {a : α} (hs : IsStart w xs s) (ha : xs[s]? = some a)
    (p : ℕ) :
    (p < s + 1 + w a ∧ IsImm w xs p) ↔ (p < s ∧ IsImm w xs p) ∨ (s < p ∧ p ≤ s + w a) := by
  constructor
  · rintro ⟨hp, q, b, hq, hb, hqp, hpq⟩
    rcases Nat.lt_trichotomy q s with hqs | rfl | hsq
    · -- the instruction at `q` ends before `s`
      obtain ⟨b', hb', hle⟩ := hq.next_le hs hqs
      obtain rfl : b' = b := Option.some.inj (hb'.symm.trans hb)
      exact .inl ⟨by omega, q, b', hq, hb, hqp, hpq⟩
    · obtain rfl : b = a := Option.some.inj (hb.symm.trans ha)
      exact .inr ⟨hqp, hpq⟩
    · -- an opcode after `s` starts after the whole instruction at `s`
      obtain ⟨a', ha', hle⟩ := hs.next_le hq hsq
      obtain rfl : a' = a := Option.some.inj (ha'.symm.trans ha)
      omega
  · rintro (⟨hp, hi⟩ | ⟨hsp, hps⟩)
    · exact ⟨by omega, hi⟩
    · exact ⟨by omega, s, a, hs, ha, hsp, hps⟩

end InstrScan
