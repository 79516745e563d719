import Mathlib.Data.List.Basic

/-!
# Lists that end in a sentinel

A key that a trie stores ends in a sentinel `t` that occurs nowhere else in it, so no stored
key is a proper prefix of another (`Terminated.prefix_eq`). The pieces of such keys that a
trie keeps on its edges hold the sentinel only at their end (`Segment`), and below a piece the
rest of a key is again terminated, or empty once the piece took the sentinel (`After`,
`after_of_terminated_append`, and back again `after_append`).
-/

namespace Sentinel

variable {α : Type*} (t : α)

/-- Ends in the sentinel and holds it nowhere else. -/
def Terminated (r : List α) : Prop := ∃ p, t ∉ p ∧ r = p ++ [t]

/-- A piece of a terminated list: if the sentinel is in it, it ends it. -/
def Segment (k : List α) : Prop := t ∈ k → Terminated t k

/-- What is left of a terminated list after a piece: nothing once the piece took the sentinel
(`term`), a terminated list otherwise. -/
def After (term : Prop) (r : List α) : Prop := (term → r = []) ∧ (¬ term → Terminated t r)

variable {t}

section Terminated

theorem not_terminated_nil : ¬ Terminated t [] := by
  rintro ⟨p, -, h⟩
  simp at h

theorem terminated_cons_iff {c : α} {r : List α} :
    Terminated t (c :: r) ↔ (c = t ∧ r = []) ∨ (c ≠ t ∧ Terminated t r) := by
  constructor
  · rintro ⟨_ | ⟨c', p⟩, hp, h⟩
    · simp only [List.nil_append, List.cons.injEq] at h
      exact .inl h
    · simp only [List.cons_append, List.cons.injEq] at h
      obtain ⟨rfl, rfl⟩ := h
      simp only [List.mem_cons, not_or] at hp
      exact .inr ⟨Ne.symm hp.1, p, hp.2, rfl⟩
  · rintro (⟨rfl, rfl⟩ | ⟨hc, p, hp, rfl⟩)
    · exact ⟨[], by simp, rfl⟩
    · exact ⟨c :: p, by simp [hp, Ne.symm hc], rfl⟩

theorem Terminated.mem {r : List α} (h : Terminated t r) : t ∈ r := by
  obtain ⟨p, -, rfl⟩ := h
  simp

theorem terminated_append_iff {p r : List α} (hp : t ∉ p) :
    Terminated t (p ++ r) ↔ Terminated t r := by
  induction p with
  | nil => rfl
  | cons c p ih =>
    simp only [List.mem_cons, not_or] at hp
    rw [List.cons_append, terminated_cons_iff, ← ih hp.2]
    constructor
    · rintro (⟨rfl, -⟩ | ⟨-, h⟩)
      · exact absurd rfl hp.1
      · exact h
    · exact fun h => .inr ⟨Ne.symm hp.1, h⟩

/-- The sentinel is not in a part of a terminated list that more follows. -/
theorem Terminated.notMem_of_append {p r : List α} (h : Terminated t (p ++ r)) (hr : r ≠ []) :
    t ∉ p := by
  obtain ⟨q, hq, he⟩ := h
  rcases List.append_eq_append_iff.mp he with ⟨a, rfl, -⟩ | ⟨b, rfl, hb⟩
  · exact fun hm => hq (List.mem_append_left a hm)
  · rcases b with _ | ⟨c, _ | ⟨c', b⟩⟩
    · simpa using hq
    · simp at hb
      exact absurd hb.2 hr
    · simp at hb

/-- No terminated list is a proper prefix of another. -/
theorem Terminated.prefix_eq {a b : List α} (ha : Terminated t a) (hb : Terminated t b)
    (h : a <+: b) : a = b := by
  obtain ⟨r, rfl⟩ := h
  obtain ⟨p, hp, rfl⟩ := ha
  rcases r with _ | ⟨c, r⟩
  · simp
  · have := hb.notMem_of_append (p := p ++ [t]) (List.cons_ne_nil c r)
    simp at this

end Terminated

section Segment

theorem Terminated.segment {k : List α} (h : Terminated t k) : Segment t k := fun _ => h

/-- A terminated list with more after it is no piece: the sentinel would not end it. -/
theorem Terminated.not_segment_append {p r : List α} (hp : Terminated t p) (hr : r ≠ []) :
    ¬ Segment t (p ++ r) := by
  intro hs
  have := hp.prefix_eq (hs (List.mem_append_left r hp.mem)) (List.prefix_append p r)
  simp [hr] at this

theorem segment_singleton (c : α) : Segment t [c] := by
  intro h
  rw [List.mem_singleton] at h
  exact ⟨[], by simp, by simp [h]⟩

theorem segment_append_iff {p k : List α} (hp : t ∉ p) : Segment t (p ++ k) ↔ Segment t k := by
  simp only [Segment, List.mem_append, hp, false_or, terminated_append_iff hp]

/-- The sentinel can only end a piece, so a piece with more after its head does not start
with it. -/
theorem Segment.cons {c : α} {k : List α} (h : Segment t (c :: k)) (hk : k ≠ []) :
    c ≠ t ∧ Segment t k := by
  have hc : c ≠ t := by
    rintro rfl
    rcases terminated_cons_iff.mp (h (List.mem_cons_self ..)) with ⟨-, rfl⟩ | ⟨hc, -⟩
    · exact hk rfl
    · exact hc rfl
  refine ⟨hc, fun hm => ?_⟩
  have := h (List.mem_cons_of_mem c hm)
  rw [terminated_cons_iff] at this
  exact this.resolve_left (fun h' => hc h'.1) |>.2

theorem segment_cons {c : α} {k : List α} (hc : c ≠ t) (h : Segment t k) :
    Segment t (c :: k) := by
  intro hm
  rw [List.mem_cons] at hm
  exact terminated_cons_iff.mpr (.inr ⟨hc, h (hm.resolve_left (Ne.symm hc))⟩)

end Segment

section After

theorem after_false_iff {r : List α} : After t False r ↔ Terminated t r := by
  simp [After]

theorem After.of_nil {term : Prop} (h : After t term []) : term := by
  by_contra ht
  exact not_terminated_nil (h.2 ht)

/-- Below a piece of a terminated list, the rest is what `After` says. -/
theorem after_of_terminated_append {k r : List α} (h : Terminated t (k ++ r)) :
    After t (t ∈ k) r := by
  induction k with
  | nil => simpa [after_false_iff] using h
  | cons c k ih =>
    rw [List.cons_append, terminated_cons_iff] at h
    rcases h with ⟨rfl, hr⟩ | ⟨hc, h⟩
    · exact ⟨fun _ => (List.append_eq_nil_iff.mp hr).2, fun hm => absurd (List.mem_cons_self ..) hm⟩
    · have hiff : t ∈ c :: k ↔ t ∈ k := by simp [Ne.symm hc]
      rw [hiff]
      exact ih h

/-- A piece followed by what may come after it is what may come after the path before it. -/
theorem after_append {term : Prop} {k r : List α} (hs : Segment t k) (ht : ¬ term)
    (hr : After t (t ∈ k) r) : After t term (k ++ r) := by
  refine ⟨fun h => absurd h ht, fun _ => ?_⟩
  by_cases hk : t ∈ k
  · rw [hr.1 hk, List.append_nil]
    exact hs hk
  · exact (terminated_append_iff hk).mpr (hr.2 hk)

end After

end Sentinel
