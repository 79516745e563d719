import Classzz.Trie.Lookup

/-!
# `delete` removes one key

`delete_spec`: below a path, `delete` keeps a well-formed node well formed and makes the key
it is given answer nothing, leaving every other key as it was. On the way up it rebuilds the
path in minimal form: a short child is merged into the short node above it (`mergeShort`) and
a full node left with one child becomes a short node (`reduceFull`). Neither changes what the
node answers (`tryGet_mergeShort`, `reduceFull_spec`); the one fact the reduction needs is
that the loop of `childPos` finds the only child left (`childPos_spec`).
-/

namespace Classzz.Trie

open Sentinel

namespace Node

/-- What `delete` reports as clean is the node it was given. -/
theorem delete_snd_of_not_dirty (n : Node) (key : List Nibble) :
    (n.delete key).1 = false → (n.delete key).2 = n := by
  fun_cases delete n key <;> simp

section ChildPos

variable {children : Nibble → Node}

theorem childPosStep_of_nil {pos : ℤ} {i : Nibble} (h : children i = nil) :
    childPosStep children pos i = pos := by
  simp [childPosStep, h]

theorem childPosStep_of_ne_nil {pos : ℤ} {i : Nibble} (h : children i ≠ nil) :
    childPosStep children pos i = if pos = -1 then (i : ℤ) else -2 := by
  unfold childPosStep
  split
  · contradiction
  · rfl

theorem childPosStep_neg_two (i : Nibble) : childPosStep children (-2) i = -2 := by
  unfold childPosStep
  split <;> simp

theorem foldl_childPosStep_neg_two (l : List Nibble) :
    l.foldl (childPosStep children) (-2) = -2 := by
  induction l with
  | nil => rfl
  | cons i l ih => rw [List.foldl_cons, childPosStep_neg_two, ih]

/-- After one child is found, the loop ends on it only if every later child is `nil`. -/
theorem foldl_childPosStep_of_found {l : List Nibble} {j : Nibble}
    (h : 0 ≤ l.foldl (childPosStep children) (j : ℤ)) :
    l.foldl (childPosStep children) (j : ℤ) = j ∧ ∀ i ∈ l, children i = nil := by
  induction l with
  | nil => simp
  | cons i l ih =>
    rw [List.foldl_cons] at h ⊢
    by_cases hi : children i = nil
    · rw [childPosStep_of_nil hi] at h ⊢
      obtain ⟨hj, hnil⟩ := ih h
      exact ⟨hj, fun i' hi' => (List.mem_cons.mp hi').elim (fun h' => h' ▸ hi) (hnil i')⟩
    · have hj : (j : ℤ) ≠ -1 := by omega
      rw [childPosStep_of_ne_nil hi, if_neg hj, foldl_childPosStep_neg_two] at h
      simp at h

/-- From `-1`, a loop that ends on an index found the only child that is not `nil`. -/
theorem foldl_childPosStep_start {l : List Nibble} (h : 0 ≤ l.foldl (childPosStep children) (-1)) :
    ∃ p : Nibble, l.foldl (childPosStep children) (-1) = p ∧ ∀ i ∈ l, i ≠ p → children i = nil := by
  induction l with
  | nil => simp at h
  | cons i l ih =>
    rw [List.foldl_cons] at h ⊢
    by_cases hi : children i = nil
    · rw [childPosStep_of_nil hi] at h ⊢
      obtain ⟨p, hp, hnil⟩ := ih h
      refine ⟨p, hp, fun j hj hjp => ?_⟩
      rcases List.mem_cons.mp hj with rfl | hj
      · exact hi
      · exact hnil j hj hjp
    · rw [childPosStep_of_ne_nil hi, if_pos rfl] at h ⊢
      obtain ⟨hp, hnil⟩ := foldl_childPosStep_of_found h
      refine ⟨i, hp, fun j hj hji => ?_⟩
      rcases List.mem_cons.mp hj with rfl | hj
      · exact absurd rfl hji
      · exact hnil j hj

/-- `childPos` at an index: every other child is `nil`. -/
theorem childPos_spec (h : 0 ≤ childPos children) :
    ∃ p : Nibble, childPos children = p ∧ ∀ i ≠ p, children i = nil := by
  obtain ⟨p, hp, hnil⟩ := foldl_childPosStep_start h
  exact ⟨p, hp, fun i hi => hnil i (List.mem_finRange i) hi⟩

end ChildPos

section Reduce

variable {term : Prop}

theorem wf_reduceShort {p : Nibble} {x : Node} (ht : ¬ term) (hx : WF (16 ∈ [p]) x) :
    WF term (reduceShort p x) := by
  unfold reduceShort
  split_ifs with hp
  · cases x with
    | short ck cv =>
      obtain ⟨-, hs, hcv⟩ := hx
      have hmem : (16 ∈ p :: ck) = (16 ∈ ck) := by simp [Ne.symm hp]
      exact ⟨ht, segment_cons hp hs, hmem ▸ hcv⟩
    | _ => exact ⟨ht, segment_singleton p, hx⟩
  · exact ⟨ht, segment_singleton p, hx⟩

/-- The reduction keeps a full node's shape and what it answers. -/
theorem reduceFull_spec {children : Nibble → Node} (ht : ¬ term)
    (hcs : ∀ i, WF (16 ∈ [i]) (children i)) :
    WF term (reduceFull children) ∧ ∀ r, (reduceFull children).tryGet r = (full children).tryGet r := by
  simp only [reduceFull]
  split_ifs with hpos
  · obtain ⟨p, hp, hnil⟩ := childPos_spec hpos
    have hfin : Fin.ofNat 17 (childPos children).toNat = p := by simp [hp]
    -- the full node holds its one child only
    have hone : Function.update (fun _ => nil) p (children p) = children := by
      funext i
      by_cases hi : i = p
      · subst hi
        rw [Function.update_self]
      · rw [Function.update_of_ne hi, hnil i hi]
    rw [hfin]
    refine ⟨wf_reduceShort ht (hcs p), fun r => ?_⟩
    rw [tryGet_reduceShort, ← tryGet_full_single, hone]
  · exact ⟨⟨ht, hcs⟩, fun _ => rfl⟩

theorem wf_mergeShort {k : List Nibble} {x : Node} (ht : ¬ term) (hs : Segment 16 k)
    (hx : WF (16 ∈ k) x) : WF term (mergeShort k x) := by
  cases x with
  | short ck cv =>
    obtain ⟨hk, hck, hcv⟩ := hx
    have hmem : (16 ∈ concat k ck) = (16 ∈ ck) := by simp [concat, hk]
    exact ⟨ht, (segment_append_iff hk).mpr hck, hmem ▸ hcv⟩
  | _ => exact ⟨ht, hs, hx⟩

end Reduce

section Equations

variable {k a : List Nibble} {val : Node}

theorem prefixLen_append_self : prefixLen (k ++ a) k = k.length := by
  induction k with
  | nil => cases a <;> rfl
  | cons x k ih => simp [prefixLen, ih]

theorem delete_short_self : (short k val).delete k = (true, nil) := by
  have h := prefixLen_append_self (k := k) (a := [])
  rw [List.append_nil] at h
  simp [delete, h]

theorem delete_short_of_lt {key : List Nibble} (hm : prefixLen key k < k.length) :
    (short k val).delete key = (false, short k val) := by
  simp [delete, hm]

theorem delete_short_below (ha : a ≠ []) :
    ((short k val).delete (k ++ a)).2 =
      if (val.delete a).1 then mergeShort k (val.delete a).2 else short k val := by
  have hlen : prefixLen (k ++ a) k ≠ (k ++ a).length := by
    rw [prefixLen_append_self, List.length_append]
    have := List.length_pos_iff.mpr ha
    omega
  simp only [delete, prefixLen_append_self, lt_self_iff_false, if_false, List.drop_left]
  rw [if_neg (prefixLen_append_self (a := a) ▸ hlen)]
  rcases val.delete a with ⟨_ | _, child⟩ <;> rfl

variable {term : Prop}

/-- Below one child of a full node, `delete` leaves a well-formed node that answers as the full
node with that child changed. -/
theorem delete_full_cons_spec {children : Nibble → Node} {i : Nibble} {rest : List Nibble}
    (ht : ¬ term) (hcs : ∀ j, WF (16 ∈ [j]) (children j))
    (hwf : WF (16 ∈ [i]) ((children i).delete rest).2) :
    WF term ((full children).delete (i :: rest)).2 ∧
      ∀ r, ((full children).delete (i :: rest)).2.tryGet r =
        (full (Function.update children i ((children i).delete rest).2)).tryGet r := by
  simp only [delete]
  rcases h : (children i).delete rest with ⟨_ | _, nn⟩
  · have hnn : nn = children i := by simpa [h] using delete_snd_of_not_dirty (children i) rest
    subst hnn
    show WF term (full children) ∧ ∀ r, (full children).tryGet r =
      (full (Function.update children i (children i))).tryGet r
    rw [Function.update_eq_self]
    exact ⟨⟨ht, hcs⟩, fun _ => rfl⟩
  · rw [h] at hwf
    have hupd := wf_full_update ht hcs hwf
    cases nn with
    | nil => exact reduceFull_spec ht hupd.2
    | _ => exact ⟨hupd, fun _ => rfl⟩

end Equations

section Spec

variable {term : Prop}

/-- `delete` keeps a node well formed and removes the key. -/
theorem delete_spec {n : Node} (hn : WF term n) {key : List Nibble} (hkey : After 16 term key) :
    WF term (n.delete key).2 ∧ Updates term n (n.delete key).2 key none := by
  induction n generalizing term key with
  | nil => exact ⟨trivial, updates_self fun _ => rfl⟩
  | value w =>
    refine ⟨trivial, fun r hr => ?_⟩
    rw [hr.1 hn, hkey.1 hn]
    rfl
  | short k val ih =>
    obtain ⟨ht, hs, hval⟩ := hn
    have hterm : Terminated 16 key := hkey.2 ht
    obtain ⟨p, a, b, rfl, rfl, hm, hd⟩ := prefixLen_split key k
    rcases b with _ | ⟨d, kRest⟩
    · simp only [List.append_nil] at hs hval
      rcases a with _ | ⟨c, a⟩
      · -- the key is the short node's whole key: the node goes
        simp only [List.append_nil] at hterm ⊢
        rw [delete_short_self]
        refine ⟨trivial, fun r hr => ?_⟩
        split_ifs with hrp
        · rfl
        · have : ¬ p <+: r := fun h => hrp (hterm.prefix_eq (hr.2 ht) h).symm
          rw [tryGet_short_eq_none this]
          rfl
      · -- the key goes on below the short node
        rw [List.append_nil, delete_short_below (List.cons_ne_nil c a)]
        obtain ⟨hwf, hup⟩ := ih hval (after_of_terminated_append hterm)
        split_ifs with hdirty
        · exact ⟨wf_mergeShort ht hs hwf, (hup.short ht).congr fun r => tryGet_mergeShort⟩
        · rw [delete_snd_of_not_dirty val _ (by simpa using hdirty)] at hup
          exact ⟨⟨ht, hs, hval⟩, hup.short ht⟩
    · -- the keys part inside the short key: it holds nothing to delete
      have hlt : prefixLen (p ++ a) (p ++ d :: kRest) < (p ++ d :: kRest).length := by
        simp [hm]
      rw [delete_short_of_lt hlt]
      refine ⟨⟨ht, hs, hval⟩, updates_self fun _ => tryGet_short_eq_none ?_⟩
      rw [List.prefix_append_right_inj]
      rintro ⟨t, rfl⟩
      exact hd d d rfl rfl rfl
  | full children ih =>
    obtain ⟨ht, hcs⟩ := hn
    rcases key with _ | ⟨c, key⟩
    · exact absurd (hkey.2 ht) not_terminated_nil
    obtain ⟨hwf, hup⟩ := ih c (hcs c) (after_of_terminated_append (k := [c]) (hkey.2 ht))
    obtain ⟨hwf', heq⟩ := delete_full_cons_spec ht hcs hwf
    exact ⟨hwf', (hup.full ht).congr heq⟩

end Spec

end Node

end Classzz.Trie
