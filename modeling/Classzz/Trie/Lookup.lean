import Classzz.Trie.Trie
import Classzz.Lib.Sentinel

/-!
# What a trie node answers

The equations of `tryGet` at each kind of node, and two notions the specifications of `insert`
and `delete` are stated with. `WF term n` is the shape the nodes of a trie keep: a value only
after the terminator, short and full nodes only before it, and short keys that the terminator
can only end. `Updates term n n' key o` says that `n'` answers as `n` with the key `key` set
to `o`, on every key that can reach them (`Sentinel.After 16 term`). It is built up the way
the operations rebuild a path: through a short node (`Updates.short`) and through one child of
a full node (`Updates.full`).
-/

namespace Classzz.Trie

open Sentinel

/-- `prefixLen` splits two keys into their common prefix and two rests that do not start
alike. -/
theorem prefixLen_split : ∀ a b : List Nibble, ∃ p a' b', a = p ++ a' ∧ b = p ++ b' ∧
    prefixLen a b = p.length ∧ ∀ c d, a'.head? = some c → b'.head? = some d → c ≠ d
  | x :: as, y :: bs => by
    by_cases hxy : x = y
    · obtain ⟨p, a', b', rfl, rfl, hlen, hd⟩ := prefixLen_split as bs
      subst hxy
      exact ⟨x :: p, a', b', rfl, rfl, by simp [prefixLen, hlen], hd⟩
    · refine ⟨[], x :: as, y :: bs, rfl, rfl, by simp [prefixLen, hxy], ?_⟩
      simp only [List.head?_cons, Option.some.injEq]
      rintro c d rfl rfl
      exact hxy
  | [], b => ⟨[], [], b, rfl, rfl, rfl, by simp⟩
  | x :: as, [] => ⟨[], x :: as, [], rfl, rfl, rfl, by simp⟩

namespace Node

section Get

variable {k key rest : List Nibble} {val x : Node}

@[simp] theorem tryGet_nil : Node.nil.tryGet key = none := rfl

@[simp] theorem tryGet_value (v : List UInt8) : (Node.value v).tryGet key = some v := rfl

@[simp] theorem tryGet_full_cons (children : Nibble → Node) (i : Nibble) :
    (full children).tryGet (i :: rest) = (children i).tryGet rest := rfl

/-- A short node answers below its key, and nothing elsewhere. -/
theorem tryGet_short :
    (short k val).tryGet key = if k <+: key then val.tryGet (key.drop k.length) else none := by
  have hiff : ¬ (key.length < k.length ∨ k ≠ key.take k.length) ↔ k <+: key := by
    rw [List.prefix_iff_eq_take]
    constructor
    · exact fun h => not_not.mp (not_or.mp h).2
    · intro h
      refine not_or.mpr ⟨fun hlt => ?_, not_not.mpr h⟩
      have := congrArg List.length h
      simp only [List.length_take] at this
      omega
  by_cases hp : k <+: key
  · rw [tryGet, if_neg (hiff.mpr hp), if_pos hp]
  · rw [tryGet, if_pos (not_not.mp (mt hiff.mp hp)), if_neg hp]

@[simp] theorem tryGet_short_append : (short k val).tryGet (k ++ rest) = val.tryGet rest := by
  simp [tryGet_short]

theorem tryGet_short_eq_none (h : ¬ k <+: key) : (short k val).tryGet key = none := by
  simp [tryGet_short, h]

@[simp] theorem tryGet_short_nil : (short [] x).tryGet key = x.tryGet key := by
  simp [tryGet_short]

/-- A short node over a short node answers as one over the joined key. -/
theorem tryGet_short_short {ck : List Nibble} {cv : Node} :
    (short k (short ck cv)).tryGet key = (short (k ++ ck) cv).tryGet key := by
  by_cases hp : k <+: key
  · obtain ⟨r, rfl⟩ := hp
    rw [tryGet_short_append, tryGet_short, tryGet_short]
    simp only [List.prefix_append_right_inj, List.length_append, ← List.drop_drop, List.drop_left]
  · have : ¬ k ++ ck <+: key := fun h => hp ((List.prefix_append k ck).trans h)
    rw [tryGet_short_eq_none hp, tryGet_short_eq_none this]

theorem tryGet_short_congr (h : ∀ r, x.tryGet r = val.tryGet r) :
    (short k x).tryGet key = (short k val).tryGet key := by
  simp [tryGet_short, h]

/-- A full node with one child answers as a one-nibble short node. -/
theorem tryGet_full_single (d : Nibble) :
    (full (Function.update (fun _ => nil) d x)).tryGet key = (short [d] x).tryGet key := by
  rcases key with _ | ⟨j, r⟩
  · rfl
  · rw [tryGet_full_cons]
    by_cases hj : j = d
    · subst hj
      rw [Function.update_self]
      exact (tryGet_short_append (k := [j])).symm
    · have : ¬ [d] <+: j :: r := by simp [Ne.symm hj]
      rw [Function.update_of_ne hj, tryGet_short_eq_none this]
      rfl

theorem tryGet_insertNil : (insertNil key x).2.tryGet rest = (short key x).tryGet rest := by
  cases key with
  | nil => simp [insertNil]
  | cons c key => rfl

theorem tryGet_mergeShort : (mergeShort k x).tryGet key = (short k x).tryGet key := by
  cases x with
  | short ck cv => rw [mergeShort, concat, tryGet_short_short]
  | _ => rfl

theorem tryGet_reduceShort {p : Nibble} : (reduceShort p x).tryGet key = (short [p] x).tryGet key := by
  unfold reduceShort
  split_ifs
  · cases x with
    | short ck cv => exact (tryGet_short_short (k := [p])).symm
    | _ => rfl
  · rfl

end Get

/-- The shape of every node of a trie built by `insert` and `delete`, below a path that holds
the terminator (`term`) or not. -/
def WF : Prop → Node → Prop
  | _, .nil => True
  | term, .value _ => term
  | term, .short k val => ¬ term ∧ Segment 16 k ∧ WF (16 ∈ k) val
  | term, .full children => ¬ term ∧ ∀ i, WF (16 ∈ [i]) (children i)

/-- A full node with one child changed keeps its shape if the child has the shape of its
slot. -/
theorem wf_full_update {term : Prop} {children : Nibble → Node} {i : Nibble} {x : Node}
    (ht : ¬ term) (hcs : ∀ j, WF (16 ∈ [j]) (children j)) (hx : WF (16 ∈ [i]) x) :
    WF term (full (Function.update children i x)) := by
  refine ⟨ht, fun j => ?_⟩
  by_cases hj : j = i
  · subst hj
    rwa [Function.update_self]
  · rw [Function.update_of_ne hj]
    exact hcs j

/-- `n'` answers as `n` with the key `key` set to `o`, on every key that can reach them. -/
def Updates (term : Prop) (n n' : Node) (key : List Nibble) (o : Option (List UInt8)) : Prop :=
  ∀ r, After 16 term r → n'.tryGet r = if r = key then o else n.tryGet r

section Updates

variable {term : Prop} {n n' x : Node} {k key : List Nibble} {o : Option (List UInt8)}

theorem Updates.congr (h : Updates term n n' key o) (hx : ∀ r, x.tryGet r = n'.tryGet r) :
    Updates term n x key o := fun r hr => (hx r).trans (h r hr)

theorem Updates.congr_left (h : Updates term n n' key o) (hx : ∀ r, x.tryGet r = n.tryGet r) :
    Updates term x n' key o := by
  intro r hr
  rw [h r hr, hx r]

/-- A node that stays as it was updates the key to what it already answers there. -/
theorem updates_self (h : After 16 term key → n.tryGet key = o) : Updates term n n key o := by
  intro r hr
  split_ifs with hrk
  · subst hrk
    exact h hr
  · rfl

/-- Updating below the key of a short node updates the short node. -/
theorem Updates.short {val val' : Node} {a : List Nibble} (ht : ¬ term)
    (h : Updates (16 ∈ k) val val' a o) : Updates term (.short k val) (.short k val') (k ++ a) o := by
  intro r hr
  by_cases hp : k <+: r
  · obtain ⟨r', rfl⟩ := hp
    rw [tryGet_short_append, tryGet_short_append, h r' (after_of_terminated_append (hr.2 ht))]
    simp
  · have hne : r ≠ k ++ a := by
      rintro rfl
      exact hp (List.prefix_append k a)
    rw [tryGet_short_eq_none hp, tryGet_short_eq_none hp, if_neg hne]

/-- Updating below one child of a full node updates the full node. -/
theorem Updates.full {children : Nibble → Node} {i : Nibble} {c' : Node} {a : List Nibble}
    (ht : ¬ term) (h : Updates (16 ∈ [i]) (children i) c' a o) :
    Updates term (.full children) (.full (Function.update children i c')) (i :: a) o := by
  rintro (_ | ⟨j, r⟩) hr
  · exact absurd (hr.2 ht) not_terminated_nil
  · have hr' : After 16 (16 ∈ [j]) r := after_of_terminated_append (k := [j]) (hr.2 ht)
    rw [tryGet_full_cons, tryGet_full_cons]
    by_cases hj : j = i
    · subst hj
      rw [Function.update_self, h r hr']
      simp
    · rw [Function.update_of_ne hj]
      simp [hj]

end Updates

end Node

end Classzz.Trie
