import Classzz.P2p.Discover.Table
import Classzz.Lib.Search

/-!
# The closest nodes seen

`nodesByDistance` collects the nodes a lookup is told about, keeping the `maxElems` closest to
its target. `push` finds by binary search the first entry farther away than the new node
(`enode.DistCmp`), appends the node if there is room, and slides the farther entries down to put
it in its place, which drops the farthest entry of a full list.

`DistCmp` compares the XOR distances of two IDs to the target byte by byte, so it is the
lexicographic order of `xorDist` (`distCmp_neg_iff`, `distCmp_pos_iff`); two distinct IDs are
never at one distance (`xorDist_injective`). Over a list sorted by that order the search splits
the entries at the new node (`Search.search_split`), and `push` inserts it there and keeps the
first `maxElems` (`push_eq`). From that, one push keeps the entries the closest of all nodes
pushed so far (`Closest.push`), and so does every sequence of pushes of distinct IDs
(`closest_pushAll`).
-/

namespace Classzz.Discover

/-- `enode.ID`: 32 bytes. -/
abbrev EnodeID := Vector UInt8 32

section Distance

/-- The loop of `DistCmp` over the bytes of the target and of the two IDs. -/
def distCmpLoop : List UInt8 → List UInt8 → List UInt8 → Int
  | t :: ts, x :: xs, y :: ys =>
      let da := x ^^^ t
      let db := y ^^^ t
      if da > db then 1 else if da < db then -1 else distCmpLoop ts xs ys
  | _, _, _ => 0

/-- `DistCmp`: the sign of `(a ^ target) - (b ^ target)`. -/
def distCmp (target a b : EnodeID) : Int :=
  distCmpLoop target.toList a.toList b.toList

/-- The XOR distance of an ID to the target, byte by byte. -/
def xorDist (target a : EnodeID) : List UInt8 :=
  List.zipWith (· ^^^ ·) a.toList target.toList

theorem distCmpLoop_eq : ∀ (ts xs ys : List UInt8), xs.length = ts.length → ys.length = ts.length →
    distCmpLoop ts xs ys =
      if List.zipWith (· ^^^ ·) xs ts < List.zipWith (· ^^^ ·) ys ts then -1
      else if List.zipWith (· ^^^ ·) ys ts < List.zipWith (· ^^^ ·) xs ts then 1 else 0
  | [], [], [], _, _ => by simp [distCmpLoop]
  | t :: ts, x :: xs, y :: ys, hx, hy => by
      simp only [List.length_cons, Nat.add_right_cancel_iff] at hx hy
      rw [distCmpLoop, distCmpLoop_eq ts xs ys hx hy]
      simp only [List.zipWith_cons_cons, List.cons_lt_cons_iff]
      -- the first byte where the distances differ decides
      by_cases hgt : y ^^^ t < x ^^^ t
      · have hnlt : ¬ x ^^^ t < y ^^^ t := UInt8.not_lt.mpr (UInt8.le_of_lt hgt)
        have hne : x ^^^ t ≠ y ^^^ t := fun he => UInt8.lt_irrefl _ (he ▸ hgt)
        simp [hgt, hnlt, hne]
      · by_cases hlt : x ^^^ t < y ^^^ t
        · have hne : y ^^^ t ≠ x ^^^ t := fun he => UInt8.lt_irrefl _ (he ▸ hlt)
          simp [hgt, hlt]
        · have heq : x ^^^ t = y ^^^ t :=
            UInt8.le_antisymm (UInt8.not_lt.mp hgt) (UInt8.not_lt.mp hlt)
          simp [heq]
  | [], _ :: _, _, hx, _ => absurd hx (by simp)
  | [], [], _ :: _, _, hy => absurd hy (by simp)
  | _ :: _, [], _, hx, _ => absurd hx (by simp)
  | _ :: _, _ :: _, [], _, hy => absurd hy (by simp)

theorem distCmp_eq (target a b : EnodeID) :
    distCmp target a b =
      if xorDist target a < xorDist target b then -1
      else if xorDist target b < xorDist target a then 1 else 0 :=
  distCmpLoop_eq _ _ _ (by simp) (by simp)

/-- `a` is strictly closer to the target than `b`. -/
theorem distCmp_neg_iff {target a b : EnodeID} :
    distCmp target a b < 0 ↔ xorDist target a < xorDist target b := by
  rw [distCmp_eq]
  split_ifs with h₁ h₂
  · simp [h₁]
  · simp only [h₁, iff_false]
    omega
  · simp [h₁]

/-- `a` is strictly farther from the target than `b`. -/
theorem distCmp_pos_iff {target a b : EnodeID} :
    distCmp target a b > 0 ↔ xorDist target b < xorDist target a := by
  rw [distCmp_eq]
  split_ifs with h₁ h₂
  · have : ¬ xorDist target b < xorDist target a := fun h => List.lt_irrefl _ (List.lt_trans h₁ h)
    simp only [this, iff_false]
    omega
  · simp [h₂]
  · simp [h₂]

/-- No two IDs are at one distance from the target. -/
theorem xorDist_injective (target : EnodeID) : Function.Injective (xorDist target) := by
  intro a b h
  rw [← Vector.toList_inj]
  have hlen : ∀ (ts xs ys : List UInt8), xs.length = ts.length → ys.length = ts.length →
      List.zipWith (· ^^^ ·) xs ts = List.zipWith (· ^^^ ·) ys ts → xs = ys := by
    intro ts
    induction ts with
    | nil =>
        intro xs ys hx hy _
        rw [List.length_eq_zero_iff.mp hx, List.length_eq_zero_iff.mp hy]
    | cons t ts ih =>
        intro xs ys hx hy he
        obtain ⟨x, xs, rfl⟩ := List.exists_cons_of_length_eq_add_one hx
        obtain ⟨y, ys, rfl⟩ := List.exists_cons_of_length_eq_add_one hy
        simp only [List.zipWith_cons_cons, List.cons.injEq] at he
        simp only [List.length_cons, Nat.add_right_cancel_iff] at hx hy
        rw [(UInt8.xor_left_inj t).mp he.1, ih xs ys hx hy he.2]
  exact hlen _ _ _ (by simp) (by simp) h

end Distance

section Order

variable {target : EnodeID}

/-- `a` is strictly closer to the target than `b`, as `DistCmp` says it. -/
def Closer (target : EnodeID) (a b : Node EnodeID) : Prop :=
  distCmp target a.id b.id < 0

theorem Closer.trans {a b c : Node EnodeID} (hab : Closer target a b) (hbc : Closer target b c) :
    Closer target a c :=
  distCmp_neg_iff.mpr (List.lt_trans (distCmp_neg_iff.mp hab) (distCmp_neg_iff.mp hbc))

theorem Closer.ne {a b : Node EnodeID} (h : Closer target a b) : a ≠ b := by
  rintro rfl
  exact List.lt_irrefl _ (distCmp_neg_iff.mp h)

/-- `DistCmp` says "farther" exactly when the other node is closer. -/
theorem distCmp_pos_iff_closer {a b : Node EnodeID} : distCmp target a.id b.id > 0 ↔ Closer target b a :=
  distCmp_pos_iff.trans distCmp_neg_iff.symm

/-- Of two nodes of distinct IDs one is closer. -/
theorem closer_of_not_closer {a b : Node EnodeID} (hne : a.id ≠ b.id) (h : ¬ Closer target b a) :
    Closer target a b := by
  rw [Closer, distCmp_neg_iff]
  rw [Closer, distCmp_neg_iff] at h
  by_contra hab
  exact hne (xorDist_injective target (Std.Trichotomous.trichotomous _ _ hab h))

end Order

/-- `nodesByDistance`: the entries, closest to the target first. -/
structure NodesByDistance where
  entries : List (Node EnodeID)
  target : EnodeID

namespace NodesByDistance

/-- `push`: the node goes before the first entry farther away, and the list stays within
`maxElems`. -/
def push (h : NodesByDistance) (n : Node EnodeID) (maxElems : ℕ) : NodesByDistance :=
  let ix := Search.search h.entries.length fun i =>
    h.entries[i]?.all fun e => decide (distCmp h.target e.id n.id > 0)
  let entries := if h.entries.length < maxElems then h.entries ++ [n] else h.entries
  if ix = entries.length then
    -- farther away than all nodes we already have
    { h with entries }
  else
    -- slide the entries from `ix` down by one, over the last one, and put the node at `ix`
    { h with entries := entries.take ix ++ n :: (entries.drop ix).take (entries.length - ix - 1) }

/-- Pushes one after another. -/
def pushAll (h : NodesByDistance) (ns : List (Node EnodeID)) (maxElems : ℕ) : NodesByDistance :=
  ns.foldl (fun h n => h.push n maxElems) h

@[simp]
theorem target_push (h : NodesByDistance) (n : Node EnodeID) (maxElems : ℕ) :
    (h.push n maxElems).target = h.target := by
  simp only [push]
  split_ifs <;> rfl

/-- Inserting into a list and keeping a prefix that reaches past the inserted element. -/
theorem take_insert {α : Type*} (l : List α) (x : α) {i k : ℕ} (hi : i ≤ l.length) (hk : i < k) :
    (l.take i ++ x :: l.drop i).take k = l.take i ++ x :: (l.drop i).take (k - i - 1) := by
  have hlen : (l.take i).length = i := List.length_take_of_le hi
  rw [List.take_append, List.take_of_length_le (by omega), hlen]
  obtain ⟨k', hk'⟩ : ∃ k', k - i = k' + 1 := ⟨k - i - 1, by omega⟩
  rw [hk', List.take_succ_cons, Nat.add_sub_cancel]

/-- `push` on entries sorted by distance: the entries split into those closer than the node and
those farther, and the node goes between them, of which the first `max maxElems` stay. -/
theorem push_eq (h : NodesByDistance) (n : Node EnodeID) (maxElems : ℕ)
    (hsorted : h.entries.Pairwise (Closer h.target)) (hn : ∀ e ∈ h.entries, e.id ≠ n.id) :
    ∃ pre post, h.entries = pre ++ post ∧ (∀ e ∈ pre, Closer h.target e n) ∧
      (∀ e ∈ post, Closer h.target n e) ∧
      (h.push n maxElems).entries = (pre ++ n :: post).take (max maxElems h.entries.length) := by
  set ix := Search.search h.entries.length fun i =>
    h.entries[i]?.all fun e => decide (distCmp h.target e.id n.id > 0) with hix
  -- the entries farther than the node come after those closer
  have hflips : h.entries.Pairwise fun a b =>
      decide (distCmp h.target a.id n.id > 0) = true → decide (distCmp h.target b.id n.id > 0) = true := by
    refine hsorted.imp fun hab ha => ?_
    simp only [decide_eq_true_eq, distCmp_pos_iff_closer] at ha ⊢
    exact ha.trans hab
  obtain ⟨hbelow, habove⟩ := Search.search_split hflips
  have hle : ix ≤ h.entries.length := Search.search_le _ _
  refine ⟨h.entries.take ix, h.entries.drop ix, (List.take_append_drop ix h.entries).symm,
    fun e he => ?_, fun e he => ?_, ?_⟩
  · -- not farther, and not at the node's distance
    have he' := hbelow e he
    simp only [decide_eq_false_iff_not, distCmp_pos_iff_closer] at he'
    exact closer_of_not_closer (hn e (List.mem_of_mem_take he)) he'
  · have he' := habove e he
    simpa only [decide_eq_true_eq, distCmp_pos_iff_closer] using he'
  · rw [push]
    rw [← hix]
    by_cases hroom : h.entries.length < maxElems
    · -- room left: the node is appended, and the slide overwrites it unless it is last
      have hmax : max maxElems h.entries.length = maxElems := by omega
      have hfits : (h.entries.take ix ++ n :: h.entries.drop ix).length ≤ maxElems := by
        simp only [List.length_append, List.length_take, List.length_cons, List.length_drop]
        omega
      rw [if_pos hroom, if_neg (by simp; omega), List.take_append_of_le_length hle,
        List.drop_append_of_le_length hle, List.length_append, List.length_singleton,
        show h.entries.length + 1 - ix - 1 = (h.entries.drop ix).length by simp; omega,
        List.take_left' rfl, hmax, List.take_of_length_le hfits]
    · have hmax : max maxElems h.entries.length = h.entries.length := by omega
      rw [if_neg hroom, hmax]
      by_cases hlast : ix = h.entries.length
      · -- farther than every entry of a full list: the node is left out
        rw [if_pos hlast, hlast, List.take_length, List.drop_length,
          List.take_left' rfl]
      · rw [if_neg hlast, take_insert _ _ hle (by omega)]

/-- In a list sorted by `r`, what a prefix keeps comes before what it leaves out. -/
theorem rel_of_mem_take {α : Type*} {r : α → α → Prop} {l : List α} (hl : l.Pairwise r) {k : ℕ}
    {a b : α} (ha : a ∈ l.take k) (hb : b ∈ l) (hb' : b ∉ l.take k) : r a b := by
  rw [← List.take_append_drop k l, List.mem_append] at hb
  rw [← List.take_append_drop k l, List.pairwise_append] at hl
  exact hl.2.2 a ha b (hb.resolve_left hb')

/-- The entries are the `maxElems` closest of the nodes pushed, closest first: a node pushed and
not kept is left out only of a full list, and is farther than every entry. -/
structure Closest (target : EnodeID) (maxElems : ℕ) (pushed entries : List (Node EnodeID)) :
    Prop where
  sorted : entries.Pairwise (Closer target)
  length_eq : entries.length = min maxElems pushed.length
  subset : ∀ e ∈ entries, e ∈ pushed
  left_out : ∀ x ∈ pushed, x ∉ entries →
    entries.length = maxElems ∧ ∀ e ∈ entries, Closer target e x

theorem Closest.nil (target : EnodeID) (maxElems : ℕ) : Closest target maxElems [] [] :=
  ⟨List.Pairwise.nil, by simp, by simp, by simp⟩

/-- One push of a node whose ID is new keeps the entries the closest of the nodes pushed. -/
theorem Closest.push {h : NodesByDistance} {maxElems : ℕ} {pushed : List (Node EnodeID)}
    {n : Node EnodeID} (hc : Closest h.target maxElems pushed h.entries)
    (hn : ∀ e ∈ pushed, e.id ≠ n.id) :
    Closest h.target maxElems (pushed ++ [n]) (h.push n maxElems).entries := by
  have hne : ∀ e ∈ h.entries, e.id ≠ n.id := fun e he => hn e (hc.subset e he)
  obtain ⟨pre, post, hsplit, hpre, hpost, hpush⟩ := push_eq h n maxElems hc.sorted hne
  have hmem : ∀ e, e ∈ pre ++ n :: post ↔ e ∈ h.entries ∨ e = n := by
    intro e
    rw [hsplit, List.mem_append, List.mem_append, List.mem_cons]
    tauto
  -- the node between the two halves keeps the list sorted
  have hsorted : (pre ++ n :: post).Pairwise (Closer h.target) := by
    have hs := hc.sorted
    rw [hsplit, List.pairwise_append] at hs
    rw [List.pairwise_append, List.pairwise_cons]
    refine ⟨hs.1, ⟨hpost, hs.2.1⟩, fun a ha b hb => ?_⟩
    rcases List.mem_cons.mp hb with rfl | hb
    · exact hpre a ha
    · exact hs.2.2 a ha b hb
  have hlen : pre.length + post.length = min maxElems pushed.length := by
    rw [← List.length_append, ← hsplit, hc.length_eq]
  have hlen' : (pre ++ n :: post).length = pre.length + post.length + 1 := by
    simp only [List.length_append, List.length_cons]
    omega
  rw [hpush, hsplit, List.length_append]
  refine ⟨hsorted.sublist (List.take_sublist _ _), ?_, ?_, ?_⟩
  · rw [List.length_take, hlen', List.length_append, List.length_singleton]
    omega
  · intro e he
    rw [List.mem_append, List.mem_singleton]
    rcases (hmem e).mp (List.mem_of_mem_take he) with he | rfl
    · exact Or.inl (hc.subset e he)
    · exact Or.inr rfl
  · intro x hx hxout
    rw [List.length_take, hlen']
    by_cases hxl : x ∈ pre ++ n :: post
    · -- a node of the merged list left out: the prefix kept is shorter than the list
      have hshort : max maxElems (pre.length + post.length) < pre.length + post.length + 1 := by
        by_contra hlong
        rw [List.take_of_length_le (by omega)] at hxout
        exact hxout hxl
      exact ⟨by omega, fun e he => rel_of_mem_take hsorted he hxl hxout⟩
    · -- a node left out before: the list was full, and it stays farther than the entries
      have hx' : x ∈ pushed := by
        rcases List.mem_append.mp hx with hx | hx
        · exact hx
        · exact absurd ((hmem x).mpr (Or.inr (List.mem_singleton.mp hx))) hxl
      obtain ⟨hfull, hfar⟩ := hc.left_out x hx' fun hxe => hxl ((hmem x).mpr (Or.inl hxe))
      rw [hsplit] at hfull hfar
      rw [List.length_append] at hfull
      refine ⟨by omega, fun e he => ?_⟩
      rcases (hmem e).mp (List.mem_of_mem_take he) with he | rfl
      · exact hfar e (hsplit ▸ he)
      · cases post with
        | nil =>
            -- the node came last into a full list, so it is not kept
            rw [List.length_nil, Nat.add_zero] at hfull
            rw [List.length_nil, Nat.add_zero, ← hfull, Nat.max_self,
              List.take_left' rfl] at he
            exact absurd rfl (hne e (hsplit ▸ List.mem_append_left _ he))
        | cons p post =>
            exact (hpost p List.mem_cons_self).trans
              (hfar p (List.mem_append_right _ List.mem_cons_self))

/-- Pushes of nodes of distinct IDs keep the entries the closest of all nodes pushed. -/
theorem closest_pushAll (h : NodesByDistance) (maxElems : ℕ) (pushed ns : List (Node EnodeID))
    (hc : Closest h.target maxElems pushed h.entries) (hids : ((pushed ++ ns).map Node.id).Nodup) :
    Closest h.target maxElems (pushed ++ ns) (h.pushAll ns maxElems).entries := by
  -- induction on the nodes still to push, the ones pushed moving into the history
  induction ns generalizing h pushed with
  | nil => simpa [pushAll] using hc
  | cons n ns ih =>
      have hn : ∀ e ∈ pushed, e.id ≠ n.id := by
        rw [List.map_append, List.nodup_append] at hids
        exact fun e he => hids.2.2 e.id (List.mem_map_of_mem he) n.id List.mem_cons_self
      have hc' : Closest (h.push n maxElems).target maxElems (pushed ++ [n])
          (h.push n maxElems).entries := by
        rw [target_push]
        exact hc.push hn
      have hids' : ((pushed ++ [n] ++ ns).map Node.id).Nodup := by
        rwa [List.append_assoc, List.singleton_append]
      have hrun := ih (h.push n maxElems) (pushed ++ [n]) hc' hids'
      rwa [target_push, List.append_assoc, List.singleton_append] at hrun

/-- A lookup's result: pushing nodes of distinct IDs into an empty `nodesByDistance` leaves the
`maxElems` of them closest to the target, sorted by distance, closest first. -/
theorem pushAll_closest (target : EnodeID) (maxElems : ℕ) (ns : List (Node EnodeID))
    (hids : (ns.map Node.id).Nodup) :
    (pushAll ⟨[], target⟩ ns maxElems).entries.Pairwise (Closer target) ∧
      (pushAll ⟨[], target⟩ ns maxElems).entries.length = min maxElems ns.length ∧
      (∀ e ∈ (pushAll ⟨[], target⟩ ns maxElems).entries, e ∈ ns) ∧
      ∀ x ∈ ns, x ∉ (pushAll ⟨[], target⟩ ns maxElems).entries →
        ∀ e ∈ (pushAll ⟨[], target⟩ ns maxElems).entries, Closer target e x := by
  have hc := closest_pushAll ⟨[], target⟩ maxElems [] ns (Closest.nil target maxElems)
    (by rwa [List.nil_append])
  rw [List.nil_append] at hc
  exact ⟨hc.sorted, hc.length_eq, hc.subset, fun x hx hxout => (hc.left_out x hx hxout).2⟩

theorem pushAll_closest_two :
    ([(⟨Vector.replicate 32 1, []⟩ : Node EnodeID), ⟨Vector.replicate 32 2, []⟩].map Node.id).Nodup ∧
      (pushAll ⟨[], Vector.replicate 32 0⟩
        [⟨Vector.replicate 32 1, []⟩, ⟨Vector.replicate 32 2, []⟩] 1).entries.Pairwise
          (Closer (Vector.replicate 32 0)) ∧
      (pushAll ⟨[], Vector.replicate 32 0⟩
        [⟨Vector.replicate 32 1, []⟩, ⟨Vector.replicate 32 2, []⟩] 1).entries.length = min 1 2 ∧
      (∀ e ∈ (pushAll ⟨[], Vector.replicate 32 0⟩
        [⟨Vector.replicate 32 1, []⟩, ⟨Vector.replicate 32 2, []⟩] 1).entries,
          e ∈ [(⟨Vector.replicate 32 1, []⟩ : Node EnodeID), ⟨Vector.replicate 32 2, []⟩]) ∧
      ∀ x ∈ [(⟨Vector.replicate 32 1, []⟩ : Node EnodeID), ⟨Vector.replicate 32 2, []⟩],
        x ∉ (pushAll ⟨[], Vector.replicate 32 0⟩
          [⟨Vector.replicate 32 1, []⟩, ⟨Vector.replicate 32 2, []⟩] 1).entries →
        ∀ e ∈ (pushAll ⟨[], Vector.replicate 32 0⟩
          [⟨Vector.replicate 32 1, []⟩, ⟨Vector.replicate 32 2, []⟩] 1).entries,
            Closer (Vector.replicate 32 0) e x :=
  have hids : ([(⟨Vector.replicate 32 1, []⟩ : Node EnodeID), ⟨Vector.replicate 32 2, []⟩].map
      Node.id).Nodup := by decide
  ⟨hids, pushAll_closest _ 1 _ hids⟩

end NodesByDistance

end Classzz.Discover
