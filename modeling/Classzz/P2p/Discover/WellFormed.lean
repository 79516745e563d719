import Classzz.P2p.Discover.Table

/-!
# The buckets stay well formed

The part of the discovery table's invariant that holds: from the empty table, over every run of
operations, each bucket keeps at most `bucketSize` entries and `maxReplacements` replacements,
no ID twice among its entries and replacements together, never the local ID, and only nodes of
its own log distance (`run_wellFormed`).

Only the node lists matter here. The counters come in once: when `bumpInBucket` finds the node
but its new address does not fit, `addVerifiedNode` goes on to add the node, and it must be
refused again, or it would stand twice in the bucket. The old address is counted back in the
meantime, which only raises counts, so the new one still does not fit (`bumpInBucket_false`).
-/

namespace Classzz.Discover

open Classzz.Netutil

variable {ID : Type*} [DecidableEq ID]

/-! ### The node lists -/

section Lists

theorem contains_eq_false_iff {list : List (Node ID)} {id : ID} :
    contains list id = false ↔ id ∉ list.map Node.id := by
  simp [contains]

theorem deleteNode_sublist (list : List (Node ID)) (n : Node ID) :
    (deleteNode list n).Sublist list := by
  induction list with
  | nil => exact List.Sublist.slnil
  | cons m list ih =>
    rw [deleteNode]
    split_ifs
    · exact List.sublist_cons_self m list
    · exact ih.cons_cons m

theorem not_mem_deleteNode {list : List (Node ID)} (hnd : (list.map Node.id).Nodup)
    (n : Node ID) : n.id ∉ (deleteNode list n).map Node.id := by
  induction list with
  | nil => simp [deleteNode]
  | cons m list ih =>
    rw [List.map_cons, List.nodup_cons] at hnd
    rw [deleteNode]
    split_ifs with hm
    · rw [← hm]
      exact hnd.1
    · rw [List.map_cons, List.mem_cons, not_or]
      exact ⟨Ne.symm hm, ih hnd.2⟩

/-- A node of a list whose IDs are distinct is the one `deleteNode` takes out. -/
theorem perm_deleteNode {list : List (Node ID)} {r : Node ID} (hr : r ∈ list)
    (hnd : (list.map Node.id).Nodup) : list.Perm (r :: deleteNode list r) := by
  induction list with
  | nil => exact absurd hr List.not_mem_nil
  | cons m list ih =>
    rw [List.map_cons, List.nodup_cons] at hnd
    rw [deleteNode]
    split_ifs with hm
    · -- the first node of `r`'s ID is `r`, as no other node has it
      rcases List.mem_cons.mp hr with rfl | hr'
      · exact List.Perm.refl _
      · exact absurd (hm ▸ List.mem_map_of_mem hr') hnd.1
    · have hr' : r ∈ list := by
        rcases List.mem_cons.mp hr with rfl | hr'
        · exact absurd rfl hm
        · exact hr'
      exact ((ih hr' hnd.2).cons m).trans (List.Perm.swap r m _)

theorem findEntry_eq_some {id : ID} {list pre post : List (Node ID)} {old : Node ID}
    (h : findEntry id list = some (pre, old, post)) : list = pre ++ old :: post ∧ old.id = id := by
  induction list generalizing pre with
  | nil => cases h
  | cons e es ih =>
    rw [findEntry] at h
    split_ifs at h with he
    · cases h
      exact ⟨rfl, he⟩
    · obtain ⟨r, hr, hpr⟩ := Option.map_eq_some_iff.mp h
      cases hpr
      obtain ⟨hes, hid⟩ := ih hr
      exact ⟨by rw [hes]; rfl, hid⟩

theorem findEntry_eq_none {id : ID} {list : List (Node ID)} (h : findEntry id list = none) :
    contains list id = false := by
  induction list with
  | nil => rfl
  | cons e es ih =>
    rw [findEntry] at h
    by_cases he : e.id = id
    · rw [if_pos he] at h
      cases h
    · rw [if_neg he, Option.map_eq_none_iff] at h
      simp only [contains, List.any_cons, Bool.or_eq_false_iff, decide_eq_false_iff_not]
      exact ⟨he, ih h⟩

omit [DecidableEq ID] in
theorem pushNode_of_lt {list : List (Node ID)} {n : Node ID} {max : ℕ} (h : list.length < max) :
    pushNode list n max = (n :: list, none) :=
  if_pos h

end Lists

/-! ### Sound buckets, well formed tables -/

/-- A sound bucket `bi` of the table with local ID `localId`: within its sizes, no ID twice among
entries and replacements, no local ID, and only nodes of its distance. -/
structure Bucket.Sound (logDist : ID → ID → Fin (hashBits + 1)) (localId : ID)
    (bi : Fin nBuckets) (b : Bucket ID) : Prop where
  entries_le : b.entries.length ≤ bucketSize
  replacements_le : b.replacements.length ≤ maxReplacements
  nodup : ((b.entries ++ b.replacements).map Node.id).Nodup
  placed : ∀ n ∈ b.entries ++ b.replacements,
    n.id ≠ localId ∧ bucketIndex logDist localId n.id = bi

/-- Every bucket is sound. -/
def WellFormed (logDist : ID → ID → Fin (hashBits + 1)) (tab : Table ID) : Prop :=
  ∀ bi, (tab.buckets bi).Sound logDist tab.self bi

/-- Two tables with one local ID and the same nodes in every bucket; only counts differ. -/
structure SameNodes (tab tab' : Table ID) : Prop where
  self_eq : tab'.self = tab.self
  entries_eq : ∀ bi, (tab'.buckets bi).entries = (tab.buckets bi).entries
  replacements_eq : ∀ bi, (tab'.buckets bi).replacements = (tab.buckets bi).replacements

variable {logDist : ID → ID → Fin (hashBits + 1)}

section Sound

variable {self : ID} {bi : Fin nBuckets} {b : Bucket ID} {n : Node ID}

omit [DecidableEq ID] in
theorem Bucket.Sound.of_lists {b' : Bucket ID} (h : b.Sound logDist self bi)
    (he : b'.entries = b.entries) (hr : b'.replacements = b.replacements) :
    b'.Sound logDist self bi := by
  obtain ⟨h₁, h₂, h₃, h₄⟩ := h
  rw [← he, ← hr] at *
  exact ⟨h₁, h₂, h₃, h₄⟩

/-- A node new to the bucket, with room for it, joins the entries and leaves the
replacements. -/
theorem Bucket.Sound.join (h : b.Sound logDist self bi) (hn : n.id ≠ self)
    (hbi : bucketIndex logDist self n.id = bi) (hnew : contains b.entries n.id = false)
    (hroom : b.entries.length < bucketSize) {E : List (Node ID)} (hE : E.Perm (n :: b.entries))
    (ips : DistinctNetSet) : (Bucket.mk E (deleteNode b.replacements n) ips).Sound logDist self bi := by
  have hsub : (b.entries ++ deleteNode b.replacements n).Sublist (b.entries ++ b.replacements) :=
    (deleteNode_sublist _ n).append_left _
  have hrnd : (b.replacements.map Node.id).Nodup := (List.nodup_append.mp
    (List.map_append ▸ h.nodup)).2.1
  -- the new list is `n` in front of a part of the old one
  have hperm : (E ++ deleteNode b.replacements n).Perm
      (n :: (b.entries ++ deleteNode b.replacements n)) := hE.append_right _
  refine ⟨?_, ?_, ?_, ?_⟩
  · rw [hE.length_eq, List.length_cons]
    exact hroom
  · exact Nat.le_trans (deleteNode_sublist _ n).length_le h.replacements_le
  · rw [(hperm.map Node.id).nodup_iff, List.map_cons, List.nodup_cons, List.map_append,
      List.mem_append, not_or]
    refine ⟨⟨contains_eq_false_iff.mp hnew, not_mem_deleteNode hrnd n⟩, ?_⟩
    rw [← List.map_append]
    exact (hsub.map Node.id).nodup h.nodup
  · intro m hm
    rcases List.mem_cons.mp (hperm.mem_iff.mp hm) with rfl | hm
    · exact ⟨hn, hbi⟩
    · exact h.placed m (hsub.subset hm)

/-- A node new to the bucket joins the replacements in front, the last one falling off if
they are full. -/
theorem Bucket.Sound.pushReplacement (h : b.Sound logDist self bi) (hn : n.id ≠ self)
    (hbi : bucketIndex logDist self n.id = bi) (hnew : contains b.entries n.id = false)
    (hrep : contains b.replacements n.id = false) :
    { b with replacements := (pushNode b.replacements n maxReplacements).1 }.Sound
      logDist self bi := by
  -- the pushed list is `n` in front of a part of the replacements
  obtain ⟨R, hR, hsubR, hlen⟩ : ∃ R, (pushNode b.replacements n maxReplacements).1 = n :: R ∧
      R.Sublist b.replacements ∧ R.length < maxReplacements := by
    unfold pushNode
    split_ifs with hlt
    · exact ⟨b.replacements, rfl, List.Sublist.refl _, hlt⟩
    · refine ⟨b.replacements.dropLast, rfl, List.dropLast_sublist _, ?_⟩
      rw [List.length_dropLast]
      have := h.replacements_le
      have hpos : 0 < maxReplacements := by decide
      omega
  have hsub : (b.entries ++ R).Sublist (b.entries ++ b.replacements) := hsubR.append_left _
  have hperm : (b.entries ++ n :: R).Perm (n :: (b.entries ++ R)) := List.perm_middle
  refine ⟨h.entries_le, ?_, ?_, ?_⟩
  · show (pushNode b.replacements n maxReplacements).1.length ≤ maxReplacements
    rw [hR, List.length_cons]
    exact hlen
  · show ((b.entries ++ (pushNode b.replacements n maxReplacements).1).map Node.id).Nodup
    rw [hR, (hperm.map Node.id).nodup_iff, List.map_cons, List.nodup_cons]
    refine ⟨fun hm => ?_, (hsub.map Node.id).nodup h.nodup⟩
    rw [List.map_append, List.mem_append] at hm
    rcases hm with hm | hm
    · exact contains_eq_false_iff.mp hnew hm
    · exact contains_eq_false_iff.mp hrep ((hsubR.map Node.id).subset hm)
  · intro m hm
    change m ∈ b.entries ++ (pushNode b.replacements n maxReplacements).1 at hm
    rw [hR] at hm
    rcases List.mem_cons.mp (hperm.mem_iff.mp hm) with rfl | hm
    · exact ⟨hn, hbi⟩
    · exact h.placed m (hsub.subset hm)

omit [DecidableEq ID] in
/-- An entry moved to the front, under the same ID. -/
theorem Bucket.Sound.bump (h : b.Sound logDist self bi) {pre post : List (Node ID)}
    {old : Node ID} (hsplit : b.entries = pre ++ old :: post) (hid : old.id = n.id) :
    { b with entries := n :: (pre ++ post) }.Sound logDist self bi := by
  have hlen : (n :: (pre ++ post)).length = b.entries.length := by
    rw [hsplit]
    simp only [List.length_cons, List.length_append]
    omega
  have hmap : ((n :: (pre ++ post)) ++ b.replacements).map Node.id =
      ((old :: (pre ++ post)) ++ b.replacements).map Node.id := by
    simp [hid]
  have hperm : ((old :: (pre ++ post)) ++ b.replacements).Perm (b.entries ++ b.replacements) := by
    rw [hsplit]
    exact List.perm_middle.symm.append_right _
  refine ⟨hlen ▸ h.entries_le, h.replacements_le, ?_, ?_⟩
  · show (((n :: (pre ++ post)) ++ b.replacements).map Node.id).Nodup
    rw [hmap, (hperm.map Node.id).nodup_iff]
    exact h.nodup
  · intro m hm
    change m ∈ (n :: (pre ++ post)) ++ b.replacements at hm
    rcases List.mem_append.mp hm with hm | hm
    · rcases List.mem_cons.mp hm with rfl | hm
      · rw [← hid]
        exact h.placed old (hperm.mem_iff.mp (by simp))
      · exact h.placed m (hperm.mem_iff.mp
          (List.mem_append_left _ (List.mem_cons_of_mem old hm)))
    · exact h.placed m (List.mem_append_right _ hm)

omit [DecidableEq ID] in
/-- Entries taken out. -/
theorem Bucket.Sound.sublist (h : b.Sound logDist self bi) {E : List (Node ID)}
    (hE : E.Sublist b.entries) : { b with entries := E }.Sound logDist self bi := by
  have hsub : (E ++ b.replacements).Sublist (b.entries ++ b.replacements) := hE.append_right _
  exact ⟨Nat.le_trans hE.length_le h.entries_le, h.replacements_le,
    (hsub.map Node.id).nodup h.nodup, fun m hm => h.placed m (hsub.subset hm)⟩

/-- The last entry replaced by one of the replacements. -/
theorem Bucket.Sound.replaceLast (h : b.Sound logDist self bi) (hne : b.entries ≠ [])
    {r : Node ID} (hr : r ∈ b.replacements) :
    { b with replacements := deleteNode b.replacements r,
             entries := b.entries.dropLast ++ [r] }.Sound logDist self bi := by
  have hrnd : (b.replacements.map Node.id).Nodup :=
    (List.nodup_append.mp (List.map_append ▸ h.nodup)).2.1
  -- the new lists are the old ones without the last entry
  have hperm : ((b.entries.dropLast ++ [r]) ++ deleteNode b.replacements r).Perm
      (b.entries.dropLast ++ b.replacements) := by
    rw [List.append_assoc, List.singleton_append]
    exact (perm_deleteNode hr hrnd).symm.append_left _
  have hsub : (b.entries.dropLast ++ b.replacements).Sublist (b.entries ++ b.replacements) :=
    (List.dropLast_sublist _).append_right _
  have hpos := List.length_pos_iff.mpr hne
  refine ⟨?_, Nat.le_trans (deleteNode_sublist _ r).length_le h.replacements_le, ?_, ?_⟩
  · show (b.entries.dropLast ++ [r]).length ≤ bucketSize
    rw [List.length_append, List.length_dropLast, List.length_singleton,
      Nat.sub_add_cancel hpos]
    exact h.entries_le
  · show (((b.entries.dropLast ++ [r]) ++ deleteNode b.replacements r).map Node.id).Nodup
    rw [(hperm.map Node.id).nodup_iff]
    exact (hsub.map Node.id).nodup h.nodup
  · intro m hm
    exact h.placed m (hsub.subset (hperm.mem_iff.mp hm))

end Sound

/-! ### Counts only -/

section Counts

variable {isLAN : IP → Bool} {tab tab' tab'' : Table ID} {bi : Fin nBuckets} {ip : IP}

omit [DecidableEq ID] in
theorem SameNodes.refl (tab : Table ID) : SameNodes tab tab := ⟨rfl, fun _ => rfl, fun _ => rfl⟩

omit [DecidableEq ID] in
theorem SameNodes.trans (h₁ : SameNodes tab tab') (h₂ : SameNodes tab' tab'') :
    SameNodes tab tab'' :=
  ⟨h₂.self_eq.trans h₁.self_eq, fun bj => (h₂.entries_eq bj).trans (h₁.entries_eq bj),
    fun bj => (h₂.replacements_eq bj).trans (h₁.replacements_eq bj)⟩

omit [DecidableEq ID] in
theorem SameNodes.bucket (h : SameNodes tab tab') (logDist : ID → ID → Fin (hashBits + 1)) :
    tab'.bucket logDist = tab.bucket logDist := by
  funext id
  rw [Table.bucket, Table.bucket, h.self_eq]

omit [DecidableEq ID] in
/-- The counters are not the nodes. -/
theorem SameNodes.with_ips (h : SameNodes tab tab') (s : DistinctNetSet) :
    SameNodes tab { tab' with ips := s } :=
  ⟨h.self_eq, h.entries_eq, h.replacements_eq⟩

/-- A write that keeps a bucket's lists keeps every bucket's. -/
theorem sameNodes_modify {f : Bucket ID → Bucket ID}
    (he : (f (tab.buckets bi)).entries = (tab.buckets bi).entries)
    (hr : (f (tab.buckets bi)).replacements = (tab.buckets bi).replacements) :
    SameNodes tab (tab.modify bi f) := by
  refine ⟨rfl, fun bj => ?_, fun bj => ?_⟩
  all_goals by_cases hj : bj = bi
  · subst hj
    rw [Table.buckets_modify_self, he]
  · rw [Table.buckets_modify_of_ne hj]
  · subst hj
    rw [Table.buckets_modify_self, hr]
  · rw [Table.buckets_modify_of_ne hj]

theorem sameNodes_addIP : SameNodes tab (tab.addIP isLAN bi ip).2 := by
  unfold Table.addIP
  split_ifs
  · exact .refl tab
  · exact .refl tab
  · exact .refl tab
  · exact ⟨rfl, fun _ => rfl, fun _ => rfl⟩
  · exact (sameNodes_modify rfl rfl).with_ips _

theorem sameNodes_removeIP : SameNodes tab (tab.removeIP isLAN bi ip) := by
  unfold Table.removeIP
  split_ifs
  · exact .refl tab
  · exact (sameNodes_modify rfl rfl).with_ips _

/-- `tab'` counts no fewer addresses than `tab`, in the table and in bucket `bi`, under the same
subnets and limits. -/
structure CountsLE (bi : Fin nBuckets) (tab tab' : Table ID) : Prop where
  ips_subnet : tab'.ips.subnet = tab.ips.subnet
  ips_limit : tab'.ips.limit = tab.ips.limit
  ips_le : ∀ k, tab.ips.members k ≤ tab'.ips.members k
  bucket_subnet : (tab'.buckets bi).ips.subnet = (tab.buckets bi).ips.subnet
  bucket_limit : (tab'.buckets bi).ips.limit = (tab.buckets bi).ips.limit
  bucket_le : ∀ k, (tab.buckets bi).ips.members k ≤ (tab'.buckets bi).ips.members k

omit [DecidableEq ID] in
theorem CountsLE.refl (bi : Fin nBuckets) (tab : Table ID) : CountsLE bi tab tab :=
  ⟨rfl, rfl, fun _ => Nat.le_refl _, rfl, rfl, fun _ => Nat.le_refl _⟩

/-- `addIP` takes no count back that it did not add. -/
theorem countsLE_addIP : CountsLE bi tab (tab.addIP isLAN bi ip).2 := by
  unfold Table.addIP
  split_ifs with h₀ h₁ h₂ h₃
  · exact .refl bi tab
  · exact .refl bi tab
  · exact .refl bi tab
  · -- the bucket refused: the table's count went up and back down
    have hadd : (tab.ips.add ip).1 = true := by simpa using h₂
    have hback : (tab.ips.add ip).2.remove ip = tab.ips := tab.ips.remove_add ip hadd
    rw [show ({ tab with ips := (tab.ips.add ip).2.remove ip } : Table ID) = tab by rw [hback]]
    exact .refl bi tab
  · refine ⟨DistinctNetSet.subnet_add _ _, DistinctNetSet.limit_add _ _,
      DistinctNetSet.members_le_add _ _, ?_, ?_, ?_⟩
    · simp
    · simp
    · intro k
      simp only [Table.buckets_modify_self]
      exact DistinctNetSet.members_le_add _ _ k

omit [DecidableEq ID] in
/-- When `addIP` refuses an address, it changes nothing. -/
theorem addIP_eq_false (h : (tab.addIP isLAN bi ip).1 = false) :
    tab.addIP isLAN bi ip = (false, tab) := by
  unfold Table.addIP at h ⊢
  split_ifs at h ⊢ with h₀ h₁ h₂ h₃
  · rfl
  · rfl
  · rw [tab.ips.remove_add ip (by simpa using h₂)]

omit [DecidableEq ID] in
theorem addIP_fst_eq_false_iff :
    (tab.addIP isLAN bi ip).1 = false ↔ ip.length = 0 ∨
      (isLAN ip = false ∧ ((tab.ips.add ip).1 = false ∨ ((tab.buckets bi).ips.add ip).1 = false)) := by
  unfold Table.addIP
  split_ifs with h₀ h₁ h₂ h₃ <;> simp_all

omit [DecidableEq ID] in
/-- A table that counts no fewer addresses refuses what `tab` refuses. -/
theorem addIP_fst_eq_false_of_countsLE (h : (tab.addIP isLAN bi ip).1 = false)
    (hle : CountsLE bi tab tab') : (tab'.addIP isLAN bi ip).1 = false := by
  rw [addIP_fst_eq_false_iff] at h ⊢
  rcases h with h | ⟨hlan, h | h⟩
  · exact .inl h
  · exact .inr ⟨hlan, .inl (DistinctNetSet.add_fst_eq_false_of_le _ _ hle.ips_subnet
      hle.ips_limit hle.ips_le h)⟩
  · exact .inr ⟨hlan, .inr (DistinctNetSet.add_fst_eq_false_of_le _ _ hle.bucket_subnet
      hle.bucket_limit hle.bucket_le h)⟩

end Counts

/-! ### Every operation keeps the table well formed -/

section Preservation

variable {isLAN : IP → Bool} {tab : Table ID} {bi : Fin nBuckets} {n : Node ID}

omit [DecidableEq ID] in
theorem WellFormed.of_sameNodes (h : WellFormed logDist tab) {tab' : Table ID}
    (hs : SameNodes tab tab') : WellFormed logDist tab' := fun bj => by
  rw [hs.self_eq]
  exact (h bj).of_lists (hs.entries_eq bj) (hs.replacements_eq bj)

theorem WellFormed.modify (h : WellFormed logDist tab) {f : Bucket ID → Bucket ID}
    (hb : (f (tab.buckets bi)).Sound logDist tab.self bi) : WellFormed logDist (tab.modify bi f) := by
  intro bj
  by_cases hj : bj = bi
  · subst hj
    rw [Table.buckets_modify_self]
    exact hb
  · rw [Table.buckets_modify_of_ne hj]
    exact h bj

/-- The shape of every caller of `addIP`: the table `addIP` left on refusal, `g` of it on
success. -/
theorem WellFormed.addIP_match (h : WellFormed logDist tab) {ip : IP} {g : Table ID → Table ID}
    (hg : ∀ t, SameNodes tab t → WellFormed logDist (g t)) :
    WellFormed logDist (match tab.addIP isLAN bi ip with | (false, t) => t | (true, t) => g t) := by
  obtain ⟨ok, t, hadd, hs⟩ : ∃ ok t, tab.addIP isLAN bi ip = (ok, t) ∧ SameNodes tab t :=
    ⟨_, _, rfl, sameNodes_addIP⟩
  rw [hadd]
  cases ok
  · exact h.of_sameNodes hs
  · exact hg t hs

/-- `addReplacement` of a node of bucket `bi` that is not among its entries, as both callers
make sure. -/
theorem WellFormed.addReplacement (h : WellFormed logDist tab) (hn : n.id ≠ tab.self)
    (hbi : tab.bucket logDist n.id = bi) (hnew : contains (tab.buckets bi).entries n.id = false) :
    WellFormed logDist (tab.addReplacement isLAN bi n) := by
  unfold Table.addReplacement
  by_cases hrep : contains (tab.buckets bi).replacements n.id = true
  · rw [if_pos hrep]
    exact h
  rw [if_neg hrep]
  refine h.addIP_match fun t hs => ?_
  have ht := h.of_sameNodes hs
  have hpush : WellFormed logDist (t.modify bi fun b =>
      { b with replacements := (pushNode (t.buckets bi).replacements n maxReplacements).1 }) := by
    refine ht.modify ((ht bi).pushReplacement ?_ ?_ ?_ ?_)
    · rw [hs.self_eq]; exact hn
    · rw [hs.self_eq]; exact hbi
    · rw [hs.entries_eq]; exact hnew
    · rw [hs.replacements_eq]; exact Bool.eq_false_iff.mpr hrep
  -- the replacement that fell off the end is uncounted
  dsimp only
  split
  · exact hpush
  · exact hpush.of_sameNodes sameNodes_removeIP

theorem addReplacement_of_addIP_false (h : (tab.addIP isLAN bi n.ip).1 = false) :
    tab.addReplacement isLAN bi n = tab := by
  unfold Table.addReplacement
  split_ifs
  · rfl
  · simp only [addIP_eq_false h]

theorem WellFormed.addSeenNode (h : WellFormed logDist tab) (n : Node ID) :
    WellFormed logDist (tab.addSeenNode logDist isLAN n) := by
  unfold Table.addSeenNode
  by_cases hself : n.id = tab.self
  · rw [if_pos hself]
    exact h
  rw [if_neg hself]
  dsimp only
  generalize hbi : tab.bucket logDist n.id = bi
  by_cases hcont : contains (tab.buckets bi).entries n.id = true
  · rw [if_pos hcont]
    exact h
  rw [if_neg hcont]
  have hnew := Bool.eq_false_iff.mpr hcont
  by_cases hfull : bucketSize ≤ (tab.buckets bi).entries.length
  · rw [if_pos hfull]
    exact h.addReplacement hself hbi hnew
  rw [if_neg hfull]
  -- `n` at the end of the entries, and out of the replacements
  refine h.addIP_match fun t hs => (h.of_sameNodes hs).modify ?_
  refine (h.of_sameNodes hs bi).join ?_ ?_ ?_ ?_ (List.perm_append_singleton n _) _
  · rw [hs.self_eq]; exact hself
  · rw [hs.self_eq]; exact hbi
  · rw [hs.entries_eq]; exact hnew
  · rw [hs.entries_eq]; exact Nat.lt_of_not_le hfull

/-- A bump moves an entry to the front under its own ID. -/
theorem WellFormed.bumpInBucket (h : WellFormed logDist tab) (isLAN : IP → Bool)
    (bi : Fin nBuckets) (n : Node ID) : WellFormed logDist (tab.bumpInBucket isLAN bi n).2 := by
  unfold Table.bumpInBucket
  cases hf : findEntry n.id (tab.buckets bi).entries with
  | none => exact h
  | some r =>
    obtain ⟨pre, old, post⟩ := r
    obtain ⟨hsplit, hid⟩ := findEntry_eq_some hf
    have hfront : ∀ t, SameNodes tab t →
        WellFormed logDist (t.modify bi fun b => { b with entries := n :: (pre ++ post) }) :=
      fun t hs => (h.of_sameNodes hs).modify
        ((h.of_sameNodes hs bi).bump (by rw [hs.entries_eq]; exact hsplit) hid)
    dsimp only
    by_cases hip : ipEqual n.ip old.ip = true
    · rw [if_pos hip]
      exact hfront tab (.refl tab)
    rw [if_neg hip]
    obtain ⟨ok, t, hadd, hs⟩ : ∃ ok t, (tab.removeIP isLAN bi old.ip).addIP isLAN bi n.ip = (ok, t) ∧
        SameNodes tab t := ⟨_, _, rfl, sameNodes_removeIP.trans sameNodes_addIP⟩
    rw [hadd]
    cases ok
    · exact h.of_sameNodes (hs.trans sameNodes_addIP)
    · exact hfront t hs

/-- A bump that fails keeps the nodes, and either `n` is no entry or its new address does not
fit the table it leaves. -/
theorem bumpInBucket_false {t : Table ID} (hb : tab.bumpInBucket isLAN bi n = (false, t)) :
    SameNodes tab t ∧
      (contains (tab.buckets bi).entries n.id = false ∨ (t.addIP isLAN bi n.ip).1 = false) := by
  unfold Table.bumpInBucket at hb
  cases hf : findEntry n.id (tab.buckets bi).entries with
  | none =>
    rw [hf] at hb
    cases hb
    exact ⟨.refl tab, .inl (findEntry_eq_none hf)⟩
  | some r =>
    obtain ⟨pre, old, post⟩ := r
    rw [hf] at hb
    dsimp only at hb
    by_cases hip : ipEqual n.ip old.ip = true
    · rw [if_pos hip] at hb
      cases hb
    rw [if_neg hip] at hb
    obtain ⟨ok, t₀, hadd, hs⟩ : ∃ ok t₀,
        (tab.removeIP isLAN bi old.ip).addIP isLAN bi n.ip = (ok, t₀) ∧ SameNodes tab t₀ :=
      ⟨_, _, rfl, sameNodes_removeIP.trans sameNodes_addIP⟩
    rw [hadd] at hb
    cases ok
    · -- refused once after the old address was uncounted, so refused again once it is back
      cases hb
      have hfst : ((tab.removeIP isLAN bi old.ip).addIP isLAN bi n.ip).1 = false := by rw [hadd]
      have ht₀ : t₀ = tab.removeIP isLAN bi old.ip :=
        (Prod.mk.inj (hadd.symm.trans (addIP_eq_false hfst))).2
      subst ht₀
      exact ⟨hs.trans sameNodes_addIP, .inr (addIP_fst_eq_false_of_countsLE hfst countsLE_addIP)⟩
    · cases hb

theorem WellFormed.addVerifiedNode (h : WellFormed logDist tab) (n : Node ID) :
    WellFormed logDist (tab.addVerifiedNode logDist isLAN n) := by
  unfold Table.addVerifiedNode
  by_cases hinit : (!tab.initDone) = true
  · rw [if_pos hinit]
    exact h
  rw [if_neg hinit]
  by_cases hself : n.id = tab.self
  · rw [if_pos hself]
    exact h
  rw [if_neg hself]
  dsimp only
  generalize hbi : tab.bucket logDist n.id = bi
  rcases hb : tab.bumpInBucket isLAN bi n with ⟨_ | _, t⟩
  case true =>
    have hwf := h.bumpInBucket isLAN bi n
    rw [hb] at hwf
    exact hwf
  obtain ⟨hs, hcase⟩ := bumpInBucket_false hb
  have ht := h.of_sameNodes hs
  dsimp only
  rcases hcase with hnew | hrefused
  · -- `n` is no entry: it joins in front, or the replacements if the bucket is full
    rw [← hs.entries_eq] at hnew
    by_cases hfull : bucketSize ≤ (t.buckets bi).entries.length
    · rw [if_pos hfull]
      exact ht.addReplacement (by rw [hs.self_eq]; exact hself) (by rw [hs.bucket]; exact hbi) hnew
    rw [if_neg hfull]
    refine ht.addIP_match fun t' hs' => (ht.of_sameNodes hs').modify ?_
    have hroom : (t'.buckets bi).entries.length < bucketSize := by
      rw [hs'.entries_eq]
      exact Nat.lt_of_not_le hfull
    rw [pushNode_of_lt hroom]
    refine (ht.of_sameNodes hs' bi).join ?_ ?_ ?_ hroom (List.Perm.refl _) _
    · rw [hs'.self_eq, hs.self_eq]; exact hself
    · rw [hs'.self_eq, hs.self_eq]; exact hbi
    · rw [hs'.entries_eq]; exact hnew
  · -- `n` is an entry whose new address did not fit: it does not fit here either
    rw [addReplacement_of_addIP_false hrefused, addIP_eq_false hrefused]
    split_ifs
    · exact ht
    · exact ht

theorem WellFormed.deleteInBucket (h : WellFormed logDist tab) (bi : Fin nBuckets) (n : Node ID) :
    WellFormed logDist (tab.deleteInBucket isLAN bi n) :=
  (h.modify ((h bi).sublist (deleteNode_sublist _ n))).of_sameNodes sameNodes_removeIP

theorem WellFormed.replace (h : WellFormed logDist tab) (bi : Fin nBuckets) (last : Node ID)
    (k : ℕ) : WellFormed logDist (tab.replace isLAN bi last k).1 := by
  unfold Table.replace
  cases hl : (tab.buckets bi).entries.getLast? with
  | none => exact h
  | some e =>
    dsimp only
    by_cases he : e.id ≠ last.id
    · rw [if_pos he]
      exact h
    rw [if_neg he]
    have hne : (tab.buckets bi).entries ≠ [] := fun h₀ => by
      rw [h₀] at hl
      cases hl
    cases hr : (tab.buckets bi).replacements with
    | nil => exact h.deleteInBucket bi last
    | cons r₀ rs =>
      -- the chosen replacement takes the place of the last entry
      refine (h.modify ((h bi).replaceLast hne ?_)).of_sameNodes sameNodes_removeIP
      rw [hr]
      exact List.get_mem _ _

/-- One operation keeps the table well formed. -/
theorem WellFormed.step (h : WellFormed logDist tab) (op : Op ID) :
    WellFormed logDist (step logDist isLAN tab op) := by
  cases op with
  | addSeenNode n => exact h.addSeenNode n
  | addVerifiedNode n => exact h.addVerifiedNode n
  | delete n => exact h.deleteInBucket _ n
  | initDone => exact h
  | pong n => exact h.bumpInBucket isLAN _ n
  | noPong n k => exact h.replace _ n k

/-- Every run keeps the table well formed. -/
theorem WellFormed.run (h : WellFormed logDist tab) (ops : List (Op ID)) :
    WellFormed logDist (run logDist isLAN tab ops) := by
  induction ops generalizing tab with
  | nil => exact h
  | cons op ops ih => exact ih (h.step op)

end Preservation

omit [DecidableEq ID] in
theorem wellFormed_newTable (self : ID) : WellFormed logDist (newTable self) := fun _ =>
  ⟨Nat.zero_le _, Nat.zero_le _, List.nodup_nil, fun _ hm => absurd hm List.not_mem_nil⟩

/-- From the empty table, over every run of operations, each bucket keeps at most `bucketSize`
entries and `maxReplacements` replacements, no ID twice among its entries and replacements
together, never the local ID, and only nodes of its own log distance. -/
theorem run_wellFormed (isLAN : IP → Bool) (self : ID) (ops : List (Op ID)) :
    WellFormed logDist (run logDist isLAN (newTable self) ops) :=
  (wellFormed_newTable self).run ops

end Classzz.Discover
