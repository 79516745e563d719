import Classzz.Trie.MapSemantics

/-!
# The canonical form of a trie

The source keeps its trie in the form its comments describe: no short node has an empty key, a
short child or nothing below it, and every full node has two children or more (`Canonical`).
`insert` builds only such nodes (`insert_canonical`), and `delete` restores the form on its way
up, merging a short child into its parent and reducing a full node left with one child
(`delete_canonical`).

A canonical trie is determined by the keys it answers (`eq_of_tryGet_eq`): a full node's
children by induction, and a short node's key as the longest prefix of its keys
(`eq_of_prefix_keys`), since below it either one key ends or two keys part at their first nibble.
-/

namespace Classzz.Trie

open Sentinel

namespace Node

/-- Two of the children are not `nil`. -/
def TwoChildren (children : Nibble → Node) : Prop :=
  ∃ i j, i ≠ j ∧ children i ≠ nil ∧ children j ≠ nil

/-- Whether a node is a short node. -/
def isShort : Node → Bool
  | .short _ _ => true
  | _ => false

/-- The representation invariant: no short node has an empty key, a short child or an empty
subtrie below it, and every full node has two children or more. -/
def Canonical : Node → Prop
  | .nil => True
  | .value _ => True
  | .short k val => k ≠ [] ∧ val ≠ nil ∧ val.isShort = false ∧ Canonical val
  | .full children => TwoChildren children ∧ ∀ i, Canonical (children i)

section Keys

variable {term : Prop}

/-- A canonical node other than `nil` answers some key. -/
theorem exists_tryGet_ne_none {n : Node} (hn : WF term n) (hc : Canonical n) (hne : n ≠ nil) :
    ∃ r, After 16 term r ∧ n.tryGet r ≠ none := by
  induction n generalizing term with
  | nil => exact absurd rfl hne
  | value v => exact ⟨[], ⟨fun _ => rfl, fun ht => absurd hn ht⟩, by simp⟩
  | short k val ih =>
    obtain ⟨ht, hs, hval⟩ := hn
    obtain ⟨-, hvne, -, hcv⟩ := hc
    obtain ⟨r, hr, hget⟩ := ih hval hcv hvne
    exact ⟨k ++ r, after_append hs ht hr, by rwa [tryGet_short_append]⟩
  | full children ih =>
    obtain ⟨ht, hcs⟩ := hn
    obtain ⟨⟨i, -, -, hi, -⟩, hcc⟩ := hc
    obtain ⟨r, hr, hget⟩ := ih i (hcs i) (hcc i) hi
    exact ⟨i :: r, after_append (k := [i]) (segment_singleton i) ht hr, by rwa [tryGet_full_cons]⟩

/-- A canonical node that answers no key is `nil`. -/
theorem eq_nil_of_tryGet_eq_none {n : Node} (hn : WF term n) (hc : Canonical n)
    (h : ∀ r, After 16 term r → n.tryGet r = none) : n = nil := by
  by_contra hne
  obtain ⟨r, hr, hget⟩ := exists_tryGet_ne_none hn hc hne
  exact hget (h r hr)

theorem prefix_of_tryGet_short_ne_none {k r : List Nibble} {val : Node}
    (h : (short k val).tryGet r ≠ none) : k <+: r := by
  by_contra hp
  exact h (tryGet_short_eq_none hp)

/-- Below a canonical full node two keys start with different nibbles. -/
theorem exists_two_keys {children : Nibble → Node} (hn : WF term (full children))
    (hc : Canonical (full children)) :
    ∃ i j ri rj, i ≠ j ∧ After 16 term (i :: ri) ∧ After 16 term (j :: rj) ∧
      (children i).tryGet ri ≠ none ∧ (children j).tryGet rj ≠ none := by
  obtain ⟨ht, hcs⟩ := hn
  obtain ⟨⟨i, j, hij, hi, hj⟩, hcc⟩ := hc
  obtain ⟨ri, hri, hgi⟩ := exists_tryGet_ne_none (hcs i) (hcc i) hi
  obtain ⟨rj, hrj, hgj⟩ := exists_tryGet_ne_none (hcs j) (hcc j) hj
  exact ⟨i, j, ri, rj, hij, after_append (k := [i]) (segment_singleton i) ht hri,
    after_append (k := [j]) (segment_singleton j) ht hrj, hgi, hgj⟩

/-- The key of a canonical short node is the longest prefix its keys share. -/
theorem eq_of_prefix_keys {k q : List Nibble} {val : Node} (hn : WF term (short k val))
    (hc : Canonical (short k val))
    (hq : ∀ r, After 16 term r → (short k val).tryGet r ≠ none → q <+: r) (hkq : k <+: q) :
    q = k := by
  obtain ⟨e, rfl⟩ := hkq
  rcases e with _ | ⟨c, e⟩
  · exact List.append_nil k
  exfalso
  obtain ⟨ht, hs, hval⟩ := hn
  obtain ⟨-, hvne, hvs, hcv⟩ := hc
  cases val with
  | nil => exact hvne rfl
  | short _ _ => simp [isShort] at hvs
  | value v =>
    -- the one key is `k` itself, which the longer `q` does not prefix
    have hr : After 16 term (k ++ []) := after_append hs ht ⟨fun _ => rfl, fun h => absurd hval h⟩
    have hget : (short k (value v)).tryGet (k ++ []) ≠ none := by
      rw [tryGet_short_append]
      simp
    have := (hq _ hr hget).length_le
    simp only [List.length_append, List.length_cons, List.length_nil] at this
    omega
  | full children =>
    -- two keys below `k` part at their first nibble, which `q` fixes
    obtain ⟨i, j, ri, rj, hij, hri, hrj, hgi, hgj⟩ := exists_two_keys hval hcv
    have hi := hq (k ++ i :: ri) (after_append hs ht hri) (by simpa using hgi)
    have hj := hq (k ++ j :: rj) (after_append hs ht hrj) (by simpa using hgj)
    rw [List.prefix_append_right_inj, List.cons_prefix_cons] at hi hj
    exact hij (hi.1.symm.trans hj.1)

/-- A canonical short node and a canonical full node never answer alike. -/
theorem short_ne_full {k : List Nibble} {val : Node} {children : Nibble → Node} (hk : k ≠ [])
    (hn : WF term (full children)) (hc : Canonical (full children))
    (h : ∀ r, After 16 term r → (short k val).tryGet r = (full children).tryGet r) : False := by
  obtain ⟨c, k, rfl⟩ := List.exists_cons_of_ne_nil hk
  obtain ⟨i, j, ri, rj, hij, hri, hrj, hgi, hgj⟩ := exists_two_keys hn hc
  have hgi' : (short (c :: k) val).tryGet (i :: ri) ≠ none := by rwa [h _ hri, tryGet_full_cons]
  have hgj' : (short (c :: k) val).tryGet (j :: rj) ≠ none := by rwa [h _ hrj, tryGet_full_cons]
  have hi := prefix_of_tryGet_short_ne_none hgi'
  have hj := prefix_of_tryGet_short_ne_none hgj'
  rw [List.cons_prefix_cons] at hi hj
  exact hij (hi.1.symm.trans hj.1)

/-- Two canonical nodes that answer every key alike are the same node. -/
theorem eq_of_tryGet_eq {n₁ n₂ : Node} (h₁ : WF term n₁) (h₂ : WF term n₂) (c₁ : Canonical n₁)
    (c₂ : Canonical n₂) (h : ∀ r, After 16 term r → n₁.tryGet r = n₂.tryGet r) : n₁ = n₂ := by
  induction n₁ generalizing term n₂ with
  | nil => exact (eq_nil_of_tryGet_eq_none h₂ c₂ fun r hr => (h r hr).symm).symm
  | value v =>
    cases n₂ with
    | nil => exact absurd (eq_nil_of_tryGet_eq_none h₁ c₁ fun r hr => h r hr) (by simp)
    | value w => simpa using h [] ⟨fun _ => rfl, fun ht => absurd h₁ ht⟩
    | short _ _ => exact absurd h₁ h₂.1
    | full _ => exact absurd h₁ h₂.1
  | short k val ih =>
    cases n₂ with
    | nil => exact absurd (eq_nil_of_tryGet_eq_none h₁ c₁ fun r hr => h r hr) (by simp)
    | value w => exact absurd h₂ h₁.1
    | short k' val' =>
      -- the two keys prefix a common key, and each is the longest prefix of all keys
      have hk : k = k' := by
        obtain ⟨r, hr, hget⟩ := exists_tryGet_ne_none h₁ c₁ (by simp)
        have hk' := prefix_of_tryGet_short_ne_none (by rwa [← h r hr])
        rcases List.prefix_or_prefix_of_prefix (prefix_of_tryGet_short_ne_none hget) hk' with hp | hp
        · refine (eq_of_prefix_keys h₁ c₁ (fun r hr hget => ?_) hp).symm
          exact prefix_of_tryGet_short_ne_none (by rwa [← h r hr])
        · refine eq_of_prefix_keys h₂ c₂ (fun r hr hget => ?_) hp
          exact prefix_of_tryGet_short_ne_none (by rwa [h r hr])
      subst hk
      obtain ⟨ht, hs, hval⟩ := h₁
      rw [ih hval h₂.2.2 c₁.2.2.2 c₂.2.2.2 fun r hr => by
        simpa using h (k ++ r) (after_append hs ht hr)]
    | full children => exact (short_ne_full c₁.1 h₂ c₂ h).elim
  | full children ih =>
    cases n₂ with
    | nil => exact absurd (eq_nil_of_tryGet_eq_none h₁ c₁ fun r hr => h r hr) (by simp)
    | value w => exact absurd h₂ h₁.1
    | short k val => exact (short_ne_full c₂.1 h₁ c₁ fun r hr => (h r hr).symm).elim
    | full children' =>
      obtain ⟨ht, hcs⟩ := h₁
      congr 1
      funext i
      exact ih i (hcs i) (h₂.2 i) (c₁.2 i) (c₂.2 i) fun r hr => by
        simpa using h (i :: r) (after_append (k := [i]) (segment_singleton i) ht hr)

end Keys

section Nodes

variable {children : Nibble → Node} {x : Node}

theorem TwoChildren.update (h : TwoChildren children) (i : Nibble) (hx : x ≠ nil) :
    TwoChildren (Function.update children i x) := by
  obtain ⟨a, b, hab, ha, hb⟩ := h
  have hkeep : ∀ j, children j ≠ nil → Function.update children i x j ≠ nil := by
    intro j hj
    by_cases hji : j = i
    · subst hji
      rwa [Function.update_self]
    · rwa [Function.update_of_ne hji]
  exact ⟨a, b, hab, hkeep a ha, hkeep b hb⟩

/-- Of two children, one is left when a third slot, or one of them, is emptied. -/
theorem TwoChildren.exists_update_nil (h : TwoChildren children) (i : Nibble) :
    ∃ j, Function.update children i nil j ≠ nil := by
  obtain ⟨a, b, hab, ha, hb⟩ := h
  by_cases hai : a = i
  · subst hai
    exact ⟨b, by rwa [Function.update_of_ne (Ne.symm hab)]⟩
  · exact ⟨a, by rwa [Function.update_of_ne hai]⟩

theorem canonical_update (hcs : ∀ j, Canonical (children j)) {i : Nibble} (hx : Canonical x) :
    ∀ j, Canonical (Function.update children i x j) := by
  intro j
  by_cases hj : j = i
  · subst hj
    rwa [Function.update_self]
  · rw [Function.update_of_ne hj]
    exact hcs j

theorem canonical_insertNil {q : List Nibble} (hx : Canonical x) (hne : x ≠ nil)
    (hs : x.isShort = false) : Canonical (insertNil q x).2 ∧ (insertNil q x).2 ≠ nil := by
  rcases q with _ | ⟨e, q⟩
  · exact ⟨hx, hne⟩
  · exact ⟨⟨List.cons_ne_nil e q, hne, hs, hx⟩, by simp [insertNil]⟩

theorem canonical_mergeShort {k : List Nibble} (hk : k ≠ []) (hx : Canonical x) (hne : x ≠ nil) :
    Canonical (mergeShort k x) := by
  cases x with
  | nil => exact absurd rfl hne
  | short ck cv =>
    obtain ⟨-, hcvne, hcvs, hcv⟩ := hx
    exact ⟨by simp [concat, hk], hcvne, hcvs, hcv⟩
  | _ => exact ⟨hk, hne, rfl, hx⟩

theorem canonical_reduceShort {p : Nibble} (hwf : WF (16 ∈ [p]) x) (hx : Canonical x)
    (hne : x ≠ nil) : Canonical (reduceShort p x) := by
  unfold reduceShort
  split_ifs with hp
  · cases x with
    | nil => exact absurd rfl hne
    | short ck cv =>
      obtain ⟨-, hcvne, hcvs, hcv⟩ := hx
      exact ⟨List.cons_ne_nil p ck, hcvne, hcvs, hcv⟩
    | _ => exact ⟨List.cons_ne_nil p [], hne, rfl, hx⟩
  · -- the terminator's slot holds no short node
    cases x with
    | nil => exact absurd rfl hne
    | short ck cv => exact absurd (by simp [not_not.mp hp]) hwf.1
    | _ => exact ⟨List.cons_ne_nil p [], hne, rfl, hx⟩

theorem foldl_childPosStep_of_all_nil {l : List Nibble} (h : ∀ i ∈ l, children i = nil)
    (pos : ℤ) : l.foldl (childPosStep children) pos = pos := by
  induction l with
  | nil => rfl
  | cons i l ih =>
    rw [List.foldl_cons, childPosStep_of_nil (h i List.mem_cons_self)]
    exact ih fun j hj => h j (List.mem_cons_of_mem i hj)

/-- From `-1`, a loop over distinct slots that ends below zero saw two children, or none. -/
theorem foldl_childPosStep_neg {l : List Nibble} (hl : l.Nodup)
    (h : l.foldl (childPosStep children) (-1) < 0) {j : Nibble} (hj : j ∈ l)
    (hjn : children j ≠ nil) :
    ∃ a ∈ l, ∃ b ∈ l, a ≠ b ∧ children a ≠ nil ∧ children b ≠ nil := by
  induction l with
  | nil => simp at hj
  | cons i l ih =>
    obtain ⟨hil, hl⟩ := List.nodup_cons.mp hl
    rw [List.foldl_cons] at h
    by_cases hi : children i = nil
    · rw [childPosStep_of_nil hi] at h
      have hjl : j ∈ l := (List.mem_cons.mp hj).resolve_left fun hji => hjn (hji ▸ hi)
      obtain ⟨a, ha, b, hb, hab, hna, hnb⟩ := ih hl h hjl
      exact ⟨a, List.mem_cons_of_mem i ha, b, List.mem_cons_of_mem i hb, hab, hna, hnb⟩
    · -- the loop found `i`, and ends below zero only on another child after it
      rw [childPosStep_of_ne_nil hi, if_pos rfl] at h
      have hother : ∃ b ∈ l, children b ≠ nil := by
        by_contra hnone
        simp only [not_exists, not_and, not_not] at hnone
        rw [foldl_childPosStep_of_all_nil hnone] at h
        omega
      obtain ⟨b, hb, hnb⟩ := hother
      exact ⟨i, List.mem_cons_self, b, List.mem_cons_of_mem i hb,
        fun hib => hil (hib ▸ hb), hi, hnb⟩

/-- `childPos` below zero with a child left: two children are left. -/
theorem childPos_neg (h : childPos children < 0) {j : Nibble} (hj : children j ≠ nil) :
    TwoChildren children := by
  obtain ⟨a, -, b, -, hab, ha, hb⟩ :=
    foldl_childPosStep_neg (List.nodup_finRange 17) h (List.mem_finRange j) hj
  exact ⟨a, b, hab, ha, hb⟩

theorem canonical_reduceFull (hwf : ∀ i, WF (16 ∈ [i]) (children i))
    (hc : ∀ i, Canonical (children i)) (hone : ∃ j, children j ≠ nil) :
    Canonical (reduceFull children) := by
  obtain ⟨j, hj⟩ := hone
  simp only [reduceFull]
  split_ifs with hpos
  · obtain ⟨p, hp, hnil⟩ := childPos_spec hpos
    have hfin : Fin.ofNat 17 (childPos children).toNat = p := by simp [hp]
    -- the child left is the one at `p`
    have hpne : children p ≠ nil := by
      by_cases hjp : j = p
      · exact hjp ▸ hj
      · exact absurd (hnil j hjp) hj
    rw [hfin]
    exact canonical_reduceShort (hwf p) (hc p) hpne
  · exact ⟨childPos_neg (not_le.mp hpos) hj, hc⟩

theorem reduceFull_ne_nil : reduceFull children ≠ nil := by
  simp only [reduceFull]
  split_ifs
  · unfold reduceShort
    split_ifs
    · split <;> simp
    · simp
  · simp

end Nodes

section Insert

variable {term : Prop} {v : List UInt8}

theorem insert_ne_nil (n : Node) (key : List Nibble) : (n.insert key (.value v)).2 ≠ nil := by
  fun_cases insert n key (.value v) <;> simp

theorem canonical_splitBranch {c d : Nibble} (hcd : c ≠ d) {kRest keyRest : List Nibble}
    {val : Node} (hc : Canonical val) (hne : val ≠ nil) (hs : val.isShort = false) :
    Canonical (full (splitBranch d kRest val c keyRest (.value v))) := by
  obtain ⟨hcv, hcne⟩ := canonical_insertNil (q := keyRest) (x := .value v) trivial (by simp) rfl
  obtain ⟨hdv, hdne⟩ := canonical_insertNil (q := kRest) hc hne hs
  refine ⟨⟨c, d, hcd, ?_, ?_⟩, fun i => ?_⟩
  · rwa [splitBranch, Function.update_self]
  · rwa [splitBranch, Function.update_of_ne (Ne.symm hcd), Function.update_self]
  · by_cases hic : i = c
    · subst hic
      rwa [splitBranch, Function.update_self]
    · rw [splitBranch, Function.update_of_ne hic]
      by_cases hid : i = d
      · subst hid
        rwa [Function.update_self]
      · rw [Function.update_of_ne hid]
        trivial

/-- `insert` keeps a well-formed node canonical. -/
theorem insert_canonical {n : Node} (hn : WF term n) (hc : Canonical n) {key : List Nibble}
    (hkey : After 16 term key) : Canonical (n.insert key (.value v)).2 := by
  induction n generalizing term key with
  | nil =>
    rw [insert_nil]
    exact (canonical_insertNil (x := .value v) trivial (by simp) rfl).1
  | value w =>
    rcases key with _ | ⟨c, key⟩
    · rw [insert_nil_key]
      trivial
    · exact absurd (hkey.1 hn) (List.cons_ne_nil c key)
  | short k val ih =>
    rcases key with _ | ⟨c, key⟩
    · rw [insert_nil_key]
      trivial
    obtain ⟨ht, hs, hval⟩ := hn
    obtain ⟨hk, hvne, hvs, hcv⟩ := hc
    have hterm : Terminated 16 (c :: key) := hkey.2 ht
    obtain ⟨p, a, b, hka, rfl, hm, hd⟩ := prefixLen_split (c :: key) k
    rcases b with _ | ⟨d, kRest⟩
    · -- below the whole short key: the value again, or a full node
      simp only [List.append_nil] at hm hs hval hk ⊢
      rw [insert_short_of_prefixLen_eq (List.cons_ne_nil c key) hm, hka, List.drop_left]
      rw [hka] at hterm
      have ha := after_of_terminated_append hterm
      refine ⟨hk, insert_ne_nil _ _, ?_, ih hval hcv ha⟩
      cases val with
      | nil => exact absurd rfl hvne
      | short _ _ => simp [isShort] at hvs
      | value w =>
        rw [ha.1 hval, insert_nil_key]
        rfl
      | full children =>
        have hne : a ≠ [] := by
          rintro rfl
          exact not_terminated_nil (ha.2 hval.1)
        obtain ⟨e, a', rfl⟩ := List.exists_cons_of_ne_nil hne
        rw [insert_full_cons]
        rfl
    rcases a with _ | ⟨c', keyRest⟩
    · rw [List.append_nil] at hka
      rw [hka] at hterm
      exact absurd hs (hterm.not_segment_append (List.cons_ne_nil d kRest))
    · rw [hka, insert_short_branch (hd c' d rfl rfl)]
      have hbr : Canonical (full (splitBranch d kRest val c' keyRest (.value v))) :=
        canonical_splitBranch (hd c' d rfl rfl) hcv hvne hvs
      split_ifs with hp
      · exact hbr
      · exact ⟨hp, by simp, rfl, hbr⟩
  | full children ih =>
    rcases key with _ | ⟨c, key⟩
    · rw [insert_nil_key]
      trivial
    obtain ⟨ht, hcs⟩ := hn
    obtain ⟨htwo, hcc⟩ := hc
    rw [insert_full_cons]
    have hc' := ih c (hcs c) (hcc c) (after_of_terminated_append (k := [c]) (hkey.2 ht))
    exact ⟨htwo.update c (insert_ne_nil _ _), canonical_update hcc hc'⟩

end Insert

section Delete

variable {term : Prop}

/-- Deleting below a full node leaves a full node or a short node. -/
theorem delete_full_ne_nil (children : Nibble → Node) (key : List Nibble) :
    ((full children).delete key).2 ≠ nil := by
  rcases key with _ | ⟨i, rest⟩
  · simp [delete]
  · simp only [delete]
    rcases (children i).delete rest with ⟨_ | _, nn⟩
    · simp
    · cases nn with
      | nil => exact reduceFull_ne_nil
      | _ => simp

/-- `delete` keeps a well-formed node canonical. -/
theorem delete_canonical {n : Node} (hn : WF term n) (hc : Canonical n) {key : List Nibble}
    (hkey : After 16 term key) : Canonical (n.delete key).2 := by
  induction n generalizing term key with
  | nil => trivial
  | value w => trivial
  | short k val ih =>
    obtain ⟨ht, hs, hval⟩ := hn
    obtain ⟨hk, hvne, hvs, hcv⟩ := hc
    have hterm : Terminated 16 key := hkey.2 ht
    obtain ⟨p, a, b, rfl, rfl, hm, hd⟩ := prefixLen_split key k
    rcases b with _ | ⟨d, kRest⟩
    · simp only [List.append_nil] at hs hval hk hterm ⊢
      rcases a with _ | ⟨c, a⟩
      · rw [List.append_nil, delete_short_self]
        trivial
      · rw [delete_short_below (List.cons_ne_nil c a)]
        have ha := after_of_terminated_append hterm
        split_ifs
        · -- what is left below the short key is a full node's rest, never empty
          refine canonical_mergeShort hk (ih hval hcv ha) ?_
          cases val with
          | nil => exact absurd rfl hvne
          | short _ _ => simp [isShort] at hvs
          | value w => exact absurd (ha.1 hval) (List.cons_ne_nil c a)
          | full children => exact delete_full_ne_nil children (c :: a)
        · exact ⟨hk, hvne, hvs, hcv⟩
    · have hlt : prefixLen (p ++ a) (p ++ d :: kRest) < (p ++ d :: kRest).length := by
        simp [hm]
      rw [delete_short_of_lt hlt]
      exact ⟨hk, hvne, hvs, hcv⟩
  | full children ih =>
    obtain ⟨ht, hcs⟩ := hn
    obtain ⟨htwo, hcc⟩ := hc
    rcases key with _ | ⟨c, key⟩
    · exact absurd (hkey.2 ht) not_terminated_nil
    have hc' := after_of_terminated_append (k := [c]) (hkey.2 ht)
    have ih' := ih c (hcs c) (hcc c) hc'
    have hwf' := (delete_spec (hcs c) hc').1
    simp only [delete]
    rcases h : (children c).delete key with ⟨_ | _, nn⟩
    · exact ⟨htwo, hcc⟩
    · rw [h] at ih' hwf'
      cases nn with
      | nil =>
        exact canonical_reduceFull (wf_full_update ht hcs hwf').2 (canonical_update hcc ih')
          (htwo.exists_update_nil c)
      | _ => exact ⟨htwo.update c (by simp), canonical_update hcc ih'⟩

end Delete

end Node

section Stored

theorem tryUpdate_nil (t : Trie) (key : List UInt8) : t.tryUpdate key [] = t.tryDelete key := by
  simp [Trie.tryUpdate, Trie.tryDelete]

theorem tryUpdate_of_ne_nil (t : Trie) (key : List UInt8) {value : List UInt8} (hv : value ≠ []) :
    t.tryUpdate key value = ⟨(t.root.insert (keybytesToHex key) (.value value)).2⟩ := by
  simp [Trie.tryUpdate, hv]

/-- What the operations keep of a trie besides the map it holds: a canonical root that answers
nothing but the hex forms of keys. -/
structure Stored (t : Trie) (m : List UInt8 → Option (List UInt8)) : Prop extends Holds t m where
  canonical : t.root.Canonical
  hexKeys : ∀ r, After 16 False r → t.root.tryGet r ≠ none → ∃ key, r = keybytesToHex key

variable {t : Trie} {m : List UInt8 → Option (List UInt8)}

theorem stored_empty : Stored empty fun _ => none :=
  ⟨holds_empty, trivial, fun _ _ h => absurd rfl h⟩

theorem Stored.of_updates (h : Stored t m) {root : Node} (hwf : root.WF False)
    (hc : root.Canonical) {key : List UInt8} {o : Option (List UInt8)}
    (hup : Node.Updates False t.root root (keybytesToHex key) o) :
    Stored ⟨root⟩ (Function.update m key o) := by
  refine ⟨h.toHolds.of_updates hwf hup, hc, fun r hr hne => ?_⟩
  by_cases hrk : r = keybytesToHex key
  · exact ⟨key, hrk⟩
  · rw [hup r hr, if_neg hrk] at hne
    exact h.hexKeys r hr hne

theorem Stored.tryDelete (h : Stored t m) (key : List UInt8) :
    Stored (t.tryDelete key) (Function.update m key none) := by
  obtain ⟨hwf, hup⟩ := Node.delete_spec h.wf (after_keybytesToHex key)
  exact h.of_updates hwf (Node.delete_canonical h.wf h.canonical (after_keybytesToHex key)) hup

theorem Stored.tryUpdate (h : Stored t m) (key value : List UInt8) :
    Stored (t.tryUpdate key value)
      (Function.update m key (if value = [] then none else some value)) := by
  by_cases hv : value = []
  · subst hv
    rw [tryUpdate_nil, if_pos rfl]
    exact h.tryDelete key
  · rw [tryUpdate_of_ne_nil t key hv, if_neg hv]
    obtain ⟨hwf, hup⟩ := Node.insert_spec (v := value) h.wf (after_keybytesToHex key)
    exact h.of_updates hwf (Node.insert_canonical h.wf h.canonical (after_keybytesToHex key)) hup

theorem Stored.run (h : Stored t m) : ∀ op : Op, Stored (op.run t) (op.apply m)
  | .update key value => h.tryUpdate key value
  | .delete key => h.tryDelete key

/-- Every run of operations from the empty trie keeps the trie in canonical form, holding the
map the same operations make. -/
theorem stored_foldl_run (ops : List Op) :
    Stored (ops.foldl Op.run empty) (ops.foldl Op.apply fun _ => none) :=
  Run.foldl_simulation Stored (fun _ _ op h => h.run op) ops stored_empty

/-- Two tries in the form the operations keep that hold the same map have the same root. -/
theorem Stored.root_eq {t₁ t₂ : Trie} (h₁ : Stored t₁ m) (h₂ : Stored t₂ m) :
    t₁.root = t₂.root := by
  refine Node.eq_of_tryGet_eq h₁.wf h₂.wf h₁.canonical h₂.canonical fun r hr => ?_
  -- the hex form of a key is answered as the map says, anything else by neither root
  by_cases hk : ∃ key, r = keybytesToHex key
  · obtain ⟨key, rfl⟩ := hk
    exact (h₁.get key).trans (h₂.get key).symm
  · have hnone : ∀ {t : Trie}, Stored t m → t.root.tryGet r = none := fun h =>
      not_not.mp fun hne => hk (h.hexKeys r hr hne)
    rw [hnone h₁, hnone h₂]

end Stored

end Classzz.Trie
