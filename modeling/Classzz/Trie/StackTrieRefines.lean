import Classzz.Trie.StackTrie
import Classzz.Trie.Insert
import Classzz.Rlp.Typed
import Classzz.Lib.KeyOrder

/-!
# The stack trie refines the trie

Given keys that each part to the right of the one before (`KeyOrder.LeftOf`), the stack trie
builds the trie that `insert` builds from the same keys, with the part left of the last key
hashed away, and its root hash is the trie's root hash.

`Repr off st n last` says that the stack trie `st`, at key offset `off`, stands for the trie node
`n`, whose last key from `off` on is `last`: the nodes on the path of `last` are open and of the
same shape as in `n`, and every other child is a hashed node holding what the trie hasher makes
of the subtree (`HashesTo`). A hashed value encodes in its parent as the trie hasher's item does
(`HashesTo.childEnc`), so an open node hashes as the node it stands for (`Repr.hashesTo`). One
insert of a key to the right of `last` keeps the relation (`Repr.insert`): a leaf or an
extension splits where the key parts from it, as `insert` splits a short node, and a branch
hashes its last child when the key opens a new slot to its right. From the empty trie, every run
of such updates gives the root hash of the trie (`rootHash_foldlM_tryUpdate`).
-/

open KeyOrder

namespace Classzz.Trie

namespace StackTrie

variable (keccak256 : Bytes → Hash)

section Encoding

theorem encodeList_eq_flatten (items : List Rlp.Item) :
    Rlp.encodeList items = (items.map Rlp.encode).flatten := by
  induction items with
  | nil => rfl
  | cons i items ih => rw [Rlp.encodeList, List.map_cons, List.flatten_cons, ih]

/-- The encoder's list of items is `encodeItems` of their encodings. -/
theorem encodeItems_map_encode (items : List Rlp.Item) :
    encodeItems (items.map Rlp.encode) = Rlp.encode (.list items) := by
  rw [encodeItems, Rlp.encode, encodeList_eq_flatten]

end Encoding

section Hashes

/-- The value `v` is what the trie hasher makes of the node `n`: `n` collapses to the list `C`,
which it keeps whole below 32 bytes and hashes from 32 on, and `v` is the encoding of `C` or its
hash accordingly. -/
def HashesTo (n : Node) (v : Bytes) : Prop :=
  ∃ C, (∀ force, n.hash keccak256 false force = Node.nodeToHash keccak256 (.list C) force) ∧
    v = hashVal keccak256 (Rlp.encode (.list C))

/-- A child slot of an open branch: nil over a missing child, or a node whose value is what the
trie hasher makes of the child. -/
def SlotHashes (c : Option StackTrie) (n : Node) : Prop :=
  (c = none ∧ n = .nil) ∨ (n ≠ .nil ∧ ∃ s, c = some s ∧ HashesTo keccak256 n (hash keccak256 s))

variable {keccak256}

/-- A hashed child goes into its parent's encoding as the trie hasher's item for it. -/
theorem HashesTo.childEnc {n : Node} {v : Bytes} (h : HashesTo keccak256 n v) :
    childEnc v = Rlp.encode (n.hash keccak256 false false) := by
  obtain ⟨C, hC, rfl⟩ := h
  rw [hC false, Node.nodeToHash, hashVal]
  by_cases hlt : (Rlp.encode (.list C)).length < 32
  · rw [if_pos hlt, if_pos ⟨hlt, rfl⟩, StackTrie.childEnc, if_pos hlt]
  · -- from 32 bytes on both sides hold the hash, a string
    rw [if_neg hlt, if_neg (fun h => hlt h.1), StackTrie.childEnc, Hash.length_bytes, if_neg (by norm_num)]
    rfl

theorem hashesTo_leaf (o : ℕ) (k : List Nibble) (val : Bytes) :
    HashesTo keccak256 (.short (k ++ [16]) (.value val)) (hash keccak256 (.leaf o k val)) := by
  refine ⟨[.bytes (hexToCompact (k ++ [16])), .bytes val], fun force => rfl, ?_⟩
  rw [hash, ← encodeItems_map_encode]
  rfl

theorem hashesTo_ext {cs : Nibble → Node} {c : StackTrie}
    (hc : HashesTo keccak256 (.full cs) (hash keccak256 c)) (o : ℕ) (k : List Nibble) :
    HashesTo keccak256 (.short k (.full cs)) (hash keccak256 (.ext o k c)) := by
  refine ⟨[.bytes (hexToCompact k), (Node.full cs).hash keccak256 false false], fun force => rfl, ?_⟩
  rw [hash, hc.childEnc, ← encodeItems_map_encode]
  rfl

theorem hashesTo_branch {children : Fin 16 → Option StackTrie} {cs : Nibble → Node}
    (h : ∀ i : Fin 16, SlotHashes keccak256 (children i) (cs i.castSucc)) (h16 : cs 16 = .nil)
    (o : ℕ) : HashesTo keccak256 (.full cs) (hash keccak256 (.branch o children)) := by
  refine ⟨Node.hashFullNodeChildren false cs (fun i => (cs i).hash keccak256 false false)
    (fun i => (cs i).hash keccak256 false false), fun force => rfl, ?_⟩
  rw [hash, ← encodeItems_map_encode, Node.hashFullNodeChildren, List.finRange_succ_last (n := 16),
    List.map_append, List.map_append, List.map_map, List.map_map]
  congr 3
  · -- the sixteen child slots, one by one
    refine List.map_congr_left fun i _ => ?_
    simp only [Function.comp_apply, Fin.val_castSucc, i.isLt, if_true, Bool.false_eq_true]
    rcases h i with ⟨hc, hn⟩ | ⟨hne, c, hc, hs⟩
    · rw [hc, hn]
      rfl
    · rw [hc, hashSlot, hs.childEnc]
      -- a child that is not nil is hashed by the hasher itself
      split
      · next heq => exact absurd heq hne
      · rfl
  · -- the value slot is empty: no key ends at a branch
    simp [h16, Node.encodeSlot]

end Hashes

section Repr

/-- A child slot left of the last key: nil over a missing child, or hashed to what the trie
hasher makes of the child. -/
def Done (c : Option StackTrie) (n : Node) : Prop :=
  (c = none ∧ n = .nil) ∨ (n ≠ .nil ∧ ∃ v, c = some (.hashed v) ∧ HashesTo keccak256 n v)

/-- The stack trie `st`, at key offset `off`, stands for the trie node `n`, whose last key from
`off` on is `last`: open along `last`, hashed to the left of it, empty to the right. -/
inductive Repr : ℕ → StackTrie → Node → List Nibble → Prop
  | leaf {off : ℕ} {k : List Nibble} {val : Bytes} (hk : ∀ c ∈ k, c.val < 16) :
      Repr off (.leaf off k val) (.short (k ++ [16]) (.value val)) k
  | ext {off : ℕ} {k last : List Nibble} {child : StackTrie} {cs : Nibble → Node}
      (hk : k ≠ []) (hk16 : ∀ c ∈ k, c.val < 16) (hc : Repr (off + k.length) child (.full cs) last) :
      Repr off (.ext off k child) (.short k (.full cs)) (k ++ last)
  | branch {off : ℕ} {children : Fin 16 → Option StackTrie} {cs : Nibble → Node} {i : Fin 16}
      {c : StackTrie} {last : List Nibble}
      (hleft : ∀ j < i, Done keccak256 (children j) (cs j.castSucc))
      (hi : children i = some c) (hc : Repr (off + 1) c (cs i.castSucc) last)
      (hright : ∀ j, i < j → children j = none ∧ cs j.castSucc = .nil) (h16 : cs 16 = .nil) :
      Repr off (.branch off children) (.full cs) (i.castSucc :: last)

variable {keccak256}

theorem Repr.ne_nil {off : ℕ} {st : StackTrie} {n : Node} {last : List Nibble}
    (h : Repr keccak256 off st n last) : n ≠ .nil := by
  cases h <;> simp

theorem Repr.not_hashed {off : ℕ} {st : StackTrie} {n : Node} {last : List Nibble}
    (h : Repr keccak256 off st n last) (v : Bytes) : st ≠ .hashed v := by
  cases h <;> simp

/-- An open node hashes as the trie hasher hashes the node it stands for. -/
theorem Repr.hashesTo {off : ℕ} {st : StackTrie} {n : Node} {last : List Nibble}
    (h : Repr keccak256 off st n last) : HashesTo keccak256 n (hash keccak256 st) := by
  induction h with
  | leaf => exact hashesTo_leaf _ _ _
  | ext _ _ _ ih => exact hashesTo_ext ih _ _
  | @branch off children cs i c last hleft hi hc hright h16 ih =>
    refine hashesTo_branch (fun j => ?_) h16 off
    -- each slot by its side of the open child
    rcases lt_trichotomy j i with hj | rfl | hj
    · rcases hleft j hj with ⟨hcj, hnj⟩ | ⟨hne, v, hcj, hv⟩
      · exact .inl ⟨hcj, hnj⟩
      · exact .inr ⟨hne, .hashed v, hcj, hv⟩
    · exact .inr ⟨hc.ne_nil, c, hi, ih⟩
    · exact .inl (hright j hj)

theorem castSucc_ne_sixteen (j : Fin 16) : j.castSucc ≠ (16 : Nibble) := by
  simp [Fin.ext_iff]
  omega

/-- The node a split leaves, below an extension of the common prefix `p` unless it is empty:
a branch with the original part hashed at `a` and the new leaf open at `b`. -/
theorem repr_splitAt {off : ℕ} {p s t : List Nibble} {a b : Fin 16} (hab : a < b)
    (hp : ∀ c ∈ p, c.val < 16) (ht : ∀ c ∈ t, c.val < 16) {orig : Node} (hne : orig ≠ .nil)
    {v : Bytes} (hv : HashesTo keccak256 orig v) (value : Bytes) :
    let cs := Function.update (Function.update (fun _ => .nil) a.castSucc orig) b.castSucc
      (.short (t ++ [16]) (.value value))
    Repr keccak256 off (splitAt off p.length (p ++ a.castSucc :: s) a b (.hashed v)
        (.leaf (off + p.length + 1) t value))
      (if p = [] then .full cs else .short p (.full cs)) (p ++ b.castSucc :: t) := by
  intro cs
  have hba : b ≠ a := hab.ne'
  have hbranch : Repr keccak256 (off + p.length)
      (.branch (off + p.length) (Function.update (Function.update (fun _ => none) a
        (some (.hashed v))) b (some (.leaf (off + p.length + 1) t value)))) (.full cs)
      (b.castSucc :: t) := by
    refine Repr.branch (fun j hj => ?_) (Function.update_self _ _ _) ?_ (fun j hj => ?_) ?_
    · -- left of `b`: the hashed original at `a`, nothing elsewhere
      have hjb : j.castSucc ≠ b.castSucc := (Fin.castSucc_injective 16).ne hj.ne
      by_cases hja : j = a
      · subst hja
        have hca : cs j.castSucc = orig := by
          simp only [cs]
          rw [Function.update_of_ne hjb, Function.update_self]
        exact .inr ⟨hca ▸ hne, v, by rw [Function.update_of_ne hj.ne, Function.update_self],
          hca ▸ hv⟩
      · refine .inl ⟨by rw [Function.update_of_ne hj.ne, Function.update_of_ne hja], ?_⟩
        simp only [cs]
        rw [Function.update_of_ne hjb, Function.update_of_ne ((Fin.castSucc_injective 16).ne hja)]
    · simpa [cs] using Repr.leaf ht
    · -- right of `b`: nothing
      have hja : j ≠ a := (hab.trans hj).ne'
      refine ⟨by rw [Function.update_of_ne hj.ne', Function.update_of_ne hja], ?_⟩
      simp only [cs]
      rw [Function.update_of_ne ((Fin.castSucc_injective 16).ne hj.ne'),
        Function.update_of_ne ((Fin.castSucc_injective 16).ne hja)]
    · simp [cs, Function.update_of_ne (castSucc_ne_sixteen a).symm,
        Function.update_of_ne (castSucc_ne_sixteen b).symm]
  by_cases hp0 : p = []
  · subst hp0
    simpa [splitAt] using hbranch
  · have hlen : p.length ≠ 0 := by simpa using hp0
    simp only [splitAt, if_neg hlen, if_neg hp0, List.take_left']
    exact Repr.ext hp0 hp hbranch


theorem castSucc_of_lt {x : Nibble} (h : x.val < 16) : ∃ a : Fin 16, x = a.castSucc :=
  ⟨⟨x.val, h⟩, rfl⟩

/-- Two keys below the terminator part at two child slots. -/
theorem LeftOf.slots {k key : List Nibble} (h : LeftOf k key) (hk : ∀ c ∈ k, c.val < 16)
    (hkey : ∀ c ∈ key, c.val < 16) :
    ∃ p s t, ∃ a b : Fin 16, k = p ++ a.castSucc :: s ∧ key = p ++ b.castSucc :: t ∧ a < b := by
  obtain ⟨p, x, y, s, t, rfl, rfl, hxy⟩ := h
  obtain ⟨a, rfl⟩ := castSucc_of_lt (hk x (by simp))
  obtain ⟨b, rfl⟩ := castSucc_of_lt (hkey y (by simp))
  exact ⟨p, s, t, a, b, rfl, rfl, Fin.castSucc_lt_castSucc_iff.mp hxy⟩

/-- The open child of a branch replaced by another node for another trie node. -/
theorem repr_branch_update {off : ℕ} {children : Fin 16 → Option StackTrie} {cs : Nibble → Node}
    {i : Fin 16} (hleft : ∀ j < i, Done keccak256 (children j) (cs j.castSucc))
    (hright : ∀ j, i < j → children j = none ∧ cs j.castSucc = .nil) (h16 : cs 16 = .nil)
    {c : StackTrie} {n : Node} {last : List Nibble} (hc : Repr keccak256 (off + 1) c n last) :
    Repr keccak256 off (.branch off (Function.update children i (some c)))
      (.full (Function.update cs i.castSucc n)) (i.castSucc :: last) := by
  refine Repr.branch (fun j hj => ?_) (Function.update_self _ _ _) (by rwa [Function.update_self])
    (fun j hj => ?_) (by rwa [Function.update_of_ne (castSucc_ne_sixteen i).symm])
  · rw [Function.update_of_ne hj.ne, Function.update_of_ne ((Fin.castSucc_injective 16).ne hj.ne)]
    exact hleft j hj
  · rw [Function.update_of_ne hj.ne', Function.update_of_ne ((Fin.castSucc_injective 16).ne hj.ne')]
    exact hright j hj

/-- A key that opens the slot `b` right of the open child `i`: the child at `i` is hashed, and
the new leaf is the open child. -/
theorem repr_branch_open {off : ℕ} {children : Fin 16 → Option StackTrie} {cs : Nibble → Node}
    {i b : Fin 16} (hib : i < b) {c : StackTrie} {last : List Nibble}
    (hleft : ∀ j < i, Done keccak256 (children j) (cs j.castSucc)) (hi : children i = some c)
    (hc : Repr keccak256 (off + 1) c (cs i.castSucc) last)
    (hright : ∀ j, i < j → children j = none ∧ cs j.castSucc = .nil) (h16 : cs 16 = .nil)
    {t : List Nibble} (ht : ∀ c ∈ t, c.val < 16) (value : Bytes) :
    Repr keccak256 off
      (.branch off (Function.update (Function.update children i (some (.hashed (hash keccak256 c))))
        b (some (.leaf (off + 1) t value))))
      (.full (Function.update cs b.castSucc (.short (t ++ [16]) (.value value)))) (b.castSucc :: t) := by
  have hupd : ∀ j, j < b → cs j.castSucc = Function.update cs b.castSucc
      (.short (t ++ [16]) (.value value)) j.castSucc := fun j hj =>
    (Function.update_of_ne ((Fin.castSucc_injective 16).ne hj.ne) _ _).symm
  refine Repr.branch (fun j hj => ?_) (Function.update_self _ _ _)
    (by simpa using Repr.leaf ht) (fun j hj => ?_)
    (by rwa [Function.update_of_ne (castSucc_ne_sixteen b).symm])
  · rw [Function.update_of_ne hj.ne, ← hupd j hj]
    -- left of the new slot: the slots left of `i`, the hashed `i`, and the empty ones between
    rcases lt_trichotomy j i with hji | rfl | hij
    · rw [Function.update_of_ne hji.ne]
      exact hleft j hji
    · rw [Function.update_self]
      exact .inr ⟨hc.ne_nil, _, rfl, hc.hashesTo⟩
    · rw [Function.update_of_ne hij.ne']
      exact .inl (hright j hij)
  · have hij : i < j := hib.trans hj
    rw [Function.update_of_ne hj.ne', Function.update_of_ne hij.ne',
      Function.update_of_ne ((Fin.castSucc_injective 16).ne hj.ne')]
    exact hright j hij


theorem Done.none_or_hashed {c : Option StackTrie} {n : Node} (h : Done keccak256 c n) :
    c = none ∨ ∃ v, c = some (.hashed v) := by
  rcases h with ⟨hc, -⟩ | ⟨-, v, hc, -⟩
  · exact .inl hc
  · exact .inr ⟨v, hc⟩

theorem insertNil_snd_of_ne_nil {key : List Nibble} (h : key ≠ []) (value : Node) :
    (Node.insertNil key value).2 = .short key value := by
  cases key with
  | nil => exact absurd rfl h
  | cons => rfl

/-- The part of a split extension that goes below the new branch: the child itself, or an
extension of the rest of the chunk to it. -/
theorem hashesTo_insertNil {off : ℕ} {child : StackTrie} {cs : Nibble → Node} {last : List Nibble}
    (hc : Repr keccak256 off child (.full cs) last) (o : ℕ) (s : List Nibble) :
    HashesTo keccak256 (Node.insertNil s (.full cs)).2
      (hash keccak256 (if s = [] then child else .ext o s child)) := by
  cases s with
  | nil => exact hc.hashesTo
  | cons c s => exact hashesTo_ext hc.hashesTo _ _

/-- One insert of a key right of the last one keeps the relation, with the trie node that
`insert` makes of the same key. -/
theorem Repr.insert {off : ℕ} {st : StackTrie} {n : Node} {last : List Nibble}
    (h : Repr keccak256 off st n last) {key : List Nibble} (hkey : ∀ c ∈ key, c.val < 16)
    (hleft : LeftOf last (key.drop off)) (value : Bytes) :
    ∃ st', st.insert keccak256 key value = some st' ∧
      Repr keccak256 off st' (n.insert (key.drop off ++ [16]) (.value value)).2 (key.drop off) := by
  induction h generalizing key with
  | @leaf off k val hk =>
    -- the leaf splits where the key parts from it
    have hmem : ∀ c ∈ key.drop off, c.val < 16 := fun c hc => hkey c (List.mem_of_mem_drop hc)
    obtain ⟨p, s, t, a, b, rfl, hdrop, hab⟩ := LeftOf.slots hleft hk hmem
    have hp : ∀ c ∈ p, c.val < 16 := fun c hc => hk c (by simp [hc])
    have ht : ∀ c ∈ t, c.val < 16 := fun c hc => hmem c (by simp [hdrop, hc])
    refine ⟨_, insert_leaf_split hab.ne hdrop value, ?_⟩
    rw [hdrop, List.append_assoc, List.cons_append, List.append_assoc, List.cons_append,
      Node.insert_short_branch ((Fin.castSucc_injective 16).ne hab.ne')]
    simpa [Node.splitBranch, insertNil_snd_of_ne_nil] using
      repr_splitAt hab hp ht (by simp) (hashesTo_leaf (p.length + 1) s val) value
  | @ext off k last child cs hk hk16 hc ih =>
    have hmem : ∀ c ∈ key.drop off, c.val < 16 := fun c hc => hkey c (List.mem_of_mem_drop hc)
    rcases LeftOf.append_left_cases hleft with ⟨rest, hdrop, hrest⟩ | ⟨p, x, y, s, t, hks, hdrop, hxy⟩
    · -- the key runs through the whole extension: insert below it
      have hdrop' : key.drop (off + k.length) = rest := by
        rw [← List.drop_drop, hdrop, List.drop_left]
      obtain ⟨st', hst', hrepr⟩ := ih hkey (hdrop' ▸ hrest)
      refine ⟨.ext off k st', by rw [insert_ext_below hdrop, hst', Option.map_some], ?_⟩
      obtain ⟨i, r, hir⟩ : ∃ i r, rest ++ [16] = i :: r := List.exists_cons_of_ne_nil (by simp)
      rw [hdrop', hir, Node.insert_full_cons] at hrepr
      rw [hdrop, List.append_assoc,
        Node.insert_short_of_prefixLen_eq (by simp) Node.prefixLen_append_self, List.drop_left, hir,
        Node.insert_full_cons]
      exact Repr.ext hk hk16 hrepr
    · -- the extension splits where the key parts from its chunk
      obtain ⟨p, s, t, a, b, rfl, hdrop', hab⟩ :=
        LeftOf.slots ⟨p, x, y, s, t, hks, hdrop, hxy⟩ hk16 hmem
      have hp : ∀ c ∈ p, c.val < 16 := fun c hc => hk16 c (by simp [hc])
      have ht : ∀ c ∈ t, c.val < 16 := fun c hc => hmem c (by simp [hdrop', hc])
      have hne : (Node.insertNil s (.full cs)).2 ≠ .nil := by
        cases s <;> intro h <;> cases h
      refine ⟨_, insert_ext_split hab.ne hdrop' value, ?_⟩
      rw [hdrop', List.append_assoc, List.cons_append,
        Node.insert_short_branch ((Fin.castSucc_injective 16).ne hab.ne')]
      simpa [Node.splitBranch, insertNil_snd_of_ne_nil] using
        repr_splitAt hab hp ht hne (hashesTo_insertNil hc (p.length + 1) s) value
  | @branch off children cs i c last hleft' hi hc hright h16 ih =>
    have hleft : LeftOf (i.castSucc :: last) (key.drop off) := hleft
    have hmem : ∀ c ∈ key.drop off, c.val < 16 := fun c hc => hkey c (List.mem_of_mem_drop hc)
    obtain ⟨y, t, hdrop⟩ : ∃ y t, key.drop off = y :: t := by
      refine List.exists_cons_of_ne_nil fun h => ?_
      rw [h] at hleft
      exact not_leftOf_nil_right _ hleft
    obtain ⟨b, rfl⟩ := castSucc_of_lt (hmem y (by simp [hdrop]))
    have ht : ∀ c ∈ t, c.val < 16 := fun c hc => hmem c (by simp [hdrop, hc])
    have hdrop1 : key.drop (off + 1) = t := by
      rw [← List.drop_drop, hdrop, List.drop_one, List.tail_cons]
    rw [hdrop] at hleft
    rw [hdrop, List.cons_append, Node.insert_full_cons]
    rcases leftOf_cons_cons_iff.mp hleft with hib | ⟨hib, htail⟩
    · -- a slot right of the open child: the open child is hashed, a leaf opens at `b`
      have hib : i < b := Fin.castSucc_lt_castSucc_iff.mp hib
      obtain ⟨l₁, l₂, hel, hl₁⟩ := elders_split hib
      have helder : hashElder keccak256 children (elders b) =
          Function.update children i (some (.hashed (hash keccak256 c))) := by
        rw [hel]
        exact hashElder_of_first hi hc.not_hashed l₂ fun j hj => (hright j (hl₁ j hj).1).1
      refine ⟨.branch off (Function.update (Function.update children i
        (some (.hashed (hash keccak256 c)))) b (some (.leaf (off + 1) t value))), ?_, ?_⟩
      · simp only [insert_branch hdrop, (hright b hib).1, insertChild, helder, insertEmpty, hdrop1,
          Option.map_some]
      · rw [(hright b hib).2, Node.insert_nil, insertNil_snd_of_ne_nil (by simp)]
        exact repr_branch_open hib hleft' hi hc hright h16 ht value
    · -- the open child's slot: insert below it, the elder slots being hashed already
      obtain rfl := Fin.castSucc_injective 16 hib
      obtain ⟨c', hc', hrepr⟩ := ih hkey (hdrop1 ▸ htail)
      have helder : hashElder keccak256 children (elders i) = children :=
        hashElder_of_hashed fun j hj => (hleft' j (mem_elders.mp hj)).none_or_hashed
      refine ⟨_, by rw [insert_branch hdrop, hi, insertChild, hc', helder, Option.map_some], ?_⟩
      rw [hdrop1] at hrepr
      exact repr_branch_update hleft' hright h16 hrepr

end Repr


section Run

variable {keccak256}

/-- The root hash of an open stack trie is the trie's root hash. -/
theorem Repr.rootHash {off : ℕ} {st : StackTrie} {n : Node} {last : List Nibble}
    (h : Repr keccak256 off st n last) :
    Trie.hash keccak256 false ⟨n⟩ = some (StackTrie.rootHash keccak256 st) := by
  obtain ⟨C, hC, hv⟩ := h.hashesTo
  -- forced, the hasher hashes the encoding of the short or full node at the root
  have hforce := hC true
  rw [Node.nodeToHash_true] at hforce
  have hroot : Trie.hash keccak256 false ⟨n⟩ = some (keccak256 (Rlp.encode (.list C))) := by
    cases h <;> simp only [Trie.hash, hforce, Node.hashData, Rlp.Typed.bytesToHash_bytes]
  rw [hroot, StackTrie.rootHash, hv, hashVal]
  by_cases hlt : (Rlp.encode (.list C)).length < 32
  · rw [if_pos hlt, if_pos (by omega)]
  · rw [if_neg hlt, Hash.length_bytes, if_neg (by norm_num), Rlp.Typed.bytesToHash_bytes]

theorem byteNibbles_lt (b : UInt8) : ∀ c ∈ byteNibbles b, c.val < 16 := by
  have := b.toNat_lt
  simp only [byteNibbles, List.mem_cons, List.not_mem_nil, or_false]
  rintro c (rfl | rfl) <;> simp <;> omega

theorem flatMap_byteNibbles_lt (key : Bytes) : ∀ c ∈ key.flatMap byteNibbles, c.val < 16 := by
  simp only [List.mem_flatMap]
  rintro c ⟨b, -, hc⟩
  exact byteNibbles_lt b c hc

/-- Of two bytes, the smaller one's nibbles part to the left. -/
theorem leftOf_byteNibbles (x y : UInt8) (h : x < y) : LeftOf (byteNibbles x) (byteNibbles y) := by
  have hx := x.toNat_lt
  rw [UInt8.lt_iff_toNat_lt] at h
  rcases (Nat.div_le_div_right (c := 16) h.le).lt_or_eq with hhi | hhi
  · exact leftOf_cons_cons _ _ (Fin.mk_lt_mk.mpr hhi)
  · -- the high nibbles agree, so the low ones part
    have hlo : x.toNat % 16 < y.toNat % 16 := by omega
    exact ⟨[⟨x.toNat / 16, by omega⟩], ⟨x.toNat % 16, by omega⟩, ⟨y.toNat % 16, by omega⟩, [], [],
      rfl, by simp [byteNibbles, hhi], Fin.mk_lt_mk.mpr hlo⟩

/-- The key the stack trie is handed: the nibbles of the bytes, without the terminator. -/
theorem tryUpdate_eq (st : StackTrie) (key : Bytes) {value : Bytes} (hv : value ≠ []) :
    st.tryUpdate keccak256 key value = st.insert keccak256 (key.flatMap byteNibbles) value := by
  simp [tryUpdate, keybytesToHex, hv]

theorem Repr.tryUpdate {st : StackTrie} {n : Node} {last : List Nibble} (h : Repr keccak256 0 st n last)
    {key value : Bytes} (hv : value ≠ []) (hleft : LeftOf last (key.flatMap byteNibbles)) :
    ∃ st', st.tryUpdate keccak256 key value = some st' ∧
      Repr keccak256 0 st' (Trie.tryUpdate ⟨n⟩ key value).root (key.flatMap byteNibbles) := by
  have hleft : LeftOf last ((key.flatMap byteNibbles).drop 0) := hleft
  obtain ⟨st', hst', hrepr⟩ := h.insert (flatMap_byteNibbles_lt key) hleft value
  rw [List.drop_zero] at hrepr
  refine ⟨st', by rw [tryUpdate_eq st key hv, hst'], ?_⟩
  simpa [Trie.tryUpdate, keybytesToHex, hv] using hrepr

/-- From an open stack trie, updates with keys that each part to the right of the one before
give the root hash of the trie that the same updates give. -/
theorem Repr.foldlM_tryUpdate {st : StackTrie} {n : Node} {last : List Nibble}
    (h : Repr keccak256 0 st n last) {kvs : List (Bytes × Bytes)} (hv : ∀ kv ∈ kvs, kv.2 ≠ [])
    (hord : (last :: kvs.map fun kv => kv.1.flatMap byteNibbles).IsChain LeftOf) :
    ∃ st', kvs.foldlM (fun st kv => st.tryUpdate keccak256 kv.1 kv.2) st = some st' ∧
      Trie.hash keccak256 false (kvs.foldl (fun t kv => t.tryUpdate kv.1 kv.2) ⟨n⟩) =
        some (StackTrie.rootHash keccak256 st') := by
  induction kvs generalizing st n last with
  | nil => exact ⟨st, rfl, h.rootHash⟩
  | cons kv kvs ih =>
    rw [List.map_cons, List.isChain_cons_cons] at hord
    obtain ⟨st₁, hst₁, h₁⟩ := h.tryUpdate (hv kv List.mem_cons_self) hord.1
    obtain ⟨st', hst', hhash⟩ := ih h₁ (fun kv' hkv' => hv kv' (List.mem_cons_of_mem _ hkv')) hord.2
    exact ⟨st', by rw [List.foldlM_cons, hst₁]; exact hst', hhash⟩

/-- From the empty stack trie, updates with nonempty values and keys in increasing order, each
parting to the right of the one before, give the root hash of the trie that the same updates
give from the empty trie. -/
theorem foldlM_tryUpdate_empty {kvs : List (Bytes × Bytes)} (hv : ∀ kv ∈ kvs, kv.2 ≠ [])
    (hord : (kvs.map Prod.fst).IsChain LeftOf) :
    ∃ st', kvs.foldlM (fun st kv => st.tryUpdate keccak256 kv.1 kv.2) (.empty 0) = some st' ∧
      Trie.hash keccak256 false (kvs.foldl (fun t kv => t.tryUpdate kv.1 kv.2) Trie.empty) =
        some (rootHash keccak256 st') := by
  -- byte keys that part to the left part to the left nibble by nibble
  have hnib : (kvs.map fun kv => kv.1.flatMap byteNibbles).IsChain LeftOf := by
    rw [List.isChain_map] at hord ⊢
    exact hord.imp fun a b hab => hab.flatMap leftOf_byteNibbles
  cases kvs with
  | nil =>
    refine ⟨.empty 0, rfl, ?_⟩
    simp [Trie.hash, Trie.empty, rootHash, hash, Rlp.Typed.bytesToHash_bytes]
  | cons kv kvs =>
    -- the first key makes the empty stack trie a leaf
    have hv₁ : kv.2 ≠ [] := hv kv List.mem_cons_self
    have h₁ : Repr keccak256 0 (.leaf 0 (kv.1.flatMap byteNibbles) kv.2)
        (Trie.tryUpdate Trie.empty kv.1 kv.2).root (kv.1.flatMap byteNibbles) := by
      simpa [Trie.tryUpdate, Trie.empty, keybytesToHex, hv₁, Node.insert] using
        @Repr.leaf keccak256 0 _ kv.2 (flatMap_byteNibbles_lt kv.1)
    rw [List.map_cons] at hnib
    obtain ⟨st', hst', hhash⟩ :=
      h₁.foldlM_tryUpdate (fun kv' hkv' => hv kv' (List.mem_cons_of_mem _ hkv')) hnib
    refine ⟨st', ?_, hhash⟩
    rw [List.foldlM_cons, tryUpdate_eq _ _ hv₁]
    exact hst'

end Run

end StackTrie

end Classzz.Trie
