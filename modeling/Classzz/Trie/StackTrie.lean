import Classzz.Trie.Hasher

/-!
# The stack trie

`trie/stacktrie.go`: a trie that is given its keys in increasing order and hashes a subtree as
soon as no later key can reach it. A node is, by its `nodeType`, empty, a branch with sixteen
child slots, an extension with its key chunk and one child, a leaf with its key chunk and value,
or a node already hashed down to its value. Every node but a hashed one keeps the offset of its
chunk in the full key (`keyOffset`); a child slot is `none` for a nil pointer.

`insert` follows the source case by case, and is `none` where the source panics: a key read past
its end, a nibble beyond the sixteen slots, an insert into a hashed node or onto a key already
there. `hash` writes a node's RLP as `hash()` does, each child as a `rawNode` below 32 bytes and
as a `hashNode` from 32 on, and keeps the encoding if it is shorter than 32 bytes and its
Keccak-256 hash otherwise. The node pool, the database with `Commit`, and the binary
marshalling are left out.
-/

namespace Classzz.Trie

/-- `StackTrie`, one constructor for each `nodeType`. -/
inductive StackTrie where
  | empty (keyOffset : ℕ)
  | branch (keyOffset : ℕ) (children : Fin 16 → Option StackTrie)
  | ext (keyOffset : ℕ) (key : List Nibble) (child : StackTrie)
  | leaf (keyOffset : ℕ) (key : List Nibble) (val : Bytes)
  | hashed (val : Bytes)

namespace StackTrie

section Hash

variable (keccak256 : Bytes → Hash)

/-- A list written from the encodings of its items, as `rlp.Encode` writes `nodes` and the two
node structs. -/
def encodeItems (items : List Bytes) : Bytes :=
  Rlp.header 192 items.flatten.length ++ items.flatten

/-- A child of value `val` in its parent's encoding: a `rawNode`, written as it is, below 32
bytes, and a `hashNode`, a string, from 32 on. -/
def childEnc (val : Bytes) : Bytes :=
  if val.length < 32 then val else Rlp.encodeBytes val

/-- The value a node keeps of its encoding: the encoding itself below 32 bytes, its Keccak-256
hash from 32 on. -/
def hashVal (enc : Bytes) : Bytes :=
  if enc.length < 32 then enc else (keccak256 enc).bytes

mutual

/-- `hash`: the value `val` the node holds once it is a `hashedNode`. -/
def hash : StackTrie → Bytes
  | .empty _ => emptyRoot.bytes
  | .hashed val => val
  | .branch _ children =>
    hashVal keccak256 (encodeItems
      ((List.finRange 16).map (fun i => hashSlot (children i)) ++ [Rlp.encode Node.nilValueNode]))
  | .ext _ key child =>
    hashVal keccak256 (encodeItems [Rlp.encodeBytes (hexToCompact key), childEnc (hash child)])
  | .leaf _ key val =>
    hashVal keccak256
      (encodeItems [Rlp.encodeBytes (hexToCompact (key ++ [16])), Rlp.encodeBytes val])

/-- A child slot of a branch in its encoding: `nilValueNode` for a nil pointer. -/
def hashSlot : Option StackTrie → Bytes
  | none => Rlp.encode Node.nilValueNode
  | some c => childEnc (hash c)

end

/-- `Hash`: the root hashed, and hashed once more if its value is not 32 bytes long. -/
def rootHash (st : StackTrie) : Hash :=
  let val := hash keccak256 st
  if val.length ≠ 32 then keccak256 val else bytesToHash val

end Hash

section Insert

variable (keccak256 : Bytes → Hash)

/-- `getDiffIndex`: how far the node's chunk agrees with the key from the node's offset on;
`none` where the source reads the key past its end. -/
def getDiffIndex : List Nibble → List Nibble → Option ℕ
  | [], _ => some 0
  | _ :: _, [] => none
  | c :: cs, r :: rs => if c = r then (getDiffIndex cs rs).map (· + 1) else some 0

/-- A nibble as an index into the sixteen child slots; `none` for the terminator, which the
source would index past the array with. -/
def slot (n : Nibble) : Option (Fin 16) :=
  if h : n.val < 16 then some ⟨n.val, h⟩ else none

/-- The slots below `idx`, nearest first: the loop `for i := idx - 1; i >= 0; i--`. -/
def elders (idx : Fin 16) : List (Fin 16) :=
  ((List.finRange 16).filter (· < idx)).reverse

/-- The loop over the elder siblings: the nearest child that is not nil is hashed, unless it
is already. -/
def hashElder (children : Fin 16 → Option StackTrie) : List (Fin 16) → Fin 16 → Option StackTrie
  | [] => children
  | i :: is =>
    match children i with
    | none => hashElder children is
    | some (.hashed _) => children
    | some c => Function.update children i (some (.hashed (hash keccak256 c)))

/-- `newLeaf`. -/
def newLeaf (ko : ℕ) (key : List Nibble) (val : Bytes) : StackTrie :=
  .leaf ko (key.drop ko) val

/-- `newExt`. -/
def newExt (ko : ℕ) (key : List Nibble) (child : StackTrie) : StackTrie :=
  .ext ko (key.drop ko) child

/-- The case `emptyNode` of `insert`: the node becomes a leaf of the rest of the key. -/
def insertEmpty (keyOffset : ℕ) (key : List Nibble) (value : Bytes) : StackTrie :=
  .leaf keyOffset (key.drop keyOffset) value

/-- The branch that replaces a node split where its chunk and the key part: the original part at
`origIdx`, the new leaf at `newIdx`, under an extension of the common prefix if it is not
empty. -/
def splitAt (off diffidx : ℕ) (chunk : List Nibble) (origIdx newIdx : Fin 16)
    (orig new : StackTrie) : StackTrie :=
  let children := Function.update (Function.update (fun _ => none) origIdx (some orig)) newIdx
    (some new)
  if diffidx = 0 then .branch off children
  else .ext off (chunk.take diffidx) (.branch (off + diffidx) children)

mutual

/-- `insert`: the key is the full key in hex form without its terminator. -/
def insert : StackTrie → List Nibble → Bytes → Option StackTrie
  | .branch off children, key, value =>
    match key[off]?.bind slot with
    | none => none
    | some idx =>
      -- the elder siblings are only read to be hashed, so the slot `idx` is still the old one
      (insertChild (off + 1) (children idx) key value).map fun c =>
        .branch off (Function.update (hashElder keccak256 children (elders idx) ) idx (some c))
  | .ext off k child, key, value =>
    match getDiffIndex k (key.drop off) with
    | none => none
    | some diffidx =>
      if diffidx = k.length then (insert child key value).map (.ext off k ·)
      else
        let n := if diffidx < k.length - 1 then newExt (diffidx + 1) k child else child
        match k[diffidx]?.bind slot, key[diffidx + off]?.bind slot with
        | some origIdx, some newIdx =>
          some (splitAt off diffidx k origIdx newIdx (.hashed (hash keccak256 n))
            (newLeaf (off + diffidx + 1) key value))
        | _, _ => none
  | .leaf off k val, key, value =>
    match getDiffIndex k (key.drop off) with
    | none => none
    | some diffidx =>
      -- overwriting a key is not supported
      if k.length ≤ diffidx then none
      else
        match k[diffidx]?.bind slot, key[diffidx + off]?.bind slot with
        | some origIdx, some newIdx =>
          -- the new leaf hangs from `p`, at offset `off + diffidx` in both cases
          some (splitAt off diffidx k origIdx newIdx
            (.hashed (hash keccak256 (newLeaf (diffidx + 1) k val)))
            (newLeaf (off + diffidx + 1) key value))
        | _, _ => none
  | .empty off, key, value => some (insertEmpty off key value)
  | .hashed _, _, _ => none

/-- The child slot `insert` descends into; a nil one gets a fresh node at the next offset. -/
def insertChild (off : ℕ) : Option StackTrie → List Nibble → Bytes → Option StackTrie
  | none, key, value => some (insertEmpty off key value)
  | some c, key, value => insert c key value

end

/-- `TryUpdate`: the key in hex form without its terminator; an empty value panics, deletion not
being supported. -/
def tryUpdate (st : StackTrie) (key value : Bytes) : Option StackTrie :=
  let k := keybytesToHex key
  if value.length = 0 then none
  else st.insert keccak256 (k.take (k.length - 1)) value

end Insert

section Equations

variable {keccak256 : Bytes → Hash}

theorem getDiffIndex_append_cons {p s t : List Nibble} {a b : Nibble} (hab : a ≠ b) :
    getDiffIndex (p ++ a :: s) (p ++ b :: t) = some p.length := by
  induction p with
  | nil => simp [getDiffIndex, hab]
  | cons c p ih => simp [getDiffIndex, ih]

theorem getDiffIndex_self_append (k r : List Nibble) : getDiffIndex k (k ++ r) = some k.length := by
  induction k with
  | nil => rfl
  | cons c k ih => simp [getDiffIndex, ih]

/-- The key's nibble at a position within its rest from `off`. -/
theorem getElem?_of_drop {key p t : List Nibble} {off : ℕ} {b : Nibble}
    (hkey : key.drop off = p ++ b :: t) : key[p.length + off]? = some b := by
  rw [Nat.add_comm, ← List.getElem?_drop, hkey]
  simp

theorem drop_succ_of_drop {key p t : List Nibble} {off : ℕ} {b : Nibble}
    (hkey : key.drop off = p ++ b :: t) : key.drop (off + p.length + 1) = t := by
  rw [Nat.add_assoc, ← List.drop_drop, hkey]
  simp

theorem slot_castSucc (i : Fin 16) : slot i.castSucc = some i := by
  simp [slot]

theorem insert_branch {off : ℕ} {children : Fin 16 → Option StackTrie} {key t : List Nibble}
    {b : Fin 16} (hkey : key.drop off = b.castSucc :: t) (value : Bytes) :
    (branch off children).insert keccak256 key value =
      (insertChild keccak256 (off + 1) (children b) key value).map fun c =>
        .branch off (Function.update (hashElder keccak256 children (elders b)) b (some c)) := by
  have hb : key[off]? = some b.castSucc := by simpa using getElem?_of_drop (p := []) hkey
  simp only [insert, hb, Option.bind_some, slot_castSucc]

theorem insert_ext_below {off : ℕ} {k r key : List Nibble} {child : StackTrie}
    (hkey : key.drop off = k ++ r) (value : Bytes) :
    (ext off k child).insert keccak256 key value =
      (child.insert keccak256 key value).map (.ext off k ·) := by
  simp only [insert, hkey, getDiffIndex_self_append, if_true]

theorem insert_ext_split {off : ℕ} {p s t key : List Nibble} {a b : Fin 16} {child : StackTrie}
    (hab : a ≠ b) (hkey : key.drop off = p ++ b.castSucc :: t) (value : Bytes) :
    (ext off (p ++ a.castSucc :: s) child).insert keccak256 key value =
      some (splitAt off p.length (p ++ a.castSucc :: s) a b
        (.hashed (hash keccak256 (if s = [] then child else .ext (p.length + 1) s child)))
        (.leaf (off + p.length + 1) t value)) := by
  have hd : p.length ≠ (p ++ a.castSucc :: s).length := by simp
  -- the source keeps an extension for the rest of the chunk only when there is a rest
  have hn : (if p.length < (p ++ a.castSucc :: s).length - 1 then
      newExt (p.length + 1) (p ++ a.castSucc :: s) child else child) =
      if s = [] then child else .ext (p.length + 1) s child := by
    by_cases hs : s = []
    · simp [hs]
    · rw [if_pos (by simp; exact List.length_pos_iff.mpr hs), if_neg hs, newExt]
      simp
  simp only [insert, hkey, getDiffIndex_append_cons (Fin.castSucc_injective _ |>.ne hab), if_neg hd,
    hn, List.getElem?_append_right, getElem?_of_drop hkey, Option.bind_some, slot_castSucc,
    newLeaf, drop_succ_of_drop hkey, le_refl, Nat.sub_self, List.getElem?_cons_zero]

theorem insert_leaf_split {off : ℕ} {p s t key : List Nibble} {a b : Fin 16} {val : Bytes}
    (hab : a ≠ b) (hkey : key.drop off = p ++ b.castSucc :: t) (value : Bytes) :
    (leaf off (p ++ a.castSucc :: s) val).insert keccak256 key value =
      some (splitAt off p.length (p ++ a.castSucc :: s) a b
        (.hashed (hash keccak256 (.leaf (p.length + 1) s val)))
        (.leaf (off + p.length + 1) t value)) := by
  have hd : ¬ (p ++ a.castSucc :: s).length ≤ p.length := by simp
  have hs : (p ++ a.castSucc :: s).drop (p.length + 1) = s := by simp
  simp only [insert, hkey, getDiffIndex_append_cons (Fin.castSucc_injective _ |>.ne hab), if_neg hd,
    List.getElem?_append_right, getElem?_of_drop hkey, Option.bind_some, slot_castSucc, newLeaf,
    hs, drop_succ_of_drop hkey, le_refl, Nat.sub_self, List.getElem?_cons_zero]

theorem mem_elders {j idx : Fin 16} : j ∈ elders idx ↔ j < idx := by
  simp [elders]

/-- The slots the loop visits before a slot `i` below `idx` lie between the two. -/
theorem elders_split {i idx : Fin 16} (h : i < idx) :
    ∃ l₁ l₂, elders idx = l₁ ++ i :: l₂ ∧ ∀ j ∈ l₁, i < j ∧ j < idx := by
  obtain ⟨l₁, l₂, he⟩ := List.append_of_mem (mem_elders.mpr h)
  -- the loop runs downwards, so what comes before `i` is above it
  have hdesc : (elders idx).Pairwise (· > ·) :=
    List.pairwise_reverse.mpr ((List.pairwise_lt_finRange 16).filter _)
  rw [he, List.pairwise_append] at hdesc
  refine ⟨l₁, l₂, he, fun j hj => ⟨hdesc.2.2 j hj i List.mem_cons_self, ?_⟩⟩
  exact mem_elders.mp (he ▸ List.mem_append_left _ hj)

/-- Where every slot the loop reads is nil or hashed, it changes nothing. -/
theorem hashElder_of_hashed {children : Fin 16 → Option StackTrie} :
    ∀ {l : List (Fin 16)}, (∀ j ∈ l, children j = none ∨ ∃ v, children j = some (.hashed v)) →
      hashElder keccak256 children l = children
  | [], _ => rfl
  | i :: is, h => by
    rcases h i List.mem_cons_self with hi | ⟨v, hi⟩
    · rw [hashElder, hi]
      exact hashElder_of_hashed fun j hj => h j (List.mem_cons_of_mem _ hj)
    · rw [hashElder, hi]

/-- The loop stops at the first slot that is not nil, and hashes it. -/
theorem hashElder_of_first {children : Fin 16 → Option StackTrie} {i : Fin 16} {c : StackTrie}
    (hi : children i = some c) (hc : ∀ v, c ≠ .hashed v) :
    ∀ {l₁ : List (Fin 16)} (l₂ : List (Fin 16)), (∀ j ∈ l₁, children j = none) →
      hashElder keccak256 children (l₁ ++ i :: l₂) =
        Function.update children i (some (.hashed (hash keccak256 c)))
  | [], l₂, _ => by
    rw [List.nil_append, hashElder, hi]
    cases c with
    | hashed v => exact absurd rfl (hc v)
    | _ => rfl
  | j :: l₁, l₂, h => by
    rw [List.cons_append, hashElder, h j List.mem_cons_self]
    exact hashElder_of_first hi hc l₂ fun k hk => h k (List.mem_cons_of_mem _ hk)

end Equations

end StackTrie

end Classzz.Trie
