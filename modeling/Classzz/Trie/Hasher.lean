import Classzz.Trie.Canonical
import Classzz.Lib.Rlp
import Classzz.Common.Types

/-!
# The root hash of a trie

`Trie.Hash` as `hasher.go` computes it. A node is collapsed from the bottom up: the key of a
short node is put in compact form (`hexToCompact`), and every short or full node below is
replaced by what its parent encodes, its RLP if that is shorter than 32 bytes and otherwise the
Keccak-256 hash of it. The root's RLP is hashed whatever its length. A collapsed node is
represented here by its RLP item. The hashes the nodes cache are not modelled: every hash is
computed from the node, which is what a cache that is right holds.

The parallel hasher hashes the first sixteen children of a full node each with a fresh serial
hasher, and the serial hasher hashes them itself. Both are serial below a full node, so the
flag never changes a hash (`Node.hash_parallel`). The root hash is then a function of the root.
By `Stored.root_eq`, the tries that operations build from the empty trie for one map have one
root, so they have one hash whatever the operations were (`canonical_hash_foldl_run`).
-/

namespace Classzz.Trie

section Compact

/-- `hasTerm`: the key ends in the terminator. -/
def hasTerm (s : List Nibble) : Bool := s.getLast? == some 16

/-- `decodeNibbles`: two nibbles to a byte, the first one high. It is only given an even
number of nibbles. -/
def decodeNibbles : List Nibble → List UInt8
  | a :: b :: rest => (UInt8.ofNat a.val <<< 4 ||| UInt8.ofNat b.val) :: decodeNibbles rest
  | _ => []

/-- `hexToCompact`: a flag byte, `0x20` for a terminated key and `0x10` with the first nibble
for an odd number of nibbles, then the other nibbles two to a byte. -/
def hexToCompact (hex : List Nibble) : List UInt8 :=
  let terminator : UInt8 := if hasTerm hex then 1 else 0
  let hex := if hasTerm hex then hex.dropLast else hex
  if hex.length % 2 = 1 then
    (terminator <<< 5 ||| (1 : UInt8) <<< 4 ||| UInt8.ofNat (hex.headD 0).val) ::
      decodeNibbles hex.tail
  else (terminator <<< 5) :: decodeNibbles hex

example : hexToCompact [1, 2, 3, 16] = [0x31, 0x23] := by decide

example : hexToCompact [0, 15, 1, 12, 11, 8] = [0x00, 0x0f, 0x1c, 0xb8] := by decide

end Compact

namespace Node

section Collapse

/-- `nilValueNode`, what a full node's encoding puts for a missing child. -/
def nilValueNode : Rlp.Item := .bytes []

/-- A slot of a full node as `EncodeRLP` writes it: `nilValueNode` where the child is
missing. -/
def encodeSlot (item : Rlp.Item) : Node → Rlp.Item
  | .nil => nilValueNode
  | _ => item

/-- How the RLP encoder writes a node as it stands: a value as its bytes, a short node with its
key nibble by nibble, a full node through `encodeSlot`, and a missing node as the empty list. -/
def rawItem : Node → Rlp.Item
  | .nil => .list []
  | .value v => .bytes v
  | .short k val => .list [.bytes (k.map fun c => UInt8.ofNat c.val), rawItem val]
  | .full children =>
    .list ((List.finRange 17).map fun i => encodeSlot (rawItem (children i)) (children i))

/-- `hashData`: the Keccak-256 hash of the data, as 32 bytes. -/
def hashData (keccak256 : Bytes → Hash) (data : Bytes) : Bytes :=
  (keccak256 data).bytes

/-- What `shortnodeToHash` and `fullnodeToHash` do with the encoding of a collapsed node: keep
the node in its parent if the encoding is shorter than 32 bytes and the hash is not forced,
and put the hash of the encoding in its place otherwise. -/
def nodeToHash (keccak256 : Bytes → Hash) (collapsed : Rlp.Item) (force : Bool) : Rlp.Item :=
  if (Rlp.encode collapsed).length < 32 ∧ force = false then collapsed
  else .bytes (hashData keccak256 (Rlp.encode collapsed))

/-- `shortnodeToHash`, on the key and child of a collapsed short node. -/
def shortnodeToHash (keccak256 : Bytes → Hash) (collapsed : Bytes × Rlp.Item) (force : Bool) :
    Rlp.Item :=
  nodeToHash keccak256 (.list [.bytes collapsed.1, collapsed.2]) force

/-- `fullnodeToHash`, on the seventeen children of a collapsed full node. -/
def fullnodeToHash (keccak256 : Bytes → Hash) (collapsed : List Rlp.Item) (force : Bool) :
    Rlp.Item :=
  nodeToHash keccak256 (.list collapsed) force

/-- `hashShortNodeChildren`: the key in compact form, and the child as `hashed` gives it if it
is a short or a full node, as it is otherwise. -/
def hashShortNodeChildren (k : List Nibble) (val : Node) (hashed : Rlp.Item) :
    Bytes × Rlp.Item :=
  (hexToCompact k, match val with
    | .short _ _ | .full _ => hashed
    | _ => rawItem val)

/-- `hashFullNodeChildren`: each of the first sixteen children hashed, by a fresh serial hasher
(`fresh`) when the hasher is parallel and by the hasher itself (`own`) when it is not, and
`nilValueNode` where there is no child. The seventeenth, a value, stays as it is. -/
def hashFullNodeChildren (parallel : Bool) (children : Nibble → Node)
    (fresh own : Nibble → Rlp.Item) : List Rlp.Item :=
  (List.finRange 17).map fun i =>
    if i.val < 16 then
      match children i with
      | .nil => nilValueNode
      | _ => if parallel then fresh i else own i
    else encodeSlot (rawItem (children i)) (children i)

/-- `hasher.hash` of a hasher that is `parallel` or not: what a parent encodes for the node. -/
def hash (keccak256 : Bytes → Hash) : Bool → Node → Bool → Rlp.Item
  | parallel, .short k val, force =>
    shortnodeToHash keccak256 (hashShortNodeChildren k val (hash keccak256 parallel val false))
      force
  | parallel, .full children, force =>
    fullnodeToHash keccak256 (hashFullNodeChildren parallel children
      (fun i => hash keccak256 false (children i) false)
      (fun i => hash keccak256 parallel (children i) false)) force
  -- values are left as they are
  | _, n, _ => rawItem n

end Collapse

section Parallel

variable (keccak256 : Bytes → Hash)

/-- Hashed by fresh serial hashers, the children of a full node come out as the serial hasher
hashes them. -/
theorem hashFullNodeChildren_true (children : Nibble → Node) (fresh own : Nibble → Rlp.Item) :
    hashFullNodeChildren true children fresh own =
      hashFullNodeChildren false children fresh fresh := by
  simp only [hashFullNodeChildren, Bool.false_eq_true, if_true, if_false]

/-- The parallel hasher hashes every node as the serial one does. -/
theorem hash_parallel (parallel : Bool) (n : Node) (force : Bool) :
    hash keccak256 parallel n force = hash keccak256 false n force := by
  induction n generalizing parallel force with
  | short k val ih => simp only [hash, ih parallel]
  | full children =>
    -- below a full node both hashers are serial: no induction is needed
    cases parallel with
    | false => rfl
    | true => simp only [hash, hashFullNodeChildren_true]
  | _ => rfl

/-- A forced hash is always the hash of the encoding. -/
theorem nodeToHash_true (collapsed : Rlp.Item) :
    nodeToHash keccak256 collapsed true = .bytes (hashData keccak256 (Rlp.encode collapsed)) := by
  simp [nodeToHash]

end Parallel

end Node

/-- `emptyRoot`, the root hash of the empty trie. -/
def emptyRoot : Hash :=
  hexToHash "56e81f171bcc55a6ff8345e692c0f86e5b48e01b996cadc001622fb5e363b421"

/-- `Trie.Hash`, with the hasher that `hashRoot` picks (parallel when at least 100 updates are
not hashed yet): the root hashed with force, and `emptyRoot` for the empty trie. The source
asserts that the hashed root is a hash node; that fails only for a value at the root. -/
def hash (keccak256 : Bytes → Hash) (parallel : Bool) (t : Trie) : Option Hash :=
  match t.root with
  | .nil => some emptyRoot
  | .value _ => none
  | root =>
    match root.hash keccak256 parallel true with
    | .bytes b => some (bytesToHash b)
    | .list _ => none

section History

variable (keccak256 : Bytes → Hash)

theorem hash_eq_serial (parallel : Bool) (t : Trie) :
    t.hash keccak256 parallel = t.hash keccak256 false := by
  unfold hash
  split
  · rfl
  · rfl
  · rw [Node.hash_parallel]

/-- A well-formed trie has a root hash: its root is no value, and a forced hash is a hash. -/
theorem hash_isSome {t : Trie} (h : t.root.WF False) (parallel : Bool) :
    (t.hash keccak256 parallel).isSome := by
  unfold hash
  rcases hr : t.root with _ | v | ⟨k, val⟩ | children
  · rfl
  · rw [hr] at h
    exact h.elim
  · simp only [Node.hash, Node.shortnodeToHash, Node.nodeToHash_true, Option.isSome_some]
  · simp only [Node.hash, Node.fullnodeToHash, Node.nodeToHash_true, Option.isSome_some]

theorem hash_congr_root {t₁ t₂ : Trie} (h : t₁.root = t₂.root) (parallel : Bool) :
    t₁.hash keccak256 parallel = t₂.hash keccak256 parallel := by
  unfold hash
  rw [h]

end History

/-- Every trie that operations build from the empty trie is in canonical form, and two runs
that build one map give tries with one root hash, whichever hasher hashes each. -/
theorem canonical_hash_foldl_run :
    (∀ ops : List Op, (ops.foldl Op.run empty).root.Canonical) ∧
      ∀ (keccak256 : Bytes → Hash) (ops₁ ops₂ : List Op) (p₁ p₂ : Bool),
        ops₁.foldl Op.apply (fun _ => none) = ops₂.foldl Op.apply (fun _ => none) →
          ∃ root : Hash, (ops₁.foldl Op.run empty).hash keccak256 p₁ = some root ∧
            (ops₂.foldl Op.run empty).hash keccak256 p₂ = some root := by
  refine ⟨fun ops => (stored_foldl_run ops).canonical, fun keccak256 ops₁ ops₂ p₁ p₂ hm => ?_⟩
  have h₁ := stored_foldl_run ops₁
  have h₂ := stored_foldl_run ops₂
  rw [← hm] at h₂
  -- both tries have the serial hash of one root
  obtain ⟨root, hroot⟩ := Option.isSome_iff_exists.mp (hash_isSome keccak256 h₁.wf false)
  refine ⟨root, ?_, ?_⟩
  · rw [hash_eq_serial keccak256 p₁, hroot]
  · rw [hash_eq_serial keccak256 p₂, ← hash_congr_root keccak256 (h₁.root_eq h₂), hroot]

/-- Two keys inserted in either order build one map, so the two tries share a root hash under
the serial and the parallel hasher. -/
theorem canonical_hash_foldl_run_swapped :
    let ops₁ : List Op := [.update [1, 2] [7], .update [1, 3] [8]]
    let ops₂ : List Op := [.update [1, 3] [8], .update [1, 2] [7]]
    let keccak256 : Bytes → Hash := fun b => Fin.ofNat _ b.length
    ops₁.foldl Op.apply (fun _ => none) = ops₂.foldl Op.apply (fun _ => none) ∧
      ∃ root : Hash, (ops₁.foldl Op.run empty).hash keccak256 false = some root ∧
        (ops₂.foldl Op.run empty).hash keccak256 true = some root := by
  intro ops₁ ops₂ keccak256
  -- the two updates touch distinct keys, so they commute
  have hm : ops₁.foldl Op.apply (fun _ => none) = ops₂.foldl Op.apply (fun _ => none) := by
    simp only [ops₁, ops₂, List.foldl_cons, List.foldl_nil, Op.apply]
    exact Function.update_comm (by decide) _ _ _
  exact ⟨hm, canonical_hash_foldl_run.2 keccak256 ops₁ ops₂ false true hm⟩

end Classzz.Trie
