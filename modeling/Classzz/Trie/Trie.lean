import Mathlib

/-!
# The Merkle-Patricia trie in memory

The nodes of `trie/node.go` and the operations of `trie/trie.go` that read and change them:
`tryGet`, `insert` (for `TryUpdate`) and `delete` (for `TryDelete` and for `TryUpdate` with an
empty value). Keys are in hex form (`keybytesToHex`): one nibble `0`..`15` per half byte and the
terminator `16` at the end, so a nibble is a `Fin 17` and a full node's seventeen children are a
function on it.

Every node is resolved: the `hashNode` of a part not loaded yet, and with it `resolveHash`, the
database and the cached hashes and dirty flags of `nodeFlag`, are left out. The `prefix` argument
of `insert` and `delete` only serves `resolveHash` and is dropped with it.
-/

namespace Classzz.Trie

/-- A nibble of a key in hex form; `16` is the terminator. -/
abbrev Nibble := Fin 17

instance neZero_nibbleRange : NeZero (17 : ℕ) := ⟨by decide⟩

/-- `node`: the empty trie (`nil`), a `valueNode`, a `shortNode` (an extension or a leaf) and a
`fullNode` with seventeen children, the last one for a value that ends here. -/
inductive Node where
  | nil
  | value (v : List UInt8)
  | short (key : List Nibble) (val : Node)
  | full (children : Nibble → Node)

theorem highNibble_lt (b : UInt8) : b.toNat / 16 < 17 := by
  have := b.toNat_lt
  omega

theorem lowNibble_lt (b : UInt8) : b.toNat % 16 < 17 := by omega

/-- The two nibbles `keybytesToHex` writes for a byte: `b / 16`, then `b % 16`. -/
def byteNibbles (b : UInt8) : List Nibble :=
  [⟨b.toNat / 16, highNibble_lt b⟩, ⟨b.toNat % 16, lowNibble_lt b⟩]

/-- `keybytesToHex`: the nibbles of every byte, then the terminator. -/
def keybytesToHex (str : List UInt8) : List Nibble :=
  str.flatMap byteNibbles ++ [16]

/-- `prefixLen`: the length of the common prefix of two keys. -/
def prefixLen : List Nibble → List Nibble → ℕ
  | a :: as, b :: bs => if a = b then prefixLen as bs + 1 else 0
  | _, _ => 0

namespace Node

/-- `tryGet`: follow the key down to a value. A full node reached with the key used up is not
reached on a terminated key (the source would index past the key); it answers `none`. -/
def tryGet : Node → List Nibble → Option (List UInt8)
  | .nil, _ => none
  | .value v, _ => some v
  | .short k val, key =>
      if key.length < k.length ∨ k ≠ key.take k.length then none
      else val.tryGet (key.drop k.length)
  | .full children, key =>
      match key with
      | i :: rest => (children i).tryGet rest
      | [] => none

/-- The bytes of a value node, for the comparison at the end of `insert`. -/
def bytes? : Node → Option (List UInt8)
  | .value v => some v
  | _ => none

/-- `insert` into `nil`, the case the source reaches for the two halves of a split short node:
the value itself when the key is used up, a short node to it otherwise. -/
def insertNil (key : List Nibble) (value : Node) : Bool × Node :=
  match key with
  | [] => (true, value)
  | _ :: _ => (true, .short key value)

/-- `insert`: the node with `value` put under `key`, and whether anything changed. -/
def insert (n : Node) (key : List Nibble) (value : Node) : Bool × Node :=
  match n, key with
  | .value v, [] => (value.bytes? != some v, value)
  | _, [] => (true, value)
  | .short k val, key =>
      let matchlen := prefixLen key k
      -- the whole short key matches: keep the node and insert below it
      if matchlen = k.length then
        let (dirty, nn) := val.insert (key.drop matchlen) value
        if !dirty then (false, .short k val) else (true, .short k nn)
      else
        -- branch out at the nibble where the keys differ
        let branch : Nibble → Node :=
          Function.update
            (Function.update (fun _ => .nil) (k.getD matchlen 0)
              (insertNil (k.drop (matchlen + 1)) val).2)
            (key.getD matchlen 0) (insertNil (key.drop (matchlen + 1)) value).2
        if matchlen = 0 then (true, .full branch)
        else (true, .short (key.take matchlen) (.full branch))
  | .full children, i :: rest =>
      let (dirty, nn) := (children i).insert rest value
      if !dirty then (false, .full children)
      else (true, .full (Function.update children i nn))
  | .nil, key => (true, .short key value)
  -- a value node with key left over: the source panics (invalid node)
  | .value v, _ :: _ => (false, .value v)

/-- One turn of the loop of `delete` over the children of a full node. Once two children are
found the source breaks out of the loop; here the later turns keep `-2`. -/
def childPosStep (children : Nibble → Node) (pos : ℤ) (i : Nibble) : ℤ :=
  match children i with
  | .nil => pos
  | _ => if pos = -1 then (i : ℤ) else -2

/-- The loop of `delete` over the children of a full node: the index of the only child that is
not `nil`, `-1` if there is none and `-2` if there are two or more. -/
def childPos (children : Nibble → Node) : ℤ :=
  (List.finRange 17).foldl (childPosStep children) (-1)

/-- The short node that replaces a full node left with the single child `cld` at `pos`: a short
child is merged into it with `pos` put in front of its key. -/
def reduceShort (pos : Nibble) (cld : Node) : Node :=
  if pos ≠ 16 then
    match cld with
    | .short ck cv => .short (pos :: ck) cv
    | _ => .short [pos] cld
  else .short [pos] cld

/-- The reduction at the end of `delete` for a full node that lost a child: a full node left
with one child becomes a short node, one with two or more stays. -/
def reduceFull (children : Nibble → Node) : Node :=
  let pos := childPos children
  if 0 ≤ pos then reduceShort (Fin.ofNat 17 pos.toNat) (children (Fin.ofNat 17 pos.toNat))
  else .full children

/-- `concat`: a fresh slice holding the two keys one after the other. -/
def concat (s1 s2 : List Nibble) : List Nibble := s1 ++ s2

/-- The short node `delete` leaves over a changed child: a short child is merged into it, so
that no short node points at another. -/
def mergeShort (k : List Nibble) (child : Node) : Node :=
  match child with
  | .short ck cv => .short (concat k ck) cv
  | _ => .short k child

/-- `delete`: the node with `key` removed, in minimal form, and whether anything changed. -/
def delete (n : Node) (key : List Nibble) : Bool × Node :=
  match n with
  | .short k val =>
      let matchlen := prefixLen key k
      if matchlen < k.length then (false, .short k val)
      else if matchlen = key.length then (true, .nil)
      else
        let (dirty, child) := val.delete (key.drop k.length)
        if !dirty then (false, .short k val) else (true, mergeShort k child)
  | .full children =>
      match key with
      | i :: rest =>
          let (dirty, nn) := (children i).delete rest
          if !dirty then (false, .full children)
          else
            let children' := Function.update children i nn
            -- a full node keeps at least two children unless the new one is `nil`
            match nn with
            | .nil => (true, reduceFull children')
            | _ => (true, .full children')
      -- not reached on a terminated key (the source would index past the key)
      | [] => (false, .full children)
  | .value _ => (true, .nil)
  | .nil => (false, .nil)

end Node

end Classzz.Trie

namespace Classzz

/-- `Trie`: its root node. -/
structure Trie where
  root : Trie.Node

namespace Trie

/-- `New` with the empty root. -/
def empty : Trie := ⟨.nil⟩

/-- `TryGet`. -/
def tryGet (t : Trie) (key : List UInt8) : Option (List UInt8) :=
  t.root.tryGet (keybytesToHex key)

/-- `TryUpdate`: an empty value deletes the key. -/
def tryUpdate (t : Trie) (key value : List UInt8) : Trie :=
  let k := keybytesToHex key
  if value.length ≠ 0 then ⟨(t.root.insert k (.value value)).2⟩
  else ⟨(t.root.delete k).2⟩

/-- `TryDelete`. -/
def tryDelete (t : Trie) (key : List UInt8) : Trie :=
  ⟨(t.root.delete (keybytesToHex key)).2⟩

end Trie

end Classzz
