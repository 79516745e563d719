import Classzz.Trie.Insert
import Classzz.Trie.Delete
import Classzz.Lib.Run

/-!
# The trie holds a finite map

A trie stands for the map from byte keys to values that `TryGet` reads off it. `Holds t m`
says that `t` is well formed and answers every key as `m`. Every `TryUpdate` and `TryDelete`
keeps it, with the map changed as the operation says (`Holds.run`): `insert_spec` and
`delete_spec` at the root, where `keybytesToHex` gives every key in terminated form and keeps
different keys apart. From the empty trie, whatever operations follow, the trie answers every
key as the map built by the same operations from the empty map (`tryGet_foldl_run`).
-/

namespace Classzz.Trie

open Sentinel

section Keys

theorem terminator_notMem_byteNibbles (b : UInt8) : (16 : Nibble) ∉ byteNibbles b := by
  have := b.toNat_lt
  simp only [byteNibbles, List.mem_cons, List.not_mem_nil, or_false, not_or, Fin.ext_iff]
  omega

theorem byteNibbles_inj {a b : UInt8} (h : byteNibbles a = byteNibbles b) : a = b := by
  simp only [byteNibbles, List.cons.injEq, Fin.mk.injEq, and_true] at h
  apply UInt8.toNat_inj.mp
  omega

theorem flatMap_byteNibbles_inj :
    ∀ {a b : List UInt8}, a.flatMap byteNibbles = b.flatMap byteNibbles → a = b
  | [], [], _ => rfl
  | [], y :: b, h => by simp [byteNibbles] at h
  | x :: a, [], h => by simp [byteNibbles] at h
  | x :: a, y :: b, h => by
    rw [List.flatMap_cons, List.flatMap_cons] at h
    obtain ⟨hxy, hab⟩ := List.append_inj h (by simp [byteNibbles])
    rw [byteNibbles_inj hxy, flatMap_byteNibbles_inj hab]

/-- Different keys have different hex forms. -/
theorem keybytesToHex_inj {a b : List UInt8} : keybytesToHex a = keybytesToHex b ↔ a = b :=
  ⟨fun h => flatMap_byteNibbles_inj (List.append_cancel_right h), fun h => h ▸ rfl⟩

/-- A key in hex form ends in the terminator, which is nowhere else in it. -/
theorem terminated_keybytesToHex (str : List UInt8) : Terminated 16 (keybytesToHex str) :=
  ⟨str.flatMap byteNibbles, by simp [List.mem_flatMap, terminator_notMem_byteNibbles], rfl⟩

theorem after_keybytesToHex (str : List UInt8) : After 16 False (keybytesToHex str) :=
  after_false_iff.mpr (terminated_keybytesToHex str)

end Keys

/-- The map a trie holds: its root is well formed and it answers every key as `m`. -/
structure Holds (t : Trie) (m : List UInt8 → Option (List UInt8)) : Prop where
  wf : t.root.WF False
  get : ∀ key, t.tryGet key = m key

/-- An operation on a trie: `TryUpdate` or `TryDelete`. -/
inductive Op where
  | update (key value : List UInt8)
  | delete (key : List UInt8)

namespace Op

/-- The operation on the trie. -/
def run (t : Trie) : Op → Trie
  | .update key value => t.tryUpdate key value
  | .delete key => t.tryDelete key

/-- The same operation on a finite map from keys to values; an empty value removes the key. -/
def apply (m : List UInt8 → Option (List UInt8)) : Op → List UInt8 → Option (List UInt8)
  | .update key value => Function.update m key (if value = [] then none else some value)
  | .delete key => Function.update m key none

end Op

section Holds

variable {t : Trie} {m : List UInt8 → Option (List UInt8)}

theorem holds_empty : Holds empty fun _ => none := ⟨trivial, fun _ => rfl⟩

/-- A root that updates the hex form of `key` to `o` holds the map with `key` set to `o`. -/
theorem Holds.of_updates (h : Holds t m) {root : Node} (hwf : root.WF False) {key : List UInt8}
    {o : Option (List UInt8)} (hup : Node.Updates False t.root root (keybytesToHex key) o) :
    Holds ⟨root⟩ (Function.update m key o) := by
  refine ⟨hwf, fun key' => ?_⟩
  have hget := hup (keybytesToHex key') (after_keybytesToHex key')
  simp only [keybytesToHex_inj] at hget
  rw [Function.update_apply]
  split_ifs at hget ⊢
  · exact hget
  · exact hget.trans (h.get key')

theorem Holds.tryUpdate (h : Holds t m) (key value : List UInt8) :
    Holds (t.tryUpdate key value) (Function.update m key (if value = [] then none else some value)) := by
  unfold Trie.tryUpdate
  dsimp only
  by_cases hv : value = []
  · -- an empty value deletes the key
    subst hv
    rw [if_neg (by simp), if_pos rfl]
    obtain ⟨hwf, hup⟩ := Node.delete_spec h.wf (after_keybytesToHex key)
    exact h.of_updates hwf hup
  · rw [if_pos (mt List.length_eq_zero_iff.mp hv), if_neg hv]
    obtain ⟨hwf, hup⟩ := Node.insert_spec (v := value) h.wf (after_keybytesToHex key)
    exact h.of_updates hwf hup

theorem Holds.tryDelete (h : Holds t m) (key : List UInt8) :
    Holds (t.tryDelete key) (Function.update m key none) := by
  obtain ⟨hwf, hup⟩ := Node.delete_spec h.wf (after_keybytesToHex key)
  exact h.of_updates hwf hup

/-- Each operation keeps a trie holding the map it makes. -/
theorem Holds.run (h : Holds t m) : ∀ op : Op, Holds (op.run t) (op.apply m)
  | .update key value => h.tryUpdate key value
  | .delete key => h.tryDelete key

/-- Every run of operations keeps a trie holding the map the same operations make. -/
theorem Holds.foldl (h : Holds t m) (ops : List Op) :
    Holds (ops.foldl Op.run t) (ops.foldl Op.apply m) :=
  Run.foldl_simulation Holds (fun _ _ op h => h.run op) ops h

end Holds

/-- After any operations from the empty trie, `TryGet` answers every key as the map the same
operations build from the empty map. -/
theorem tryGet_foldl_run (ops : List Op) (key : List UInt8) :
    (ops.foldl Op.run empty).tryGet key = ops.foldl Op.apply (fun _ => none) key :=
  (holds_empty.foldl ops).get key

example :
    ([Op.update [1] [5], .update [1, 2] [6], .update [3] [7], .delete [1], .update [3] []].foldl
      Op.run empty).tryGet [1, 2] = some [6] := by decide

end Classzz.Trie
