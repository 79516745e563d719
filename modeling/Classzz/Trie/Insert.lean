import Classzz.Trie.Lookup

/-!
# `insert` puts one key

`insert_spec`: below a path, `insert` keeps a well-formed node well formed and updates the key
it is given to the value, leaving every other key as it was. The dirty flag it returns only
says whether anything changed (`insert_snd_of_not_dirty`), so the equations below read the
node it returns without it. The one case with an argument of its own is the split of a short
node at the first nibble where its key and the new one differ (`insert_branch_spec`): the
branch holds the old node's rest at one slot and the new value at the other.
-/

namespace Classzz.Trie

open Sentinel

namespace Node

theorem bytes?_eq_some {n : Node} {v : List UInt8} (h : n.bytes? = some v) : n = .value v := by
  cases n <;> simp_all [bytes?]

/-- What `insert` reports as clean is the node it was given. -/
theorem insert_snd_of_not_dirty (n : Node) (key : List Nibble) (value : Node) :
    (n.insert key value).1 = false → (n.insert key value).2 = n := by
  fun_cases insert n key value
  case case1 v => exact fun h => bytes?_eq_some (by simpa using h)
  all_goals simp

section Equations

variable {key rest : List Nibble} {value : Node}

@[simp] theorem insert_nil_key (n : Node) : (n.insert [] value).2 = value := by
  cases n <;> rfl

theorem insert_nil : Node.nil.insert key value = insertNil key value := by
  cases key <;> rfl

theorem insert_full_cons (children : Nibble → Node) (i : Nibble) :
    ((full children).insert (i :: rest) value).2 =
      full (Function.update children i ((children i).insert rest value).2) := by
  simp only [insert]
  rcases h : (children i).insert rest value with ⟨_ | _, nn⟩
  · have hnn : nn = children i := by
      simpa [h] using insert_snd_of_not_dirty (children i) rest value
    simp [hnn]
  · rfl

theorem prefixLen_append_cons {p a b : List Nibble} {c d : Nibble} (hcd : c ≠ d) :
    prefixLen (p ++ c :: a) (p ++ d :: b) = p.length := by
  induction p with
  | nil => simp [prefixLen, hcd]
  | cons x p ih => simp [prefixLen, ih]

theorem insert_short_of_prefixLen_eq {k : List Nibble} {val : Node} (hkey : key ≠ [])
    (hm : prefixLen key k = k.length) :
    ((short k val).insert key value).2 = short k (val.insert (key.drop k.length) value).2 := by
  obtain ⟨c, key, rfl⟩ := List.exists_cons_of_ne_nil hkey
  simp only [insert, hm]
  rcases h : val.insert ((c :: key).drop k.length) value with ⟨_ | _, nn⟩
  · have hnn : nn = val := by
      simpa [h] using insert_snd_of_not_dirty val ((c :: key).drop k.length) value
    simp [hnn]
  · rfl

/-- The full node `insert` puts where a short node's key and the new key part: the short
node's rest at its nibble `d`, the new key's rest at its nibble `c`. -/
def splitBranch (d : Nibble) (kRest : List Nibble) (val : Node) (c : Nibble)
    (keyRest : List Nibble) (value : Node) : Nibble → Node :=
  Function.update (Function.update (fun _ => nil) d (insertNil kRest val).2) c
    (insertNil keyRest value).2

theorem insert_short_branch {p keyRest kRest : List Nibble} {c d : Nibble} (hcd : c ≠ d)
    {val : Node} :
    ((short (p ++ d :: kRest) val).insert (p ++ c :: keyRest) value).2 =
      if p = [] then full (splitBranch d kRest val c keyRest value)
      else short p (full (splitBranch d kRest val c keyRest value)) := by
  simp [insert, prefixLen_append_cons hcd, splitBranch, apply_ite Prod.snd]

end Equations

section Spec

variable {term : Prop} {q : List Nibble} {v : List UInt8}

/-- Where the key is used up, the new value is all that is left to answer. -/
theorem insert_nil_key_spec {n : Node} (hkey : After (16 : Nibble) term []) :
    WF term (n.insert [] (.value v)).2 ∧ Updates term n (n.insert [] (.value v)).2 [] (some v) := by
  rw [insert_nil_key]
  refine ⟨hkey.of_nil, fun r hr => ?_⟩
  obtain rfl := hr.1 hkey.of_nil
  simp

theorem wf_insertNil_value (hq : After 16 term q) : WF term (insertNil q (.value v)).2 := by
  rcases q with _ | ⟨e, q⟩
  · exact hq.of_nil
  · have ht : ¬ term := fun ht => List.cons_ne_nil e q (hq.1 ht)
    exact ⟨ht, (hq.2 ht).segment, (hq.2 ht).mem⟩

/-- The short node's rest, hung from its nibble of a new branch. -/
theorem wf_insertNil {d : Nibble} {x : Node} (hs : Segment 16 (d :: q)) (hx : WF (16 ∈ d :: q) x) :
    WF (16 ∈ [d]) (insertNil q x).2 := by
  rcases q with _ | ⟨e, q⟩
  · exact hx
  · obtain ⟨hd, hs'⟩ := hs.cons (List.cons_ne_nil e q)
    have hmem : (16 ∈ d :: e :: q) = (16 ∈ e :: q) := by simp [Ne.symm hd]
    rw [hmem] at hx
    exact ⟨by simpa [eq_comm] using hd, hs', hx⟩

theorem updates_insertNil_value (hq : After 16 term q) :
    Updates term nil (insertNil q (.value v)).2 q (some v) := by
  rcases q with _ | ⟨e, q⟩
  · intro r hr
    obtain rfl := hr.1 hq.of_nil
    simp [insertNil]
  · have ht : ¬ term := fun ht => List.cons_ne_nil e q (hq.1 ht)
    have hmem : 16 ∈ e :: q := (hq.2 ht).mem
    -- a new leaf: a short node to the value, which answers only the empty rest
    have hleaf : Updates (16 ∈ e :: q) nil (.value v) [] (some v) := by
      intro r hr
      obtain rfl := hr.1 hmem
      simp
    have := (hleaf.short ht).congr_left (x := nil) (fun r => by simp [tryGet_short])
    simpa [insertNil] using this

/-- Splitting a short node where its key and the new key part. -/
theorem insert_branch_spec {p keyRest kRest : List Nibble} {c d : Nibble} (hcd : c ≠ d)
    {val : Node} (ht : ¬ term) (hs : Segment 16 (p ++ d :: kRest))
    (hval : WF (16 ∈ p ++ d :: kRest) val) (hkey : Terminated 16 (p ++ c :: keyRest)) :
    WF term ((short (p ++ d :: kRest) val).insert (p ++ c :: keyRest) (.value v)).2 ∧
      Updates term (short (p ++ d :: kRest) val)
        ((short (p ++ d :: kRest) val).insert (p ++ c :: keyRest) (.value v)).2
        (p ++ c :: keyRest) (some v) := by
  have hp : 16 ∉ p := hkey.notMem_of_append (List.cons_ne_nil c keyRest)
  have hc : After 16 (16 ∈ [c]) keyRest :=
    after_of_terminated_append (k := [c]) ((terminated_append_iff hp).mp hkey)
  have hd : Segment 16 (d :: kRest) := (segment_append_iff hp).mp hs
  have hmem : (16 ∈ p ++ d :: kRest) = (16 ∈ d :: kRest) := by simp [hp]
  rw [hmem] at hval
  -- the branch: the new value at `c`, the short node's rest at `d`, nothing elsewhere
  have hbranch : ∀ i, WF (16 ∈ [i]) (splitBranch d kRest val c keyRest (.value v) i) := by
    intro i
    by_cases hic : i = c
    · subst hic
      rw [splitBranch, Function.update_self]
      exact wf_insertNil_value hc
    · rw [splitBranch, Function.update_of_ne hic]
      by_cases hid : i = d
      · subst hid
        rw [Function.update_self]
        exact wf_insertNil hd hval
      · rw [Function.update_of_ne hid]
        trivial
  have hup : Updates (16 ∈ p) (full (Function.update (fun _ => nil) d (insertNil kRest val).2))
      (full (splitBranch d kRest val c keyRest (.value v))) (c :: keyRest) (some v) := by
    apply Updates.full hp
    rw [Function.update_of_ne hcd]
    exact updates_insertNil_value hc
  -- before the split, the short node answers as the branch with its rest alone
  have hold : ∀ r, (short p (full (Function.update (fun _ => nil) d (insertNil kRest val).2))).tryGet r =
      (short (p ++ d :: kRest) val).tryGet r := by
    intro r
    rw [← tryGet_short_short]
    apply tryGet_short_congr
    intro r'
    rw [tryGet_full_single, tryGet_short_congr (fun _ => tryGet_insertNil), tryGet_short_short]
    rfl
  rw [insert_short_branch hcd]
  refine ⟨?_, ((hup.short ht).congr_left fun r => (hold r).symm).congr fun r => ?_⟩
  · split_ifs
    · exact ⟨ht, hbranch⟩
    · exact ⟨ht, fun h => absurd h hp, hp, hbranch⟩
  · split_ifs with hpn
    · subst hpn
      simp
    · rfl

/-- `insert` keeps a node well formed and puts the value under the key. -/
theorem insert_spec {n : Node} (hn : WF term n) {key : List Nibble} (hkey : After 16 term key) :
    WF term (n.insert key (.value v)).2 ∧ Updates term n (n.insert key (.value v)).2 key (some v) := by
  induction n generalizing term key with
  | nil =>
    rw [insert_nil]
    exact ⟨wf_insertNil_value hkey, updates_insertNil_value hkey⟩
  | value w =>
    rcases key with _ | ⟨c, key⟩
    · exact insert_nil_key_spec hkey
    · exact absurd (hkey.1 hn) (List.cons_ne_nil c key)
  | short k val ih =>
    rcases key with _ | ⟨c, key⟩
    · exact insert_nil_key_spec hkey
    obtain ⟨ht, hs, hval⟩ := hn
    have hterm : Terminated 16 (c :: key) := hkey.2 ht
    obtain ⟨p, a, b, hka, rfl, hm, hd⟩ := prefixLen_split (c :: key) k
    rcases b with _ | ⟨d, kRest⟩
    · -- the whole short key matches: insert below it
      simp only [List.append_nil] at hm hs hval ⊢
      rw [insert_short_of_prefixLen_eq (List.cons_ne_nil c key) hm, hka, List.drop_left]
      rw [hka] at hterm
      obtain ⟨hwf, hup⟩ := ih hval (after_of_terminated_append hterm)
      exact ⟨⟨ht, hs, hwf⟩, hup.short ht⟩
    rcases a with _ | ⟨c', keyRest⟩
    · -- the key cannot end inside the short key, which the terminator can only end
      rw [List.append_nil] at hka
      rw [hka] at hterm
      exact absurd hs (hterm.not_segment_append (List.cons_ne_nil d kRest))
    · rw [hka] at hterm ⊢
      exact insert_branch_spec (hd c' d rfl rfl) ht hs hval hterm
  | full children ih =>
    rcases key with _ | ⟨c, key⟩
    · exact insert_nil_key_spec hkey
    obtain ⟨ht, hcs⟩ := hn
    rw [insert_full_cons]
    obtain ⟨hwf, hup⟩ := ih c (hcs c) (after_of_terminated_append (k := [c]) (hkey.2 ht))
    exact ⟨wf_full_update ht hcs hwf, hup.full ht⟩

end Spec

end Node

end Classzz.Trie
