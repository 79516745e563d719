import Mathlib.Data.List.AList

/-!
# A least-recently-used cache

The `simplelru.LRU` of `hashicorp/golang-lru`, which `lru.Cache` wraps: a
size, and one entry per key from the most recently used to the least. `Add`
moves a key it has to the front with the new value; a new key goes in front,
and when that makes more entries than the size the oldest is evicted. `Get`
moves a key it finds to the front.

Neither operation makes an entry up: after `add k v` every entry is `(k, v)`
or was there before (`mem_add`), `get` only reorders (`mem_get`), and what
`get` finds is an entry (`get_eq_some`). So a property of every key and value
added holds of every value found (`Cache.All`). A cache whose values are read
through a map (`mapVal`) answers `get` and `add` as the map of the cache does
(`get_mapVal`, `add_mapVal`).
-/

namespace Lru

/-- `simplelru.LRU`: its size, and its entries with the most recently used
first, as its `items` map and its `evictList` hold them together. -/
structure Cache (κ ν : Type*) where
  size : ℕ
  entries : AList fun _ : κ => ν

variable {κ ν : Type*}

/-- `lru.New(size)`. -/
def new (size : ℕ) : Cache κ ν :=
  ⟨size, ∅⟩

namespace Cache

/-- `removeOldest`: the back of the eviction list goes. -/
def removeOldest (c : Cache κ ν) : Cache κ ν :=
  { c with entries := ⟨c.entries.entries.dropLast,
      c.entries.nodupKeys.sublist (List.dropLast_sublist _)⟩ }

/-- Every entry of the cache has the property `P`. -/
def All (P : κ → ν → Prop) (c : Cache κ ν) : Prop :=
  ∀ e ∈ c.entries.entries, P e.1 e.2

theorem mem_removeOldest {c : Cache κ ν} {e : Σ _ : κ, ν}
    (h : e ∈ c.removeOldest.entries.entries) : e ∈ c.entries.entries :=
  List.dropLast_subset _ h

theorem all_new {P : κ → ν → Prop} (size : ℕ) : (new size : Cache κ ν).All P := by
  intro e he
  cases he

variable [DecidableEq κ]

/-- `Get`: a key found moves to the front. -/
def get (c : Cache κ ν) (k : κ) : Option ν × Cache κ ν :=
  match c.entries.lookup k with
  | some v => (some v, { c with entries := c.entries.insert k v })
  | none => (none, c)

/-- `Add`: a key there moves to the front with the new value; a new key goes
in front, evicting the oldest entry past the size. -/
def add (c : Cache κ ν) (k : κ) (v : ν) : Cache κ ν :=
  if k ∈ c.entries then { c with entries := c.entries.insert k v }
  else
    let c' : Cache κ ν := { c with entries := c.entries.insert k v }
    if c'.entries.entries.length > c.size then c'.removeOldest else c'

theorem mem_insert {c : Cache κ ν} {k : κ} {v : ν} {e : Σ _ : κ, ν}
    (h : e ∈ (c.entries.insert k v).entries) : e = ⟨k, v⟩ ∨ e ∈ c.entries.entries := by
  rw [AList.entries_insert, List.mem_cons] at h
  exact h.imp_right fun he => (List.kerase_sublist k _).subset he

theorem mem_add {c : Cache κ ν} {k : κ} {v : ν} {e : Σ _ : κ, ν}
    (h : e ∈ (c.add k v).entries.entries) : e = ⟨k, v⟩ ∨ e ∈ c.entries.entries := by
  unfold add at h
  dsimp only at h
  split_ifs at h
  · exact mem_insert h
  · exact mem_insert (mem_removeOldest h)
  · exact mem_insert h

theorem mem_get {c : Cache κ ν} {k : κ} {e : Σ _ : κ, ν}
    (h : e ∈ (c.get k).2.entries.entries) : e ∈ c.entries.entries := by
  unfold get at h
  split at h
  · next v hv =>
    rcases mem_insert h with rfl | he
    · exact AList.mem_lookup_iff.mp hv
    · exact he
  · exact h

theorem get_eq_some {c : Cache κ ν} {k : κ} {v : ν} (h : (c.get k).1 = some v) :
    ⟨k, v⟩ ∈ c.entries.entries := by
  unfold get at h
  split at h
  · next v' hv' =>
    cases h
    exact AList.mem_lookup_iff.mp hv'
  · cases h

section All

variable {P : κ → ν → Prop}

theorem All.add {c : Cache κ ν} (hc : c.All P) {k : κ} {v : ν} (hkv : P k v) :
    (c.add k v).All P := by
  intro e he
  rcases mem_add he with rfl | he
  · exact hkv
  · exact hc e he

theorem All.get {c : Cache κ ν} (hc : c.All P) (k : κ) : (c.get k).2.All P :=
  fun e he => hc e (mem_get he)

theorem All.get_eq_some {c : Cache κ ν} (hc : c.All P) {k : κ} {v : ν}
    (h : (c.get k).1 = some v) : P k v :=
  hc _ (Cache.get_eq_some h)

end All

end Cache

/-! ### A cache read through a map of its values -/

section MapVal

variable {μ : Type*}

/-- An entry with its value mapped by `f`. -/
def mapEntry (f : ν → μ) (e : Σ _ : κ, ν) : Σ _ : κ, μ :=
  ⟨e.1, f e.2⟩

theorem keys_map_mapEntry (f : ν → μ) (l : List (Σ _ : κ, ν)) :
    (l.map (mapEntry f)).keys = l.keys := by
  simp [List.keys, List.map_map, Function.comp_def, mapEntry]

section Lists

variable [DecidableEq κ] (f : ν → μ)

theorem dlookup_map_mapEntry (k : κ) :
    ∀ l : List (Σ _ : κ, ν), (l.map (mapEntry f)).dlookup k = (l.dlookup k).map f
  | [] => rfl
  | ⟨k', v⟩ :: l => by
    by_cases hk : k = k'
    · subst hk
      simp [mapEntry, List.dlookup_cons_eq]
    · rw [List.map_cons, List.dlookup_cons_ne _ (mapEntry f ⟨k', v⟩) hk,
        List.dlookup_cons_ne l ⟨k', v⟩ hk, dlookup_map_mapEntry k l]

theorem kerase_map_mapEntry (k : κ) :
    ∀ l : List (Σ _ : κ, ν), (l.map (mapEntry f)).kerase k = (l.kerase k).map (mapEntry f)
  | [] => rfl
  | ⟨k', v⟩ :: l => by
    by_cases hk : k = k'
    · subst hk
      simp [mapEntry, List.kerase_cons_eq]
    · rw [List.map_cons, @List.kerase_cons_ne _ _ _ k (mapEntry f ⟨k', v⟩) _ hk,
        @List.kerase_cons_ne _ _ _ k ⟨k', v⟩ l hk, kerase_map_mapEntry k l, List.map_cons]

end Lists

namespace Cache

/-- The cache with every value mapped by `f`, keys and order kept. -/
def mapVal (f : ν → μ) (c : Cache κ ν) : Cache κ μ :=
  ⟨c.size, ⟨c.entries.entries.map (mapEntry f), by
    rw [List.NodupKeys, keys_map_mapEntry]
    exact c.entries.nodupKeys⟩⟩

@[simp] theorem entries_mapVal (f : ν → μ) (c : Cache κ ν) :
    (c.mapVal f).entries.entries = c.entries.entries.map (mapEntry f) := rfl

/-- Maps that agree on the values of the cache give the same cache. -/
theorem mapVal_congr {f f' : ν → μ} {c : Cache κ ν} (h : ∀ e ∈ c.entries.entries, f e.2 = f' e.2) :
    c.mapVal f = c.mapVal f' := by
  have hentries : c.entries.entries.map (mapEntry f) = c.entries.entries.map (mapEntry f') :=
    List.map_congr_left fun e he => by rw [mapEntry, mapEntry, h e he]
  unfold mapVal
  congr 1
  exact AList.ext hentries

theorem mem_mapVal_iff (f : ν → μ) (c : Cache κ ν) (k : κ) :
    k ∈ (c.mapVal f).entries ↔ k ∈ c.entries := by
  show k ∈ (c.mapVal f).entries.keys ↔ k ∈ c.entries.keys
  rw [AList.keys, AList.keys, entries_mapVal, keys_map_mapEntry]

variable [DecidableEq κ]

theorem insert_mapVal (f : ν → μ) (c : Cache κ ν) (k : κ) (v : ν) :
    ((c.mapVal f).entries.insert k (f v)).entries =
      (c.entries.insert k v).entries.map (mapEntry f) := by
  rw [AList.entries_insert, AList.entries_insert, entries_mapVal, kerase_map_mapEntry,
    List.map_cons]
  rfl

theorem get_mapVal (f : ν → μ) (c : Cache κ ν) (k : κ) :
    (c.mapVal f).get k = ((c.get k).1.map f, (c.get k).2.mapVal f) := by
  have hlookup : (c.mapVal f).entries.lookup k = (c.entries.lookup k).map f :=
    dlookup_map_mapEntry f k _
  unfold get
  rw [hlookup]
  cases c.entries.lookup k with
  | none => rfl
  | some v =>
    refine Prod.ext rfl ?_
    simp only [Option.map_some]
    unfold mapVal
    congr 1
    exact AList.ext (insert_mapVal f c k v)

theorem add_mapVal (f : ν → μ) (c : Cache κ ν) (k : κ) (v : ν) :
    (c.mapVal f).add k (f v) = (c.add k v).mapVal f := by
  have hinsert : (⟨(c.mapVal f).size, (c.mapVal f).entries.insert k (f v)⟩ : Cache κ μ) =
      (⟨c.size, c.entries.insert k v⟩ : Cache κ ν).mapVal f := by
    unfold mapVal
    congr 1
    exact AList.ext (insert_mapVal f c k v)
  unfold add
  by_cases hk : k ∈ c.entries
  · rw [if_pos ((mem_mapVal_iff f c k).mpr hk), if_pos hk]
    exact hinsert
  · rw [if_neg (mt (mem_mapVal_iff f c k).mp hk), if_neg hk]
    dsimp only
    -- the eviction test reads the length, which the map keeps
    have hlen : ((c.mapVal f).entries.insert k (f v)).entries.length =
        (c.entries.insert k v).entries.length := by
      rw [insert_mapVal, List.length_map]
    by_cases hgt : (c.entries.insert k v).entries.length > c.size
    · rw [if_pos (hlen ▸ hgt), if_pos hgt, hinsert]
      unfold removeOldest mapVal
      congr 1
      exact AList.ext (List.map_dropLast).symm
    · rw [if_neg (hlen ▸ hgt), if_neg hgt]
      exact hinsert

end Cache

end MapVal

end Lru
