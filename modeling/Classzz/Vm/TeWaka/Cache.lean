import Classzz.Vm.TeWaka.Codec
import Classzz.Vm.TeWaka.State
import Classzz.Lib.LruCache

/-!
# The registry cache `IC`

`Save` writes the encoding of the registry to the Te Waka slot and puts a
copy in the global LRU cache `IC`, under the `RlpHash` of the bytes. `Load`
reads the slot: on a hit it returns a copy of the cached registry, and on a
miss it decodes the bytes and caches a copy of what it decoded. Every
`StateDB` shares the cache, so the state of a block that is never committed
fills it too.

Every entry of the cache is a registry whose encoding hashes to its key
(`CacheSound`): `Save` adds the registry it encoded, a miss adds the registry
it decoded, whose encoding the bytes are (`decodeRLP_sound`), and the LRU
only keeps or drops what was added. So where the hash tells apart the bytes it
is given, a hit returns the registry the bytes decode to, and `Load` returns
what a miss would (`load_eq_loadMiss`). `HeapCache.lean` runs the cache over
the heap the registries live on, where a loaded value is changed in place.

Keccak-256 is a parameter. Two byte strings of one hash would share an entry,
so the result asks the hash to separate the bytes the run hashes.

The value model of `StateDB` keeps the registry itself in the slot. Bytes
that hold the encoding of that registry load to it (`load_refines`), which is
what makes that model faithful.
-/

namespace Classzz.Vm

/-- Why `Load` fails. -/
inductive LoadError where
  /-- `"Load data = 0"`. -/
  | loadDataEmpty
  /-- `"Invalid ImpawnImpl entry RLP %s"`, with the decoder's error, whose text
  is not modelled. -/
  | invalidEntryRLP
  deriving DecidableEq, Repr

/-- `PledgeCache`: registries by the hash of their bytes. -/
abbrev PledgeCache := Lru.Cache Hash TeWakaImpl

/-- `newPledgeCache`, from which `init` makes `IC`: twenty entries. -/
def newPledgeCache : PledgeCache :=
  Lru.new 20

/-- What `Load` returns on a miss: the registry the bytes decode to. -/
def loadMiss (data : Bytes) : Except LoadError TeWakaImpl :=
  if data.length = 0 then .error .loadDataEmpty
  else
    match TeWakaImpl.decodeRLP data with
    | none => .error .invalidEntryRLP
    | some temp => .ok temp

section Cache

variable (keccak256 : Bytes → Hash)

/-- `common.RlpHash(data)`: Keccak-256 of the RLP encoding of the byte slice. -/
def rlpHash (data : Bytes) : Hash :=
  keccak256 (Rlp.encode (.bytes data))

/-- `TeWakaImpl.Save`: the bytes it writes with `SetTeWakaState`, and the cache
after; `none` where the encoding fails and `log.Crit` ends the process. -/
def TeWakaImpl.save (ic : PledgeCache) (twi : TeWakaImpl) : Option (Bytes × PledgeCache) := do
  let data ← twi.encodeRLP
  let hash := rlpHash keccak256 data
  pure (data, ic.add hash twi.clone)

/-- `TeWakaImpl.Load` of the bytes `GetTeWakaState` returns. -/
def TeWakaImpl.load (ic : PledgeCache) (data : Bytes) :
    Except LoadError TeWakaImpl × PledgeCache :=
  if data.length = 0 then (.error .loadDataEmpty, ic)
  else
    let hash := rlpHash keccak256 data
    match ic.get hash with
    | (some impawn, ic) => (.ok impawn.clone, ic)
    | (none, ic) =>
      match TeWakaImpl.decodeRLP data with
      | none => (.error .invalidEntryRLP, ic)
      | some temp => (.ok temp, ic.add hash temp.clone)

/-- Every entry of the cache is a registry whose encoding, one of the byte
strings `D`, hashes to its key. -/
def CacheSound (D : List Bytes) (ic : PledgeCache) : Prop :=
  ic.All fun hash twi => ∃ data ∈ D, rlpHash keccak256 data = hash ∧ twi.encodeRLP = some data

variable {keccak256}

theorem save_eq_some {ic ic' : PledgeCache} {twi : TeWakaImpl} {data : Bytes} :
    TeWakaImpl.save keccak256 ic twi = some (data, ic') ↔
      twi.encodeRLP = some data ∧ ic' = ic.add (rlpHash keccak256 data) twi := by
  simp only [TeWakaImpl.save, Option.bind_eq_bind, Option.bind_eq_some_iff, Option.pure_def,
    Option.some.injEq, Prod.mk.injEq, TeWakaImpl.clone_eq]
  constructor
  · rintro ⟨d, hd, rfl, rfl⟩
    exact ⟨hd, rfl⟩
  · rintro ⟨hd, rfl⟩
    exact ⟨data, hd, rfl, rfl⟩

theorem loadMiss_sound {data : Bytes} {twi : TeWakaImpl} (h : loadMiss data = .ok twi) :
    twi.encodeRLP = some data := by
  unfold loadMiss at h
  split_ifs at h
  split at h
  · cases h
  · next temp hdec =>
    cases h
    exact decodeRLP_sound hdec

section Sound

variable {D : List Bytes} {ic ic' : PledgeCache}

theorem CacheSound.mono (hic : CacheSound keccak256 D ic) {D' : List Bytes} (hD : D ⊆ D') :
    CacheSound keccak256 D' ic :=
  fun e he =>
    let ⟨data, hdata, hhash, henc⟩ := hic e he
    ⟨data, hD hdata, hhash, henc⟩

theorem CacheSound.save (hic : CacheSound keccak256 D ic) {twi : TeWakaImpl} {data : Bytes}
    (h : TeWakaImpl.save keccak256 ic twi = some (data, ic')) (hD : data ∈ D) :
    CacheSound keccak256 D ic' := by
  obtain ⟨hdata, rfl⟩ := save_eq_some.mp h
  exact hic.add ⟨data, hD, rfl, hdata⟩

theorem CacheSound.load (hic : CacheSound keccak256 D ic) {data : Bytes} (hD : data ∈ D) :
    CacheSound keccak256 D (TeWakaImpl.load keccak256 ic data).2 := by
  unfold TeWakaImpl.load
  split_ifs
  · exact hic
  · dsimp only
    -- the lookup only reorders, so the cache after it is sound whatever it found
    have hget := hic.get (rlpHash keccak256 data)
    split
    · next impawn ic₁ hfound =>
      rwa [hfound] at hget
    · next ic₁ hmiss =>
      rw [hmiss] at hget
      split
      · exact hget
      · next temp hdec =>
        rw [TeWakaImpl.clone_eq]
        exact hget.add ⟨data, hD, rfl, decodeRLP_sound hdec⟩

/-- From a sound cache, and where the hash separates the bytes from those of
the cache, `Load` returns what a miss returns. -/
theorem load_eq_loadMiss (hic : CacheSound keccak256 D ic) {data : Bytes}
    (hinj : ∀ d ∈ D, rlpHash keccak256 d = rlpHash keccak256 data → d = data)
    (hlen : data.length < 2 ^ 64) :
    (TeWakaImpl.load keccak256 ic data).1 = loadMiss data := by
  unfold TeWakaImpl.load loadMiss
  split_ifs with hempty
  · rfl
  · dsimp only
    split
    · next impawn ic₁ hget =>
      -- a hit: the entry's registry encodes to bytes of the same hash, so to `data`
      have hfound : (ic.get (rlpHash keccak256 data)).1 = some impawn := by rw [hget]
      obtain ⟨d, hd, hhash, henc⟩ := hic.get_eq_some hfound
      rw [hinj d hd hhash] at henc
      rw [decodeRLP_encodeRLP henc hlen, TeWakaImpl.clone_eq]
    · split <;> rfl

end Sound

end Cache

/-- The slot holds what the value model of `StateDB` records: nothing, or the
encoding of the registry. -/
def SlotHolds (slot : Bytes) : Option TeWakaImpl → Prop
  | none => slot = []
  | some twi => twi.encodeRLP = some slot

/-- `Load` of the bytes the slot holds, with a sound cache, returns what the
value model's `load` does. -/
theorem load_refines {keccak256 : Bytes → Hash} {D : List Bytes} {ic : PledgeCache} {slot : Bytes}
    {s : StateDB} (hslot : SlotHolds slot s.teWaka) (hic : CacheSound keccak256 D ic)
    (hinj : ∀ d ∈ D, rlpHash keccak256 d = rlpHash keccak256 slot → d = slot)
    (hlen : slot.length < 2 ^ 64) :
    (TeWakaImpl.load keccak256 ic slot).1 = s.load.mapError fun _ => .loadDataEmpty := by
  rw [load_eq_loadMiss hic hinj hlen, StateDB.load]
  cases hs : s.teWaka with
  | none =>
    rw [hs] at hslot
    have hnil : slot = [] := hslot
    rw [hnil]
    rfl
  | some twi =>
    rw [hs] at hslot
    have henc : twi.encodeRLP = some slot := hslot
    -- an encoding is never empty, so `Load` gets past its length check
    have hne : slot.length ≠ 0 := by
      obtain ⟨i, -, rfl⟩ := Option.map_eq_some_iff.mp henc
      exact (Rlp.length_encode_pos i).ne'
    rw [loadMiss, if_neg hne, decodeRLP_encodeRLP henc hlen]
    rfl

end Classzz.Vm
