import Classzz.Vm.TeWaka.Heap
import Classzz.Vm.TeWaka.Cache
import Classzz.Lib.Run

/-!
# The registry cache over the heap

`Save` and `Load` as the source runs them on registries that live on the heap
(`TeWaka/Heap`). `Save` puts a clone of the value in `IC`. `Load` sets its receiver to a clone
of the cached value on a hit, and on a miss to the value it decoded, after putting a clone of
that in `IC`. A program holds the values it makes and loads, and changes them in place with
the methods.

Every clone is laid out afresh, so no value the program holds shares an array or a pledge with
a value of the cache, or with another held value (`Program.Inv`). A method writes only the
arrays and pledges of its own value, so the cache reads as it did. Read through the heap, the
cache is then the value cache of `Cache.lean`: `Save` and `Load` on the heap do what they do
on values (`save_simulates`, `load_simulates`). So where the hash tells apart the bytes the
run hashes, every `Load` returns what decoding its bytes returns, whatever the program did in
between to the values it loaded (`load_decodes_on_heap`).
-/

namespace Classzz.Vm

open GoSlice

/-- `IC` as the source keeps it: pointers to registries on the heap. -/
abbrev HeapCache := Lru.Cache Hash TeWakaRef

section Cache

variable (keccak256 : Bytes → Hash) (g : Growth)

/-- `TeWakaImpl.Save` of the value `r`: the bytes it writes, the cache with a clone of `r`, and
the heap the clone is laid out in; `none` where the encoding fails and `log.Crit` ends the
process. -/
def TeWakaRef.save (ic : HeapCache) (h : Heap) (r : TeWakaRef) :
    Option ((Bytes × HeapCache) × Heap) := do
  let data ← (h.read r).encodeRLP
  let hash := rlpHash keccak256 data
  let tmp := h.clone g r
  pure ((data, ic.add hash tmp.1), tmp.2)

/-- `TeWakaImpl.Load` of the bytes `GetTeWakaState` returns: what the receiver is set to, the
cache and the heap after. The decoder lays the registry out afresh, as a clone does. -/
def TeWakaRef.load (ic : HeapCache) (h : Heap) (data : Bytes) :
    (Except LoadError TeWakaRef × HeapCache) × Heap :=
  if data.length = 0 then ((.error .loadDataEmpty, ic), h)
  else
    let hash := rlpHash keccak256 data
    match ic.get hash with
    | (some impawn, ic) =>
      let temp := h.clone g impawn
      ((.ok temp.1, ic), temp.2)
    | (none, ic) =>
      match TeWakaImpl.decodeRLP data with
      | none => ((.error .invalidEntryRLP, ic), h)
      | some twi =>
        let temp := h.build g twi
        let tmp := temp.2.clone g temp.1
        ((.ok temp.1, ic.add hash tmp.1), tmp.2)

/-! ### The cache read through the heap -/

section Simulation

variable {ic : HeapCache} {h h' : Heap}

/-- A heap that only grew reads the cache's fitting values as before. -/
theorem mapVal_read_of_grows (hic : ic.All fun _ t => h.WF t) (hg : h.Grows h') :
    ic.mapVal h'.read = ic.mapVal h.read :=
  Lru.Cache.mapVal_congr fun e he => (hg.frame (hic e he)).1

/-- So does a heap where only a value apart from all of them was written. -/
theorem mapVal_read_of_changesOnly {r : TeWakaRef}
    (hic : ic.All fun _ t => h.WF t ∧ h.Apart r t) (hc : h.ChangesOnly h' r) :
    ic.mapVal h'.read = ic.mapVal h.read :=
  Lru.Cache.mapVal_congr fun e he => (hc.frame (hic e he).2 (hic e he).1).1

/-- `Save` on the heap is `Save` on the values it reads. -/
theorem save_simulates (hic : ic.All fun _ t => h.WF t) (r : TeWakaRef) :
    (TeWakaRef.save keccak256 g ic h r).map (fun s => (s.1.1, s.1.2.mapVal s.2.read)) =
      TeWakaImpl.save keccak256 (ic.mapVal h.read) (h.read r) := by
  obtain ⟨-, hread, hgrow, -⟩ := h.clone_spec g r
  unfold TeWakaRef.save TeWakaImpl.save
  cases (h.read r).encodeRLP with
  | none => rfl
  | some data =>
    simp only [Option.bind_eq_bind, Option.bind_some, Option.pure_def, Option.map_some,
      TeWakaImpl.clone_eq]
    rw [← Lru.Cache.add_mapVal, mapVal_read_of_grows hic hgrow, hread]

/-- `Load` on the heap is `Load` on the values it reads: the value it returns, read through the
heap after, and the cache read the same way. -/
theorem load_simulates (hic : ic.All fun _ t => h.WF t) (data : Bytes) :
    (((TeWakaRef.load keccak256 g ic h data).1.1.map (TeWakaRef.load keccak256 g ic h data).2.read),
      (TeWakaRef.load keccak256 g ic h data).1.2.mapVal (TeWakaRef.load keccak256 g ic h data).2.read) =
      TeWakaImpl.load keccak256 (ic.mapVal h.read) data := by
  unfold TeWakaRef.load TeWakaImpl.load
  split_ifs with hempty
  · rfl
  · dsimp only
    rw [Lru.Cache.get_mapVal]
    -- the lookup reorders the cache, so what is left holds fitting values still
    have hget := hic.get (rlpHash keccak256 data)
    cases hfound : ic.get (rlpHash keccak256 data) with
    | mk found ic₁ =>
      rw [hfound] at hget
      cases found with
      | some impawn =>
        -- a hit: a clone of the entry, which reads as the entry
        have ht : h.WF impawn := hic.get_eq_some (by rw [hfound])
        obtain ⟨-, hread, hgrow, -⟩ := h.clone_spec g impawn
        simp only [Option.map_some, Except.map, TeWakaImpl.clone_eq]
        rw [hread, mapVal_read_of_grows hget hgrow]
      | none =>
        dsimp only [Option.map_none]
        cases TeWakaImpl.decodeRLP data with
        | none => rfl
        | some twi =>
          -- a miss: the decoded value, and in the cache a clone of it
          obtain ⟨htw, htr, htg, -⟩ := h.build_spec g twi
          obtain ⟨-, hcr, hcg, -⟩ := (h.build g twi).2.clone_spec g (h.build g twi).1
          have hkeep := (hcg.frame htw).1
          simp only [Except.map, TeWakaImpl.clone_eq]
          rw [← Lru.Cache.add_mapVal, hcr, hkeep, htr,
            mapVal_read_of_grows hget (htg.trans hcg)]

variable {keccak256 g} in
theorem TeWakaRef.save_eq_some {r : TeWakaRef} {s : (Bytes × HeapCache) × Heap}
    (hs : TeWakaRef.save keccak256 g ic h r = some s) :
    ∃ data, (h.read r).encodeRLP = some data ∧
      s = ((data, ic.add (rlpHash keccak256 data) (h.clone g r).1), (h.clone g r).2) := by
  simp only [TeWakaRef.save, Option.bind_eq_bind, Option.bind_eq_some_iff, Option.pure_def,
    Option.some.injEq] at hs
  obtain ⟨data, hdata, rfl⟩ := hs
  exact ⟨data, hdata, rfl⟩

end Simulation

end Cache

/-! ### A program holding registries -/

/-- A method of a registry, with its arguments, as a program calls it on a value it holds. -/
inductive Method where
  | mortgage (address toAddress : Address) (pubKey : Bytes) (amount : ℕ) (cba : List Address)
  | update (address : Address) (cba : List Address)
  | convert (item : ConvertItem)
  | confirm (item : ConvertItem)
  | setItem (item : UsedItem)
  | keepItemsByEpoch

namespace Method

/-- The method on the value `r`, in place: the value after and its heap, and the disk store,
which `KeepItemsByEpoch` writes. What `Update` returns is dropped. -/
def apply (g : Growth) (h : Heap) (r : TeWakaRef) (db : RecordStore) :
    Method → (TeWakaRef × Heap) × RecordStore
  | mortgage address toAddress pubKey amount cba =>
    (h.mortgage g r address toAddress pubKey amount cba, db)
  | update address cba => ((r, (h.update r address cba).2), db)
  | convert item => (h.convert g r item, db)
  | confirm item => (h.confirm r item, db)
  | setItem item => (h.setItem g r item, db)
  | keepItemsByEpoch => h.keepItemsByEpoch r db

/-- The same method in the value model. -/
def applyValue (twi : TeWakaImpl) (db : RecordStore) : Method → TeWakaImpl × RecordStore
  | mortgage address toAddress pubKey amount cba =>
    (twi.mortgage address toAddress pubKey amount cba, db)
  | update address cba => ((twi.update address cba).getD twi, db)
  | convert item => (twi.convert item, db)
  | confirm item => (twi.confirm item, db)
  | setItem item => (twi.setItem item, db)
  | keepItemsByEpoch => twi.keepItemsByEpoch db

/-- On the heap every method does what it does on values, and writes only within its value. -/
theorem apply_spec (g : Growth) {h : Heap} {r : TeWakaRef} (hr : h.WF r) (db : RecordStore) :
    ∀ m : Method, Heap.Moves h (m.apply g h r db).1.2 r (m.apply g h r db).1.1
        (m.applyValue (h.read r) db).1 ∧ (m.apply g h r db).2 = (m.applyValue (h.read r) db).2
  | mortgage address toAddress pubKey amount cba =>
    ⟨Heap.mortgage_spec g hr address toAddress pubKey amount cba, rfl⟩
  | update address cba => ⟨(Heap.update_spec hr address cba).1, rfl⟩
  | convert item => ⟨Heap.convert_spec g hr item, rfl⟩
  | confirm item => ⟨Heap.confirm_spec hr item, rfl⟩
  | setItem item => ⟨Heap.setItem_spec g hr item, rfl⟩
  | keepItemsByEpoch => Heap.keepItemsByEpoch_spec hr db

end Method

/-- A program's registries on the heap, `IC`, and the disk store of used items. -/
structure Program where
  heap : Heap
  ic : HeapCache
  held : List TeWakaRef
  db : RecordStore

/-- A program that holds nothing yet, with `IC` as `init` makes it. -/
def Program.new (db : RecordStore) : Program :=
  ⟨Heap.empty, Lru.new 20, [], db⟩

/-- What a call hands the cache: the bytes `Save` wrote, or the bytes `Load` read with what it
returned, read through the heap right after. -/
inductive CacheEvent where
  | saved (data : Bytes)
  | loaded (data : Bytes) (result : Except LoadError TeWakaImpl)

/-- The bytes an event hashes. -/
def CacheEvent.data : CacheEvent → Bytes
  | .saved data => data
  | .loaded data _ => data

/-- An event where `Load` returned what decoding its bytes returns. -/
def CacheEvent.Decodes : CacheEvent → Prop
  | .saved _ => True
  | .loaded data result => result = loadMiss data

/-- A call of the program: `NewTeWakaImpl`, `Load` into its `i`-th value, `Save` of that value,
or one of its methods on it. -/
inductive HeapCall where
  | newImpl
  | load (i : ℕ) (data : Bytes)
  | save (i : ℕ)
  | call (i : ℕ) (m : Method)

/-- The values held after `Load` into the `i`-th: that one set to what `Load` returned, or left
as it was on an error. -/
def receive (held : List TeWakaRef) (i : ℕ) : Except LoadError TeWakaRef → List TeWakaRef
  | .ok t => held.set i t
  | .error _ => held

section Program

variable (keccak256 : Bytes → Hash) (g : Growth)

/-- One call of the program and what it hands the cache; `none` for a value it does not hold,
and where `Save` ends the process. A failed `Load` leaves its receiver as it was. -/
def programStep (p : Program) : HeapCall → Option (Program × List CacheEvent)
  | .newImpl =>
    let r := p.heap.newTeWakaImpl g
    some ({ p with heap := r.2, held := p.held ++ [r.1] }, [])
  | .load i data =>
    if i < p.held.length then
      let l := TeWakaRef.load keccak256 g p.ic p.heap data
      some ({ p with heap := l.2, ic := l.1.2, held := receive p.held i l.1.1 },
        [.loaded data (l.1.1.map l.2.read)])
    else none
  | .save i =>
    if hi : i < p.held.length then
      (TeWakaRef.save keccak256 g p.ic p.heap p.held[i]).map fun s =>
        ({ p with heap := s.2, ic := s.1.2 }, [.saved s.1.1])
    else none
  | .call i m =>
    if hi : i < p.held.length then
      let c := m.apply g p.heap p.held[i] p.db
      some ({ p with heap := c.1.2, db := c.2, held := p.held.set i c.1.1 }, [])
    else none

/-- The hash tells apart the byte strings of `D`. -/
def Separates (D : List Bytes) : Prop :=
  ∀ d₁ ∈ D, ∀ d₂ ∈ D, rlpHash keccak256 d₁ = rlpHash keccak256 d₂ → d₁ = d₂

end Program

/-! ### Nothing is shared -/

section Positions

variable {α : Type*} {l : List α} {i : ℕ} {x : α}

/-- `R` holds between the values at any two positions of `l`. -/
def AtDistinct (R : α → α → Prop) (l : List α) : Prop :=
  ∀ j k (hj : j < l.length) (hk : k < l.length), j ≠ k → R l[j] l[k]

theorem forall_getElem_set {P : α → Prop} (hl : ∀ j (hj : j < l.length), j ≠ i → P l[j])
    (hx : P x) : ∀ j (hj : j < (l.set i x).length), P (l.set i x)[j] := by
  intro j hj
  rw [List.getElem_set]
  split_ifs with hij
  · exact hx
  · exact hl j (by simpa using hj) (Ne.symm hij)

theorem forall_getElem_append {P : α → Prop} (hl : ∀ j (hj : j < l.length), P l[j]) (hx : P x) :
    ∀ j (hj : j < (l ++ [x]).length), P (l ++ [x])[j] := by
  intro j hj
  rw [List.getElem_append]
  split_ifs with hjl
  · exact hl j hjl
  · simpa using hx

/-- A value related both ways to the values at the other positions may take a position's place;
the old value there is dropped. -/
theorem AtDistinct.set {R : α → α → Prop}
    (hl : ∀ j k (hj : j < l.length) (hk : k < l.length), j ≠ i → k ≠ i → j ≠ k → R l[j] l[k])
    (hx : ∀ j (hj : j < l.length), j ≠ i → R x l[j] ∧ R l[j] x) : AtDistinct R (l.set i x) := by
  intro j k hj hk hjk
  have hj' : j < l.length := by simpa using hj
  have hk' : k < l.length := by simpa using hk
  rw [List.getElem_set, List.getElem_set]
  split_ifs with hij hik hik
  · exact absurd (hij.symm.trans hik) hjk
  · exact (hx k hk' (Ne.symm hik)).1
  · exact (hx j hj' (Ne.symm hij)).2
  · exact hl j k hj' hk' (Ne.symm hij) (Ne.symm hik) hjk

theorem AtDistinct.append {R : α → α → Prop} (hl : AtDistinct R l)
    (hx : ∀ j (hj : j < l.length), R x l[j] ∧ R l[j] x) : AtDistinct R (l ++ [x]) := by
  intro j k hj hk hjk
  rw [List.length_append, List.length_singleton] at hj hk
  rw [List.getElem_append, List.getElem_append]
  split_ifs with hjl hkl hkl
  · exact hl j k hjl hkl hjk
  · simpa using (hx j hjl).2
  · simpa using (hx k hkl).1
  · omega

end Positions

/-- No value of the cache shares an array or a pledge with `r`. -/
def ApartFromCache (h : Heap) (ic : HeapCache) (r : TeWakaRef) : Prop :=
  ic.All fun _ t => h.Apart r t

namespace Program

/-- The program's values fit the heap and share nothing: no two values it holds, and no value
it holds and value of the cache, share an array or a pledge. -/
structure Inv (p : Program) : Prop where
  held_wf : ∀ i (hi : i < p.held.length), p.heap.WF p.held[i]
  cache_wf : p.ic.All fun _ t => p.heap.WF t
  held_apart : AtDistinct p.heap.Apart p.held
  cache_apart : ∀ i (hi : i < p.held.length), ApartFromCache p.heap p.ic p.held[i]

theorem inv_new (db : RecordStore) : (Program.new db).Inv :=
  ⟨fun _ hi => absurd hi (Nat.not_lt_zero _), Lru.Cache.all_new 20,
    fun _ _ hj => absurd hj (Nat.not_lt_zero _), fun _ hi => absurd hi (Nat.not_lt_zero _)⟩

section Moves

variable {p : Program} {h' : Heap} {r : TeWakaRef}

/-- A heap that only grew keeps the invariant. -/
theorem Inv.grows (hp : p.Inv) (hg : p.heap.Grows h') : { p with heap := h' }.Inv where
  held_wf i hi := (hg.frame (hp.held_wf i hi)).2.2
  cache_wf e he := (hg.frame (hp.cache_wf e he)).2.2
  held_apart i j hi hj hij := (hp.held_apart i j hi hj hij).of_ptrs
    (hg.frame (hp.held_wf i hi)).2.1 (hg.frame (hp.held_wf j hj)).2.1
  cache_apart i hi e he := (hp.cache_apart i hi e he).of_ptrs
    (hg.frame (hp.held_wf i hi)).2.1 (hg.frame (hp.cache_wf e he)).2.1

/-- A value laid out afresh may take the place of a held value. -/
theorem Inv.setFresh (hp : p.Inv) (hg : p.heap.Grows h') (hr : h'.WF r)
    (hf : p.heap.Fresh h' r) (i : ℕ) : { p with heap := h', held := p.held.set i r }.Inv := by
  have hq := hp.grows hg
  refine ⟨forall_getElem_set (fun j hj _ => hq.held_wf j hj) hr, hq.cache_wf,
    AtDistinct.set (fun j k hj hk _ _ hjk => hq.held_apart j k hj hk hjk) fun j hj _ => ?_,
    forall_getElem_set (fun j hj _ => hq.cache_apart j hj) fun e he => ?_⟩
  · have hap := hf.apart_of_grows hg (hp.held_wf j hj)
    exact ⟨hap, hap.symm⟩
  · exact hf.apart_of_grows hg (hp.cache_wf e he)

/-- A value laid out afresh may be held besides the others. -/
theorem Inv.pushFresh (hp : p.Inv) (hg : p.heap.Grows h') (hr : h'.WF r)
    (hf : p.heap.Fresh h' r) : { p with heap := h', held := p.held ++ [r] }.Inv := by
  have hq := hp.grows hg
  refine ⟨forall_getElem_append hq.held_wf hr, hq.cache_wf,
    hq.held_apart.append fun j hj => ?_, forall_getElem_append hq.cache_apart fun e he => ?_⟩
  · have hap := hf.apart_of_grows hg (hp.held_wf j hj)
    exact ⟨hap, hap.symm⟩
  · exact hf.apart_of_grows hg (hp.cache_wf e he)

/-- A value laid out afresh may go into the cache. -/
theorem Inv.addFresh (hp : p.Inv) (hg : p.heap.Grows h') (hr : h'.WF r)
    (hf : p.heap.Fresh h' r) (k : Hash) : { p with heap := h', ic := p.ic.add k r }.Inv := by
  have hq := hp.grows hg
  exact ⟨hq.held_wf, hq.cache_wf.add hr, hq.held_apart, fun i hi =>
    (hq.cache_apart i hi).add (hf.apart_of_grows hg (hp.held_wf i hi)).symm⟩

/-- A lookup only reorders the cache. -/
theorem Inv.cacheGet (hp : p.Inv) (k : Hash) : { p with ic := (p.ic.get k).2 }.Inv :=
  ⟨hp.held_wf, hp.cache_wf.get k, hp.held_apart, fun i hi => (hp.cache_apart i hi).get k⟩

/-- A method on a held value keeps the invariant: every other value, held or cached, is apart
from it, so reads as it did, and the value it leaves is within it, so apart from them still. -/
theorem Inv.moves (hp : p.Inv) {i : ℕ} (hi : i < p.held.length) {r' : TeWakaRef} {v : TeWakaImpl}
    (hm : Heap.Moves p.heap h' p.held[i] r' v) (db : RecordStore) :
    { p with heap := h', held := p.held.set i r', db }.Inv := by
  have hheld : ∀ j (hj : j < p.held.length), j ≠ i →
      h'.ptrs p.held[j] = p.heap.ptrs p.held[j] ∧ h'.WF p.held[j] := fun j hj hji =>
    (hm.changesOnly.frame (hp.held_apart i j hi hj (Ne.symm hji)) (hp.held_wf j hj)).2
  have hcache : p.ic.All fun _ t => h'.ptrs t = p.heap.ptrs t ∧ h'.WF t := fun e he =>
    (hm.changesOnly.frame (hp.cache_apart i hi e he) (hp.cache_wf e he)).2
  refine ⟨forall_getElem_set (fun j hj hji => (hheld j hj hji).2) hm.wf,
    fun e he => (hcache e he).2, AtDistinct.set (fun j k hj hk hji hki hjk => ?_) fun j hj hji => ?_,
    forall_getElem_set (fun j hj hji e he => ?_) fun e he => ?_⟩
  · exact (hp.held_apart j k hj hk hjk).of_ptrs (hheld j hj hji).1 (hheld k hk hki).1
  · have hap := hm.within.apart (hp.held_apart i j hi hj (Ne.symm hji)) (hp.held_wf j hj)
      (hheld j hj hji).1
    exact ⟨hap, hap.symm⟩
  · exact (hp.cache_apart j hj e he).of_ptrs (hheld j hj hji).1 (hcache e he).1
  · exact hm.within.apart (hp.cache_apart i hi e he) (hp.cache_wf e he) (hcache e he).1

end Moves

section Step

variable {keccak256 : Bytes → Hash} {g : Growth} {p p' : Program} {out : List CacheEvent}

/-- `Load` keeps the invariant: a hit or a miss lays its result out afresh, and a miss the clone
it caches too. -/
theorem Inv.load (hp : p.Inv) (i : ℕ) (data : Bytes) :
    { p with heap := (TeWakaRef.load keccak256 g p.ic p.heap data).2,
             ic := (TeWakaRef.load keccak256 g p.ic p.heap data).1.2,
             held := receive p.held i (TeWakaRef.load keccak256 g p.ic p.heap data).1.1 }.Inv := by
  unfold TeWakaRef.load
  split_ifs with hempty
  · exact hp
  · dsimp only
    have hget := hp.cacheGet (rlpHash keccak256 data)
    cases hfound : p.ic.get (rlpHash keccak256 data) with
    | mk found ic₁ =>
      rw [hfound] at hget
      cases found with
      | some impawn =>
        obtain ⟨hwf, -, hg, hf⟩ := p.heap.clone_spec g impawn
        exact hget.setFresh hg hwf hf i
      | none =>
        dsimp only
        cases TeWakaImpl.decodeRLP data with
        | none => exact hget
        | some twi =>
          obtain ⟨htw, -, htg, htf⟩ := p.heap.build_spec g twi
          obtain ⟨hcw, -, hcg, hcf⟩ := (p.heap.build g twi).2.clone_spec g (p.heap.build g twi).1
          exact (hget.setFresh htg htw htf i).addFresh hcg hcw hcf _

end Step

end Program

/-! ### Runs -/

section Run

variable {keccak256 : Bytes → Hash} {g : Growth} {p p' : Program} {out : List CacheEvent}

theorem Separates.mono {D D' : List Bytes} (hsep : Separates keccak256 D') (hD : D ⊆ D') :
    Separates keccak256 D :=
  fun d₁ h₁ d₂ h₂ => hsep d₁ (hD h₁) d₂ (hD h₂)

variable (g) in
/-- `Load` on the heap of the bytes a slot holds returns what the value model of `StateDB`
loads from it. -/
theorem load_refines_on_heap {D : List Bytes} {p : Program} (hp : p.Inv)
    (hic : CacheSound keccak256 D (p.ic.mapVal p.heap.read)) {slot : Bytes} {s : StateDB}
    (hslot : SlotHolds slot s.teWaka)
    (hinj : ∀ d ∈ D, rlpHash keccak256 d = rlpHash keccak256 slot → d = slot)
    (hlen : slot.length < 2 ^ 64) :
    (TeWakaRef.load keccak256 g p.ic p.heap slot).1.1.map
        (TeWakaRef.load keccak256 g p.ic p.heap slot).2.read =
      s.load.mapError fun _ => .loadDataEmpty := by
  have hsim := load_simulates keccak256 g hp.cache_wf slot
  rw [← load_refines hslot hic hinj hlen, ← hsim]

/-- One call keeps the invariant, and the cache, read through the heap, sound over any bytes
that hold those it hashes; and where the hash separates a `Load`'s bytes from those, the `Load`
returned what a miss returns. -/
theorem programStep_sound {D : List Bytes} (hp : p.Inv)
    (hic : CacheSound keccak256 D (p.ic.mapVal p.heap.read)) {call : HeapCall}
    (hstep : programStep keccak256 g p call = some (p', out)) (hD : ∀ e ∈ out, e.data ∈ D)
    (hlen : ∀ i data, call = .load i data → data.length < 2 ^ 64) :
    p'.Inv ∧ CacheSound keccak256 D (p'.ic.mapVal p'.heap.read) ∧
      ∀ e ∈ out, (∀ d ∈ D, rlpHash keccak256 d = rlpHash keccak256 e.data → d = e.data) →
        e.Decodes := by
  cases call with
  | newImpl =>
    -- a new value is laid out afresh, which only grows the heap
    obtain ⟨hwf, -, hg, hf⟩ := p.heap.newTeWakaImpl_spec g
    simp only [programStep, Option.some.injEq, Prod.mk.injEq] at hstep
    obtain ⟨rfl, rfl⟩ := hstep
    refine ⟨hp.pushFresh hg hwf hf, ?_, by simp⟩
    dsimp only
    rw [mapVal_read_of_grows hp.cache_wf hg]
    exact hic
  | load i data =>
    simp only [programStep] at hstep
    split_ifs at hstep with hi
    simp only [Option.some.injEq, Prod.mk.injEq] at hstep
    obtain ⟨rfl, rfl⟩ := hstep
    -- read through the heap, this is `Load` on values, whose lemmas apply
    have hsim := load_simulates keccak256 g hp.cache_wf data
    have hdata : data ∈ D := hD _ List.mem_cons_self
    refine ⟨hp.load i data, ?_, ?_⟩
    · have hsound := hic.load hdata
      rw [← hsim] at hsound
      exact hsound
    · simp only [List.mem_singleton, forall_eq]
      intro hinj
      change ∀ d ∈ D, rlpHash keccak256 d = rlpHash keccak256 data → d = data at hinj
      have hmiss := load_eq_loadMiss hic hinj (hlen i data rfl)
      rw [← hsim] at hmiss
      exact hmiss
  | save i =>
    simp only [programStep] at hstep
    split_ifs at hstep with hi
    obtain ⟨s, hs, hps⟩ := Option.map_eq_some_iff.mp hstep
    obtain ⟨rfl, rfl⟩ := Prod.mk.inj hps
    have hsim := save_simulates keccak256 g hp.cache_wf p.held[i]
    rw [hs, Option.map_some] at hsim
    obtain ⟨data, -, rfl⟩ := TeWakaRef.save_eq_some hs
    obtain ⟨hwf, -, hg, hf⟩ := p.heap.clone_spec g p.held[i]
    exact ⟨hp.addFresh hg hwf hf _, hic.save hsim.symm (hD _ List.mem_cons_self),
      by simp [CacheEvent.Decodes]⟩
  | call i m =>
    simp only [programStep] at hstep
    split_ifs at hstep with hi
    simp only [Option.some.injEq, Prod.mk.injEq] at hstep
    obtain ⟨rfl, rfl⟩ := hstep
    -- a method writes only within its value, which the cache shares nothing with
    have hm := (Method.apply_spec g (hp.held_wf i hi) p.db m).1
    refine ⟨hp.moves hi hm _, ?_, by simp⟩
    dsimp only
    rw [mapVal_read_of_changesOnly (fun e he => ⟨hp.cache_wf e he, hp.cache_apart i hi e he⟩)
      hm.changesOnly]
    exact hic

end Run

/-- The cache is transparent on the heap: over any run of a program that makes registries,
loads them, changes them in place with the methods and saves them, from the fresh cache and
where the hash separates the bytes the run hashes, every `Load` returned what decoding its bytes
returns, and a registry whose encoding is those bytes. No change to a loaded value reaches a
later `Load`. -/
theorem load_decodes_on_heap (keccak256 : Bytes → Hash) (g : Growth) (db : RecordStore)
    (calls : List HeapCall) {p : Program} {events : List CacheEvent}
    (hrun : Run.runTrace (programStep keccak256 g) (Program.new db) calls = some (p, events))
    (hlen : ∀ i data, HeapCall.load i data ∈ calls → data.length < 2 ^ 64)
    (hinj : Separates keccak256 (events.map CacheEvent.data)) :
    ∀ data result, CacheEvent.loaded data result ∈ events →
      result = loadMiss data ∧ ∀ twi, result = .ok twi → twi.encodeRLP = some data := by
  -- the invariant over the events so far; the loads are right once the hash separates their bytes
  have hinv := Run.runTrace_invariant_of_mem
    (fun p tr => p.Inv ∧ CacheSound keccak256 (tr.map CacheEvent.data) (p.ic.mapVal p.heap.read) ∧
      (Separates keccak256 (tr.map CacheEvent.data) → ∀ e ∈ tr, e.Decodes))
    (fun p tr call p' out hcall hprev hstep => by
      have hsub : tr.map CacheEvent.data ⊆ (tr ++ out).map CacheEvent.data := by
        rw [List.map_append]
        exact List.subset_append_left _ _
      have hout : ∀ e ∈ out, e.data ∈ (tr ++ out).map CacheEvent.data := fun e he =>
        List.mem_map_of_mem (List.mem_append_right tr he)
      obtain ⟨hinv, hsound, hdecodes⟩ := programStep_sound hprev.1 (hprev.2.1.mono hsub) hstep hout
        fun i data hload => hlen i data (hload ▸ hcall)
      refine ⟨hinv, hsound, fun hsep e he => ?_⟩
      rcases List.mem_append.mp he with he | he
      · exact hprev.2.2 (hsep.mono hsub) e he
      · exact hdecodes e he fun d hd hhash => hsep d hd e.data (hout e he) hhash)
    ⟨Program.inv_new db, fun e he => by simp [Program.new, Lru.new] at he, by simp⟩ hrun
  intro data result hload
  have hmiss : result = loadMiss data := hinv.2.2 hinj _ hload
  exact ⟨hmiss, fun twi hok => loadMiss_sound (hmiss ▸ hok)⟩

/-- The bytes of the registry that `Mortgage` of one pledge leaves in a new value. -/
def onePledgeBytes : Bytes :=
  [241, 238, 237, 148, 0, 0, 0, 0, 0, 0, 0, 0, 0, 0, 0, 0, 0, 0, 0, 0, 0, 0, 0, 1, 128, 148, 0, 0,
    0, 0, 0, 0, 0, 0, 0, 0, 0, 0, 0, 0, 0, 0, 0, 0, 0, 2, 5, 192, 192, 192]

/-- A value with one pledge is saved; a second value loads it and changes the pledge's
coinbases in place; then the first value loads the bytes again. -/
def updateBetweenLoadsCalls : List HeapCall :=
  [.newImpl, .call 0 (.mortgage 1 2 [] 5 []), .save 0, .newImpl, .load 1 onePledgeBytes,
    .call 1 (.update 1 [3]), .load 0 onePledgeBytes]

/-- The second `Load` returns the pledge as saved, though the value the first one loaded now
holds the changed pledge. -/
theorem load_decodes_on_heap_updated :
    ∃ p, Run.runTrace (programStep bytesToHash Growth.doubling) (Program.new [])
        updateBetweenLoadsCalls = some (p, [.saved onePledgeBytes,
          .loaded onePledgeBytes (.ok ⟨[⟨1, [], 2, 5, []⟩], [], []⟩),
          .loaded onePledgeBytes (.ok ⟨[⟨1, [], 2, 5, []⟩], [], []⟩)]) ∧
      p.held.map p.heap.read = [⟨[⟨1, [], 2, 5, []⟩], [], []⟩, ⟨[⟨1, [], 2, 5, [3]⟩], [], []⟩] ∧
      (∀ i data, HeapCall.load i data ∈ updateBetweenLoadsCalls → data.length < 2 ^ 64) ∧
      Separates bytesToHash [onePledgeBytes, onePledgeBytes, onePledgeBytes] ∧
      ∀ data result, CacheEvent.loaded data result ∈ [CacheEvent.saved onePledgeBytes,
          .loaded onePledgeBytes (.ok ⟨[⟨1, [], 2, 5, []⟩], [], []⟩),
          .loaded onePledgeBytes (.ok ⟨[⟨1, [], 2, 5, []⟩], [], []⟩)] →
        result = loadMiss data ∧ ∀ twi, result = .ok twi → twi.encodeRLP = some data := by
  have hrun : Run.runTrace (programStep bytesToHash Growth.doubling) (Program.new [])
      updateBetweenLoadsCalls = some (_, [.saved onePledgeBytes,
        .loaded onePledgeBytes (.ok ⟨[⟨1, [], 2, 5, []⟩], [], []⟩),
        .loaded onePledgeBytes (.ok ⟨[⟨1, [], 2, 5, []⟩], [], []⟩)]) := rfl
  have hlen : ∀ i data, HeapCall.load i data ∈ updateBetweenLoadsCalls → data.length < 2 ^ 64 := by
    intro i data hmem
    simp [updateBetweenLoadsCalls] at hmem
    rcases hmem with ⟨-, rfl⟩ | ⟨-, rfl⟩ <;> decide
  have hinj : Separates bytesToHash [onePledgeBytes, onePledgeBytes, onePledgeBytes] := by
    simp [Separates]
  exact ⟨_, hrun, rfl, hlen, hinj, load_decodes_on_heap bytesToHash Growth.doubling [] _ hrun hlen hinj⟩

end Classzz.Vm
