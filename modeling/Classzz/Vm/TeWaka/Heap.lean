import Classzz.Vm.TeWaka.Codec
import Classzz.Lib.GoSlice

/-!
# The registry on the Go heap

`TeWakaImpl` holds three slices of pointers, to `Pledge`s, to `ConvertItem`s and to
`UsedItem`s. Here the slices are headers over arrays in a heap (`Lib/GoSlice`), and the pledges
are objects in a heap of their own, because `Update` writes a pledge through its pointer. No code
writes a convert item or a used item after making it, so the arrays hold those as values. A
registry value is its three headers (`TeWakaRef`), and what it holds is read through the heap
(`read`).

`CloneTeWakaImpl` and the RLP decoder lay a registry out afresh (`build`): a new object for
every pledge, and each slice built by `append` from an empty one. The methods `Mortgage`,
`Update`, `Convert`, `Confirm`, `SetItem` and `KeepItemsByEpoch` change a value in place as the
source does, and each reads back as the value model's method (`mortgage_spec` and the others).
Each writes only the arrays and pledges of the value it is called on and fresh ones
(`ChangesOnly`), and the value it leaves uses no others (`Within`); so a value `Apart` from it
reads as it did (`ChangesOnly.frame`), and stays apart.
-/

namespace Classzz.Vm

open GoSlice

instance : Inhabited Pledge :=
  ⟨⟨0, [], 0, 0, []⟩⟩

instance : Inhabited ConvertItem :=
  ⟨⟨0, 0, 0, 0, [], 0, 0, [], 0, 0, false, []⟩⟩

instance : Inhabited UsedItem :=
  ⟨⟨0, 0⟩⟩

/-- The heap that registry values live in: the arrays of the three slices, and the pledge
objects with the next free one. -/
structure Heap where
  pledgeArrays : Arrays ℕ
  convertArrays : Arrays ConvertItem
  usedArrays : Arrays UsedItem
  pledges : ℕ → Pledge
  nextPledge : ℕ

/-- A `TeWakaImpl` value: its three slice headers. -/
structure TeWakaRef where
  pledgeInfos : Slice
  convertItems : Slice
  usedItems : Slice
  deriving DecidableEq

namespace Heap

/-- The heap before anything is allocated. -/
def empty : Heap :=
  ⟨Arrays.empty, Arrays.empty, Arrays.empty, fun _ => default, 0⟩

variable (g : Growth) (h : Heap)

/-- The pledge pointers of a value. -/
def ptrs (r : TeWakaRef) : List ℕ :=
  h.pledgeArrays.contents r.pledgeInfos

/-- What a value holds. -/
def read (r : TeWakaRef) : TeWakaImpl :=
  ⟨(h.ptrs r).map h.pledges, h.convertArrays.contents r.convertItems,
    h.usedArrays.contents r.usedItems⟩

/-- `new(Pledge)` holding `p`. -/
def newPledge (p : Pledge) : ℕ × Heap :=
  (h.nextPledge,
    { h with pledges := Function.update h.pledges h.nextPledge p, nextPledge := h.nextPledge + 1 })

/-- `append` of a pledge pointer. -/
def appendPledge (s : Slice) (p : ℕ) : Slice × Heap :=
  let r := h.pledgeArrays.append g s p
  (r.1, { h with pledgeArrays := r.2 })

/-- A pledge slice as a copy loop or the decoder builds it: for each pledge a new object,
appended to a slice that starts as `make([]*Pledge, 0, 0)`. -/
def buildPledges (ps : List Pledge) : Slice × Heap :=
  let start := h.pledgeArrays.alloc [] 0
  ps.foldl (fun acc p =>
      let q := acc.2.newPledge p
      q.2.appendPledge g acc.1 q.1)
    (start.1, { h with pledgeArrays := start.2 })

/-- A registry laid out afresh, as `CloneTeWakaImpl` and the RLP decoder lay it out. -/
def build (twi : TeWakaImpl) : TeWakaRef × Heap :=
  let ps := h.buildPledges g twi.pledgeInfos
  let cs := ps.2.convertArrays.build g twi.convertItems
  let us := ps.2.usedArrays.build g twi.usedItems
  (⟨ps.1, cs.1, us.1⟩, { ps.2 with convertArrays := cs.2, usedArrays := us.2 })

/-- `CloneTeWakaImpl`: every pledge and convert item copied with its `Clone`, the used items
appended as they are. -/
def clone (r : TeWakaRef) : TeWakaRef × Heap :=
  h.build g (h.read r).clone

/-- `NewTeWakaImpl`: three slices from `make(…, 0, 0)`. -/
def newTeWakaImpl : TeWakaRef × Heap :=
  h.build g TeWakaImpl.empty

/-! ### The methods, in place -/

/-- `Mortgage`: a new pledge appended. -/
def mortgage (r : TeWakaRef) (address toAddress : Address) (pubKey : Bytes) (amount : ℕ)
    (cba : List Address) : TeWakaRef × Heap :=
  let q := h.newPledge ⟨address, pubKey, toAddress, amount, cba⟩
  let s := q.2.appendPledge g r.pledgeInfos q.1
  ({ r with pledgeInfos := s.1 }, s.2)

/-- `Update`: the first pledge of `address` gets the coinbases `cba`, written through its
pointer; `false` when there is none. -/
def update (r : TeWakaRef) (address : Address) (cba : List Address) : Bool × Heap :=
  match (h.ptrs r).find? (fun p => (h.pledges p).address = address) with
  | some p =>
    (true, { h with pledges :=
      Function.update h.pledges p { h.pledges p with coinBaseAddress := cba } })
  | none => (false, h)

/-- `Convert`: the item appended. -/
def convert (r : TeWakaRef) (item : ConvertItem) : TeWakaRef × Heap :=
  let s := h.convertArrays.append g r.convertItems item
  ({ r with convertItems := s.1 }, { h with convertArrays := s.2 })

/-- `Confirm`: the first item with the ID deleted in place, by
`append(twi.ConvertItems[:i], twi.ConvertItems[i+1:]...)`. -/
def confirm (r : TeWakaRef) (item : ConvertItem) : TeWakaRef × Heap :=
  match (h.convertArrays.contents r.convertItems).findIdx? (fun v => v.id = item.id) with
  | some i =>
    let s := h.convertArrays.deleteAt r.convertItems i
    ({ r with convertItems := s.1 }, { h with convertArrays := s.2 })
  | none => (r, h)

/-- `SetItem`: the item appended unless `findItem` finds it. -/
def setItem (r : TeWakaRef) (item : UsedItem) : TeWakaRef × Heap :=
  if item ∈ h.usedArrays.contents r.usedItems then (r, h)
  else
    let s := h.usedArrays.append g r.usedItems item
    ({ r with usedItems := s.1 }, { h with usedArrays := s.2 })

/-- `KeepItemsByEpoch`: the used items written to the record store, and the slice replaced by
`make([]*types.UsedItem, 0, 0)`. -/
def keepItemsByEpoch (r : TeWakaRef) (db : RecordStore) : (TeWakaRef × Heap) × RecordStore :=
  let s := h.usedArrays.alloc [] 0
  (({ r with usedItems := s.1 }, { h with usedArrays := s.2 }), (h.read r).dumpUsedItems db)

/-! ### Footprints -/

/-- A value fits the heap: its headers fit their arrays, and its pledge pointers are distinct
allocated objects. -/
structure WF (r : TeWakaRef) : Prop where
  pledgeFits : h.pledgeArrays.Fits r.pledgeInfos
  convertFits : h.convertArrays.Fits r.convertItems
  usedFits : h.usedArrays.Fits r.usedItems
  nodup : (h.ptrs r).Nodup
  ptrs_lt : ∀ p ∈ h.ptrs r, p < h.nextPledge

/-- Two values share no array and no pledge. -/
structure Apart (r t : TeWakaRef) : Prop where
  pledgeArray : r.pledgeInfos.array ≠ t.pledgeInfos.array
  convertArray : r.convertItems.array ≠ t.convertItems.array
  usedArray : r.usedItems.array ≠ t.usedItems.array
  ptrs : ∀ p ∈ h.ptrs r, p ∉ h.ptrs t

end Heap

/-- `h'` differs from `h` at most in the arrays and pledges of `r` and in fresh ones. -/
structure Heap.ChangesOnly (h h' : Heap) (r : TeWakaRef) : Prop where
  pledgeArrays : h.pledgeArrays.ChangesOnly h'.pledgeArrays r.pledgeInfos.array
  convertArrays : h.convertArrays.ChangesOnly h'.convertArrays r.convertItems.array
  usedArrays : h.usedArrays.ChangesOnly h'.usedArrays r.usedItems.array
  nextPledge_le : h.nextPledge ≤ h'.nextPledge
  pledges_eq : ∀ p, p < h.nextPledge → p ∉ h.ptrs r → h'.pledges p = h.pledges p

/-- `h'` differs from `h` only in fresh arrays and pledges. -/
structure Heap.Grows (h h' : Heap) : Prop where
  pledgeArrays : h.pledgeArrays.Grows h'.pledgeArrays
  convertArrays : h.convertArrays.Grows h'.convertArrays
  usedArrays : h.usedArrays.Grows h'.usedArrays
  nextPledge_le : h.nextPledge ≤ h'.nextPledge
  pledges_eq : ∀ p, p < h.nextPledge → h'.pledges p = h.pledges p

/-- The value `r'`, in `h'`, uses the arrays and pledges of `r`, in `h`, and fresh ones only. -/
structure Heap.Within (h h' : Heap) (r r' : TeWakaRef) : Prop where
  pledgeArray : r'.pledgeInfos.array = r.pledgeInfos.array ∨
    h.pledgeArrays.next ≤ r'.pledgeInfos.array
  convertArray : r'.convertItems.array = r.convertItems.array ∨
    h.convertArrays.next ≤ r'.convertItems.array
  usedArray : r'.usedItems.array = r.usedItems.array ∨ h.usedArrays.next ≤ r'.usedItems.array
  ptrs : ∀ p ∈ h'.ptrs r', p ∈ h.ptrs r ∨ h.nextPledge ≤ p

/-- The value `r'`, in `h'`, uses fresh arrays and pledges only. -/
structure Heap.Fresh (h h' : Heap) (r' : TeWakaRef) : Prop where
  pledgeArray : h.pledgeArrays.next ≤ r'.pledgeInfos.array
  convertArray : h.convertArrays.next ≤ r'.convertItems.array
  usedArray : h.usedArrays.next ≤ r'.usedItems.array
  ptrs : ∀ p ∈ h'.ptrs r', h.nextPledge ≤ p

namespace Heap

section Frame

variable {h h' h'' : Heap} {r r' t : TeWakaRef}

theorem Apart.symm (hap : h.Apart r t) : h.Apart t r :=
  ⟨hap.pledgeArray.symm, hap.convertArray.symm, hap.usedArray.symm,
    fun p hpt hpr => hap.ptrs p hpr hpt⟩

theorem Grows.refl (h : Heap) : h.Grows h :=
  ⟨.refl _, .refl _, .refl _, Nat.le_refl _, fun _ _ => rfl⟩

theorem Grows.trans (h₁ : h.Grows h') (h₂ : h'.Grows h'') : h.Grows h'' :=
  ⟨h₁.pledgeArrays.trans h₂.pledgeArrays, h₁.convertArrays.trans h₂.convertArrays,
    h₁.usedArrays.trans h₂.usedArrays, Nat.le_trans h₁.nextPledge_le h₂.nextPledge_le,
    fun p hp => (h₂.pledges_eq p (Nat.lt_of_lt_of_le hp h₁.nextPledge_le)).trans
      (h₁.pledges_eq p hp)⟩

theorem Grows.changesOnly (hg : h.Grows h') (r : TeWakaRef) : h.ChangesOnly h' r :=
  ⟨hg.pledgeArrays.changesOnly _, hg.convertArrays.changesOnly _, hg.usedArrays.changesOnly _,
    hg.nextPledge_le, fun p hp _ => hg.pledges_eq p hp⟩

/-- A value apart from the one changed reads as it did, and still fits. -/
theorem ChangesOnly.frame (hc : h.ChangesOnly h' r) (hap : h.Apart r t) (ht : h.WF t) :
    h'.read t = h.read t ∧ h'.ptrs t = h.ptrs t ∧ h'.WF t := by
  obtain ⟨hpc, hpf⟩ := hc.pledgeArrays.contents ht.pledgeFits hap.pledgeArray.symm
  obtain ⟨hcc, hcf⟩ := hc.convertArrays.contents ht.convertFits hap.convertArray.symm
  obtain ⟨huc, huf⟩ := hc.usedArrays.contents ht.usedFits hap.usedArray.symm
  have hptrs : h'.ptrs t = h.ptrs t := hpc
  -- the pledges of `t` are not those of `r`, so none of them was written
  have hpledges : (h.ptrs t).map h'.pledges = (h.ptrs t).map h.pledges :=
    List.map_congr_left fun p hp =>
      hc.pledges_eq p (ht.ptrs_lt p hp) fun hpr => hap.ptrs p hpr hp
  refine ⟨?_, hptrs, hpf, hcf, huf, hptrs ▸ ht.nodup,
    fun p hp => Nat.lt_of_lt_of_le (ht.ptrs_lt p (hptrs ▸ hp)) hc.nextPledge_le⟩
  simp only [read, hptrs, hpledges, hcc, huc]

theorem Grows.frame (hg : h.Grows h') (ht : h.WF t) :
    h'.read t = h.read t ∧ h'.ptrs t = h.ptrs t ∧ h'.WF t := by
  obtain ⟨hpc, hpf⟩ := hg.pledgeArrays.contents ht.pledgeFits
  obtain ⟨hcc, hcf⟩ := hg.convertArrays.contents ht.convertFits
  obtain ⟨huc, huf⟩ := hg.usedArrays.contents ht.usedFits
  have hptrs : h'.ptrs t = h.ptrs t := hpc
  have hpledges : (h.ptrs t).map h'.pledges = (h.ptrs t).map h.pledges :=
    List.map_congr_left fun p hp => hg.pledges_eq p (ht.ptrs_lt p hp)
  refine ⟨?_, hptrs, hpf, hcf, huf, hptrs ▸ ht.nodup,
    fun p hp => Nat.lt_of_lt_of_le (ht.ptrs_lt p (hptrs ▸ hp)) hg.nextPledge_le⟩
  simp only [read, hptrs, hpledges, hcc, huc]

/-- Apartness reads only the pointers, so it lasts while they do. -/
theorem Apart.of_ptrs (hap : h.Apart r t) (hr : h'.ptrs r = h.ptrs r) (ht : h'.ptrs t = h.ptrs t) :
    h'.Apart r t :=
  ⟨hap.pledgeArray, hap.convertArray, hap.usedArray, fun p hp hpt =>
    hap.ptrs p (hr ▸ hp) (ht ▸ hpt)⟩

/-- A value that stays within `r` stays apart from what was apart from `r`. -/
theorem Within.apart (hw : h.Within h' r r') (hap : h.Apart r t) (ht : h.WF t)
    (hptrs : h'.ptrs t = h.ptrs t) : h'.Apart r' t := by
  refine ⟨?_, ?_, ?_, fun p hp hpt => ?_⟩
  · rcases hw.pledgeArray with he | hge
    · rw [he]
      exact hap.pledgeArray
    · exact fun he => Nat.lt_irrefl _ (Nat.lt_of_lt_of_le ht.pledgeFits.lt_next (he ▸ hge))
  · rcases hw.convertArray with he | hge
    · rw [he]
      exact hap.convertArray
    · exact fun he => Nat.lt_irrefl _ (Nat.lt_of_lt_of_le ht.convertFits.lt_next (he ▸ hge))
  · rcases hw.usedArray with he | hge
    · rw [he]
      exact hap.usedArray
    · exact fun he => Nat.lt_irrefl _ (Nat.lt_of_lt_of_le ht.usedFits.lt_next (he ▸ hge))
  · rw [hptrs] at hpt
    rcases hw.ptrs p hp with hpr | hge
    · exact hap.ptrs p hpr hpt
    · exact Nat.lt_irrefl _ (Nat.lt_of_lt_of_le (ht.ptrs_lt p hpt) hge)

/-- A fresh value is apart from every value that fitted before it. -/
theorem Fresh.apart (hf : h.Fresh h' r') (ht : h.WF t) (hptrs : h'.ptrs t = h.ptrs t) :
    h'.Apart r' t := by
  refine ⟨fun he => ?_, fun he => ?_, fun he => ?_, fun p hp hpt => ?_⟩
  · exact Nat.lt_irrefl _ (Nat.lt_of_lt_of_le ht.pledgeFits.lt_next (he ▸ hf.pledgeArray))
  · exact Nat.lt_irrefl _ (Nat.lt_of_lt_of_le ht.convertFits.lt_next (he ▸ hf.convertArray))
  · exact Nat.lt_irrefl _ (Nat.lt_of_lt_of_le ht.usedFits.lt_next (he ▸ hf.usedArray))
  · rw [hptrs] at hpt
    exact Nat.lt_irrefl _ (Nat.lt_of_lt_of_le (ht.ptrs_lt p hpt) (hf.ptrs p hp))

/-- A value laid out afresh on a heap that only grew is apart from every value that fitted. -/
theorem Fresh.apart_of_grows (hg : h.Grows h') (hf : h.Fresh h' r') (ht : h.WF t) :
    h'.Apart r' t :=
  hf.apart ht (hg.frame ht).2.1

/-- What is fresh for a heap is fresh for an earlier one. -/
theorem Fresh.of_grows (hg : h.Grows h') (hf : h'.Fresh h'' r') : h.Fresh h'' r' :=
  ⟨Nat.le_trans hg.pledgeArrays.next_le hf.pledgeArray,
    Nat.le_trans hg.convertArrays.next_le hf.convertArray,
    Nat.le_trans hg.usedArrays.next_le hf.usedArray,
    fun p hp => Nat.le_trans hg.nextPledge_le (hf.ptrs p hp)⟩

end Frame

/-! ### Laying a value out -/

section Build

variable (g : Growth) (h : Heap)

/-- The pledge loop so far: a fitting slice over a fresh array, holding new objects for the
pledges done, in order; the other arrays as they were, and the older objects untouched. -/
structure PledgeLoop (done : List Pledge) (acc : Slice × Heap) : Prop where
  fits : acc.2.pledgeArrays.Fits acc.1
  grows : h.pledgeArrays.Grows acc.2.pledgeArrays
  fresh : h.pledgeArrays.next ≤ acc.1.array
  read : (acc.2.pledgeArrays.contents acc.1).map acc.2.pledges = done
  nodup : (acc.2.pledgeArrays.contents acc.1).Nodup
  range : ∀ p ∈ acc.2.pledgeArrays.contents acc.1, h.nextPledge ≤ p ∧ p < acc.2.nextPledge
  nextPledge_le : h.nextPledge ≤ acc.2.nextPledge
  pledges_eq : ∀ p, p < h.nextPledge → acc.2.pledges p = h.pledges p
  convertArrays : acc.2.convertArrays = h.convertArrays
  usedArrays : acc.2.usedArrays = h.usedArrays

variable {h}

theorem pledgeLoop_start :
    PledgeLoop h [] ((h.pledgeArrays.alloc [] 0).1,
      { h with pledgeArrays := (h.pledgeArrays.alloc [] 0).2 }) := by
  obtain ⟨hfit, hcont, hgrow, harr⟩ := h.pledgeArrays.alloc_spec ([] : List ℕ) (Nat.le_refl 0)
  refine ⟨hfit, hgrow, Nat.le_of_eq harr.symm, ?_, ?_, ?_, Nat.le_refl _, fun _ _ => rfl, rfl,
    rfl⟩
  · simp only [hcont, List.map_nil]
  · simp only [hcont, List.nodup_nil]
  · simp [hcont]

/-- One turn of the pledge loop: a new object, appended. -/
theorem PledgeLoop.step {done : List Pledge} {acc : Slice × Heap} (hl : PledgeLoop h done acc)
    (p : Pledge) :
    PledgeLoop h (done ++ [p])
      ((acc.2.newPledge p).2.appendPledge g acc.1 (acc.2.newPledge p).1) := by
  obtain ⟨hfit, hcont, hchg, harr⟩ := acc.2.pledgeArrays.append_spec g hl.fits acc.2.nextPledge
  have hold : ∀ q ∈ acc.2.pledgeArrays.contents acc.1, q ≠ acc.2.nextPledge :=
    fun q hq => Nat.ne_of_lt (hl.range q hq).2
  refine ⟨hfit, hl.grows.trans_changesOnly hchg hl.fresh, ?_, ?_, ?_, ?_, ?_, ?_,
    hl.convertArrays, hl.usedArrays⟩
  · rcases harr with harr | harr
    · exact harr ▸ hl.fresh
    · exact Nat.le_trans hl.grows.next_le harr
  · -- the older pointers are below the new object, whose value is `p`
    show ((acc.2.pledgeArrays.append g acc.1 acc.2.nextPledge).2.contents
      (acc.2.pledgeArrays.append g acc.1 acc.2.nextPledge).1).map
        (Function.update acc.2.pledges acc.2.nextPledge p) = done ++ [p]
    rw [hcont, List.map_append, ← hl.read, List.map_congr_left fun q hq =>
      Function.update_of_ne (hold q hq) _ _]
    simp
  · show ((acc.2.pledgeArrays.append g acc.1 acc.2.nextPledge).2.contents
      (acc.2.pledgeArrays.append g acc.1 acc.2.nextPledge).1).Nodup
    rw [hcont, ← List.concat_eq_append]
    exact hl.nodup.concat fun hmem => hold _ hmem rfl
  · intro q hq
    change q ∈ (acc.2.pledgeArrays.append g acc.1 acc.2.nextPledge).2.contents
      (acc.2.pledgeArrays.append g acc.1 acc.2.nextPledge).1 at hq
    rw [hcont, List.mem_append, List.mem_singleton] at hq
    show h.nextPledge ≤ q ∧ q < acc.2.nextPledge + 1
    rcases hq with hq | rfl
    · exact ⟨(hl.range q hq).1, Nat.lt_succ_of_lt (hl.range q hq).2⟩
    · exact ⟨hl.nextPledge_le, Nat.lt_succ_self _⟩
  · exact Nat.le_succ_of_le hl.nextPledge_le
  · intro q hq
    show Function.update acc.2.pledges acc.2.nextPledge p q = h.pledges q
    rw [Function.update_of_ne (by have := hl.nextPledge_le; omega)]
    exact hl.pledges_eq q hq

theorem buildPledges_spec (ps : List Pledge) : PledgeLoop h ps (h.buildPledges g ps) := by
  -- the loop, from any state of it
  suffices H : ∀ (l done : List Pledge) (acc : Slice × Heap), PledgeLoop h done acc →
      PledgeLoop h (done ++ l) (l.foldl (fun acc p =>
        ((acc.2.newPledge p).2.appendPledge g acc.1 (acc.2.newPledge p).1)) acc) by
    have hloop := H ps [] _ pledgeLoop_start
    rw [List.nil_append] at hloop
    exact hloop
  intro l
  induction l with
  | nil => exact fun done acc hl => by simpa using hl
  | cons p l ih =>
    intro done acc hl
    rw [List.foldl_cons, ← List.singleton_append, ← List.append_assoc]
    exact ih _ _ (hl.step g p)

/-- A value laid out afresh fits, holds what it was laid out from, and uses fresh arrays and
pledges only; the rest of the heap only grows. -/
theorem build_spec (twi : TeWakaImpl) :
    (h.build g twi).2.WF (h.build g twi).1 ∧ (h.build g twi).2.read (h.build g twi).1 = twi ∧
      h.Grows (h.build g twi).2 ∧ h.Fresh (h.build g twi).2 (h.build g twi).1 := by
  have hl : PledgeLoop h twi.pledgeInfos (h.buildPledges g twi.pledgeInfos) :=
    buildPledges_spec g twi.pledgeInfos
  obtain ⟨hcf, hcc, hcg, hca⟩ :=
    (h.buildPledges g twi.pledgeInfos).2.convertArrays.build_spec g twi.convertItems
  obtain ⟨huf, huc, hug, hua⟩ :=
    (h.buildPledges g twi.pledgeInfos).2.usedArrays.build_spec g twi.usedItems
  -- the pledge loop leaves the other two heaps of arrays as they were
  have hc₀ : h.convertArrays.Grows (h.buildPledges g twi.pledgeInfos).2.convertArrays :=
    hl.convertArrays ▸ Arrays.Grows.refl _
  have hu₀ : h.usedArrays.Grows (h.buildPledges g twi.pledgeInfos).2.usedArrays :=
    hl.usedArrays ▸ Arrays.Grows.refl _
  refine ⟨⟨hl.fits, hcf, huf, hl.nodup, fun p hp => (hl.range p hp).2⟩, ?_,
    ⟨hl.grows, hc₀.trans hcg, hu₀.trans hug, hl.nextPledge_le, hl.pledges_eq⟩,
    ⟨hl.fresh, Nat.le_trans hc₀.next_le hca, Nat.le_trans hu₀.next_le hua,
      fun p hp => (hl.range p hp).1⟩⟩
  simp only [build, read, ptrs]
  rw [hl.read, hcc, huc]

/-- A clone is laid out afresh and reads as the original. -/
theorem clone_spec (r : TeWakaRef) :
    (h.clone g r).2.WF (h.clone g r).1 ∧ (h.clone g r).2.read (h.clone g r).1 = h.read r ∧
      h.Grows (h.clone g r).2 ∧ h.Fresh (h.clone g r).2 (h.clone g r).1 := by
  have hclone : h.clone g r = h.build g (h.read r) := by rw [clone, TeWakaImpl.clone_eq]
  rw [hclone]
  exact h.build_spec g (h.read r)

/-- `NewTeWakaImpl` lays out the empty registry afresh. -/
theorem newTeWakaImpl_spec :
    (h.newTeWakaImpl g).2.WF (h.newTeWakaImpl g).1 ∧
      (h.newTeWakaImpl g).2.read (h.newTeWakaImpl g).1 = TeWakaImpl.empty ∧
      h.Grows (h.newTeWakaImpl g).2 ∧ h.Fresh (h.newTeWakaImpl g).2 (h.newTeWakaImpl g).1 :=
  h.build_spec g TeWakaImpl.empty

end Build

/-! ### The methods -/

/-- What a method is shown to do when it leaves `r'` in `h'`: the value fits and reads as `v`,
only the arrays and pledges of `r` and fresh ones were written, and `r'` uses no others. -/
structure Moves (h h' : Heap) (r r' : TeWakaRef) (v : TeWakaImpl) : Prop where
  wf : h'.WF r'
  read : h'.read r' = v
  changesOnly : h.ChangesOnly h' r
  within : h.Within h' r r'

section Methods

variable (g : Growth) {h : Heap} {r : TeWakaRef}

/-- A method that leaves the heap and the value as they were. -/
theorem moves_self (hr : h.WF r) : Moves h h r r (h.read r) :=
  ⟨hr, rfl, (Grows.refl h).changesOnly r, .inl rfl, .inl rfl, .inl rfl, fun _ hp => .inl hp⟩

/-- A method that replaces the convert-item slice by one over its own array or a fresh one. -/
theorem moves_convertArrays (hr : h.WF r) {arrs : Arrays ConvertItem} {s : Slice}
    (hfit : arrs.Fits s) (hc : h.convertArrays.ChangesOnly arrs r.convertItems.array)
    (harr : s.array = r.convertItems.array ∨ h.convertArrays.next ≤ s.array) :
    Moves h { h with convertArrays := arrs } r { r with convertItems := s }
      { h.read r with convertItems := arrs.contents s } :=
  ⟨⟨hr.pledgeFits, hfit, hr.usedFits, hr.nodup, hr.ptrs_lt⟩, rfl,
    ⟨(Arrays.Grows.refl _).changesOnly _, hc, (Arrays.Grows.refl _).changesOnly _, Nat.le_refl _,
      fun _ _ _ => rfl⟩, .inl rfl, harr, .inl rfl, fun _ hp => .inl hp⟩

/-- A method that replaces the used-item slice by one over its own array or a fresh one. -/
theorem moves_usedArrays (hr : h.WF r) {arrs : Arrays UsedItem} {s : Slice}
    (hfit : arrs.Fits s) (hc : h.usedArrays.ChangesOnly arrs r.usedItems.array)
    (harr : s.array = r.usedItems.array ∨ h.usedArrays.next ≤ s.array) :
    Moves h { h with usedArrays := arrs } r { r with usedItems := s }
      { h.read r with usedItems := arrs.contents s } :=
  ⟨⟨hr.pledgeFits, hr.convertFits, hfit, hr.nodup, hr.ptrs_lt⟩, rfl,
    ⟨(Arrays.Grows.refl _).changesOnly _, (Arrays.Grows.refl _).changesOnly _, hc, Nat.le_refl _,
      fun _ _ _ => rfl⟩, .inl rfl, .inl rfl, harr, fun _ hp => .inl hp⟩

theorem mortgage_spec (hr : h.WF r) (address toAddress : Address) (pubKey : Bytes) (amount : ℕ)
    (cba : List Address) :
    Moves h (h.mortgage g r address toAddress pubKey amount cba).2 r
      (h.mortgage g r address toAddress pubKey amount cba).1
      ((h.read r).mortgage address toAddress pubKey amount cba) := by
  obtain ⟨hfit, hcont, hchg, harr⟩ := h.pledgeArrays.append_spec g hr.pledgeFits h.nextPledge
  have hold : ∀ q ∈ h.ptrs r, q ≠ h.nextPledge := fun q hq => Nat.ne_of_lt (hr.ptrs_lt q hq)
  -- the pointers after: the old ones and the new object
  have hptrs : (h.mortgage g r address toAddress pubKey amount cba).2.ptrs
      (h.mortgage g r address toAddress pubKey amount cba).1 = h.ptrs r ++ [h.nextPledge] := hcont
  refine ⟨⟨hfit, hr.convertFits, hr.usedFits, ?_, fun q hq => ?_⟩, ?_,
    ⟨hchg, (Arrays.Grows.refl _).changesOnly _, (Arrays.Grows.refl _).changesOnly _,
      Nat.le_succ _, fun q hq _ => Function.update_of_ne (Nat.ne_of_lt hq) _ _⟩,
    harr, .inl rfl, .inl rfl, fun q hq => ?_⟩
  · rw [hptrs, ← List.concat_eq_append]
    exact hr.nodup.concat fun hmem => hold _ hmem rfl
  · rw [hptrs, List.mem_append, List.mem_singleton] at hq
    show q < h.nextPledge + 1
    rcases hq with hq | rfl
    · exact Nat.lt_succ_of_lt (hr.ptrs_lt q hq)
    · exact Nat.lt_succ_self _
  · have hpl : (h.mortgage g r address toAddress pubKey amount cba).2.pledges =
        Function.update h.pledges h.nextPledge ⟨address, pubKey, toAddress, amount, cba⟩ := rfl
    show (⟨_, _, _⟩ : TeWakaImpl) = _
    rw [hptrs, hpl, List.map_append,
      List.map_congr_left fun q hq => Function.update_of_ne (hold q hq) _ _]
    simp [read, TeWakaImpl.mortgage]
    exact ⟨rfl, rfl⟩
  · rw [hptrs, List.mem_append, List.mem_singleton] at hq
    rcases hq with hq | rfl
    · exact .inl hq
    · exact .inr (Nat.le_refl _)

/-- The loop of `Update` over distinct pointers: the pledge found is written through its pointer,
which changes that entry only. -/
theorem updatePledges_map_ptrs (pl : ℕ → Pledge) (address : Address) (cba : List Address) :
    ∀ {l : List ℕ}, l.Nodup →
      TeWakaImpl.updatePledges address cba (l.map pl) =
        (l.find? fun p => (pl p).address = address).map fun p =>
          l.map (Function.update pl p { pl p with coinBaseAddress := cba })
  | [], _ => rfl
  | q :: l, hnd => by
    obtain ⟨hq, hl⟩ := List.nodup_cons.mp hnd
    by_cases hqa : (pl q).address = address
    · have hrest : l.map (Function.update pl q { pl q with coinBaseAddress := cba }) = l.map pl :=
        List.map_congr_left fun p hp => Function.update_of_ne (ne_of_mem_of_not_mem hp hq) _ _
      have hfq : (q :: l).find? (fun p => (pl p).address = address) = some q :=
        List.find?_cons_of_pos (by simpa using hqa)
      rw [List.map_cons, TeWakaImpl.updatePledges, if_pos hqa, hfq, Option.map_some, List.map_cons,
        Function.update_self, hrest]
    · rw [List.map_cons, TeWakaImpl.updatePledges, if_neg hqa,
        updatePledges_map_ptrs pl address cba hl,
        List.find?_cons_of_neg (by simpa using hqa)]
      cases hfind : l.find? (fun p => (pl p).address = address) with
      | none => rfl
      | some p =>
        have hpq : q ≠ p := fun h => hq (h ▸ List.mem_of_find?_eq_some hfind)
        simp [Function.update_of_ne hpq]

theorem update_spec (hr : h.WF r) (address : Address) (cba : List Address) :
    Moves h (h.update r address cba).2 r r (((h.read r).update address cba).getD (h.read r)) ∧
      (h.update r address cba).1 = ((h.read r).update address cba).isSome := by
  have hupd : (h.read r).update address cba =
      ((h.ptrs r).find? fun p => (h.pledges p).address = address).map fun p =>
        { h.read r with pledgeInfos :=
          ((h.ptrs r).map
            (Function.update h.pledges p { h.pledges p with coinBaseAddress := cba })) } := by
    rw [TeWakaImpl.update, read, updatePledges_map_ptrs _ _ _ hr.nodup, Option.map_map]
    rfl
  unfold update
  rw [hupd]
  cases hfind : (h.ptrs r).find? (fun p => (h.pledges p).address = address) with
  | none => exact ⟨moves_self hr, rfl⟩
  | some p =>
    have hp : p ∈ h.ptrs r := List.mem_of_find?_eq_some hfind
    refine ⟨⟨⟨hr.pledgeFits, hr.convertFits, hr.usedFits, hr.nodup, hr.ptrs_lt⟩, rfl,
      ⟨(Arrays.Grows.refl _).changesOnly _, (Arrays.Grows.refl _).changesOnly _,
        (Arrays.Grows.refl _).changesOnly _, Nat.le_refl _,
        fun q _ hq => Function.update_of_ne (ne_of_mem_of_not_mem hp hq).symm _ _⟩,
      .inl rfl, .inl rfl, .inl rfl, fun q hq => .inl hq⟩, rfl⟩

theorem convert_spec (hr : h.WF r) (item : ConvertItem) :
    Moves h (h.convert g r item).2 r (h.convert g r item).1 ((h.read r).convert item) := by
  obtain ⟨hfit, hcont, hchg, harr⟩ := h.convertArrays.append_spec g hr.convertFits item
  have hm := moves_convertArrays hr hfit hchg harr
  rw [hcont] at hm
  exact hm

theorem confirm_spec (hr : h.WF r) (item : ConvertItem) :
    Moves h (h.confirm r item).2 r (h.confirm r item).1 ((h.read r).confirm item) := by
  have hconfirm : (h.read r).confirm item =
      { h.read r with convertItems :=
        (((h.read r).convertItems.findIdx? fun v => v.id = item.id).elim (h.read r).convertItems
          fun i => (h.read r).convertItems.eraseIdx i) } := by
    rw [TeWakaImpl.confirm, List.eraseP_eq_eraseIdx]
    cases (h.read r).convertItems.findIdx? fun v => v.id = item.id <;> rfl
  have hitems : (h.read r).convertItems = h.convertArrays.contents r.convertItems := rfl
  rw [hconfirm, hitems]
  unfold confirm
  cases hfind : (h.convertArrays.contents r.convertItems).findIdx? (fun v => v.id = item.id) with
  | none => exact moves_self hr
  | some i =>
    -- the index found is one of the slice's, so the deletion stays in its array
    have hi : i < r.convertItems.len := by
      have hlt := (List.findIdx?_eq_some_iff_getElem.mp hfind).1
      simpa [Arrays.contents, hr.convertFits.length_cells, hr.convertFits.len_le] using hlt
    obtain ⟨hfit, hcont, hchg, harr⟩ := h.convertArrays.deleteAt_spec hr.convertFits hi
    have hm := moves_convertArrays hr hfit hchg (.inl harr)
    rw [hcont] at hm
    exact hm

theorem setItem_spec (hr : h.WF r) (item : UsedItem) :
    Moves h (h.setItem g r item).2 r (h.setItem g r item).1 ((h.read r).setItem item) := by
  unfold setItem TeWakaImpl.setItem TeWakaImpl.findItem
  by_cases hmem : item ∈ h.usedArrays.contents r.usedItems
  · have hfound : decide (item ∈ (h.read r).usedItems) = true := decide_eq_true hmem
    rw [if_pos hmem, if_pos hfound]
    exact moves_self hr
  · have hfound : ¬decide (item ∈ (h.read r).usedItems) = true :=
      fun hd => hmem (of_decide_eq_true hd)
    rw [if_neg hmem, if_neg hfound]
    obtain ⟨hfit, hcont, hchg, harr⟩ := h.usedArrays.append_spec g hr.usedFits item
    have hm := moves_usedArrays hr hfit hchg harr
    rw [hcont] at hm
    exact hm

theorem keepItemsByEpoch_spec (hr : h.WF r) (db : RecordStore) :
    Moves h (h.keepItemsByEpoch r db).1.2 r (h.keepItemsByEpoch r db).1.1
      ((h.read r).keepItemsByEpoch db).1 ∧
      (h.keepItemsByEpoch r db).2 = ((h.read r).keepItemsByEpoch db).2 := by
  obtain ⟨hfit, hcont, hgrow, harr⟩ :=
    h.usedArrays.alloc_spec ([] : List UsedItem) (Nat.le_refl 0)
  have hm := moves_usedArrays hr hfit (hgrow.changesOnly _) (.inr (Nat.le_of_eq harr.symm))
  rw [hcont] at hm
  exact ⟨hm, rfl⟩

end Methods

end Heap

end Classzz.Vm
