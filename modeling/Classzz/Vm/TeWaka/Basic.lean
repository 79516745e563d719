import Classzz.Common.Types

/-!
# The Te Waka registry

The data the Te Waka precompile keeps in its storage slot (`TeWakaImpl`):
the pledges of the stakers, the conversions waiting for their mint on the
target chain, and the used side-chain transactions of the current epoch.
The methods of `TeWakaImpl` are list operations; `Update` and `Confirm`,
which mutate a pledge or the item list in place, return the new registry.

The used-item record store is the disk database behind `HasRecord` and
`WriteRecord`, keyed by the asset type widened to 64 bits and the hash. It is
a list of the keys written, so it behaves as a finite set.
-/

namespace Classzz.Vm

/-! ### Constants of `te_waka.go` and `te_waka_impl.go` -/

def expandedTxConvertCzz : UInt8 := 0
def expandedTxConvertECzz : UInt8 := 1
def expandedTxConvertHCzz : UInt8 := 2
def expandedTxConvertBCzz : UInt8 := 3
def expandedTxConvertOCzz : UInt8 := 4
def expandedTxConvertPCzz : UInt8 := 5
def expandedTxConvertMCzz : UInt8 := 6
def expandedTxConvertGCzz : UInt8 := 7

def baseUnit : ℕ := 10 ^ 18
def int10 : ℕ := 10 ^ 10
def int1000 : ℕ := 1000
def mortgageToMin : ℕ := 257
def mortgageToMax : ℕ := 356
def mimStakingAmount : ℕ := 1000000 * baseUnit

/-- `Address0 = common.BytesToAddress([]byte{0})`, the fee sink. It is the
zero address, which is also what a missing `CoinPools` entry reads as. -/
def address0 : Address := bytesToAddress [0]

/-- `TeWaKaAddress = common.BytesToAddress([]byte("tewaka"))`. -/
def teWaKaAddress : Address := bytesToAddress [0x74, 0x65, 0x77, 0x61, 0x6b, 0x61]

def dumpHeight : ℕ := 50000

/-- The `CoinPools` map with its `ok` flag: the pool account of each side
chain, `BytesToAddress([]byte{101})` to `[]byte{107}`. -/
def coinPoolsLookup (t : UInt8) : Option Address :=
  match t with
  | 1 => some (bytesToAddress [101])
  | 2 => some (bytesToAddress [102])
  | 3 => some (bytesToAddress [103])
  | 4 => some (bytesToAddress [104])
  | 5 => some (bytesToAddress [105])
  | 6 => some (bytesToAddress [106])
  | 7 => some (bytesToAddress [107])
  | _ => none

/-- `CoinPools[t]`: a missing key reads as the zero address. -/
def coinPools (t : UInt8) : Address :=
  (coinPoolsLookup t).getD 0

/-! ### Registry entries, `core/types/te_waka.go` -/

/-- `types.Pledge`. -/
structure Pledge where
  address : Address
  pubKey : Bytes
  toAddress : Address
  stakingAmount : ℕ
  coinBaseAddress : List Address
  deriving DecidableEq, Repr

/-- `types.ConvertItem`: one conversion between two chains. -/
structure ConvertItem where
  id : ℤ
  assetType : UInt8
  convertType : UInt8
  txHash : Hash
  pubKey : Bytes
  amount : ℕ
  feeAmount : ℕ
  path : List Address
  routerAddr : Address
  slippage : ℕ
  isInsurance : Bool
  extra : Bytes
  deriving DecidableEq, Repr

/-- `types.UsedItem`: a side-chain transaction already consumed, under the
asset type it was consumed as. -/
structure UsedItem where
  atype : UInt8
  txHash : Hash
  deriving DecidableEq, Repr

/-- The disk record store of used items, as the keys written so far. -/
abbrev RecordStore := List (UInt64 × Hash)

/-- `rawdb.HasRecord`. -/
def hasRecord (db : RecordStore) (atype : UInt64) (hash : Hash) : Bool :=
  decide ((atype, hash) ∈ db)

/-- `rawdb.WriteRecord`. -/
def writeRecord (db : RecordStore) (atype : UInt64) (hash : Hash) : RecordStore :=
  (atype, hash) :: db

theorem hasRecord_writeRecord (db : RecordStore) (a b : UInt64) (h k : Hash) :
    hasRecord (writeRecord db a h) b k = (decide ((b, k) = (a, h)) || hasRecord db b k) := by
  simp [hasRecord, writeRecord]

/-- The record key of a used item. -/
def recordKey (v : UsedItem) : UInt64 × Hash :=
  (v.atype.toUInt64, v.txHash)

/-- `TeWakaImpl`. -/
structure TeWakaImpl where
  pledgeInfos : List Pledge
  convertItems : List ConvertItem
  usedItems : List UsedItem
  deriving DecidableEq, Repr

namespace TeWakaImpl

/-- `NewTeWakaImpl`. -/
def empty : TeWakaImpl :=
  ⟨[], [], []⟩

/-- `Mortgage`: append a new pledge. -/
def mortgage (twi : TeWakaImpl) (address toAddress : Address) (pubKey : Bytes)
    (amount : ℕ) (cba : List Address) : TeWakaImpl :=
  { twi with pledgeInfos := twi.pledgeInfos ++ [⟨address, pubKey, toAddress, amount, cba⟩] }

/-- The loop of `Update`: the first pledge of `address` gets the coinbase list
`cba`; `none` when no pledge has that address. -/
def updatePledges (address : Address) (cba : List Address) :
    List Pledge → Option (List Pledge)
  | [] => none
  | p :: ps =>
      if p.address = address then some ({ p with coinBaseAddress := cba } :: ps)
      else (updatePledges address cba ps).map (p :: ·)

/-- `Update`, which returns `false` as `none`. -/
def update (twi : TeWakaImpl) (address : Address) (cba : List Address) :
    Option TeWakaImpl :=
  (updatePledges address cba twi.pledgeInfos).map fun ps =>
    { twi with pledgeInfos := ps }

/-- `Convert`: append a pending conversion. -/
def convert (twi : TeWakaImpl) (item : ConvertItem) : TeWakaImpl :=
  { twi with convertItems := twi.convertItems ++ [item] }

/-- `Confirm`: remove the first pending conversion with the item's ID. -/
def confirm (twi : TeWakaImpl) (item : ConvertItem) : TeWakaImpl :=
  { twi with convertItems := twi.convertItems.eraseP fun v => v.id = item.id }

/-- `GetStakeUser`: the first pledge made by `address`. -/
def getStakeUser (twi : TeWakaImpl) (address : Address) : Option Pledge :=
  twi.pledgeInfos.find? fun v => v.address = address

/-- `GetStakeToAddress`: the first pledge whose destination is `address`. -/
def getStakeToAddress (twi : TeWakaImpl) (address : Address) : Option Pledge :=
  twi.pledgeInfos.find? fun v => v.toAddress = address

/-- `GetStakingByUser`: the stake of every pledge that lists `address` among
its coinbases, each pledge counted once. -/
def getStakingByUser (twi : TeWakaImpl) (address : Address) : ℕ :=
  ((twi.pledgeInfos.filter fun v => address ∈ v.coinBaseAddress).map
    Pledge.stakingAmount).sum

/-- `findItem`. -/
def findItem (twi : TeWakaImpl) (item : UsedItem) : Bool :=
  decide (item ∈ twi.usedItems)

/-- `isItemFromDB`. -/
def isItemFromDB (item : UsedItem) (db : RecordStore) : Bool :=
  hasRecord db item.atype.toUInt64 item.txHash

/-- `HasItem`: used in the current epoch, or recorded on disk. -/
def hasItem (twi : TeWakaImpl) (item : UsedItem) (db : RecordStore) : Bool :=
  twi.findItem item || isItemFromDB item db

/-- `SetItem`: record an item once. -/
def setItem (twi : TeWakaImpl) (item : UsedItem) : TeWakaImpl :=
  if twi.findItem item then twi else { twi with usedItems := twi.usedItems ++ [item] }

/-- `dumpUsedItems`: write every used item of the epoch to the disk store. -/
def dumpUsedItems (twi : TeWakaImpl) (db : RecordStore) : RecordStore :=
  twi.usedItems.foldl (fun db v => writeRecord db v.atype.toUInt64 v.txHash) db

/-- `KeepItemsByEpoch`: dump the used items, then start the epoch afresh. -/
def keepItemsByEpoch (twi : TeWakaImpl) (db : RecordStore) :
    TeWakaImpl × RecordStore :=
  ({ twi with usedItems := [] }, twi.dumpUsedItems db)

@[simp] theorem mortgage_pledgeInfos (twi : TeWakaImpl) (address toAddress : Address)
    (pubKey : Bytes) (amount : ℕ) (cba : List Address) :
    (twi.mortgage address toAddress pubKey amount cba).pledgeInfos =
      twi.pledgeInfos ++ [⟨address, pubKey, toAddress, amount, cba⟩] := rfl

@[simp] theorem mortgage_usedItems (twi : TeWakaImpl) (address toAddress : Address)
    (pubKey : Bytes) (amount : ℕ) (cba : List Address) :
    (twi.mortgage address toAddress pubKey amount cba).usedItems = twi.usedItems := rfl

@[simp] theorem convert_pledgeInfos (twi : TeWakaImpl) (item : ConvertItem) :
    (twi.convert item).pledgeInfos = twi.pledgeInfos := rfl

@[simp] theorem convert_usedItems (twi : TeWakaImpl) (item : ConvertItem) :
    (twi.convert item).usedItems = twi.usedItems := rfl

@[simp] theorem confirm_pledgeInfos (twi : TeWakaImpl) (item : ConvertItem) :
    (twi.confirm item).pledgeInfos = twi.pledgeInfos := rfl

@[simp] theorem confirm_usedItems (twi : TeWakaImpl) (item : ConvertItem) :
    (twi.confirm item).usedItems = twi.usedItems := rfl

@[simp] theorem setItem_pledgeInfos (twi : TeWakaImpl) (item : UsedItem) :
    (twi.setItem item).pledgeInfos = twi.pledgeInfos := by
  unfold setItem
  split_ifs <;> rfl

theorem mem_setItem_usedItems (twi : TeWakaImpl) (item v : UsedItem) :
    v ∈ (twi.setItem item).usedItems ↔ v = item ∨ v ∈ twi.usedItems := by
  unfold setItem findItem
  split_ifs with h
  · constructor
    · exact Or.inr
    · rintro (rfl | hv)
      · simpa using h
      · exact hv
  · simp [or_comm]

@[simp] theorem keepItemsByEpoch_pledgeInfos (twi : TeWakaImpl) (db : RecordStore) :
    (twi.keepItemsByEpoch db).1.pledgeInfos = twi.pledgeInfos := rfl

@[simp] theorem keepItemsByEpoch_usedItems (twi : TeWakaImpl) (db : RecordStore) :
    (twi.keepItemsByEpoch db).1.usedItems = [] := rfl

@[simp] theorem keepItemsByEpoch_records (twi : TeWakaImpl) (db : RecordStore) :
    (twi.keepItemsByEpoch db).2 = twi.dumpUsedItems db := rfl

/-! Only `Convert` and `Confirm` touch the pending conversions. -/

@[simp] theorem mortgage_convertItems (twi : TeWakaImpl) (address toAddress : Address)
    (pubKey : Bytes) (amount : ℕ) (cba : List Address) :
    (twi.mortgage address toAddress pubKey amount cba).convertItems = twi.convertItems := rfl

@[simp] theorem convert_convertItems (twi : TeWakaImpl) (item : ConvertItem) :
    (twi.convert item).convertItems = twi.convertItems ++ [item] := rfl

@[simp] theorem confirm_convertItems (twi : TeWakaImpl) (item : ConvertItem) :
    (twi.confirm item).convertItems = twi.convertItems.eraseP fun v => v.id = item.id := rfl

@[simp] theorem setItem_convertItems (twi : TeWakaImpl) (item : UsedItem) :
    (twi.setItem item).convertItems = twi.convertItems := by
  unfold setItem
  split_ifs <;> rfl

@[simp] theorem keepItemsByEpoch_convertItems (twi : TeWakaImpl) (db : RecordStore) :
    (twi.keepItemsByEpoch db).1.convertItems = twi.convertItems := rfl

theorem update_convertItems {twi twi' : TeWakaImpl} {address : Address}
    {cba : List Address} (h : twi.update address cba = some twi') :
    twi'.convertItems = twi.convertItems := by
  obtain ⟨ps, _, rfl⟩ := Option.map_eq_some_iff.mp h
  rfl

/-- The pledges `Update` leaves are the old ones with one coinbase list
replaced: addresses and destinations stay in place. -/
theorem updatePledges_map {address : Address} {cba : List Address} :
    ∀ {ps qs : List Pledge}, updatePledges address cba ps = some qs →
      qs.map Pledge.address = ps.map Pledge.address ∧
        qs.map Pledge.toAddress = ps.map Pledge.toAddress
  | [], _, h => by simp [updatePledges] at h
  | p :: ps, qs, h => by
      unfold updatePledges at h
      split_ifs at h with hp
      · cases h
        simp
      · obtain ⟨qs', hqs', rfl⟩ := Option.map_eq_some_iff.mp h
        obtain ⟨h₁, h₂⟩ := updatePledges_map hqs'
        simp [h₁, h₂]

/-- `Update` gives the first pledge of the address the new coinbase list and
changes nothing else of it. -/
theorem updatePledges_find? {address : Address} {cba : List Address} :
    ∀ {ps qs : List Pledge}, updatePledges address cba ps = some qs →
      qs.find? (fun v => v.address = address) =
        (ps.find? fun v => v.address = address).map fun p => { p with coinBaseAddress := cba }
  | [], _, h => by simp [updatePledges] at h
  | p :: ps, qs, h => by
      unfold updatePledges at h
      split_ifs at h with hp
      · cases h
        simp [hp]
      · obtain ⟨qs', hqs', rfl⟩ := Option.map_eq_some_iff.mp h
        simp [hp, updatePledges_find? hqs']

theorem update_pledgeInfos_map {twi twi' : TeWakaImpl} {address : Address}
    {cba : List Address} (h : twi.update address cba = some twi') :
    twi'.pledgeInfos.map Pledge.address = twi.pledgeInfos.map Pledge.address ∧
      twi'.pledgeInfos.map Pledge.toAddress =
        twi.pledgeInfos.map Pledge.toAddress := by
  obtain ⟨ps, hps, rfl⟩ := Option.map_eq_some_iff.mp h
  exact updatePledges_map hps

theorem update_usedItems {twi twi' : TeWakaImpl} {address : Address}
    {cba : List Address} (h : twi.update address cba = some twi') :
    twi'.usedItems = twi.usedItems := by
  obtain ⟨ps, _, rfl⟩ := Option.map_eq_some_iff.mp h
  rfl

theorem getStakeUser_update {twi twi' : TeWakaImpl} {address : Address} {cba : List Address}
    (h : twi.update address cba = some twi') :
    twi'.getStakeUser address =
      (twi.getStakeUser address).map fun p => { p with coinBaseAddress := cba } := by
  obtain ⟨ps, hps, rfl⟩ := Option.map_eq_some_iff.mp h
  exact updatePledges_find? hps

theorem getStakeUser_eq_none_iff (twi : TeWakaImpl) (address : Address) :
    twi.getStakeUser address = none ↔
      address ∉ twi.pledgeInfos.map Pledge.address := by
  simp [getStakeUser]

theorem getStakeToAddress_eq_none_iff (twi : TeWakaImpl) (address : Address) :
    twi.getStakeToAddress address = none ↔
      address ∉ twi.pledgeInfos.map Pledge.toAddress := by
  simp [getStakeToAddress]

/-- A search by a key that no two elements share finds each element. -/
theorem find?_key_of_nodup {α β : Type*} [DecidableEq β] {f : α → β} :
    ∀ {xs : List α} {x : α}, (xs.map f).Nodup → x ∈ xs →
      xs.find? (fun v => decide (f v = f x)) = some x
  | [], _, _, hx => absurd hx List.not_mem_nil
  | y :: xs, x, hnd, hx => by
      rw [List.map_cons, List.nodup_cons] at hnd
      rcases List.mem_cons.mp hx with rfl | hx
      · simp
      · have hne : f y ≠ f x := fun h => hnd.1 (h ▸ List.mem_map_of_mem hx)
        rw [List.find?_cons_of_neg (by simpa using hne)]
        exact find?_key_of_nodup hnd.2 hx

/-- With distinct addresses, `GetStakeUser` finds every pledge by its
address. -/
theorem getStakeUser_of_mem {twi : TeWakaImpl} {p : Pledge}
    (hnd : (twi.pledgeInfos.map Pledge.address).Nodup) (hp : p ∈ twi.pledgeInfos) :
    twi.getStakeUser p.address = some p :=
  find?_key_of_nodup hnd hp

/-- With distinct destinations, `GetStakeToAddress` finds every pledge by its
destination. -/
theorem getStakeToAddress_of_mem {twi : TeWakaImpl} {p : Pledge}
    (hnd : (twi.pledgeInfos.map Pledge.toAddress).Nodup) (hp : p ∈ twi.pledgeInfos) :
    twi.getStakeToAddress p.toAddress = some p :=
  find?_key_of_nodup hnd hp

/-- The loop of `dumpUsedItems` writes the record of every item it meets. -/
theorem mem_foldl_writeRecord (r : UInt64 × Hash) :
    ∀ (items : List UsedItem) (db : RecordStore),
      r ∈ items.foldl (fun db v => writeRecord db v.atype.toUInt64 v.txHash) db ↔
        r ∈ db ∨ ∃ v ∈ items, r = recordKey v
  | [], db => by simp
  | v :: items, db => by
      rw [List.foldl_cons, mem_foldl_writeRecord r items]
      simp only [writeRecord, List.mem_cons, recordKey, or_and_right, exists_or,
        exists_eq_left]
      tauto

theorem mem_dumpUsedItems (twi : TeWakaImpl) (db : RecordStore) (r : UInt64 × Hash) :
    r ∈ twi.dumpUsedItems db ↔ r ∈ db ∨ ∃ v ∈ twi.usedItems, r = recordKey v :=
  mem_foldl_writeRecord r twi.usedItems db

/-- An item is unused when neither the epoch's list nor the disk store has
it. -/
theorem hasItem_eq_false_iff (twi : TeWakaImpl) (item : UsedItem) (db : RecordStore) :
    twi.hasItem item db = false ↔ item ∉ twi.usedItems ∧ recordKey item ∉ db := by
  simp [hasItem, findItem, isItemFromDB, hasRecord, recordKey]

end TeWakaImpl

end Classzz.Vm
