import Classzz.Vm.TeWaka.Basic
import Classzz.Common.Hex
import Classzz.Rlp.Typed

/-!
# The registry's RLP codec and its copies

The registry is stored as the RLP encoding of `extTeWakaImpl`, the list of
its three slices. A `Pledge` and a `ConvertItem` encode through their `ext`
structs field for field, and a `UsedItem` as it is. `toItem` is the item the
encoder writes. `ConvertItem.toItem` fails on a negative `ID`, which the
`*big.Int` encoder refuses, and so does the registry holding such an item.

Decoding reads each field with its reader from `Rlp.Typed`, and a struct is a
list of exactly its fields. Every reader inverts its encoder, so `ofItem`
inverts `toItem` for each type (`Pledge.ofItem_eq_some` and the like), and
over the bytes: what decodes is the encoding of the registry it gives
(`decodeRLP_sound`), and an encoding that fits a byte slice decodes to its
registry (`decodeRLP_encodeRLP`).

`CloneTeWakaImpl` and the `Clone` methods copy every slice into a fresh one
and rebuild the router address through its hex spelling. As values the
copies are the originals (`TeWakaImpl.clone_eq`). On the heap a copy shares
no array and no pledge with its original (`TeWaka/Heap`), only the `UsedItem`
pointers, which no method writes through.
-/

open Rlp Classzz.Rlp.Typed

namespace Classzz.Vm

/-! ### Encoding -/

/-- `Pledge.EncodeRLP`: the `extPledge` list. -/
def Pledge.toItem (pi : Pledge) : Item :=
  .list [.bytes pi.address.bytes, .bytes pi.pubKey, .bytes pi.toAddress.bytes,
    .nat pi.stakingAmount, .list (pi.coinBaseAddress.map fun a => .bytes a.bytes)]

/-- The `*big.Int` writer: `"rlp: cannot encode negative *big.Int"`. -/
def bigIntItem (x : ℤ) : Option Item :=
  if x < 0 then none else some (.nat x.toNat)

/-- `ConvertItem.EncodeRLP`: the `extConvertItem` list. -/
def ConvertItem.toItem (ci : ConvertItem) : Option Item := do
  let id ← bigIntItem ci.id
  pure (.list [id, .nat ci.assetType.toNat, .nat ci.convertType.toNat, .bytes ci.txHash.bytes,
    .bytes ci.pubKey, .nat ci.amount, .nat ci.feeAmount,
    .list (ci.path.map fun a => .bytes a.bytes), .bytes ci.routerAddr.bytes, .nat ci.slippage,
    boolItem ci.isInsurance, .bytes ci.extra])

/-- A `UsedItem`, a struct of two exported fields. -/
def UsedItem.toItem (u : UsedItem) : Item :=
  .list [.nat u.atype.toNat, .bytes u.txHash.bytes]

/-- `TeWakaImpl.EncodeRLP`: the `extTeWakaImpl` list. -/
def TeWakaImpl.toItem (twi : TeWakaImpl) : Option Item := do
  let convertItems ← twi.convertItems.mapM ConvertItem.toItem
  pure (.list [.list (twi.pledgeInfos.map Pledge.toItem), .list convertItems,
    .list (twi.usedItems.map UsedItem.toItem)])

/-- `rlp.EncodeToBytes(twi)`. -/
def TeWakaImpl.encodeRLP (twi : TeWakaImpl) : Option Bytes :=
  twi.toItem.map Rlp.encode

/-! ### Decoding -/

/-- `Pledge.DecodeRLP`: an `extPledge`. -/
def Pledge.ofItem : Item → Option Pledge
  | .list [address, pubKey, toAddress, stakingAmount, coinBaseAddress] => do
    let address ← decodeAddress address
    let pubKey ← decodeByteSlice pubKey
    let toAddress ← decodeAddress toAddress
    let stakingAmount ← decodeBigInt stakingAmount
    let coinBaseAddress ← decodeListSlice decodeAddress coinBaseAddress
    pure ⟨address, pubKey, toAddress, stakingAmount, coinBaseAddress⟩
  | _ => none

/-- `ConvertItem.DecodeRLP`: an `extConvertItem`. -/
def ConvertItem.ofItem : Item → Option ConvertItem
  | .list [id, assetType, convertType, txHash, pubKey, amount, feeAmount, path, routerAddr,
      slippage, isInsurance, extra] => do
    let id ← decodeBigInt id
    let assetType ← decodeUint8 assetType
    let convertType ← decodeUint8 convertType
    let txHash ← decodeHash txHash
    let pubKey ← decodeByteSlice pubKey
    let amount ← decodeBigInt amount
    let feeAmount ← decodeBigInt feeAmount
    let path ← decodeListSlice decodeAddress path
    let routerAddr ← decodeAddress routerAddr
    let slippage ← decodeBigInt slippage
    let isInsurance ← decodeBool isInsurance
    let extra ← decodeByteSlice extra
    pure ⟨id, assetType, convertType, txHash, pubKey, amount, feeAmount, path, routerAddr,
      slippage, isInsurance, extra⟩
  | _ => none

/-- A `UsedItem`. -/
def UsedItem.ofItem : Item → Option UsedItem
  | .list [atype, txHash] => do
    let atype ← decodeUint8 atype
    let txHash ← decodeHash txHash
    pure ⟨atype, txHash⟩
  | _ => none

/-- `TeWakaImpl.DecodeRLP`: an `extTeWakaImpl`. -/
def TeWakaImpl.ofItem : Item → Option TeWakaImpl
  | .list [pledgeInfos, convertItems, usedItems] => do
    let pledgeInfos ← decodeListSlice Pledge.ofItem pledgeInfos
    let convertItems ← decodeListSlice ConvertItem.ofItem convertItems
    let usedItems ← decodeListSlice UsedItem.ofItem usedItems
    pure ⟨pledgeInfos, convertItems, usedItems⟩
  | _ => none

/-- `rlp.DecodeBytes(data, &temp)`. -/
def TeWakaImpl.decodeRLP (data : Bytes) : Option TeWakaImpl :=
  match Classzz.Rlp.decodeBytes data with
  | .ok i => TeWakaImpl.ofItem i
  | .error _ => none

/-! ### The readers invert the writers -/

section Inverse

theorem decodeAddressList_eq_some {i : Item} {as : List Address} :
    decodeListSlice decodeAddress i = some as ↔ i = .list (as.map fun a => .bytes a.bytes) :=
  decodeListSlice_eq_some_of_total fun _ _ => decodeAddress_eq_some

theorem bigIntItem_eq_some {x : ℤ} {i : Item} :
    bigIntItem x = some i ↔ 0 ≤ x ∧ i = .nat x.toNat := by
  unfold bigIntItem
  split_ifs with hx
  · simp only [false_iff, not_and]
    intro h
    omega
  · simp only [Option.some.injEq]
    constructor
    · rintro rfl
      exact ⟨by omega, rfl⟩
    · rintro ⟨-, rfl⟩
      rfl

theorem Pledge.ofItem_eq_some {i : Item} {pi : Pledge} :
    Pledge.ofItem i = some pi ↔ i = pi.toItem := by
  constructor
  · intro h
    unfold Pledge.ofItem at h
    split at h
    · simp only [Option.bind_eq_bind, Option.bind_eq_some_iff, Option.pure_def,
        Option.some.injEq, decodeAddress_eq_some, decodeByteSlice_eq_some,
        decodeBigInt_eq_some, decodeAddressList_eq_some] at h
      obtain ⟨a, rfl, pk, rfl, t, rfl, n, rfl, cba, rfl, rfl⟩ := h
      rfl
    · cases h
  · rintro rfl
    simp [Pledge.toItem, Pledge.ofItem, decodeListSlice_map (fun _ _ => decodeAddress_eq_some)]

theorem ConvertItem.ofItem_eq_some {i : Item} {ci : ConvertItem} :
    ConvertItem.ofItem i = some ci ↔ ci.toItem = some i := by
  constructor
  · intro h
    unfold ConvertItem.ofItem at h
    split at h
    · -- the twelve reads one by one: simp over the whole block is slow at this depth
      obtain ⟨n, hn, h⟩ := Option.bind_eq_some_iff.mp h
      obtain ⟨aty, haty, h⟩ := Option.bind_eq_some_iff.mp h
      obtain ⟨cty, hcty, h⟩ := Option.bind_eq_some_iff.mp h
      obtain ⟨th, hth, h⟩ := Option.bind_eq_some_iff.mp h
      obtain ⟨pk, hpk, h⟩ := Option.bind_eq_some_iff.mp h
      obtain ⟨am, ham, h⟩ := Option.bind_eq_some_iff.mp h
      obtain ⟨fee, hfee, h⟩ := Option.bind_eq_some_iff.mp h
      obtain ⟨p, hp, h⟩ := Option.bind_eq_some_iff.mp h
      obtain ⟨r, hr, h⟩ := Option.bind_eq_some_iff.mp h
      obtain ⟨sl, hsl, h⟩ := Option.bind_eq_some_iff.mp h
      obtain ⟨ins, hins, h⟩ := Option.bind_eq_some_iff.mp h
      obtain ⟨ex, hex, h⟩ := Option.bind_eq_some_iff.mp h
      cases h
      simp only [decodeAddress_eq_some, decodeByteSlice_eq_some, decodeBigInt_eq_some,
        decodeUint8_eq_some, decodeHash_eq_some, decodeBool_eq_some,
        decodeAddressList_eq_some] at hn haty hcty hth hpk ham hfee hp hr hsl hins hex
      subst hn haty hcty hth hpk ham hfee hp hr hsl hins hex
      have hid : bigIntItem (n : ℤ) = some (.nat n) := bigIntItem_eq_some.mpr ⟨by omega, by simp⟩
      simp [ConvertItem.toItem, hid]
    · cases h
  · intro h
    simp only [ConvertItem.toItem, Option.bind_eq_bind, Option.bind_eq_some_iff,
      bigIntItem_eq_some, Option.pure_def, Option.some.injEq] at h
    obtain ⟨_, ⟨hid, rfl⟩, rfl⟩ := h
    have hcast : ((ci.id.toNat : ℕ) : ℤ) = ci.id := Int.toNat_of_nonneg hid
    simp [ConvertItem.ofItem, hcast, decodeListSlice_map (fun _ _ => decodeAddress_eq_some)]

theorem UsedItem.ofItem_eq_some {i : Item} {u : UsedItem} :
    UsedItem.ofItem i = some u ↔ i = u.toItem := by
  constructor
  · intro h
    unfold UsedItem.ofItem at h
    split at h
    · simp only [Option.bind_eq_bind, Option.bind_eq_some_iff, Option.pure_def,
        Option.some.injEq, decodeUint8_eq_some, decodeHash_eq_some] at h
      obtain ⟨a, rfl, th, rfl, rfl⟩ := h
      rfl
    · cases h
  · rintro rfl
    simp [UsedItem.toItem, UsedItem.ofItem]

theorem TeWakaImpl.ofItem_eq_some {i : Item} {twi : TeWakaImpl} :
    TeWakaImpl.ofItem i = some twi ↔ twi.toItem = some i := by
  have hpledges : ∀ {i : Item} {ps : List Pledge},
      decodeListSlice Pledge.ofItem i = some ps ↔ i = .list (ps.map Pledge.toItem) :=
    decodeListSlice_eq_some_of_total fun _ _ => Pledge.ofItem_eq_some
  have hconverts : ∀ {i : Item} {cs : List ConvertItem},
      decodeListSlice ConvertItem.ofItem i = some cs ↔
        (cs.mapM ConvertItem.toItem).map .list = some i :=
    decodeListSlice_eq_some fun _ _ => ConvertItem.ofItem_eq_some
  have hused : ∀ {i : Item} {us : List UsedItem},
      decodeListSlice UsedItem.ofItem i = some us ↔ i = .list (us.map UsedItem.toItem) :=
    decodeListSlice_eq_some_of_total fun _ _ => UsedItem.ofItem_eq_some
  constructor
  · intro h
    unfold TeWakaImpl.ofItem at h
    split at h
    · simp only [Option.bind_eq_bind, Option.bind_eq_some_iff, Option.pure_def,
        Option.some.injEq, hpledges, hconverts, hused, Option.map_eq_some_iff] at h
      obtain ⟨ps, rfl, cs, ⟨items, hitems, rfl⟩, us, rfl, rfl⟩ := h
      simp [TeWakaImpl.toItem, hitems]
    · cases h
  · intro h
    simp only [TeWakaImpl.toItem, Option.bind_eq_bind, Option.bind_eq_some_iff, Option.pure_def,
      Option.some.injEq] at h
    obtain ⟨items, hitems, rfl⟩ := h
    have hcs : decodeListSlice ConvertItem.ofItem (.list items) = some twi.convertItems :=
      hconverts.mpr (by rw [hitems]; rfl)
    simp [TeWakaImpl.ofItem, hcs, decodeListSlice_map (fun _ _ => Pledge.ofItem_eq_some),
      decodeListSlice_map (fun _ _ => UsedItem.ofItem_eq_some)]

/-- What `DecodeBytes` reads into a registry is the encoding of that
registry. -/
theorem decodeRLP_sound {data : Bytes} {twi : TeWakaImpl}
    (h : TeWakaImpl.decodeRLP data = some twi) : twi.encodeRLP = some data := by
  unfold TeWakaImpl.decodeRLP at h
  split at h
  · next i hdec =>
    rw [TeWakaImpl.encodeRLP, TeWakaImpl.ofItem_eq_some.mp h, Option.map_some,
      (Rlp.decodeBytes_sound hdec).1]
  · cases h

/-- An encoding that fits a byte slice decodes to its registry. -/
theorem decodeRLP_encodeRLP {data : Bytes} {twi : TeWakaImpl}
    (h : twi.encodeRLP = some data) (hlen : data.length < 2 ^ 64) :
    TeWakaImpl.decodeRLP data = some twi := by
  simp only [TeWakaImpl.encodeRLP, Option.map_eq_some_iff] at h
  obtain ⟨i, hi, rfl⟩ := h
  rw [TeWakaImpl.decodeRLP, Rlp.decodeBytes_encode hlen]
  exact TeWakaImpl.ofItem_eq_some.mpr hi

end Inverse

/-! ### Copies -/

/-- `CopyVotePk`: a fresh slice holding the same bytes. -/
def copyVotePk (pk : Bytes) : Bytes :=
  pk

/-- `Pledge.Clone`. -/
def Pledge.clone (pi : Pledge) : Pledge :=
  { address := pi.address
    pubKey := copyVotePk pi.pubKey
    toAddress := pi.toAddress
    stakingAmount := pi.stakingAmount
    coinBaseAddress := pi.coinBaseAddress.foldl (fun ss v => ss ++ [v]) [] }

/-- `ConvertItem.Clone`. -/
def ConvertItem.clone (ci : ConvertItem) : ConvertItem :=
  { id := ci.id
    assetType := ci.assetType
    convertType := ci.convertType
    txHash := ci.txHash
    pubKey := copyVotePk ci.pubKey
    amount := ci.amount
    feeAmount := ci.feeAmount
    path := ci.path.foldl (fun ss v => ss ++ [v]) []
    routerAddr := hexToAddress ci.routerAddr.hex
    slippage := ci.slippage
    isInsurance := ci.isInsurance
    extra := copyVotePk ci.extra }

/-- `CloneTeWakaImpl` of a registry; the source returns nil for nil. -/
def TeWakaImpl.clone (ori : TeWakaImpl) : TeWakaImpl :=
  { pledgeInfos := ori.pledgeInfos.foldl (fun items val => items ++ [val.clone]) []
    convertItems := ori.convertItems.foldl (fun items val => items ++ [val.clone]) []
    usedItems := ori.usedItems.foldl (fun items val => items ++ [val]) [] }

/-- The copy loops: appending each element, mapped, to what is there. -/
theorem foldl_append_map {α β : Type*} (f : α → β) (l : List α) (acc : List β) :
    l.foldl (fun acc v => acc ++ [f v]) acc = acc ++ l.map f := by
  induction l generalizing acc with
  | nil => simp
  | cons v l ih => simp [ih]

@[simp] theorem Pledge.clone_eq (pi : Pledge) : pi.clone = pi := by
  simp [Pledge.clone, copyVotePk, foldl_append_map (fun v : Address => v)]

@[simp] theorem ConvertItem.clone_eq (ci : ConvertItem) : ci.clone = ci := by
  simp [ConvertItem.clone, copyVotePk, hexToAddress_hex,
    foldl_append_map (fun v : Address => v)]

@[simp] theorem TeWakaImpl.clone_eq (ori : TeWakaImpl) : ori.clone = ori := by
  simp only [TeWakaImpl.clone, foldl_append_map, List.nil_append, Pledge.clone_eq,
    ConvertItem.clone_eq, List.map_id']

end Classzz.Vm
