import Classzz.Common.Types
import Classzz.Lib.MapLoop
import Classzz.Lib.Bloom

/-!
# Snapshot diff layers

A snapshot is a stack of diff layers over a disk layer. Each block's state changes become
a diff layer (`newDiffLayer`): the accounts it destructed, the accounts it wrote and the
slots it wrote, keyed by account hash and slot hash. A lookup scans the layers from the
top. The first layer that wrote the account, or the slot, answers with what it wrote. A
layer that destructed the account answers no bytes. When no layer knows the key, the disk
layer answers (`refAccountRLP`, `refStorage`).

`AccountRLP` and `Storage` shortcut the scan with a bloom filter. Each layer's filter
starts as a copy of its parent's and then gets its own keys (`rebloom`). When the filter
has neither the key nor its destruct, the disk layer answers at once. `flatten` merges a
layer into its parent: destructs first, then accounts, then slots. `Tree.cap` flattens a
layer some way down the stack and relinks the layers above to the result (`flattenAt`).

Go maps are `AList`s, and their loops are folds over the entries. The bloom filter is the
one of `Lib.Bloom`: a key that was added is always found. The filter's hash functions,
which `bloomfilter.New` draws at random, and the hashers' offsets, drawn at `init`, are
parameters.
-/

namespace Classzz.Snapshot

/-- `diskLayer` as the diff layers read it: its `AccountRLP` and `Storage`, no bytes where
it holds nothing. -/
structure DiskLayer where
  accountRLP : Hash → Bytes
  storage : Hash → Hash → Bytes

/-- The maps of a `diffLayer`. -/
structure DiffData where
  destructSet : AList fun _ : Hash => Unit
  accountData : AList fun _ : Hash => Bytes
  storageData : AList fun _ : Hash => AList fun _ : Hash => Bytes

/-- The bloom keys of a destruct, an account and a slot: the `Sum64` of
`destructBloomHasher`, `accountBloomHasher` and `storageBloomHasher`. -/
structure BloomHashers where
  destruct : Hash → UInt64
  account : Hash → UInt64
  storage : Hash → Hash → UInt64

/-- `binary.BigEndian.Uint64`. -/
def uint64BE (b : Bytes) : UInt64 :=
  UInt64.ofNat (bytesToNat b)

/-- The hashers at the offsets `init` draws: eight bytes of the hash from the offset, and
for a slot the exclusive or of those of the account hash and of the slot hash. -/
def bloomHashers (destructOffset accountOffset storageOffset : ℕ) : BloomHashers where
  destruct hash := uint64BE ((hash.bytes.drop destructOffset).take 8)
  account hash := uint64BE ((hash.bytes.drop accountOffset).take 8)
  storage accountHash storageHash :=
    uint64BE ((accountHash.bytes.drop storageOffset).take 8) ^^^
      uint64BE ((storageHash.bytes.drop storageOffset).take 8)

/-- `snapshot`: the disk layer, or a diff layer with its `origin` (the disk layer it reads
on a bloom miss), its maps, its bloom filter `diffed` and its parent. -/
inductive Layer where
  | disk (layer : DiskLayer)
  | diff (origin : DiskLayer) (data : DiffData) (diffed : Bloom.Filter UInt64) (parent : Layer)

variable (hs : BloomHashers)

/-- The loops of `rebloom`: a layer's destructs, accounts and slots added to a filter. -/
def DiffData.index (data : DiffData) (f : Bloom.Filter UInt64) : Bloom.Filter UInt64 :=
  let f := data.destructSet.foldl (fun f hash _ => f.add (hs.destruct hash)) f
  let f := data.accountData.foldl (fun f hash _ => f.add (hs.account hash)) f
  data.storageData.foldl (fun f accountHash slots =>
    slots.foldl (fun f storageHash _ => f.add (hs.storage accountHash storageHash)) f) f

/-- `newDiffLayer` with its `rebloom`, which `Update` calls on either kind of layer. Over
the disk layer the filter is a new one, with the hash functions `bloomfilter.New` draws
(`positions`); over a diff layer it is a copy of the parent's, and the origin is the
parent's. -/
def newDiffLayer (positions : UInt64 → List ℕ) (parent : Layer) (data : DiffData) : Layer :=
  match parent with
  | .disk origin => .diff origin data (data.index hs (Bloom.Filter.new positions)) parent
  | .diff origin _ diffed _ => .diff origin data (data.index hs diffed) parent

namespace DiffData

/-- The first loop of `flatten`: the child's destructs are marked in the parent, and the
parent's accounts and storage of the destructed accounts dropped. -/
def flattenDestructs (parent child : DiffData) : DiffData :=
  child.destructSet.foldl (fun p hash _ =>
    { destructSet := p.destructSet.insert hash ()
      accountData := p.accountData.erase hash
      storageData := p.storageData.erase hash }) parent

/-- The second loop: the child's accounts overwrite the parent's. -/
def flattenAccounts (parent child : DiffData) : DiffData :=
  child.accountData.foldl (fun p hash data =>
    { p with accountData := p.accountData.insert hash data }) parent

/-- The third loop: the child's slots of an account the parent has no storage for are
taken as they are; otherwise they overwrite the parent's slots one by one. -/
def flattenStorage (parent child : DiffData) : DiffData :=
  child.storageData.foldl (fun p accountHash storage =>
    match p.storageData.lookup accountHash with
    | none => { p with storageData := p.storageData.insert accountHash storage }
    | some comboData =>
        { p with
          storageData := p.storageData.insert accountHash
            (storage.foldl (fun comboData storageHash data => comboData.insert storageHash data)
              comboData) }) parent

/-- The maps `flatten` leaves in the parent. -/
def merge (parent child : DiffData) : DiffData :=
  ((parent.flattenDestructs child).flattenAccounts child).flattenStorage child

end DiffData

/-- `diffLayer.flatten`: a layer over the disk layer is returned as it is; otherwise the
parent is flattened first, the layer's maps are merged into it, and the result keeps the
parent's origin and parent and the layer's own filter. -/
def Layer.flatten : Layer → Layer
  | .disk d => .disk d
  | .diff origin data diffed parent =>
      match parent, parent.flatten with
      | .disk d, _ => .diff origin data diffed (.disk d)
      | .diff .., .diff porigin pdata _ pparent => .diff porigin (pdata.merge data) diffed pparent
      | .diff .., .disk d => .disk d

/-- The flattening of `Tree.cap`: the layer `depth` layers down is flattened, and the
layers above it are relinked to the result. -/
def Layer.flattenAt : ℕ → Layer → Layer
  | 0, l => l.flatten
  | n + 1, .diff origin data diffed parent => .diff origin data diffed (parent.flattenAt n)
  | _ + 1, .disk d => .disk d

/-! ### Lookups -/

namespace DiffData

/-- What a diff layer answers for an account, given what the layers below answer: its
own account data, no bytes if it destructed the account, and otherwise the answer below. -/
def accountOver (data : DiffData) (hash : Hash) (below : Bytes) : Bytes :=
  match data.accountData.lookup hash with
  | some v => v
  | none => if hash ∈ data.destructSet then [] else below

/-- The bytes a diff layer wrote for a slot, if it wrote any. -/
def slot (data : DiffData) (accountHash storageHash : Hash) : Option Bytes :=
  (data.storageData.lookup accountHash).bind (·.lookup storageHash)

/-- What a diff layer answers for a slot, given what the layers below answer. -/
def storageOver (data : DiffData) (accountHash storageHash : Hash) (below : Bytes) : Bytes :=
  match data.slot accountHash storageHash with
  | some v => v
  | none => if accountHash ∈ data.destructSet then [] else below

end DiffData

namespace Layer

/-- `diffLayer.accountRLP`, the lookup that skips the bloom filter; on the disk layer, its
`AccountRLP`. -/
def accountRLPInternal : Layer → Hash → Bytes
  | .disk d, hash => d.accountRLP hash
  | .diff _ data _ parent, hash => data.accountOver hash (parent.accountRLPInternal hash)

/-- `diffLayer.storage`, the lookup that skips the bloom filter; on the disk layer, its
`Storage`. -/
def storageInternal : Layer → Hash → Hash → Bytes
  | .disk d, accountHash, storageHash => d.storage accountHash storageHash
  | .diff _ data _ parent, accountHash, storageHash =>
      data.storageOver accountHash storageHash (parent.storageInternal accountHash storageHash)

/-- `AccountRLP`: on a diff layer whose filter has neither the account nor its destruct,
the origin's answer; otherwise the lookup through the layers. -/
def accountRLP : Layer → Hash → Bytes
  | .disk d, hash => d.accountRLP hash
  | .diff origin data diffed parent, hash =>
      if diffed.contains (hs.account hash) || diffed.contains (hs.destruct hash) then
        (Layer.diff origin data diffed parent).accountRLPInternal hash
      else origin.accountRLP hash

/-- `Storage`: on a diff layer whose filter has neither the slot nor the account's
destruct, the origin's answer; otherwise the lookup through the layers. -/
def storage : Layer → Hash → Hash → Bytes
  | .disk d, accountHash, storageHash => d.storage accountHash storageHash
  | .diff origin data diffed parent, accountHash, storageHash =>
      if diffed.contains (hs.storage accountHash storageHash) ||
          diffed.contains (hs.destruct accountHash) then
        (Layer.diff origin data diffed parent).storageInternal accountHash storageHash
      else origin.storage accountHash storageHash

/-- The diff layers, top first. -/
def diffs : Layer → List DiffData
  | .disk _ => []
  | .diff _ data _ parent => data :: parent.diffs

/-- The disk layer at the bottom. -/
def bottom : Layer → DiskLayer
  | .disk d => d
  | .diff _ _ _ parent => parent.bottom

end Layer

/-! ### The lookups by a scan of the layers -/

/-- The account found by scanning the layers from the top: the first layer that wrote the
account or destructed it answers, no bytes for a destruct, and the disk layer answers when
no layer does. -/
def refAccountRLP (layers : List DiffData) (disk : DiskLayer) (hash : Hash) : Bytes :=
  match layers.find? (fun l => decide (hash ∈ l.accountData) || decide (hash ∈ l.destructSet)) with
  | some l => (l.accountData.lookup hash).getD []
  | none => disk.accountRLP hash

/-- The slot found by scanning the layers from the top: the first layer that wrote the
slot or destructed the account answers, no bytes for a destruct, and the disk layer
answers when no layer does. -/
def refStorage (layers : List DiffData) (disk : DiskLayer) (accountHash storageHash : Hash) :
    Bytes :=
  match layers.find? (fun l => (l.slot accountHash storageHash).isSome ||
      decide (accountHash ∈ l.destructSet)) with
  | some l => (l.slot accountHash storageHash).getD []
  | none => disk.storage accountHash storageHash

/-- The scan over one more layer on top: the layer answers if it knows the account, and
passes the scan below on if not. -/
theorem refAccountRLP_cons (data : DiffData) (layers : List DiffData) (disk : DiskLayer)
    (hash : Hash) :
    refAccountRLP (data :: layers) disk hash = data.accountOver hash (refAccountRLP layers disk hash) := by
  unfold refAccountRLP
  rw [List.find?_cons, DiffData.accountOver]
  rcases hacc : data.accountData.lookup hash with _ | v
  · have hnot : hash ∉ data.accountData := AList.lookup_eq_none.mp hacc
    by_cases hd : hash ∈ data.destructSet
    · simp [hnot, hd, hacc]
    · simp [hnot, hd]
  · have hmem : hash ∈ data.accountData := AList.lookup_isSome.mp (by simp [hacc])
    simp [hmem, hacc]

theorem refStorage_cons (data : DiffData) (layers : List DiffData) (disk : DiskLayer)
    (accountHash storageHash : Hash) :
    refStorage (data :: layers) disk accountHash storageHash =
      data.storageOver accountHash storageHash (refStorage layers disk accountHash storageHash) := by
  unfold refStorage
  rw [List.find?_cons, DiffData.storageOver]
  rcases hslot : data.slot accountHash storageHash with _ | v
  · by_cases hd : accountHash ∈ data.destructSet
    · simp [hd, hslot]
    · simp [hd]
  · simp [hslot]

/-- The lookup through the layers is the scan. -/
theorem accountRLPInternal_eq_ref (hash : Hash) :
    ∀ l : Layer, l.accountRLPInternal hash = refAccountRLP l.diffs l.bottom hash
  | .disk _ => rfl
  | .diff _ data _ parent => by
    rw [Layer.accountRLPInternal, accountRLPInternal_eq_ref hash parent, Layer.diffs,
      Layer.bottom, refAccountRLP_cons]

theorem storageInternal_eq_ref (accountHash storageHash : Hash) :
    ∀ l : Layer, l.storageInternal accountHash storageHash =
      refStorage l.diffs l.bottom accountHash storageHash
  | .disk _ => rfl
  | .diff _ data _ parent => by
    rw [Layer.storageInternal, storageInternal_eq_ref accountHash storageHash parent,
      Layer.diffs, Layer.bottom, refStorage_cons]

/-! ### The bloom filters -/

/-- A filter covers a layer when it contains the bloom key of each of the layer's
destructs, accounts and slots. -/
structure DiffData.CoveredBy (data : DiffData) (f : Bloom.Filter UInt64) : Prop where
  destruct : ∀ hash ∈ data.destructSet, f.contains (hs.destruct hash) = true
  account : ∀ hash ∈ data.accountData, f.contains (hs.account hash) = true
  storage : ∀ accountHash slots, data.storageData.lookup accountHash = some slots →
    ∀ storageHash ∈ slots, f.contains (hs.storage accountHash storageHash) = true

/-- The invariant of a stack: every diff layer's origin is the stack's disk layer, and its
filter covers it and every diff layer below it. -/
def Layer.Bloomed : Layer → Prop
  | .disk _ => True
  | .diff origin data diffed parent =>
      origin = parent.bottom ∧ (∀ d ∈ data :: parent.diffs, d.CoveredBy hs diffed) ∧
        parent.Bloomed

theorem DiffData.CoveredBy.mono {data : DiffData} {f g : Bloom.Filter UInt64}
    (hc : data.CoveredBy hs f) (hfg : f ≤ g) : data.CoveredBy hs g :=
  ⟨fun hash h => hfg _ (hc.destruct hash h), fun hash h => hfg _ (hc.account hash h),
    fun accountHash slots hl storageHash h => hfg _ (hc.storage accountHash slots hl storageHash h)⟩

section Index

variable {β : Type}

/-- A loop over a map whose steps only grow the filter grows it. -/
theorem le_foldl_entries (step : Bloom.Filter UInt64 → Hash → β → Bloom.Filter UInt64)
    (hstep : ∀ f a b, f ≤ step f a b) (s : AList fun _ : Hash => β) (f : Bloom.Filter UInt64) :
    f ≤ s.foldl step f := by
  unfold AList.foldl
  exact Bloom.Filter.le_foldl (fun f e => hstep f e.1 e.2) s.entries f

/-- A loop over a map whose steps only grow the filter contains what the visit of one of
its keys adds. -/
theorem contains_foldl_entries (step : Bloom.Filter UInt64 → Hash → β → Bloom.Filter UInt64)
    (hstep : ∀ f a b, f ≤ step f a b) {s : AList fun _ : Hash => β} {a : Hash} {b : β}
    (hab : s.lookup a = some b) {x : UInt64} (hx : ∀ f, (step f a b).contains x = true)
    (f : Bloom.Filter UInt64) : (s.foldl step f).contains x = true := by
  unfold AList.foldl
  exact Bloom.Filter.contains_foldl (fun f e => hstep f e.1 e.2) hx s.entries
    (AList.mem_lookup_iff.mp hab) f

/-- The loop of `rebloom` over one account's slots. -/
theorem le_slots (accountHash : Hash) (f : Bloom.Filter UInt64)
    (slots : AList fun _ : Hash => Bytes) :
    f ≤ slots.foldl (fun f storageHash _ => f.add (hs.storage accountHash storageHash)) f :=
  le_foldl_entries _ (fun _ _ _ => Bloom.Filter.le_add _ _) slots f

theorem le_index (data : DiffData) (f : Bloom.Filter UInt64) : f ≤ data.index hs f :=
  le_trans (le_foldl_entries _ (fun _ _ _ => Bloom.Filter.le_add _ _) _ f)
    (le_trans (le_foldl_entries _ (fun _ _ _ => Bloom.Filter.le_add _ _) _ _)
      (le_foldl_entries _ (fun f a slots => le_slots hs a f slots) _ _))

/-- `rebloom` covers the layer's own keys. -/
theorem coveredBy_index (data : DiffData) (f : Bloom.Filter UInt64) :
    data.CoveredBy hs (data.index hs f) := by
  -- the loops after the one that adds a key keep it
  have hslots : ∀ f' : Bloom.Filter UInt64,
      f' ≤ data.storageData.foldl (fun f accountHash slots => slots.foldl
        (fun f storageHash _ => f.add (hs.storage accountHash storageHash)) f) f' :=
    le_foldl_entries _ (fun f a slots => le_slots hs a f slots) _
  have haccounts : ∀ f' : Bloom.Filter UInt64,
      f' ≤ data.accountData.foldl (fun f hash _ => f.add (hs.account hash)) f' :=
    le_foldl_entries _ (fun _ _ _ => Bloom.Filter.le_add _ _) _
  refine ⟨fun hash hmem => ?_, fun hash hmem => ?_, fun accountHash slots hl storageHash hmem => ?_⟩
  · obtain ⟨u, hu⟩ := Option.isSome_iff_exists.mp (AList.lookup_isSome.mpr hmem)
    have hin := contains_foldl_entries (fun f hash _ => f.add (hs.destruct hash))
      (fun _ _ _ => Bloom.Filter.le_add _ _) hu (fun f => Bloom.Filter.contains_add_self f _) f
    exact le_trans (haccounts _) (hslots _) _ hin
  · obtain ⟨v, hv⟩ := Option.isSome_iff_exists.mp (AList.lookup_isSome.mpr hmem)
    have hin := contains_foldl_entries (fun f hash _ => f.add (hs.account hash))
      (fun _ _ _ => Bloom.Filter.le_add _ _) hv (fun f => Bloom.Filter.contains_add_self f _)
      (data.destructSet.foldl (fun f hash _ => f.add (hs.destruct hash)) f)
    exact hslots _ _ hin
  · obtain ⟨v, hv⟩ := Option.isSome_iff_exists.mp (AList.lookup_isSome.mpr hmem)
    exact contains_foldl_entries _ (fun f a slots => le_slots hs a f slots) hl
      (fun f => contains_foldl_entries (fun f storageHash _ => f.add (hs.storage accountHash storageHash))
        (fun _ _ _ => Bloom.Filter.le_add _ _) hv (fun f => Bloom.Filter.contains_add_self f _) f) _

end Index

/-! ### The bloom shortcut -/

/-- On a bloom miss no covered layer knows the account, so the scan reaches the disk
layer. -/
theorem refAccountRLP_of_miss {layers : List DiffData} {f : Bloom.Filter UInt64}
    (hcov : ∀ d ∈ layers, d.CoveredBy hs f) (disk : DiskLayer) {hash : Hash}
    (hmiss : (f.contains (hs.account hash) || f.contains (hs.destruct hash)) = false) :
    refAccountRLP layers disk hash = disk.accountRLP hash := by
  have hnone : layers.find? (fun l => decide (hash ∈ l.accountData) ||
      decide (hash ∈ l.destructSet)) = none := by
    refine List.find?_eq_none.mpr fun d hd hhit => ?_
    rcases Bool.or_eq_true_iff.mp hhit with hacc | hdes
    · simp [(hcov d hd).account hash (of_decide_eq_true hacc)] at hmiss
    · simp [(hcov d hd).destruct hash (of_decide_eq_true hdes)] at hmiss
  rw [refAccountRLP, hnone]

theorem refStorage_of_miss {layers : List DiffData} {f : Bloom.Filter UInt64}
    (hcov : ∀ d ∈ layers, d.CoveredBy hs f) (disk : DiskLayer) {accountHash storageHash : Hash}
    (hmiss : (f.contains (hs.storage accountHash storageHash) ||
      f.contains (hs.destruct accountHash)) = false) :
    refStorage layers disk accountHash storageHash = disk.storage accountHash storageHash := by
  have hnone : layers.find? (fun l => (l.slot accountHash storageHash).isSome ||
      decide (accountHash ∈ l.destructSet)) = none := by
    refine List.find?_eq_none.mpr fun d hd hhit => ?_
    rcases Bool.or_eq_true_iff.mp hhit with hslot | hdes
    · obtain ⟨v, hv⟩ := Option.isSome_iff_exists.mp hslot
      obtain ⟨slots, hl, hs'⟩ := Option.bind_eq_some_iff.mp hv
      have hmem : storageHash ∈ slots := AList.lookup_isSome.mp (by simp [hs'])
      simp [(hcov d hd).storage accountHash slots hl storageHash hmem] at hmiss
    · simp [(hcov d hd).destruct accountHash (of_decide_eq_true hdes)] at hmiss
  rw [refStorage, hnone]

/-- The bloom shortcut never changes `AccountRLP`'s answer: on a stack that keeps the
invariant, it is the lookup through the layers. -/
theorem accountRLP_eq_internal (hash : Hash) :
    ∀ l : Layer, l.Bloomed hs → l.accountRLP hs hash = l.accountRLPInternal hash
  | .disk _, _ => rfl
  | .diff origin data diffed parent, ⟨horigin, hcov, _⟩ => by
    rw [Layer.accountRLP]
    split_ifs with hhit
    · rfl
    · -- a miss: the scan below reaches the disk layer, which is the origin
      rw [accountRLPInternal_eq_ref, Layer.diffs, Layer.bottom,
        refAccountRLP_of_miss hs hcov _ (Bool.eq_false_iff.mpr hhit), horigin]

theorem storage_eq_internal (accountHash storageHash : Hash) :
    ∀ l : Layer, l.Bloomed hs →
      l.storage hs accountHash storageHash = l.storageInternal accountHash storageHash
  | .disk _, _ => rfl
  | .diff origin data diffed parent, ⟨horigin, hcov, _⟩ => by
    rw [Layer.storage]
    split_ifs with hhit
    · rfl
    · rw [storageInternal_eq_ref, Layer.diffs, Layer.bottom,
        refStorage_of_miss hs hcov _ (Bool.eq_false_iff.mpr hhit), horigin]

/-- `Update` keeps the invariant: the new filter copies the parent's, which covers the
layers below, and adds the new layer's keys. -/
theorem Layer.Bloomed.newDiffLayer {l : Layer} (hl : l.Bloomed hs)
    (positions : UInt64 → List ℕ) (data : DiffData) :
    (newDiffLayer hs positions l data).Bloomed hs := by
  cases l with
  | disk d =>
      refine ⟨rfl, fun d' hd' => ?_, trivial⟩
      rw [Layer.diffs, List.mem_singleton] at hd'
      subst hd'
      exact coveredBy_index hs _ _
  | diff origin pdata diffed pparent =>
      obtain ⟨horigin, hcov, hpb⟩ := hl
      refine ⟨horigin, fun d' hd' => ?_, ⟨horigin, hcov, hpb⟩⟩
      rcases List.mem_cons.mp hd' with rfl | hd'
      · exact coveredBy_index hs _ _
      · exact (hcov d' hd').mono hs (le_index hs _ _)

/-! ### What `flatten`'s merge holds -/

namespace DiffData

variable (parent child : DiffData)

theorem mem_flattenDestructs_destructSet (hash : Hash) :
    hash ∈ (parent.flattenDestructs child).destructSet ↔
      hash ∈ child.destructSet ∨ hash ∈ parent.destructSet := by
  have hproj : (parent.flattenDestructs child).destructSet =
      child.destructSet.foldl (fun t a _ => t.insert a ()) parent.destructSet :=
    (AList.foldl_hom DiffData.destructSet (fun _ _ _ => rfl) child.destructSet parent).symm
  have hloop := AList.lookup_foldl_insert (fun _ _ => ()) child.destructSet parent.destructSet hash
  rw [← AList.lookup_isSome, ← AList.lookup_isSome, ← AList.lookup_isSome, hproj, hloop]
  cases child.destructSet.lookup hash <;> simp

theorem lookup_flattenDestructs_accountData (hash : Hash) :
    (parent.flattenDestructs child).accountData.lookup hash =
      if hash ∈ child.destructSet then none else parent.accountData.lookup hash := by
  have hproj : (parent.flattenDestructs child).accountData =
      child.destructSet.foldl (fun t a _ => t.erase a) parent.accountData :=
    (AList.foldl_hom DiffData.accountData (fun _ _ _ => rfl) child.destructSet parent).symm
  rw [hproj, AList.lookup_foldl_erase]

theorem lookup_flattenDestructs_storageData (accountHash : Hash) :
    (parent.flattenDestructs child).storageData.lookup accountHash =
      if accountHash ∈ child.destructSet then none else parent.storageData.lookup accountHash := by
  have hproj : (parent.flattenDestructs child).storageData =
      child.destructSet.foldl (fun t a _ => t.erase a) parent.storageData :=
    (AList.foldl_hom DiffData.storageData (fun _ _ _ => rfl) child.destructSet parent).symm
  rw [hproj, AList.lookup_foldl_erase]

@[simp] theorem flattenAccounts_destructSet :
    (parent.flattenAccounts child).destructSet = parent.destructSet := by
  refine AList.foldl_frame DiffData.destructSet ?_ child.accountData parent
  intro p hash data
  rfl

@[simp] theorem flattenAccounts_storageData :
    (parent.flattenAccounts child).storageData = parent.storageData := by
  refine AList.foldl_frame DiffData.storageData ?_ child.accountData parent
  intro p hash data
  rfl

theorem lookup_flattenAccounts_accountData (hash : Hash) :
    (parent.flattenAccounts child).accountData.lookup hash =
      (child.accountData.lookup hash).or (parent.accountData.lookup hash) := by
  have hproj : (parent.flattenAccounts child).accountData =
      child.accountData.foldl (fun t a c => t.insert a c) parent.accountData :=
    (AList.foldl_hom DiffData.accountData (fun _ _ _ => rfl) child.accountData parent).symm
  have hloop := AList.lookup_foldl_insert (fun _ v => v) child.accountData parent.accountData hash
  rw [hproj, hloop]
  cases child.accountData.lookup hash <;> rfl

/-- The slots the third loop leaves for an account, from the parent's slots, if it has
any, and the child's. -/
def slotsAfter (comboData : Option (AList fun _ : Hash => Bytes))
    (storage : AList fun _ : Hash => Bytes) : AList fun _ : Hash => Bytes :=
  match comboData with
  | none => storage
  | some comboData =>
      storage.foldl (fun comboData storageHash data => comboData.insert storageHash data) comboData

theorem lookup_slotsAfter (comboData : Option (AList fun _ : Hash => Bytes))
    (storage : AList fun _ : Hash => Bytes) (storageHash : Hash) :
    (slotsAfter comboData storage).lookup storageHash =
      (storage.lookup storageHash).or (comboData.bind (·.lookup storageHash)) := by
  cases comboData with
  | none =>
      rw [slotsAfter, Option.bind_none, Option.or_none]
  | some comboData =>
      have hloop := AList.lookup_foldl_insert (fun _ v => v) storage comboData storageHash
      rw [slotsAfter, hloop, Option.bind_some]
      cases storage.lookup storageHash <;> rfl

/-- One step of the third loop sets the account's storage to `slotsAfter`. -/
theorem flattenStorage_step_storageData (p : DiffData) (accountHash : Hash)
    (storage : AList fun _ : Hash => Bytes) :
    (match p.storageData.lookup accountHash with
      | none => { p with storageData := p.storageData.insert accountHash storage }
      | some comboData =>
          { p with
            storageData := p.storageData.insert accountHash
              (storage.foldl (fun comboData storageHash data => comboData.insert storageHash data)
                comboData) } : DiffData).storageData =
      p.storageData.insert accountHash (slotsAfter (p.storageData.lookup accountHash) storage) := by
  cases p.storageData.lookup accountHash <;> rfl

@[simp] theorem flattenStorage_destructSet :
    (parent.flattenStorage child).destructSet = parent.destructSet := by
  refine AList.foldl_frame DiffData.destructSet ?_ child.storageData parent
  intro p accountHash storage
  split <;> rfl

@[simp] theorem flattenStorage_accountData :
    (parent.flattenStorage child).accountData = parent.accountData := by
  refine AList.foldl_frame DiffData.accountData ?_ child.storageData parent
  intro p accountHash storage
  split <;> rfl

/-- The slot the third loop leaves: the child's if it wrote one, and otherwise the
parent's. -/
theorem slot_flattenStorage (accountHash storageHash : Hash) :
    (parent.flattenStorage child).slot accountHash storageHash =
      (child.slot accountHash storageHash).or (parent.slot accountHash storageHash) := by
  have hproj : (parent.flattenStorage child).storageData =
      child.storageData.foldl (fun t a c => t.insert a (slotsAfter (t.lookup a) c))
        parent.storageData :=
    (AList.foldl_hom DiffData.storageData
      (fun p a c => (flattenStorage_step_storageData p a c).symm) child.storageData parent).symm
  have hloop := AList.lookup_foldl_insert slotsAfter child.storageData parent.storageData accountHash
  unfold slot
  rw [hproj, hloop]
  cases child.storageData.lookup accountHash with
  | none => rfl
  | some storage => rw [Option.elim_some, Option.bind_some, Option.bind_some, lookup_slotsAfter]

theorem slot_flattenDestructs (accountHash storageHash : Hash) :
    (parent.flattenDestructs child).slot accountHash storageHash =
      if accountHash ∈ child.destructSet then none else parent.slot accountHash storageHash := by
  unfold slot
  rw [lookup_flattenDestructs_storageData]
  split_ifs <;> rfl

@[simp] theorem slot_flattenAccounts (accountHash storageHash : Hash) :
    (parent.flattenAccounts child).slot accountHash storageHash =
      parent.slot accountHash storageHash := by
  unfold slot
  rw [flattenAccounts_storageData]

/-- A merged layer answers for an account as the child over the parent. -/
theorem merge_accountOver (hash : Hash) (below : Bytes) :
    (parent.merge child).accountOver hash below =
      child.accountOver hash (parent.accountOver hash below) := by
  unfold merge accountOver
  rw [flattenStorage_accountData, lookup_flattenAccounts_accountData,
    lookup_flattenDestructs_accountData, flattenStorage_destructSet, flattenAccounts_destructSet]
  simp only [mem_flattenDestructs_destructSet]
  rcases child.accountData.lookup hash with _ | v
  · by_cases hd : hash ∈ child.destructSet
    · simp [hd]
    · -- the child does not know the account: the parent answers
      rcases parent.accountData.lookup hash with _ | w <;> simp [hd]
  · rfl

/-- A merged layer answers for a slot as the child over the parent. -/
theorem merge_storageOver (accountHash storageHash : Hash) (below : Bytes) :
    (parent.merge child).storageOver accountHash storageHash below =
      child.storageOver accountHash storageHash (parent.storageOver accountHash storageHash below) := by
  unfold merge storageOver
  rw [slot_flattenStorage, slot_flattenAccounts, slot_flattenDestructs, flattenStorage_destructSet,
    flattenAccounts_destructSet]
  simp only [mem_flattenDestructs_destructSet]
  rcases child.slot accountHash storageHash with _ | v
  · by_cases hd : accountHash ∈ child.destructSet
    · simp [hd]
    · rcases parent.slot accountHash storageHash with _ | w <;> simp [hd]
  · rfl

end DiffData

/-! ### Flattening -/

theorem DiffData.slot_isSome {data : DiffData} {accountHash storageHash : Hash}
    (h : (data.slot accountHash storageHash).isSome) :
    ∃ slots, data.storageData.lookup accountHash = some slots ∧ storageHash ∈ slots := by
  obtain ⟨v, hv⟩ := Option.isSome_iff_exists.mp h
  obtain ⟨slots, hl, hs'⟩ := Option.bind_eq_some_iff.mp hv
  exact ⟨slots, hl, AList.lookup_isSome.mp (by simp [hs'])⟩

/-- A filter that covers the parent and the child covers their merge: every key of the
merge is a key of one of them. -/
theorem DiffData.CoveredBy.merge {parent child : DiffData} {f : Bloom.Filter UInt64}
    (hp : parent.CoveredBy hs f) (hc : child.CoveredBy hs f) :
    (parent.merge child).CoveredBy hs f := by
  refine ⟨fun hash hmem => ?_, fun hash hmem => ?_, fun accountHash slots hl storageHash hmem => ?_⟩
  · rw [DiffData.merge, DiffData.flattenStorage_destructSet, DiffData.flattenAccounts_destructSet,
      DiffData.mem_flattenDestructs_destructSet] at hmem
    rcases hmem with hmem | hmem
    · exact hc.destruct hash hmem
    · exact hp.destruct hash hmem
  · have hsome := AList.lookup_isSome.mpr hmem
    rw [DiffData.merge, DiffData.flattenStorage_accountData,
      DiffData.lookup_flattenAccounts_accountData,
      DiffData.lookup_flattenDestructs_accountData] at hsome
    rcases hcl : child.accountData.lookup hash with _ | v
    · rw [hcl, Option.none_or] at hsome
      split_ifs at hsome
      · simp at hsome
      · exact hp.account hash (AList.lookup_isSome.mp hsome)
    · exact hc.account hash (AList.lookup_isSome.mp (by simp [hcl]))
  · -- the merge holds the slot, so the child or the parent wrote it
    have hslot : ((parent.merge child).slot accountHash storageHash).isSome := by
      simp [DiffData.slot, hl, AList.lookup_isSome.mpr hmem]
    rw [DiffData.merge, DiffData.slot_flattenStorage, DiffData.slot_flattenAccounts,
      DiffData.slot_flattenDestructs] at hslot
    rcases hcs : child.slot accountHash storageHash with _ | v
    · rw [hcs, Option.none_or] at hslot
      split_ifs at hslot
      · simp at hslot
      · obtain ⟨slots', hl', hmem'⟩ := DiffData.slot_isSome hslot
        exact hp.storage accountHash slots' hl' storageHash hmem'
    · obtain ⟨slots', hl', hmem'⟩ := DiffData.slot_isSome (by rw [hcs]; rfl)
      exact hc.storage accountHash slots' hl' storageHash hmem'

namespace Layer

/-- A flattened diff layer is a diff layer, with the filter of the layer flattened. -/
theorem flatten_diff (origin : DiskLayer) (data : DiffData) (diffed : Bloom.Filter UInt64) :
    ∀ parent : Layer, ∃ origin' data' parent',
      (Layer.diff origin data diffed parent).flatten = .diff origin' data' diffed parent'
  | .disk d => ⟨origin, data, .disk d, rfl⟩
  | .diff o d f p => by
    obtain ⟨origin', data', parent', h⟩ := flatten_diff o d f p
    exact ⟨origin', data'.merge data, parent', Layer.flatten.eq_3 _ _ _ _ _ _ _ _ _ _ _ h⟩

/-- Flattening a layer over a diff layer merges it into the flattened parent. -/
theorem flatten_diff_diff {origin : DiskLayer} {data : DiffData} {diffed : Bloom.Filter UInt64}
    {o : DiskLayer} {d : DiffData} {f : Bloom.Filter UInt64} {p : Layer} {porigin : DiskLayer}
    {pdata : DiffData} {pparent : Layer}
    (h : (Layer.diff o d f p).flatten = .diff porigin pdata f pparent) :
    (Layer.diff origin data diffed (.diff o d f p)).flatten =
      .diff porigin (pdata.merge data) diffed pparent :=
  Layer.flatten.eq_3 _ _ _ _ _ _ _ _ _ _ _ h

/-- `flatten` keeps every lookup through the layers: the merged layer answers as the layer
over its parent. The induction is on the parent, which is flattened first. -/
theorem flatten_accountRLPInternal (hash : Hash) :
    ∀ (parent : Layer) (origin : DiskLayer) (data : DiffData) (diffed : Bloom.Filter UInt64),
      (Layer.diff origin data diffed parent).flatten.accountRLPInternal hash =
        (Layer.diff origin data diffed parent).accountRLPInternal hash
  | .disk _, _, _, _ => rfl
  | .diff o d f p, origin, data, diffed => by
    obtain ⟨porigin, pdata, pparent, hpf⟩ := flatten_diff o d f p
    have ih := flatten_accountRLPInternal hash p o d f
    rw [hpf] at ih
    simp only [accountRLPInternal] at ih
    rw [flatten_diff_diff hpf]
    simp only [accountRLPInternal]
    rw [DiffData.merge_accountOver, ih]

theorem flatten_storageInternal (accountHash storageHash : Hash) :
    ∀ (parent : Layer) (origin : DiskLayer) (data : DiffData) (diffed : Bloom.Filter UInt64),
      (Layer.diff origin data diffed parent).flatten.storageInternal accountHash storageHash =
        (Layer.diff origin data diffed parent).storageInternal accountHash storageHash
  | .disk _, _, _, _ => rfl
  | .diff o d f p, origin, data, diffed => by
    obtain ⟨porigin, pdata, pparent, hpf⟩ := flatten_diff o d f p
    have ih := flatten_storageInternal accountHash storageHash p o d f
    rw [hpf] at ih
    simp only [storageInternal] at ih
    rw [flatten_diff_diff hpf]
    simp only [storageInternal]
    rw [DiffData.merge_storageOver, ih]

theorem flatten_bottom :
    ∀ (parent : Layer) (origin : DiskLayer) (data : DiffData) (diffed : Bloom.Filter UInt64),
      (Layer.diff origin data diffed parent).flatten.bottom = parent.bottom
  | .disk _, _, _, _ => rfl
  | .diff o d f p, origin, data, diffed => by
    obtain ⟨porigin, pdata, pparent, hpf⟩ := flatten_diff o d f p
    have ih := flatten_bottom p o d f
    rw [hpf] at ih
    rw [flatten_diff_diff hpf, bottom, bottom]
    exact ih

/-- A filter that covers the layers still covers them after `flatten`. -/
theorem flatten_coveredBy {g : Bloom.Filter UInt64} :
    ∀ (parent : Layer) (origin : DiskLayer) (data : DiffData) (diffed : Bloom.Filter UInt64),
      (∀ d ∈ (Layer.diff origin data diffed parent).diffs, d.CoveredBy hs g) →
        ∀ d ∈ (Layer.diff origin data diffed parent).flatten.diffs, d.CoveredBy hs g
  | .disk _, _, _, _, hcov => hcov
  | .diff o d f p, origin, data, diffed, hcov => by
    obtain ⟨porigin, pdata, pparent, hpf⟩ := flatten_diff o d f p
    have ih := flatten_coveredBy p o d f (fun d' hd' => hcov d' (List.mem_cons_of_mem _ hd'))
    rw [hpf, diffs] at ih
    rw [flatten_diff_diff hpf, diffs]
    intro d' hd'
    rcases List.mem_cons.mp hd' with rfl | hd'
    · exact (ih pdata List.mem_cons_self).merge hs (hcov data List.mem_cons_self)
    · exact ih d' (List.mem_cons_of_mem _ hd')

/-- `flatten` keeps the invariant: the merged layer keeps the filter of the layer
flattened, which covered every layer below it. -/
theorem flatten_bloomed :
    ∀ (parent : Layer) (origin : DiskLayer) (data : DiffData) (diffed : Bloom.Filter UInt64),
      (Layer.diff origin data diffed parent).Bloomed hs →
        (Layer.diff origin data diffed parent).flatten.Bloomed hs
  | .disk _, _, _, _, hb => hb
  | .diff o d f p, origin, data, diffed, ⟨_, hcov, hpb⟩ => by
    obtain ⟨porigin, pdata, pparent, hpf⟩ := flatten_diff o d f p
    have ih := flatten_bloomed p o d f hpb
    have hcov' := flatten_coveredBy hs p o d f (fun d' hd' => hcov d' (List.mem_cons_of_mem _ hd'))
    rw [hpf] at ih hcov'
    obtain ⟨hporigin, -, hppb⟩ := ih
    rw [flatten_diff_diff hpf]
    refine ⟨hporigin, fun d' hd' => ?_, hppb⟩
    rcases List.mem_cons.mp hd' with rfl | hd'
    · exact (hcov' pdata List.mem_cons_self).merge hs (hcov data List.mem_cons_self)
    · exact hcov' d' (List.mem_cons_of_mem _ hd')

/-! ### Flattening down the stack -/

theorem flattenAt_accountRLPInternal (hash : Hash) :
    ∀ (depth : ℕ) (l : Layer), (l.flattenAt depth).accountRLPInternal hash = l.accountRLPInternal hash
  | 0, .disk _ => rfl
  | 0, .diff o d f p => flatten_accountRLPInternal hash p o d f
  | _ + 1, .disk _ => rfl
  | depth + 1, .diff o d f p => by
    simp only [flattenAt, accountRLPInternal]
    rw [flattenAt_accountRLPInternal hash depth p]

theorem flattenAt_storageInternal (accountHash storageHash : Hash) :
    ∀ (depth : ℕ) (l : Layer), (l.flattenAt depth).storageInternal accountHash storageHash =
      l.storageInternal accountHash storageHash
  | 0, .disk _ => rfl
  | 0, .diff o d f p => flatten_storageInternal accountHash storageHash p o d f
  | _ + 1, .disk _ => rfl
  | depth + 1, .diff o d f p => by
    simp only [flattenAt, storageInternal]
    rw [flattenAt_storageInternal accountHash storageHash depth p]

theorem flattenAt_bottom : ∀ (depth : ℕ) (l : Layer), (l.flattenAt depth).bottom = l.bottom
  | 0, .disk _ => rfl
  | 0, .diff o d f p => flatten_bottom p o d f
  | _ + 1, .disk _ => rfl
  | depth + 1, .diff _ _ _ p => flattenAt_bottom depth p

theorem flattenAt_coveredBy {g : Bloom.Filter UInt64} :
    ∀ (depth : ℕ) (l : Layer), (∀ d ∈ l.diffs, d.CoveredBy hs g) →
      ∀ d ∈ (l.flattenAt depth).diffs, d.CoveredBy hs g
  | 0, .disk _, hcov => hcov
  | 0, .diff o d f p, hcov => flatten_coveredBy hs p o d f hcov
  | _ + 1, .disk _, hcov => hcov
  | depth + 1, .diff _ data _ p, hcov => by
    intro d' hd'
    rcases List.mem_cons.mp hd' with rfl | hd'
    · exact hcov d' List.mem_cons_self
    · exact flattenAt_coveredBy depth p (fun d'' hd'' => hcov d'' (List.mem_cons_of_mem _ hd''))
        d' hd'

/-- Flattening down the stack keeps the invariant: the layers above the flattened one
keep their filters, which covered the layers merged. -/
theorem flattenAt_bloomed : ∀ (depth : ℕ) (l : Layer), l.Bloomed hs → (l.flattenAt depth).Bloomed hs
  | 0, .disk _, hb => hb
  | 0, .diff o d f p, hb => flatten_bloomed hs p o d f hb
  | _ + 1, .disk _, hb => hb
  | depth + 1, .diff _ data diffed p, ⟨horigin, hcov, hpb⟩ => by
    refine ⟨horigin.trans (flattenAt_bottom depth p).symm, fun d' hd' => ?_,
      flattenAt_bloomed depth p hpb⟩
    rcases List.mem_cons.mp hd' with rfl | hd'
    · exact hcov d' List.mem_cons_self
    · exact flattenAt_coveredBy hs depth p (fun d'' hd'' => hcov d'' (List.mem_cons_of_mem _ hd''))
        d' hd'

end Layer

/-! ### Stacks built by `Update` and `Tree.cap` -/

/-- The stacks that `Update` and the flattening of `Tree.cap` build from a disk layer, in
any order. -/
inductive Built : Layer → Prop
  | disk (d : DiskLayer) : Built (.disk d)
  | update {l : Layer} (positions : UInt64 → List ℕ) (data : DiffData) :
      Built l → Built (newDiffLayer hs positions l data)
  | flatten {l : Layer} (depth : ℕ) : Built l → Built (l.flattenAt depth)

/-- Every built stack keeps the invariant. -/
theorem Built.bloomed {l : Layer} (hl : Built hs l) : l.Bloomed hs := by
  induction hl with
  | disk d => trivial
  | update positions data _ ih => exact ih.newDiffLayer hs positions data
  | flatten depth _ ih => exact Layer.flattenAt_bloomed hs depth _ ih

/-- The lookups of a snapshot stack: on every stack that `Update` and `Tree.cap`'s
flattening build from a disk layer, each layer's filter covers the keys of its own layer
and of every diff layer below it, `AccountRLP` and `Storage` return the value of a scan of
the layers from the top, and flattening the stack at any depth leaves every answer as it
was. -/
theorem diffLayer_lookups {l : Layer} (hl : Built hs l) :
    l.Bloomed hs ∧
      (∀ hash, l.accountRLP hs hash = refAccountRLP l.diffs l.bottom hash) ∧
      (∀ accountHash storageHash, l.storage hs accountHash storageHash =
        refStorage l.diffs l.bottom accountHash storageHash) ∧
      (∀ depth hash, (l.flattenAt depth).accountRLP hs hash = l.accountRLP hs hash) ∧
      (∀ depth accountHash storageHash, (l.flattenAt depth).storage hs accountHash storageHash =
        l.storage hs accountHash storageHash) := by
  have hb := hl.bloomed hs
  -- the flattened stack keeps the invariant too, so both read through the layers
  have hfb : ∀ depth, (l.flattenAt depth).Bloomed hs := fun depth => Layer.flattenAt_bloomed hs depth l hb
  refine ⟨hb, fun hash => ?_, fun accountHash storageHash => ?_, fun depth hash => ?_,
    fun depth accountHash storageHash => ?_⟩
  · rw [accountRLP_eq_internal hs hash l hb, accountRLPInternal_eq_ref]
  · rw [storage_eq_internal hs accountHash storageHash l hb, storageInternal_eq_ref]
  · rw [accountRLP_eq_internal hs hash _ (hfb depth), accountRLP_eq_internal hs hash l hb,
      Layer.flattenAt_accountRLPInternal]
  · rw [storage_eq_internal hs accountHash storageHash _ (hfb depth),
      storage_eq_internal hs accountHash storageHash l hb, Layer.flattenAt_storageInternal]

/-- A stack of one layer over an empty disk layer, writing the account with hash 1, with
the hashers at offsets 0, 1 and 0 and a filter of one bit per key. -/
theorem diffLayer_lookups_update :
    let hs := bloomHashers 0 1 0
    let l := newDiffLayer hs (fun k => [k.toNat % 64]) (.disk ⟨fun _ => [], fun _ _ => []⟩)
      ⟨∅, AList.singleton 1 [7], ∅⟩
    Built hs l ∧ l.Bloomed hs ∧
      (∀ hash, l.accountRLP hs hash = refAccountRLP l.diffs l.bottom hash) ∧
      (∀ accountHash storageHash, l.storage hs accountHash storageHash =
        refStorage l.diffs l.bottom accountHash storageHash) ∧
      (∀ depth hash, (l.flattenAt depth).accountRLP hs hash = l.accountRLP hs hash) ∧
      (∀ depth accountHash storageHash, (l.flattenAt depth).storage hs accountHash storageHash =
        l.storage hs accountHash storageHash) :=
  have hl : Built (bloomHashers 0 1 0) (newDiffLayer (bloomHashers 0 1 0) (fun k => [k.toNat % 64])
      (.disk ⟨fun _ => [], fun _ _ => []⟩) ⟨∅, AList.singleton 1 [7], ∅⟩) :=
    .update _ _ (.disk _)
  ⟨hl, diffLayer_lookups _ hl⟩

end Classzz.Snapshot
