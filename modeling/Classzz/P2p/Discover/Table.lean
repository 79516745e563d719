import Classzz.P2p.Netutil.Net

/-!
# The discovery table

`Table` of `p2p/discover/table.go`: seventeen buckets of nodes by log distance from the local
node, each with its entries, its replacements and a `DistinctNetSet` of their addresses, and the
table's own `DistinctNetSet`. The operations are those that change the buckets: `addSeenNode`,
`addVerifiedNode`, `delete` (which `lookup.query` issues for a node that keeps failing), and the
two outcomes of `doRevalidate`: `bumpInBucket` after a pong, `replace` without one, with the
random index of `replace` a parameter. `addReplacement`, `addIP`, `removeIP`, `deleteInBucket`,
`pushNode` and `deleteNode` are the helpers they share. `enode.LogDist` and `netutil.IsLAN` are
parameters; a node is its ID and its address, the parts the table reads.

The counters are kept apart from the node lists, and they part from them: `deleteInBucket`
calls `removeIP` whether or not the node was in the bucket, so deleting a node the table does
not hold lowers the count of its subnet, and a third node of one `/24` then gets into a bucket
whose limit is two (`delete_absent_exceeds_bucketIPLimit`).
-/

namespace Classzz.Discover

open Classzz.Netutil

/-- `bucketSize`: the entries of a bucket. -/
def bucketSize : ℕ := 16

/-- `maxReplacements`: the replacements of a bucket. -/
def maxReplacements : ℕ := 10

/-- `hashBits`: the bits of a node ID. -/
def hashBits : ℕ := 256

/-- `nBuckets`. -/
def nBuckets : ℕ := hashBits / 15

/-- `bucketMinDistance`: the log distance of the closest bucket. -/
def bucketMinDistance : ℕ := hashBits - nBuckets

/-- `bucketIPLimit` addresses of one `bucketSubnet` in a bucket. -/
def bucketIPLimit : ℕ := 2

/-- `bucketSubnet`. -/
def bucketSubnet : ℕ := 24

/-- `tableIPLimit` addresses of one `tableSubnet` in the table. -/
def tableIPLimit : ℕ := 10

/-- `tableSubnet`. -/
def tableSubnet : ℕ := 24

theorem nBuckets_eq : nBuckets = 17 := rfl

theorem bucketMinDistance_eq : bucketMinDistance = 239 := rfl

/-- A `node` of the table: its ID and its address. -/
structure Node (ID : Type*) where
  id : ID
  ip : IP

/-- A `bucket`: its live entries, most active first, its replacements, and the subnet counts of
both. -/
structure Bucket (ID : Type*) where
  entries : List (Node ID)
  replacements : List (Node ID)
  ips : DistinctNetSet

/-- The part of `Table` the operations read and write: the local ID, the buckets, the table's
subnet counts, and whether `initDone` is closed. -/
structure Table (ID : Type*) where
  self : ID
  buckets : Fin nBuckets → Bucket ID
  ips : DistinctNetSet
  initDone : Bool

variable {ID : Type*} [DecidableEq ID]

/-- The index of `Table.bucket`: the distances up to `bucketMinDistance` share the first
bucket. -/
def bucketIndex (logDist : ID → ID → Fin (hashBits + 1)) (self id : ID) : Fin nBuckets :=
  if h : (logDist self id : ℕ) ≤ bucketMinDistance then ⟨0, by rw [nBuckets_eq]; omega⟩
  else ⟨logDist self id - bucketMinDistance - 1, by
    have hd := (logDist self id).isLt
    rw [nBuckets_eq]
    rw [bucketMinDistance_eq] at h ⊢
    unfold hashBits at hd
    omega⟩

/-- `newTable`: no nodes, and `initDone` still open. -/
def newTable (self : ID) : Table ID where
  self := self
  buckets := fun _ => ⟨[], [], ⟨bucketSubnet, bucketIPLimit, fun _ => 0⟩⟩
  ips := ⟨tableSubnet, tableIPLimit, fun _ => 0⟩
  initDone := false

/-- `contains`. -/
def contains (ns : List (Node ID)) (id : ID) : Bool :=
  ns.any fun n => decide (n.id = id)

/-- `pushNode`: `n` in front, keeping at most `max`, and the node that fell off the end. At
each call `max` is one of the positive constants `bucketSize` and `maxReplacements`. -/
def pushNode (list : List (Node ID)) (n : Node ID) (max : ℕ) :
    List (Node ID) × Option (Node ID) :=
  if list.length < max then (n :: list, none) else (n :: list.dropLast, list.getLast?)

/-- `deleteNode`: the list without its first node of `n`'s ID. -/
def deleteNode : List (Node ID) → Node ID → List (Node ID)
  | [], _ => []
  | m :: list, n => if m.id = n.id then list else m :: deleteNode list n

/-- The loop of `bumpInBucket` over the entries: those before the first with the ID, that
one, and the rest. -/
def findEntry (id : ID) : List (Node ID) → Option (List (Node ID) × Node ID × List (Node ID))
  | [] => none
  | e :: es =>
    if e.id = id then some ([], e, es)
    else (findEntry id es).map fun r => (e :: r.1, r.2.1, r.2.2)

namespace Table

variable (logDist : ID → ID → Fin (hashBits + 1)) (isLAN : IP → Bool)

/-- `tab.bucket(id)`. -/
def bucket (tab : Table ID) (id : ID) : Fin nBuckets :=
  bucketIndex logDist tab.self id

/-- The table with bucket `bi` changed by `f`: a write through the pointer `b`. -/
def modify (tab : Table ID) (bi : Fin nBuckets) (f : Bucket ID → Bucket ID) : Table ID :=
  { tab with buckets := Function.update tab.buckets bi (f (tab.buckets bi)) }

/-- `addIP`: count the address in the table's and in the bucket's subnet, unless either is
full; a LAN address is let in without counting, and a node without an address is refused. -/
def addIP (tab : Table ID) (bi : Fin nBuckets) (ip : IP) : Bool × Table ID :=
  if ip.length = 0 then (false, tab)
  else if isLAN ip then (true, tab)
  else if (tab.ips.add ip).1 = false then (false, tab)
  else if ((tab.buckets bi).ips.add ip).1 = false then
    -- the bucket refuses: the table's count is taken back
    (false, { tab with ips := (tab.ips.add ip).2.remove ip })
  else
    (true, { tab.modify bi (fun b => { b with ips := (b.ips.add ip).2 }) with
      ips := (tab.ips.add ip).2 })

/-- `removeIP`: uncount the address, whatever the bucket holds. -/
def removeIP (tab : Table ID) (bi : Fin nBuckets) (ip : IP) : Table ID :=
  if isLAN ip then tab
  else { tab.modify bi (fun b => { b with ips := b.ips.remove ip }) with ips := tab.ips.remove ip }

/-- `addReplacement`: `n` in front of the replacements, unless it is one already or its address
does not fit; the one that falls off the end is uncounted. -/
def addReplacement (tab : Table ID) (bi : Fin nBuckets) (n : Node ID) : Table ID :=
  if contains (tab.buckets bi).replacements n.id then tab
  else
    match addIP isLAN tab bi n.ip with
    | (false, tab) => tab
    | (true, tab) =>
      let pushed := pushNode (tab.buckets bi).replacements n maxReplacements
      let tab := tab.modify bi fun b => { b with replacements := pushed.1 }
      match pushed.2 with
      | none => tab
      | some removed => removeIP isLAN tab bi removed.ip

/-- `addSeenNode`: `n` at the end of its bucket if there is room and its address fits, and out
of the replacements; into the replacements if the bucket is full. -/
def addSeenNode (tab : Table ID) (n : Node ID) : Table ID :=
  if n.id = tab.self then tab
  else
    let bi := tab.bucket logDist n.id
    if contains (tab.buckets bi).entries n.id then tab
    else if bucketSize ≤ (tab.buckets bi).entries.length then addReplacement isLAN tab bi n
    else
      match addIP isLAN tab bi n.ip with
      | (false, tab) => tab
      | (true, tab) =>
        tab.modify bi fun b =>
          { b with entries := b.entries ++ [n], replacements := deleteNode b.replacements n }

/-- `bumpInBucket`: if `n` is an entry, move it to the front with its new address, counting
the new address in place of the old one; if the new one does not fit, the old one is counted
again and the entries stay. -/
def bumpInBucket (tab : Table ID) (bi : Fin nBuckets) (n : Node ID) : Bool × Table ID :=
  match findEntry n.id (tab.buckets bi).entries with
  | none => (false, tab)
  | some (pre, old, post) =>
    let front (tab : Table ID) := tab.modify bi fun b => { b with entries := n :: (pre ++ post) }
    if ipEqual n.ip old.ip then (true, front tab)
    else
      match addIP isLAN (removeIP isLAN tab bi old.ip) bi n.ip with
      | (true, tab) => (true, front tab)
      | (false, tab) => (false, (addIP isLAN tab bi old.ip).2)

/-- `addVerifiedNode`: once `initDone` is closed, `n` to the front of its bucket, moved there
if it is an entry, or into the replacements if the bucket is full. -/
def addVerifiedNode (tab : Table ID) (n : Node ID) : Table ID :=
  if !tab.initDone then tab
  else if n.id = tab.self then tab
  else
    let bi := tab.bucket logDist n.id
    match bumpInBucket isLAN tab bi n with
    | (true, tab) => tab
    | (false, tab) =>
      if bucketSize ≤ (tab.buckets bi).entries.length then addReplacement isLAN tab bi n
      else
        match addIP isLAN tab bi n.ip with
        | (false, tab) => tab
        | (true, tab) =>
          tab.modify bi fun b =>
            { b with entries := (pushNode b.entries n bucketSize).1,
                     replacements := deleteNode b.replacements n }

/-- `deleteInBucket`: `n` out of the entries, and its address uncounted. -/
def deleteInBucket (tab : Table ID) (bi : Fin nBuckets) (n : Node ID) : Table ID :=
  removeIP isLAN (tab.modify bi fun b => { b with entries := deleteNode b.entries n }) bi n.ip

/-- `Table.delete`. -/
def delete (tab : Table ID) (n : Node ID) : Table ID :=
  deleteInBucket isLAN tab (tab.bucket logDist n.id) n

/-- `replace`, with `k` for the choice of `tab.rand.Intn(len(b.replacements))`: if `last` is
still the last entry, a replacement takes its place, or it is deleted if there is none. -/
def replace (tab : Table ID) (bi : Fin nBuckets) (last : Node ID) (k : ℕ) :
    Table ID × Option (Node ID) :=
  match (tab.buckets bi).entries.getLast? with
  | none => (tab, none)
  | some e =>
    if e.id ≠ last.id then (tab, none)
    else
      match (tab.buckets bi).replacements with
      | [] => (deleteInBucket isLAN tab bi last, none)
      | r₀ :: rs =>
        let r := (r₀ :: rs).get ⟨k % (rs.length + 1), Nat.mod_lt _ (Nat.succ_pos _)⟩
        let tab := tab.modify bi fun b =>
          { b with replacements := deleteNode b.replacements r,
                   entries := b.entries.dropLast ++ [r] }
        (removeIP isLAN tab bi last.ip, some r)

end Table

/-- What happens to the table: the calls from outside, and `initDone` closing after the first
refresh. `pong n` is `doRevalidate` after a reply from `n`, with the record it returned (same
ID); `noPong n k` is `doRevalidate` without one, `k` the random index of `replace`. -/
inductive Op (ID : Type*) where
  | addSeenNode (n : Node ID)
  | addVerifiedNode (n : Node ID)
  | delete (n : Node ID)
  | initDone
  | pong (n : Node ID)
  | noPong (n : Node ID) (k : ℕ)

variable (logDist : ID → ID → Fin (hashBits + 1)) (isLAN : IP → Bool)

/-- One operation. -/
def step (tab : Table ID) : Op ID → Table ID
  | .addSeenNode n => tab.addSeenNode logDist isLAN n
  | .addVerifiedNode n => tab.addVerifiedNode logDist isLAN n
  | .delete n => tab.delete logDist isLAN n
  | .initDone => { tab with initDone := true }
  | .pong n => (tab.bumpInBucket isLAN (tab.bucket logDist n.id) n).2
  | .noPong n k => (tab.replace isLAN (tab.bucket logDist n.id) n k).1

/-- A run of operations. -/
def run (tab : Table ID) (ops : List (Op ID)) : Table ID :=
  ops.foldl (step logDist isLAN) tab

/-! ### One operation at a time -/

section Steps

open DistinctNetSet

variable {tab tab' : Table ID} {bi bj : Fin nBuckets} {f : Bucket ID → Bucket ID} {n : Node ID}
  {ip : IP}

@[simp]
theorem Table.modify_self : (tab.modify bi f).self = tab.self := rfl

@[simp]
theorem Table.modify_ips : (tab.modify bi f).ips = tab.ips := rfl

@[simp]
theorem Table.modify_bucket : (tab.modify bi f).bucket logDist = tab.bucket logDist := rfl

@[simp]
theorem Table.buckets_modify_self : (tab.modify bi f).buckets bi = f (tab.buckets bi) :=
  Function.update_self _ _ _

theorem Table.buckets_modify_of_ne (h : bj ≠ bi) : (tab.modify bi f).buckets bj = tab.buckets bj :=
  Function.update_of_ne h _ _

theorem deleteNode_of_not_contains {list : List (Node ID)} (h : contains list n.id = false) :
    deleteNode list n = list := by
  induction list with
  | nil => rfl
  | cons m list ih =>
    simp only [contains, List.any_cons, Bool.or_eq_false_iff, decide_eq_false_iff_not] at h
    obtain ⟨hm, hrest⟩ := h
    rw [deleteNode, if_neg hm, ih hrest]

/-- `addIP` of a public address with room in both subnets counts it in both. -/
theorem Table.addIP_of_fits (hip : ip ≠ []) (hlan : isLAN ip = false)
    (ht : tab.ips.members (key tab.ips.subnet ip) < tab.ips.limit)
    (hb : (tab.buckets bi).ips.members (key (tab.buckets bi).ips.subnet ip) <
      (tab.buckets bi).ips.limit) :
    tab.addIP isLAN bi ip = (true, { tab.modify bi (fun b => { b with ips := (b.ips.add ip).2 })
      with ips := (tab.ips.add ip).2 }) := by
  have hlen : ip.length ≠ 0 := fun h => hip (List.eq_nil_of_length_eq_zero h)
  have h₁ : (tab.ips.add ip).1 = true := by rw [tab.ips.add_of_lt ip ht]
  have h₂ : ((tab.buckets bi).ips.add ip).1 = true := by rw [add_of_lt _ ip hb]
  simp only [Table.addIP, hlen, hlan, h₁, h₂, if_false, Bool.false_eq_true, Bool.true_eq_false]

theorem Table.removeIP_of_public (hlan : isLAN ip = false) :
    tab.removeIP isLAN bi ip =
      { tab.modify bi (fun b => { b with ips := b.ips.remove ip }) with ips := tab.ips.remove ip } := by
  simp only [Table.removeIP, hlan, Bool.false_eq_true, if_false]

/-- `addSeenNode` of a node new to its bucket, with room there, whose address is taken: it joins
the end of the entries. -/
theorem Table.addSeenNode_of_fits (hself : n.id ≠ tab.self)
    (hnew : contains (tab.buckets (tab.bucket logDist n.id)).entries n.id = false)
    (hroom : (tab.buckets (tab.bucket logDist n.id)).entries.length < bucketSize)
    (hadd : tab.addIP isLAN (tab.bucket logDist n.id) n.ip = (true, tab')) :
    tab.addSeenNode logDist isLAN n = tab'.modify (tab.bucket logDist n.id) fun b =>
      { b with entries := b.entries ++ [n], replacements := deleteNode b.replacements n } := by
  unfold Table.addSeenNode
  rw [if_neg hself]
  dsimp only
  rw [hnew, if_neg Bool.false_ne_true, if_neg (Nat.not_le.mpr hroom), hadd]

/-- `delete` of a node that is not an entry of its bucket changes no entry, but uncounts the
node's address all the same. -/
theorem Table.delete_of_absent
    (habs : contains (tab.buckets (tab.bucket logDist n.id)).entries n.id = false) :
    tab.delete logDist isLAN n = tab.removeIP isLAN (tab.bucket logDist n.id) n.ip := by
  unfold Table.delete Table.deleteInBucket
  -- the bucket is written back as it was
  have hupd : Function.update tab.buckets (tab.bucket logDist n.id)
      ((fun b => { b with entries := deleteNode b.entries n })
        (tab.buckets (tab.bucket logDist n.id))) = tab.buckets := by
    rw [Function.update_eq_self_iff]
    dsimp only
    rw [deleteNode_of_not_contains habs]
  unfold Table.modify
  rw [hupd]

end Steps

/-! ### The counts part from the nodes -/

section Undercount

open DistinctNetSet

variable {logDist : ID → ID → Fin (hashBits + 1)} {isLAN : IP → Bool}

/-- What a public node that fits does to the view of its bucket `bi` and subnet `k`: it ends the
entries, and both counts of `k` go up by one. -/
theorem addSeenNode_view {tab : Table ID} {n : Node ID} {bi : Fin nBuckets}
    (hbi : tab.bucket logDist n.id = bi) (hself : n.id ≠ tab.self)
    (hnew : contains (tab.buckets bi).entries n.id = false)
    (hroom : (tab.buckets bi).entries.length < bucketSize) (hip : n.ip ≠ [])
    (hlan : isLAN n.ip = false)
    (ht : tab.ips.members (key tab.ips.subnet n.ip) < tab.ips.limit)
    (hb : (tab.buckets bi).ips.members (key (tab.buckets bi).ips.subnet n.ip) <
      (tab.buckets bi).ips.limit) :
    let t := tab.addSeenNode logDist isLAN n
    t.self = tab.self ∧ (t.buckets bi).entries = (tab.buckets bi).entries ++ [n] ∧
      t.ips = (tab.ips.add n.ip).2 ∧ (t.buckets bi).ips = ((tab.buckets bi).ips.add n.ip).2 := by
  subst hbi
  rw [Table.addSeenNode_of_fits logDist isLAN hself hnew hroom
    (Table.addIP_of_fits isLAN hip hlan ht hb)]
  simp

/-- What deleting a public node that is not in its bucket `bi` does: the entries stay, and both
counts of its subnet go down by one. -/
theorem delete_absent_view {tab : Table ID} {n : Node ID} {bi : Fin nBuckets}
    (hbi : tab.bucket logDist n.id = bi) (habs : contains (tab.buckets bi).entries n.id = false)
    (hlan : isLAN n.ip = false) :
    let t := tab.delete logDist isLAN n
    t.self = tab.self ∧ (t.buckets bi).entries = (tab.buckets bi).entries ∧
      t.ips = tab.ips.remove n.ip ∧ (t.buckets bi).ips = (tab.buckets bi).ips.remove n.ip := by
  subst hbi
  rw [Table.delete_of_absent logDist isLAN habs, Table.removeIP_of_public isLAN hlan]
  simp

/-- The bucket limit does not hold. From the empty table, two public nodes `a` and `b` of one
subnet join a bucket; deleting a node `c` of that subnet, which the bucket never held, uncounts
one of them; and a fourth node `d` of the subnet joins. The bucket then holds three nodes of one
`bucketSubnet`, while it counts `bucketIPLimit` of them. -/
theorem delete_absent_exceeds_bucketIPLimit (logDist : ID → ID → Fin (hashBits + 1))
    (isLAN : IP → Bool) (self : ID) (a b c d : Node ID)
    (hself : a.id ≠ self ∧ b.id ≠ self ∧ d.id ≠ self)
    (hids : a.id ≠ b.id ∧ c.id ≠ a.id ∧ c.id ≠ b.id ∧ d.id ≠ a.id ∧ d.id ≠ b.id)
    (hbucket : ∀ x ∈ [b, c, d], bucketIndex logDist self x.id = bucketIndex logDist self a.id)
    (hip : a.ip ≠ [] ∧ b.ip ≠ [] ∧ d.ip ≠ [])
    (hlan : ∀ x ∈ [a, b, c, d], isLAN x.ip = false)
    (hkey : ∀ x ∈ [b, c, d], key bucketSubnet x.ip = key bucketSubnet a.ip) :
    let tab := run logDist isLAN (newTable self)
      [.addSeenNode a, .addSeenNode b, .delete c, .addSeenNode d]
    (tab.buckets (bucketIndex logDist self a.id)).entries = [a, b, d] ∧
      (tab.buckets (bucketIndex logDist self a.id)).ips.members (key bucketSubnet a.ip) =
        bucketIPLimit := by
  intro tab
  obtain ⟨hsa, hsb, hsd⟩ := hself
  obtain ⟨hab, hca, hcb, hda, hdb⟩ := hids
  obtain ⟨hipa, hipb, hipd⟩ := hip
  have hbb := hbucket b (by simp)
  have hbc := hbucket c (by simp)
  have hbd := hbucket d (by simp)
  have hkb := hkey b (by simp)
  have hkc := hkey c (by simp)
  have hkd := hkey d (by simp)
  set bi := bucketIndex logDist self a.id
  set k := key bucketSubnet a.ip
  have hC₀ : Counts (newTable self : Table ID).ips tableSubnet tableIPLimit k 0 := ⟨rfl, rfl, rfl⟩
  have hD₀ : Counts ((newTable self : Table ID).buckets bi).ips bucketSubnet bucketIPLimit k 0 :=
    ⟨rfl, rfl, rfl⟩
  -- `a` joins the empty bucket
  obtain ⟨hs₁, he₁, hi₁, hb₁⟩ := @addSeenNode_view ID _ logDist isLAN (newTable self) a bi rfl
    hsa rfl (Nat.zero_lt_succ _) hipa (hlan a (by simp)) (hC₀.lt rfl (by decide))
    (hD₀.lt rfl (by decide))
  set t₁ := (newTable self).addSeenNode logDist isLAN a
  have hE₁ : (t₁.buckets bi).entries = [a] := he₁
  have hC₁ : Counts t₁.ips tableSubnet tableIPLimit k 1 := by
    rw [hi₁]
    exact hC₀.add rfl (by decide)
  have hD₁ : Counts (t₁.buckets bi).ips bucketSubnet bucketIPLimit k 1 := by
    rw [hb₁]
    exact hD₀.add rfl (by decide)
  -- `b` joins after it
  obtain ⟨hs₂, he₂, hi₂, hb₂⟩ := @addSeenNode_view ID _ logDist isLAN t₁ b bi
    (by rw [Table.bucket, hs₁]; exact hbb) (by rw [hs₁]; exact hsb)
    (by rw [hE₁]; simp [contains, hab]) (by rw [hE₁]; simp [bucketSize]) hipb
    (hlan b (by simp)) (hC₁.lt hkb (by decide)) (hD₁.lt hkb (by decide))
  set t₂ := t₁.addSeenNode logDist isLAN b
  have hE₂ : (t₂.buckets bi).entries = [a, b] := by
    rw [he₂, hE₁]
    rfl
  have hC₂ : Counts t₂.ips tableSubnet tableIPLimit k 2 := by
    rw [hi₂]
    exact hC₁.add hkb (by decide)
  have hD₂ : Counts (t₂.buckets bi).ips bucketSubnet bucketIPLimit k 2 := by
    rw [hb₂]
    exact hD₁.add hkb (by decide)
  -- deleting `c`, which is not there, uncounts one of them
  obtain ⟨hs₃, he₃, hi₃, hb₃⟩ := @delete_absent_view ID _ logDist isLAN t₂ c bi
    (by rw [Table.bucket, hs₂, hs₁]; exact hbc)
    (by rw [hE₂]; simp [contains, Ne.symm hca, Ne.symm hcb]) (hlan c (by simp))
  set t₃ := t₂.delete logDist isLAN c
  have hE₃ : (t₃.buckets bi).entries = [a, b] := by rw [he₃, hE₂]
  have hC₃ : Counts t₃.ips tableSubnet tableIPLimit k 1 := by
    rw [hi₃]
    exact hC₂.remove hkc
  have hD₃ : Counts (t₃.buckets bi).ips bucketSubnet bucketIPLimit k 1 := by
    rw [hb₃]
    exact hD₂.remove hkc
  -- so `d` finds room in the subnet's count
  obtain ⟨-, he₄, -, hb₄⟩ := @addSeenNode_view ID _ logDist isLAN t₃ d bi
    (by rw [Table.bucket, hs₃, hs₂, hs₁]; exact hbd) (by rw [hs₃, hs₂, hs₁]; exact hsd)
    (by rw [hE₃]; simp [contains, Ne.symm hda, Ne.symm hdb])
    (by rw [hE₃]; simp [bucketSize]) hipd (hlan d (by simp))
    (hC₃.lt hkd (by decide)) (hD₃.lt hkd (by decide))
  refine ⟨?_, ?_⟩
  · show ((t₃.addSeenNode logDist isLAN d).buckets bi).entries = [a, b, d]
    rw [he₄, hE₃]
    rfl
  · show ((t₃.addSeenNode logDist isLAN d).buckets bi).ips.members k = bucketIPLimit
    rw [hb₄]
    exact (hD₃.add hkd (by decide)).members_eq

/-- Node `i` at the address `1.2.3.i`, of a public `/24`. -/
def subnetNode (i : ℕ) : Node ℕ := ⟨i, [1, 2, 3, i.toUInt8]⟩

/-- Every node at the farthest log distance, in the last bucket. -/
def farthest : ℕ → ℕ → Fin (hashBits + 1) := fun _ _ => Fin.last hashBits

/-- The local node `0`, nodes `1.2.3.1` and `1.2.3.2` added, `1.2.3.3` deleted without ever
being added, then `1.2.3.4` added: three of `1.2.3.0/24` in one bucket. -/
theorem delete_absent_exceeds_bucketIPLimit_oneSubnet :
    ((subnetNode 1).id ≠ 0 ∧ (subnetNode 2).id ≠ 0 ∧ (subnetNode 4).id ≠ 0) ∧
      ((subnetNode 1).id ≠ (subnetNode 2).id ∧ (subnetNode 3).id ≠ (subnetNode 1).id ∧
        (subnetNode 3).id ≠ (subnetNode 2).id ∧ (subnetNode 4).id ≠ (subnetNode 1).id ∧
        (subnetNode 4).id ≠ (subnetNode 2).id) ∧
      (∀ x ∈ [subnetNode 2, subnetNode 3, subnetNode 4],
        bucketIndex farthest 0 x.id = bucketIndex farthest 0 (subnetNode 1).id) ∧
      ((subnetNode 1).ip ≠ [] ∧ (subnetNode 2).ip ≠ [] ∧ (subnetNode 4).ip ≠ []) ∧
      (∀ x ∈ [subnetNode 1, subnetNode 2, subnetNode 3, subnetNode 4],
        (fun _ => false : IP → Bool) x.ip = false) ∧
      (∀ x ∈ [subnetNode 2, subnetNode 3, subnetNode 4],
        key bucketSubnet x.ip = key bucketSubnet (subnetNode 1).ip) ∧
      let tab := run farthest (fun _ => false) (newTable 0)
        [.addSeenNode (subnetNode 1), .addSeenNode (subnetNode 2), .delete (subnetNode 3),
          .addSeenNode (subnetNode 4)]
      (tab.buckets (bucketIndex farthest 0 (subnetNode 1).id)).entries =
          [subnetNode 1, subnetNode 2, subnetNode 4] ∧
        (tab.buckets (bucketIndex farthest 0 (subnetNode 1).id)).ips.members
          (key bucketSubnet (subnetNode 1).ip) = bucketIPLimit := by
  have hself : (subnetNode 1).id ≠ 0 ∧ (subnetNode 2).id ≠ 0 ∧ (subnetNode 4).id ≠ 0 := by
    decide
  have hids : (subnetNode 1).id ≠ (subnetNode 2).id ∧ (subnetNode 3).id ≠ (subnetNode 1).id ∧
      (subnetNode 3).id ≠ (subnetNode 2).id ∧ (subnetNode 4).id ≠ (subnetNode 1).id ∧
      (subnetNode 4).id ≠ (subnetNode 2).id := by decide
  have hbucket : ∀ x ∈ [subnetNode 2, subnetNode 3, subnetNode 4],
      bucketIndex farthest 0 x.id = bucketIndex farthest 0 (subnetNode 1).id := by decide
  have hip : (subnetNode 1).ip ≠ [] ∧ (subnetNode 2).ip ≠ [] ∧ (subnetNode 4).ip ≠ [] := by
    decide
  have hlan : ∀ x ∈ [subnetNode 1, subnetNode 2, subnetNode 3, subnetNode 4],
      (fun _ => false : IP → Bool) x.ip = false := by decide
  have hkey : ∀ x ∈ [subnetNode 2, subnetNode 3, subnetNode 4],
      key bucketSubnet x.ip = key bucketSubnet (subnetNode 1).ip := by decide
  exact ⟨hself, hids, hbucket, hip, hlan, hkey,
    delete_absent_exceeds_bucketIPLimit farthest (fun _ => false) 0 (subnetNode 1) (subnetNode 2)
      (subnetNode 3) (subnetNode 4) hself hids hbucket hip hlan hkey⟩

end Undercount

end Classzz.Discover
