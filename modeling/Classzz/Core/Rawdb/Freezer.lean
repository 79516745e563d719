import Classzz.Core.Rawdb.FreezerTable
import Classzz.Lib.Except

/-!
# The freezer: five tables kept in step

`core/rawdb/freezer.go`. The freezer stores each ancient block in five tables, one per kind of
data, and counts the blocks in `frozen`. `AppendAncient` appends to the five tables in a fixed
order and counts the block; if an append fails, a deferred `repair` truncates every table to
the fewest items any holds, and a failed repair ends the process through `log.Crit`.
`TruncateAncients` truncates the tables, in the iteration order of Go's map, and then sets the
counter.

Any call a table makes on its files may fail. A table call of the freezer is modelled as the
table's own call, or as an I/O fault that makes it fail; a failed table call leaves the table's
item count as it was, since both `append` and `truncate` set it last. The iteration order of a
loop over the map is a parameter, a list in which each table occurs once.

`Aligned` says that every table reports `frozen` items. `AppendAncient` keeps it on every
outcome that returns (`appendAncient_aligned`), and `TruncateAncients` on every outcome but a
failed table truncation (`truncateAncients_aligned`). A failed truncation returns after the
tables before it in the map's order were cut and before the counter is set, and leaves the
tables out of step (`truncateAncients_misaligns`).
-/

namespace Classzz.Rawdb

namespace FreezerTable

/-! ### How the table calls change the item count -/

theorem openFile_items {t t' : FreezerTable} {d d' : Disk} {num : UInt32} {opener : Opener}
    (h : t.openFile d num opener = .ok (t', d')) : t'.items = t.items := by
  unfold openFile at h
  split at h
  · cases h
    rfl
  · cases opener with
    | forAppend =>
      dsimp only at h
      cases h
      rfl
    | readOnly =>
      dsimp only at h
      split at h
      · cases h
        rfl
      · cases h
    | truncated =>
      dsimp only at h
      cases h
      rfl

theorem nextHead_items {t t' : FreezerTable} {d d' : Disk} (h : t.nextHead d = .ok (t', d')) :
    t'.items = t.items := by
  unfold nextHead at h
  dsimp only at h
  obtain ⟨⟨t₁, d₁⟩, h₁, h⟩ := Except.bind_eq_ok.mp h
  -- the old head is reopened for reading, and kept as it was if that fails
  have hreopen : ∀ r, ((t₁.releaseFile t₁.headId).openFile d₁ t₁.headId .readOnly).toOption.getD
      (t₁.releaseFile t₁.headId, d₁) = r → r.1.items = t₁.items := by
    intro r hr
    cases ho : (t₁.releaseFile t₁.headId).openFile d₁ t₁.headId .readOnly with
    | error e =>
      rw [ho] at hr
      rw [← hr]
      rfl
    | ok r' =>
      obtain ⟨t₂, d₂⟩ := r'
      rw [ho] at hr
      rw [← hr]
      have h₂ := openFile_items ho
      exact h₂
  rw [← (Prod.mk.inj (Except.pure_eq_ok.mp h)).1]
  exact (hreopen _ rfl).trans (openFile_items h₁)

/-- `truncate` leaves a table with no more items than it had, and with `items` items if it
had more. -/
theorem truncate_items {t t' : FreezerTable} {d d' : Disk} {items : UInt64}
    (h : t.truncate d items = .ok (t', d')) :
    t'.items = if t.items ≤ items then t.items else items := by
  unfold truncate at h
  by_cases hle : t.items ≤ items
  · simp only [hle, if_true, Except.pure_eq_ok, Prod.mk.injEq] at h
    rw [if_pos hle, ← h.1]
  · simp only [hle, if_false] at h
    rw [if_neg hle]
    have h := Except.ite_bind_eq_ok_right h
    obtain ⟨index, -, h⟩ := Except.bind_eq_ok.mp h
    split at h
    · rw [Except.throw_bind] at h
      exact absurd h Except.throw_ne_ok
    · -- the head moves back to the file the new last entry names, or stays
      split_ifs at h
      · obtain ⟨⟨t₁, d₁⟩, -, h⟩ := Except.bind_eq_ok.mp h
        obtain ⟨⟨t₂, d₂⟩, -, h⟩ := Except.bind_eq_ok.mp h
        obtain ⟨head, -, h⟩ := Except.bind_eq_ok.mp h
        rw [← (Prod.mk.inj (Except.pure_eq_ok.mp h)).1]
      · obtain ⟨⟨t₂, d₂⟩, -, h⟩ := Except.bind_eq_ok.mp h
        obtain ⟨head, -, h⟩ := Except.bind_eq_ok.mp h
        rw [← (Prod.mk.inj (Except.pure_eq_ok.mp h)).1]

/-- `append` accepts only the next item; it either asks to be retried, which it never does with
the write lock and which leaves the table as it was, or counts the item. -/
theorem append_items {t t' : FreezerTable} {d d' : Disk} {item : UInt64} {blob : Bytes}
    {wlock retry : Bool} (h : t.append d item blob wlock = .ok (retry, t', d')) :
    t.items = item ∧ (retry = true → t' = t ∧ wlock = false) ∧
      (retry = false → t'.items = t.items + 1) := by
  unfold append at h
  dsimp only at h
  by_cases hc : t.closed = true
  · rw [if_pos hc, Except.throw_bind] at h
    exact absurd h Except.throw_ne_ok
  rw [if_neg hc] at h
  by_cases hi : t.items ≠ item
  · rw [if_pos hi, Except.throw_bind] at h
    exact absurd h Except.throw_ne_ok
  rw [if_neg hi] at h
  refine ⟨not_not.mp hi, ?_⟩
  split_ifs at h with hr hro
  · -- the blob does not fit and there is no write lock: ask to be retried
    obtain ⟨hretry, hrest⟩ := Prod.mk.inj (Except.pure_eq_ok.mp h)
    obtain ⟨ht, -⟩ := Prod.mk.inj hrest
    have hw : wlock = false := by
      cases wlock
      · rfl
      · simp at hr
    subst hretry
    exact ⟨fun _ => ⟨ht.symm, hw⟩, fun hf => absurd hf (by decide)⟩
  · -- a new head file
    obtain ⟨⟨t₁, d₁⟩, h₁, h⟩ := Except.bind_eq_ok.mp h
    obtain ⟨hretry, hrest⟩ := Prod.mk.inj (Except.pure_eq_ok.mp h)
    obtain ⟨ht, -⟩ := Prod.mk.inj hrest
    subst hretry
    refine ⟨fun hf => absurd hf (by decide), fun _ => ?_⟩
    rw [← ht, nextHead_items h₁]
  · obtain ⟨hretry, hrest⟩ := Prod.mk.inj (Except.pure_eq_ok.mp h)
    obtain ⟨ht, -⟩ := Prod.mk.inj hrest
    subst hretry
    refine ⟨fun hf => absurd hf (by decide), fun _ => ?_⟩
    rw [← ht]

/-- `Append` accepts only the next item, and counts it. -/
theorem Append_items {snappy : Snappy} {t t' : FreezerTable} {d d' : Disk} {item : UInt64}
    {blob : Bytes} (h : t.Append snappy d item blob = .ok (t', d')) :
    t.items = item ∧ t'.items = t.items + 1 := by
  unfold Append at h
  obtain ⟨⟨retry, t₁, d₁⟩, h₁, h⟩ := Except.bind_eq_ok.mp h
  obtain ⟨hitem, hretry, hcount⟩ := append_items h₁
  refine ⟨hitem, ?_⟩
  cases retry with
  | false =>
    obtain ⟨rfl, -⟩ := Prod.mk.inj (Except.pure_eq_ok.mp h)
    exact hcount rfl
  | true =>
    -- the retry with the write lock is made on the table as it was
    obtain ⟨rfl, -⟩ := hretry rfl
    obtain ⟨⟨retry', t₂, d₂⟩, h₂, h⟩ := Except.bind_eq_ok.mp h
    obtain ⟨rfl, -⟩ := Prod.mk.inj (Except.pure_eq_ok.mp h)
    obtain ⟨-, hretry', hcount'⟩ := append_items h₂
    cases retry' with
    | false => exact hcount' rfl
    | true => exact absurd (hretry' rfl).2 (by decide)

end FreezerTable

/-! ### The freezer -/

/-- The five tables of the freezer, by their keys in `FreezerNoSnappy`. -/
inductive TableKind where
  /-- `freezerHashTable`, `"hashes"`. -/
  | hashes
  /-- `freezerHeaderTable`, `"headers"`. -/
  | headers
  /-- `freezerBodiesTable`, `"bodies"`. -/
  | bodies
  /-- `freezerReceiptTable`, `"receipts"`. -/
  | receipts
  /-- `freezerDifficultyTable`, `"diffs"`. -/
  | diffs
  deriving DecidableEq, Repr

/-- The order in which `AppendAncient` appends to the tables. -/
def appendOrder : List TableKind := [.hashes, .headers, .bodies, .receipts, .diffs]

theorem mem_appendOrder (k : TableKind) : k ∈ appendOrder := by
  cases k <;> decide

theorem nodup_appendOrder : appendOrder.Nodup := by decide

/-- The errors of the freezer's calls. -/
inductive AncientError where
  /-- `errReadOnly`. -/
  | readOnly
  /-- `errOutOrderInsertion`. -/
  | outOrderInsertion
  /-- The error of a table. -/
  | table (e : FreezerError)
  deriving DecidableEq, Repr

/-- `freezer`: each table with its files, the number of blocks frozen, and whether it was
opened read only. -/
structure Freezer where
  tables : TableKind → FreezerTable × Disk
  frozen : UInt64
  readonly : Bool

namespace Freezer

/-- The item count a table reports. -/
def items (f : Freezer) (k : TableKind) : UInt64 := (f.tables k).1.items

/-- Replaces one table. -/
def setTable (f : Freezer) (k : TableKind) (td : FreezerTable × Disk) : Freezer :=
  { f with tables := Function.update f.tables k td }

/-- A table call of the freezer: an I/O fault makes it fail, and otherwise it is the table's
own call. -/
def faulty (fault : Option FreezerError) (call : Except FreezerError (FreezerTable × Disk)) :
    Except FreezerError (FreezerTable × Disk) :=
  match fault with
  | some e => .error e
  | none => call

/-- A loop of the freezer over its tables in the order `order`: make `call` on each table,
returning at the first that fails. `TruncateAncients` and `repair` loop over the map,
`AppendAncient` over its fixed order. -/
def eachTable (call : TableKind → FreezerTable × Disk → Except FreezerError (FreezerTable × Disk))
    (faults : TableKind → Option FreezerError) :
    Freezer → List TableKind → Freezer × Option FreezerError
  | f, [] => (f, none)
  | f, k :: ks =>
    match faulty (faults k) (call k (f.tables k)) with
    | .ok td => eachTable call faults (f.setTable k td) ks
    | .error e => (f, some e)

/-- The fewest items any table reports, starting from `math.MaxUint64`, as `repair` finds
it. -/
def minItems (f : Freezer) (order : List TableKind) : UInt64 :=
  order.foldl (fun m k => if m > f.items k then f.items k else m) 0xFFFFFFFFFFFFFFFF

/-- `freezer.repair`: truncate every table to the fewest items any reports, then count the
frozen blocks as that. -/
def repair (f : Freezer) (order : List TableKind) (faults : TableKind → Option FreezerError) :
    Freezer × Option FreezerError :=
  let min := f.minItems order
  match eachTable (fun _ td => td.1.truncate td.2 min) faults f order with
  | (f, none) => ({ f with frozen := min }, none)
  | (f, some e) => (f, some e)

/-- `AppendAncient` of the blobs of block `number`, appended to the tables as item
`f.frozen`. A failed append is followed by `repair`, whose failure is `log.Crit`, which ends
the process: `none`. -/
def appendAncient (snappy : FreezerTable.Snappy) (f : Freezer) (order : List TableKind)
    (appendFaults truncateFaults : TableKind → Option FreezerError) (number : UInt64)
    (blobs : TableKind → Bytes) : Option (Freezer × Option AncientError) :=
  if f.readonly then some (f, some .readOnly)
  else if f.frozen ≠ number then some (f, some .outOrderInsertion)
  else
    match eachTable (fun k td => td.1.Append snappy td.2 f.frozen (blobs k)) appendFaults f
        appendOrder with
    | (f', none) => some ({ f' with frozen := f'.frozen + 1 }, none)
    | (f', some e) =>
      match f'.repair order truncateFaults with
      | (f'', none) => some (f'', some (.table e))
      | (_, some _) => none

/-- `TruncateAncients`: cut every table after `items` items, then count the frozen blocks as
`items`. -/
def truncateAncients (f : Freezer) (order : List TableKind)
    (faults : TableKind → Option FreezerError) (items : UInt64) :
    Freezer × Option AncientError :=
  if f.readonly then (f, some .readOnly)
  else if f.frozen ≤ items then (f, none)
  else
    match eachTable (fun _ td => td.1.truncate td.2 items) faults f order with
    | (f', none) => ({ f' with frozen := items }, none)
    | (f', some e) => (f', some (.table e))

/-- Every table reports the number of frozen blocks. -/
def Aligned (f : Freezer) : Prop := ∀ k, f.items k = f.frozen

/-! ### The loops -/

theorem tables_setTable_self (f : Freezer) (k : TableKind) (td : FreezerTable × Disk) :
    (f.setTable k td).tables k = td := by
  simp [setTable]

theorem tables_setTable_of_ne (f : Freezer) {j k : TableKind} (hjk : j ≠ k)
    (td : FreezerTable × Disk) : (f.setTable k td).tables j = f.tables j := by
  simp [setTable, Function.update_of_ne hjk]

theorem eq_of_faulty_eq_ok {fault : Option FreezerError}
    {call : Except FreezerError (FreezerTable × Disk)} {td : FreezerTable × Disk}
    (h : faulty fault call = .ok td) : call = .ok td := by
  cases fault with
  | none => exact h
  | some e => cases h

/-- A loop over the tables that makes every call succeed changes each table it visits as a
successful call does, and no other table nor the counter. -/
theorem eachTable_ok
    {call : TableKind → FreezerTable × Disk → Except FreezerError (FreezerTable × Disk)}
    {faults : TableKind → Option FreezerError} {P : FreezerTable × Disk → FreezerTable × Disk → Prop}
    (hP : ∀ k td td', call k td = .ok td' → P td td') {f f' : Freezer} {order : List TableKind}
    (hnd : order.Nodup) (h : eachTable call faults f order = (f', none)) :
    f'.frozen = f.frozen ∧ (∀ k ∈ order, P (f.tables k) (f'.tables k)) ∧
      ∀ k ∉ order, f'.tables k = f.tables k := by
  -- induction on the tables left; each is visited once, on the state the loop started from
  induction order generalizing f with
  | nil =>
    cases h
    exact ⟨rfl, fun _ hk => absurd hk List.not_mem_nil, fun _ _ => rfl⟩
  | cons k ks ih =>
    obtain ⟨hk, hks⟩ := List.nodup_cons.mp hnd
    unfold eachTable at h
    split at h
    · rename_i td hcall
      obtain ⟨hfrozen, hvisit, hrest⟩ := ih hks h
      refine ⟨hfrozen, fun j hj => ?_, fun j hj => ?_⟩
      · rcases List.mem_cons.mp hj with rfl | hj
        · rw [hrest j hk, tables_setTable_self]
          exact hP j _ _ (eq_of_faulty_eq_ok hcall)
        · have hjk : j ≠ k := fun e => hk (e ▸ hj)
          rw [← tables_setTable_of_ne f hjk td]
          exact hvisit j hj
      · have hjk : j ≠ k := fun e => hj (e ▸ List.mem_cons_self)
        rw [hrest j (fun h' => hj (List.mem_cons_of_mem k h')), tables_setTable_of_ne f hjk]
    · cases h

/-- The loop that truncates every table to `items`. -/
theorem eachTable_truncate {faults : TableKind → Option FreezerError} {items : UInt64}
    {f f' : Freezer} {order : List TableKind} (hnd : order.Nodup)
    (h : eachTable (fun _ td => td.1.truncate td.2 items) faults f order = (f', none)) :
    f'.frozen = f.frozen ∧
      ∀ k ∈ order, f'.items k = if f.items k ≤ items then f.items k else items :=
  let ⟨hfrozen, hvisit, _⟩ := eachTable_ok (P := fun td td' =>
    td'.1.items = if td.1.items ≤ items then td.1.items else items)
    (fun _ _ _ h => FreezerTable.truncate_items h) hnd h
  ⟨hfrozen, hvisit⟩

theorem minItems_le_foldl (f : Freezer) (order : List TableKind) (m : UInt64) :
    order.foldl (fun m k => if m > f.items k then f.items k else m) m ≤ m ∧
      ∀ k ∈ order, order.foldl (fun m k => if m > f.items k then f.items k else m) m ≤ f.items k := by
  induction order generalizing m with
  | nil => exact ⟨UInt64.le_refl m, fun _ hk => absurd hk List.not_mem_nil⟩
  | cons j js ih =>
    -- the running minimum after `j` is below both `m` and `j`'s count
    have hstep : (if m > f.items j then f.items j else m) ≤ m ∧
        (if m > f.items j then f.items j else m) ≤ f.items j := by
      split_ifs with hgt
      · exact ⟨UInt64.le_of_lt hgt, UInt64.le_refl _⟩
      · exact ⟨UInt64.le_refl m, UInt64.not_lt.mp hgt⟩
    obtain ⟨hle, hall⟩ := ih (if m > f.items j then f.items j else m)
    refine ⟨UInt64.le_trans hle hstep.1, fun k hk => ?_⟩
    rcases List.mem_cons.mp hk with rfl | hk
    · exact UInt64.le_trans hle hstep.2
    · exact hall k hk

/-- Every table of the loop reports at least the minimum `repair` finds. -/
theorem minItems_le (f : Freezer) {order : List TableKind} {k : TableKind} (hk : k ∈ order) :
    f.minItems order ≤ f.items k :=
  (minItems_le_foldl f order _).2 k hk

/-! ### The frozen count is kept -/

section Calls

variable {order : List TableKind} (hall : ∀ k, k ∈ order) (hnd : order.Nodup)
include hall hnd

/-- A `repair` that succeeds leaves every table at the frozen count it sets. -/
theorem repair_aligned {f f' : Freezer} {faults : TableKind → Option FreezerError}
    (h : f.repair order faults = (f', none)) : f'.Aligned := by
  unfold repair at h
  dsimp only at h
  split at h
  · rename_i f₁ h₁
    cases h
    obtain ⟨-, hitems⟩ := eachTable_truncate hnd h₁
    intro k
    have hle := minItems_le f (hall k)
    show f₁.items k = f.minItems order
    rw [hitems k (hall k)]
    split_ifs with hk
    · exact UInt64.le_antisymm hk hle
    · rfl
  · cases h

/-- Every call of `AppendAncient` that returns leaves the tables in step: all five appends
count the block, or `repair` truncates every table back to the fewest items. -/
theorem appendAncient_aligned {snappy : FreezerTable.Snappy} {f f' : Freezer}
    {appendFaults truncateFaults : TableKind → Option FreezerError} {number : UInt64}
    {blobs : TableKind → Bytes} {err : Option AncientError} (hf : f.Aligned)
    (h : f.appendAncient snappy order appendFaults truncateFaults number blobs = some (f', err)) :
    f'.Aligned := by
  unfold appendAncient at h
  split_ifs at h with hro hnum
  · cases h
    exact hf
  · cases h
    exact hf
  split at h
  · -- every append succeeded and counted the block
    rename_i f₁ h₁
    cases h
    obtain ⟨hfrozen, hvisit, -⟩ := eachTable_ok (P := fun td td' =>
      td.1.items = f.frozen ∧ td'.1.items = td.1.items + 1)
      (fun _ _ _ h => FreezerTable.Append_items h) nodup_appendOrder h₁
    intro k
    show f₁.items k = f₁.frozen + 1
    rw [hfrozen, ← (hvisit k (mem_appendOrder k)).1]
    exact (hvisit k (mem_appendOrder k)).2
  · -- an append failed, and the repair that rolls it back succeeded
    split at h
    · rename_i f₂ h₂
      cases h
      exact repair_aligned hall hnd h₂
    · cases h

/-- Every call of `TruncateAncients` that returns without a table's error leaves the tables in
step. -/
theorem truncateAncients_aligned {f f' : Freezer} {faults : TableKind → Option FreezerError}
    {items : UInt64} {err : Option AncientError} (hf : f.Aligned)
    (h : f.truncateAncients order faults items = (f', err))
    (herr : ∀ e, err ≠ some (.table e)) : f'.Aligned := by
  unfold truncateAncients at h
  split_ifs at h with hro hle
  · cases h
    exact hf
  · cases h
    exact hf
  split at h
  · rename_i f₁ h₁
    cases h
    obtain ⟨-, hitems⟩ := eachTable_truncate hnd h₁
    intro k
    show f₁.items k = items
    rw [hitems k (hall k), hf k, if_neg hle]
  · cases h
    exact absurd rfl (herr _)

end Calls

/-- A truncation that fails at the second table of the map's order returns after the first
table was cut to `items` and before the counter is set: the two tables and the counter
disagree, and the freezer is out of step until it is opened again. -/
theorem truncateAncients_misaligns (f : Freezer) {k₀ k₁ : TableKind} (rest : List TableKind)
    (faults : TableKind → Option FreezerError) {items : UInt64} {e : FreezerError}
    (hf : f.Aligned) (hro : f.readonly = false) (hlt : items < f.frozen) (hne : k₀ ≠ k₁)
    (h₀ : (faulty (faults k₀) ((f.tables k₀).1.truncate (f.tables k₀).2 items)).isOk = true)
    (h₁ : faults k₁ = some e) :
    ∃ f', f.truncateAncients (k₀ :: k₁ :: rest) faults items = (f', some (.table e)) ∧
      f'.items k₀ = items ∧ f'.items k₁ = f.frozen ∧ f'.frozen = f.frozen ∧ ¬ f'.Aligned := by
  obtain ⟨td₀, hok⟩ : ∃ td₀, faulty (faults k₀) ((f.tables k₀).1.truncate (f.tables k₀).2 items) =
      .ok td₀ := by
    cases hc : faulty (faults k₀) ((f.tables k₀).1.truncate (f.tables k₀).2 items) with
    | error e' =>
      rw [hc] at h₀
      cases h₀
    | ok td₀ => exact ⟨td₀, rfl⟩
  have hcut : td₀.1.items = items := by
    rw [FreezerTable.truncate_items (eq_of_faulty_eq_ok hok), if_neg]
    show ¬ f.items k₀ ≤ items
    rw [hf k₀]
    exact UInt64.not_le.mpr hlt
  have hne' : k₁ ≠ k₀ := fun h => hne h.symm
  refine ⟨f.setTable k₀ td₀, ?_, ?_, ?_, rfl, ?_⟩
  · unfold truncateAncients
    rw [if_neg (by simp [hro]), if_neg (UInt64.not_le.mpr hlt)]
    simp only [eachTable]
    rw [hok]
    simp only [faulty, h₁]
  · show ((f.setTable k₀ td₀).tables k₀).1.items = items
    rw [tables_setTable_self, hcut]
  · show ((f.setTable k₀ td₀).tables k₁).1.items = f.frozen
    rw [tables_setTable_of_ne f hne' td₀]
    exact hf k₁
  · intro hal
    have h₀' : ((f.setTable k₀ td₀).tables k₀).1.items = f.frozen := hal k₀
    rw [tables_setTable_self, hcut] at h₀'
    exact UInt64.ne_of_lt hlt h₀'

/-- A freezer whose five tables each hold one block, truncated to none while the headers
table's index cannot be cut. -/
def oneBlock : Freezer :=
  let snappy : FreezerTable.Snappy := ⟨id, some, fun b => some b.length⟩
  { tables := fun _ => runOps snappy (fresh 2000000000 false) [.append 0 [1]]
    frozen := 1
    readonly := false }

theorem truncateAncients_misaligns_oneBlock :
    (oneBlock.Aligned ∧ oneBlock.readonly = false ∧ (0 : UInt64) < oneBlock.frozen ∧
      TableKind.hashes ≠ TableKind.headers ∧
      (faulty none ((oneBlock.tables .hashes).1.truncate (oneBlock.tables .hashes).2 0)).isOk = true ∧
      (fun k => if k = TableKind.headers then some FreezerError.invalid else none) TableKind.headers =
        some FreezerError.invalid) ∧
    ∃ f', oneBlock.truncateAncients [.hashes, .headers, .bodies, .receipts, .diffs]
        (fun k => if k = .headers then some .invalid else none) 0 = (f', some (.table .invalid)) ∧
      f'.items .hashes = 0 ∧ f'.items .headers = oneBlock.frozen ∧ f'.frozen = oneBlock.frozen ∧
      ¬ f'.Aligned :=
  have hal : oneBlock.Aligned := fun k => by cases k <;> rfl
  have hcut : (faulty none ((oneBlock.tables .hashes).1.truncate (oneBlock.tables .hashes).2 0)).isOk =
      true := by decide
  ⟨⟨hal, rfl, by decide, by decide, hcut, rfl⟩,
    truncateAncients_misaligns oneBlock [.bodies, .receipts, .diffs]
      (fun k => if k = .headers then some .invalid else none) hal rfl (by decide) (by decide) hcut
      rfl⟩

end Freezer

end Classzz.Rawdb
