import Classzz.Core.Rawdb.FreezerTable
import Classzz.Lib.Except

/-!
# Repairing a freezer table after a crash

`freezerTable.repair` opens a table whose files a crash may have left out of step: an index
cut inside an entry, entries that point past the end of the head data file, a head file
longer than its last entry says. It cuts the index to whole entries, then cuts the head file
or drops the index's last entry until the two agree, slipping back to an earlier data file
when the entry now last names one.

Every step of it only removes bytes (`Disk.Cuts`), and `LoopInv` is what each turn of its
loop keeps: the index is `entries` whole entries, the buffer holds the last one, and the head
size is that of the data file it names. The loop ends because each turn that does not stop
it drops an entry, which the model's recursion on `entries` makes explicit. On success the
files are `Synced`: a positive number of whole entries whose last ends at the end of the head
file, with the table's counters read off the first and the last entry (`repair_consistent`).

All of this needs an index that holds a whole first entry or nothing. One cut inside its
first entry is cut to nothing; both reads of it then leave the zero buffer, the loop agrees
with an empty head, and the table opens with no entry and `2 ^ 64 - 1` items
(`repair_short_index`).
-/

namespace Classzz.Rawdb

/-- The last entry of an index: its last `indexEntrySize` bytes. -/
def lastEntry (index : Bytes) : IndexEntry :=
  IndexEntry.unmarshalBinary (index.drop (index.length - indexEntrySize))

/-! ### Files that keep or lose bytes -/

namespace Disk

@[simp] theorem index_write (d : Disk) (num : UInt32) (b : Bytes) :
    (d.write num b).index = d.index := rfl

theorem content_write (d : Disk) (num f : UInt32) (b : Bytes) :
    (d.write num b).content f = if f = num then b else d.content f := by
  unfold write content
  by_cases hf : f = num
  · subst hf
    simp
  · simp [hf]

/-- Every file of `d'` holds the bytes it holds in `d`; only which data files exist may
differ. -/
structure Same (d d' : Disk) : Prop where
  index : d'.index = d.index
  content : ∀ f, d'.content f = d.content f

/-- Every file of `d'` is a prefix of the same file of `d`. -/
structure Cuts (d d' : Disk) : Prop where
  index : d'.index <+: d.index
  content : ∀ f, d'.content f <+: d.content f

theorem Same.refl (d : Disk) : d.Same d := ⟨rfl, fun _ => rfl⟩

theorem Same.trans {d₁ d₂ d₃ : Disk} (h₁ : d₁.Same d₂) (h₂ : d₂.Same d₃) : d₁.Same d₃ :=
  ⟨h₂.index.trans h₁.index, fun f => (h₂.content f).trans (h₁.content f)⟩

theorem Same.cuts {d d' : Disk} (h : d.Same d') : d.Cuts d' :=
  ⟨h.index ▸ List.prefix_refl _, fun f => h.content f ▸ List.prefix_refl _⟩

theorem Cuts.trans {d₁ d₂ d₃ : Disk} (h₁ : d₁.Cuts d₂) (h₂ : d₂.Cuts d₃) : d₁.Cuts d₃ :=
  ⟨h₂.index.trans h₁.index, fun f => (h₂.content f).trans (h₁.content f)⟩

/-- Rewriting a data file with a prefix of its bytes cuts it. -/
theorem cuts_write {d : Disk} {num : UInt32} {b : Bytes} (hb : b <+: d.content num) :
    d.Cuts (d.write num b) := by
  refine ⟨List.prefix_refl _, fun f => ?_⟩
  rw [content_write]
  split_ifs with hf
  · subst hf
    exact hb
  · exact List.prefix_refl _

theorem cuts_take_index (d : Disk) (n : ℕ) : d.Cuts { d with index := d.index.take n } :=
  ⟨List.take_prefix _ _, fun _ => List.prefix_refl _⟩

end Disk

/-- `os.File.ReadAt` at a negative offset reads nothing and leaves the buffer. -/
theorem readAt_of_neg {file buffer : Bytes} {off : ℤ} (h : off < 0) :
    readAt file buffer off = (buffer, some .negativeOffset) := by
  simp [readAt, h]

/-- `os.File.ReadAt` inside the file fills the buffer. -/
theorem readAt_of_le {file buffer : Bytes} {off : ℕ} (h : off + buffer.length ≤ file.length) :
    readAt file buffer off = ((file.drop off).take buffer.length, none) := by
  have hlen : ((file.drop off).take buffer.length).length = buffer.length := by
    simp only [List.length_take, List.length_drop]
    omega
  simp [readAt, hlen]

theorem length_readAt (file buffer : Bytes) (off : ℤ) :
    (readAt file buffer off).1.length = buffer.length := by
  unfold readAt
  split_ifs
  · rfl
  · simp only [List.length_append, List.length_drop]
    have : ((file.drop off.toNat).take buffer.length).length ≤ buffer.length := by simp
    omega

/-! ### The files agree -/

/-- The files of a table agree: the index is `entries` whole entries, at least one, and its
last entry `last` ends at the end of the data file it names. -/
structure Synced (d : Disk) (entries : ℕ) (last : IndexEntry) : Prop where
  length_index : d.index.length = indexEntrySize * entries
  pos : 0 < entries
  last_eq : last = lastEntry d.index
  offset_eq : last.offset.toNat = (d.content last.filenum).length

theorem Synced.of_same {d d' : Disk} {entries : ℕ} {last : IndexEntry} (h : Synced d entries last)
    (hs : d.Same d') : Synced d' entries last :=
  ⟨hs.index ▸ h.length_index, h.pos, hs.index ▸ h.last_eq,
    (hs.content last.filenum).symm ▸ h.offset_eq⟩

namespace FreezerTable

/-! ### Opening files -/

/-- Opening a data file other than by truncating it changes no bytes and no counter. -/
theorem openFile_eq_ok {t t' : FreezerTable} {d d' : Disk} {num : UInt32} {opener : Opener}
    (h : t.openFile d num opener = .ok (t', d')) (hop : opener ≠ .truncated) :
    (∃ fs, t' = { t with files := fs }) ∧ d.Same d' := by
  unfold openFile at h
  split at h
  · cases h
    exact ⟨⟨t.files, rfl⟩, .refl d⟩
  · cases opener with
    | forAppend =>
      dsimp only at h
      cases h
      refine ⟨⟨_, rfl⟩, ⟨rfl, fun f => ?_⟩⟩
      rw [Disk.content_write]
      split_ifs with hf
      · rw [hf]
      · rfl
    | readOnly =>
      dsimp only at h
      split at h
      · cases h
        exact ⟨⟨_, rfl⟩, .refl d⟩
      · cases h
    | truncated => exact absurd rfl hop

/-- Opening for appending never fails. -/
theorem openFile_forAppend (t : FreezerTable) (d : Disk) (num : UInt32) :
    ∃ r, t.openFile d num .forAppend = .ok r := by
  unfold openFile
  split
  · exact ⟨_, rfl⟩
  · exact ⟨_, rfl⟩

theorem foldlM_openFile_readOnly (is : List ℕ) {t t' : FreezerTable} {d d' : Disk}
    (h : is.foldlM (fun (td : FreezerTable × Disk) i =>
      td.1.openFile td.2 (UInt32.ofNat i) .readOnly) (t, d) = .ok (t', d')) :
    (∃ fs, t' = { t with files := fs }) ∧ d.Same d' := by
  induction is generalizing t d with
  | nil =>
    cases h
    exact ⟨⟨_, rfl⟩, .refl _⟩
  | cons i is ih =>
    rw [List.foldlM_cons] at h
    obtain ⟨⟨t₁, d₁⟩, h₁, h⟩ := Except.bind_eq_ok.mp h
    obtain ⟨⟨fs₁, rfl⟩, hd₁⟩ := openFile_eq_ok h₁ (by decide)
    obtain ⟨⟨fs, rfl⟩, hd⟩ := ih h
    exact ⟨⟨fs, rfl⟩, hd₁.trans hd⟩

/-- `preopen` changes no bytes and no counter. -/
theorem preopen_eq_ok {t t' : FreezerTable} {d d' : Disk} (h : t.preopen d = .ok (t', d')) :
    (∃ fs, t' = { t with files := fs }) ∧ d.Same d' := by
  unfold preopen releaseFilesAfter at h
  obtain ⟨⟨t₁, d₁⟩, h₁, h⟩ := Except.bind_eq_ok.mp h
  obtain ⟨⟨fs₁, rfl⟩, hd₁⟩ := foldlM_openFile_readOnly _ h₁
  obtain ⟨⟨fs, rfl⟩, hd⟩ := openFile_eq_ok h (by decide)
  exact ⟨⟨fs, rfl⟩, hd₁.trans hd⟩

/-- A table whose start and head are both data file `0` opens only that file, which cannot
fail. -/
theorem preopen_zero {P : FreezerTable → Disk → Prop} {t : FreezerTable} {d : Disk}
    (htail : t.tailId = 0) (hhead : t.headId = 0)
    (hP : ∀ fs d', d.Same d' → P { t with files := fs } d') :
    ∃ t' d', t.preopen d = .ok (t', d') ∧ P t' d' := by
  obtain ⟨⟨t₁, d₁⟩, h₁⟩ := openFile_forAppend { t with files := t.files.filter (· ≤ 0) } d 0
  obtain ⟨⟨fs, rfl⟩, hd⟩ := openFile_eq_ok h₁ (by decide)
  refine ⟨_, d₁, ?_, hP fs d₁ hd⟩
  unfold preopen releaseFilesAfter
  simp only [htail, hhead, Bool.false_eq_true, if_false, UInt32.toNat_zero, Nat.sub_self,
    List.range'_zero, List.foldlM_nil, pure_bind]
  rw [htail, hhead] at h₁
  exact h₁

/-! ### The loop of `repair` -/

/-- `repairHead` never fails and changes no bytes and no counter; the size it returns is that
of the data file the new last entry names. -/
theorem repairHead_eq_ok (t : FreezerTable) (d : Disk) (lastIndex newLastIndex : IndexEntry)
    {contentSize : ℕ} (hsize : contentSize = (d.content lastIndex.filenum).length) :
    ∃ fs d', t.repairHead d lastIndex newLastIndex contentSize =
      .ok ({ t with files := fs }, d', (d'.content newLastIndex.filenum).length) ∧ d.Same d' := by
  unfold repairHead
  split_ifs with hne
  · -- the head slips back to the file the new last entry names
    obtain ⟨⟨t₁, d₁⟩, h₁⟩ := openFile_forAppend (t.releaseFile lastIndex.filenum) d
      newLastIndex.filenum
    obtain ⟨⟨fs, rfl⟩, hd⟩ := openFile_eq_ok h₁ (by decide)
    refine ⟨fs, d₁, ?_, hd⟩
    rw [h₁]
    rfl
  · have heq : newLastIndex.filenum = lastIndex.filenum := not_not.mp hne
    refine ⟨t.files, d, ?_, .refl d⟩
    rw [hsize, heq]
    rfl

/-- What each turn of `repairLoop` keeps: the index is `entries` whole entries, the buffer is
its last one while there is one, `lastIndex` is what the buffer decodes to, and
`contentSize` is the size of the data file it names. An index left with no entry still
points past the end of the head. -/
structure LoopInv (d : Disk) (buffer : Bytes) (lastIndex : IndexEntry) (contentSize entries : ℕ) :
    Prop where
  length_index : d.index.length = indexEntrySize * entries
  length_buffer : buffer.length = indexEntrySize
  buffer_eq : 0 < entries → buffer = d.index.drop (d.index.length - indexEntrySize)
  last_eq : lastIndex = IndexEntry.unmarshalBinary buffer
  size_eq : contentSize = (d.content lastIndex.filenum).length
  past_end : entries = 0 → contentSize < lastIndex.offset.toNat

/-- The turn that drops the last entry keeps the invariant: the buffer is read again at the
entry now last, or left as it is when none is left, and the head size follows the file the
entry names. -/
theorem LoopInv.drop {d : Disk} {buffer : Bytes} {lastIndex : IndexEntry} {contentSize n : ℕ}
    (hinv : LoopInv d buffer lastIndex contentSize (n + 1))
    (hpast : contentSize < lastIndex.offset.toNat) {d' : Disk}
    (hd' : Disk.Same { d with index := d.index.take (indexEntrySize * n) } d') :
    let buffer' := (readAt (d.index.take (indexEntrySize * n)) buffer
      (((indexEntrySize * n : ℕ) : ℤ) - indexEntrySize)).1
    LoopInv d' buffer' (IndexEntry.unmarshalBinary buffer')
      (d'.content (IndexEntry.unmarshalBinary buffer').filenum).length n := by
  intro buffer'
  have hlen : (d.index.take (indexEntrySize * n)).length = indexEntrySize * n := by
    rw [List.length_take, hinv.length_index]
    exact Nat.min_eq_left (Nat.mul_le_mul_left _ (Nat.le_succ n))
  have hidx : d'.index = d.index.take (indexEntrySize * n) := hd'.index
  refine ⟨by rw [hidx, hlen], ?_, fun hn => ?_, rfl, rfl, fun hn => ?_⟩
  · rw [length_readAt, hinv.length_buffer]
  · -- an entry is left: the read at the last one fills the buffer with it
    have hoff : ((indexEntrySize * n : ℕ) : ℤ) - indexEntrySize =
        ((indexEntrySize * n - indexEntrySize : ℕ) : ℤ) := by
      have : indexEntrySize ≤ indexEntrySize * n := Nat.le_mul_of_pos_right _ hn
      omega
    have hfit : indexEntrySize * n - indexEntrySize + buffer.length ≤
        (d.index.take (indexEntrySize * n)).length := by
      rw [hlen, hinv.length_buffer]
      have : indexEntrySize ≤ indexEntrySize * n := Nat.le_mul_of_pos_right _ hn
      omega
    show (readAt (d.index.take (indexEntrySize * n)) buffer
      (((indexEntrySize * n : ℕ) : ℤ) - indexEntrySize)).1 = _
    rw [hoff, readAt_of_le hfit, hidx, hlen]
    apply List.take_of_length_le
    rw [List.length_drop, hlen, hinv.length_buffer]
    omega
  · -- no entry is left: the read fails, and the buffer still holds the old last entry
    subst hn
    have hbuf : buffer' = buffer := by
      show (readAt _ buffer _).1 = buffer
      rw [readAt_of_neg (by simp [indexEntrySize])]
    rw [hbuf, ← hinv.last_eq, hd'.content]
    show (d.content lastIndex.filenum).length < lastIndex.offset.toNat
    rw [← hinv.size_eq]
    exact hpast

/-- The loop of `repair` only cuts the files, changes no counter, and ends with them
`Synced`, at the head size it returns. -/
theorem LoopInv.repairLoop {t : FreezerTable} {d : Disk} {buffer : Bytes}
    {lastIndex : IndexEntry} {contentSize entries : ℕ}
    (hinv : LoopInv d buffer lastIndex contentSize entries) {t' : FreezerTable} {d' : Disk}
    {last' : IndexEntry} {size' entries' : ℕ}
    (h : t.repairLoop d buffer lastIndex contentSize entries = .ok (t', d', last', size', entries')) :
    (∃ fs, t' = { t with files := fs }) ∧ d.Cuts d' ∧ Synced d' entries' last' ∧
      size' = last'.offset.toNat := by
  -- induction on the entries left: a turn that goes on has dropped one
  induction entries generalizing t d buffer lastIndex contentSize with
  | zero =>
    have hpast := hinv.past_end rfl
    unfold FreezerTable.repairLoop at h
    rw [if_neg (Nat.ne_of_gt hpast), if_neg (Nat.not_lt_of_gt hpast)] at h
    cases h
  | succ n ih =>
    have hlast : lastIndex = lastEntry d.index := by
      rw [hinv.last_eq, hinv.buffer_eq (Nat.succ_pos n), lastEntry]
    unfold FreezerTable.repairLoop at h
    by_cases heq : lastIndex.offset.toNat = contentSize
    · -- the files agree already
      rw [if_pos heq] at h
      have hsynced : Synced d (n + 1) lastIndex :=
        ⟨hinv.length_index, Nat.succ_pos n, hlast, heq.trans hinv.size_eq⟩
      cases h
      exact ⟨⟨_, rfl⟩, (Disk.Same.refl _).cuts, hsynced, heq.symm⟩
    rw [if_neg heq] at h
    by_cases hlt : lastIndex.offset.toNat < contentSize
    · -- the head file is cut at the last entry's offset
      rw [if_pos hlt] at h
      have hcut : ((d.content lastIndex.filenum).take lastIndex.offset.toNat).length =
          lastIndex.offset.toNat := by
        rw [List.length_take, ← hinv.size_eq]
        exact Nat.min_eq_left (Nat.le_of_lt hlt)
      have hsynced : Synced (d.write lastIndex.filenum
          ((d.content lastIndex.filenum).take lastIndex.offset.toNat)) (n + 1) lastIndex :=
        ⟨hinv.length_index, Nat.succ_pos n, hlast, by rw [Disk.content_write, if_pos rfl, hcut]⟩
      cases h
      exact ⟨⟨_, rfl⟩, Disk.cuts_write (List.take_prefix _ _), hsynced, rfl⟩
    · -- the last entry is dropped, and the loop goes on with one fewer
      rw [if_neg hlt] at h
      have hpast : contentSize < lastIndex.offset.toNat := by omega
      obtain ⟨fs, d₁, hhead, hd₁⟩ := repairHead_eq_ok t
        { d with index := d.index.take (indexEntrySize * n) } lastIndex
        (IndexEntry.unmarshalBinary (readAt (d.index.take (indexEntrySize * n)) buffer
          (((indexEntrySize * n : ℕ) : ℤ) - indexEntrySize)).1) hinv.size_eq
      dsimp only at h
      rw [hhead] at h
      obtain ⟨⟨fs', rfl⟩, hcuts, hsynced, hsize⟩ := ih (hinv.drop hpast hd₁) h
      exact ⟨⟨fs', rfl⟩, (Disk.cuts_take_index d _).trans (hd₁.cuts.trans hcuts), hsynced, hsize⟩

/-! ### `repair` -/

/-- `repair` on an index of whole entries, at least one: the files end `Synced`, the table's
start is the first entry, its head the last, and its item count the number of entries after
the first, counted from the start. -/
theorem repair_whole {t t' : FreezerTable} {d d' : Disk}
    (hmod : d.index.length % indexEntrySize = 0) (hle : indexEntrySize ≤ d.index.length)
    (h : t.repair d = .ok (t', d')) :
    Synced d' (d'.index.length / indexEntrySize) ⟨t'.headId, t'.headBytes⟩ ∧
      IndexEntry.unmarshalBinary (d'.index.take indexEntrySize) = ⟨t'.tailId, t'.itemOffset⟩ ∧
      t'.items = t'.itemOffset.toUInt64 + UInt64.ofNat (d'.index.length / indexEntrySize - 1) ∧
      d.Cuts d' := by
  have hne : d.index.length ≠ 0 := by
    unfold indexEntrySize at hle
    omega
  have hoff : ((d.index.length : ℤ) - indexEntrySize) =
      ((d.index.length - indexEntrySize : ℕ) : ℤ) := by omega
  -- the first read fills the buffer with the first entry, the second with the last
  have hfirst : readAt d.index (List.replicate indexEntrySize 0) 0 =
      (d.index.take indexEntrySize, none) := by
    have := @readAt_of_le d.index (List.replicate indexEntrySize 0) 0 (by simpa using hle)
    simpa using this
  have hlast : readAt d.index (d.index.take indexEntrySize)
      ((d.index.length : ℤ) - indexEntrySize) =
      (d.index.drop (d.index.length - indexEntrySize), none) := by
    have hfit : d.index.length - indexEntrySize + (d.index.take indexEntrySize).length ≤
        d.index.length := by
      rw [List.length_take]
      omega
    rw [hoff, readAt_of_le hfit, List.length_take, Nat.min_eq_left hle,
      List.take_of_length_le (by rw [List.length_drop]; omega)]
  unfold repair at h
  simp only [hne, hmod, if_false, ne_eq, not_true_eq_false, hfirst, hlast] at h
  obtain ⟨⟨t₁, d₁⟩, h₁, h⟩ := Except.bind_eq_ok.mp h
  obtain ⟨⟨t₂, d₂, last, size, entries⟩, h₂, h⟩ := Except.bind_eq_ok.mp h
  obtain ⟨⟨fs₁, rfl⟩, hd₁⟩ := openFile_eq_ok h₁ (by decide)
  have hpos : 0 < d.index.length / indexEntrySize := Nat.div_pos hle (by decide)
  have hinv : LoopInv d₁ (d.index.drop (d.index.length - indexEntrySize))
      (IndexEntry.unmarshalBinary (d.index.drop (d.index.length - indexEntrySize)))
      (d₁.content (IndexEntry.unmarshalBinary
        (d.index.drop (d.index.length - indexEntrySize))).filenum).length
      (d.index.length / indexEntrySize) := by
    refine ⟨?_, ?_, fun _ => by rw [hd₁.index], rfl, rfl, fun h0 => absurd h0 (Nat.ne_of_gt hpos)⟩
    · rw [hd₁.index]
      exact (Nat.mul_div_cancel' (Nat.dvd_of_mod_eq_zero hmod)).symm
    · rw [List.length_drop]
      omega
  obtain ⟨⟨fs₂, rfl⟩, hcuts, hsynced, hsize⟩ := hinv.repairLoop h₂
  obtain ⟨⟨fs, rfl⟩, hd⟩ := preopen_eq_ok h
  have hentries : d'.index.length / indexEntrySize = entries := by
    rw [hd.index, hsynced.length_index]
    exact Nat.mul_div_cancel_left _ (by decide)
  have hcuts' : d.Cuts d' := hd₁.cuts.trans (hcuts.trans hd.cuts)
  refine ⟨?_, ?_, ?_, hcuts'⟩
  · -- the head is the last entry, its size the entry's offset
    rw [hentries]
    have hl : (⟨last.filenum, UInt32.ofNat size⟩ : IndexEntry) = last := by
      rw [hsize, UInt32.ofNat_toNat]
    exact hl ▸ hsynced.of_same hd
  · -- the first entry survives every cut
    have hfirst' : d'.index.take indexEntrySize = d.index.take indexEntrySize := by
      have hlen : indexEntrySize ≤ d'.index.length := by
        rw [hd.index, hsynced.length_index]
        exact Nat.le_mul_of_pos_right _ hsynced.pos
      rw [List.prefix_iff_eq_take.mp hcuts'.index, List.take_take, Nat.min_eq_left hlen]
    rw [hfirst']
  · rw [hentries]
    obtain ⟨m, rfl⟩ := Nat.exists_eq_add_of_lt hsynced.pos
    simp [UInt64.ofNat_add]

/-- A crash leaves `repair` an index of any length and data files of any length. If the index
holds no byte or at least one whole entry, a successful `repair` leaves files that agree:
a positive number of whole entries, the last of which names the head and ends at the end of
the head file, with the table's start read from the first entry and `items` counted from it.
Every file keeps a prefix of its bytes, the index too unless it was empty. -/
theorem repair_consistent (t : FreezerTable) (d : Disk) {t' : FreezerTable} {d' : Disk}
    (hsize : d.index.length = 0 ∨ indexEntrySize ≤ d.index.length)
    (h : t.repair d = .ok (t', d')) :
    Synced d' (d'.index.length / indexEntrySize) ⟨t'.headId, t'.headBytes⟩ ∧
      IndexEntry.unmarshalBinary (d'.index.take indexEntrySize) = ⟨t'.tailId, t'.itemOffset⟩ ∧
      t'.items = t'.itemOffset.toUInt64 + UInt64.ofNat (d'.index.length / indexEntrySize - 1) ∧
      (d.index ≠ [] → d'.index <+: d.index) ∧ ∀ f, d'.content f <+: d.content f := by
  -- `repair` first makes the index whole entries, then runs as on an index that already is
  rcases hsize with h0 | hle
  · have hnil : d.index = [] := List.eq_nil_of_length_eq_zero h0
    have hd₀ : t.repair d = t.repair { d with index := List.replicate indexEntrySize 0 } := by
      simp [repair, hnil, indexEntrySize]
    obtain ⟨hs, hf, hi, hc⟩ := repair_whole (by simp [indexEntrySize]) (by simp)
      (hd₀ ▸ h)
    exact ⟨hs, hf, hi, fun hne => absurd hnil hne, hc.content⟩
  · by_cases hmod : d.index.length % indexEntrySize = 0
    · obtain ⟨hs, hf, hi, hc⟩ := repair_whole hmod hle h
      exact ⟨hs, hf, hi, fun _ => hc.index, hc.content⟩
    · -- the bytes of an entry cut short are dropped first
      have hlen : (d.index.take (d.index.length - d.index.length % indexEntrySize)).length =
          d.index.length - d.index.length % indexEntrySize := by
        rw [List.length_take]
        omega
      have hmod' : (d.index.length - d.index.length % indexEntrySize) % indexEntrySize = 0 :=
        Nat.sub_mod_eq_zero_of_mod_eq (Nat.mod_mod _ _).symm
      have hle' : indexEntrySize ≤ d.index.length - d.index.length % indexEntrySize := by
        have := Nat.mod_lt d.index.length (show 0 < indexEntrySize by decide)
        unfold indexEntrySize at *
        omega
      have hne : d.index.length ≠ 0 := by
        unfold indexEntrySize at hle
        omega
      have hd₀ : t.repair d = t.repair
          { d with index := d.index.take (d.index.length - d.index.length % indexEntrySize) } := by
        simp only [repair, hne, hmod, hlen, hmod', if_false, ne_eq, not_false_eq_true,
          not_true_eq_false, if_true,
          Nat.ne_of_gt (Nat.lt_of_lt_of_le (show 0 < indexEntrySize by decide) hle'),
          Nat.sub_zero]
      obtain ⟨hs, hf, hi, hc⟩ := repair_whole (by rw [hlen]; exact hmod')
        (by rw [hlen]; exact hle') (hd₀ ▸ h)
      have hc' := (Disk.cuts_take_index d _).trans hc
      exact ⟨hs, hf, hi, fun _ => hc'.index, hc'.content⟩

/-- An index cut inside its first entry, as a crash during the first write of a new index
leaves it, is cut to nothing. Both reads of it then leave the zero buffer, so the last entry
names data file `0` at offset `0`, the loop empties that file, and `repair` succeeds with an
index of no entry and `items` computed as `0 + uint64(0 / 6 - 1)`, that is `2 ^ 64 - 1`. -/
theorem repair_short_index (t : FreezerTable) (d : Disk) (hpos : 0 < d.index.length)
    (hshort : d.index.length < indexEntrySize) :
    ∃ t' d', t.repair d = .ok (t', d') ∧ d'.index = [] ∧ d'.content 0 = [] ∧ t'.headId = 0 ∧
      t'.items = 0xFFFFFFFFFFFFFFFF := by
  have hne : d.index.length ≠ 0 := Nat.ne_of_gt hpos
  have hmod : d.index.length % indexEntrySize = d.index.length := Nat.mod_eq_of_lt hshort
  have hzero : IndexEntry.unmarshalBinary (List.replicate indexEntrySize 0) = ⟨0, 0⟩ := by decide
  -- both reads find nothing and leave the zero buffer
  have hread₀ : readAt [] (List.replicate indexEntrySize 0) 0 =
      (List.replicate indexEntrySize 0, some .eof) := by decide
  have hread₁ : readAt [] (List.replicate indexEntrySize 0) (0 - (indexEntrySize : ℤ)) =
      (List.replicate indexEntrySize 0, some .negativeOffset) := by decide
  obtain ⟨⟨t₁, d₁⟩, h₁⟩ := openFile_forAppend { t with tailId := 0, itemOffset := 0 }
    { d with index := [] } 0
  obtain ⟨⟨fs₁, ht₁⟩, hd₁⟩ := openFile_eq_ok h₁ (by decide)
  -- the loop finds the head empty or empties it
  obtain ⟨d₂, hloop, hidx₂, hcont₂⟩ : ∃ d₂, t₁.repairLoop d₁ (List.replicate indexEntrySize 0)
      ⟨0, 0⟩ (d₁.content 0).length 0 = .ok (t₁, d₂, ⟨0, 0⟩, 0, 0) ∧ d₂.index = [] ∧
      d₂.content 0 = [] := by
    unfold FreezerTable.repairLoop
    by_cases hc : (d₁.content 0).length = 0
    · refine ⟨d₁, ?_, hd₁.index, List.eq_nil_of_length_eq_zero hc⟩
      rw [if_pos (by simpa using hc.symm), hc]
    · refine ⟨d₁.write 0 ((d₁.content 0).take 0), ?_, hd₁.index, ?_⟩
      · rw [if_neg (by simpa using Ne.symm hc), if_pos (by simpa using Nat.pos_of_ne_zero hc)]
        rfl
      · rw [Disk.content_write, if_pos rfl, List.take_zero]
  unfold repair
  simp only [hne, if_false, hmod, ne_eq, not_false_eq_true, if_true, Nat.sub_self,
    List.take_zero, List.length_nil, Nat.cast_zero, Nat.zero_div]
  rw [hread₀]
  dsimp only
  rw [hread₁]
  dsimp only
  rw [hzero]
  dsimp only
  rw [h₁, Except.ok_bind]
  dsimp only
  rw [hloop, Except.ok_bind]
  dsimp only
  refine preopen_zero (by rw [ht₁]) (by rfl) fun fs d' hd => ⟨?_, ?_, rfl, ?_⟩
  · rw [hd.index, hidx₂]
  · rw [hd.content, hcont₂]
  · have hoff : t₁.itemOffset = 0 := by rw [ht₁]
    show t₁.itemOffset.toUInt64 + (UInt64.ofNat 0 - 1) = _
    rw [hoff]
    decide

/-- A three-byte index, as a crash in the first write of a new table leaves it. -/
theorem repair_short_index_threeBytes :
    (0 < ([0, 0, 0] : Bytes).length ∧ ([0, 0, 0] : Bytes).length < indexEntrySize) ∧
      ∃ t' d', (newCustomTable ⟨[0, 0, 0], fun _ => none⟩ 2000000000 false) = .ok (t', d') ∧
        d'.index = [] ∧ d'.content 0 = [] ∧ t'.headId = 0 ∧ t'.items = 0xFFFFFFFFFFFFFFFF :=
  ⟨⟨by decide, by decide⟩, repair_short_index _ ⟨[0, 0, 0], fun _ => none⟩ (by decide) (by decide)⟩

end FreezerTable

end Classzz.Rawdb
