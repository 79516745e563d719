import Classzz.Common.Types

/-!
# Freezer tables

`core/rawdb/freezer_table.go`. A freezer table stores blobs numbered from zero, each
appended after the last, in a chain of numbered data files and one index file. The index
holds one six-byte `indexEntry` per item, the number of the data file the item ends in and
the offset of its end there, after a first entry whose file number and offset say where the
table starts. An item that does not fit in the head file starts the next one.

The file system is the bytes of the index file and of each data file (`Disk`); a file
handle is the name of the file it reads and writes, and the table's map of open files is the
list of their numbers. The head handle is always the data file `headId`, and writes to it
and to the index go to the end of the file, where every open and truncation leaves the
position. Go's `int` is a natural number here; `uint32` and `uint64` are `UInt32` and
`UInt64`, so that every wrap of the source is kept.

A call that returns an error is written in `Except`; the table after it is not modelled.
-/

namespace Classzz.Rawdb

/-- The errors of the table's calls. -/
inductive FreezerError where
  /-- `errClosed`. -/
  | closed
  /-- `errOutOfBounds`. -/
  | outOfBounds
  /-- `appending unexpected item: want %d, have %d`. -/
  | unexpectedItem (want given : UInt64)
  /-- `missing data file %d`. -/
  | missingDataFile (fileId : UInt32)
  /-- `io.EOF`: a read found fewer bytes than it asked for. -/
  | eof
  /-- A read at a negative offset. -/
  | negativeOffset
  /-- `os.ErrInvalid`: a truncation to a negative size, or a call on a closed file. -/
  | invalid
  /-- A data file opened for reading that does not exist. -/
  | notExist
  /-- An error of `snappy.Decode`. -/
  | corrupt
  deriving DecidableEq, Repr

/-! ### Index entries -/

/-- `indexEntry`: the number of the data file an item ends in, and the offset of its end. -/
structure IndexEntry where
  filenum : UInt32
  offset : UInt32
  deriving DecidableEq, Repr

/-- `indexEntrySize`. -/
def indexEntrySize : ℕ := 6

/-- `indexEntry.unmarshalBinary`: a big-endian two-byte file number, then a four-byte
offset. -/
def IndexEntry.unmarshalBinary (b : Bytes) : IndexEntry where
  filenum := UInt32.ofNat (bytesToNat (b.take 2))
  offset := UInt32.ofNat (bytesToNat ((b.drop 2).take 4))

/-- `indexEntry.marshallBinary`: the file number is written as a `uint16`, so only its low
two bytes are kept. -/
def IndexEntry.marshallBinary (i : IndexEntry) : Bytes :=
  toBytesBE 2 i.filenum.toNat ++ toBytesBE 4 i.offset.toNat

/-- `indexEntry.bounds`: where the item between two consecutive entries lies, as its start,
its end and its data file. An item that crosses to a new data file lies at the start of it. -/
def IndexEntry.bounds (start stop : IndexEntry) : UInt32 × UInt32 × UInt32 :=
  if start.filenum ≠ stop.filenum then (0, stop.offset, stop.filenum)
  else (start.offset, stop.offset, stop.filenum)

/-! ### Files -/

/-- The table's files on disk: the index file, and each data file that exists. -/
structure Disk where
  index : Bytes
  data : UInt32 → Option Bytes

/-- A directory with no file in it. -/
def Disk.empty : Disk := ⟨[], fun _ => none⟩

/-- Replaces the bytes of a data file, creating it if needed. -/
def Disk.write (d : Disk) (num : UInt32) (bytes : Bytes) : Disk :=
  { d with data := Function.update d.data num (some bytes) }

/-- The bytes of a data file, none if it does not exist. -/
def Disk.content (d : Disk) (num : UInt32) : Bytes :=
  (d.data num).getD []

/-- `os.File.ReadAt` of `buffer.length` bytes at `off`: what is found fills the buffer from
its start, and fewer bytes than asked for is `io.EOF`. -/
def readAt (file buffer : Bytes) (off : ℤ) : Bytes × Option FreezerError :=
  if off < 0 then (buffer, some .negativeOffset)
  else
    let got := (file.drop off.toNat).take buffer.length
    (got ++ buffer.drop got.length, if got.length < buffer.length then some .eof else none)

/-- `os.File.Truncate`, as `truncateFreezerFile` calls it: cut the file to `size` bytes, or
extend it with zeros. -/
def truncateFile (file : Bytes) (size : ℤ) : Except FreezerError Bytes :=
  if size < 0 then .error .invalid
  else .ok (file.take size.toNat ++ List.replicate (size.toNat - file.length) 0)

/-- The three ways the table opens a data file. -/
inductive Opener where
  /-- `openFreezerFileForAppend`: create it if it does not exist. -/
  | forAppend
  /-- `openFreezerFileForReadOnly`: fail if it does not exist. -/
  | readOnly
  /-- `openFreezerFileTruncated`: create it, or empty it. -/
  | truncated
  deriving DecidableEq, Repr

/-! ### The table -/

/-- `freezerTable`, without its name, path, meters and lock. `closed` stands for a nil
index or head handle, as `Close` leaves them. -/
structure FreezerTable where
  items : UInt64
  noCompression : Bool
  maxFileSize : UInt32
  files : List UInt32
  headId : UInt32
  tailId : UInt32
  closed : Bool
  itemOffset : UInt32
  headBytes : UInt32

namespace FreezerTable

/-- `openFile`: a file already open is used as it is; another is opened with `opener` and
added to the open files. -/
def openFile (t : FreezerTable) (d : Disk) (num : UInt32) (opener : Opener) :
    Except FreezerError (FreezerTable × Disk) :=
  if num ∈ t.files then .ok (t, d)
  else
    let t' := { t with files := num :: t.files }
    match opener with
    | .forAppend => .ok (t', d.write num (d.content num))
    | .readOnly => if (d.data num).isSome then .ok (t', d) else .error .notExist
    | .truncated => .ok (t', d.write num [])

/-- `releaseFile`: close a data file. -/
def releaseFile (t : FreezerTable) (num : UInt32) : FreezerTable :=
  { t with files := t.files.filter (· ≠ num) }

/-- `releaseFilesAfter`: close every open data file numbered above `num`, and delete those
too if `remove`. -/
def releaseFilesAfter (t : FreezerTable) (d : Disk) (num : UInt32) (remove : Bool) :
    FreezerTable × Disk :=
  ({ t with files := t.files.filter (· ≤ num) },
    if remove then { d with data := fun f => if f ∈ t.files ∧ num < f then none else d.data f }
    else d)

/-! ### Opening: `repair` and `preopen` -/

/-- `preopen`: close the data files above zero, then open every file from `tailId` to the
head for reading and the head for appending. -/
def preopen (t : FreezerTable) (d : Disk) : Except FreezerError (FreezerTable × Disk) := do
  let (t, d) := t.releaseFilesAfter d 0 false
  let (t, d) ← (List.range' t.tailId.toNat (t.headId.toNat - t.tailId.toNat)).foldlM
    (fun (td : FreezerTable × Disk) i => td.1.openFile td.2 (UInt32.ofNat i) .readOnly) (t, d)
  t.openFile d t.headId .forAppend

/-- The turn of `repair`'s loop that has dropped the index's last entry: if the entry now
last names another data file, that file becomes the head, and the head file's size is its
size. -/
def repairHead (t : FreezerTable) (d : Disk) (lastIndex newLastIndex : IndexEntry)
    (contentSize : ℕ) : Except FreezerError (FreezerTable × Disk × ℕ) :=
  if newLastIndex.filenum ≠ lastIndex.filenum then do
    let (t, d) ← (t.releaseFile lastIndex.filenum).openFile d newLastIndex.filenum .forAppend
    pure (t, d, (d.content newLastIndex.filenum).length)
  else pure (t, d, contentSize)

/-- The loop of `repair` that cuts the head file and the index until the last entry points at
the end of the head file. `entries` is the number of entries left in the index; a turn that
drops one recurses on one fewer, and a turn that cuts the head file ends the loop. Its
result is the table, the disk, the last entry, the head file's size and `entries`. -/
def repairLoop (t : FreezerTable) (d : Disk) (buffer : Bytes) (lastIndex : IndexEntry)
    (contentSize : ℕ) (entries : ℕ) :
    Except FreezerError (FreezerTable × Disk × IndexEntry × ℕ × ℕ) :=
  let contentExp := lastIndex.offset.toNat
  if contentExp = contentSize then .ok (t, d, lastIndex, contentSize, entries)
  else if contentExp < contentSize then
    -- truncate the head file to the last offset pointer
    let head := d.content lastIndex.filenum
    .ok (t, d.write lastIndex.filenum (head.take contentExp), lastIndex, contentExp, entries)
  else
    -- truncate the index to point within the head file
    match entries with
    | 0 => .error .invalid
    | entries + 1 =>
      let d := { d with index := d.index.take (indexEntrySize * entries) }
      let buffer :=
        (readAt d.index buffer (((indexEntrySize * entries : ℕ) : ℤ) - indexEntrySize)).1
      let newLastIndex := IndexEntry.unmarshalBinary buffer
      (t.repairHead d lastIndex newLastIndex contentSize).bind fun r =>
        repairLoop r.1 r.2.1 buffer newLastIndex r.2.2 entries

/-- `repair`: make the index a whole number of entries (writing the zero entry into a new
one), read the table's start from the first entry and its head from the last, cut the two
files until they agree, then set the counters and `preopen`. -/
def repair (t : FreezerTable) (d : Disk) : Except FreezerError (FreezerTable × Disk) := do
  let buffer := List.replicate indexEntrySize (0 : UInt8)
  let size := d.index.length
  let d := if size = 0 then { d with index := d.index ++ buffer } else d
  let d := if size % indexEntrySize ≠ 0 then
      { d with index := d.index.take (size - size % indexEntrySize) }
    else d
  let offsetsSize := d.index.length
  let (buffer, _) := readAt d.index buffer 0
  let firstIndex := IndexEntry.unmarshalBinary buffer
  let t := { t with tailId := firstIndex.filenum, itemOffset := firstIndex.offset }
  let (buffer, _) := readAt d.index buffer ((offsetsSize : ℤ) - indexEntrySize)
  let lastIndex := IndexEntry.unmarshalBinary buffer
  let (t, d) ← t.openFile d lastIndex.filenum .forAppend
  let contentSize := (d.content lastIndex.filenum).length
  let (t, d, lastIndex, contentSize, entries) ←
    t.repairLoop d buffer lastIndex contentSize (offsetsSize / indexEntrySize)
  let t := { t with
    items := t.itemOffset.toUInt64 + (UInt64.ofNat entries - 1)
    headBytes := UInt32.ofNat contentSize
    headId := lastIndex.filenum }
  t.preopen d

end FreezerTable

/-- `newCustomTable`: open the index file (creating it), then `repair`. -/
def newCustomTable (d : Disk) (maxFilesize : UInt32) (noCompression : Bool) :
    Except FreezerError (FreezerTable × Disk) :=
  FreezerTable.repair
    { items := 0, noCompression, maxFileSize := maxFilesize, files := [], headId := 0,
      tailId := 0, closed := false, itemOffset := 0, headBytes := 0 } d

namespace FreezerTable

/-- `Close`: drop the index and head handles and close every data file. -/
def Close (t : FreezerTable) : FreezerTable :=
  { t with closed := true, files := [] }

/-! ### Writing: `Append` and `truncate` -/

/-- The branch of `append` that opens the next data file (emptied) as the head, and reopens
the old head for reading; the error of that reopening is dropped, as the source drops it. -/
def nextHead (t : FreezerTable) (d : Disk) : Except FreezerError (FreezerTable × Disk) := do
  let nextID := t.headId + 1
  let (t, d) ← t.openFile d nextID .truncated
  let t := t.releaseFile t.headId
  let (t, d) := (t.openFile d t.headId .readOnly).toOption.getD (t, d)
  pure ({ t with headBytes := 0, headId := nextID }, d)

/-- `append`: write the encoded blob to the end of the head and its entry to the end of the
index. A blob that does not fit in the head file needs the write lock to open the next one:
without it the call asks to be retried, returning `true`. -/
def append (t : FreezerTable) (d : Disk) (item : UInt64) (encodedBlob : Bytes) (wlock : Bool) :
    Except FreezerError (Bool × FreezerTable × Disk) := do
  if t.closed then throw .closed
  if t.items ≠ item then throw (.unexpectedItem t.items item)
  let bLen := UInt32.ofNat encodedBlob.length
  let rollover := decide (t.headBytes + bLen < bLen) || decide (t.maxFileSize < t.headBytes + bLen)
  if rollover && !wlock then return (true, t, d)
  let (t, d) ← if rollover then t.nextHead d else pure (t, d)
  let d := d.write t.headId (d.content t.headId ++ encodedBlob)
  let newOffset := t.headBytes + bLen
  let d := { d with index := d.index ++ IndexEntry.marshallBinary ⟨t.headId, newOffset⟩ }
  pure (false, { t with headBytes := newOffset, items := t.items + 1 }, d)

/-- The two calls into `github.com/golang/snappy` the table makes. -/
structure Snappy where
  encode : Bytes → Bytes
  decode : Bytes → Option Bytes
  decodedLen : Bytes → Option ℕ

/-- `Append`: compress the blob unless the table is raw, then `append`, once more with the
write lock if the first call asks for it. -/
def Append (snappy : Snappy) (t : FreezerTable) (d : Disk) (item : UInt64) (blob : Bytes) :
    Except FreezerError (FreezerTable × Disk) := do
  let blob := if t.noCompression then blob else snappy.encode blob
  let (retry, t, d) ← t.append d item blob false
  if retry then
    let (_, t, d) ← t.append d item blob true
    pure (t, d)
  else pure (t, d)

/-- `truncate`: cut the index after entry `items`, move the head back to the file that entry
names (deleting the open files after it), and cut the head file at the entry's offset. -/
def truncate (t : FreezerTable) (d : Disk) (items : UInt64) :
    Except FreezerError (FreezerTable × Disk) := do
  if t.items ≤ items then return (t, d)
  -- `sizeNolock` reads the size of the index file, which a closed table has none of
  if t.closed then throw .invalid
  let index ← truncateFile d.index (toInt64 ((items + 1) * 6).toNat)
  let d := { d with index }
  let (buffer, err) := readAt d.index (List.replicate indexEntrySize 0) (toInt64 (items * 6).toNat)
  if let some e := err then throw e
  let expected := IndexEntry.unmarshalBinary buffer
  let (t, d) ← if expected.filenum ≠ t.headId then do
      let (t, d) ← (t.releaseFile expected.filenum).openFile d expected.filenum .forAppend
      let (t, d) := t.releaseFilesAfter d expected.filenum true
      pure ({ t with headId := expected.filenum }, d)
    else pure (t, d)
  let head ← truncateFile (d.content t.headId) expected.offset.toNat
  pure ({ t with items, headBytes := expected.offset }, d.write t.headId head)

/-! ### Reading: `getIndices`, `retrieveItems` and `RetrieveItems` -/

/-- The loop of `getIndices`: for `i` from its start while `i ≤ last`, decode the entry at the
front of what is left of the buffer. An entry cut short is a slice past the buffer's end. -/
def decodeIndices (i last : UInt64) : Bytes → Except (Fault FreezerError) (List IndexEntry)
  | b0 :: b1 :: b2 :: b3 :: b4 :: b5 :: rest =>
    if i ≤ last then
      (IndexEntry.unmarshalBinary [b0, b1, b2, b3, b4, b5] :: ·) <$> decodeIndices (i + 1) last rest
    else pure []
  | _ => if i ≤ last then throw (.panic .indexOutOfRange) else pure []

/-- `getIndices`: the `count + 1` entries around items `from'` to `from' + count - 1`. The
first entry of the index is the table's start, not an item's end: read from it, the first
item starts at offset zero of the file the second entry names. -/
def getIndices (t : FreezerTable) (d : Disk) (from' count : UInt64) :
    Except (Fault FreezerError) (List IndexEntry) := do
  let from' := from' - t.itemOffset.toUInt64
  let buffer := List.replicate ((count + 1) * 6).toNat (0 : UInt8)
  let (buffer, err) := readAt d.index buffer (toInt64 (from' * 6).toNat)
  if let some e := err then throw (.error e)
  let indices ← decodeIndices from' (from' + count) buffer
  if from' = 0 then
    match indices with
    | _ :: second :: rest => pure (⟨second.filenum, 0⟩ :: second :: rest)
    | _ => throw (.panic .indexOutOfRange)
  else pure indices

/-- The variables of `retrieveItems`'s loop: the read buffer and how much of it is used, the
sizes of the items taken and their total, and the reads put off, `unreadSize` bytes from
`readStart` in the current data file. -/
structure ReadState where
  output : Bytes
  outputSize : ℕ
  sizes : List ℕ
  totalSize : ℕ
  readStart : UInt32
  unreadSize : ℕ

/-- `readData`, the closure of `retrieveItems`: read `length` bytes at `start` of a data file
into the buffer after what it holds, growing the buffer first if it is shorter than
`length`. -/
def readData (t : FreezerTable) (d : Disk) (fileId start : UInt32) (length : ℕ)
    (s : ReadState) : Except (Fault FreezerError) ReadState := do
  let output := if s.output.length < length then List.replicate length 0 else s.output
  if fileId ∉ t.files then throw (.error (.missingDataFile fileId))
  -- `output[outputSize:outputSize+length]`
  if output.length < s.outputSize + length then throw (.panic .indexOutOfRange)
  let (got, err) := readAt (d.content fileId) ((output.drop s.outputSize).take length) start.toNat
  if let some e := err then throw (.error e)
  pure { s with
    output := output.take s.outputSize ++ got ++ output.drop (s.outputSize + length)
    outputSize := s.outputSize + length }

/-- The start of a turn of `retrieveItems`' loop: on crossing into another data file, do the
reads put off in the first one now, and read the next from the new file's start. -/
def crossFile (t : FreezerTable) (d : Disk) (firstIndex secondIndex : IndexEntry)
    (s : ReadState) : Except (Fault FreezerError) ReadState :=
  if secondIndex.filenum ≠ firstIndex.filenum then do
    let s ← if 0 < s.unreadSize then
        (fun s => { s with unreadSize := 0 }) <$>
          t.readData d firstIndex.filenum s.readStart s.unreadSize s
      else pure s
    pure { s with readStart := 0 }
  else pure s

/-- The loop of `retrieveItems` over consecutive pairs of entries: take each item while the
total stays within `maxBytes` (the first whatever its size), putting off its read until the
data file changes or the loop ends. `i` is the position of the pair's first entry. -/
def readLoop (t : FreezerTable) (d : Disk) (maxBytes : UInt64) :
    ℕ → List IndexEntry → ReadState → Except (Fault FreezerError) ReadState
  | i, firstIndex :: indices@(secondIndex :: rest), s => do
    let (offset1, offset2, _) := firstIndex.bounds secondIndex
    let size := (offset2 - offset1).toNat
    let s ← t.crossFile d firstIndex secondIndex s
    if 0 < i ∧ maxBytes.toNat < s.totalSize + size then
      -- the byte limit: this item is not taken, but the reads put off are done
      if 0 < s.unreadSize then t.readData d secondIndex.filenum s.readStart s.unreadSize s
      else pure s
    else
      let s := { s with
        unreadSize := s.unreadSize + size
        totalSize := s.totalSize + size
        sizes := s.sizes ++ [size] }
      if rest = [] ∨ maxBytes.toNat < s.totalSize then
        t.readData d secondIndex.filenum s.readStart s.unreadSize s
      else readLoop t d maxBytes (i + 1) indices s
  | _, _, s => pure s

/-- `retrieveItems`: the stored bytes of up to `count` items from `start`, at least one, and
after the first no more than `maxBytes` in all, with the size of each. A `count` that takes
the range past the last item is cut back to it. -/
def retrieveItems (t : FreezerTable) (d : Disk) (start count maxBytes : UInt64) :
    Except (Fault FreezerError) (Bytes × List ℕ) := do
  if t.closed then throw (.error .closed)
  let itemCount := t.items
  if itemCount ≤ start ∨ start < t.itemOffset.toUInt64 ∨ count = 0 then
    throw (.error .outOfBounds)
  let count := if itemCount < start + count then itemCount - start else count
  let indices ← t.getIndices d start count
  -- `readStart = indices[0].offset`
  let some first := indices.head? | throw (.panic .indexOutOfRange)
  let s ← t.readLoop d maxBytes 0 indices ⟨List.replicate maxBytes.toNat 0, 0, [], 0, first.offset, 0⟩
  pure (s.output.take s.outputSize, s.sizes)

/-- The loop of `RetrieveItems`: cut the bytes read into items by their sizes and
decompress each, stopping before one that would take the decompressed total past `maxBytes`
(the first is always kept). `first` marks the loop's first turn and `outputSize` is the total
so far. -/
def decodeItems (snappy : Snappy) (noCompression : Bool) (maxBytes : UInt64) :
    Bool → ℕ → Bytes → List ℕ → Except (Fault FreezerError) (List Bytes)
  | _, _, _, [] => pure []
  | first, outputSize, diskData, diskSize :: sizes =>
    let item := diskData.take diskSize
    let decompressedSize :=
      if noCompression then diskSize else (snappy.decodedLen item).getD 0
    if !first ∧ maxBytes.toNat < outputSize + decompressedSize then pure []
    else do
      let data ← if noCompression then pure item
        else match snappy.decode item with
          | some data => pure data
          | none => throw (.error .corrupt)
      (data :: ·) <$> decodeItems snappy noCompression maxBytes false
        (outputSize + decompressedSize) (diskData.drop diskSize) sizes

/-- `RetrieveItems`: the items from `start`, at least one and at most `count`, decompressed,
stopping before the decompressed total would pass `maxBytes`. -/
def RetrieveItems (snappy : Snappy) (t : FreezerTable) (d : Disk) (start count maxBytes : UInt64) :
    Except (Fault FreezerError) (List Bytes) := do
  let (diskData, sizes) ← t.retrieveItems d start count maxBytes
  decodeItems snappy t.noCompression maxBytes true 0 diskData sizes

/-- `Retrieve`: the one item `item`, the first of `RetrieveItems(item, 1, 0)`. -/
def Retrieve (snappy : Snappy) (t : FreezerTable) (d : Disk) (item : UInt64) :
    Except (Fault FreezerError) Bytes := do
  let items ← t.RetrieveItems snappy d item 1 0
  -- `items[0]`
  match items with
  | data :: _ => pure data
  | [] => throw (.panic .indexOutOfRange)

end FreezerTable

/-! ### Runs of calls -/

/-- The calls a caller makes on a table, one after another. -/
inductive Op where
  | append (item : UInt64) (blob : Bytes)
  | truncate (items : UInt64)
  /-- `Close`, then `newCustomTable` on the same files. -/
  | reopen

/-- One call. A call that fails leaves the table as it was, closed if it was a reopen. -/
def Op.apply (snappy : FreezerTable.Snappy) (s : FreezerTable × Disk) : Op → FreezerTable × Disk
  | .append item blob => (s.1.Append snappy s.2 item blob).toOption.getD s
  | .truncate items => (s.1.truncate s.2 items).toOption.getD s
  | .reopen =>
    (newCustomTable s.2 s.1.Close.maxFileSize s.1.Close.noCompression).toOption.getD (s.1.Close, s.2)

/-- The calls one after another. -/
def runOps (snappy : FreezerTable.Snappy) (s : FreezerTable × Disk) (ops : List Op) :
    FreezerTable × Disk :=
  ops.foldl (Op.apply snappy) s

/-- The table `newCustomTable` opens on an empty directory: no item, and the data file `0`
open as the head. -/
def fresh (maxFilesize : UInt32) (noCompression : Bool) : FreezerTable × Disk :=
  ({ items := 0, noCompression, maxFileSize := maxFilesize, files := [0], headId := 0,
      tailId := 0, closed := false, itemOffset := 0, headBytes := 0 },
    ⟨List.replicate indexEntrySize 0, Function.update (fun _ => none) 0 (some [])⟩)

theorem newCustomTable_empty (maxFilesize : UInt32) (noCompression : Bool) :
    newCustomTable Disk.empty maxFilesize noCompression = .ok (fresh maxFilesize noCompression) := by
  rfl

end Classzz.Rawdb

namespace Classzz.Rawdb.FreezerTable

/-- Asked for `2 ^ 64 - 1` items, `getIndices` reads `count + 1 = 0` entries' bytes and
decodes none, or panics when the decoding loop, which then never ends, starts at the index's
first entry. -/
theorem getIndices_maxCount (t : FreezerTable) (d : Disk) (from' : UInt64)
    (hoff : ((from' - t.itemOffset.toUInt64) * 6).toNat < 2 ^ 63) :
    t.getIndices d from' 0xFFFFFFFFFFFFFFFF =
      if from' - t.itemOffset.toUInt64 = 0 then .error (.panic .indexOutOfRange) else .ok [] := by
  have hbuf : ((0xFFFFFFFFFFFFFFFF + 1 : UInt64) * 6).toNat = 0 := by decide
  have hread : readAt d.index [] (toInt64 ((from' - t.itemOffset.toUInt64) * 6).toNat) =
      ([], none) := by
    have hpos : ¬ toInt64 ((from' - t.itemOffset.toUInt64) * 6).toNat < 0 := by
      rw [toInt64, if_pos hoff]
      omega
    rw [readAt, if_neg hpos]
    simp
  unfold getIndices
  simp only [hbuf, List.replicate_zero, hread]
  by_cases hz : from' - t.itemOffset.toUInt64 = 0
  · -- the loop starts at zero and runs to the top of `uint64`: its first entry is cut short
    simp only [hz, decodeIndices, UInt64.zero_le, if_true]
    rfl
  · -- the loop's last index wrapped below its first, so it decodes nothing
    have hlast : ¬ from' - t.itemOffset.toUInt64 ≤
        from' - t.itemOffset.toUInt64 + 0xFFFFFFFFFFFFFFFF := by
      have h0 : (from' - t.itemOffset.toUInt64).toNat ≠ 0 :=
        fun h => hz (UInt64.toNat_inj.mp (by simpa using h))
      have hlt := (from' - t.itemOffset.toUInt64).toNat_lt
      rw [UInt64.le_iff_toNat_le, UInt64.toNat_add]
      simp only [UInt64.reduceToNat]
      omega
    simp only [hz, decodeIndices, hlast, if_false]
    rfl

/-- `RetrieveItems` asked for `2 ^ 64 - 1` items from any item but the table's first panics:
`start + count` wraps, so the check that cuts `count` back to the last item passes it
through, and `getIndices` then decodes no entry for the loop to start from. -/
theorem retrieveItems_maxCount_panics (snappy : Snappy) (t : FreezerTable) (d : Disk)
    (start maxBytes : UInt64) (hopen : t.closed = false) (hstart : 0 < start)
    (hitems : start < t.items) (htail : t.itemOffset.toUInt64 ≤ start)
    (hoff : ((start - t.itemOffset.toUInt64) * 6).toNat < 2 ^ 63) :
    t.RetrieveItems snappy d start 0xFFFFFFFFFFFFFFFF maxBytes =
      .error (.panic .indexOutOfRange) := by
  have hguard : ¬ (t.items ≤ start ∨ start < t.itemOffset.toUInt64 ∨
      (0xFFFFFFFFFFFFFFFF : UInt64) = 0) := by
    simp only [not_or, UInt64.not_le, UInt64.not_lt]
    exact ⟨hitems, htail, by decide⟩
  -- `start + count` is `start - 1`, below the number of items
  have hwrap : ¬ t.items < start + 0xFFFFFFFFFFFFFFFF := by
    have h0 : start.toNat ≠ 0 := by
      have := UInt64.lt_iff_toNat_lt.mp hstart
      simp only [UInt64.toNat_zero] at this
      omega
    have hlt := UInt64.lt_iff_toNat_lt.mp hitems
    rw [UInt64.lt_iff_toNat_lt, UInt64.toNat_add]
    simp only [UInt64.reduceToNat]
    omega
  unfold RetrieveItems retrieveItems
  simp only [hopen, Bool.false_eq_true, hguard, hwrap, ↓reduceIte,
    getIndices_maxCount t d start hoff]
  by_cases hz : start - t.itemOffset.toUInt64 = 0
  · simp only [hz, ↓reduceIte]
    rfl
  · simp only [hz, ↓reduceIte]
    rfl

/-- Two items appended to a new table, and all items asked for from the second. -/
theorem retrieveItems_maxCount_panics_twoItems :
    let snappy : Snappy := ⟨id, some, fun b => some b.length⟩
    let s := runOps snappy (fresh 2000000000 false) [.append 0 [1], .append 1 [2]]
    s.1.RetrieveItems snappy s.2 1 0xFFFFFFFFFFFFFFFF 0 = .error (.panic .indexOutOfRange) :=
  retrieveItems_maxCount_panics _ _ _ 1 0 (by decide) (by decide) (by decide) (by decide)
    (by decide)

end Classzz.Rawdb.FreezerTable
