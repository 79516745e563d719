import Classzz.Lib.Rlp

/-!
# Encoding RLP: the `encbuf`

`EncodeToBytes` writes a value into an `encbuf` and then flattens it. The
buffer keeps the string data (`str`, every byte but the list headers) apart
from the list headers (`lheads`), because a list's header can only be written
once the list's size is known: `list` notes where the list starts in the
string data and how many header bytes were counted by then (`lhsize`), and
`listEnd` turns that into the list's size and counts the list's own header
bytes. `toBytes` interleaves the string data and the headers.

A decoded value is a `[]byte` or an `[]interface{}`; `writeItem` is the
writer of an `interface{}` holding one: `writeBytes` (`encodeString`) and
the slice writer (`list`, the elements, `listEnd`).

After an item is written the buffer holds its string data, its list headers
at their offsets with their sizes, and its header bytes counted
(`writeItem_eq`); flattening that gives `Rlp.encode` (`toBytesFrom_heads`),
so `EncodeToBytes` refines the encoding (`encodeToBytes_eq_encode`). Sizes
are `uint64` in the headers and `int` in the buffer; every length here is
below `2 ^ 64`, where the two agree.
-/

open Rlp

namespace Classzz.Rlp

theorem toNat_shiftRight_eight (i : UInt64) : (i >>> 8).toNat = i.toNat / 256 := by
  rw [UInt64.toNat_shiftRight, Nat.shiftRight_eq_div_pow]
  rfl

/-- `putint`: `i` in big-endian bytes with no leading zero, one byte for a
value below 256; the source writes out the eight cases. -/
def putint (i : UInt64) : List UInt8 :=
  if i < 256 then [i.toUInt8] else putint (i >>> 8) ++ [i.toUInt8]
termination_by i.toNat
decreasing_by
  rw [toNat_shiftRight_eight]
  simp only [UInt64.lt_iff_toNat_lt, not_lt, UInt64.reduceToNat] at *
  omega

/-- `intsize`: the number of bytes of `i` without leading zeros, at least
one. -/
def intsize (i : UInt64) : ℕ :=
  if i >>> 8 = 0 then 1 else 1 + intsize (i >>> 8)
termination_by i.toNat
decreasing_by
  rw [toNat_shiftRight_eight]
  rw [← UInt64.toNat_inj, toNat_shiftRight_eight] at *
  simp only [UInt64.reduceToNat] at *
  omega

theorem shiftRight_eight_eq_zero_iff {i : UInt64} : i >>> 8 = 0 ↔ i < 256 := by
  rw [← UInt64.toNat_inj, toNat_shiftRight_eight, UInt64.lt_iff_toNat_lt]
  simp only [UInt64.reduceToNat]
  omega

theorem toUInt8_eq_ofNat (i : UInt64) : i.toUInt8 = UInt8.ofNat (i.toNat % 256) := by
  rw [← UInt8.toNat_inj, UInt64.toNat_toUInt8, UInt8.toNat_ofNat', Nat.mod_mod]

theorem length_putint (i : UInt64) : (putint i).length = intsize i := by
  induction i using putint.induct with
  | case1 i hi =>
      rw [putint, if_pos hi, intsize, if_pos (shiftRight_eight_eq_zero_iff.mpr hi)]
      rfl
  | case2 i hi ih =>
      rw [putint, if_neg hi, intsize, if_neg (mt shiftRight_eight_eq_zero_iff.mp hi),
        List.length_append, ih, List.length_singleton, Nat.add_comm]

/-- Written bytes of a size are its big-endian bytes. -/
theorem putint_eq (i : UInt64) (hi : i ≠ 0) : putint i = natBytes i.toNat := by
  have hpos : 0 < i.toNat := by
    rw [Nat.pos_iff_ne_zero, ne_eq, ← UInt64.toNat_zero, UInt64.toNat_inj]
    exact hi
  induction i using putint.induct with
  | case1 i hlt =>
      have hlt' : i.toNat < 256 := by simpa [UInt64.lt_iff_toNat_lt] using hlt
      rw [putint, if_pos hlt, natBytes_of_pos hpos, Nat.div_eq_of_lt hlt', toUInt8_eq_ofNat]
      rfl
  | case2 i hge ih =>
      have hge' : 256 ≤ i.toNat := by simpa [UInt64.lt_iff_toNat_lt] using hge
      have hne : i >>> 8 ≠ 0 := mt shiftRight_eight_eq_zero_iff.mp hge
      have hpos' : 0 < (i >>> 8).toNat := by rw [toNat_shiftRight_eight]; omega
      rw [putint, if_neg hge, natBytes_of_pos hpos, ih hne hpos', toNat_shiftRight_eight,
        toUInt8_eq_ofNat]

/-- `puthead`: the header of `size` bytes, `smalltag` plus the size below
56, and otherwise `largetag` plus the number of the size's bytes, then
those. -/
def puthead (smalltag largetag : UInt8) (size : UInt64) : List UInt8 :=
  if size < 56 then [smalltag + size.toUInt8]
  else
    let sizesize := putint size
    (largetag + UInt8.ofNat sizesize.length) :: sizesize

/-- `listhead`: where a list's header goes in the string data, and the
list's size (while the list is open, the header bytes before it). -/
structure Listhead where
  offset : ℕ
  size : ℕ

/-- `listhead.encode`. -/
def Listhead.encode (head : Listhead) : List UInt8 :=
  puthead 0xC0 0xF7 (UInt64.ofNat head.size)

/-- `encbuf`: the string data, the list headers, and the number of header
bytes of the lists already closed. -/
structure Encbuf where
  str : List UInt8
  lheads : List Listhead
  lhsize : ℕ

namespace Encbuf

variable (w : Encbuf)

/-- `reset`: the empty buffer. -/
def reset : Encbuf := ⟨[], [], 0⟩

/-- `size`: the length of the encoding once every list is closed. -/
def size : ℕ := w.str.length + w.lhsize

/-- `encodeStringHeader`. -/
def encodeStringHeader (size : ℕ) : Encbuf :=
  if size < 56 then { w with str := w.str ++ [0x80 + UInt8.ofNat size] }
  else
    let sizesize := putint (UInt64.ofNat size)
    { w with str := w.str ++ (0xB7 + UInt8.ofNat sizesize.length) :: sizesize }

/-- `encodeString`: a single byte up to `0x7F` as it is, otherwise after
its header. -/
def encodeString (b : List UInt8) : Encbuf :=
  if b.length = 1 ∧ b.headD 0 ≤ 0x7F then { w with str := w.str ++ [b.headD 0] }
  else
    let w := w.encodeStringHeader b.length
    { w with str := w.str ++ b }

/-- `list`: a new list header at the end of the string data, and its
index. -/
def list : Encbuf × ℕ :=
  ({ w with lheads := w.lheads ++ [⟨w.str.length, w.lhsize⟩] }, w.lheads.length)

/-- `listEnd`: the list's size is everything written since it was opened,
and its header's bytes are counted. -/
def listEnd (index : ℕ) : Encbuf :=
  match w.lheads[index]? with
  | some lh =>
      let size := w.size - lh.offset - lh.size
      { w with
        lheads := w.lheads.set index { lh with size }
        lhsize := if size < 56 then w.lhsize + 1 else w.lhsize + 1 + intsize (UInt64.ofNat size) }
  | none => w

/-- The bytes `toBytes` copies out from `strpos` on: the string data up to
each header's offset, then the header. -/
def toBytesFrom (str : List UInt8) : ℕ → List Listhead → List UInt8
  | strpos, [] => str.drop strpos
  | strpos, head :: heads =>
      let n := head.offset - strpos
      (str.drop strpos).take n ++ head.encode ++ toBytesFrom str (strpos + n) heads

/-- `toBytes`: into `size` bytes; where the copies fall short of them the
rest stays zero. -/
def toBytes : List UInt8 :=
  let out := toBytesFrom w.str 0 w.lheads
  out.take w.size ++ List.replicate (w.size - out.length) 0

end Encbuf

mutual
/-- The writer of an `interface{}` holding a decoded value: `writeBytes`
for a `[]byte`, and for an `[]interface{}` the slice writer, which opens a
list, writes the elements and closes it. -/
def writeItem : Item → Encbuf → Encbuf
  | .bytes b, w => w.encodeString b
  | .list items, w =>
      let (w, index) := w.list
      (writeItems items w).listEnd index

/-- The slice writer's elements, in order. -/
def writeItems : List Item → Encbuf → Encbuf
  | [], w => w
  | item :: items, w => writeItems items (writeItem item w)
end

/-- `EncodeToBytes` of an `interface{}` holding a decoded value. -/
def encodeToBytes (v : Item) : List UInt8 :=
  (writeItem v Encbuf.reset).toBytes

section Headers

theorem add_ofNat (base : UInt8) (m : ℕ) : base + UInt8.ofNat m = UInt8.ofNat (base.toNat + m) := by
  rw [← UInt8.toNat_inj, UInt8.toNat_add, UInt8.toNat_ofNat', UInt8.toNat_ofNat']
  omega

theorem toUInt8_ofNat {n : ℕ} (hn : n < 2 ^ 64) : (UInt64.ofNat n).toUInt8 = UInt8.ofNat n := by
  rw [toUInt8_eq_ofNat, UInt64.toNat_ofNat', Nat.mod_eq_of_lt hn, ← UInt8.toNat_inj,
    UInt8.toNat_ofNat', UInt8.toNat_ofNat', Nat.mod_mod]

theorem putint_ofNat {n : ℕ} (hn : n < 2 ^ 64) (h0 : n ≠ 0) : putint (UInt64.ofNat n) = natBytes n := by
  have hne : UInt64.ofNat n ≠ 0 := fun h => h0 (by
    rw [← UInt64.toNat_ofNat_of_lt' hn, h]
    rfl)
  rw [putint_eq _ hne, UInt64.toNat_ofNat_of_lt' hn]

/-- `puthead` writes the header of the encoding. -/
theorem puthead_eq {offset : ℕ} {smalltag largetag : UInt8} (hsmall : smalltag.toNat = offset)
    (hlarge : largetag.toNat = offset + 55) {n : ℕ} (hn : n < 2 ^ 64) :
    puthead smalltag largetag (UInt64.ofNat n) = header offset n := by
  by_cases hshort : n < 56
  · rw [puthead, if_pos ((ofNat_lt_56_iff hn).mpr hshort), header, if_pos hshort, toUInt8_ofNat hn,
      add_ofNat, hsmall]
  · rw [puthead, if_neg (mt (ofNat_lt_56_iff hn).mp hshort), header, if_neg hshort,
      putint_ofNat hn (by omega)]
    dsimp only
    rw [add_ofNat, hlarge]

theorem Listhead.encode_eq {head : Listhead} (h : head.size < 2 ^ 64) :
    head.encode = header 192 head.size :=
  puthead_eq rfl rfl h

theorem Encbuf.encodeStringHeader_eq (w : Encbuf) {n : ℕ} (hn : n < 2 ^ 64) :
    w.encodeStringHeader n = { w with str := w.str ++ header 128 n } := by
  by_cases hshort : n < 56
  · rw [Encbuf.encodeStringHeader, if_pos hshort, header, if_pos hshort, add_ofNat]
    rfl
  · rw [Encbuf.encodeStringHeader, if_neg hshort, header, if_neg hshort,
      putint_ofNat hn (by omega)]
    dsimp only
    rw [add_ofNat]
    rfl

/-- `encodeString` writes the encoding of the string. -/
theorem Encbuf.encodeString_eq (w : Encbuf) {b : List UInt8} (hb : b.length < 2 ^ 64) :
    w.encodeString b = { w with str := w.str ++ encodeBytes b } := by
  rw [Encbuf.encodeString]
  split_ifs with hsmall
  · obtain ⟨hlen, hx⟩ := hsmall
    obtain ⟨x, rfl⟩ := List.length_eq_one_iff.mp hlen
    have hx' : x.toNat < 128 := by
      simp only [List.headD_cons, UInt8.le_iff_toNat_le, UInt8.reduceToNat] at hx
      omega
    simp [encodeBytes, hx']
  · rw [w.encodeStringHeader_eq hb]
    rcases encodeBytes_cases b with ⟨x, rfl, hx, -⟩ | he
    · have hle : x ≤ 0x7F := UInt8.le_iff_toNat_le.mpr (by simp only [UInt8.reduceToNat]; omega)
      exact absurd ⟨rfl, hle⟩ hsmall
    · dsimp only
      rw [he, List.append_assoc]

end Headers

/-! ### What writing an item leaves in the buffer -/

mutual
/-- The string data of an item: its encoding without the list headers. -/
def strData : Item → List UInt8
  | .bytes b => encodeBytes b
  | .list items => strDataList items

/-- The string data of a list's items. -/
def strDataList : List Item → List UInt8
  | [] => []
  | i :: items => strData i ++ strDataList items
end

mutual
/-- The headers of the lists in an item whose string data starts at
`offset`, in the order the lists open, each with its payload's size. -/
def heads : Item → ℕ → List Listhead
  | .bytes _, _ => []
  | .list items, offset => ⟨offset, (encodeList items).length⟩ :: headsList items offset

/-- The headers of the lists in a list's items. -/
def headsList : List Item → ℕ → List Listhead
  | [], _ => []
  | i :: items, offset => heads i offset ++ headsList items (offset + (strData i).length)
end

mutual
/-- The number of header bytes of the lists in an item. -/
def headerSize : Item → ℕ
  | .bytes _ => 0
  | .list items => (header 192 (encodeList items).length).length + headerSizeList items

/-- The number of header bytes of the lists in a list's items. -/
def headerSizeList : List Item → ℕ
  | [] => 0
  | i :: items => headerSize i + headerSizeList items
end

section Layout

mutual
theorem length_encode_eq : ∀ v : Item, (encode v).length = (strData v).length + headerSize v
  | .bytes b => by simp [encode, strData, headerSize]
  | .list items => by
      rw [encode, strData, headerSize, List.length_append, length_encodeList_eq items]
      omega

theorem length_encodeList_eq : ∀ items : List Item,
    (encodeList items).length = (strDataList items).length + headerSizeList items
  | [] => rfl
  | i :: items => by
      rw [encodeList, strDataList, headerSizeList, List.length_append, List.length_append,
        length_encode_eq i, length_encodeList_eq items]
      omega
end

/-- The header bytes `listEnd` counts are those of the list's header. -/
theorem length_header_list {size : ℕ} (hsize : size < 2 ^ 64) :
    (if size < 56 then 1 else 1 + intsize (UInt64.ofNat size)) = (header 192 size).length := by
  by_cases hshort : size < 56
  · rw [if_pos hshort, header, if_pos hshort, List.length_singleton]
  · rw [if_neg hshort, header, if_neg hshort, ← length_putint, putint_ofNat hsize (by omega),
      List.length_cons, Nat.add_comm]

/-- `listEnd` of an open list: its size is what was written after its start. -/
theorem Encbuf.listEnd_eq (w : Encbuf) {pre post : List Listhead} {lh : Listhead}
    (hl : w.lheads = pre ++ lh :: post) (hsize : w.size - lh.offset - lh.size < 2 ^ 64) :
    w.listEnd pre.length =
      { w with
        lheads := pre ++ { lh with size := w.size - lh.offset - lh.size } :: post
        lhsize := w.lhsize + (header 192 (w.size - lh.offset - lh.size)).length } := by
  have hget : w.lheads[pre.length]? = some lh := by simp [hl]
  rw [Encbuf.listEnd, hget]
  dsimp only
  rw [← length_header_list hsize, hl, List.set_append_right _ _ (le_refl _), Nat.sub_self,
    List.set_cons_zero]
  split_ifs <;> simp only [Nat.add_assoc]

mutual
/-- Writing an item adds its string data and its headers, and counts its
header bytes. -/
theorem writeItem_eq : ∀ (v : Item) (w : Encbuf), v.Sized →
    writeItem v w =
      ⟨w.str ++ strData v, w.lheads ++ heads v w.str.length, w.lhsize + headerSize v⟩
  | .bytes b, w, hv => by
      rw [writeItem, w.encodeString_eq hv]
      simp [strData, heads, headerSize]
  | .list items, w, hv => by
      have hitems := writeItems_eq items
        { w with lheads := w.lheads ++ [⟨w.str.length, w.lhsize⟩] } hv.2
      simp only [writeItem, Encbuf.list]
      rw [hitems]
      -- the list's entry was added last before its items' headers
      have hl : w.lheads ++ [⟨w.str.length, w.lhsize⟩] ++ headsList items w.str.length =
          w.lheads ++ ⟨w.str.length, w.lhsize⟩ :: headsList items w.str.length := by simp
      -- and its size is what its items wrote
      have hsize : (w.str.length + (strDataList items).length + (w.lhsize + headerSizeList items)) -
          w.str.length - w.lhsize = (encodeList items).length := by
        rw [length_encodeList_eq]
        omega
      rw [Encbuf.listEnd_eq _ hl (by simpa [Encbuf.size, hsize] using hv.1)]
      simp only [Encbuf.size, List.length_append] at hsize ⊢
      rw [hsize]
      simp [strData, heads, headerSize, Nat.add_comm, Nat.add_left_comm]

theorem writeItems_eq : ∀ (items : List Item) (w : Encbuf), Item.SizedList items →
    writeItems items w = ⟨w.str ++ strDataList items, w.lheads ++ headsList items w.str.length,
      w.lhsize + headerSizeList items⟩
  | [], w, _ => by simp [writeItems, strDataList, headsList, headerSizeList]
  | i :: items, w, hv => by
      rw [writeItems, writeItem_eq i w hv.1, writeItems_eq items _ hv.2]
      simp [strDataList, headsList, headerSizeList, List.append_assoc, Nat.add_assoc]
end

/-- The copy up to the next header can be cut anywhere before it. -/
theorem toBytesFrom_split (str : List UInt8) {p k : ℕ} {hs : List Listhead}
    (hk : ∀ h ∈ hs, p + k ≤ h.offset) :
    Encbuf.toBytesFrom str p hs = (str.drop p).take k ++ Encbuf.toBytesFrom str (p + k) hs := by
  cases hs with
  | nil => simp [Encbuf.toBytesFrom]
  | cons h hs =>
      have hle := hk h (by simp)
      have hcut : h.offset - p = k + (h.offset - (p + k)) := by omega
      simp only [Encbuf.toBytesFrom]
      rw [hcut, List.take_add, List.drop_drop, show p + k + (h.offset - (p + k)) =
        p + (k + (h.offset - (p + k))) by omega]
      simp only [List.append_assoc]

mutual
theorem offset_le_heads : ∀ (v : Item) (p : ℕ), ∀ h ∈ heads v p, p ≤ h.offset
  | .bytes _, _, _, hh => by simp [heads] at hh
  | .list items, p, h, hh => by
      rcases List.mem_cons.mp hh with rfl | hh
      · exact le_refl _
      · exact offset_le_headsList items p h hh

theorem offset_le_headsList : ∀ (items : List Item) (p : ℕ), ∀ h ∈ headsList items p, p ≤ h.offset
  | [], _, _, hh => by simp [headsList] at hh
  | i :: items, p, h, hh => by
      rcases List.mem_append.mp hh with hh | hh
      · exact offset_le_heads i p h hh
      · have := offset_le_headsList items _ h hh
        omega
end

mutual
/-- Flattening the headers of an item into its string data gives its
encoding. -/
theorem toBytesFrom_heads : ∀ (v : Item) (str rest : List UInt8) (p : ℕ) (hs : List Listhead),
    v.Sized → str.drop p = strData v ++ rest →
    (∀ h ∈ hs, p + (strData v).length ≤ h.offset) →
    Encbuf.toBytesFrom str p (heads v p ++ hs) =
      encode v ++ Encbuf.toBytesFrom str (p + (strData v).length) hs
  | .bytes b, str, rest, p, hs, _, hstr, hhs => by
      rw [heads, List.nil_append, toBytesFrom_split str hhs, hstr, List.take_left' rfl]
      rfl
  | .list items, str, rest, p, hs, hv, hstr, hhs => by
      rw [heads, List.cons_append, Encbuf.toBytesFrom]
      dsimp only
      rw [Nat.sub_self, List.take_zero, List.nil_append, Nat.add_zero, Listhead.encode_eq hv.1,
        toBytesFrom_headsList items str rest p hs hv.2 hstr hhs, encode, List.append_assoc]
      rfl

theorem toBytesFrom_headsList : ∀ (items : List Item) (str rest : List UInt8) (p : ℕ)
    (hs : List Listhead), Item.SizedList items → str.drop p = strDataList items ++ rest →
    (∀ h ∈ hs, p + (strDataList items).length ≤ h.offset) →
    Encbuf.toBytesFrom str p (headsList items p ++ hs) =
      encodeList items ++ Encbuf.toBytesFrom str (p + (strDataList items).length) hs
  | [], str, rest, p, hs, _, _, _ => by simp [headsList, encodeList, strDataList]
  | i :: items, str, rest, p, hs, hv, hstr, hhs => by
      have hstr' : str.drop (p + (strData i).length) = strDataList items ++ rest := by
        rw [← List.drop_drop, hstr, strDataList, List.append_assoc, List.drop_left]
      have hhs' : ∀ h ∈ hs, p + (strData i).length + (strDataList items).length ≤ h.offset := by
        intro h hh
        have := hhs h hh
        simp only [strDataList, List.length_append] at this
        omega
      have hrest : ∀ h ∈ headsList items (p + (strData i).length) ++ hs,
          p + (strData i).length ≤ h.offset := by
        intro h hh
        rcases List.mem_append.mp hh with hh | hh
        · exact offset_le_headsList items _ h hh
        · have := hhs' h hh
          omega
      rw [headsList, List.append_assoc,
        toBytesFrom_heads i str (strDataList items ++ rest) p _ hv.1
          (by rw [hstr, strDataList, List.append_assoc]) hrest,
        toBytesFrom_headsList items str rest _ hs hv.2 hstr' hhs']
      simp [encodeList, strDataList, Nat.add_assoc]
end

end Layout

/-- `EncodeToBytes` refines the encoding: it gives `Rlp.encode` of every
item whose lengths fit in 64 bits. -/
theorem encodeToBytes_eq_encode {v : Item} (hv : v.Sized) : encodeToBytes v = encode v := by
  have hdata := toBytesFrom_heads v (strData v) [] 0 [] hv (by simp) (by simp)
  have hsize : (⟨strData v, heads v 0, headerSize v⟩ : Encbuf).size = (encode v).length := by
    rw [Encbuf.size, length_encode_eq]
  simp only [Nat.zero_add, List.append_nil] at hdata
  rw [encodeToBytes, writeItem_eq v Encbuf.reset hv]
  simp only [Encbuf.reset, List.nil_append, List.length_nil, Nat.zero_add]
  rw [Encbuf.toBytes]
  dsimp only
  rw [hdata, hsize]
  simp [Encbuf.toBytesFrom]

end Classzz.Rlp
