import Classzz.Lib.Rlp
import Classzz.Lib.Except

/-!
# Decoding RLP: the `Stream`

`rlp.Stream` reads one value at a time from a byte reader, with the sizes
left in the lists it is inside on a stack. `Kind` reads the next header
(`readKind`): a byte below `0x80` stands for itself, and any other header
gives the kind and the size of what follows, where a size of more than one
byte must not start with a zero (`readUint`) and a size in long form must
not be below 56. Every read is checked against what is left of the innermost
list and of the input (`willRead`), and at a list's end `Kind` answers
`EOL`. `Bytes` refuses a byte below `0x80` wrapped in a string header, and
`DecodeBytes` refuses trailing data.

Decoding into an `interface{}` (`decodeInterface`) gives `[]byte` for a
string and `[]interface{}` for a list: an RLP item.

Sizes, the input limit and the list sizes are `uint64`, as in the source:
`List` takes an inner list's size off the enclosing one in `uint64`, which
can wrap when a list header claims more than the enclosing list has left
after the header. The stack is kept innermost first. `Kind` caches its
answer for the next `Bytes` or `List`; here it is passed to them.

The recursion of `decodeInterface` and the element loop carry a bound
(`fuel`): every call reads a byte before it recurses, so `DecodeBytes` gives
one more than the input's length.

Each read is specified by what it leaves (`Stream.advance`: the input after
the bytes read, and their number off the input limit and off the innermost
list) and by the room it needs (`Stream.Room`). A header is read back as the
`Rlp.header` it is (`readKind_sound`), and every such header is read
(`readKind_header`).
-/

open Rlp

namespace Classzz.Rlp

/-- `Kind`. -/
inductive Kind where
  | byte
  | string
  | list
  deriving DecidableEq, Repr

/-- The errors of the decoder; `depthExceeded` is the model's bound. -/
inductive DecodeError where
  | eof
  | unexpectedEOF
  | eol
  | expectedString
  | expectedList
  | canonSize
  | elemTooLarge
  | valueTooLarge
  | moreThanOneValue
  | notAtEOL
  | notInList
  | depthExceeded
  deriving DecidableEq, Repr

/-- `Stream` over a byte slice, limited to its length as `DecodeBytes` sets
it up. -/
structure Stream where
  input : List UInt8
  remaining : UInt64
  stack : List UInt64

namespace Stream

variable (s : Stream)

/-- `listLimit`: what is left of the innermost list, if there is one. -/
def listLimit : Option UInt64 :=
  s.stack.head?

/-- `willRead`: `n` more bytes must fit in the innermost list and in the
input, and come off both. -/
def willRead (n : UInt64) : Except DecodeError Stream :=
  match s.stack with
  | limit :: outer =>
      if n > limit then throw .elemTooLarge
      else if n > s.remaining then throw .valueTooLarge
      else pure { s with remaining := s.remaining - n, stack := (limit - n) :: outer }
  | [] =>
      if n > s.remaining then throw .valueTooLarge
      else pure { s with remaining := s.remaining - n }

/-- `readByte`. -/
def readByte : Except DecodeError (UInt8 × Stream) := do
  let s ← s.willRead 1
  match s.input with
  | b :: input => pure (b, { s with input })
  | [] => throw .unexpectedEOF

/-- `readFull`: the next `n` bytes. -/
def readFull (n : UInt64) : Except DecodeError (List UInt8 × Stream) := do
  let s ← s.willRead n
  if n.toNat ≤ s.input.length then
    pure (s.input.take n.toNat, { s with input := s.input.drop n.toNat })
  else throw .unexpectedEOF

/-- `readUint`: a big-endian number of `size` bytes, which must not start
with a zero unless it is one byte. -/
def readUint (size : UInt8) : Except DecodeError (UInt64 × Stream) :=
  if size = 0 then pure (0, s)
  else if size = 1 then do
    let (b, s) ← s.readByte
    pure (b.toUInt64, s)
  else do
    let (buffer, s) ← s.readFull size.toUInt64
    if buffer.head? = some 0 then throw .canonSize
    else pure (UInt64.ofNat (beValue buffer), s)

/-- `readKind`: the kind and size of the next value, and the byte itself
when it stands for itself. At top level an input that ends is the end of the
values. -/
def readKind : Except DecodeError (Kind × UInt64 × UInt8 × Stream) := do
  let (b, s') ← match s.readByte with
    | .ok r => pure r
    | .error err =>
        throw (if s.stack.isEmpty && (err == .unexpectedEOF || err == .valueTooLarge) then .eof
          else err)
  if b < 0x80 then pure (.byte, 0, b, s')
  else if b < 0xB8 then pure (.string, (b - 0x80).toUInt64, 0, s')
  else if b < 0xC0 then do
    let (size, s') ← s'.readUint (b - 0xB7)
    if size < 56 then throw .canonSize
    else pure (.string, size, 0, s')
  else if b < 0xF8 then pure (.list, (b - 0xC0).toUInt64, 0, s')
  else do
    let (size, s') ← s'.readUint (b - 0xF7)
    if size < 56 then throw .canonSize
    else pure (.list, size, 0, s')

/-- `Kind`: `EOL` at the end of a list; otherwise the next header, whose
size must fit in what the innermost list had left before the header and in
what the input has left after it. -/
def kind : Except DecodeError (Kind × UInt64 × UInt8 × Stream) := do
  if s.listLimit = some 0 then throw .eol
  let (kind, size, byteval, s') ← s.readKind
  if s.listLimit.any (size > ·) then throw .elemTooLarge
  else if size > s'.remaining then throw .valueTooLarge
  else pure (kind, size, byteval, s')

/-- `Bytes`, after `Kind`: a single byte wrapped in a string header must be
one a header is needed for. -/
def bytes (kind : Kind) (size : UInt64) (byteval : UInt8) :
    Except DecodeError (List UInt8 × Stream) :=
  match kind with
  | .byte => pure ([byteval], s)
  | .string => do
      let (b, s) ← s.readFull size
      if size = 1 ∧ b.headD 0 < 128 then throw .canonSize
      else pure (b, s)
  | .list => throw .expectedString

/-- `List`, after `Kind`: the inner list's size comes off the enclosing
list's now, and goes on the stack. -/
def list (kind : Kind) (size : UInt64) : Except DecodeError (UInt64 × Stream) :=
  match kind with
  | .list =>
      let stack := s.stack.modifyHead (· - size)
      pure (size, { s with stack := size :: stack })
  | _ => throw .expectedList

/-- `ListEnd`: the list must have nothing left. -/
def listEnd : Except DecodeError Stream :=
  match s.stack with
  | [] => throw .notInList
  | limit :: outer => if limit > 0 then throw .notAtEOL else pure { s with stack := outer }

end Stream

/-- `decodeSliceElems`: elements until `EOL`. `fuel` bounds their number. -/
def decodeSliceElems (elemdec : Stream → Except DecodeError (Item × Stream)) :
    ℕ → Stream → Except DecodeError (List Item × Stream)
  | 0, _ => throw .depthExceeded
  | fuel + 1, s =>
      match elemdec s with
      | .error .eol => pure ([], s)
      | .error err => throw err
      | .ok (v, s) => do
          let (vs, s) ← decodeSliceElems elemdec fuel s
          pure (v :: vs, s)

/-- `decodeListSlice`, after `Kind`: an empty list is closed at once. -/
def decodeListSlice (elems : Stream → Except DecodeError (List Item × Stream)) (s : Stream)
    (kind : Kind) (size : UInt64) : Except DecodeError (List Item × Stream) := do
  let (size, s) ← s.list kind size
  if size = 0 then
    let s ← s.listEnd
    pure ([], s)
  else
    let (items, s) ← elems s
    let s ← s.listEnd
    pure (items, s)

/-- `decodeInterface`: a list as `[]interface{}`, a string as `[]byte`. -/
def decodeInterface : ℕ → Stream → Except DecodeError (Item × Stream)
  | 0, _ => throw .depthExceeded
  | fuel + 1, s => do
      let (kind, size, byteval, s) ← s.kind
      if kind = .list then
        let (items, s) ← decodeListSlice (decodeSliceElems (decodeInterface fuel) fuel) s kind size
        pure (.list items, s)
      else
        let (b, s) ← s.bytes kind size byteval
        pure (.bytes b, s)

/-- `DecodeBytes` into an `interface{}`: exactly one value and no trailing
data. -/
def decodeBytes (b : List UInt8) : Except DecodeError Item := do
  let (v, s) ← decodeInterface (b.length + 1) ⟨b, UInt64.ofNat b.length, []⟩
  if s.input.length > 0 then throw .moreThanOneValue
  else pure v

/-! ### What each read does -/

namespace Stream

/-- What a read of `n` bytes leaves: the input after them, and `n` off the
input limit and off what the innermost list has left. -/
def advance (s : Stream) (n : ℕ) (input : List UInt8) : Stream :=
  { input, remaining := s.remaining - UInt64.ofNat n,
    stack := s.stack.modifyHead (· - UInt64.ofNat n) }

/-- `n` more bytes fit in the innermost list and in the input. -/
def Room (s : Stream) (n : ℕ) : Prop :=
  (∀ limit ∈ s.listLimit, n ≤ limit.toNat) ∧ n ≤ s.remaining.toNat

section Reads

variable {s : Stream}

@[simp] theorem input_advance (n : ℕ) (input : List UInt8) : (s.advance n input).input = input := rfl

@[simp] theorem remaining_advance (n : ℕ) (input : List UInt8) :
    (s.advance n input).remaining = s.remaining - UInt64.ofNat n := rfl

@[simp] theorem listLimit_advance (n : ℕ) (input : List UInt8) :
    (s.advance n input).listLimit = s.listLimit.map (· - UInt64.ofNat n) := by
  rcases s with ⟨_, _, _ | ⟨limit, outer⟩⟩ <;> rfl

theorem advance_zero : s.advance 0 s.input = s := by
  rcases s with ⟨_, _, _ | ⟨limit, outer⟩⟩ <;> simp [advance]

theorem sub_ofNat_sub_ofNat (x : UInt64) (m n : ℕ) :
    x - UInt64.ofNat m - UInt64.ofNat n = x - UInt64.ofNat (m + n) := by
  rw [UInt64.ofNat_add]
  grind

theorem advance_advance (m n : ℕ) (i j : List UInt8) :
    (s.advance m i).advance n j = s.advance (m + n) j := by
  rcases s with ⟨_, _, _ | ⟨limit, outer⟩⟩ <;> simp [advance, sub_ofNat_sub_ofNat]

/-- Taking `n` off a `uint64` that holds at least `n` does not wrap. -/
theorem toNat_sub_ofNat {x : UInt64} {n : ℕ} (h : n ≤ x.toNat) :
    (x - UInt64.ofNat n).toNat = x.toNat - n := by
  have hn : (UInt64.ofNat n).toNat = n := by
    rw [UInt64.toNat_ofNat', Nat.mod_eq_of_lt (lt_of_le_of_lt h (UInt64.toNat_lt x))]
  rw [UInt64.toNat_sub_of_le _ _ (UInt64.le_iff_toNat_le.mpr (by rw [hn]; exact h)), hn]

/-- Room for `m + n` bytes is room for `m`, and then for `n` more. -/
theorem room_add {m n : ℕ} (i : List UInt8) :
    s.Room (m + n) ↔ s.Room m ∧ (s.advance m i).Room n := by
  simp only [Room, listLimit_advance, remaining_advance, Option.mem_map]
  constructor
  · rintro ⟨hlimit, hrem⟩
    refine ⟨⟨fun limit hl => by have := hlimit limit hl; omega, by omega⟩, ?_, ?_⟩
    · rintro _ ⟨limit, hl, rfl⟩
      have := hlimit limit hl
      rw [toNat_sub_ofNat (by omega)]
      omega
    · rw [toNat_sub_ofNat (by omega)]
      omega
  · rintro ⟨⟨hlimit, hrem⟩, hlimit', hrem'⟩
    refine ⟨fun limit hl => ?_, ?_⟩
    · have h1 := hlimit limit hl
      have h2 := hlimit' _ ⟨limit, hl, rfl⟩
      rw [toNat_sub_ofNat h1] at h2
      omega
    · rw [toNat_sub_ofNat hrem] at hrem'
      omega

theorem willRead_eq_ok {n : UInt64} {s' : Stream} :
    s.willRead n = .ok s' ↔ s.Room n.toNat ∧ s' = s.advance n.toNat s.input := by
  rcases s with ⟨input, remaining, _ | ⟨limit, outer⟩⟩
  · simp only [willRead, Except.ite_throw_eq_ok, Except.pure_eq_ok, Room, advance, listLimit,
      UInt64.ofNat_toNat]
    simp [UInt64.le_iff_toNat_le, eq_comm]
  · simp only [willRead, Except.ite_throw_eq_ok, Except.pure_eq_ok, Room, advance, listLimit,
      UInt64.ofNat_toNat]
    simp [UInt64.le_iff_toNat_le, eq_comm, and_assoc]

theorem readByte_eq_ok {b : UInt8} {s' : Stream} :
    s.readByte = .ok (b, s') ↔ ∃ input, s.input = b :: input ∧ s.Room 1 ∧ s' = s.advance 1 input := by
  simp only [readByte, Except.bind_eq_ok, willRead_eq_ok]
  constructor
  · rintro ⟨t, ⟨hroom, rfl⟩, h⟩
    cases hin : s.input with
    | nil => simp [hin, Except.throw_ne_ok] at h
    | cons x input =>
        simp only [input_advance, hin, Except.pure_eq_ok, Prod.mk.injEq] at h
        obtain ⟨rfl, rfl⟩ := h
        exact ⟨input, rfl, hroom, rfl⟩
  · rintro ⟨input, hin, hroom, rfl⟩
    refine ⟨_, ⟨hroom, rfl⟩, ?_⟩
    simp only [input_advance, hin, Except.pure_eq_ok]
    rfl

theorem readFull_eq_ok {n : UInt64} {bs : List UInt8} {s' : Stream} :
    s.readFull n = .ok (bs, s') ↔
      ∃ input, s.input = bs ++ input ∧ bs.length = n.toNat ∧ s.Room n.toNat ∧
        s' = s.advance n.toNat input := by
  simp only [readFull, Except.bind_eq_ok, willRead_eq_ok]
  constructor
  · rintro ⟨t, ⟨hroom, rfl⟩, h⟩
    -- the short read is refused by split_ifs itself
    split_ifs at h with hle
    simp only [Except.pure_eq_ok, Prod.mk.injEq] at h
    obtain ⟨rfl, rfl⟩ := h
    exact ⟨_, (List.take_append_drop _ _).symm, List.length_take_of_le hle, hroom, rfl⟩
  · rintro ⟨input, hin, hlen, hroom, rfl⟩
    refine ⟨_, ⟨hroom, rfl⟩, ?_⟩
    simp only [input_advance, hin, ← hlen, List.take_left', List.drop_left']
    rw [if_pos (by simp)]
    rfl

/-- A size of `k` bytes, `k` not zero: the bytes, with no leading zero
unless there is one. -/
theorem readUint_eq_ok {k : UInt8} (hk : k ≠ 0) {size : UInt64} {s' : Stream} :
    s.readUint k = .ok (size, s') ↔
      ∃ bs input, s.input = bs ++ input ∧ bs.length = k.toNat ∧ (k = 1 ∨ bs.head? ≠ some 0) ∧
        size = UInt64.ofNat (beValue bs) ∧ s.Room k.toNat ∧ s' = s.advance k.toNat input := by
  rw [readUint, if_neg hk]
  by_cases h1 : k = 1
  · subst h1
    rw [if_pos rfl]
    simp only [Except.bind_eq_ok, Except.pure_eq_ok, Prod.exists, Prod.mk.injEq, readByte_eq_ok]
    constructor
    · rintro ⟨b, t, ⟨input, hin, hroom, rfl⟩, rfl, rfl⟩
      exact ⟨[b], input, hin, rfl, .inl trivial, by simp [beValue], hroom, rfl⟩
    · rintro ⟨bs, input, hin, hlen, -, rfl, hroom, rfl⟩
      obtain ⟨b, rfl⟩ : ∃ b, bs = [b] := List.length_eq_one_iff.mp hlen
      exact ⟨b, _, ⟨input, hin, hroom, rfl⟩, by simp [beValue], rfl⟩
  · rw [if_neg h1]
    simp only [Except.bind_eq_ok, Except.ite_throw_eq_ok, Except.pure_eq_ok, Prod.exists,
      Prod.mk.injEq, readFull_eq_ok, UInt8.toNat_toUInt64]
    constructor
    · rintro ⟨bs, t, ⟨input, hin, hlen, hroom, rfl⟩, hhead, rfl, rfl⟩
      exact ⟨bs, input, hin, hlen, .inr hhead, rfl, hroom, rfl⟩
    · rintro ⟨bs, input, hin, hlen, hhead, rfl, hroom, rfl⟩
      exact ⟨bs, _, ⟨input, hin, hlen, hroom, rfl⟩, hhead.resolve_left h1, rfl, rfl⟩

end Reads
end Stream

/-- The offset of a string's or a list's header. -/
def Kind.offset : Kind → ℕ
  | .byte => 0
  | .string => 128
  | .list => 192

/-- The header `readKind` read, for the kind, size and byte it answered. -/
def HeaderOf : Kind → UInt64 → UInt8 → List UInt8 → Prop
  | .byte, size, b, hdr => hdr = [b] ∧ b < 0x80 ∧ size = 0
  | k, size, _, hdr => hdr = header k.offset size.toNat

namespace Stream
section Headers

variable {s : Stream}

/-- A tag byte below `base + 56` is the whole header of the size it gives. -/
theorem header_short {base b : UInt8} (hb : base ≤ b) (hb' : b.toNat < base.toNat + 56) :
    header base.toNat (b - base).toUInt64.toNat = [b] := by
  have hle := UInt8.le_iff_toNat_le.mp hb
  rw [header, UInt8.toNat_toUInt64, UInt8.toNat_sub_of_le _ _ hb, if_pos (by omega),
    Nat.add_sub_cancel' hle, UInt8.ofNat_toNat]

theorem header_long {offset len : ℕ} (hlen : ¬ len < 56) :
    header offset len = UInt8.ofNat (offset + 55 + (natBytes len).length) :: natBytes len := by
  rw [header, if_neg hlen]

/-- A size in long form: its bytes are those of the size, and the tag
`base + k` counts them. -/
theorem readUint_long {base b : UInt8} (hb : base < b) (hb8 : b.toNat ≤ base.toNat + 8)
    {size : UInt64} {s' : Stream} (h : s.readUint (b - base) = .ok (size, s'))
    (hsize : ¬ size < 56) :
    ∃ input, s.input = natBytes size.toNat ++ input ∧
      b.toNat = base.toNat + (natBytes size.toNat).length ∧
      s.Room (natBytes size.toNat).length ∧ s' = s.advance (natBytes size.toNat).length input := by
  have hlt := UInt8.lt_iff_toNat_lt.mp hb
  have hk : (b - base).toNat = b.toNat - base.toNat := UInt8.toNat_sub_of_le _ _ (UInt8.le_iff_toNat_le.mpr hlt.le)
  have hk0 : b - base ≠ 0 := fun h0 => by simp [h0] at hk; omega
  obtain ⟨bs, input, hin, hlen, hcanon, rfl, hroom, rfl⟩ := (readUint_eq_ok hk0).mp h
  have hval : (UInt64.ofNat (beValue bs)).toNat = beValue bs := by
    have : beValue bs < 2 ^ 64 := calc
      beValue bs < 256 ^ bs.length := beValue_lt bs
      _ ≤ 256 ^ 8 := Nat.pow_le_pow_right (by norm_num) (by omega)
      _ = 2 ^ 64 := by norm_num
    rw [UInt64.toNat_ofNat', Nat.mod_eq_of_lt this]
  have hge : 56 ≤ beValue bs := by
    rw [UInt64.lt_iff_toNat_lt, hval] at hsize
    simpa using hsize
  -- a one-byte size of at least 56 has no leading zero either
  have hhead : bs.head? ≠ some 0 := by
    rcases hcanon with h1 | hne
    · obtain ⟨x, rfl⟩ : ∃ x, bs = [x] := List.length_eq_one_iff.mp (by rw [hlen, h1]; rfl)
      rintro ⟨⟩
      simp [beValue] at hge
    · exact hne
  rw [hval, natBytes_beValue hhead, hlen]
  exact ⟨input, hin, by omega, hroom, rfl⟩

/-- The long form of a header: the tag byte, then the size. -/
theorem readKind_long (offset : ℕ) {base b : UInt8} (hbase : base.toNat = offset + 55)
    (hb : base < b) (hb8 : b.toNat ≤ base.toNat + 8) {input : List UInt8}
    (hin : s.input = b :: input) (hroom : s.Room 1) {size : UInt64} {s' : Stream}
    (h : (s.advance 1 input).readUint (b - base) = .ok (size, s')) (hsize : ¬ size < 56) :
    ∃ rest, s.input = header offset size.toNat ++ rest ∧
      s.Room (header offset size.toNat).length ∧
      s' = s.advance (header offset size.toNat).length rest := by
  obtain ⟨rest, hrest, htag, hroom', rfl⟩ := readUint_long hb hb8 h hsize
  have hb' : UInt8.ofNat (offset + 55 + (natBytes size.toNat).length) = b := by
    rw [← hbase, ← htag, UInt8.ofNat_toNat]
  have hlen : (header offset size.toNat).length = 1 + (natBytes size.toNat).length := by
    rw [header_long (by simpa [UInt64.lt_iff_toNat_lt] using hsize), List.length_cons]
    omega
  refine ⟨rest, ?_, ?_, ?_⟩
  · rw [hin, header_long (by simpa [UInt64.lt_iff_toNat_lt] using hsize), hb']
    simpa using hrest
  · rw [hlen]
    exact (room_add input).mpr ⟨hroom, hroom'⟩
  · rw [hlen, advance_advance]

theorem readKind_sound {k : Kind} {size : UInt64} {bv : UInt8} {s' : Stream}
    (h : s.readKind = .ok (k, size, bv, s')) :
    ∃ hdr input, s.input = hdr ++ input ∧ s.Room hdr.length ∧ s' = s.advance hdr.length input ∧
      HeaderOf k size bv hdr := by
  simp only [readKind] at h
  -- an error of the first read is relabelled, and no success
  split at h
  case h_2 => exact absurd h (by rw [Except.throw_bind]; exact Except.throw_ne_ok)
  next r hb =>
  obtain ⟨b, s1⟩ := r
  rw [pure_bind] at h
  obtain ⟨input, hin, hroom, rfl⟩ := readByte_eq_ok.mp hb
  -- one branch per range of the tag byte
  dsimp only at h
  have hb256 := UInt8.toNat_lt_size b
  split_ifs at h with h80 hB8 hC0 hF8
  · simp only [Except.pure_eq_ok, Prod.mk.injEq] at h
    obtain ⟨rfl, rfl, rfl, rfl⟩ := h
    exact ⟨[b], input, hin, hroom, rfl, rfl, h80, rfl⟩
  · -- a string of fewer than 56 bytes
    simp only [Except.pure_eq_ok, Prod.mk.injEq] at h
    obtain ⟨rfl, rfl, rfl, rfl⟩ := h
    have hshort : header 128 (b - 0x80).toUInt64.toNat = [b] :=
      header_short (UInt8.le_iff_toNat_le.mpr (by simpa [UInt8.lt_iff_toNat_lt] using h80))
        (by simpa [UInt8.lt_iff_toNat_lt] using hB8)
    exact ⟨[b], input, hin, hroom, rfl, hshort.symm⟩
  · -- a longer string
    simp only [Except.bind_eq_ok, Except.ite_throw_eq_ok, Except.pure_eq_ok, Prod.mk.injEq] at h
    obtain ⟨⟨size', s2⟩, hu, hlt, rfl, rfl, rfl, rfl⟩ := h
    obtain ⟨rest, hrest, hroom', rfl⟩ := readKind_long 128 (by decide)
      (by simp [UInt8.lt_iff_toNat_lt] at hB8 ⊢; omega) (by simp [UInt8.lt_iff_toNat_lt] at hC0 ⊢; omega)
      hin hroom hu hlt
    exact ⟨_, rest, hrest, hroom', rfl, rfl⟩
  · -- a list of fewer than 56 bytes
    simp only [Except.pure_eq_ok, Prod.mk.injEq] at h
    obtain ⟨rfl, rfl, rfl, rfl⟩ := h
    have hshort : header 192 (b - 0xC0).toUInt64.toNat = [b] :=
      header_short (UInt8.le_iff_toNat_le.mpr (by simpa [UInt8.lt_iff_toNat_lt] using hC0))
        (by simpa [UInt8.lt_iff_toNat_lt] using hF8)
    exact ⟨[b], input, hin, hroom, rfl, hshort.symm⟩
  · -- a longer list
    simp only [Except.bind_eq_ok, Except.ite_throw_eq_ok, Except.pure_eq_ok, Prod.mk.injEq] at h
    obtain ⟨⟨size', s2⟩, hu, hlt, rfl, rfl, rfl, rfl⟩ := h
    obtain ⟨rest, hrest, hroom', rfl⟩ := readKind_long 192 (by decide)
      (by simp [UInt8.lt_iff_toNat_lt] at hF8 ⊢; omega) (by simp [UInt8.size] at hb256 ⊢; omega) hin hroom hu hlt
    exact ⟨_, rest, hrest, hroom', rfl, rfl⟩

/-- The bytes of a size, read back. -/
theorem readUint_natBytes {n : ℕ} (hn : n ≠ 0) {k : UInt8} (hk : k.toNat = (natBytes n).length)
    {rest : List UInt8} (hin : s.input = natBytes n ++ rest) (hroom : s.Room k.toNat) :
    s.readUint k = .ok (UInt64.ofNat n, s.advance k.toNat rest) := by
  have hk0 : k ≠ 0 := by
    rintro rfl
    have := length_natBytes_pos hn
    simp at hk
    omega
  rw [readUint_eq_ok hk0]
  exact ⟨natBytes n, rest, hin, hk.symm, .inr (natBytes_head?_ne_zero n), by rw [beValue_natBytes],
    hroom, rfl⟩

theorem toNat_ofNat_tag {m : ℕ} (hm : m < 256) : (UInt8.ofNat m).toNat = m := by
  rw [UInt8.toNat_ofNat', Nat.mod_eq_of_lt hm]

/-- The size a short header's tag gives. -/
theorem toUInt64_sub_tag {base b : UInt8} {n : ℕ} (hb : b.toNat = base.toNat + n) :
    (b - base).toUInt64 = UInt64.ofNat n := by
  have hb256 := UInt8.toNat_lt_size b
  apply UInt64.toNat_inj.mp
  rw [UInt8.toNat_toUInt64, UInt8.toNat_sub_of_le _ _ (UInt8.le_iff_toNat_le.mpr (by omega)),
    UInt64.toNat_ofNat', Nat.mod_eq_of_lt (by simp [UInt8.size] at hb256; omega)]
  omega

/-- The header of a string or a list, read back. -/
theorem readKind_header {k : Kind} (hk : k ≠ .byte) {n : ℕ} (hn : n < 2 ^ 64) {rest : List UInt8}
    (hin : s.input = header k.offset n ++ rest) (hroom : s.Room (header k.offset n).length) :
    s.readKind = .ok (k, UInt64.ofNat n, 0, s.advance (header k.offset n).length rest) := by
  have ho : k.offset + 64 ≤ 256 := by cases k <;> simp_all [Kind.offset]
  by_cases hshort : n < 56
  · rw [header, if_pos hshort] at hin hroom ⊢
    have hb := toNat_ofNat_tag (show k.offset + n < 256 by omega)
    generalize UInt8.ofNat (k.offset + n) = b at hb hin hroom ⊢
    have hread := readByte_eq_ok.mpr ⟨rest, hin, hroom, rfl⟩
    simp only [readKind, hread, pure_bind]
    -- the tag's range decides the branch
    cases k with
    | byte => exact absurd rfl hk
    | string =>
        simp only [Kind.offset] at hb
        simp only [UInt8.lt_iff_toNat_lt, hb, UInt8.reduceToNat]
        rw [if_neg (by omega), if_pos (by omega), toUInt64_sub_tag (by rw [hb]; rfl)]
        rfl
    | list =>
        simp only [Kind.offset] at hb
        simp only [UInt8.lt_iff_toNat_lt, hb, UInt8.reduceToNat]
        rw [if_neg (by omega), if_neg (by omega), if_neg (by omega), if_pos (by omega),
          toUInt64_sub_tag (by rw [hb]; rfl)]
        rfl
  · rw [header_long hshort] at hin hroom ⊢
    have hL8 := length_natBytes_le hn
    have hL0 := length_natBytes_pos (show n ≠ 0 by omega)
    have hb := toNat_ofNat_tag (show k.offset + 55 + (natBytes n).length < 256 by omega)
    generalize UInt8.ofNat (k.offset + 55 + (natBytes n).length) = b at hb hin hroom ⊢
    have hlen : (b :: natBytes n).length = 1 + (natBytes n).length := by
      simp only [List.length_cons]; omega
    rw [hlen] at hroom ⊢
    obtain ⟨hroom1, hroomL⟩ := (room_add (natBytes n ++ rest)).mp hroom
    have hread := readByte_eq_ok.mpr ⟨natBytes n ++ rest, hin, hroom1, rfl⟩
    -- the size's bytes after the tag, whose distance from the base counts them
    have hsize : ∀ base : UInt8, base.toNat = k.offset + 55 →
        (s.advance 1 (natBytes n ++ rest)).readUint (b - base) =
          .ok (UInt64.ofNat n, s.advance (1 + (natBytes n).length) rest) := by
      intro base hbase
      have hk : (b - base).toNat = (natBytes n).length := by
        rw [UInt8.toNat_sub_of_le _ _ (UInt8.le_iff_toNat_le.mpr (by omega))]
        omega
      rw [readUint_natBytes (by omega) hk rfl (hk ▸ hroomL), hk, advance_advance]
    simp only [readKind, hread, pure_bind]
    cases k with
    | byte => exact absurd rfl hk
    | string =>
        simp only [Kind.offset] at hb hsize
        simp only [UInt8.lt_iff_toNat_lt, hb, UInt8.reduceToNat]
        rw [if_neg (by omega), if_neg (by omega), if_pos (by omega), hsize _ rfl]
        exact if_neg (mt (ofNat_lt_56_iff hn).mp hshort)
    | list =>
        simp only [Kind.offset] at hb hsize
        simp only [UInt8.lt_iff_toNat_lt, hb, UInt8.reduceToNat]
        rw [if_neg (by omega), if_neg (by omega), if_neg (by omega), if_neg (by omega), hsize _ rfl]
        exact if_neg (mt (ofNat_lt_56_iff hn).mp hshort)

/-- A byte below `0x80`, read back. -/
theorem readKind_byte {b : UInt8} (hb : b < 0x80) {rest : List UInt8} (hin : s.input = b :: rest)
    (hroom : s.Room 1) : s.readKind = .ok (.byte, 0, b, s.advance 1 rest) := by
  have hread := readByte_eq_ok.mpr ⟨rest, hin, hroom, rfl⟩
  simp only [readKind, hread, pure_bind]
  rw [if_pos hb]
  rfl

end Headers

section Values

variable {s : Stream}

theorem kind_eol (h : s.listLimit = some 0) : s.kind = .error .eol := by
  simp only [kind, if_pos h]
  rfl

theorem kind_eq_ok {k : Kind} {size : UInt64} {bv : UInt8} {s' : Stream} :
    s.kind = .ok (k, size, bv, s') ↔
      s.listLimit ≠ some 0 ∧ s.readKind = .ok (k, size, bv, s') ∧
        (∀ limit ∈ s.listLimit, size ≤ limit) ∧ size ≤ s'.remaining := by
  simp only [kind]
  by_cases h0 : s.listLimit = some 0
  · rw [if_pos h0, Except.throw_bind]
    simp [Except.throw_ne_ok, h0]
  · rw [if_neg h0]
    simp only [Except.bind_eq_ok, Except.ite_throw_eq_ok, Except.pure_eq_ok, Prod.exists]
    constructor
    · rintro ⟨k', size', bv', s'', hread, hlimit, hrem, heq⟩
      simp only [Prod.mk.injEq] at heq
      obtain ⟨rfl, rfl, rfl, rfl⟩ := heq
      refine ⟨h0, hread, fun limit hl => ?_, UInt64.not_lt.mp hrem⟩
      simp only [Option.any_eq_true, decide_eq_true_eq, not_exists, not_and] at hlimit
      exact UInt64.not_lt.mp (hlimit limit hl)
    · rintro ⟨-, hread, hlimit, hrem⟩
      refine ⟨k, size, bv, s', hread, ?_, UInt64.not_lt.mpr hrem, rfl⟩
      simp only [Option.any_eq_true, decide_eq_true_eq, not_exists, not_and]
      exact fun limit hl => UInt64.not_lt.mpr (hlimit limit hl)

theorem bytes_eq_ok {k : Kind} {size : UInt64} {bv : UInt8} {b : List UInt8} {s' : Stream} :
    s.bytes k size bv = .ok (b, s') ↔
      (k = .byte ∧ b = [bv] ∧ s' = s) ∨
        (k = .string ∧ s.readFull size = .ok (b, s') ∧ ¬ (size = 1 ∧ b.headD 0 < 128)) := by
  cases k with
  | byte =>
      simp only [bytes, Except.pure_eq_ok, Prod.mk.injEq]
      simp [eq_comm]
  | string => simp [bytes, Except.bind_eq_ok, Except.ite_throw_eq_ok, Except.pure_eq_ok]
  | list => simp [bytes, Except.throw_ne_ok]

/-- The stream inside a list of `size` bytes that `List` has just opened. -/
def enter (s : Stream) (size : UInt64) : Stream :=
  { s with stack := size :: s.stack.modifyHead (· - size) }

theorem list_eq_ok {k : Kind} {size size' : UInt64} {s' : Stream} :
    s.list k size = .ok (size', s') ↔ k = .list ∧ size' = size ∧ s' = s.enter size := by
  cases k <;> simp only [list, enter, Except.pure_eq_ok, Prod.mk.injEq] <;>
    simp [Except.throw_ne_ok, eq_comm]

theorem listEnd_eq_ok {s' : Stream} :
    s.listEnd = .ok s' ↔ ∃ outer, s.stack = 0 :: outer ∧ s' = { s with stack := outer } := by
  rcases s with ⟨input, remaining, _ | ⟨limit, outer⟩⟩
  · simp [listEnd, Except.throw_ne_ok]
  · simp only [listEnd, Except.ite_throw_eq_ok, Except.pure_eq_ok, List.cons.injEq]
    constructor
    · rintro ⟨hl, rfl⟩
      have h0 : limit = 0 := by
        simp only [gt_iff_lt, UInt64.lt_iff_toNat_lt, UInt64.toNat_zero, not_lt,
          Nat.le_zero] at hl
        exact UInt64.toNat_inj.mp hl
      exact ⟨outer, ⟨h0, rfl⟩, rfl⟩
    · rintro ⟨_, ⟨rfl, rfl⟩, rfl⟩
      exact ⟨by decide, rfl⟩

end Values

end Stream
end Classzz.Rlp
