import Classzz.Rlp.Decode
import Classzz.Rlp.Encode

/-!
# RLP round trip

`DecodeBytes` into an `interface{}` and `EncodeToBytes` are inverse.

Soundness: whatever `decodeInterface` reads is the encoding of the item it
gives (`decodeInterface_sound`). A read is tracked as `Stream.Consumes`: the
input starts with the bytes, they fit in the input limit, and the stream
after is what reading them leaves. The size that `List` takes off the
enclosing list in `uint64` can wrap, but a list is only closed when what it
has left is exactly zero (`listEnd_enter_sound`), and the bytes read are
fewer than `2 ^ 64`, so the size read was the payload's length.

Completeness: given more fuel than its length and room for it, the encoding
of a sized item is read back (`decodeInterface_complete`), the element loop
stopping at the `EOL` of the list's end.

With `encodeToBytes_eq_encode` both directions are about `EncodeToBytes`
(`decodeBytes_encodeToBytes_inverse`). The items decoded are those of a Go
byte slice, whose length is below `2 ^ 64`; an accepted input is at most as
long as the limit `DecodeBytes` sets, so it fits too.
-/

open Rlp

namespace Classzz.Rlp

namespace Stream

/-- A decode from `s` to `s'` read `bs`: the input starts with it, within
the input limit, and `s'` is what reading it leaves. -/
def Consumes (s : Stream) (bs : List UInt8) (s' : Stream) : Prop :=
  ∃ input, s.input = bs ++ input ∧ bs.length ≤ s.remaining.toNat ∧ s' = s.advance bs.length input

variable {s t u : Stream}

theorem consumes_nil (s : Stream) : s.Consumes [] s :=
  ⟨s.input, rfl, Nat.zero_le _, advance_zero.symm⟩

theorem Consumes.of_room {bs input : List UInt8} (hin : s.input = bs ++ input) (hroom : s.Room bs.length) :
    s.Consumes bs (s.advance bs.length input) :=
  ⟨input, hin, hroom.2, rfl⟩

theorem Consumes.trans {a b : List UInt8} (h₁ : s.Consumes a t) (h₂ : t.Consumes b u) :
    s.Consumes (a ++ b) u := by
  obtain ⟨i₁, hin₁, hle₁, rfl⟩ := h₁
  obtain ⟨i₂, hin₂, hle₂, rfl⟩ := h₂
  simp only [input_advance] at hin₂
  simp only [remaining_advance, toNat_sub_ofNat hle₁] at hle₂
  refine ⟨i₂, by rw [hin₁, hin₂, List.append_assoc], by simp; omega, ?_⟩
  rw [advance_advance, List.length_append]

/-- Closing a list: a decode inside the list that read exactly what its
header promised leaves the enclosing list as if it had read the bytes. -/
theorem listEnd_enter_sound {s t t' : Stream} {size : UInt64} {bs : List UInt8}
    (hc : (s.enter size).Consumes bs t)
    (he : t.listEnd = .ok t') :
    s.Consumes bs t' ∧ bs.length = size.toNat := by
  obtain ⟨input, hin, hle, rfl⟩ := hc
  obtain ⟨outer, hstack, rfl⟩ := listEnd_eq_ok.mp he
  simp only [advance, enter, List.modifyHead_cons, List.cons.injEq] at hstack
  obtain ⟨hzero, rfl⟩ := hstack
  -- the list's size was the number of bytes read, which is below 2 ^ 64
  have hsize : size = UInt64.ofNat bs.length := by grind
  subst hsize
  refine ⟨⟨input, hin, hle, rfl⟩, ?_⟩
  rw [UInt64.toNat_ofNat_of_lt' (lt_of_le_of_lt hle (UInt64.toNat_lt _))]

end Stream

section Sound

open Classzz.Rlp.Stream

/-- The element loop reads its elements' encodings one after another. -/
theorem decodeSliceElems_sound {elemdec : Stream → Except DecodeError (Item × Stream)}
    (hdec : ∀ s v s', elemdec s = .ok (v, s') → s.Consumes (encode v) s' ∧ v.Sized) :
    ∀ (fuel : ℕ) (s : Stream) (vs : List Item) (s' : Stream),
      decodeSliceElems elemdec fuel s = .ok (vs, s') →
        s.Consumes (encodeList vs) s' ∧ Item.SizedList vs
  | 0, _, _, _, h => absurd h Except.throw_ne_ok
  | fuel + 1, s, vs, s', h => by
      rw [decodeSliceElems] at h
      split at h
      · -- `EOL` ends the loop where it is
        simp only [Except.pure_eq_ok, Prod.mk.injEq] at h
        obtain ⟨rfl, rfl⟩ := h
        exact ⟨consumes_nil s, trivial⟩
      · exact absurd h Except.throw_ne_ok
      · next v s₁ hv =>
        simp only [Except.bind_eq_ok, Except.pure_eq_ok, Prod.mk.injEq, Prod.exists] at h
        obtain ⟨vs', s₂, hrest, rfl, rfl⟩ := h
        obtain ⟨hc₁, hv₁⟩ := hdec s v s₁ hv
        obtain ⟨hc₂, hv₂⟩ := decodeSliceElems_sound hdec fuel s₁ vs' _ hrest
        exact ⟨hc₁.trans hc₂, hv₁, hv₂⟩

/-- A list after its header: the items read fill exactly the size the header
gave. -/
theorem decodeListSlice_sound {elems : Stream → Except DecodeError (List Item × Stream)}
    (helems : ∀ s vs s', elems s = .ok (vs, s') → s.Consumes (encodeList vs) s' ∧ Item.SizedList vs)
    {s : Stream} {kind : Kind} {size : UInt64} {items : List Item} {s' : Stream}
    (h : decodeListSlice elems s kind size = .ok (items, s')) :
    kind = .list ∧ s.Consumes (encodeList items) s' ∧ (encodeList items).length = size.toNat ∧
      Item.SizedList items := by
  simp only [decodeListSlice, Except.bind_eq_ok, Prod.exists] at h
  obtain ⟨size', s₁, hlist, h⟩ := h
  obtain ⟨rfl, rfl, rfl⟩ := list_eq_ok.mp hlist
  split_ifs at h with hzero
  · -- an empty list is closed at once
    simp only [Except.bind_eq_ok, Except.pure_eq_ok, Prod.mk.injEq] at h
    obtain ⟨s₂, hend, rfl, rfl⟩ := h
    obtain ⟨hc, hlen⟩ := listEnd_enter_sound (consumes_nil _) hend
    exact ⟨rfl, hc, hlen, trivial⟩
  · simp only [Except.bind_eq_ok, Except.pure_eq_ok, Prod.mk.injEq, Prod.exists] at h
    obtain ⟨items', s₂, hitems, s₃, hend, rfl, rfl⟩ := h
    obtain ⟨hc, hsized⟩ := helems _ _ _ hitems
    obtain ⟨hc', hlen⟩ := listEnd_enter_sound hc hend
    exact ⟨rfl, hc', hlen, hsized⟩

/-- What `decodeInterface` accepts is the encoding of what it gives. -/
theorem decodeInterface_sound (fuel : ℕ) :
    ∀ (s : Stream) (v : Item) (s' : Stream), decodeInterface fuel s = .ok (v, s') →
      s.Consumes (encode v) s' ∧ v.Sized := by
  -- the induction is on the fuel, which each nested value's decoding spends one of
  induction fuel with
  | zero => exact fun _ _ _ h => absurd h Except.throw_ne_ok
  | succ fuel ih =>
      intro s v s' h
      simp only [decodeInterface, Except.bind_eq_ok, Prod.exists] at h
      obtain ⟨k, size, bv, s₁, hkind, h⟩ := h
      obtain ⟨-, hread, -, hsize⟩ := kind_eq_ok.mp hkind
      obtain ⟨hdr, input, hin, hroom, rfl, hhdr⟩ := readKind_sound hread
      have hc₁ := Consumes.of_room hin hroom
      split_ifs at h with hk
      · -- a list: its items after its header
        subst hk
        simp only [Except.bind_eq_ok, Except.pure_eq_ok, Prod.mk.injEq, Prod.exists] at h
        obtain ⟨items, s₂, hitems, rfl, rfl⟩ := h
        obtain ⟨-, hc₂, hlen, hsized⟩ := decodeListSlice_sound
          (decodeSliceElems_sound ih fuel) hitems
        have hhdr : hdr = header 192 (encodeList items).length := by rw [hlen]; exact hhdr
        refine ⟨?_, by rw [hlen]; exact UInt64.toNat_lt size, hsized⟩
        rw [encode, ← hhdr]
        exact hc₁.trans hc₂
      · simp only [Except.bind_eq_ok, Except.pure_eq_ok, Prod.mk.injEq, Prod.exists] at h
        obtain ⟨b, s₂, hbytes, rfl, rfl⟩ := h
        rcases bytes_eq_ok.mp hbytes with ⟨rfl, rfl, rfl⟩ | ⟨rfl, hfull, hcanon⟩
        · -- a byte that stands for itself
          obtain ⟨rfl, hlt, -⟩ := hhdr
          have hlt' : bv.toNat < 128 := by simpa [UInt8.lt_iff_toNat_lt] using hlt
          refine ⟨?_, by simp [Item.Sized]⟩
          simpa [encode, encodeBytes, hlt'] using hc₁
        · -- a string after its header
          obtain ⟨input', hin', hlen, hroom', rfl⟩ := readFull_eq_ok.mp hfull
          have hc₂ := Consumes.of_room hin' (hlen ▸ hroom')
          have hcanon' : ¬ (b.length = 1 ∧ b.headD 0 < 128) := by
            rintro ⟨h1, h2⟩
            exact hcanon ⟨UInt64.toNat_inj.mp (by rw [← hlen, h1]; rfl), h2⟩
          have hhdr : hdr = header 128 b.length := by rw [hlen]; exact hhdr
          refine ⟨?_, by show b.length < 2 ^ 64; rw [hlen]; exact UInt64.toNat_lt size⟩
          rw [encode, encodeBytes_of_canonical hcanon', ← hhdr, ← hlen]
          exact hc₁.trans hc₂

end Sound

section Complete

open Classzz.Rlp.Stream

variable {s : Stream}

/-- The header of a string or a list, with room for its payload, passes
`Kind`'s checks. -/
theorem kind_header {k : Kind} (hk : k ≠ .byte) {n : ℕ} (hn : n < 2 ^ 64) {rest : List UInt8}
    (hin : s.input = header k.offset n ++ rest) (hroom : s.Room ((header k.offset n).length + n)) :
    s.kind = .ok (k, UInt64.ofNat n, 0, s.advance (header k.offset n).length rest) ∧
      (s.advance (header k.offset n).length rest).Room n := by
  obtain ⟨hroom₁, hroom₂⟩ := (room_add rest).mp hroom
  have hpos := length_header_pos k.offset n
  have hnat : (UInt64.ofNat n).toNat = n := UInt64.toNat_ofNat_of_lt' hn
  refine ⟨kind_eq_ok.mpr ⟨?_, readKind_header hk hn hin hroom₁, ?_, ?_⟩, hroom₂⟩
  · intro h0
    have := hroom.1 0 h0
    rw [UInt64.toNat_zero] at this
    omega
  · intro limit hl
    have := hroom.1 limit hl
    rw [UInt64.le_iff_toNat_le, hnat]
    omega
  · rw [UInt64.le_iff_toNat_le, hnat]
    exact hroom₂.2

theorem kind_byte {b : UInt8} (hb : b < 0x80) {rest : List UInt8} (hin : s.input = b :: rest)
    (hroom : s.Room 1) : s.kind = .ok (.byte, 0, b, s.advance 1 rest) := by
  refine kind_eq_ok.mpr ⟨?_, readKind_byte hb hin hroom, fun _ _ => UInt64.zero_le,
    UInt64.zero_le⟩
  intro h0
  have := hroom.1 0 h0
  rw [UInt64.toNat_zero] at this
  omega

theorem decodeInterface_eol (fuel : ℕ) (h : s.listLimit = some 0) :
    decodeInterface (fuel + 1) s = .error .eol := by
  rw [decodeInterface, kind_eol h]
  rfl

theorem ofNat_add_sub_ofNat (a b : ℕ) :
    UInt64.ofNat (a + b) - UInt64.ofNat a = UInt64.ofNat b := by
  rw [UInt64.ofNat_add]
  grind

/-- The element loop reads the items of a list whose size is what is left of
the innermost list, and stops at its end. -/
theorem decodeSliceElems_complete {elemdec : Stream → Except DecodeError (Item × Stream)} {f : ℕ}
    (hdec : ∀ (t : Item) (s : Stream) (rest : List UInt8), t.Sized → (encode t).length < f →
      s.input = encode t ++ rest → s.Room (encode t).length →
        elemdec s = .ok (t, s.advance (encode t).length rest))
    (heol : ∀ s : Stream, s.listLimit = some 0 → elemdec s = .error .eol) :
    ∀ (items : List Item) (fuel : ℕ) (s : Stream) (rest : List UInt8), Item.SizedList items →
      items.length < fuel → (encodeList items).length < f → s.input = encodeList items ++ rest →
      s.listLimit = some (UInt64.ofNat (encodeList items).length) →
      (encodeList items).length ≤ s.remaining.toNat →
        decodeSliceElems elemdec fuel s = .ok (items, s.advance (encodeList items).length rest)
  | _, 0, _, _, _, hlen, _, _, _, _ => absurd hlen (Nat.not_lt_zero _)
  | [], fuel + 1, s, rest, _, _, _, hin, hlimit, _ => by
      -- at the list's end the element decoder answers `EOL`
      rw [decodeSliceElems, heol s (by simpa [encodeList] using hlimit)]
      simp only [encodeList, List.nil_append, List.length_nil] at hin ⊢
      rw [← hin, advance_zero]
      rfl
  | i :: items, fuel + 1, s, rest, hv, hlen, hf, hin, hlimit, hrem => by
      have hsplit : (encodeList (i :: items)).length =
          (encode i).length + (encodeList items).length := by
        rw [encodeList, List.length_append]
      rw [hsplit] at hf hlimit hrem
      have hnat : (UInt64.ofNat ((encode i).length + (encodeList items).length)).toNat =
          (encode i).length + (encodeList items).length := by
        rw [UInt64.toNat_ofNat_of_lt' (lt_of_le_of_lt hrem (UInt64.toNat_lt _))]
      -- room for the first item in what the list has left
      have hroom : s.Room (encode i).length := by
        refine ⟨fun limit hl => ?_, by omega⟩
        rw [hlimit, Option.mem_some_iff] at hl
        rw [← hl, hnat]
        omega
      have hfirst := hdec i s (encodeList items ++ rest) hv.1 (by omega)
        (by rw [hin, encodeList, List.append_assoc]) hroom
      have hnext := decodeSliceElems_complete hdec heol items fuel
        (s.advance (encode i).length (encodeList items ++ rest)) rest hv.2
        (by simpa using hlen) (by omega) rfl
        (by rw [listLimit_advance, hlimit, Option.map_some, ofNat_add_sub_ofNat])
        (by rw [remaining_advance, toNat_sub_ofNat hroom.2]; omega)
      rw [decodeSliceElems, hfirst]
      simp only [hnext, Except.ok_bind, hsplit, advance_advance]
      rfl

/-- A list that read exactly its size closes, leaving the enclosing list as if
it had read the bytes. -/
theorem listEnd_enter_advance (n : ℕ) (input : List UInt8) :
    ((s.enter (UInt64.ofNat n)).advance n input).listEnd = .ok (s.advance n input) := by
  refine listEnd_eq_ok.mpr ⟨s.stack.modifyHead (· - UInt64.ofNat n), ?_, rfl⟩
  simp [advance, enter]

/-- A list after its header reads its items and closes. -/
theorem decodeListSlice_complete {elems : Stream → Except DecodeError (List Item × Stream)}
    {items : List Item} {rest : List UInt8}
    (hin : s.input = encodeList items ++ rest) (hroom : s.Room (encodeList items).length)
    (helems : items ≠ [] →
      elems (s.enter (UInt64.ofNat (encodeList items).length)) =
        .ok (items, (s.enter (UInt64.ofNat (encodeList items).length)).advance
          (encodeList items).length rest)) :
    decodeListSlice elems s .list (UInt64.ofNat (encodeList items).length) =
      .ok (items, s.advance (encodeList items).length rest) := by
  have hlist : s.list .list (UInt64.ofNat (encodeList items).length) =
      .ok (UInt64.ofNat (encodeList items).length, s.enter (UInt64.ofNat (encodeList items).length)) :=
    list_eq_ok.mpr ⟨rfl, rfl, rfl⟩
  simp only [decodeListSlice, hlist, Except.ok_bind]
  by_cases hnil : items = []
  · -- an empty list is closed at once
    subst hnil
    have h0 : (s.enter (UInt64.ofNat 0)).advance 0 s.input = s.enter (UInt64.ofNat 0) := advance_zero
    have hend := listEnd_enter_advance (s := s) 0 s.input
    rw [h0, advance_zero] at hend
    have hin' : s.input = rest := by simpa [encodeList] using hin
    rw [if_pos (show UInt64.ofNat (encodeList []).length = 0 from rfl)]
    simp only [encodeList, List.length_nil]
    rw [hend, Except.ok_bind, ← hin', advance_zero]
    rfl
  · have hlt : (encodeList items).length < 2 ^ 64 := lt_of_le_of_lt hroom.2 (UInt64.toNat_lt _)
    have hpos : 0 < (encodeList items).length :=
      lt_of_lt_of_le (List.length_pos_iff.mpr hnil) (length_le_length_encodeList items)
    have hne : UInt64.ofNat (encodeList items).length ≠ 0 := by
      intro h0
      have := congrArg UInt64.toNat h0
      rw [UInt64.toNat_ofNat_of_lt' hlt, UInt64.toNat_zero] at this
      omega
    rw [if_neg hne, helems hnil, Except.ok_bind]
    dsimp only
    rw [listEnd_enter_advance, Except.ok_bind]
    rfl

/-- `decodeInterface` reads back the encoding of every sized item, given
more fuel than its length and room for it. -/
theorem decodeInterface_complete : ∀ (fuel : ℕ) (t : Item) (s : Stream) (rest : List UInt8),
    t.Sized → (encode t).length < fuel → s.input = encode t ++ rest → s.Room (encode t).length →
      decodeInterface fuel s = .ok (t, s.advance (encode t).length rest)
  | 0, _, _, _, _, hlt, _, _ => absurd hlt (Nat.not_lt_zero _)
  | fuel + 1, .bytes b, s, rest, hv, hlt, hin, hroom => by
      rcases encodeBytes_cases b with ⟨x, rfl, hx, he⟩ | he
      · -- a byte below 0x80 is its own encoding
        rw [encode, he] at hin hroom ⊢
        have hkind := kind_byte (UInt8.lt_iff_toNat_lt.mpr (by simpa using hx)) hin hroom
        rw [decodeInterface, hkind, Except.ok_bind]
        dsimp only
        rw [if_neg (by decide)]
        rfl
      · -- a string after its header
        have hb : b.length < 2 ^ 64 := hv
        have hnat : (UInt64.ofNat b.length).toNat = b.length := by
          rw [UInt64.toNat_ofNat_of_lt' hb]
        rw [encode, he, List.length_append] at hroom ⊢
        rw [encode, he, List.append_assoc] at hin
        obtain ⟨hkind, hroom'⟩ := kind_header (k := .string) (by decide) hb hin hroom
        set s₁ := s.advance (header Kind.string.offset b.length).length (b ++ rest)
        have hfull : s₁.readFull (UInt64.ofNat b.length) = .ok (b, s₁.advance b.length rest) := by
          rw [readFull_eq_ok, hnat]
          exact ⟨rest, rfl, rfl, hroom', rfl⟩
        have hcanon : ¬ (UInt64.ofNat b.length = 1 ∧ b.headD 0 < 128) := fun ⟨h1, h2⟩ =>
          canonical_of_encodeBytes he ⟨by rw [← hnat, h1]; rfl, h2⟩
        rw [decodeInterface, hkind, Except.ok_bind]
        dsimp only
        rw [if_neg (by decide), bytes_eq_ok.mpr (.inr ⟨rfl, hfull, hcanon⟩), Except.ok_bind,
          advance_advance]
        rfl
  | fuel + 1, .list items, s, rest, hv, hlt, hin, hroom => by
      have hL : (encodeList items).length < 2 ^ 64 := hv.1
      have hhdr := length_header_pos 192 (encodeList items).length
      have hitems := length_le_length_encodeList items
      rw [encode, List.length_append] at hroom hlt ⊢
      rw [encode, List.append_assoc] at hin
      obtain ⟨hkind, hroom'⟩ := kind_header (k := .list) (by decide) hL hin hroom
      set s₁ := s.advance (header Kind.list.offset (encodeList items).length).length
        (encodeList items ++ rest)
      -- the items, each read by the decoder one level down
      have helems := fun (_ : items ≠ []) =>
        decodeSliceElems_complete (f := fuel)
          (fun t s rest hv hlt hin hroom => decodeInterface_complete fuel t s rest hv hlt hin hroom)
          (fun s h => by
            cases fuel with
            | zero => omega
            | succ f => exact decodeInterface_eol f h)
          items fuel (s₁.enter (UInt64.ofNat (encodeList items).length)) rest hv.2 (by omega)
          (by omega) rfl rfl hroom'.2
      rw [decodeInterface, hkind, Except.ok_bind]
      dsimp only
      rw [if_pos rfl, decodeListSlice_complete rfl hroom' helems, Except.ok_bind, advance_advance]
      rfl

end Complete

/-- `DecodeBytes` of an encoding gives the item. -/
theorem decodeBytes_encode {t : Item} (h : (encode t).length < 2 ^ 64) :
    decodeBytes (encode t) = .ok t := by
  have hnat : (UInt64.ofNat (encode t).length).toNat = (encode t).length := by
    rw [UInt64.toNat_ofNat_of_lt' h]
  have hroom : Stream.Room ⟨encode t, UInt64.ofNat (encode t).length, []⟩ (encode t).length :=
    ⟨by simp [Stream.listLimit], by rw [hnat]⟩
  have hdec := decodeInterface_complete ((encode t).length + 1) t _ [] (sized_of_length_lt t h)
    (Nat.lt_succ_self _) (List.append_nil _).symm hroom
  rw [decodeBytes, hdec, Except.ok_bind]
  dsimp only
  rw [if_neg (by simp)]
  rfl

/-- What `DecodeBytes` accepts is the encoding of the item it gives, with no
trailing byte. -/
theorem decodeBytes_sound {b : List UInt8} {v : Item} (h : decodeBytes b = .ok v) :
    encode v = b ∧ v.Sized := by
  simp only [decodeBytes, Except.bind_eq_ok, Prod.exists] at h
  obtain ⟨v', s', hdec, h⟩ := h
  split_ifs at h with hmore
  rw [Except.pure_eq_ok] at h
  subst h
  obtain ⟨⟨input, hin, -, rfl⟩, hv⟩ := decodeInterface_sound _ _ _ _ hdec
  have hnil : input = [] := by simpa using hmore
  refine ⟨?_, hv⟩
  simpa [hnil] using hin.symm

/-- RLP's `EncodeToBytes` and `DecodeBytes` are inverse: decoding gives back
every item whose encoding fits in a byte slice, and encoding gives back every
byte string that decodes. -/
theorem decodeBytes_encodeToBytes_inverse :
    (∀ t : Item, (encode t).length < 2 ^ 64 → decodeBytes (encodeToBytes t) = .ok t) ∧
      ∀ (b : List UInt8) (v : Item), decodeBytes b = .ok v → encodeToBytes v = b := by
  refine ⟨fun t ht => ?_, fun b v h => ?_⟩
  · rw [encodeToBytes_eq_encode (sized_of_length_lt t ht)]
    exact decodeBytes_encode ht
  · obtain ⟨he, hv⟩ := decodeBytes_sound h
    rw [encodeToBytes_eq_encode hv, he]

theorem decodeBytes_encodeToBytes_inverse_sample :
    (encode (.list [.bytes [1, 2], .list []])).length < 2 ^ 64 ∧
      decodeBytes (encodeToBytes (.list [.bytes [1, 2], .list []])) =
        .ok (.list [.bytes [1, 2], .list []]) ∧
      decodeBytes [0xC2, 0x01, 0x80] = .ok (.list [.bytes [1], .bytes []]) ∧
      encodeToBytes (.list [.bytes [1], .bytes []]) = [0xC2, 0x01, 0x80] :=
  have hdec : decodeBytes [0xC2, 0x01, 0x80] = .ok (.list [.bytes [1], .bytes []]) := by rfl
  ⟨by decide, decodeBytes_encodeToBytes_inverse.1 _ (by decide), hdec,
    decodeBytes_encodeToBytes_inverse.2 _ _ hdec⟩

end Classzz.Rlp
