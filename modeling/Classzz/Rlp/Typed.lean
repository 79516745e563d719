import Classzz.Rlp.RoundTrip
import Classzz.Common.Types

/-!
# Decoding RLP into typed values

The reflect decoder of package `rlp` reads a value of a Go type from the
stream. It accepts what the untyped `DecodeBytes` accepts, the canonical
encodings, and it also requires the item to have the shape of the type: a
byte slice takes any string, a byte array a string of its length, a
`*big.Int` a string with no leading zero byte, a `uint8` at most one byte
and not a zero byte, a `bool` the integers 0 and 1, and a slice a list. A
struct takes a list with exactly as many elements as it has fields; the
structs of the callers match on that list. The model reads the item tree
that `decodeBytes` gives; the source does both in one pass over the stream.
The errors it reports on the way are not told apart here.

Each reader inverts what the encoder makes of the value it gives: the item
read is the item of the value, and no other (`decodeBigInt_eq_some` and the
like). A slice reads its elements with the reader of the element type, and
inherits that inverse (`decodeListSlice_eq_some`).
-/

open Rlp

namespace Classzz.Rlp

namespace Typed

/-- `encodeBool`: `0x01` for true and `0x80` for false, the integers 1 and 0. -/
def boolItem (b : Bool) : Item :=
  .nat (if b then 1 else 0)

/-- `decodeByteSlice`: any string. -/
def decodeByteSlice : Item → Option Bytes
  | .bytes b => some b
  | .list _ => none

/-- `decodeByteArray` into a `[n]byte`: a string of exactly `n` bytes. -/
def decodeByteArray (n : ℕ) : Item → Option Bytes
  | .bytes b => if b.length = n then some b else none
  | .list _ => none

/-- A `common.Address`, a `[20]byte`. -/
def decodeAddress (i : Item) : Option Address :=
  (decodeByteArray 20 i).map bytesToAddress

/-- A `common.Hash`, a `[32]byte`. -/
def decodeHash (i : Item) : Option Hash :=
  (decodeByteArray 32 i).map bytesToHash

/-- `decodeBigInt`: a string with no leading zero byte (`ErrCanonInt`). -/
def decodeBigInt : Item → Option ℕ
  | .bytes b => if b.head? = some 0 then none else some (beValue b)
  | .list _ => none

/-- `Stream.uint(8)`: a string of at most one byte (`errUintOverflow`), and not
a zero byte (`ErrCanonInt`). -/
def decodeUint8 : Item → Option UInt8
  | .bytes b => if b.length ≤ 1 ∧ b.head? ≠ some 0 then some (UInt8.ofNat (beValue b)) else none
  | .list _ => none

/-- `decodeBool`: the integers 0 and 1. -/
def decodeBool (i : Item) : Option Bool := do
  let n ← decodeUint8 i
  if n = 0 then pure false else if n = 1 then pure true else none

/-- `decodeListSlice`: a list, each element read by `elem`. -/
def decodeListSlice {α : Type*} (elem : Item → Option α) : Item → Option (List α)
  | .list items => items.mapM elem
  | .bytes _ => none

section ByteArrays

theorem bytesToNat_lt (b : Bytes) : bytesToNat b < 256 ^ b.length := by
  induction b using List.reverseRecOn with
  | nil => simp [bytesToNat]
  | append_singleton b x ih =>
    rw [bytesToNat_append_singleton, List.length_append, List.length_singleton, pow_succ]
    have hx : x.toNat < 256 := x.toNat_lt
    nlinarith

/-- Bytes read big-endian and written back at their length are the bytes. -/
theorem toBytesBE_bytesToNat (b : Bytes) : toBytesBE b.length (bytesToNat b) = b := by
  induction b using List.reverseRecOn with
  | nil => rfl
  | append_singleton b x ih =>
    have hx : x.toNat < 256 := x.toNat_lt
    rw [List.length_append, List.length_singleton, toBytesBE, bytesToNat_append_singleton]
    have hdiv : (256 * bytesToNat b + x.toNat) / 256 = bytesToNat b := by omega
    have hmod : UInt8.ofNat (256 * bytesToNat b + x.toNat) = x := by
      rw [← UInt8.toNat_inj, UInt8.toNat_ofNat']
      omega
    rw [hdiv, hmod, ih]

/-- A value below `256 ^ len` reads back from its `len` bytes, under any bound above it. -/
theorem bytesToNat_toBytesBE_mod {len n m : ℕ} (hn : n < 256 ^ len) (hm : n < m) :
    bytesToNat (toBytesBE len n) % m = n := by
  rw [bytesToNat_toBytesBE, Nat.mod_eq_of_lt hn, Nat.mod_eq_of_lt hm]

/-- Bytes read big-endian, modulo a bound at least their range, write back to the bytes. -/
theorem toBytesBE_bytesToNat_mod {b : Bytes} {m : ℕ} (hm : 256 ^ b.length ≤ m) :
    toBytesBE b.length (bytesToNat b % m) = b := by
  rw [Nat.mod_eq_of_lt ((bytesToNat_lt b).trans_le hm), toBytesBE_bytesToNat]

theorem bytesToAddress_bytes (a : Address) : bytesToAddress a.bytes = a :=
  Fin.ext (bytesToNat_toBytesBE_mod (a.isLt.trans_eq (by norm_num)) a.isLt)

theorem bytes_bytesToAddress {b : Bytes} (hb : b.length = 20) : (bytesToAddress b).bytes = b := by
  have hm : 256 ^ b.length ≤ 2 ^ 160 := by rw [hb]; norm_num
  rw [Address.bytes, bytesToAddress, Fin.val_ofNat, ← hb]
  exact toBytesBE_bytesToNat_mod hm

theorem bytesToHash_bytes (h : Hash) : bytesToHash h.bytes = h :=
  Fin.ext (bytesToNat_toBytesBE_mod (h.isLt.trans_eq (by norm_num)) h.isLt)

theorem bytes_bytesToHash {b : Bytes} (hb : b.length = 32) : (bytesToHash b).bytes = b := by
  have hm : 256 ^ b.length ≤ 2 ^ 256 := by rw [hb]; norm_num
  rw [Hash.bytes, bytesToHash, Fin.val_ofNat, ← hb]
  exact toBytesBE_bytesToNat_mod hm

end ByteArrays

section Inverse

theorem decodeByteSlice_eq_some {i : Item} {b : Bytes} :
    decodeByteSlice i = some b ↔ i = .bytes b := by
  cases i <;> simp [decodeByteSlice]

theorem decodeByteArray_eq_some {n : ℕ} {i : Item} {b : Bytes} :
    decodeByteArray n i = some b ↔ i = .bytes b ∧ b.length = n := by
  cases i with
  | bytes b' =>
    simp only [decodeByteArray, Option.ite_none_right_eq_some, Option.some.injEq, Item.bytes.injEq]
    constructor
    · rintro ⟨hlen, rfl⟩
      exact ⟨rfl, hlen⟩
    · rintro ⟨rfl, hlen⟩
      exact ⟨hlen, rfl⟩
  | list items => simp [decodeByteArray]

theorem decodeAddress_eq_some {i : Item} {a : Address} :
    decodeAddress i = some a ↔ i = .bytes a.bytes := by
  simp only [decodeAddress, Option.map_eq_some_iff, decodeByteArray_eq_some]
  constructor
  · rintro ⟨b, ⟨rfl, hb⟩, rfl⟩
    rw [bytes_bytesToAddress hb]
  · rintro rfl
    exact ⟨a.bytes, ⟨rfl, a.length_bytes⟩, bytesToAddress_bytes a⟩

theorem decodeHash_eq_some {i : Item} {h : Hash} :
    decodeHash i = some h ↔ i = .bytes h.bytes := by
  simp only [decodeHash, Option.map_eq_some_iff, decodeByteArray_eq_some]
  constructor
  · rintro ⟨b, ⟨rfl, hb⟩, rfl⟩
    rw [bytes_bytesToHash hb]
  · rintro rfl
    exact ⟨h.bytes, ⟨rfl, h.length_bytes⟩, bytesToHash_bytes h⟩

theorem decodeBigInt_eq_some {i : Item} {n : ℕ} :
    decodeBigInt i = some n ↔ i = .nat n := by
  cases i with
  | bytes b =>
    simp only [decodeBigInt, Item.nat, Item.bytes.injEq]
    constructor
    · intro h
      split_ifs at h with h0
      cases h
      exact (natBytes_beValue h0).symm
    · rintro rfl
      rw [if_neg (natBytes_head?_ne_zero n), beValue_natBytes]
  | list items => simp [decodeBigInt, Item.nat]

theorem decodeUint8_eq_some {i : Item} {x : UInt8} :
    decodeUint8 i = some x ↔ i = .nat x.toNat := by
  cases i with
  | bytes b =>
    simp only [decodeUint8, Item.nat, Item.bytes.injEq]
    constructor
    · intro h
      split_ifs at h with hb
      cases h
      -- one byte at most, so the value fits and is read back whole
      have hlt : beValue b < 256 := by
        have := beValue_lt b
        have hpow : 256 ^ b.length ≤ 256 ^ 1 := Nat.pow_le_pow_right (by norm_num) hb.1
        omega
      rw [UInt8.toNat_ofNat', Nat.mod_eq_of_lt hlt, natBytes_beValue hb.2]
    · rintro rfl
      have hlen : (natBytes x.toNat).length ≤ 1 := by
        rw [length_natBytes, Nat.digits_length_le_iff (by norm_num)]
        simpa using x.toNat_lt
      rw [if_pos ⟨hlen, natBytes_head?_ne_zero _⟩, beValue_natBytes, UInt8.ofNat_toNat]
  | list items => simp [decodeUint8, Item.nat]

theorem decodeBool_eq_some {i : Item} {b : Bool} :
    decodeBool i = some b ↔ i = boolItem b := by
  simp only [decodeBool, Option.bind_eq_bind, Option.bind_eq_some_iff, decodeUint8_eq_some]
  constructor
  · rintro ⟨n, rfl, h⟩
    split_ifs at h with h0 h1
    · cases h
      simp [h0, boolItem]
    · cases h
      simp [h1, boolItem]
  · rintro rfl
    cases b
    · exact ⟨0, rfl, rfl⟩
    · exact ⟨1, rfl, rfl⟩

/-- A reader inverse to an encoder that may fail reads lists inverse to the
encoder mapped over them. -/
theorem mapM_eq_some_iff {α β : Type*} {f : β → Option α} {g : α → Option β}
    (hfg : ∀ i a, f i = some a ↔ g a = some i) :
    ∀ {is : List β} {as : List α}, is.mapM f = some as ↔ as.mapM g = some is
  | [], [] => by simp
  | [], a :: as => by simp [List.mapM_cons, Option.bind_eq_bind, Option.bind_eq_some_iff]
  | i :: is, [] => by simp [List.mapM_cons, Option.bind_eq_bind, Option.bind_eq_some_iff]
  | i :: is, a :: as => by
    simp only [List.mapM_cons, Option.bind_eq_bind, Option.bind_eq_some_iff, Option.pure_def,
      Option.some.injEq, List.cons.injEq]
    constructor
    · rintro ⟨a', hi, as', hrest, rfl, rfl⟩
      exact ⟨i, (hfg i a').mp hi, is, (mapM_eq_some_iff hfg).mp hrest, rfl, rfl⟩
    · rintro ⟨i', ha, is', hrest, rfl, rfl⟩
      exact ⟨a, (hfg i' a).mpr ha, as, (mapM_eq_some_iff hfg).mpr hrest, rfl, rfl⟩

theorem decodeListSlice_eq_some {α : Type*} {elem : Item → Option α} {enc : α → Option Item}
    (henc : ∀ i a, elem i = some a ↔ enc a = some i) {i : Item} {as : List α} :
    decodeListSlice elem i = some as ↔ (as.mapM enc).map .list = some i := by
  cases i with
  | bytes b =>
    simp only [decodeListSlice, reduceCtorEq, false_iff, Option.map_eq_some_iff, not_exists,
      not_and]
    intro _ _ h
    cases h
  | list items =>
    simp only [decodeListSlice, Option.map_eq_some_iff, Item.list.injEq, exists_eq_right]
    exact mapM_eq_some_iff henc

/-- The same for an encoder that cannot fail. -/
theorem decodeListSlice_eq_some_of_total {α : Type*} {elem : Item → Option α} {enc : α → Item}
    (henc : ∀ i a, elem i = some a ↔ i = enc a) {i : Item} {as : List α} :
    decodeListSlice elem i = some as ↔ i = .list (as.map enc) := by
  have hsome : ∀ i a, elem i = some a ↔ (fun a => some (enc a)) a = some i := by
    intro i a
    rw [henc, Option.some.injEq, eq_comm]
  have hmap : as.mapM (fun a => some (enc a)) = some (as.map enc) := List.mapM_pure
  rw [decodeListSlice_eq_some hsome, hmap, Option.map_some, Option.some.injEq, eq_comm]

/-! The encoder's items read back, the form the readers of a struct unfold to. -/

@[simp] theorem decodeByteSlice_bytes (b : Bytes) : decodeByteSlice (.bytes b) = some b := rfl

@[simp] theorem decodeAddress_bytes (a : Address) : decodeAddress (.bytes a.bytes) = some a :=
  decodeAddress_eq_some.mpr rfl

@[simp] theorem decodeHash_bytes (h : Hash) : decodeHash (.bytes h.bytes) = some h :=
  decodeHash_eq_some.mpr rfl

@[simp] theorem decodeBigInt_nat (n : ℕ) : decodeBigInt (.nat n) = some n :=
  decodeBigInt_eq_some.mpr rfl

@[simp] theorem decodeUint8_nat (x : UInt8) : decodeUint8 (.nat x.toNat) = some x :=
  decodeUint8_eq_some.mpr rfl

@[simp] theorem decodeBool_boolItem (b : Bool) : decodeBool (boolItem b) = some b :=
  decodeBool_eq_some.mpr rfl

theorem decodeListSlice_map {α : Type*} {elem : Item → Option α} {enc : α → Item}
    (henc : ∀ i a, elem i = some a ↔ i = enc a) (as : List α) :
    decodeListSlice elem (.list (as.map enc)) = some as :=
  (decodeListSlice_eq_some_of_total henc).mpr rfl

end Inverse

end Typed

end Classzz.Rlp
