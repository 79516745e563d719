import Mathlib.Data.Nat.Size
import Classzz.Common.Types
import Classzz.Lib.Except
import Classzz.Lib.Rlp

/-!
# Block headers

`types.Header` and the bytes that name it. `Header.Hash` hashes the header's
RLP encoding, a list of its fields in order whose optional `BaseFee` tail is
left out when it is nil. Keccak-256 itself is not modelled: it is a parameter.

A header decoded from the network has non-negative `Difficulty`, `Number` and
`BaseFee`, since RLP has no negative integers, so they are natural numbers
here. `SanityCheck` bounds the three of them and the extra data; under its
bounds every field fits its RLP header, so the encoding of a sane header is
injective (`Header.item_sized`).
-/

namespace Classzz

/-- `types.Bloom`: 256 bytes, read big-endian. -/
abbrev Bloom := Fin (2 ^ 2048)

instance neZero_bloomSize : NeZero (2 ^ 2048 : ℕ) := ⟨(Nat.pow_pos (by decide)).ne'⟩

def Bloom.bytes (b : Bloom) : Bytes :=
  toBytesBE 256 b.val

@[simp] theorem Bloom.length_bytes (b : Bloom) : b.bytes.length = 256 := length_toBytesBE _ _

theorem Bloom.bytes_injective : Function.Injective Bloom.bytes := by
  have hsize : (2 : ℕ) ^ 2048 = 256 ^ 256 := by
    rw [show 2048 = 8 * 256 from rfl, pow_mul]
    norm_num
  intro a b h
  exact Fin.ext (toBytesBE_inj (a.isLt.trans_eq hsize) (b.isLt.trans_eq hsize) h)

/-- `types.Header`. `Nonce` is the eight-byte `BlockNonce`, kept as the number
its `Uint64` reads. -/
structure Header where
  parentHash : Hash
  coinbase : Address
  root : Hash
  txHash : Hash
  receiptHash : Hash
  bloom : Bloom
  difficulty : ℕ
  number : ℕ
  gasLimit : UInt64
  gasUsed : UInt64
  time : UInt64
  extra : Bytes
  nonce : UInt64
  baseFee : Option ℕ
  deriving DecidableEq, Repr

namespace Header

/-- The RLP strings of the fields, in declaration order: a fixed-size array
as its bytes, a `*big.Int` or a `uint64` as its minimal big-endian bytes, and
`BaseFee` (tagged `rlp:"optional"`) only when it is set. -/
def fields (h : Header) : List Bytes :=
  [h.parentHash.bytes, h.coinbase.bytes, h.root.bytes, h.txHash.bytes,
    h.receiptHash.bytes, h.bloom.bytes, Rlp.natBytes h.difficulty,
    Rlp.natBytes h.number, Rlp.natBytes h.gasLimit.toNat, Rlp.natBytes h.gasUsed.toNat,
    Rlp.natBytes h.time.toNat, h.extra, toBytesBE 8 h.nonce.toNat] ++
    (h.baseFee.map Rlp.natBytes).toList

/-- The RLP item of the header: the list of its field strings. -/
def item (h : Header) : Rlp.Item :=
  .list (h.fields.map .bytes)

/-- `Header.Hash`: the Keccak-256 hash of the header's RLP encoding. -/
def hash (keccak256 : Bytes → Hash) (h : Header) : Hash :=
  keccak256 (Rlp.encode h.item)

end Header

/-- Why `SanityCheck` refuses a header, with the bit length or size its
message reports. -/
inductive SanityError where
  /-- "too large block number: bitlen %d" -/
  | tooLargeNumber (bitlen : ℕ)
  /-- "too large block difficulty: bitlen %d" -/
  | tooLargeDifficulty (bitlen : ℕ)
  /-- "too large block extradata: size %d" -/
  | tooLargeExtra (size : ℕ)
  /-- "too large base fee: bitlen %d" -/
  | tooLargeBaseFee (bitlen : ℕ)
  deriving DecidableEq, Repr

namespace Header

/-- `Header.SanityCheck`. `BitLen` is `Nat.size`; a non-negative number is
`IsUint64` when it has at most 64 bits. -/
def sanityCheck (h : Header) : Except SanityError Unit := do
  if 64 < h.number.size then throw (.tooLargeNumber h.number.size)
  if 80 < h.difficulty.size then throw (.tooLargeDifficulty h.difficulty.size)
  if 100 * 1024 < h.extra.length then throw (.tooLargeExtra h.extra.length)
  match h.baseFee with
  | some baseFee => if 256 < baseFee.size then throw (.tooLargeBaseFee baseFee.size)
  | none => pure ()

/-- The bounds a sane header keeps. -/
@[mk_iff]
structure Sane (h : Header) : Prop where
  number : h.number < 2 ^ 64
  difficulty : h.difficulty < 2 ^ 80
  extra : h.extra.length ≤ 100 * 1024
  baseFee : ∀ baseFee ∈ h.baseFee, baseFee < 2 ^ 256

theorem sanityCheck_eq_ok {h : Header} : h.sanityCheck = .ok () ↔ h.Sane := by
  rw [sane_iff]
  -- the base fee is checked only when it is set
  cases hb : h.baseFee <;>
    simp [sanityCheck, hb, Except.throw_bind, Except.ite_throw_eq_ok, Nat.size_le, Except.pure_eq_ok]

theorem length_natBytes_lt {n : ℕ} (hn : n < 2 ^ 256) : (Rlp.natBytes n).length < 2 ^ 32 := by
  have hle : (Rlp.natBytes n).length ≤ 32 := by
    rw [Rlp.length_natBytes, Nat.digits_length_le_iff (by norm_num)]
    exact hn.trans_eq (by norm_num)
  omega

/-- Every field of a sane header is shorter than `2 ^ 32` bytes. -/
theorem length_fields_lt {h : Header} (hs : h.Sane) : ∀ b ∈ h.fields, b.length < 2 ^ 32 := by
  have h64 : ∀ {n : ℕ}, n < 2 ^ 64 → n < 2 ^ 256 := fun hn => hn.trans (by norm_num)
  simp only [fields, List.cons_append, List.nil_append, List.forall_mem_cons,
    Bloom.length_bytes, length_toBytesBE, Address.bytes, Hash.bytes]
  refine ⟨by norm_num, by norm_num, by norm_num, by norm_num, by norm_num, by norm_num,
    length_natBytes_lt (hs.difficulty.trans (by norm_num)), length_natBytes_lt (h64 hs.number),
    length_natBytes_lt (h64 h.gasLimit.toNat_lt), length_natBytes_lt (h64 h.gasUsed.toNat_lt),
    length_natBytes_lt (h64 h.time.toNat_lt), by have := hs.extra; omega, by norm_num, ?_⟩
  -- the optional tail is the base fee's bytes, when there is one
  intro b hb
  cases hbase : h.baseFee with
  | none => simp [hbase] at hb
  | some baseFee =>
      simp only [hbase, Option.map_some, Option.toList_some, List.mem_singleton] at hb
      rw [hb]
      exact length_natBytes_lt (hs.baseFee baseFee hbase)

theorem length_fields_le (h : Header) : h.fields.length ≤ 14 := by
  cases hb : h.baseFee <;> simp [fields, hb]

/-- The encoding of a sane header fits its headers, so it is injective. -/
theorem item_sized {h : Header} (hs : h.Sane) : h.item.Sized :=
  Rlp.sized_list_bytes (length_fields_lt hs) ((length_fields_le h).trans_lt (by norm_num))

theorem fields_of_item_eq {h h' : Header} (heq : h.item = h'.item) : h.fields = h'.fields := by
  simp only [item, Rlp.Item.list.injEq] at heq
  exact List.map_injective_iff.mpr (fun _ _ hb => Rlp.Item.bytes.inj hb) heq

/-- The fields of two headers that differ at most in their base fee agree but
for the optional tail, which spells the base fee. -/
theorem baseFee_of_fields_eq {h : Header} {b : Option ℕ}
    (heq : ({h with baseFee := b} : Header).fields = h.fields) : b = h.baseFee := by
  simp only [fields, List.append_cancel_left_eq] at heq
  cases b <;> cases hb : h.baseFee <;>
    simp_all [Rlp.natBytes_injective.eq_iff]

/-- Changing only the base fee of a sane header, to another sane one, changes
the bytes the block hash is taken of. -/
theorem encode_item_baseFee_ne {h : Header} {b : Option ℕ} (hs : h.Sane)
    (hb : ∀ baseFee ∈ b, baseFee < 2 ^ 256) (hne : b ≠ h.baseFee) :
    Rlp.encode ({h with baseFee := b} : Header).item ≠ Rlp.encode h.item := by
  intro heq
  have hs' : ({h with baseFee := b} : Header).Sane := ⟨hs.number, hs.difficulty, hs.extra, hb⟩
  have hitem := Rlp.encode_injective (item_sized hs') (item_sized hs) heq
  exact hne (baseFee_of_fields_eq (fields_of_item_eq hitem))

end Header

end Classzz
