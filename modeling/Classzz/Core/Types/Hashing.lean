import Classzz.Trie.StackTrieRefines
import Classzz.Rlp.Raw

/-!
# `DeriveSha`

`DeriveSha` hands a trie hasher the items of a list under their RLP-encoded indices, in the
order `1..127`, `0`, `128..`. That is the order of the encoded keys: for every list length up to
`2^64` each key parts to the left of every later one (`deriveShaKeys_pairwise`), so the keys
are strictly increasing and prefix-free, and the indices are those below the length, each once
(`deriveShaIndices_perm`). The order is what the stack trie needs, which only ever grows its
right edge: with it as the hasher `DeriveSha` gives the trie's root hash as long as no item
encodes to nothing (`deriveSha_stackTrie_eq`), the stack trie panicking on an empty value where
the trie deletes the key.
-/

open KeyOrder Rlp Classzz.Rlp Classzz.Trie

namespace Classzz.Types

/-- `DerivableList`: the length, and what `EncodeIndex` writes for an index. -/
structure DerivableList where
  len : ℕ
  encodeIndex : ℕ → Bytes

/-- `TrieHasher`, over the hasher's state; `update` is `none` where the hasher panics. -/
structure TrieHasher (σ : Type) where
  reset : σ → σ
  update : σ → Bytes → Bytes → Option σ
  hash : σ → Option Hash

/-- The indices in the order of the three loops of `DeriveSha`: `1` up to `min (n - 1) 127`,
then `0` for a list that is not empty, then `128` up to `n - 1`. -/
def deriveShaIndices (n : ℕ) : List ℕ :=
  List.range' 1 (min (n - 1) 127) ++ (if 0 < n then [0] else []) ++ List.range' 128 (n - 128)

/-- The key of an index: `rlp.AppendUint64(indexBuf[:0], uint64(i))`. -/
def indexKey (i : ℕ) : Bytes :=
  Rlp.appendUint64 [] (UInt64.ofNat i)

/-- `DeriveSha`. -/
def deriveSha {σ : Type} (list : DerivableList) (hasher : TrieHasher σ) (s : σ) : Option Hash := do
  let s ← (deriveShaIndices list.len).foldlM
    (fun s i => hasher.update s (indexKey i) (list.encodeIndex i)) (hasher.reset s)
  hasher.hash s

section Hashers

variable (keccak256 : Bytes → Hash)

/-- `trie.NewStackTrie(nil)` as a hasher. -/
def stackTrieHasher : TrieHasher StackTrie where
  reset _ := .empty 0
  update st key value := st.tryUpdate keccak256 key value
  hash st := some (st.rootHash keccak256)

/-- `new(trie.Trie)` as a hasher; `hashRoot` hashes in parallel as the serial hasher does
(`Trie.hash_eq_serial`). -/
def trieHasher : TrieHasher Trie where
  reset _ := Trie.empty
  update t key value := some (t.tryUpdate key value)
  hash t := t.hash keccak256 false

end Hashers

/-- `LegacyTxType`. -/
def legacyTxType : UInt8 := 0

/-- `AccessListTxType`. -/
def accessListTxType : UInt8 := 1

/-- `DynamicFeeTxType`. -/
def dynamicFeeTxType : UInt8 := 2

/-- `Receipts.EncodeIndex` for a receipt of type `txType` whose `receiptRLP` encodes to `data`:
the type byte before `data` for a typed receipt, and nothing for a type it does not know. -/
def receiptEncodeIndex (txType : UInt8) (data : Bytes) : Bytes :=
  if txType = legacyTxType then data
  else if txType = accessListTxType then accessListTxType :: data
  else if txType = dynamicFeeTxType then dynamicFeeTxType :: data
  else []

/-- `Receipts` as a `DerivableList`, each receipt as its type and its encoded `receiptRLP`. An
index past the end, which `DeriveSha` does not pass, writes nothing. -/
def receipts (rs : List (UInt8 × Bytes)) : DerivableList where
  len := rs.length
  encodeIndex i := match rs[i]? with
    | some r => receiptEncodeIndex r.1 r.2
    | none => []

section Indices

theorem mem_deriveShaIndices {n i : ℕ} : i ∈ deriveShaIndices n ↔ i < n := by
  simp only [deriveShaIndices, List.mem_append, List.mem_range'_1]
  split_ifs with hn <;> simp <;> omega

/-- Where `DeriveSha` puts an index: `1..127` first, then `0`, then the rest. -/
def deriveShaRank (i : ℕ) : ℕ :=
  if i = 0 then 128 else if i < 128 then i else i + 1

theorem deriveShaRank_of_mem_small {n i : ℕ} (hi : i ∈ List.range' 1 (min (n - 1) 127)) :
    deriveShaRank i = i := by
  rw [List.mem_range'_1] at hi
  simp only [deriveShaRank]
  split_ifs <;> omega

theorem deriveShaRank_of_mem_large {n i : ℕ} (hi : i ∈ List.range' 128 (n - 128)) :
    deriveShaRank i = i + 1 := by
  rw [List.mem_range'_1] at hi
  simp only [deriveShaRank]
  split_ifs <;> omega

/-- The three loops hand out the indices in increasing rank. -/
theorem deriveShaIndices_rank (n : ℕ) :
    (deriveShaIndices n).Pairwise fun i j => deriveShaRank i < deriveShaRank j := by
  -- the first part is below `128` in rank, `0` is `128`, and the last part above
  have hsmall : ∀ i ∈ List.range' 1 (min (n - 1) 127), deriveShaRank i < 128 := fun i hi => by
    rw [deriveShaRank_of_mem_small hi]
    rw [List.mem_range'_1] at hi
    omega
  have hlarge : ∀ i ∈ List.range' 128 (n - 128), 128 < deriveShaRank i := fun i hi => by
    rw [deriveShaRank_of_mem_large hi]
    rw [List.mem_range'_1] at hi
    omega
  have hzero : ∀ i ∈ (if 0 < n then [0] else []), deriveShaRank i = 128 := fun i hi => by
    split_ifs at hi
    · rw [List.mem_singleton.mp hi]
      rfl
    · simp at hi
  simp only [deriveShaIndices, List.pairwise_append, List.mem_append]
  refine ⟨⟨?_, ?_, ?_⟩, ?_, ?_⟩
  · exact (List.pairwise_lt_range' (s := _) (n := _)).imp_of_mem fun hi hj h => by
      rwa [deriveShaRank_of_mem_small hi, deriveShaRank_of_mem_small hj]
  · split_ifs <;> simp
  · intro i hi j hj
    rw [hzero j hj]
    exact hsmall i hi
  · exact (List.pairwise_lt_range' (s := _) (n := _)).imp_of_mem fun hi hj h => by
      rw [deriveShaRank_of_mem_large hi, deriveShaRank_of_mem_large hj]
      omega
  · rintro i (hi | hi) j hj
    · exact (hsmall i hi).trans (hlarge j hj)
    · exact (hzero i hi).trans_lt (hlarge j hj)

theorem deriveShaIndices_nodup (n : ℕ) : (deriveShaIndices n).Nodup :=
  (deriveShaIndices_rank n).imp fun h he => (he ▸ h).false

/-- The indices are those below the length, each once. -/
theorem deriveShaIndices_perm (n : ℕ) : (deriveShaIndices n).Perm (List.range n) :=
  (List.perm_ext_iff_of_nodup (deriveShaIndices_nodup n) List.nodup_range).mpr fun i => by
    rw [mem_deriveShaIndices, List.mem_range]

end Indices

section Keys

/-- The first byte of the encoding of an index. -/
def keyLead (i : ℕ) : ℕ :=
  if i = 0 then 128 else if i < 128 then i else 128 + (natBytes i).length

theorem indexKey_eq {i : ℕ} (hi : i < 2 ^ 64) : indexKey i = encode (.nat i) := by
  rw [indexKey, appendUint64_eq, List.nil_append, UInt64.toNat_ofNat_of_lt' hi]

/-- Every key starts with its lead byte. -/
theorem encode_nat_lead {i : ℕ} (hi : i < 2 ^ 64) :
    ∃ rest, encode (.nat i) = UInt8.ofNat (keyLead i) :: rest := by
  by_cases h0 : i = 0
  · subst h0
    exact ⟨[], rfl⟩
  by_cases hsmall : i < 128
  · exact ⟨[], by rw [encode_nat_of_lt (Nat.pos_of_ne_zero h0) hsmall, keyLead, if_neg h0, if_pos hsmall]⟩
  · exact ⟨natBytes i, by rw [encode_nat_of_le (by omega) hi, keyLead, if_neg h0, if_neg hsmall]⟩

theorem ofNat_lt_ofNat {a b : ℕ} (hab : a < b) (hb : b < 256) : UInt8.ofNat a < UInt8.ofNat b := by
  rw [UInt8.lt_iff_toNat_lt, UInt8.toNat_ofNat', UInt8.toNat_ofNat', Nat.mod_eq_of_lt (by omega),
    Nat.mod_eq_of_lt (by omega)]
  exact hab

theorem keyLead_lt {i : ℕ} (hi : i < 2 ^ 64) : keyLead i < 256 := by
  have := length_natBytes_le hi
  simp only [keyLead]
  split_ifs <;> omega

/-- An index of higher rank has a larger lead byte, or is a larger number of as many bytes. -/
theorem keyLead_lt_or_of_rank {i j : ℕ} (h : deriveShaRank i < deriveShaRank j) :
    keyLead i < keyLead j ∨
      128 ≤ i ∧ i < j ∧ (natBytes i).length = (natBytes j).length := by
  simp only [deriveShaRank] at h
  by_cases hj : j < 128
  · left
    simp only [keyLead]
    split_ifs at h ⊢ <;> omega
  · -- a large `j` has at least one byte, and at least as many as any smaller number
    have hpos := length_natBytes_pos (n := j) (by omega)
    by_cases hi : i < 128
    · left
      simp only [keyLead]
      split_ifs at h ⊢ <;> omega
    · have hmono : (natBytes i).length ≤ (natBytes j).length := by
        rw [length_natBytes, length_natBytes]
        exact Nat.le_length_digits_le 256 i j (by split_ifs at h <;> omega)
      simp only [keyLead]
      split_ifs at h ⊢ <;> omega

/-- Of two indices, the key of the one `DeriveSha` hands over first parts to the left. -/
theorem leftOf_indexKey {i j : ℕ} (hi : i < 2 ^ 64) (hj : j < 2 ^ 64)
    (h : deriveShaRank i < deriveShaRank j) : LeftOf (indexKey i) (indexKey j) := by
  rw [indexKey_eq hi, indexKey_eq hj]
  rcases keyLead_lt_or_of_rank h with hlead | ⟨hi128, hij, hlen⟩
  · -- the lead bytes differ
    obtain ⟨ri, hri⟩ := encode_nat_lead hi
    obtain ⟨rj, hrj⟩ := encode_nat_lead hj
    rw [hri, hrj]
    exact leftOf_cons_cons _ _ (ofNat_lt_ofNat hlead (keyLead_lt hj))
  · -- one lead byte: the bytes of the numbers part where the larger one is larger
    rw [encode_nat_of_le hi128 hi, encode_nat_of_le (by omega) hj, hlen]
    refine (leftOf_of_beValue_lt hlen ?_).cons _
    rw [beValue_natBytes, beValue_natBytes]
    exact hij

/-- For every length up to `2^64`, each key parts to the left of every later one. -/
theorem deriveShaKeys_pairwise {n : ℕ} (hn : n ≤ 2 ^ 64) :
    ((deriveShaIndices n).map indexKey).Pairwise LeftOf :=
  List.pairwise_map.mpr ((deriveShaIndices_rank n).imp_of_mem fun hi hj h =>
    leftOf_indexKey ((mem_deriveShaIndices.mp hi).trans_le hn)
      ((mem_deriveShaIndices.mp hj).trans_le hn) h)

end Keys

section Hash

variable (keccak256 : Bytes → Hash)

/-- With the stack trie as the hasher, `DeriveSha` gives the trie's root hash when no item
encodes to nothing: the keys come in the order the stack trie needs. -/
theorem deriveSha_stackTrie_eq (list : DerivableList) (hlen : list.len ≤ 2 ^ 64)
    (hne : ∀ i < list.len, list.encodeIndex i ≠ []) (st : StackTrie) (t : Trie) :
    deriveSha list (stackTrieHasher keccak256) st = deriveSha list (trieHasher keccak256) t := by
  -- the updates as key and value pairs, the form the refinement takes them in
  set kvs := (deriveShaIndices list.len).map fun i => (indexKey i, list.encodeIndex i) with hkvs
  have hv : ∀ kv ∈ kvs, kv.2 ≠ [] := by
    simp only [hkvs, List.mem_map]
    rintro _ ⟨i, hi, rfl⟩
    exact hne i (mem_deriveShaIndices.mp hi)
  have hord : (kvs.map Prod.fst).IsChain LeftOf := by
    rw [hkvs, List.map_map]
    exact (deriveShaKeys_pairwise hlen).isChain
  obtain ⟨st', hst', hhash⟩ := @StackTrie.foldlM_tryUpdate_empty keccak256 _ hv hord
  rw [List.foldlM_map] at hst'
  rw [List.foldl_map] at hhash
  simp only [deriveSha, stackTrieHasher, trieHasher, hst', ← Option.pure_def, List.foldlM_pure]
  exact hhash.symm

/-- The keys of `DeriveSha` for every length up to `2^64` are strictly increasing and
prefix-free, its indices are those below the length, each once, and with the stack trie as the
hasher it gives the trie's root hash for every list none of whose items encodes to nothing. -/
theorem deriveSha_keys_ordered_stackTrie_eq :
    (∀ n ≤ 2 ^ 64, ((deriveShaIndices n).map indexKey).Pairwise
        (fun a b => a < b ∧ ¬ a <+: b ∧ ¬ b <+: a) ∧ (deriveShaIndices n).Perm (List.range n)) ∧
      ∀ list : DerivableList, list.len ≤ 2 ^ 64 → (∀ i < list.len, list.encodeIndex i ≠ []) →
        ∀ st t, deriveSha list (stackTrieHasher keccak256) st =
          deriveSha list (trieHasher keccak256) t :=
  ⟨fun _ hn => ⟨(deriveShaKeys_pairwise hn).imp LeftOf.lt_not_prefix, deriveShaIndices_perm _⟩,
    fun list hlen hne => deriveSha_stackTrie_eq keccak256 list hlen hne⟩

-- three items, all of them encoding to some bytes
example (st : StackTrie) (t : Trie) :
    deriveSha ⟨3, fun _ => [1]⟩ (stackTrieHasher keccak256) st =
      deriveSha ⟨3, fun _ => [1]⟩ (trieHasher keccak256) t :=
  (deriveSha_keys_ordered_stackTrie_eq keccak256).2 ⟨3, fun _ => [1]⟩ (by norm_num) (by simp) st t

/-- A receipt of a type `EncodeIndex` does not know: the stack trie panics on its empty value,
where the trie deletes the key and hashes to the empty root. -/
theorem deriveSha_stackTrie_unknown_receipt_type (data : Bytes) (st : StackTrie) (t : Trie) :
    deriveSha (receipts [(3, data)]) (stackTrieHasher keccak256) st = none ∧
      deriveSha (receipts [(3, data)]) (trieHasher keccak256) t = some emptyRoot := by
  have hidx : deriveShaIndices 1 = [0] := rfl
  have henc : receiptEncodeIndex 3 data = [] := by
    simp [receiptEncodeIndex, legacyTxType, accessListTxType, dynamicFeeTxType]
  constructor
  · simp [deriveSha, receipts, hidx, henc, stackTrieHasher, StackTrie.tryUpdate]
  · simp [deriveSha, receipts, hidx, henc, trieHasher, Trie.tryUpdate, Trie.empty, Node.delete,
      Trie.hash]

end Hash

end Classzz.Types
