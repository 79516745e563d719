import Mathlib.Data.Nat.Digits.Lemmas

/-!
# Recursive length prefix

The RLP encoding of byte strings and lists of items. A string of one byte
below `0x80` stands for itself. Any other string, and every list, is its
payload after a header giving the payload's length: one byte below 56, and
otherwise the big-endian bytes of the length after a byte that counts them.
An unsigned integer is the string of its big-endian bytes without leading
zeros; reading them back (`beValue`) inverts that on bytes with no leading
zero (`natBytes_beValue`).

The encoding is self-delimiting: from an encoding followed by anything, the
item and the rest are determined (`encode_append_inj`). So encoding is
injective on items whose lengths fit in 64 bits, which is all the header
bytes can count.
-/

namespace Rlp

/-- An RLP item: a byte string, or a list of items. -/
inductive Item where
  | bytes (b : List UInt8)
  | list (items : List Item)

/-- The big-endian bytes of `n` with no leading zero; none for zero. -/
def natBytes (n : ℕ) : List UInt8 :=
  ((Nat.digits 256 n).map UInt8.ofNat).reverse

/-- The header of a payload of length `len`, after the string offset `0x80`
or the list offset `0xc0`. -/
def header (offset len : ℕ) : List UInt8 :=
  if len < 56 then [UInt8.ofNat (offset + len)]
  else UInt8.ofNat (offset + 55 + (natBytes len).length) :: natBytes len

/-- A byte string: one byte below `0x80` as it is, any other after its
header. -/
def encodeBytes (b : List UInt8) : List UInt8 :=
  match b with
  | [x] => if x.toNat < 128 then [x] else header 128 1 ++ [x]
  | _ => header 128 b.length ++ b

mutual
/-- The encoding of an item. -/
def encode : Item → List UInt8
  | .bytes b => encodeBytes b
  | .list items => header 192 (encodeList items).length ++ encodeList items

/-- The payload of a list: its items' encodings one after another. -/
def encodeList : List Item → List UInt8
  | [] => []
  | i :: items => encode i ++ encodeList items
end

/-- An unsigned integer, as a `uint64` or a non-negative `*big.Int` is
encoded. -/
def Item.nat (n : ℕ) : Item :=
  .bytes (natBytes n)

mutual
/-- Every length in the item fits in 64 bits. -/
def Item.Sized : Item → Prop
  | .bytes b => b.length < 2 ^ 64
  | .list items => (encodeList items).length < 2 ^ 64 ∧ Item.SizedList items

/-- Every item of the list is sized. -/
def Item.SizedList : List Item → Prop
  | [] => True
  | i :: items => i.Sized ∧ Item.SizedList items
end

section NatBytes

theorem reverse_natBytes (n : ℕ) :
    (natBytes n).reverse.map UInt8.toNat = Nat.digits 256 n := by
  rw [natBytes, List.reverse_reverse, List.map_map]
  -- every digit is below the base, so the byte keeps it
  conv_rhs => rw [← List.map_id (Nat.digits 256 n)]
  refine List.map_congr_left fun d hd => ?_
  have hd256 : d < 256 := Nat.digits_lt_base (by norm_num) hd
  simp [UInt8.toNat_ofNat', Nat.mod_eq_of_lt hd256]

theorem natBytes_injective : Function.Injective natBytes := by
  intro m n h
  apply Nat.digits.injective 256
  rw [← reverse_natBytes, ← reverse_natBytes, h]

theorem length_natBytes (n : ℕ) : (natBytes n).length = (Nat.digits 256 n).length := by
  simp [natBytes]

theorem length_natBytes_le {n : ℕ} (hn : n < 2 ^ 64) : (natBytes n).length ≤ 8 := by
  rw [length_natBytes, Nat.digits_length_le_iff (by norm_num)]
  calc n < 2 ^ 64 := hn
    _ = 256 ^ 8 := by norm_num

theorem length_natBytes_pos {n : ℕ} (hn : n ≠ 0) : 0 < (natBytes n).length := by
  rw [length_natBytes, List.length_pos_iff]
  exact Nat.digits_ne_nil_iff_ne_zero.mpr hn

/-- The number whose big-endian bytes are `bs`. -/
def beValue (bs : List UInt8) : ℕ :=
  bs.foldl (fun acc b => 256 * acc + b.toNat) 0

theorem beValue_eq_ofDigits (bs : List UInt8) :
    beValue bs = Nat.ofDigits 256 (bs.reverse.map UInt8.toNat) := by
  have hfold : ∀ l : List UInt8,
      l.foldr (fun b acc => 256 * acc + b.toNat) 0 = Nat.ofDigits 256 (l.map UInt8.toNat) := by
    intro l
    induction l with
    | nil => rfl
    | cons b l ih =>
        rw [List.foldr_cons, ih, List.map_cons, Nat.ofDigits_cons]
        ring
  rw [beValue, ← List.reverse_reverse bs, List.foldl_reverse, List.reverse_reverse, hfold]

theorem beValue_natBytes (n : ℕ) : beValue (natBytes n) = n := by
  rw [beValue_eq_ofDigits, reverse_natBytes, Nat.ofDigits_digits]

theorem beValue_lt (bs : List UInt8) : beValue bs < 256 ^ bs.length := by
  rw [beValue_eq_ofDigits]
  calc _ < 256 ^ (bs.reverse.map UInt8.toNat).length :=
        Nat.ofDigits_lt_base_pow_length (by norm_num) (by simpa using fun a _ => UInt8.toNat_lt_size a)
    _ = 256 ^ bs.length := by simp

theorem natBytes_beValue {bs : List UInt8} (h : bs.head? ≠ some 0) :
    natBytes (beValue bs) = bs := by
  have hdigits : Nat.digits 256 (beValue bs) = bs.reverse.map UInt8.toNat := by
    rw [beValue_eq_ofDigits]
    apply Nat.digits_ofDigits 256 (by norm_num)
    · simpa using fun a _ => UInt8.toNat_lt_size a
    · -- the last digit is the first byte, which is not zero
      intro hne
      cases bs with
      | nil => simp at hne
      | cons b bs =>
          have hb : b ≠ 0 := fun hb => h (by simp [hb])
          simpa [List.getLast_map, ← UInt8.toNat_inj] using hb
  rw [natBytes, hdigits, List.map_map, List.map_reverse, List.reverse_reverse]
  conv_rhs => rw [← List.map_id bs]
  exact List.map_congr_left fun b _ => by simp

/-- The bytes of a positive number: those of its quotient by 256, then its
last digit. -/
theorem natBytes_of_pos {n : ℕ} (h : 0 < n) :
    natBytes n = natBytes (n / 256) ++ [UInt8.ofNat (n % 256)] := by
  rw [natBytes, Nat.digits_def' (by norm_num) h]
  simp [natBytes]

/-- The first of the bytes of a number is not zero. -/
theorem natBytes_head?_ne_zero (n : ℕ) : (natBytes n).head? ≠ some 0 := by
  rw [natBytes, List.head?_reverse, List.getLast?_map]
  cases hlast : (Nat.digits 256 n).getLast? with
  | none => simp
  | some d =>
      -- the first byte is the last digit, which is a nonzero digit
      have hd : d ∈ Nat.digits 256 n := List.mem_of_getLast? hlast
      have hn : n ≠ 0 := by rintro rfl; simp at hd
      have hne : d ≠ 0 := by
        rw [List.getLast?_eq_some_getLast (Nat.digits_ne_nil_iff_ne_zero.mpr hn)] at hlast
        cases hlast
        exact Nat.getLast_digit_ne_zero 256 hn
      have hlt : d < 256 := Nat.digits_lt_base (by norm_num) hd
      simp only [Option.map_some, ne_eq, Option.some.injEq]
      intro h0
      apply hne
      have := congrArg UInt8.toNat h0
      simpa [UInt8.toNat_ofNat', Nat.mod_eq_of_lt hlt] using this

end NatBytes

section Header

variable {offset : ℕ}

/-- The first byte of a header lies in the 64 values above its offset. -/
theorem header_head (ho : offset + 64 ≤ 256) {len : ℕ} (hlen : len < 2 ^ 64) :
    ∃ x rest, header offset len = x :: rest ∧ offset ≤ x.toNat ∧ x.toNat < offset + 64 := by
  unfold header
  split_ifs with hshort
  · refine ⟨_, [], rfl, ?_⟩
    rw [UInt8.toNat_ofNat', Nat.mod_eq_of_lt (by omega)]
    omega
  · have hk := length_natBytes_le hlen
    refine ⟨_, _, rfl, ?_⟩
    rw [UInt8.toNat_ofNat', Nat.mod_eq_of_lt (by omega)]
    omega

/-- A size below `2 ^ 64` is short as a `uint64` exactly when it is short. -/
theorem ofNat_lt_56_iff {n : ℕ} (hn : n < 2 ^ 64) : UInt64.ofNat n < 56 ↔ n < 56 := by
  rw [UInt64.lt_iff_toNat_lt, UInt64.toNat_ofNat_of_lt' hn]
  rfl

/-- A header followed by anything determines its length and the rest. -/
theorem header_append_inj (ho : offset + 64 ≤ 256) {len len' : ℕ} {r r' : List UInt8}
    (hlen : len < 2 ^ 64) (hlen' : len' < 2 ^ 64)
    (h : header offset len ++ r = header offset len' ++ r') : len = len' ∧ r = r' := by
  have hk := length_natBytes_le hlen
  have hk' := length_natBytes_le hlen'
  unfold header at h
  split_ifs at h with hs hs' hs'
  · -- two short headers: the byte is the length
    simp only [List.singleton_append, List.cons.injEq, ← UInt8.toNat_inj,
      UInt8.toNat_ofNat'] at h
    rw [Nat.mod_eq_of_lt (by omega), Nat.mod_eq_of_lt (by omega)] at h
    exact ⟨by omega, h.2⟩
  · -- a short and a long header start differently
    have hpos : 0 < (natBytes len').length := length_natBytes_pos (by omega)
    simp only [List.cons_append, List.cons.injEq, ← UInt8.toNat_inj,
      UInt8.toNat_ofNat'] at h
    rw [Nat.mod_eq_of_lt (by omega), Nat.mod_eq_of_lt (by omega)] at h
    omega
  · have hpos : 0 < (natBytes len).length := length_natBytes_pos (by omega)
    simp only [List.cons_append, List.cons.injEq, ← UInt8.toNat_inj,
      UInt8.toNat_ofNat'] at h
    rw [Nat.mod_eq_of_lt (by omega), Nat.mod_eq_of_lt (by omega)] at h
    omega
  · -- two long headers: the first byte counts the length's bytes
    simp only [List.cons_append, List.cons.injEq, ← UInt8.toNat_inj, UInt8.toNat_ofNat'] at h
    obtain ⟨hbyte, hrest⟩ := h
    rw [Nat.mod_eq_of_lt (by omega), Nat.mod_eq_of_lt (by omega)] at hbyte
    have hlens : (natBytes len).length = (natBytes len').length := by omega
    obtain ⟨hbytes, hr⟩ := List.append_inj hrest hlens
    exact ⟨natBytes_injective hbytes, hr⟩

end Header

section Encode

/-- A string is one small byte standing for itself, or its payload after a
string header. -/
theorem encodeBytes_cases (b : List UInt8) :
    (∃ x, b = [x] ∧ x.toNat < 128 ∧ encodeBytes b = [x]) ∨
      encodeBytes b = header 128 b.length ++ b := by
  unfold encodeBytes
  split
  · rename_i x
    split_ifs with hx
    · exact .inl ⟨x, rfl, hx, rfl⟩
    · exact .inr rfl
  · exact .inr rfl

/-- A string's encoding starts below `0xc0`, where lists start. -/
theorem encodeBytes_head {b : List UInt8} (hb : b.length < 2 ^ 64) :
    ∃ x rest, encodeBytes b = x :: rest ∧ x.toNat < 192 := by
  rcases encodeBytes_cases b with ⟨x, -, hx, he⟩ | he
  · exact ⟨x, [], he, by omega⟩
  · obtain ⟨x, rest, hh, -, hx⟩ := header_head (show 128 + 64 ≤ 256 by norm_num) hb
    exact ⟨x, rest ++ b, by rw [he, hh, List.cons_append], by omega⟩

theorem encodeBytes_append_inj {b b' r r' : List UInt8} (hb : b.length < 2 ^ 64)
    (hb' : b'.length < 2 ^ 64) (h : encodeBytes b ++ r = encodeBytes b' ++ r') :
    b = b' ∧ r = r' := by
  rcases encodeBytes_cases b with ⟨x, rfl, hx, he⟩ | he <;>
    rcases encodeBytes_cases b' with ⟨x', rfl, hx', he'⟩ | he' <;> rw [he, he'] at h
  · simp only [List.singleton_append, List.cons.injEq] at h
    exact ⟨by rw [h.1], h.2⟩
  · -- a small byte against a header, which starts at `0x80`
    obtain ⟨y, rest, hy, hlo, -⟩ := header_head (show 128 + 64 ≤ 256 by norm_num) hb'
    rw [hy] at h
    simp only [List.cons_append, List.cons.injEq] at h
    rw [h.1] at hx
    omega
  · obtain ⟨y, rest, hy, hlo, -⟩ := header_head (show 128 + 64 ≤ 256 by norm_num) hb
    rw [hy] at h
    simp only [List.cons_append, List.cons.injEq] at h
    rw [← h.1] at hx'
    omega
  · rw [List.append_assoc, List.append_assoc] at h
    obtain ⟨hlen, hrest⟩ := header_append_inj (by norm_num) hb hb' h
    exact List.append_inj hrest hlen

/-- A list's encoding starts at `0xc0` or above. -/
theorem encode_list_head {items : List Item} (h : (encodeList items).length < 2 ^ 64) :
    ∃ x rest, encode (.list items) = x :: rest ∧ 192 ≤ x.toNat := by
  obtain ⟨x, rest, hh, hx, -⟩ := header_head (show 192 + 64 ≤ 256 by norm_num) h
  exact ⟨x, rest ++ encodeList items, by rw [encode, hh, List.cons_append], hx⟩

theorem encode_ne_nil {i : Item} (hi : i.Sized) : encode i ≠ [] := by
  cases i with
  | bytes b =>
      obtain ⟨x, rest, he, -⟩ := encodeBytes_head (b := b) hi
      simp [encode, he]
  | list items =>
      obtain ⟨x, rest, he, -⟩ := encode_list_head (show (encodeList items).length < 2 ^ 64 from hi.1)
      simp [he]

/-- A string and a list never share a first byte. -/
theorem encode_bytes_ne_list {b : List UInt8} {items : List Item} (r r' : List UInt8)
    (hb : b.length < 2 ^ 64) (hl : (encodeList items).length < 2 ^ 64) :
    encode (.bytes b) ++ r ≠ encode (.list items) ++ r' := by
  obtain ⟨x, rest, hx, hxlt⟩ := encodeBytes_head hb
  obtain ⟨y, rest', hy, hyge⟩ := encode_list_head hl
  rw [encode, hx, hy]
  intro h
  simp only [List.cons_append, List.cons.injEq] at h
  rw [h.1] at hxlt
  omega

mutual
/-- An encoding followed by anything determines the item and the rest. -/
theorem encode_append_inj :
    ∀ (i j : Item) (r r' : List UInt8), i.Sized → j.Sized →
      encode i ++ r = encode j ++ r' → i = j ∧ r = r'
  | .bytes b, .bytes b', r, r', hi, hj, h => by
      obtain ⟨rfl, hr⟩ := encodeBytes_append_inj hi hj h
      exact ⟨rfl, hr⟩
  | .bytes b, .list js, r, r', hi, hj, h => absurd h (encode_bytes_ne_list r r' hi hj.1)
  | .list is, .bytes b', r, r', hi, hj, h => absurd h.symm (encode_bytes_ne_list r' r hj hi.1)
  | .list is, .list js, r, r', hi, hj, h => by
      simp only [encode, List.append_assoc] at h
      obtain ⟨hlen, hrest⟩ := header_append_inj (by norm_num) hi.1 hj.1 h
      obtain ⟨hpayload, hr⟩ := List.append_inj hrest hlen
      exact ⟨congrArg Item.list (encodeList_inj is js hi.2 hj.2 hpayload), hr⟩

/-- A list's payload determines its items. -/
theorem encodeList_inj :
    ∀ (is js : List Item), Item.SizedList is → Item.SizedList js →
      encodeList is = encodeList js → is = js
  | [], [], _, _, _ => rfl
  | [], j :: js, _, hj, h => absurd (List.append_eq_nil_iff.mp h.symm).1 (encode_ne_nil hj.1)
  | i :: is, [], hi, _, h => absurd (List.append_eq_nil_iff.mp h).1 (encode_ne_nil hi.1)
  | i :: is, j :: js, hi, hj, h => by
      obtain ⟨rfl, hrest⟩ := encode_append_inj i j _ _ hi.1 hj.1 h
      rw [encodeList_inj is js hi.2 hj.2 hrest]
end

/-- Encoding is injective on sized items. -/
theorem encode_injective {i j : Item} (hi : i.Sized) (hj : j.Sized)
    (h : encode i = encode j) : i = j :=
  (encode_append_inj i j [] [] hi hj (by rw [h])).1

end Encode

section Length

variable {offset : ℕ}

theorem length_header_le {len : ℕ} (hlen : len < 2 ^ 64) : (header offset len).length ≤ 9 := by
  have hk := length_natBytes_le hlen
  unfold header
  split_ifs
  · simp
  · simp only [List.length_cons]
    omega

theorem length_encodeBytes_le {b : List UInt8} (hb : b.length < 2 ^ 64) :
    (encodeBytes b).length ≤ b.length + 9 := by
  rcases encodeBytes_cases b with ⟨x, rfl, -, he⟩ | he
  · simp [he]
  · have hh : (header 128 b.length).length ≤ 9 := length_header_le hb
    rw [he, List.length_append]
    omega

theorem length_encodeList_bytes_le {bs : List (List UInt8)}
    (hb : ∀ b ∈ bs, b.length < 2 ^ 32) :
    (encodeList (bs.map .bytes)).length ≤ bs.length * (2 ^ 32 + 9) := by
  induction bs with
  | nil => simp [encodeList]
  | cons b bs ih =>
      have hb0 := hb b (by simp)
      have hitem := length_encodeBytes_le (b := b) (hb0.trans (by norm_num))
      have hrest := ih fun b' hb' => hb b' (by simp [hb'])
      simp only [List.map_cons, encodeList, encode, List.length_append, List.length_cons]
      rw [Nat.succ_mul]
      omega

theorem sizedList_map_bytes {bs : List (List UInt8)} (hb : ∀ b ∈ bs, b.length < 2 ^ 64) :
    Item.SizedList (bs.map .bytes) := by
  induction bs with
  | nil => trivial
  | cons b bs ih =>
      exact ⟨hb b (by simp), ih fun b' hb' => hb b' (by simp [hb'])⟩

/-- A list of fewer than `2 ^ 16` strings, each shorter than `2 ^ 32` bytes,
is sized: its payload is far below `2 ^ 64` bytes. -/
theorem sized_list_bytes {bs : List (List UInt8)} (hb : ∀ b ∈ bs, b.length < 2 ^ 32)
    (hn : bs.length < 2 ^ 16) : (Item.list (bs.map .bytes)).Sized := by
  refine ⟨?_, sizedList_map_bytes fun b h => (hb b h).trans (by norm_num)⟩
  calc _ ≤ bs.length * (2 ^ 32 + 9) := length_encodeList_bytes_le hb
    _ < 2 ^ 64 := by omega

theorem length_header_pos (offset len : ℕ) : 0 < (header offset len).length := by
  unfold header
  split_ifs <;> simp

theorem length_encode_pos (i : Item) : 0 < (encode i).length := by
  cases i with
  | bytes b =>
      rcases encodeBytes_cases b with ⟨x, rfl, -, he⟩ | he
      · simp [encode, he]
      · have := length_header_pos 128 b.length
        simp only [encode, he, List.length_append]
        omega
  | list items =>
      have := length_header_pos 192 (encodeList items).length
      simp only [encode, List.length_append]
      omega

/-- Every item takes a byte at least. -/
theorem length_le_length_encodeList (items : List Item) :
    items.length ≤ (encodeList items).length := by
  induction items with
  | nil => simp
  | cons i items ih =>
      have := length_encode_pos i
      simp only [encodeList, List.length_append, List.length_cons]
      omega

mutual
/-- An item whose encoding fits in 64 bits has all its lengths fit. -/
theorem sized_of_length_lt : ∀ t : Item, (encode t).length < 2 ^ 64 → t.Sized
  | .bytes b, h => by
      have hle : b.length ≤ (encodeBytes b).length := by
        rcases encodeBytes_cases b with ⟨x, rfl, -, he⟩ | he <;> simp [he]
      exact lt_of_le_of_lt hle h
  | .list items, h => by
      have hle : (encodeList items).length ≤ (encode (.list items)).length := by simp [encode]
      exact ⟨lt_of_le_of_lt hle h, sizedList_of_length_lt items (lt_of_le_of_lt hle h)⟩

theorem sizedList_of_length_lt : ∀ items : List Item,
    (encodeList items).length < 2 ^ 64 → Item.SizedList items
  | [], _ => trivial
  | i :: items, h => by
      rw [encodeList, List.length_append] at h
      exact ⟨sized_of_length_lt i (by omega), sizedList_of_length_lt items (by omega)⟩
end

/-- A string wrapped in a header is not a single byte below `0x80`. -/
theorem encodeBytes_of_canonical {b : List UInt8} (h : ¬ (b.length = 1 ∧ b.headD 0 < 128)) :
    encodeBytes b = header 128 b.length ++ b := by
  rcases encodeBytes_cases b with ⟨x, rfl, hx, -⟩ | he
  · exact absurd ⟨rfl, UInt8.lt_iff_toNat_lt.mpr (by simpa using hx)⟩ h
  · exact he

/-- A string after its header is one a header was needed for. -/
theorem canonical_of_encodeBytes {b : List UInt8} (he : encodeBytes b = header 128 b.length ++ b) :
    ¬ (b.length = 1 ∧ b.headD 0 < 128) := by
  rintro ⟨h1, h2⟩
  obtain ⟨x, rfl⟩ := List.length_eq_one_iff.mp h1
  have hx : x.toNat < 128 := by simpa [UInt8.lt_iff_toNat_lt] using h2
  simp [encodeBytes, hx, header] at he

end Length

end Rlp
