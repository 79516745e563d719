import Classzz.Trie.Hasher

/-!
# Key encodings

The three forms of a trie key in `trie/encoding.go`: key bytes, hex form (`keybytesToHex`, one
nibble per half byte and the terminator `16`) and compact form (`hexToCompact`, a flag byte and
the nibbles two to a byte). `compactToHex` and `hexToKeybytes` go back.

`compactToHex` undoes `hexToCompact` on every key whose nibbles are below `16`, with or without
the terminator (`compactToHex_hexToCompact`), and it reads every byte string without a slice out
of range, whatever its flag nibble (`compactToHex_isSome`). `hexToKeybytes` undoes
`keybytesToHex` (`hexToKeybytes_keybytesToHex`).

`hexToCompactInPlace` writes the compact form over the hex key it reads. Its loop writes the
byte of the nibbles at `ni` and `ni + 1` at `bi`, with `bi ≤ ni + 1`: a byte is written after
the nibbles at its place were read, and before none that is still to be read
(`compactLoop_spec`). So the prefix it reports holds `hexToCompact` of the key
(`hexToCompactInPlace_spec`).
-/

namespace Classzz.Trie

section Nibbles

/-- A nibble as the byte that holds it in a Go `[]byte` key. -/
def nibbleByte (n : Nibble) : UInt8 :=
  UInt8.ofNat n.val

/-- Two nibbles below `16` in one byte come apart again. -/
theorem byteNibbles_pair : ∀ a b : Nibble, a.val < 16 → b.val < 16 →
    byteNibbles (nibbleByte a <<< 4 ||| nibbleByte b) = [a, b] := by
  decide

/-- The high and the low nibble of a byte make it up again. -/
theorem pair_byteNibbles (b : UInt8) :
    UInt8.ofNat (b.toNat / 16) <<< 4 ||| UInt8.ofNat (b.toNat % 16) = b := by
  have hb := b.toNat_lt
  have hq : (UInt8.ofNat (b.toNat / 16)).toNat = b.toNat / 16 := by
    rw [UInt8.toNat_ofNat']
    omega
  have hr : (UInt8.ofNat (b.toNat % 16)).toNat = b.toNat % 16 := by
    rw [UInt8.toNat_ofNat']
    omega
  have h4 : (4 : UInt8).toNat % 8 = 4 := rfl
  -- the high nibble shifted stays within the byte, and the low nibble fills the bits below it
  have hhigh : (b.toNat / 16) <<< 4 % 2 ^ 8 = (b.toNat / 16) <<< 4 := by
    rw [Nat.shiftLeft_eq]
    omega
  rw [← UInt8.toNat_inj, UInt8.toNat_or, UInt8.toNat_shiftLeft, hq, hr, h4, hhigh,
    ← Nat.shiftLeft_add_eq_or_of_lt (by omega), Nat.shiftLeft_eq]
  omega

/-- The nibbles of the bytes `decodeNibbles` makes are the nibbles it was given. -/
theorem flatMap_byteNibbles_decodeNibbles :
    ∀ hex : List Nibble, (∀ n ∈ hex, n.val < 16) → hex.length % 2 = 0 →
      (decodeNibbles hex).flatMap byteNibbles = hex
  | [], _, _ => rfl
  | [_], _, h => by simp at h
  | a :: b :: rest, hlt, hlen => by
      have hrest := flatMap_byteNibbles_decodeNibbles rest
        (fun n hn => hlt n (List.mem_cons_of_mem _ (List.mem_cons_of_mem _ hn)))
        (by simp only [List.length_cons] at hlen; omega)
      rw [decodeNibbles, List.flatMap_cons, hrest]
      have hab := byteNibbles_pair a b (hlt a List.mem_cons_self)
        (hlt b (List.mem_cons_of_mem _ List.mem_cons_self))
      rw [nibbleByte, nibbleByte] at hab
      rw [hab]
      rfl

theorem decodeNibbles_flatMap_byteNibbles (str : List UInt8) :
    decodeNibbles (str.flatMap byteNibbles) = str := by
  induction str with
  | nil => rfl
  | cons b rest ih =>
      rw [List.flatMap_cons, byteNibbles, List.cons_append, List.cons_append, List.nil_append,
        decodeNibbles, ih, pair_byteNibbles]

theorem length_decodeNibbles (hex : List Nibble) : (decodeNibbles hex).length = hex.length / 2 := by
  induction hex using decodeNibbles.induct with
  | case1 a b rest ih =>
      rw [decodeNibbles, List.length_cons, ih, List.length_cons, List.length_cons]
      omega
  | case2 hex hne =>
      rcases hex with _ | ⟨a, _ | ⟨b, rest⟩⟩
      · rfl
      · simp [decodeNibbles]
      · exact absurd rfl (hne a b rest)

theorem length_flatMap_byteNibbles (str : List UInt8) :
    (str.flatMap byteNibbles).length = 2 * str.length := by
  induction str with
  | nil => rfl
  | cons b rest ih =>
      rw [List.flatMap_cons, List.length_append, ih]
      simp [byteNibbles]
      omega

end Nibbles

section Keybytes

/-- `hexToKeybytes`: the bytes of a key in hex form, which must have an even number of nibbles
before the terminator. -/
def hexToKeybytes (hex : List Nibble) : Option (List UInt8) :=
  let hex := if hasTerm hex then hex.dropLast else hex
  if hex.length % 2 ≠ 0 then none
  else some (decodeNibbles hex)

theorem hasTerm_append_term (hex : List Nibble) : hasTerm (hex ++ [16]) = true := by
  simp [hasTerm]

theorem hasTerm_of_lt {hex : List Nibble} (h : ∀ n ∈ hex, n.val < 16) : hasTerm hex = false := by
  cases hl : hex.getLast? with
  | none => simp [hasTerm, hl]
  | some n =>
      have hn := h n (List.mem_of_getLast? hl)
      have hne : n ≠ 16 := fun he => by rw [he] at hn; exact absurd hn (by decide)
      simp [hasTerm, hl, hne]

theorem hexToKeybytes_keybytesToHex (str : List UInt8) :
    hexToKeybytes (keybytesToHex str) = some str := by
  have hlen := length_flatMap_byteNibbles str
  simp only [hexToKeybytes, keybytesToHex, hasTerm_append_term, if_true, List.dropLast_concat]
  rw [if_neg (by omega), decodeNibbles_flatMap_byteNibbles]

end Keybytes

section CompactToHex

/-- `compactToHex`: the nibbles of the compact bytes; flag `0` or `1` in the high nibble of the
first byte drops the terminator, and the odd bit keeps the low nibble of the first byte. Go's
slice expressions panic out of range: that is `none`. -/
def compactToHex (compact : List UInt8) : Option (List Nibble) :=
  if compact.length = 0 then some []
  else do
    let base := keybytesToHex compact
    let flag ← base[0]?
    -- delete terminator flag
    let base ← if flag.val < 2 then
        if 1 ≤ base.length then some (base.take (base.length - 1)) else none
      else some base
    -- apply odd flag
    let first ← base[0]?
    let chop := 2 - (first.val &&& 1)
    if chop ≤ base.length then some (base.drop chop) else none

/-- The hex form of a non-empty byte string starts with the two nibbles of its first byte and
has both after them. -/
theorem keybytesToHex_cons (b : UInt8) (rest : List UInt8) :
    keybytesToHex (b :: rest) =
      ⟨b.toNat / 16, highNibble_lt b⟩ :: ⟨b.toNat % 16, lowNibble_lt b⟩ ::
        (rest.flatMap byteNibbles ++ [16]) := by
  rw [keybytesToHex, List.flatMap_cons, byteNibbles]
  rfl

/-- `compactToHex` read off the nibbles of its input: those of the first byte, those of the rest
and the terminator. -/
theorem compactToHex_eq {compact : List UInt8} {x y : Nibble} {rest : List Nibble}
    (h : keybytesToHex compact = x :: y :: (rest ++ [16])) :
    compactToHex compact =
      some ((if x.val < 2 then x :: y :: rest else x :: y :: (rest ++ [16])).drop
        (2 - (x.val &&& 1))) := by
  have hchop := Nat.sub_le 2 (x.val &&& 1)
  have hne : compact.length ≠ 0 := by
    rintro hl
    rw [List.length_eq_zero_iff.mp hl] at h
    simp [keybytesToHex] at h
  rw [compactToHex, if_neg hne, h]
  simp only [List.getElem?_cons_zero, Option.bind_eq_bind, Option.bind_some]
  by_cases hflag : x.val < 2
  · -- the terminator goes, and the two nibbles of the first byte stay
    rw [if_pos hflag, if_pos (by simp), ← List.dropLast_eq_take, List.dropLast_cons_cons,
      ← List.cons_append, List.dropLast_concat]
    simp only [List.getElem?_cons_zero, Option.bind_some, List.length_cons]
    rw [if_pos (by omega), if_pos hflag]
  · rw [if_neg hflag]
    simp only [List.length_cons, List.length_append]
    rw [if_pos (by omega), if_neg hflag]

/-- Whatever its flag nibble, `compactToHex` reads a byte string within its slices. -/
theorem compactToHex_isSome (compact : List UInt8) : (compactToHex compact).isSome := by
  rcases compact with _ | ⟨b, rest⟩
  · rfl
  · rw [compactToHex_eq (keybytesToHex_cons b rest)]
    rfl

end CompactToHex

section RoundTrip

/-- The flag byte of a key with an odd number of nibbles, with and without the terminator. -/
theorem byteNibbles_odd_flag : ∀ (term : Bool) (n : Nibble), n.val < 16 →
    byteNibbles ((if term then (1 : UInt8) else 0) <<< 5 ||| (1 : UInt8) <<< 4 ||| UInt8.ofNat n.val) =
      [if term then 3 else 1, n] := by
  decide

/-- The flag byte of a key with an even number of nibbles. -/
theorem byteNibbles_even_flag (term : Bool) :
    byteNibbles ((if term then (1 : UInt8) else 0) <<< 5) = [if term then 2 else 0, 0] := by
  cases term <;> decide

variable {body : List Nibble}

/-- `hexToCompact` of a body of nibbles, with the terminator when `term`. -/
theorem hexToCompact_body (hbody : ∀ n ∈ body, n.val < 16) (term : Bool) :
    hexToCompact (if term then body ++ [16] else body) =
      if body.length % 2 = 1 then
        ((if term then (1 : UInt8) else 0) <<< 5 ||| (1 : UInt8) <<< 4 ||| UInt8.ofNat (body.headD 0).val) ::
          decodeNibbles body.tail
      else ((if term then (1 : UInt8) else 0) <<< 5) :: decodeNibbles body := by
  have hterm : hasTerm (if term then body ++ [16] else body) = term := by
    cases term
    · exact hasTerm_of_lt hbody
    · exact hasTerm_append_term body
  have hdrop : (if hasTerm (if term then body ++ [16] else body) then
      (if term then body ++ [16] else body).dropLast else (if term then body ++ [16] else body)) =
        body := by
    rw [hterm]
    cases term
    · rfl
    · exact List.dropLast_concat
  rw [hexToCompact, hdrop, hterm]

/-- `compactToHex` undoes `hexToCompact` on a body of nibbles below `16`, with or without the
terminator. -/
theorem compactToHex_hexToCompact (hbody : ∀ n ∈ body, n.val < 16) (term : Bool) :
    compactToHex (hexToCompact (if term then body ++ [16] else body)) =
      some (if term then body ++ [16] else body) := by
  rw [hexToCompact_body hbody term]
  by_cases hodd : body.length % 2 = 1
  · -- an odd body: its first nibble rides in the flag byte
    have hne : body ≠ [] := List.ne_nil_of_length_pos (by omega)
    obtain ⟨n, rest, rfl⟩ := List.exists_cons_of_ne_nil hne
    have hn : n.val < 16 := hbody n List.mem_cons_self
    have hrest : ∀ m ∈ rest, m.val < 16 := fun m hm => hbody m (List.mem_cons_of_mem _ hm)
    have heven : rest.length % 2 = 0 := by simp only [List.length_cons] at hodd; omega
    have hkey : keybytesToHex (((if term then (1 : UInt8) else 0) <<< 5 ||| (1 : UInt8) <<< 4 |||
        UInt8.ofNat n.val) :: decodeNibbles rest) = (if term then 3 else 1) :: n :: (rest ++ [16]) := by
      rw [keybytesToHex, List.flatMap_cons, byteNibbles_odd_flag term n hn,
        flatMap_byteNibbles_decodeNibbles rest hrest heven]
      rfl
    rw [if_pos hodd, List.headD_cons, List.tail_cons, compactToHex_eq hkey]
    cases term <;> rfl
  · -- an even body: the flag byte holds no nibble of it
    have heven : body.length % 2 = 0 := by omega
    rcases body with _ | ⟨n, rest⟩
    · rw [if_neg hodd]
      cases term <;> rfl
    · have hkey : keybytesToHex (((if term then (1 : UInt8) else 0) <<< 5) :: decodeNibbles (n :: rest)) =
          (if term then 2 else 0) :: 0 :: ((n :: rest) ++ [16]) := by
        rw [keybytesToHex, List.flatMap_cons, byteNibbles_even_flag term,
          flatMap_byteNibbles_decodeNibbles _ hbody heven]
        rfl
      rw [if_neg hodd, compactToHex_eq hkey]
      cases term <;> rfl

end RoundTrip

section InPlace

/-- The loop of `hexToCompactInPlace`: the nibbles at `ni` and `ni + 1` go, as one byte, to `bi`
of the buffer it reads from. `fuel` bounds the rounds; `hexLen` of it is enough. -/
def compactLoop (hexLen : ℕ) : ℕ → ℕ → ℕ → List UInt8 → Option (List UInt8)
  | 0, _, _, hex => some hex
  | fuel + 1, ni, bi, hex =>
      if ni < hexLen then do
        let a ← hex[ni]?
        let b ← hex[ni + 1]?
        if bi < hex.length then compactLoop hexLen fuel (ni + 2) (bi + 1) (hex.set bi (a <<< 4 ||| b))
        else none
      else some hex

/-- `hexToCompactInPlace`: the compact form written over the hex key, and its length. -/
def hexToCompactInPlace (hex : List UInt8) : Option (ℕ × List UInt8) := do
  -- Check if we have a terminator there
  let term := decide (0 < hex.length) && hex[hex.length - 1]? == some 16
  let firstByte : UInt8 := if term then (1 : UInt8) <<< 5 else 0
  let hexLen := if term then hex.length - 1 else hex.length
  let binLen := hexLen / 2 + 1
  let (firstByte, ni) ← if hexLen % 2 = 1 then do
      let h0 ← hex[0]?
      pure (firstByte ||| (1 : UInt8) <<< 4 ||| h0, 1)
    else pure (firstByte, 0)
  let hex ← compactLoop hexLen hexLen ni 1 hex
  if 0 < hex.length then pure (binLen, hex.set 0 firstByte) else none

/-- What a write at `bi` leaves before `bi + 1`. -/
theorem take_set_succ {buf : List UInt8} {bi : ℕ} (v : UInt8) (hbi : bi < buf.length) :
    (buf.set bi v).take (bi + 1) = buf.take bi ++ [v] := by
  rw [List.set_eq_take_append_cons_drop, if_pos hbi, List.take_append,
    List.take_of_length_le (by simp), List.length_take_of_le (by omega),
    Nat.add_sub_cancel_left]
  rfl

/-- The loop writes the bytes of the nibbles `src` it finds at `ni` from `bi` on: the writes
trail the reads (`bi ≤ ni + 1`), so every nibble is read before its place is written. -/
theorem compactLoop_spec (hexLen : ℕ) : ∀ (src : List Nibble) (fuel ni bi : ℕ) (buf tail : List UInt8),
    buf.drop ni = src.map nibbleByte ++ tail → hexLen = ni + src.length → src.length % 2 = 0 →
      bi ≤ ni + 1 → bi + src.length / 2 ≤ buf.length → src.length / 2 ≤ fuel →
        compactLoop hexLen fuel ni bi buf =
          some (buf.take bi ++ decodeNibbles src ++ buf.drop (bi + src.length / 2))
  | [], fuel, ni, bi, buf, _, _, hlen, _, _, _, _ => by
      -- nothing left to read
      have hdone : compactLoop hexLen fuel ni bi buf = some buf := by
        cases fuel with
        | zero => rfl
        | succ f =>
            rw [compactLoop, if_neg (by simp at hlen; omega)]
      rw [hdone, List.length_nil, Nat.zero_div, Nat.add_zero]
      simp [decodeNibbles]
  | [_], _, _, _, _, _, _, _, heven, _, _, _ => by simp at heven
  | a :: b :: rest, fuel, ni, bi, buf, tail, hdrop, hlen, heven, hbi, hroom, hfuel => by
      obtain ⟨f, rfl⟩ : ∃ f, fuel = f + 1 := ⟨fuel - 1, by simp at hfuel; omega⟩
      simp only [List.length_cons] at hlen heven hroom hfuel
      -- the two nibbles at `ni` are those of the source
      have ha : buf[ni]? = some (nibbleByte a) := by
        rw [← Nat.add_zero ni, ← List.getElem?_drop, hdrop]
        rfl
      have hb : buf[ni + 1]? = some (nibbleByte b) := by
        rw [← List.getElem?_drop, hdrop]
        rfl
      have hbi' : bi < buf.length := by omega
      set v := nibbleByte a <<< 4 ||| nibbleByte b
      -- the write at `bi` leaves the nibbles from `ni + 2` on as they were
      have hdrop' : (buf.set bi v).drop (ni + 2) = rest.map nibbleByte ++ tail := by
        rw [List.drop_set_of_lt (by omega), ← List.drop_drop, hdrop]
        rfl
      have hnext := compactLoop_spec hexLen rest f (ni + 2) (bi + 1) (buf.set bi v) tail hdrop'
        (by omega) (by omega) (by omega) (by rw [List.length_set]; omega) (by omega)
      rw [compactLoop, if_pos (by omega), ha, hb]
      simp only [Option.bind_eq_bind, Option.bind_some]
      rw [if_pos hbi', hnext, take_set_succ v hbi', List.drop_set_of_lt (by omega)]
      have hk : bi + 1 + rest.length / 2 = bi + (rest.length + 1 + 1) / 2 := by omega
      rw [hk, decodeNibbles]
      simp only [List.length_cons, List.append_assoc, List.cons_append]
      rfl

theorem nibbleByte_term : nibbleByte 16 = 16 := rfl

theorem nibbleByte_ne_term : ∀ n : Nibble, n.val < 16 → nibbleByte n ≠ 16 := by
  decide

variable {body : List Nibble}

/-- The terminator check of `hexToCompactInPlace` on the bytes of a body of nibbles below `16`
finds the terminator exactly when it is there. -/
theorem inPlace_term (hbody : ∀ n ∈ body, n.val < 16) (term : Bool) :
    (decide (0 < ((if term then body ++ [16] else body).map nibbleByte).length) &&
      ((if term then body ++ [16] else body).map nibbleByte)[
        ((if term then body ++ [16] else body).map nibbleByte).length - 1]? == some 16) = term := by
  rw [← List.getLast?_eq_getElem?, List.getLast?_map]
  cases term with
  | true => simp [nibbleByte_term]
  | false =>
      cases hl : body.getLast? with
      | none => simp [List.getLast?_eq_none_iff.mp hl]
      | some n =>
          have hne : nibbleByte n ≠ 16 :=
            nibbleByte_ne_term n (hbody n (List.mem_of_getLast? hl))
          simp [hl, hne]

/-- `hexToCompactInPlace` on a copy of a non-empty key leaves `hexToCompact` of it in the prefix
whose length it returns. -/
theorem hexToCompactInPlace_spec (hbody : ∀ n ∈ body, n.val < 16) (term : Bool)
    (hne : (if term then body ++ [16] else body) ≠ []) :
    ∃ buf, hexToCompactInPlace ((if term then body ++ [16] else body).map nibbleByte) =
        some ((hexToCompact (if term then body ++ [16] else body)).length, buf) ∧
      buf.take (hexToCompact (if term then body ++ [16] else body)).length =
        hexToCompact (if term then body ++ [16] else body) := by
  set hex := (if term then body ++ [16] else body).map nibbleByte with hhex
  have hlen : (if term then hex.length - 1 else hex.length) = body.length := by
    cases term <;> simp [hhex]
  have hpos : 0 < hex.length := by
    rw [hhex, List.length_map]
    exact List.length_pos_iff.mpr hne
  -- the nibbles of the body come first, the terminator after them
  have hsplit : hex = body.map nibbleByte ++ (if term then [16] else []) := by
    cases term <;> simp [hhex, nibbleByte_term]
  have hlenge : body.length ≤ hex.length := by
    rw [hsplit, List.length_append, List.length_map]
    omega
  rw [hexToCompactInPlace, inPlace_term hbody term, hlen, hexToCompact_body hbody term]
  by_cases hodd : body.length % 2 = 1
  · -- an odd body: its first nibble goes in the first byte, and the loop starts at `1`
    obtain ⟨n, rest, rfl⟩ := List.exists_cons_of_ne_nil (List.ne_nil_of_length_pos (l := body) (by omega))
    have heven : rest.length % 2 = 0 := by simp only [List.length_cons] at hodd; omega
    have h0 : hex[0]? = some (nibbleByte n) := by
      rw [hsplit]
      rfl
    have hdrop1 : hex.drop 1 = rest.map nibbleByte ++ (if term then [16] else []) := by
      rw [hsplit]
      rfl
    simp only [List.length_cons] at hlenge
    have hloop := compactLoop_spec (rest.length + 1) rest (rest.length + 1) 1 1 hex _ hdrop1
      (by omega) (by omega) (by omega) (by omega) (by omega)
    rw [if_pos hodd, if_pos hodd, h0]
    simp only [Option.bind_eq_bind, Option.bind_some, Option.pure_def, List.length_cons]
    rw [hloop]
    simp only [Option.bind_some]
    -- the first byte takes the place of the first nibble
    have htake1 : hex.take 1 = [nibbleByte n] := by
      rw [hsplit]
      rfl
    have hk : (rest.length + 1) / 2 = rest.length / 2 := by omega
    have hflag : ((if term then (1 : UInt8) <<< 5 else 0) ||| (1 : UInt8) <<< 4 ||| nibbleByte n) =
        ((if term then (1 : UInt8) else 0) <<< 5 ||| (1 : UInt8) <<< 4 ||| UInt8.ofNat n.val) := by
      cases term <;> rfl
    rw [htake1, if_pos (by simp), hk, hflag, List.tail_cons, List.headD_cons, length_decodeNibbles]
    refine ⟨_, rfl, ?_⟩
    rw [List.singleton_append, List.cons_append, List.set_cons_zero, List.take_succ_cons,
      List.take_left' (length_decodeNibbles rest)]
  · -- an even body: the loop starts at `0`, one place behind its first write
    have heven : body.length % 2 = 0 := by omega
    have hdrop0 : hex.drop 0 = body.map nibbleByte ++ (if term then [16] else []) := by
      rw [List.drop_zero, hsplit]
    have hloop := compactLoop_spec body.length body body.length 0 1 hex _ hdrop0
      (by omega) heven (by omega) (by omega) (by omega)
    rw [if_neg hodd, if_neg hodd]
    simp only [Option.bind_eq_bind, Option.bind_some, Option.pure_def]
    rw [hloop]
    simp only [Option.bind_some]
    obtain ⟨x, t, hxt⟩ := List.exists_cons_of_ne_nil (List.ne_nil_of_length_pos hpos)
    have hflag : (if term then (1 : UInt8) <<< 5 else 0) = (if term then (1 : UInt8) else 0) <<< 5 := by
      cases term <;> rfl
    rw [hxt, List.take_succ_cons, List.take_zero, if_pos (by simp), hflag, List.length_cons,
      length_decodeNibbles]
    refine ⟨_, rfl, ?_⟩
    rw [List.singleton_append, List.cons_append, List.set_cons_zero, List.take_succ_cons,
      List.take_left' (length_decodeNibbles body)]

end InPlace

section Codec

/-- The key encodings are inverse: compact form and back for every key of nibbles below `16`,
with or without the terminator, the same compact form left in place over a copy of a non-empty
such key, hex form and back for every byte string, and `compactToHex` in range on every input. -/
theorem key_encodings_inverse :
    (∀ (body : List Nibble) (term : Bool), (∀ n ∈ body, n.val < 16) →
      compactToHex (hexToCompact (if term then body ++ [16] else body)) =
          some (if term then body ++ [16] else body) ∧
        ((if term then body ++ [16] else body) ≠ [] →
          ∃ buf, hexToCompactInPlace ((if term then body ++ [16] else body).map nibbleByte) =
              some ((hexToCompact (if term then body ++ [16] else body)).length, buf) ∧
            buf.take (hexToCompact (if term then body ++ [16] else body)).length =
              hexToCompact (if term then body ++ [16] else body))) ∧
      (∀ str : List UInt8, hexToKeybytes (keybytesToHex str) = some str) ∧
      ∀ compact : List UInt8, (compactToHex compact).isSome :=
  ⟨fun _ term hbody =>
      ⟨compactToHex_hexToCompact hbody term, hexToCompactInPlace_spec hbody term⟩,
    hexToKeybytes_keybytesToHex, compactToHex_isSome⟩

theorem key_encodings_inverse_terminated :
    (∀ n ∈ ([1, 2, 3] : List Nibble), n.val < 16) ∧
      (compactToHex (hexToCompact (if true then [1, 2, 3] ++ [16] else [1, 2, 3])) =
          some (if true then [1, 2, 3] ++ [16] else [1, 2, 3]) ∧
        ((if true then [1, 2, 3] ++ [16] else [1, 2, 3]) ≠ ([] : List Nibble) →
          ∃ buf, hexToCompactInPlace ((if true then [1, 2, 3] ++ [16] else [1, 2, 3]).map nibbleByte) =
              some ((hexToCompact (if true then [1, 2, 3] ++ [16] else [1, 2, 3])).length, buf) ∧
            buf.take (hexToCompact (if true then [1, 2, 3] ++ [16] else [1, 2, 3])).length =
              hexToCompact (if true then [1, 2, 3] ++ [16] else [1, 2, 3]))) :=
  have h : ∀ n ∈ ([1, 2, 3] : List Nibble), n.val < 16 := by decide
  ⟨h, key_encodings_inverse.1 [1, 2, 3] true h⟩

end Codec

end Classzz.Trie
