import Classzz.Common.Bitutil.Compress
import Classzz.Lib.Except

/-!
# Decompression inverts compression, and only it

The decoder's placing loop is read as a list (`spread`): over the positions below the target it
builds the output byte by byte (`placeLoop_range'`), and past the target it only checks that no
bit is set. On that list the loop takes the encoder's bytes back (`spread_eq_ok`), and whatever
it accepts is the encoder's (`spread_sound`). By induction on the target, the decoder takes the
encoding of a string back to the string (`bitsetDecodePartialBytes_encode`), and what it
decodes from an input is encoded by the part of the input it used
(`bitsetDecodePartialBytes_sound`): so a compressed form is unique.
-/

namespace Classzz.Bitutil

open Bitset

section Spread

/-- What the placing loop makes of the positions `m` to `m + k - 1`: the next input byte at a
set bit, zero at a clear one, with the checks of the loop there. -/
def spread (data bs : List UInt8) : ℕ → ℕ → ℕ → Except DecodeError (List UInt8 × ℕ)
  | _, 0, ptr => .ok ([], ptr)
  | m, k + 1, ptr =>
    if bit bs m then
      if data.length ≤ ptr then .error .missingData
      else if data.getD ptr 0 = 0 then .error .zeroContent
      else (spread data bs (m + 1) k (ptr + 1)).map fun r => (data.getD ptr 0 :: r.1, r.2)
    else (spread data bs (m + 1) k ptr).map fun r => (0 :: r.1, r.2)

variable {data bs : List UInt8}

theorem placeLoop_append (l₁ l₂ : List ℕ) (decomp : List UInt8) (ptr : ℕ) :
    placeLoop data bs (l₁ ++ l₂) decomp ptr =
      (placeLoop data bs l₁ decomp ptr).bind fun r => placeLoop data bs l₂ r.1 r.2 := by
  induction l₁ generalizing decomp ptr with
  | nil => rfl
  | cons i l₁ ih =>
    simp only [List.cons_append, placeLoop]
    split_ifs <;> first | rfl | exact ih _ _

/-- Below the target, the placing loop builds the output as `spread` does, after the positions
it has passed. -/
theorem placeLoop_range' : ∀ (k m : ℕ) (pre : List UInt8) (ptr : ℕ), pre.length = m →
    placeLoop data bs (List.range' m k) (pre ++ List.replicate k 0) ptr =
      (spread data bs m k ptr).map fun r => (pre ++ r.1, r.2)
  | 0, m, pre, ptr, _ => by simp [placeLoop, spread, Except.map]
  | k + 1, m, pre, ptr, hpre => by
    have hlen : ¬ (pre ++ List.replicate (k + 1) 0).length ≤ m := by simp [hpre]
    simp only [List.range'_succ, placeLoop, spread, if_neg hlen]
    split_ifs with hb hd hz
    · rfl
    · rfl
    · -- a set bit: the byte goes to position `m`, the first of the zeros
      have hset : (pre ++ List.replicate (k + 1) 0).set m (data.getD ptr 0) =
          (pre ++ [data.getD ptr 0]) ++ List.replicate k 0 := by
        rw [List.set_append_right _ _ (by omega), hpre, Nat.sub_self, List.replicate_succ,
          List.set_cons_zero, List.append_assoc, List.singleton_append]
      rw [hset, placeLoop_range' k (m + 1) _ (ptr + 1) (by simp [hpre])]
      cases spread data bs (m + 1) k (ptr + 1) <;> simp [Except.map]
    · have hzero : pre ++ List.replicate (k + 1) 0 = (pre ++ [0]) ++ List.replicate k 0 := by
        rw [List.replicate_succ, List.append_assoc, List.singleton_append]
      rw [hzero, placeLoop_range' k (m + 1) _ ptr (by simp [hpre])]
      cases spread data bs (m + 1) k ptr <;> simp [Except.map]

/-- Past the target, a clear bit changes nothing. -/
theorem placeLoop_pad_ok : ∀ (r t : ℕ) (decomp : List UInt8) (ptr : ℕ),
    (∀ j < r, bit bs (t + j) = false) →
      placeLoop data bs (List.range' t r) decomp ptr = .ok (decomp, ptr)
  | 0, _, _, _, _ => rfl
  | r + 1, t, decomp, ptr, h => by
    have ht : bit bs t = false := by simpa using h 0 (by omega)
    rw [List.range'_succ, placeLoop, if_neg (by simp [ht])]
    exact placeLoop_pad_ok r (t + 1) decomp ptr fun j hj => by
      rw [Nat.add_assoc, Nat.add_comm 1 j]
      exact h (j + 1) (by omega)

/-- Past the target, the loop accepts only clear bits. -/
theorem placeLoop_pad_sound : ∀ (r t : ℕ) (decomp : List UInt8) (ptr : ℕ) {d : List UInt8}
    {p : ℕ}, decomp.length ≤ t → placeLoop data bs (List.range' t r) decomp ptr = .ok (d, p) →
      d = decomp ∧ p = ptr ∧ ∀ j < r, bit bs (t + j) = false
  | 0, _, _, _, _, _, _, h => by
    simp only [List.range'_zero, placeLoop, Except.ok.injEq, Prod.mk.injEq] at h
    exact ⟨h.1.symm, h.2.symm, fun j hj => absurd hj (Nat.not_lt_zero j)⟩
  | r + 1, t, decomp, ptr, d, p, hlen, h => by
    rw [List.range'_succ, placeLoop] at h
    by_cases hb : bit bs t
    · -- a set bit past the target is refused
      rw [if_pos hb] at h
      split_ifs at h
    · rw [if_neg hb] at h
      obtain ⟨rfl, rfl, hbits⟩ := placeLoop_pad_sound r (t + 1) decomp ptr (by omega) h
      refine ⟨rfl, rfl, Nat.forall_lt_succ_left.mpr ⟨by simpa using hb, fun j hj => ?_⟩⟩
      rw [show t + (j + 1) = t + 1 + j by omega]
      exact hbits j hj

theorem getD_of_drop {ptr : ℕ} {x : UInt8} {rest : List UInt8} (h : data.drop ptr = x :: rest) :
    ptr < data.length ∧ data.getD ptr 0 = x := by
  have hget : data[ptr]? = some x := by
    rw [← Nat.add_zero ptr, ← List.getElem?_drop, h]
    rfl
  exact ⟨(List.getElem?_eq_some_iff.mp hget).1, by rw [List.getD_eq_getElem?_getD, hget]; rfl⟩

theorem drop_succ_of_drop {ptr : ℕ} {x : UInt8} {rest : List UInt8}
    (h : data.drop ptr = x :: rest) : data.drop (ptr + 1) = rest := by
  rw [← List.drop_drop, h]
  rfl

/-- Over the bits of a string and its nonzero bytes, `spread` gives the string back. -/
theorem spread_eq_ok : ∀ (ds : List UInt8) (m ptr : ℕ) (rest : List UInt8),
    (∀ j < ds.length, bit bs (m + j) = (ds.getD j 0 != 0)) →
      data.drop ptr = ds.filter (· != 0) ++ rest →
        spread data bs m ds.length ptr = .ok (ds, ptr + (ds.filter (· != 0)).length)
  | [], _, _, _, _, _ => rfl
  | x :: ds, m, ptr, rest, hbits, hdata => by
    have hx : bit bs m = (x != 0) := by simpa using hbits 0 (by simp)
    have htail : ∀ j < ds.length, bit bs (m + 1 + j) = (ds.getD j 0 != 0) := fun j hj => by
      rw [show m + 1 + j = m + (j + 1) by omega, ← List.getD_cons_succ (x := x)]
      exact hbits (j + 1) (by simp; omega)
    by_cases h0 : x = 0
    · -- a zero byte: a clear bit, nothing taken
      subst h0
      have hrest : data.drop ptr = ds.filter (· != 0) ++ rest := by simpa using hdata
      simp only [List.length_cons, spread, hx, bne_self_eq_false, Bool.false_eq_true, if_false,
        spread_eq_ok ds (m + 1) ptr rest htail hrest]
      simp [Except.map]
    · -- a nonzero byte: a set bit, the next input byte is `x`
      have hcons : data.drop ptr = x :: (ds.filter (· != 0) ++ rest) := by simpa [h0] using hdata
      obtain ⟨hptr, hget⟩ := getD_of_drop hcons
      simp only [List.length_cons, spread, hx, bne_iff_ne, ne_eq, h0, not_false_eq_true,
        if_true, if_neg (show ¬ data.length ≤ ptr by omega), hget, if_false,
        spread_eq_ok ds (m + 1) (ptr + 1) rest htail (drop_succ_of_drop hcons)]
      simp [Except.map, h0]
      omega

/-- What `spread` accepts: a string whose bits are the bitset's and whose nonzero bytes are the
input bytes it took. -/
theorem spread_sound : ∀ (k m ptr : ℕ) {ds : List UInt8} {p : ℕ}, ptr ≤ data.length →
    spread data bs m k ptr = .ok (ds, p) →
      ds.length = k ∧ (∀ j < k, bit bs (m + j) = (ds.getD j 0 != 0)) ∧ ptr ≤ p ∧
        p ≤ data.length ∧ (data.drop ptr).take (p - ptr) = ds.filter (· != 0)
  | 0, _, _, ds, p, hptr, h => by
    simp only [spread, Except.ok.injEq, Prod.mk.injEq] at h
    obtain ⟨rfl, rfl⟩ := h
    simp [hptr]
  | k + 1, m, ptr, ds, p, hptr, h => by
    simp only [spread] at h
    split_ifs at h with hb hd hz
    · -- a set bit took the byte at `ptr`
      rcases hrec : spread data bs (m + 1) k (ptr + 1) with e | ⟨ds', p'⟩
      · rw [hrec] at h
        exact absurd h (by simp [Except.map])
      rw [hrec] at h
      simp only [Except.map, Except.ok.injEq, Prod.mk.injEq] at h
      obtain ⟨rfl, rfl⟩ := h
      obtain ⟨hlen, hbits, hle, hp, htake⟩ := spread_sound k (m + 1) (ptr + 1) (by omega) hrec
      refine ⟨by simp [hlen], Nat.forall_lt_succ_left.mpr ⟨?_, fun j hj => ?_⟩, by omega, hp, ?_⟩
      · rw [Nat.add_zero, List.getD_cons_zero, hb]
        exact (bne_iff_ne.mpr hz).symm
      · rw [show m + (j + 1) = m + 1 + j by omega, List.getD_cons_succ]
        exact hbits j hj
      · have hdrop : data.drop ptr = data.getD ptr 0 :: data.drop (ptr + 1) := by
          rw [List.getD_eq_getElem?_getD, List.getElem?_eq_getElem (by omega), Option.getD_some,
            List.drop_eq_getElem_cons (by omega)]
        have hsub : p' - ptr = p' - (ptr + 1) + 1 := by omega
        rw [hdrop, hsub, List.take_succ_cons, htake, List.filter_cons, if_pos (bne_iff_ne.mpr hz)]
    · -- a clear bit put a zero
      rcases hrec : spread data bs (m + 1) k ptr with e | ⟨ds', p'⟩
      · rw [hrec] at h
        exact absurd h (by simp [Except.map])
      rw [hrec] at h
      simp only [Except.map, Except.ok.injEq, Prod.mk.injEq] at h
      obtain ⟨rfl, rfl⟩ := h
      obtain ⟨hlen, hbits, hle, hp, htake⟩ := spread_sound k (m + 1) ptr hptr hrec
      refine ⟨by simp [hlen], Nat.forall_lt_succ_left.mpr ⟨?_, fun j hj => ?_⟩, hle, hp,
        by simpa using htake⟩
      · rw [Nat.add_zero, List.getD_cons_zero]
        simpa using hb
      · rw [show m + (j + 1) = m + 1 + j by omega, List.getD_cons_succ]
        exact hbits j hj

end Spread

section Decode

theorem bitsetDecodePartialBytes_zero (data : List UInt8) :
    bitsetDecodePartialBytes data 0 = .ok ([], 0) := by
  rw [bitsetDecodePartialBytes, if_pos rfl]

theorem bitsetDecodePartialBytes_nil {target : ℕ} (h : target ≠ 0) :
    bitsetDecodePartialBytes [] target = .ok (List.replicate target 0, 0) := by
  rw [bitsetDecodePartialBytes, if_neg h, if_pos List.length_nil]

theorem bitsetDecodePartialBytes_one {x : UInt8} {rest : List UInt8} :
    bitsetDecodePartialBytes (x :: rest) 1 = if x ≠ 0 then .ok ([x], 1) else .ok ([x], 0) := by
  rw [bitsetDecodePartialBytes]
  simp

theorem bitsetDecodePartialBytes_of_two_le {data : List UInt8} {target : ℕ} (h : 2 ≤ target)
    (hd : data ≠ []) :
    bitsetDecodePartialBytes data target =
      (bitsetDecodePartialBytes data ((target + 7) / 8)).bind fun r =>
        placeLoop data r.1 (List.range (8 * r.1.length)) (List.replicate target 0) r.2 := by
  rw [bitsetDecodePartialBytes, if_neg (by omega), if_neg (by simpa using hd), if_neg (by omega)]
  rfl

variable {data bs : List UInt8}

/-- The whole placing loop over a bitset that covers the target: `spread` below it, the padding
check past it. -/
theorem placeLoop_range {n : ℕ} (hn : n ≤ 8 * bs.length) (ptr : ℕ) :
    placeLoop data bs (List.range (8 * bs.length)) (List.replicate n 0) ptr =
      (spread data bs 0 n ptr).bind fun r =>
        placeLoop data bs (List.range' n (8 * bs.length - n)) r.1 r.2 := by
  have hsplit : List.range (8 * bs.length) = List.range' 0 n ++ List.range' n (8 * bs.length - n) := by
    have h := @List.range'_append_1 0 n (8 * bs.length - n)
    rw [Nat.zero_add, Nat.add_sub_cancel' hn] at h
    rw [List.range_eq_range', h]
  rw [hsplit, placeLoop_append, ← List.nil_append (List.replicate n 0),
    placeLoop_range' n 0 [] ptr rfl]
  cases spread data bs 0 n ptr <;> rfl

/-- The encoder's bitset of a string with a nonzero byte has a nonzero byte. -/
theorem exists_ne_zero_nonZeroLoop {d : List UInt8} (h : ∃ b ∈ d, b ≠ 0) :
    ∃ b ∈ (nonZeroLoop d).1, b ≠ 0 := by
  by_contra hall
  push Not at hall
  have hzero := List.eq_replicate_iff.mpr ⟨rfl, hall⟩
  obtain ⟨b, hb, hb0⟩ := h
  obtain ⟨i, hi, rfl⟩ := List.getElem_of_mem hb
  have hbit := bit_nonZeroLoop d i
  rw [hzero, bit_replicate_zero, List.getD_eq_getElem?_getD, List.getElem?_eq_getElem hi] at hbit
  simp [hb0] at hbit

/-- The decoder takes the encoding of a string with a nonzero byte back to the string, whatever
follows it, and says how much it took. -/
theorem bitsetDecodePartialBytes_encode (d : List UInt8) (hnz : ∃ b ∈ d, b ≠ 0)
    (rest : List UInt8) :
    bitsetDecodePartialBytes (bitsetEncodeBytes d ++ rest) d.length =
      .ok (d, (bitsetEncodeBytes d).length) := by
  rcases Nat.lt_or_ge d.length 2 with hd | hd
  · -- one nonzero byte encodes as itself
    match d, hd, hnz with
    | [x], _, ⟨b, hb, hb0⟩ =>
      obtain rfl : b = x := List.mem_singleton.mp hb
      rw [bitsetEncodeBytes_singleton, if_neg hb0, List.singleton_append, List.length_singleton,
        bitsetDecodePartialBytes_one, if_pos hb0]
  · -- the encoded bitset first, then the nonzero bytes
    have hfilter : d.filter (· != 0) ≠ [] := by
      obtain ⟨b, hb, hb0⟩ := hnz
      exact List.ne_nil_of_mem (List.mem_filter.mpr ⟨hb, by simpa using hb0⟩)
    have hrec := bitsetDecodePartialBytes_encode (nonZeroLoop d).1
      (exists_ne_zero_nonZeroLoop hnz) (d.filter (· != 0) ++ rest)
    rw [length_nonZeroLoop_fst] at hrec
    rw [bitsetEncodeBytes_of_two_le hd, if_neg hfilter, List.append_assoc,
      bitsetDecodePartialBytes_of_two_le hd (by simp [hfilter]), hrec]
    simp only [Except.bind]
    have hcover : d.length ≤ 8 * (nonZeroLoop d).1.length := by
      rw [length_nonZeroLoop_fst]
      omega
    rw [placeLoop_range hcover, spread_eq_ok d 0 _ rest (fun j _ => by rw [Nat.zero_add, bit_nonZeroLoop])
      (by rw [List.drop_left])]
    simp only [Except.bind]
    rw [placeLoop_pad_ok _ _ _ _ fun j _ => by
      rw [bit_nonZeroLoop, List.getD_eq_getElem?_getD, List.getElem?_eq_none (by omega)]
      rfl]
    simp
termination_by d.length
decreasing_by exact length_nonZeroLoop_fst_lt hd

/-- The bitset the decoder read is the encoder's bitset of what it decoded. -/
theorem eq_nonZeroLoop {n : ℕ} {d : List UInt8} (hlen : d.length = n) (hbs : bs.length = (n + 7) / 8)
    (hlow : ∀ j < n, bit bs (0 + j) = (d.getD j 0 != 0))
    (hpad : ∀ j < 8 * bs.length - n, bit bs (n + j) = false) : bs = (nonZeroLoop d).1 := by
  refine ext_bit (by rw [hbs, length_nonZeroLoop_fst, hlen]) fun i => ?_
  rw [bit_nonZeroLoop]
  by_cases hi : i < n
  · simpa using hlow i hi
  -- past the string both are clear: in the padding by the decoder's check, and past the bitset
  have hd : d.getD i 0 = 0 := by
    rw [List.getD_eq_getElem?_getD, List.getElem?_eq_none (by omega)]
    rfl
  rw [hd]
  by_cases hpadi : i < 8 * bs.length
  · simpa [Nat.add_sub_cancel' (Nat.le_of_not_lt hi)] using hpad (i - n) (by omega)
  · exact bit_of_length_le (by omega)

/-- What the decoder decodes is the encoding of its output: the input it took is that encoding,
and the output has the target's length. -/
theorem bitsetDecodePartialBytes_sound (c : List UInt8) (n : ℕ) {d : List UInt8} {p : ℕ}
    (h : bitsetDecodePartialBytes c n = .ok (d, p)) :
    d.length = n ∧ p ≤ c.length ∧ c.take p = bitsetEncodeBytes d := by
  by_cases hn0 : n = 0
  · subst hn0
    rw [bitsetDecodePartialBytes_zero] at h
    obtain ⟨rfl, rfl⟩ := Prod.mk.inj (Except.ok.inj h)
    exact ⟨rfl, Nat.zero_le _, bitsetEncodeBytes_nil.symm⟩
  rcases c with _ | ⟨x, rest⟩
  · -- no input: zeros
    rw [bitsetDecodePartialBytes_nil hn0] at h
    obtain ⟨rfl, rfl⟩ := Prod.mk.inj (Except.ok.inj h)
    exact ⟨List.length_replicate, le_refl 0, (bitsetEncodeBytes_replicate_zero n).symm⟩
  by_cases hn1 : n = 1
  · -- one byte, taken when it is not zero
    subst hn1
    rw [bitsetDecodePartialBytes_one] at h
    split_ifs at h with hx
    · obtain ⟨rfl, rfl⟩ := Prod.mk.inj (Except.ok.inj h)
      refine ⟨rfl, by simp, ?_⟩
      rw [bitsetEncodeBytes_singleton, if_neg hx]
      rfl
    · obtain ⟨rfl, rfl⟩ := Prod.mk.inj (Except.ok.inj h)
      refine ⟨rfl, Nat.zero_le _, ?_⟩
      rw [bitsetEncodeBytes_singleton, if_pos (not_not.mp hx)]
      rfl
  -- the bitset first, by induction, then the placing loop
  rw [bitsetDecodePartialBytes_of_two_le (by omega) (List.cons_ne_nil x rest)] at h
  rcases hinner : bitsetDecodePartialBytes (x :: rest) ((n + 7) / 8) with e | ⟨bs, p₀⟩
  · rw [hinner] at h
    exact absurd h (by simp [Except.bind])
  rw [hinner] at h
  obtain ⟨hbs, hp₀, htake₀⟩ := bitsetDecodePartialBytes_sound (x :: rest) ((n + 7) / 8) hinner
  simp only [Except.bind] at h
  rw [placeLoop_range (by omega)] at h
  rcases hspread : spread (x :: rest) bs 0 n p₀ with e | ⟨d₁, p₁⟩
  · rw [hspread] at h
    exact absurd h (by simp [Except.bind])
  rw [hspread] at h
  simp only [Except.bind] at h
  obtain ⟨hlen, hlow, hle, hp₁, htake₁⟩ := spread_sound n 0 p₀ hp₀ hspread
  obtain ⟨rfl, rfl, hpad⟩ := placeLoop_pad_sound _ n d₁ p₁ (le_of_eq hlen) h
  have hbs_eq := eq_nonZeroLoop hlen hbs hlow hpad
  refine ⟨hlen, hp₁, ?_⟩
  rw [bitsetEncodeBytes_of_two_le (by omega)]
  split_ifs with hf
  · -- no nonzero byte: nothing taken after a bitset of zeros, which encodes to nothing
    have hclear : ∀ i, bit bs i = false := fun i => by
      rw [hbs_eq, bit_nonZeroLoop]
      have : d.getD i 0 = 0 := by
        rw [List.getD_eq_getElem?_getD]
        cases hget : d[i]? with
        | none => rfl
        | some b =>
          have hb := List.mem_of_getElem? hget
          by_contra hb0
          exact List.ne_nil_of_mem (List.mem_filter.mpr ⟨hb, by simpa using hb0⟩) hf
      simp only [this, bne_self_eq_false]
    have hp : p = p₀ := by
      rcases List.take_eq_nil_iff.mp (htake₁.trans hf) with h0 | hdrop
      · omega
      · have := List.drop_eq_nil_iff.mp hdrop
        omega
    rw [hp, htake₀, eq_replicate_zero hclear, bitsetEncodeBytes_replicate_zero]
  · rw [← hbs_eq, ← htake₀, ← htake₁, ← List.take_add, Nat.add_sub_cancel' hle]
termination_by n
decreasing_by omega

end Decode

section Compress

/-- The decoder takes every encoding back, with all its input used. -/
theorem bitsetDecodeBytes_encode (d : List UInt8) :
    bitsetDecodeBytes (bitsetEncodeBytes d) d.length = .ok d := by
  by_cases hnz : ∃ b ∈ d, b ≠ 0
  · have h := bitsetDecodePartialBytes_encode d hnz []
    rw [List.append_nil] at h
    simp [bitsetDecodeBytes, h, Except.ok_bind]
  · -- only zeros: nothing is written, and nothing decodes to zeros
    push Not at hnz
    have hzero : d = List.replicate d.length 0 := List.eq_replicate_iff.mpr ⟨rfl, hnz⟩
    rw [hzero, bitsetEncodeBytes_replicate_zero, List.length_replicate]
    by_cases hn : d.length = 0
    · rw [hn, bitsetDecodeBytes, bitsetDecodePartialBytes_zero]
      rfl
    · rw [bitsetDecodeBytes, bitsetDecodePartialBytes_nil hn]
      rfl

/-- `CompressBytes` never lengthens its input and `DecompressBytes` takes it back; and below the
target length, `DecompressBytes` accepts exactly the encodings of strings of that length, each
decoding to its own string. -/
theorem compressBytes_roundTrip_unique :
    (∀ d : List UInt8,
      (compressBytes d).length ≤ d.length ∧ decompressBytes (compressBytes d) d.length = .ok d) ∧
    ∀ (c : List UInt8) (t : ℕ), c.length < t → ∀ d : List UInt8,
      decompressBytes c t = .ok d ↔ c = bitsetEncodeBytes d ∧ d.length = t := by
  refine ⟨fun d => ?_, fun c t hct d => ?_⟩
  · rw [compressBytes]
    split_ifs with hlt
    · refine ⟨hlt.le, ?_⟩
      rw [decompressBytes, if_neg (by omega), if_neg (by omega)]
      exact bitsetDecodeBytes_encode d
    · exact ⟨le_refl _, by rw [decompressBytes, if_neg (lt_irrefl _), if_pos rfl]⟩
  · rw [decompressBytes, if_neg (by omega), if_neg (by omega)]
    constructor
    · -- what is accepted used all its input, so the input is the encoding
      intro h
      obtain ⟨⟨d', p⟩, hpart, hused⟩ := Except.bind_eq_ok.mp h
      split_ifs at hused with hp
      obtain rfl := Except.ok.inj hused
      obtain ⟨hlen, -, htake⟩ := bitsetDecodePartialBytes_sound c t hpart
      have hall : p = c.length := not_not.mp hp
      rw [hall, List.take_length] at htake
      exact ⟨htake, hlen⟩
    · rintro ⟨rfl, rfl⟩
      exact bitsetDecodeBytes_encode d

theorem compressBytes_roundTrip_unique_sample :
    decompressBytes (compressBytes [0, 0, 7, 0]) 4 = .ok [0, 0, 7, 0] ∧
      (decompressBytes [0x20, 7] 4 = .ok [0, 0, 7, 0] ↔
        [0x20, 7] = bitsetEncodeBytes [0, 0, 7, 0] ∧ [(0 : UInt8), 0, 7, 0].length = 4) :=
  ⟨(compressBytes_roundTrip_unique.1 [0, 0, 7, 0]).2,
    compressBytes_roundTrip_unique.2 [0x20, 7] 4 (by decide) [0, 0, 7, 0]⟩

end Compress

end Classzz.Bitutil
