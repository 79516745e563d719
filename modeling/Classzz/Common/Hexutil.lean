import Mathlib.Data.Nat.Digits.Lemmas
import Mathlib.Data.Nat.Size
import Classzz.Lib.Except
import Classzz.Common.Hex

/-!
# Hex quantities

`hexutil` spells numbers as JSON quantities: `0x` and the hex digits, without leading zeros.
`DecodeBig` checks the prefix and the form (`checkNumber`), refuses more than 64 digits and reads
the digits from the end in chunks of `bigWordNibbles` (8 or 16, the nibbles of a `big.Word`)
into little-endian words, which `SetBits` makes one number. `DecodeUint64` hands the digits to
`strconv.ParseUint`.

Strings are byte lists, as Go indexes them. The digits of each chunk spell its word, so the
words spell the number of all the digits (`decodeWords_eq_ok`), whatever the word size. With the
checks this gives the form of what `DecodeBig` accepts: `0x` or `0X` and the digits of a number
below 2^256 as `%x` prints them, in either case (`decodeBig_eq_ok_iff`). `EncodeBig` prints the
sign of a negative number before the prefix, which `DecodeBig` then refuses
(`decodeBig_encodeBig_of_neg`); the magnitude of a non-negative one comes back
(`decodeBig_encodeBig`), and so does every `uint64` (`decodeUint64_encodeUint64`).
-/

namespace Classzz.Hexutil

/-- The decoding errors of `hexutil` that the quantity decoders return. -/
inductive DecError
  /-- `ErrEmptyString`: "empty hex string". -/
  | emptyString
  /-- `ErrSyntax`: "invalid hex string". -/
  | invalidHex
  /-- `ErrMissingPrefix`: "hex string without 0x prefix". -/
  | missingPrefix
  /-- `ErrEmptyNumber`: "hex string \"0x\"". -/
  | emptyNumber
  /-- `ErrLeadingZero`: "hex number with leading zero digits". -/
  | leadingZero
  /-- `ErrUint64Range`: "hex number > 64 bits". -/
  | uint64Range
  /-- `ErrBig256Range`: "hex number > 256 bits". -/
  | big256Range
  deriving DecidableEq, Repr

section Checks

/-- `has0xPrefix`. -/
def has0xPrefix : List UInt8 → Bool
  | c0 :: c1 :: _ => c0 == '0'.toUInt8 && (c1 == 'x'.toUInt8 || c1 == 'X'.toUInt8)
  | _ => false

/-- `checkNumber`: the digits of a quantity, after its prefix. -/
def checkNumber (input : List UInt8) : Except DecError (List UInt8) :=
  if input.length = 0 then .error .emptyString
  else if !has0xPrefix input then .error .missingPrefix
  else
    let input := input.drop 2
    if input.length = 0 then .error .emptyNumber
    else if input.length > 1 ∧ input.head? = some '0'.toUInt8 then .error .leadingZero
    else .ok input

/-- `badNibble`: `^uint64(0)`. -/
def badNibble : UInt64 := ~~~0

/-- `decodeNibble`. -/
def decodeNibble (c : UInt8) : UInt64 :=
  if '0'.toUInt8 ≤ c ∧ c ≤ '9'.toUInt8 then (c - '0'.toUInt8).toUInt64
  else if 'A'.toUInt8 ≤ c ∧ c ≤ 'F'.toUInt8 then (c - 'A'.toUInt8 + 10).toUInt64
  else if 'a'.toUInt8 ≤ c ∧ c ≤ 'f'.toUInt8 then (c - 'a'.toUInt8 + 10).toUInt64
  else badNibble

end Checks

section Decoding

/-- One digit of the inner loop of `DecodeBig`: `words[i] *= 16; words[i] += nib`, in the
arithmetic of a word of `bigWordNibbles` nibbles. -/
def wordStep (bigWordNibbles : ℕ) (word : ℕ) (c : UInt8) : Except DecError ℕ :=
  let nib := decodeNibble c
  if nib = badNibble then .error .invalidHex
  else .ok ((word * 16 + nib.toNat) % 2 ^ (4 * bigWordNibbles))

/-- The inner loop of `DecodeBig`: the digits `raw[start:end]` read into one word. -/
def decodeWord (bigWordNibbles : ℕ) (chunk : List UInt8) : Except DecError ℕ :=
  chunk.foldlM (wordStep bigWordNibbles) 0

/-- The outer loop of `DecodeBig`: `count` words, each read from the `bigWordNibbles` digits
before `stop` (the source's `end`), least significant first. -/
def decodeWords (bigWordNibbles : ℕ) (raw : List UInt8) : ℕ → ℕ → Except DecError (List ℕ)
  | 0, _ => .ok []
  | count + 1, stop =>
    -- `start` is clamped at zero, as `if start < 0 { start = 0 }` does
    let start := stop - bigWordNibbles
    do
      let word ← decodeWord bigWordNibbles ((raw.take stop).drop start)
      let words ← decodeWords bigWordNibbles raw count start
      pure (word :: words)

/-- `new(big.Int).SetBits(words)`: the little-endian words as one number. -/
def setBits (bigWordNibbles : ℕ) (words : List ℕ) : ℕ :=
  Nat.ofDigits (2 ^ (4 * bigWordNibbles)) words

/-- `DecodeBig`, for a `big.Word` of `bigWordNibbles` nibbles (8 or 16, as `init` finds it). -/
def decodeBig (bigWordNibbles : ℕ) (input : List UInt8) : Except DecError ℕ := do
  let raw ← checkNumber input
  if raw.length > 64 then throw .big256Range
  let words ← decodeWords bigWordNibbles raw (raw.length / bigWordNibbles + 1) raw.length
  pure (setBits bigWordNibbles words)

/-- One digit of `strconv.ParseUint` in base 16: a decimal digit, or a letter in either case
(`lower(c)`), which must be below the base. -/
def parseDigit (c : UInt8) : Option ℕ :=
  let lower := c ||| ('x'.toUInt8 - 'X'.toUInt8)
  if '0'.toUInt8 ≤ c ∧ c ≤ '9'.toUInt8 then some (c - '0'.toUInt8).toNat
  else if 'a'.toUInt8 ≤ lower ∧ lower ≤ 'z'.toUInt8 then some (lower - 'a'.toUInt8 + 10).toNat
  else none

/-- One step of the loop of `strconv.ParseUint(s, 16, 64)`, with its errors as `mapError` maps
them: a digit that is not one of the base is `ErrSyntax`, an overflow `ErrUint64Range`. -/
def parseStep (n : ℕ) (c : UInt8) : Except DecError ℕ :=
  match parseDigit c with
  | none => .error .invalidHex
  | some d =>
    if d ≥ 16 then .error .invalidHex
    -- `cutoff = maxUint64/16 + 1`
    else if n ≥ 2 ^ 60 then .error .uint64Range
    else if n * 16 + d > 2 ^ 64 - 1 then .error .uint64Range
    else .ok (n * 16 + d)

/-- `strconv.ParseUint(s, 16, 64)`, with `mapError` applied to its errors. -/
def parseUint (s : List UInt8) : Except DecError UInt64 :=
  if s.length = 0 then .error .invalidHex
  else UInt64.ofNat <$> s.foldlM parseStep 0

/-- `DecodeUint64`. -/
def decodeUint64 (input : List UInt8) : Except DecError UInt64 := do
  let raw ← checkNumber input
  parseUint raw

end Decoding

section Encoding

/-- `fmt.Sprintf("%#x", bigint)`: the sign, the prefix `0x` and the lower-case digits of the
magnitude, in the order `big.Int.Format` writes them. -/
def formatHex (bigint : Int) : List UInt8 :=
  (if bigint < 0 then ['-'.toUInt8] else []) ++
    '0'.toUInt8 :: 'x'.toUInt8 :: (Nat.toDigits 16 bigint.natAbs).map Char.toUInt8

/-- `EncodeBig`: `0x0` for zero (`BitLen` is zero), `%#x` otherwise. -/
def encodeBig (bigint : Int) : List UInt8 :=
  if bigint.natAbs.size = 0 then ['0'.toUInt8, 'x'.toUInt8, '0'.toUInt8]
  else formatHex bigint

/-- `EncodeUint64`: `0x` and `strconv.AppendUint(enc, i, 16)`. -/
def encodeUint64 (i : UInt64) : List UInt8 :=
  '0'.toUInt8 :: 'x'.toUInt8 :: (Nat.toDigits 16 i.toNat).map Char.toUInt8

end Encoding

section Spec

/-- The lower-case form of a hex letter; other bytes stay. -/
def lowerHex (c : UInt8) : UInt8 :=
  if 'A'.toUInt8 ≤ c ∧ c ≤ 'F'.toUInt8 then c + ('a'.toUInt8 - 'A'.toUInt8) else c

/-- What `DecodeBig` accepts as a spelling of `v`: `0x` or `0X` and the digits of `v` (below
2^256) as `%x` prints them, each letter in either case. -/
def IsQuantity (input : List UInt8) (v : ℕ) : Prop :=
  v < 2 ^ 256 ∧ ∃ x digits, input = '0'.toUInt8 :: x :: digits ∧
    (x = 'x'.toUInt8 ∨ x = 'X'.toUInt8) ∧
    digits.map lowerHex = (Nat.toDigits 16 v).map Char.toUInt8

/-- The number the digits `raw` spell, most significant first, each read by `decodeNibble`. -/
def hexValue (raw : List UInt8) : ℕ :=
  Nat.ofDigits 16 (raw.reverse.map fun c => (decodeNibble c).toNat)

end Spec

section Nibbles

/-! Single bytes, through their codes: `decodeNibble` and `lowerHex` on the code of a byte, from
which the facts the decoders need follow by arithmetic. -/

@[simp] theorem toNat_char_zero : ('0'.toUInt8).toNat = 48 := rfl
@[simp] theorem toNat_char_nine : ('9'.toUInt8).toNat = 57 := rfl
@[simp] theorem toNat_char_upperA : ('A'.toUInt8).toNat = 65 := rfl
@[simp] theorem toNat_char_upperF : ('F'.toUInt8).toNat = 70 := rfl
@[simp] theorem toNat_char_lowerA : ('a'.toUInt8).toNat = 97 := rfl
@[simp] theorem toNat_char_lowerF : ('f'.toUInt8).toNat = 102 := rfl

theorem toNat_badNibble : badNibble.toNat = 2 ^ 64 - 1 := rfl

/-- `decodeNibble` on the code of a byte. -/
theorem toNat_decodeNibble (c : UInt8) :
    (decodeNibble c).toNat =
      if 48 ≤ c.toNat ∧ c.toNat ≤ 57 then c.toNat - 48
      else if 65 ≤ c.toNat ∧ c.toNat ≤ 70 then c.toNat - 55
      else if 97 ≤ c.toNat ∧ c.toNat ≤ 102 then c.toNat - 87
      else 2 ^ 64 - 1 := by
  simp only [decodeNibble, UInt8.le_iff_toNat_le, toNat_char_zero, toNat_char_nine,
    toNat_char_upperA, toNat_char_upperF, toNat_char_lowerA, toNat_char_lowerF]
  split_ifs with h₁ h₂ h₃
  · rw [UInt8.toNat_toUInt64, UInt8.toNat_sub_of_le _ _ (UInt8.le_iff_toNat_le.mpr (by simp; omega))]
    simp
  · rw [UInt8.toNat_toUInt64, UInt8.toNat_add,
      UInt8.toNat_sub_of_le _ _ (UInt8.le_iff_toNat_le.mpr (by simp; omega))]
    simp
    omega
  · rw [UInt8.toNat_toUInt64, UInt8.toNat_add,
      UInt8.toNat_sub_of_le _ _ (UInt8.le_iff_toNat_le.mpr (by simp; omega))]
    simp
    omega
  · exact toNat_badNibble

/-- `lowerHex` on the code of a byte. -/
theorem toNat_lowerHex (c : UInt8) :
    (lowerHex c).toNat = if 65 ≤ c.toNat ∧ c.toNat ≤ 70 then c.toNat + 32 else c.toNat := by
  simp only [lowerHex, UInt8.le_iff_toNat_le, toNat_char_upperA, toNat_char_upperF]
  split_ifs with h
  · have hcase : ('a'.toUInt8 - 'A'.toUInt8).toNat = 32 := rfl
    rw [UInt8.toNat_add, hcase]
    omega
  · rfl

/-- A good digit is one of the three ranges of `decodeNibble`. -/
theorem decodeNibble_ne_badNibble_iff (c : UInt8) :
    decodeNibble c ≠ badNibble ↔
      (48 ≤ c.toNat ∧ c.toNat ≤ 57) ∨ (65 ≤ c.toNat ∧ c.toNat ≤ 70) ∨
        (97 ≤ c.toNat ∧ c.toNat ≤ 102) := by
  rw [Ne, ← UInt64.toNat_inj, toNat_decodeNibble, toNat_badNibble]
  split_ifs <;> omega

theorem decodeNibble_lt (c : UInt8) (h : decodeNibble c ≠ badNibble) :
    (decodeNibble c).toNat < 16 := by
  rw [decodeNibble_ne_badNibble_iff] at h
  rw [toNat_decodeNibble]
  split_ifs <;> omega

theorem decodeNibble_lowerHex (c : UInt8) : decodeNibble (lowerHex c) = decodeNibble c := by
  rw [← UInt64.toNat_inj, toNat_decodeNibble, toNat_decodeNibble, toNat_lowerHex]
  have := c.toNat_lt
  split_ifs <;> omega

/-- The code of the digit `Nat.digitChar` prints. -/
theorem toNat_digitChar : ∀ d < 16,
    (Nat.digitChar d).toUInt8.toNat = if d < 10 then 48 + d else 87 + d := by
  decide

theorem digitChar_decodeNibble (c : UInt8) (h : decodeNibble c ≠ badNibble) :
    (Nat.digitChar (decodeNibble c).toNat).toUInt8 = lowerHex c := by
  rw [← UInt8.toNat_inj, toNat_digitChar _ (decodeNibble_lt c h), toNat_lowerHex]
  rw [decodeNibble_ne_badNibble_iff] at h
  rw [toNat_decodeNibble]
  split_ifs <;> omega

theorem eq_zero_of_decodeNibble_eq_zero (c : UInt8) (h : (decodeNibble c).toNat = 0) :
    c = '0'.toUInt8 := by
  rw [← UInt8.toNat_inj, toNat_char_zero]
  rw [toNat_decodeNibble] at h
  split_ifs at h <;> omega

theorem lowerHex_eq_zero_iff (c : UInt8) : lowerHex c = '0'.toUInt8 ↔ c = '0'.toUInt8 := by
  rw [← UInt8.toNat_inj, ← UInt8.toNat_inj, toNat_lowerHex, toNat_char_zero]
  split_ifs <;> omega

theorem decodeNibble_digitChar : ∀ d < 16, (decodeNibble (Nat.digitChar d).toUInt8).toNat = d := by
  decide

theorem decodeNibble_digitChar_ne : ∀ d < 16, decodeNibble (Nat.digitChar d).toUInt8 ≠ badNibble := by
  decide

theorem lowerHex_digitChar : ∀ d < 16, lowerHex (Nat.digitChar d).toUInt8 = (Nat.digitChar d).toUInt8 := by
  decide

theorem digitChar_ne_zero : ∀ d < 16, 0 < d → (Nat.digitChar d).toUInt8 ≠ '0'.toUInt8 := by
  decide

theorem parseDigit_digitChar : ∀ d < 16, parseDigit (Nat.digitChar d).toUInt8 = some d := by
  decide

end Nibbles

section Value

@[simp]
theorem hexValue_nil : hexValue [] = 0 := rfl

theorem hexValue_append (a b : List UInt8) :
    hexValue (a ++ b) = hexValue b + 16 ^ b.length * hexValue a := by
  simp only [hexValue, List.reverse_append, List.map_append, Nat.ofDigits_append, List.length_map,
    List.length_reverse]

theorem hexValue_append_singleton (a : List UInt8) (c : UInt8) :
    hexValue (a ++ [c]) = 16 * hexValue a + (decodeNibble c).toNat := by
  rw [hexValue_append]
  simp [hexValue, Nat.add_comm]

/-- Good digits spell a number below 16 to the power of their count. -/
theorem hexValue_lt (l : List UInt8) (h : ∀ c ∈ l, decodeNibble c ≠ badNibble) :
    hexValue l < 16 ^ l.length := by
  induction l using List.reverseRecOn with
  | nil => simp
  | append_singleton l c ih =>
    have hl := ih fun x hx => h x (List.mem_append_left _ hx)
    have hc := decodeNibble_lt c (h c (by simp))
    rw [hexValue_append_singleton, List.length_append, List.length_singleton, pow_succ]
    omega

/-- `decodeNibble` reads both cases alike. -/
theorem hexValue_map_lowerHex (l : List UInt8) : hexValue (l.map lowerHex) = hexValue l := by
  simp only [hexValue, ← List.map_reverse, List.map_map, Function.comp_def, decodeNibble_lowerHex]

/-- The digits `%x` prints spell the number. -/
theorem hexValue_toDigits (n : ℕ) : hexValue ((Nat.toDigits 16 n).map Char.toUInt8) = n := by
  induction n using Nat.strong_induction_on with
  | _ n ih =>
    rw [Nat.toDigits_eq_if (by norm_num)]
    split_ifs with hn
    · simp [hexValue, decodeNibble_digitChar n hn]
    · rw [List.map_append, List.map_singleton, hexValue_append_singleton, ih (n / 16) (by omega),
        decodeNibble_digitChar (n % 16) (by omega)]
      omega

/-- A leading digit other than zero makes the number positive. -/
theorem hexValue_cons_pos (c : UInt8) (l : List UInt8) (h0 : c ≠ '0'.toUInt8) :
    0 < hexValue (c :: l) := by
  have hd : 0 < (decodeNibble c).toNat :=
    Nat.pos_of_ne_zero fun h => h0 (eq_zero_of_decodeNibble_eq_zero c h)
  rw [← List.singleton_append, hexValue_append]
  have hone : hexValue [c] = (decodeNibble c).toNat := by simp [hexValue]
  rw [hone]
  have := Nat.mul_pos (Nat.pow_pos (by norm_num : 0 < 16) : 0 < 16 ^ l.length) hd
  omega

theorem toDigits_ne_nil (n : ℕ) : Nat.toDigits 16 n ≠ [] := by
  rw [Nat.toDigits_eq_if (by norm_num)]
  split_ifs <;> simp

/-- `%x` prints no leading zero. -/
theorem head?_toDigits (n : ℕ) (hn : 0 < n) :
    ((Nat.toDigits 16 n).map Char.toUInt8).head? ≠ some '0'.toUInt8 := by
  induction n using Nat.strong_induction_on with
  | _ n ih =>
    rw [Nat.toDigits_eq_if (by norm_num)]
    split_ifs with h16
    · simp [digitChar_ne_zero n h16 hn]
    · rw [List.map_append, List.head?_append_of_ne_nil _ (by simp [toDigits_ne_nil (n / 16)])]
      exact ih (n / 16) (by omega) (by omega)

/-- Good digits without a leading zero are, up to case, the digits `%x` prints of their number. -/
theorem toDigits_hexValue (l : List UInt8) (hgood : ∀ c ∈ l, decodeNibble c ≠ badNibble)
    (hne : l ≠ []) (hlead : 1 < l.length → l.head? ≠ some '0'.toUInt8) :
    (Nat.toDigits 16 (hexValue l)).map Char.toUInt8 = l.map lowerHex := by
  induction l using List.reverseRecOn with
  | nil => exact absurd rfl hne
  | append_singleton l c ih =>
    have hc := hgood c (by simp)
    by_cases hl : l = []
    · -- one digit
      subst hl
      have hone : hexValue [c] = (decodeNibble c).toNat := by simp [hexValue]
      rw [List.nil_append, hone, Nat.toDigits_of_lt_base (decodeNibble_lt c hc),
        List.map_singleton, List.map_singleton, digitChar_decodeNibble c hc]
    · -- the digits before the last spell a positive number, to which `%x` appends the last
      obtain ⟨h, t, rfl⟩ := List.exists_cons_of_ne_nil hl
      have hh : h ≠ '0'.toUInt8 := fun he => hlead (by simp) (by simp [he])
      have hpos := hexValue_cons_pos h t hh
      have hgood' : ∀ x ∈ h :: t, decodeNibble x ≠ badNibble :=
        fun x hx => hgood x (List.mem_append_left _ hx)
      rw [hexValue_append_singleton, ← Nat.toDigits_append_toDigits (by norm_num) hpos
        (decodeNibble_lt c hc), List.map_append, ih hgood' hl (fun _ => by simpa using hh),
        Nat.toDigits_of_lt_base (decodeNibble_lt c hc), List.map_singleton,
        digitChar_decodeNibble c hc, List.map_append, List.map_singleton]

end Value

section Check

/-- What `checkNumber` passes: `0x` or `0X` and at least one digit, no leading zero but a lone
one. -/
theorem checkNumber_eq_ok {input raw : List UInt8} :
    checkNumber input = .ok raw ↔
      ∃ x, input = '0'.toUInt8 :: x :: raw ∧ (x = 'x'.toUInt8 ∨ x = 'X'.toUInt8) ∧ raw ≠ [] ∧
        (1 < raw.length → raw.head? ≠ some '0'.toUInt8) := by
  match input with
  | [] => simp [checkNumber]
  | [a] => simp [checkNumber, has0xPrefix]
  | a :: b :: rest =>
    by_cases hpre : has0xPrefix (a :: b :: rest) = true
    · have hab : a = '0'.toUInt8 ∧ (b = 'x'.toUInt8 ∨ b = 'X'.toUInt8) := by
        simpa [has0xPrefix] using hpre
      have hcheck : checkNumber (a :: b :: rest) =
          if rest.length = 0 then .error .emptyNumber
          else if rest.length > 1 ∧ rest.head? = some '0'.toUInt8 then .error .leadingZero
          else .ok rest := by
        simp [checkNumber, hpre]
      rw [hcheck]
      constructor
      · intro h
        split_ifs at h with h0 h1
        cases h
        refine ⟨b, by rw [hab.1], hab.2, List.ne_nil_of_length_pos (by omega), ?_⟩
        exact fun hl he => h1 ⟨hl, he⟩
      · rintro ⟨x, hx, -, hne, hlead⟩
        simp only [List.cons.injEq] at hx
        obtain ⟨-, rfl, rfl⟩ := hx
        rw [if_neg (fun h => hne (List.eq_nil_of_length_eq_zero h)),
          if_neg (fun h => hlead h.1 h.2)]
    · have hab : ¬ (a = '0'.toUInt8 ∧ (b = 'x'.toUInt8 ∨ b = 'X'.toUInt8)) := by
        simpa [has0xPrefix] using hpre
      have hcheck : checkNumber (a :: b :: rest) = .error .missingPrefix := by
        simp [checkNumber, hpre]
      rw [hcheck]
      simp only [reduceCtorEq, false_iff]
      rintro ⟨x, hx, hxX, -⟩
      simp only [List.cons.injEq] at hx
      exact hab ⟨hx.1, hx.2.1 ▸ hxX⟩

end Check

section Words

variable {w : ℕ}

/-- A step on a good digit: the word gains the digit, which fits while the chunk is short. -/
theorem wordStep_eq_ok {word : ℕ} {c : UInt8} (hc : decodeNibble c ≠ badNibble)
    (hfit : word * 16 + (decodeNibble c).toNat < 2 ^ (4 * w)) :
    wordStep w word c = .ok (word * 16 + (decodeNibble c).toNat) := by
  rw [wordStep, if_neg hc, Nat.mod_eq_of_lt hfit]

theorem good_of_wordStep_eq_ok {word word' : ℕ} {c : UInt8} (h : wordStep w word c = .ok word') :
    decodeNibble c ≠ badNibble := by
  intro hbad
  rw [wordStep, if_pos hbad] at h
  cases h

/-- A chunk of at most `w` good digits reads into the word it spells. -/
theorem decodeWord_eq_ok (chunk : List UInt8) (hlen : chunk.length ≤ w)
    (hgood : ∀ c ∈ chunk, decodeNibble c ≠ badNibble) : decodeWord w chunk = .ok (hexValue chunk) := by
  induction chunk using List.reverseRecOn with
  | nil => rfl
  | append_singleton l c ih =>
    have hc := hgood c (by simp)
    have hl : l.length ≤ w := by simp at hlen; omega
    -- the word stays below `16 ^ w = 2 ^ (4 * w)`, so the word's arithmetic does not wrap
    have hfit : hexValue (l ++ [c]) < 2 ^ (4 * w) := by
      calc hexValue (l ++ [c]) < 16 ^ (l ++ [c]).length := hexValue_lt _ hgood
        _ ≤ 16 ^ w := Nat.pow_le_pow_right (by norm_num) hlen
        _ = 2 ^ (4 * w) := by rw [pow_mul]; norm_num
    rw [hexValue_append_singleton] at hfit
    rw [decodeWord, List.foldlM_append, ← decodeWord, ih hl fun x hx => hgood x (by simp [hx]),
      Except.ok_bind]
    simp only [List.foldlM_cons, List.foldlM_nil, bind_pure]
    rw [wordStep_eq_ok hc (by omega), hexValue_append_singleton, Nat.mul_comm]

theorem good_of_foldlM_wordStep : ∀ (chunk : List UInt8) {word word' : ℕ},
    chunk.foldlM (wordStep w) word = .ok word' → ∀ c ∈ chunk, decodeNibble c ≠ badNibble
  | [], _, _, _ => by simp
  | c :: chunk, word, word', h => by
    rw [List.foldlM_cons] at h
    obtain ⟨m, hm, hrest⟩ := Except.bind_eq_ok.mp h
    intro x hx
    rcases List.mem_cons.mp hx with rfl | hx
    · exact good_of_wordStep_eq_ok hm
    · exact good_of_foldlM_wordStep chunk hrest x hx

/-- The digits before `stop` are those before `start` and the chunk between. -/
theorem take_eq_take_append_chunk (raw : List UInt8) {start stop : ℕ} (h : start ≤ stop) :
    raw.take stop = raw.take start ++ (raw.take stop).drop start := by
  conv_lhs => rw [← List.take_append_drop start (raw.take stop)]
  rw [List.take_take, Nat.min_eq_left h]

/-- Enough words read every digit before `stop` into words that spell their number. -/
theorem decodeWords_eq_ok (hw : 0 < w) (raw : List UInt8) :
    ∀ (count stop : ℕ), stop ≤ raw.length → stop ≤ count * w →
      (∀ c ∈ raw.take stop, decodeNibble c ≠ badNibble) →
      ∃ words, decodeWords w raw count stop = .ok words ∧ setBits w words = hexValue (raw.take stop)
  | 0, stop, _, hcount, _ => by
    have hstop : stop = 0 := by simpa using hcount
    exact ⟨[], rfl, by simp [setBits, hstop]⟩
  | count + 1, stop, hlen, hcount, hgood => by
    have hsplit := take_eq_take_append_chunk raw (Nat.sub_le stop w)
    set chunk := (raw.take stop).drop (stop - w) with hchunk
    have hchunkLen : chunk.length = stop - (stop - w) := by
      simp only [hchunk, List.length_drop, List.length_take]
      omega
    have hgood' : ∀ c ∈ raw.take stop, decodeNibble c ≠ badNibble := hgood
    rw [hsplit] at hgood'
    have hword := decodeWord_eq_ok (w := w) chunk (by omega) fun c hc => hgood' c (by simp [hc])
    obtain ⟨words, hwords, hval⟩ := decodeWords_eq_ok hw raw count (stop - w) (by omega)
      (by rw [Nat.succ_mul] at hcount; omega) fun c hc => hgood' c (by simp [hc])
    refine ⟨hexValue chunk :: words, ?_, ?_⟩
    · rw [decodeWords]
      simp only [← hchunk, hword, hwords, Except.ok_bind]
      rfl
    · -- the chunk is a whole word unless it is the first digits of all
      rw [setBits, Nat.ofDigits_cons, ← setBits, hval, hsplit, hexValue_append]
      by_cases hstart : stop - w = 0
      · simp [hstart]
      · rw [hchunkLen, show stop - (stop - w) = w by omega, pow_mul]
        norm_num

/-- What the words read is all good digits. -/
theorem good_of_decodeWords_eq_ok (raw : List UInt8) :
    ∀ (count stop : ℕ) {words : List ℕ}, stop ≤ count * w →
      decodeWords w raw count stop = .ok words → ∀ c ∈ raw.take stop, decodeNibble c ≠ badNibble
  | 0, stop, _, hcount, _ => by
    have hstop : stop = 0 := by simpa using hcount
    simp [hstop]
  | count + 1, stop, _, hcount, h => by
    rw [decodeWords] at h
    obtain ⟨word, hword, h⟩ := Except.bind_eq_ok.mp h
    obtain ⟨words, hwords, -⟩ := Except.bind_eq_ok.mp h
    have hchunk := good_of_foldlM_wordStep _ hword
    have hfirst := good_of_decodeWords_eq_ok raw count (stop - w)
      (by rw [Nat.succ_mul] at hcount; omega) hwords
    rw [take_eq_take_append_chunk raw (Nat.sub_le stop w)]
    intro c hc
    rcases List.mem_append.mp hc with hc | hc
    · exact hfirst c hc
    · exact hchunk c hc

end Words

section Digits

/-- Every byte `%x` prints is the digit of a value below 16. -/
theorem mem_map_toDigits (n : ℕ) :
    ∀ c ∈ (Nat.toDigits 16 n).map Char.toUInt8, ∃ d < 16, c = (Nat.digitChar d).toUInt8 := by
  intro c hc
  obtain ⟨ch, hch, rfl⟩ := List.mem_map.mp hc
  obtain ⟨d, hd, rfl⟩ := mem_toDigits_sixteen n ch hch
  exact ⟨d, hd, rfl⟩

/-- `%x` prints lower-case letters. -/
theorem map_lowerHex_toDigits (n : ℕ) :
    ((Nat.toDigits 16 n).map Char.toUInt8).map lowerHex = (Nat.toDigits 16 n).map Char.toUInt8 := by
  rw [List.map_congr_left (g := id), List.map_id]
  intro c hc
  obtain ⟨d, hd, rfl⟩ := mem_map_toDigits n c hc
  exact lowerHex_digitChar d hd

/-- Zero is printed as one digit. -/
theorem pos_of_one_lt_length_toDigits {n : ℕ} (h : 1 < (Nat.toDigits 16 n).length) : 0 < n := by
  refine Nat.pos_of_ne_zero fun h0 => ?_
  rw [h0, Nat.toDigits_of_lt_base (by norm_num)] at h
  simp at h

/-- What `%x` prints passes `checkNumber` after `0x`. -/
theorem checkNumber_toDigits (n : ℕ) :
    checkNumber ('0'.toUInt8 :: 'x'.toUInt8 :: (Nat.toDigits 16 n).map Char.toUInt8) =
      .ok ((Nat.toDigits 16 n).map Char.toUInt8) :=
  checkNumber_eq_ok.mpr ⟨'x'.toUInt8, rfl, Or.inl rfl, by simp,
    fun hl => head?_toDigits n (pos_of_one_lt_length_toDigits (by simpa using hl))⟩

end Digits

section DecodeBig

variable {w : ℕ}

/-- `DecodeBig` on a checked input of at most 64 good digits reads their number. -/
theorem decodeBig_eq_ok_of (hw : 0 < w) {input raw : List UInt8}
    (hcheck : checkNumber input = .ok raw) (hlen : raw.length ≤ 64)
    (hgood : ∀ c ∈ raw, decodeNibble c ≠ badNibble) :
    decodeBig w input = .ok (hexValue raw) := by
  -- `len(raw)/bigWordNibbles + 1` words cover every digit
  have hcount : raw.length ≤ (raw.length / w + 1) * w := by
    have h1 := Nat.div_add_mod raw.length w
    have h2 := Nat.mod_lt raw.length hw
    rw [Nat.succ_mul, Nat.mul_comm]
    omega
  obtain ⟨words, hwords, hval⟩ := decodeWords_eq_ok hw raw (raw.length / w + 1) raw.length le_rfl
    hcount (by rwa [List.take_length])
  rw [List.take_length] at hval
  simp only [decodeBig, hcheck, Except.ok_bind]
  rw [if_neg (by omega), hwords, Except.ok_bind, hval]
  rfl

/-- What `DecodeBig` accepts: exactly the quantities, read as the number they spell, whatever
the size of a word. -/
theorem decodeBig_eq_ok_iff (hw : 0 < w) (input : List UInt8) (v : ℕ) :
    decodeBig w input = .ok v ↔ IsQuantity input v := by
  constructor
  · intro h
    obtain ⟨raw, hcheck, hrest⟩ := Except.bind_eq_ok.mp h
    have hlen : raw.length ≤ 64 := by
      by_contra hlong
      rw [if_pos (by omega), Except.throw_bind] at hrest
      exact Except.throw_ne_ok hrest
    rw [if_neg (by omega)] at hrest
    obtain ⟨words, hwords, -⟩ := Except.bind_eq_ok.mp hrest
    have hgood := good_of_decodeWords_eq_ok raw _ _
      (by have h1 := Nat.div_add_mod raw.length w
          have h2 := Nat.mod_lt raw.length hw
          rw [Nat.succ_mul, Nat.mul_comm]
          omega) hwords
    rw [List.take_length] at hgood
    rw [decodeBig_eq_ok_of hw hcheck hlen hgood] at h
    cases h
    obtain ⟨x, rfl, hx, hne, hlead⟩ := checkNumber_eq_ok.mp hcheck
    refine ⟨?_, x, raw, rfl, hx, (toDigits_hexValue raw hgood hne hlead).symm⟩
    calc hexValue raw < 16 ^ raw.length := hexValue_lt raw hgood
      _ ≤ 16 ^ 64 := Nat.pow_le_pow_right (by norm_num) hlen
      _ = 2 ^ 256 := by norm_num
  · rintro ⟨hv, x, digits, rfl, hx, hdig⟩
    have hgood : ∀ c ∈ digits, decodeNibble c ≠ badNibble := by
      intro c hc
      obtain ⟨d, hd, heq⟩ := mem_map_toDigits v (lowerHex c) (hdig ▸ List.mem_map_of_mem hc)
      rw [← decodeNibble_lowerHex, heq]
      exact decodeNibble_digitChar_ne d hd
    have hval : hexValue digits = v := by
      rw [← hexValue_map_lowerHex, hdig, hexValue_toDigits]
    have hlenEq : digits.length = (Nat.toDigits 16 v).length := by
      simpa using congrArg List.length hdig
    have hlen : digits.length ≤ 64 :=
      hlenEq ▸ Nat.toDigits_length 16 v 64 (by norm_num) (hv.trans_eq (by norm_num))
    have hne : digits ≠ [] := by
      intro hnil
      rw [hnil, List.length_nil, eq_comm, List.length_eq_zero_iff] at hlenEq
      exact toDigits_ne_nil v hlenEq
    -- a leading zero of the input would be one of the digits `%x` prints of a positive number
    have hlead : 1 < digits.length → digits.head? ≠ some '0'.toUInt8 := by
      intro hl hhead
      apply head?_toDigits v (pos_of_one_lt_length_toDigits (hlenEq ▸ hl))
      rw [← hdig, List.head?_map, hhead]
      rfl
    rw [decodeBig_eq_ok_of hw (checkNumber_eq_ok.mpr ⟨x, rfl, hx, hne, hlead⟩) hlen hgood, hval]

/-- `EncodeBig` of a non-negative number: `0x` and its digits (`0x0` for zero). -/
theorem encodeBig_natCast (n : ℕ) :
    encodeBig n = '0'.toUInt8 :: 'x'.toUInt8 :: (Nat.toDigits 16 n).map Char.toUInt8 := by
  by_cases hn : n = 0
  · subst hn
    rfl
  · rw [encodeBig, if_neg (by rwa [Int.natAbs_natCast, Nat.size_eq_zero]), formatHex,
      if_neg (by omega), Int.natAbs_natCast]
    rfl

/-- The magnitude of a non-negative number below 2^256 comes back. -/
theorem decodeBig_encodeBig (hw : 0 < w) (n : ℕ) (hn : n < 2 ^ 256) :
    decodeBig w (encodeBig n) = .ok n := by
  rw [decodeBig_eq_ok_iff hw, encodeBig_natCast]
  exact ⟨hn, 'x'.toUInt8, _, rfl, Or.inl rfl, map_lowerHex_toDigits n⟩

/-- `EncodeBig` writes the sign of a negative number before the prefix, so `DecodeBig` refuses
what it wrote. -/
theorem decodeBig_encodeBig_of_neg (bigWordNibbles : ℕ) (n : Int) (hn : n < 0) :
    decodeBig bigWordNibbles (encodeBig n) = .error .missingPrefix := by
  have hsize : n.natAbs.size ≠ 0 := by
    rw [Ne, Nat.size_eq_zero, Int.natAbs_eq_zero]
    omega
  rw [encodeBig, if_neg hsize, formatHex, if_pos hn]
  rfl

/-- The sign is not ignored: with 64-bit words, `-5` does not come back as `5`. -/
theorem decodeBig_encodeBig_neg_five_ne : decodeBig 16 (encodeBig (-5)) ≠ .ok 5 := by
  rw [decodeBig_encodeBig_of_neg 16 (-5) (by decide)]
  exact Except.throw_ne_ok

end DecodeBig

section Uint64

/-- `ParseUint` reads the digits `%x` prints of a number below 2^64. -/
theorem foldlM_parseStep (l : List UInt8) (hdig : ∀ c ∈ l, ∃ d < 16, c = (Nat.digitChar d).toUInt8)
    (hlt : hexValue l < 2 ^ 64) : l.foldlM parseStep 0 = .ok (hexValue l) := by
  induction l using List.reverseRecOn with
  | nil => rfl
  | append_singleton l c ih =>
    obtain ⟨d, hd, rfl⟩ := hdig c (by simp)
    rw [hexValue_append_singleton, decodeNibble_digitChar d hd] at hlt ⊢
    -- the value before the last digit is below `cutoff`, and the last digit does not overflow
    have hl : hexValue l < 2 ^ 60 := by omega
    rw [List.foldlM_append, ih (fun x hx => hdig x (by simp [hx])) (by omega), Except.ok_bind]
    simp only [List.foldlM_cons, List.foldlM_nil, bind_pure]
    rw [parseStep, parseDigit_digitChar d hd]
    dsimp only
    rw [if_neg (by omega), if_neg (by omega), if_neg (by omega), Nat.mul_comm]

/-- Every `uint64` comes back. -/
theorem decodeUint64_encodeUint64 (x : UInt64) : decodeUint64 (encodeUint64 x) = .ok x := by
  have hval := hexValue_toDigits x.toNat
  rw [decodeUint64, encodeUint64, checkNumber_toDigits, Except.ok_bind, parseUint,
    if_neg (by simp),
    foldlM_parseStep _ (mem_map_toDigits x.toNat) (by rw [hval]; exact x.toNat_lt), hval]
  simp

end Uint64

/-- The quantity codecs: a non-negative number below 2^256 comes back from `EncodeBig`, a
negative one is refused for its sign, every `uint64` comes back, and `DecodeBig` accepts exactly
the quantities, whatever the size of a word. -/
theorem hexCodec_roundTrip (w : ℕ) (hw : 0 < w) :
    (∀ n : ℕ, n < 2 ^ 256 → decodeBig w (encodeBig n) = .ok n) ∧
      (∀ n : Int, n < 0 → decodeBig w (encodeBig n) = .error .missingPrefix) ∧
      (∀ x : UInt64, decodeUint64 (encodeUint64 x) = .ok x) ∧
      ∀ input v, decodeBig w input = .ok v ↔ IsQuantity input v :=
  ⟨decodeBig_encodeBig hw, decodeBig_encodeBig_of_neg w, decodeUint64_encodeUint64,
    decodeBig_eq_ok_iff hw⟩

/-- With 64-bit words, as on the usual platforms. -/
theorem hexCodec_roundTrip_sixteen :
    0 < 16 ∧ decodeBig 16 (encodeBig (255 : ℕ)) = .ok 255 :=
  ⟨by decide, (hexCodec_roundTrip 16 (by decide)).1 255 (by norm_num)⟩

end Classzz.Hexutil
