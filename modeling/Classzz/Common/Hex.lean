import Classzz.Common.Types

/-!
# Reading an address back from its hex spelling

`ConvertItem.Clone` rebuilds the router address as
`common.HexToAddress(ci.RouterAddr.String())`. The spelling is `0x` and forty
digits, all ASCII, so `FromHex` strips the prefix, sees an even length and
decodes twenty pairs. The big-endian value of the pairs is the value the
digits spell (`foldl_decodeHexPairs`), and the digits of `Address.hex`
spell the address (`hexFold_toDigits`), so the rebuilt address is the address
(`hexToAddress_hex`). The EIP-55 spelling differs in letter case only, which
`hexDigit?` reads alike.
-/

namespace Classzz

/-- `common.HexToAddress`. -/
def hexToAddress (s : String) : Address :=
  bytesToAddress (fromHex s)

/-- The number the hex digits `cs` spell after the digits already read as
`acc`, read as `bytesToNat` reads bytes. -/
def hexFold (acc : ℕ) (cs : List Char) : ℕ :=
  cs.foldl (fun acc c => 16 * acc + (hexDigit? c).getD 0) acc

/-- A character `hexDigit?` reads as a digit. -/
def IsHexDigit (c : Char) : Prop :=
  ∃ d < 16, hexDigit? c = some d

section Digits

theorem hexDigit?_digitChar : ∀ d < 16, hexDigit? (Nat.digitChar d) = some d := by
  decide

theorem utf8Size_digitChar : ∀ d < 16, (Nat.digitChar d).utf8Size = 1 := by
  decide

/-- Every digit of `Nat.toDigits 16 n` is the digit of a value below 16. -/
theorem mem_toDigits_sixteen (n : ℕ) :
    ∀ c ∈ Nat.toDigits 16 n, ∃ d < 16, c = Nat.digitChar d := by
  induction n using Nat.strong_induction_on with
  | _ n ih =>
    rw [Nat.toDigits_eq_if (by norm_num)]
    split_ifs with hn
    · simp only [List.mem_singleton]
      rintro c rfl
      exact ⟨n, hn, rfl⟩
    · simp only [List.mem_append, List.mem_singleton]
      rintro c (hc | rfl)
      · exact ih (n / 16) (by omega) c hc
      · exact ⟨n % 16, Nat.mod_lt _ (by norm_num), rfl⟩

theorem hexFold_append_singleton (acc : ℕ) (cs : List Char) (c : Char) :
    hexFold acc (cs ++ [c]) = 16 * hexFold acc cs + (hexDigit? c).getD 0 := by
  simp [hexFold, List.foldl_append]

/-- Reading the digits of `n` after `acc` shifts `acc` past them. -/
theorem hexFold_toDigits (acc n : ℕ) :
    hexFold acc (Nat.toDigits 16 n) = 16 ^ (Nat.toDigits 16 n).length * acc + n := by
  induction n using Nat.strong_induction_on with
  | _ n ih =>
    rw [Nat.toDigits_eq_if (by norm_num)]
    split_ifs with hn
    · simp [hexFold, hexDigit?_digitChar n hn, mul_comm]
    · have hd := hexDigit?_digitChar (n % 16) (Nat.mod_lt _ (by norm_num))
      rw [hexFold_append_singleton, ih (n / 16) (by omega), hd, Option.getD_some,
        List.length_append, List.length_singleton, pow_succ]
      have hdiv := Nat.div_add_mod n 16
      calc 16 * (16 ^ (Nat.toDigits 16 (n / 16)).length * acc + n / 16) + n % 16
          = 16 ^ (Nat.toDigits 16 (n / 16)).length * 16 * acc + (16 * (n / 16) + n % 16) := by
            ring
        _ = _ := by rw [hdiv]

theorem hexFold_replicate_zero (k : ℕ) : hexFold 0 (List.replicate k '0') = 0 := by
  induction k with
  | zero => rfl
  | succ k ih =>
    rw [List.replicate_succ', hexFold_append_singleton, ih]
    rfl

/-- The bytes decoded from pairs of valid digits read as the digits do. -/
theorem foldl_decodeHexPairs (n : ℕ) :
    ∀ (cs : List Char) (acc : ℕ), cs.length = 2 * n → (∀ c ∈ cs, IsHexDigit c) →
      (decodeHexPairs cs).foldl (fun acc x => 256 * acc + x.toNat) acc = hexFold acc cs := by
  -- the induction is on the number of pairs: each step decodes two digits into one byte
  induction n with
  | zero =>
    intro cs acc hlen _
    have hnil : cs = [] := List.length_eq_zero_iff.mp (by omega)
    subst hnil
    rfl
  | succ n ih =>
    intro cs acc hlen hdig
    match cs, hlen with
    | p :: q :: rest, hlen =>
      obtain ⟨a, ha, hpa⟩ := hdig p (by simp)
      obtain ⟨b, hb, hqb⟩ := hdig q (by simp)
      have hbyte : (UInt8.ofNat (16 * a + b)).toNat = 16 * a + b := by
        rw [UInt8.toNat_ofNat']
        omega
      have hrest : ∀ c ∈ rest, IsHexDigit c := fun c hc => hdig c (by simp [hc])
      simp only [decodeHexPairs, hpa, hqb, List.foldl_cons, hbyte]
      rw [ih rest _ (by simp at hlen; omega) hrest]
      simp only [hexFold, List.foldl_cons, hpa, hqb, Option.getD_some]
      congr 1
      ring

end Digits

section Spelling

theorem toList_hex (a : Address) :
    a.hex.toList = '0' :: 'x' ::
      (List.replicate (40 - (Nat.toDigits 16 a.val).length) '0' ++ Nat.toDigits 16 a.val) := by
  simp [Address.hex, String.toList_ofList]

theorem length_toDigits_address (a : Address) : (Nat.toDigits 16 a.val).length ≤ 40 :=
  (Nat.length_toDigits_le_iff (by norm_num) (by norm_num)).mpr (a.isLt.trans_eq (by norm_num))

/-- The forty digits of an address, padding included. -/
theorem hexDigits_address (a : Address) :
    ∀ c ∈ List.replicate (40 - (Nat.toDigits 16 a.val).length) '0' ++ Nat.toDigits 16 a.val,
      ∃ d < 16, c = Nat.digitChar d := by
  intro c hc
  rcases List.mem_append.mp hc with hc | hc
  · exact ⟨0, by norm_num, (List.eq_of_mem_replicate hc).trans rfl⟩
  · exact mem_toDigits_sixteen _ c hc

/-- `common.HexToAddress(a.String())` is `a`. -/
theorem hexToAddress_hex (a : Address) : hexToAddress a.hex = a := by
  set cs := List.replicate (40 - (Nat.toDigits 16 a.val).length) '0' ++ Nat.toDigits 16 a.val
    with hcs
  have hdigits := hexDigits_address a
  rw [← hcs] at hdigits
  have hlen : cs.length = 40 := by
    simp only [hcs, List.length_append, List.length_replicate]
    have := length_toDigits_address a
    omega
  -- every digit is ASCII, so the byte length `FromHex` checks is the digit count
  have hsize : (cs.map Char.utf8Size).sum = 40 := by
    have hone : ∀ c ∈ cs, c.utf8Size = 1 := by
      intro c hc
      obtain ⟨d, hd, rfl⟩ := hdigits c hc
      exact utf8Size_digitChar d hd
    rw [List.map_congr_left hone]
    simpa using hlen
  have hvalid : ∀ c ∈ cs, IsHexDigit c := by
    intro c hc
    obtain ⟨d, hd, rfl⟩ := hdigits c hc
    exact ⟨d, hd, hexDigit?_digitChar d hd⟩
  have hvalue : bytesToNat (decodeHexPairs cs) = a.val := by
    rw [bytesToNat, foldl_decodeHexPairs 20 cs 0 hlen hvalid, hcs, hexFold, List.foldl_append]
    have hzero := hexFold_replicate_zero (40 - (Nat.toDigits 16 a.val).length)
    rw [hexFold] at hzero
    rw [hzero, ← hexFold, hexFold_toDigits]
    simp
  have hfrom : fromHex a.hex = decodeHexPairs cs := by
    simp only [fromHex, toList_hex, ← hcs, hsize]
    rfl
  rw [hexToAddress, hfrom, bytesToAddress, hvalue]
  exact Fin.ext (Nat.mod_eq_of_lt a.isLt)

end Spelling

end Classzz
