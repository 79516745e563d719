import Mathlib.Data.List.Basic

/-!
# IP addresses and the subnet counter

`net.IP` and what the discovery table uses of `p2p/netutil/net.go`: `IP.To4`, `IP.Equal`, and
`DistinctNetSet`, which counts addresses by subnet and refuses one more once a subnet holds
`Limit` of them. A subnet's key is the address family byte and the address's first `Subnet`
bits. The map `members` is a total function here: a key it does not hold counts zero, and
`Remove` of such a key leaves it at zero, as the source's `ok` check does.
-/

namespace Classzz.Netutil

/-- `net.IP`: four bytes for IPv4, sixteen for IPv6. -/
abbrev IP := List UInt8

/-- The twelve bytes in front of an IPv4 address in its IPv6 form. -/
def v4InV6Prefix : List UInt8 := [0, 0, 0, 0, 0, 0, 0, 0, 0, 0, 0xff, 0xff]

/-- `IP.To4`: the four bytes of an IPv4 address, in either form. -/
def to4 (ip : IP) : Option IP :=
  if ip.length = 4 then some ip
  else if ip.length = 16 ∧ ip.take 12 = v4InV6Prefix then some (ip.drop 12)
  else none

/-- `IP.Equal`: the same bytes, or one IPv4 address in its two forms. -/
def ipEqual (ip x : IP) : Bool :=
  if ip.length = x.length then ip == x
  else if ip.length = 4 ∧ x.length = 16 then x.take 12 == v4InV6Prefix && ip == x.drop 12
  else if ip.length = 16 ∧ x.length = 4 then ip.take 12 == v4InV6Prefix && ip.drop 12 == x
  else false

/-- `DistinctNetSet`: at most `limit` addresses in each subnet of `subnet` bits. -/
structure DistinctNetSet where
  subnet : ℕ
  limit : ℕ
  members : List UInt8 → ℕ

namespace DistinctNetSet

/-- `key`: the family byte, `'4'` or `'6'`, then the address's first `subnet` bits. -/
def key (subnet : ℕ) (ip : IP) : List UInt8 :=
  let (typ, ip) : UInt8 × IP := match to4 ip with
    | some ip4 => (52, ip4)
    | none => (54, ip)
  let bits := min subnet (ip.length * 8)
  let nb := bits / 8
  let mask : UInt8 := ~~~((0xFF : UInt8) >>> (bits % 8).toUInt8)
  typ :: ip.take nb ++ if nb < ip.length ∧ mask ≠ 0 then [ip.getD nb 0 &&& mask] else []

/-- `Add`: one more address in the subnet of `ip`, unless it holds `limit` already. -/
def add (s : DistinctNetSet) (ip : IP) : Bool × DistinctNetSet :=
  let k := key s.subnet ip
  if s.members k < s.limit then
    (true, { s with members := Function.update s.members k (s.members k + 1) })
  else (false, s)

/-- `Remove`: one address fewer in the subnet of `ip`. -/
def remove (s : DistinctNetSet) (ip : IP) : DistinctNetSet :=
  let k := key s.subnet ip
  { s with members := Function.update s.members k (s.members k - 1) }

variable (s : DistinctNetSet) (ip : IP)

theorem add_of_lt (h : s.members (key s.subnet ip) < s.limit) :
    s.add ip = (true, { s with
      members := Function.update s.members (key s.subnet ip) (s.members (key s.subnet ip) + 1) })
    := by
  simp only [add, if_pos h]

theorem add_of_le (h : s.limit ≤ s.members (key s.subnet ip)) : s.add ip = (false, s) := by
  simp only [add, if_neg (Nat.not_lt.mpr h)]

@[simp]
theorem subnet_add : (s.add ip).2.subnet = s.subnet := by
  dsimp only [add]
  split_ifs <;> rfl

@[simp]
theorem limit_add : (s.add ip).2.limit = s.limit := by
  dsimp only [add]
  split_ifs <;> rfl

@[simp]
theorem subnet_remove : (s.remove ip).subnet = s.subnet := rfl

@[simp]
theorem limit_remove : (s.remove ip).limit = s.limit := rfl

/-- An address refused leaves the set as it was. -/
theorem add_eq_false (h : (s.add ip).1 = false) : (s.add ip).2 = s := by
  by_cases hlt : s.members (key s.subnet ip) < s.limit
  · rw [s.add_of_lt ip hlt] at h
    cases h
  · rw [s.add_of_le ip (Nat.le_of_not_lt hlt)]

/-- `Remove` right after an `Add` that took the address undoes it. -/
theorem remove_add (h : (s.add ip).1 = true) : (s.add ip).2.remove ip = s := by
  by_cases hlt : s.members (key s.subnet ip) < s.limit
  · rw [s.add_of_lt ip hlt]
    simp only [remove, Function.update_self, Nat.add_sub_cancel, Function.update_idem,
      Function.update_eq_self]
  · rw [s.add_of_le ip (Nat.le_of_not_lt hlt)] at h
    cases h

theorem members_add_self (h : s.members (key s.subnet ip) < s.limit) :
    (s.add ip).2.members (key s.subnet ip) = s.members (key s.subnet ip) + 1 := by
  rw [s.add_of_lt ip h]
  exact Function.update_self _ _ _

@[simp]
theorem members_remove_self :
    (s.remove ip).members (key s.subnet ip) = s.members (key s.subnet ip) - 1 :=
  Function.update_self _ _ _

/-- `Add` lowers no subnet's count. -/
theorem members_le_add (k : List UInt8) : s.members k ≤ (s.add ip).2.members k := by
  dsimp only [add]
  split_ifs
  · by_cases hk : k = key s.subnet ip
    · subst hk
      simp
    · simp [Function.update_of_ne hk]
  · exact Nat.le_refl _

theorem add_fst_eq_false_iff : (s.add ip).1 = false ↔ s.limit ≤ s.members (key s.subnet ip) := by
  by_cases hlt : s.members (key s.subnet ip) < s.limit
  · rw [s.add_of_lt ip hlt]
    simp only [Bool.true_eq_false, false_iff, Nat.not_le]
    exact hlt
  · rw [s.add_of_le ip (Nat.le_of_not_lt hlt)]
    simp only [true_iff]
    exact Nat.le_of_not_lt hlt

/-- A set with the same subnets and limit and no fewer addresses refuses what `s` refuses. -/
theorem add_fst_eq_false_of_le {s' : DistinctNetSet} (hsub : s'.subnet = s.subnet)
    (hlim : s'.limit = s.limit) (hle : ∀ k, s.members k ≤ s'.members k)
    (h : (s.add ip).1 = false) : (s'.add ip).1 = false := by
  rw [add_fst_eq_false_iff] at h ⊢
  rw [hsub, hlim]
  exact Nat.le_trans h (hle _)

/-- The set counts `m` addresses in the subnet `k`, with `sub` bits to a subnet and room for
`lim` in each. -/
structure Counts (s : DistinctNetSet) (sub lim : ℕ) (k : List UInt8) (m : ℕ) : Prop where
  subnet_eq : s.subnet = sub
  limit_eq : s.limit = lim
  members_eq : s.members k = m

variable {s} {sub lim m : ℕ} {k : List UInt8} {ip}

theorem Counts.lt (h : Counts s sub lim k m) (hk : key sub ip = k) (hm : m < lim) :
    s.members (key s.subnet ip) < s.limit := by
  rw [h.subnet_eq, hk, h.members_eq, h.limit_eq]
  exact hm

/-- An address of the subnet with room for it adds one. -/
theorem Counts.add (h : Counts s sub lim k m) (hk : key sub ip = k) (hm : m < lim) :
    Counts (s.add ip).2 sub lim k (m + 1) := by
  have hlt := h.lt hk hm
  refine ⟨by rw [subnet_add, h.subnet_eq], by rw [limit_add, h.limit_eq], ?_⟩
  rw [← hk, ← h.subnet_eq, members_add_self s ip hlt, h.subnet_eq, hk, h.members_eq]

/-- An address of the subnet taken out subtracts one, held or not. -/
theorem Counts.remove (h : Counts s sub lim k m) (hk : key sub ip = k) :
    Counts (s.remove ip) sub lim k (m - 1) := by
  refine ⟨h.subnet_eq, h.limit_eq, ?_⟩
  rw [← hk, ← h.subnet_eq, members_remove_self, h.subnet_eq, hk, h.members_eq]

end DistinctNetSet

end Classzz.Netutil
