import Classzz.Core.Types.Header

/-!
# EIP-1559 header checks

`misc.VerifyGaslimit`, `misc.CalcBaseFee` and `misc.VerifyEip1559Header`, the
checks that a header's gas limit moved by less than a 1024th of its parent's
and that its base fee is the one its parent's gas use implies.

`CalcBaseFee` reads the parent's base fee through a pointer and divides by
the parent's gas target, so it panics on a parent without a base fee and on
a parent whose gas target is zero but whose gas use is not.

The gas-limit distance `gasLimitDiff` is computed the same way here and in
the ethash verifier, with `int64` arithmetic that wraps.
-/

namespace Classzz

/-- `params.GasLimitBoundDivisor`. -/
def gasLimitBoundDivisor : UInt64 := 1024

/-- `params.MinGasLimit`. -/
def minGasLimit : UInt64 := 5000

/-- `params.ElasticityMultiplier`. -/
def elasticityMultiplier : UInt64 := 2

/-- `params.BaseFeeChangeDenominator`. -/
def baseFeeChangeDenominator : ℕ := 8

/-- `diff := int64(parent) - int64(header)`, negated when negative, and read
back as a `uint64`. -/
def gasLimitDiff (parentGasLimit headerGasLimit : UInt64) : UInt64 :=
  let diff := parentGasLimit.toInt64 - headerGasLimit.toInt64
  let diff := if diff < 0 then diff * -1 else diff
  diff.toUInt64

/-- The errors of the EIP-1559 checks, with the values their messages print. -/
inductive Eip1559Error where
  /-- "invalid gas limit: have %d, want %d +-= %d" -/
  | invalidGasLimit (headerGasLimit parentGasLimit bound : UInt64)
  /-- "invalid gas limit below 5000" -/
  | gasLimitBelowMinimum
  /-- "header is missing baseFee" -/
  | missingBaseFee
  /-- "invalid baseFee: have %s, want %s, parentBaseFee %s, parentGasUsed %d",
  which prints the expected fee first. -/
  | invalidBaseFee (expectedBaseFee baseFee : ℕ) (parentBaseFee : Option ℕ)
      (parentGasUsed : UInt64)
  deriving DecidableEq, Repr

/-- `misc.VerifyGaslimit`. -/
def verifyGaslimit (parentGasLimit headerGasLimit : UInt64) : Except Eip1559Error Unit := do
  let limit := parentGasLimit / gasLimitBoundDivisor
  if limit ≤ gasLimitDiff parentGasLimit headerGasLimit then
    throw (.invalidGasLimit headerGasLimit parentGasLimit (limit - 1))
  if headerGasLimit < minGasLimit then throw .gasLimitBelowMinimum
  pure ()

/-- `misc.CalcBaseFee`. Every branch reads the parent's base fee before it
divides, so a nil base fee panics first. -/
def calcBaseFee (parent : Header) : Except Panic ℕ := do
  let parentGasTarget := parent.gasLimit / elasticityMultiplier
  let some parentBaseFee := parent.baseFee | throw .nilPointerDereference
  if parent.gasUsed = parentGasTarget then return parentBaseFee
  -- a zero target is below any other gas use, which takes the dividing branch
  if parentGasTarget = 0 then throw .divisionByZero
  if parentGasTarget < parent.gasUsed then
    let gasUsedDelta := (parent.gasUsed - parentGasTarget).toNat
    let y := parentBaseFee * gasUsedDelta / parentGasTarget.toNat
    return parentBaseFee + max (y / baseFeeChangeDenominator) 1
  else
    let gasUsedDelta := (parentGasTarget - parent.gasUsed).toNat
    let y := parentBaseFee * gasUsedDelta / parentGasTarget.toNat
    -- `BigMax(parentBaseFee - delta, 0)` is truncated subtraction
    return parentBaseFee - y / baseFeeChangeDenominator

/-- `misc.VerifyEip1559Header`. -/
def verifyEip1559Header (parent header : Header) : Except (Fault Eip1559Error) Unit := do
  (verifyGaslimit parent.gasLimit header.gasLimit).mapError .error
  let some baseFee := header.baseFee | throw (.error .missingBaseFee)
  let expectedBaseFee ← (calcBaseFee parent).mapError .panic
  if baseFee ≠ expectedBaseFee then
    throw (.error (.invalidBaseFee expectedBaseFee baseFee parent.baseFee parent.gasUsed))
  pure ()

theorem verifyGaslimit_eq_ok {parentGasLimit headerGasLimit : UInt64} :
    verifyGaslimit parentGasLimit headerGasLimit = .ok () ↔
      gasLimitDiff parentGasLimit headerGasLimit < parentGasLimit / gasLimitBoundDivisor ∧
        minGasLimit ≤ headerGasLimit := by
  simp [verifyGaslimit, Except.throw_bind, Except.ite_throw_eq_ok, Except.pure_eq_ok]

/-- A header passes the EIP-1559 checks exactly when its gas limit is in
bounds and it carries the base fee computed from its parent. -/
theorem verifyEip1559Header_eq_ok {parent header : Header} :
    verifyEip1559Header parent header = .ok () ↔
      verifyGaslimit parent.gasLimit header.gasLimit = .ok () ∧
        ∃ fee, calcBaseFee parent = .ok fee ∧ header.baseFee = some fee := by
  cases hb : header.baseFee with
  | none =>
      simp [verifyEip1559Header, hb, Except.bind_eq_ok, Except.mapError_eq_ok]
  | some baseFee =>
      simp only [verifyEip1559Header, hb, Except.bind_eq_ok, Except.mapError_eq_ok,
        Except.throw_bind, Except.ite_throw_eq_ok, not_not, Except.pure_eq_ok, and_true,
        Option.some.injEq]
      constructor
      · rintro ⟨⟨⟩, hgas, fee, hfee, rfl⟩
        exact ⟨hgas, baseFee, hfee, rfl⟩
      · rintro ⟨hgas, fee, hfee, rfl⟩
        exact ⟨(), hgas, baseFee, hfee, rfl⟩

/-! ### The base fee update law

Above the gas target the fee rises by at least one and by an eighth of its share of the
overshoot; below it, it falls by an eighth of its share of the shortfall. The overshoot is
measured against the target `GasLimit / 2`, which for an odd gas limit is one less than the
room above it, so a full block with an odd limit raises the fee by slightly more than an
eighth (`calcBaseFee_overshoots_eighth`). -/

section BaseFeeLaw

variable {parent : Header} {b : ℕ}

theorem toNat_gasTarget (gasLimit : UInt64) :
    (gasLimit / elasticityMultiplier).toNat = gasLimit.toNat / 2 := by
  simp [elasticityMultiplier, UInt64.toNat_div]

theorem gasTarget_ne_zero {gasLimit : UInt64} (hpos : 0 < gasLimit.toNat / 2) :
    gasLimit / elasticityMultiplier ≠ 0 := by
  intro h
  have htarget := toNat_gasTarget gasLimit
  rw [h] at htarget
  simp at htarget
  omega

/-- At or below the target, the base fee falls by an eighth of its share of the unused
target, which is nothing at the target itself. -/
theorem calcBaseFee_of_le_target (hfee : parent.baseFee = some b)
    (hpos : 0 < parent.gasLimit.toNat / 2)
    (hle : parent.gasUsed.toNat ≤ parent.gasLimit.toNat / 2) :
    calcBaseFee parent = .ok (b - b * (parent.gasLimit.toNat / 2 - parent.gasUsed.toNat) /
      (parent.gasLimit.toNat / 2) / baseFeeChangeDenominator) := by
  have htarget := toNat_gasTarget parent.gasLimit
  have hle' : parent.gasUsed ≤ parent.gasLimit / elasticityMultiplier := by
    rw [UInt64.le_iff_toNat_le, htarget]
    exact hle
  by_cases heq : parent.gasUsed = parent.gasLimit / elasticityMultiplier
  · have hu : parent.gasUsed.toNat = parent.gasLimit.toNat / 2 := by rw [heq, htarget]
    rw [hu, Nat.sub_self, Nat.mul_zero, Nat.zero_div, Nat.zero_div, Nat.sub_zero]
    simp [calcBaseFee, hfee, heq]
    rfl
  · simp [calcBaseFee, hfee, heq, gasTarget_ne_zero hpos, UInt64.not_lt.mpr hle',
      UInt64.toNat_sub_of_le _ _ hle', htarget]
    rfl

/-- Above the target, the base fee rises by an eighth of its share of the overshoot, and
by at least one. -/
theorem calcBaseFee_of_target_lt (hfee : parent.baseFee = some b)
    (hpos : 0 < parent.gasLimit.toNat / 2)
    (hlt : parent.gasLimit.toNat / 2 < parent.gasUsed.toNat) :
    calcBaseFee parent = .ok (b + max (b * (parent.gasUsed.toNat - parent.gasLimit.toNat / 2) /
      (parent.gasLimit.toNat / 2) / baseFeeChangeDenominator) 1) := by
  have htarget := toNat_gasTarget parent.gasLimit
  have hlt' : parent.gasLimit / elasticityMultiplier < parent.gasUsed := by
    rw [UInt64.lt_iff_toNat_lt, htarget]
    exact hlt
  simp [calcBaseFee, hfee, gasTarget_ne_zero hpos, hlt', (UInt64.ne_of_lt hlt').symm,
    UInt64.toNat_sub_of_le _ _ (UInt64.le_of_lt hlt'), htarget]
  rfl

/-- The change of the base fee grows with the gas it is a share of. -/
theorem baseFeeDelta_mono (b target : ℕ) {x y : ℕ} (h : x ≤ y) :
    b * x / target / baseFeeChangeDenominator ≤ b * y / target / baseFeeChangeDenominator :=
  Nat.div_le_div_right (Nat.div_le_div_right (Nat.mul_le_mul_left b h))

/-- A share of at most the whole target moves the base fee by at most an eighth of it. -/
theorem baseFeeDelta_le {target x : ℕ} (hpos : 0 < target) (h : x ≤ target) :
    b * x / target / baseFeeChangeDenominator ≤ b / baseFeeChangeDenominator := by
  have hshare := baseFeeDelta_mono b target h
  rwa [Nat.mul_div_cancel b hpos] at hshare

/-- More gas used never lowers the next base fee. -/
theorem calcBaseFee_mono (hfee : parent.baseFee = some b) (hpos : 0 < parent.gasLimit.toNat / 2)
    {gasUsed : UInt64} (hused : parent.gasUsed ≤ gasUsed) :
    ∃ fee fee', calcBaseFee parent = .ok fee ∧
      calcBaseFee { parent with gasUsed := gasUsed } = .ok fee' ∧ fee ≤ fee' := by
  have hu := UInt64.le_iff_toNat_le.mp hused
  -- the parent with the new gas use has the same limit and base fee
  have hfee' : ({ parent with gasUsed := gasUsed } : Header).baseFee = some b := hfee
  rcases Nat.lt_or_ge (parent.gasLimit.toNat / 2) gasUsed.toNat with hlt' | hle'
  · have h' : calcBaseFee { parent with gasUsed := gasUsed } =
        .ok (b + max (b * (gasUsed.toNat - parent.gasLimit.toNat / 2) /
          (parent.gasLimit.toNat / 2) / baseFeeChangeDenominator) 1) :=
      calcBaseFee_of_target_lt hfee' hpos hlt'
    rcases Nat.lt_or_ge (parent.gasLimit.toNat / 2) parent.gasUsed.toNat with hlt | hle
    · -- both above the target: a larger overshoot
      have hd := baseFeeDelta_mono b (parent.gasLimit.toNat / 2)
        (Nat.sub_le_sub_right hu (parent.gasLimit.toNat / 2))
      exact ⟨_, _, calcBaseFee_of_target_lt hfee hpos hlt, h', by omega⟩
    · -- across the target: a fall, then a rise
      exact ⟨_, _, calcBaseFee_of_le_target hfee hpos hle, h',
        (Nat.sub_le _ _).trans (Nat.le_add_right _ _)⟩
  · -- both at or below the target: a smaller shortfall
    have hd := baseFeeDelta_mono b (parent.gasLimit.toNat / 2)
      (Nat.sub_le_sub_left hu (parent.gasLimit.toNat / 2))
    have h' : calcBaseFee { parent with gasUsed := gasUsed } =
        .ok (b - b * (parent.gasLimit.toNat / 2 - gasUsed.toNat) /
          (parent.gasLimit.toNat / 2) / baseFeeChangeDenominator) :=
      calcBaseFee_of_le_target hfee' hpos hle'
    refine ⟨_, _, calcBaseFee_of_le_target hfee hpos (hu.trans hle'), h', ?_⟩
    generalize b * (parent.gasLimit.toNat / 2 - parent.gasUsed.toNat) /
      (parent.gasLimit.toNat / 2) / baseFeeChangeDenominator = d at hd ⊢
    generalize b * (parent.gasLimit.toNat / 2 - gasUsed.toNat) /
      (parent.gasLimit.toNat / 2) / baseFeeChangeDenominator = d' at hd ⊢
    omega

/-- The base fee update law for a parent within the gas limits: `CalcBaseFee` does not
panic; it keeps the fee at the target, raises it by at least one and at most an eighth of
its share of the room above the target when above it, which is an eighth of the fee for an
even gas limit, lowers it by at most an eighth below the target, and never falls when more
gas is used. -/
theorem calcBaseFee_law (parent : Header) (b : ℕ) (hlimit : minGasLimit ≤ parent.gasLimit)
    (hused : parent.gasUsed ≤ parent.gasLimit) (hfee : parent.baseFee = some b) :
    ∃ fee, calcBaseFee parent = .ok fee ∧
      (parent.gasUsed.toNat = parent.gasLimit.toNat / 2 → fee = b) ∧
      (parent.gasLimit.toNat / 2 < parent.gasUsed.toNat →
        b + 1 ≤ fee ∧
          fee ≤ b + max 1 (b * (parent.gasLimit.toNat - parent.gasLimit.toNat / 2) /
            (parent.gasLimit.toNat / 2) / baseFeeChangeDenominator) ∧
          (parent.gasLimit.toNat % 2 = 0 → fee ≤ b + max 1 (b / baseFeeChangeDenominator))) ∧
      (parent.gasUsed.toNat < parent.gasLimit.toNat / 2 →
        b - b / baseFeeChangeDenominator ≤ fee ∧ fee ≤ b) ∧
      ∀ gasUsed, parent.gasUsed ≤ gasUsed → gasUsed ≤ parent.gasLimit →
        ∃ fee', calcBaseFee { parent with gasUsed := gasUsed } = .ok fee' ∧ fee ≤ fee' := by
  have hL : 5000 ≤ parent.gasLimit.toNat := UInt64.le_iff_toNat_le.mp hlimit
  have hu : parent.gasUsed.toNat ≤ parent.gasLimit.toNat := UInt64.le_iff_toNat_le.mp hused
  have hpos : 0 < parent.gasLimit.toNat / 2 := by omega
  -- the monotone part holds from whichever side of the target the parent is on
  have hmono : ∀ gasUsed, parent.gasUsed ≤ gasUsed → ∀ fee, calcBaseFee parent = .ok fee →
      ∃ fee', calcBaseFee { parent with gasUsed := gasUsed } = .ok fee' ∧ fee ≤ fee' := by
    intro gasUsed h fee hok
    obtain ⟨fee₁, fee', h₁, h', hle⟩ := calcBaseFee_mono hfee hpos h
    rw [hok, Except.ok.injEq] at h₁
    exact ⟨fee', h', h₁ ▸ hle⟩
  rcases Nat.lt_or_ge (parent.gasLimit.toNat / 2) parent.gasUsed.toNat with hlt | hle
  · have hok := calcBaseFee_of_target_lt hfee hpos hlt
    -- the overshoot is at most the room above the target, which for an even limit is the
    -- target itself
    have hroom := baseFeeDelta_mono b (parent.gasLimit.toNat / 2)
      (Nat.sub_le_sub_right hu (parent.gasLimit.toNat / 2))
    have heven : parent.gasLimit.toNat % 2 = 0 →
        b * (parent.gasUsed.toNat - parent.gasLimit.toNat / 2) / (parent.gasLimit.toNat / 2) /
          baseFeeChangeDenominator ≤ b / baseFeeChangeDenominator := fun h =>
      baseFeeDelta_le hpos (by omega)
    refine ⟨_, hok, by omega, fun _ => ⟨by omega, by omega, fun h => ?_⟩, by omega,
      fun gasUsed h _ => hmono gasUsed h _ hok⟩
    have := heven h
    omega
  · have hok := calcBaseFee_of_le_target hfee hpos hle
    have hshort := baseFeeDelta_le (b := b) hpos
      (Nat.sub_le (parent.gasLimit.toNat / 2) parent.gasUsed.toNat)
    refine ⟨_, hok, fun h => ?_, by omega, fun _ => ?_, fun gasUsed h _ => hmono gasUsed h _ hok⟩
    · rw [h, Nat.sub_self, Nat.mul_zero, Nat.zero_div, Nat.zero_div, Nat.sub_zero]
    · generalize b * (parent.gasLimit.toNat / 2 - parent.gasUsed.toNat) /
        (parent.gasLimit.toNat / 2) / baseFeeChangeDenominator = d at hshort ⊢
      omega

/-- A parent with the odd gas limit 5001, used in full, at a base fee of 20000. -/
def fullOddParent : Header where
  parentHash := 0
  coinbase := 0
  root := 0
  txHash := 0
  receiptHash := 0
  bloom := 0
  difficulty := 0
  number := 0
  gasLimit := 5001
  gasUsed := 5001
  time := 0
  extra := []
  nonce := 0
  baseFee := some 20000

theorem calcBaseFee_law_fullOdd :
    minGasLimit ≤ fullOddParent.gasLimit ∧ fullOddParent.gasUsed ≤ fullOddParent.gasLimit ∧
      fullOddParent.baseFee = some 20000 ∧
      ∃ fee, calcBaseFee fullOddParent = .ok fee ∧
        (fullOddParent.gasUsed.toNat = fullOddParent.gasLimit.toNat / 2 → fee = 20000) ∧
        (fullOddParent.gasLimit.toNat / 2 < fullOddParent.gasUsed.toNat →
          20000 + 1 ≤ fee ∧
            fee ≤ 20000 + max 1 (20000 * (fullOddParent.gasLimit.toNat -
              fullOddParent.gasLimit.toNat / 2) / (fullOddParent.gasLimit.toNat / 2) /
                baseFeeChangeDenominator) ∧
            (fullOddParent.gasLimit.toNat % 2 = 0 →
              fee ≤ 20000 + max 1 (20000 / baseFeeChangeDenominator))) ∧
        (fullOddParent.gasUsed.toNat < fullOddParent.gasLimit.toNat / 2 →
          20000 - 20000 / baseFeeChangeDenominator ≤ fee ∧ fee ≤ 20000) ∧
        ∀ gasUsed, fullOddParent.gasUsed ≤ gasUsed → gasUsed ≤ fullOddParent.gasLimit →
          ∃ fee', calcBaseFee { fullOddParent with gasUsed := gasUsed } = .ok fee' ∧
            fee ≤ fee' :=
  ⟨by decide, by decide, rfl,
    calcBaseFee_law fullOddParent 20000 (by decide) (by decide) rfl⟩

/-- A full block with an odd gas limit raises the base fee by more than an eighth of it:
the room above the target is one more than the target. -/
theorem calcBaseFee_overshoots_eighth :
    minGasLimit ≤ fullOddParent.gasLimit ∧ fullOddParent.gasUsed ≤ fullOddParent.gasLimit ∧
      fullOddParent.gasLimit.toNat / 2 < fullOddParent.gasUsed.toNat ∧
      calcBaseFee fullOddParent = .ok 22501 ∧
      20000 + max 1 (20000 / baseFeeChangeDenominator) < 22501 := by
  decide

end BaseFeeLaw

end Classzz
