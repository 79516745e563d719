import Classzz.Consensus.Misc.Eip1559

/-!
# The ethash header verifier

`Ethash.verifyHeader` with `CalcDifficulty`, `Ethash.verifySeal` and
`Ethash.SealHash`. The seal hash is the Keccak-256 hash of the RLP list of the
twelve header fields that `SealHash` names one by one; the proof of work is
`HashCZZ` of the seal hash and the nonce, at most `2 ^ 256` over the
difficulty, which the stake factor divides. Keccak-256 and `HashCZZ` are not
modelled: both are parameters.

`SealHash` leaves out `BaseFee`, and no check of `verifyHeader` reads it, so
a header verifies with any base fee, or none, exactly as it does with the one
it was sealed with (`verifyHeader_baseFee`), while `Header.Hash`, which covers
the base fee, names a different block.
-/

namespace Classzz

/-- `ethash.Mode`. -/
inductive Mode where
  | normal
  | shared
  | test
  | fake
  | fullFake
  deriving DecidableEq, Repr

/-- What verification reads of an `Ethash` engine. Its `shared` pointer is
always nil, since `sharedEthash` is never assigned, so a shared engine
verifies as a normal one. -/
structure Ethash where
  powMode : Mode
  fakeFail : UInt64
  deriving DecidableEq, Repr

/-- `params.MaximumExtraDataSize`. -/
def maximumExtraDataSize : ℕ := 32

/-- `allowedFutureBlockTimeSeconds`. -/
def allowedFutureBlockTimeSeconds : Int64 := 15

/-- `params.DifficultyBoundDivisor`. -/
def difficultyBoundDivisor : ℤ := 1024

/-- `params.MinimumDifficulty`. -/
def minimumDifficulty : ℕ := 1000

/-- The errors of ethash verification, with the values their messages print. -/
inductive ConsensusError where
  /-- "extra-data too long: %d > %d" -/
  | extraDataTooLong (size max : ℕ)
  /-- `consensus.ErrFutureBlock`, "block in the future" -/
  | futureBlock
  /-- `errOlderBlockTime`, "timestamp older than parent" -/
  | olderBlockTime
  /-- "invalid difficulty: have %v, want %v" -/
  | invalidDifficulty (difficulty : ℕ) (expected : ℤ)
  /-- "invalid gasLimit: have %v, max %v" -/
  | gasLimitAboveCap (gasLimit cap : UInt64)
  /-- "invalid gasUsed: have %d, gasLimit %d" -/
  | invalidGasUsed (gasUsed gasLimit : UInt64)
  /-- "invalid gas limit: have %d, want %d += %d" -/
  | invalidGasLimit (gasLimit parentGasLimit limit : UInt64)
  /-- `consensus.ErrInvalidNumber`, "invalid block number" -/
  | invalidNumber
  /-- `errInvalidDifficulty`, "non-positive difficulty" -/
  | nonPositiveDifficulty
  /-- `errInvalidPoW`, "invalid proof-of-work" -/
  | invalidPoW
  deriving DecidableEq, Repr

/-- `calcDifficulty`, the calculator of `makeDifficultyCalculator`: the parent's
difficulty moved by a 1024th of itself for every 15 seconds the block time
falls short of or exceeds the parent's by, at most 99 such steps down, and
never below the minimum. Division is `big.Int`'s Euclidean one. -/
def calcDifficulty (time : UInt64) (parent : Header) : ℤ :=
  let x : ℤ := 1 - ((time.toNat : ℤ) - parent.time.toNat) / allowedFutureBlockTimeSeconds.toInt
  let x := if x < -99 then -99 else x
  let newDifficulty := (parent.difficulty : ℤ) + parent.difficulty * x / difficultyBoundDivisor
  if newDifficulty < minimumDifficulty then minimumDifficulty else newDifficulty

theorem minimumDifficulty_le_calcDifficulty (time : UInt64) (parent : Header) :
    (minimumDifficulty : ℤ) ≤ calcDifficulty time parent := by
  simp only [calcDifficulty]
  split_ifs <;> omega

/-- `calcDifficulty` as one formula: the parent's difficulty moved by a number of 1024ths of
itself, one less than the whole 15 seconds the block time is ahead and at least `-99`, and
never below the minimum. -/
theorem calcDifficulty_eq (time : UInt64) (parent : Header) :
    calcDifficulty time parent =
      max (minimumDifficulty : ℤ) (parent.difficulty + parent.difficulty *
        max (-99) (1 - ((time.toNat : ℤ) - parent.time.toNat) / 15) / difficultyBoundDivisor) := by
  have h15 : allowedFutureBlockTimeSeconds.toInt = 15 := by decide
  have hclamp : ∀ x : ℤ, (if x < -99 then -99 else x) = max (-99) x := by
    intro x
    split_ifs <;> omega
  simp only [calcDifficulty, h15, hclamp]
  split_ifs <;> omega

/-- A later block time never raises the difficulty: the number of 1024ths falls with the
time, the parent's difficulty scales it, and both floors and clamps keep the order. -/
theorem calcDifficulty_antitone (parent : Header) {time time' : UInt64} (h : time ≤ time') :
    calcDifficulty time' parent ≤ calcDifficulty time parent := by
  have hx : max (-99) (1 - ((time'.toNat : ℤ) - parent.time.toNat) / 15) ≤
      max (-99) (1 - ((time.toNat : ℤ) - parent.time.toNat) / 15) := by
    have := UInt64.le_iff_toNat_le.mp h
    omega
  have hmul := Int.mul_le_mul_of_nonneg_left hx (Int.natCast_nonneg parent.difficulty)
  rw [calcDifficulty_eq, calcDifficulty_eq, difficultyBoundDivisor]
  omega

/-- The twelve fields `SealHash` encodes, each as the RLP string of its type:
all header fields but `Nonce` and `BaseFee`. -/
def sealFields (header : Header) : List Bytes :=
  [header.parentHash.bytes, header.coinbase.bytes, header.root.bytes, header.txHash.bytes,
    header.receiptHash.bytes, header.bloom.bytes, Rlp.natBytes header.difficulty,
    Rlp.natBytes header.number, Rlp.natBytes header.gasLimit.toNat,
    Rlp.natBytes header.gasUsed.toNat, Rlp.natBytes header.time.toNat, header.extra]

theorem fields_eq_sealFields (h : Header) :
    h.fields = sealFields h ++ toBytesBE 8 h.nonce.toNat :: (h.baseFee.map Rlp.natBytes).toList :=
  rfl

theorem sealItem_sized {h : Header} (hs : h.Sane) :
    (Rlp.Item.list ((sealFields h).map .bytes)).Sized := by
  refine Rlp.sized_list_bytes (fun b hb => Header.length_fields_lt hs b ?_) (by simp [sealFields])
  rw [fields_eq_sealFields]
  exact List.mem_append_left _ hb

/-- The bytes `SealHash` hashes determine every field of a sane header but
its nonce and its base fee. -/
theorem sealed_fields_eq {h h' : Header} (hs : h.Sane) (hs' : h'.Sane)
    (heq : Rlp.encode (.list ((sealFields h).map .bytes)) =
      Rlp.encode (.list ((sealFields h').map .bytes))) :
    {h with nonce := 0, baseFee := none} = {h' with nonce := 0, baseFee := none} := by
  have hitem := Rlp.encode_injective (sealItem_sized hs) (sealItem_sized hs') heq
  simp only [sealFields, List.map_cons, List.map_nil, Rlp.Item.list.injEq, List.cons.injEq,
    Rlp.Item.bytes.injEq, Rlp.natBytes_injective.eq_iff, and_true] at hitem
  obtain ⟨hparent, hcoinbase, hroot, htx, hreceipt, hbloom, hdiff, hnum, hgasLimit, hgasUsed,
    htime, hextra⟩ := hitem
  -- each field is read back from its bytes
  cases h
  cases h'
  simp only [Header.mk.injEq, and_true]
  exact ⟨Hash.bytes_injective hparent, Address.bytes_injective hcoinbase,
    Hash.bytes_injective hroot, Hash.bytes_injective htx, Hash.bytes_injective hreceipt,
    Bloom.bytes_injective hbloom, hdiff, hnum, UInt64.toNat_inj.mp hgasLimit,
    UInt64.toNat_inj.mp hgasUsed, UInt64.toNat_inj.mp htime, hextra⟩

section Verify

variable (keccak256 : Bytes → Hash) (hashCZZ : Bytes → UInt64 → Bytes)

/-- `Ethash.SealHash`. -/
def sealHash (header : Header) : Hash :=
  keccak256 (Rlp.encode (.list ((sealFields header).map .bytes)))

theorem sealHash_baseFee (header : Header) (b : Option ℕ) :
    sealHash keccak256 {header with baseFee := b} = sealHash keccak256 header := rfl

namespace Ethash

/-- The difficulty the seal must meet: the header's, divided by a positive
stake factor, and the minimum where that division leaves nothing. -/
def sealDifficulty (difficulty : ℕ) (factor : Option ℤ) : ℕ :=
  match factor with
  | some factor =>
      if 0 < factor then
        if difficulty / factor.toNat = 0 then minimumDifficulty else difficulty / factor.toNat
      else difficulty
  | none => difficulty

/-- `verifySeal` never divides by zero: a positive difficulty stays positive whatever the
factor, since a quotient of zero is replaced by the minimum. -/
theorem sealDifficulty_pos {difficulty : ℕ} (h : 0 < difficulty) (factor : Option ℤ) :
    0 < sealDifficulty difficulty factor := by
  unfold sealDifficulty
  split
  · split_ifs with hpos hzero
    · decide
    · exact Nat.pos_of_ne_zero hzero
    · exact h
  · exact h

theorem sealDifficulty_of_div_pos {difficulty factor : ℕ} (h : 0 < difficulty / factor) :
    sealDifficulty difficulty (some factor) = difficulty / factor := by
  have hfactor : 0 < factor := Nat.pos_of_ne_zero fun h0 => by simp [h0] at h
  simp [sealDifficulty, hfactor, h.ne']

theorem sealDifficulty_of_lt {difficulty factor : ℕ} (h : difficulty < factor) :
    sealDifficulty difficulty (some factor) = minimumDifficulty := by
  have hfactor : 0 < factor := by omega
  simp [sealDifficulty, hfactor, Nat.div_eq_of_lt h]

/-- `Ethash.verifySeal`. A fake engine accepts every seal but at its
`fakeFail` height, which it compares with the low 64 bits of the number. -/
def verifySeal (ethash : Ethash) (header : Header) (factor : Option ℤ) :
    Except ConsensusError Unit :=
  if ethash.powMode = .fake ∨ ethash.powMode = .fullFake then
    if ethash.fakeFail = UInt64.ofNat header.number then throw .invalidPoW else pure ()
  else do
    if header.difficulty = 0 then throw .nonPositiveDifficulty
    let result := hashCZZ (sealHash keccak256 header).bytes header.nonce
    let target := 2 ^ 256 / sealDifficulty header.difficulty factor
    if target < bytesToNat result then throw .invalidPoW
    pure ()

/-- `Ethash.verifyHeader`, whose `seal` flag is `checkSeal`. The time bound `unixNow + 15` is computed in
`int64` and read as a `uint64`, both of which wrap. -/
def verifyHeader (ethash : Ethash) (header parent : Header) (checkSeal : Bool) (unixNow : Int64)
    (factor : Option ℤ) : Except ConsensusError Unit := do
  if maximumExtraDataSize < header.extra.length then
    throw (.extraDataTooLong header.extra.length maximumExtraDataSize)
  if (unixNow + allowedFutureBlockTimeSeconds).toUInt64 < header.time then throw .futureBlock
  if header.time ≤ parent.time then throw .olderBlockTime
  let expected := calcDifficulty header.time parent
  if expected ≠ header.difficulty then throw (.invalidDifficulty header.difficulty expected)
  let cap : UInt64 := 0x7fffffffffffffff
  if cap < header.gasLimit then throw (.gasLimitAboveCap header.gasLimit cap)
  if header.gasLimit < header.gasUsed then throw (.invalidGasUsed header.gasUsed header.gasLimit)
  let limit := parent.gasLimit / gasLimitBoundDivisor
  if limit ≤ gasLimitDiff parent.gasLimit header.gasLimit ∨ header.gasLimit < minGasLimit then
    throw (.invalidGasLimit header.gasLimit parent.gasLimit limit)
  if (header.number : ℤ) - parent.number ≠ 1 then throw .invalidNumber
  if checkSeal then verifySeal keccak256 hashCZZ ethash header factor
  pure ()

/-- Every check `verifyHeader` makes, as the fact it establishes. -/
@[mk_iff]
structure HeaderChecks (ethash : Ethash) (header parent : Header) (checkSeal : Bool)
    (unixNow : Int64) (factor : Option ℤ) : Prop where
  extra : header.extra.length ≤ maximumExtraDataSize
  notFuture : header.time ≤ (unixNow + allowedFutureBlockTimeSeconds).toUInt64
  afterParent : parent.time < header.time
  difficulty : calcDifficulty header.time parent = header.difficulty
  gasLimitCap : header.gasLimit ≤ 0x7fffffffffffffff
  gasUsed : header.gasUsed ≤ header.gasLimit
  gasLimitBound : gasLimitDiff parent.gasLimit header.gasLimit < parent.gasLimit / gasLimitBoundDivisor
  gasLimitMin : minGasLimit ≤ header.gasLimit
  number : header.number = parent.number + 1
  sealed : checkSeal = true → ethash.verifySeal keccak256 hashCZZ header factor = .ok ()

theorem verifyHeader_eq_ok {ethash : Ethash} {header parent : Header} {checkSeal : Bool}
    {unixNow : Int64} {factor : Option ℤ} :
    ethash.verifyHeader keccak256 hashCZZ header parent checkSeal unixNow factor = .ok () ↔
      HeaderChecks keccak256 hashCZZ ethash header parent checkSeal unixNow factor := by
  rw [headerChecks_iff]
  have hnumber : (header.number : ℤ) - parent.number = 1 ↔ header.number = parent.number + 1 := by
    omega
  simp only [verifyHeader, Except.throw_bind, Except.ite_throw_eq_ok, UInt64.not_lt, not_or,
    ne_eq, not_not, hnumber]
  -- the seal is the last check, and only when it is asked for
  cases checkSeal <;> simp [Except.pure_eq_ok, and_assoc]

/-- An engine that is not fake accepts a seal exactly when the difficulty is
positive and `HashCZZ` of the seal hash and the nonce is within the target. -/
theorem verifySeal_eq_ok {ethash : Ethash} {header : Header} {factor : Option ℤ}
    (hfake : ethash.powMode ≠ .fake) (hfullFake : ethash.powMode ≠ .fullFake) :
    ethash.verifySeal keccak256 hashCZZ header factor = .ok () ↔
      0 < header.difficulty ∧
        bytesToNat (hashCZZ (sealHash keccak256 header).bytes header.nonce) ≤
          2 ^ 256 / sealDifficulty header.difficulty factor := by
  simp only [verifySeal, hfake, hfullFake, or_self, if_false, Except.throw_bind,
    Except.ite_throw_eq_ok, not_lt, Except.pure_eq_ok, and_true]
  omega

section BaseFee

variable (ethash : Ethash) (header parent : Header) (b : Option ℕ)

theorem verifySeal_baseFee (factor : Option ℤ) :
    ethash.verifySeal keccak256 hashCZZ {header with baseFee := b} factor =
      ethash.verifySeal keccak256 hashCZZ header factor := rfl

/-- No check of `verifyHeader`, the seal included, reads the base fee. -/
theorem verifyHeader_baseFee (checkSeal : Bool) (unixNow : Int64) (factor : Option ℤ) :
    ethash.verifyHeader keccak256 hashCZZ {header with baseFee := b} parent checkSeal unixNow
        factor =
      ethash.verifyHeader keccak256 hashCZZ header parent checkSeal unixNow factor := rfl

end BaseFee

/-- A parent whose gas use is exactly its target, so that `CalcBaseFee` keeps
its base fee of one gwei. -/
def sampleParent : Header where
  parentHash := 0
  coinbase := 0
  root := 0
  txHash := 0
  receiptHash := 0
  bloom := 0
  difficulty := 131072
  number := 99
  gasLimit := 10000000
  gasUsed := 5000000
  time := 1000
  extra := []
  nonce := 0
  baseFee := some 1000000000

/-- A child of `sampleParent` ten seconds later, with the difficulty
`calcDifficulty` asks for and no base fee. -/
def sampleHeader : Header :=
  { sampleParent with
    difficulty := 131200
    number := 100
    gasUsed := 0
    time := 1010
    baseFee := none }

/-- A real engine. -/
def sampleEthash : Ethash :=
  ⟨.normal, 0⟩

theorem sealHash_ignores_baseFee (ethash : Ethash) (factor : Option ℤ) (header : Header)
    (b : Option ℕ) (hsane : header.Sane) (hb : ∀ baseFee ∈ b, baseFee < 2 ^ 256)
    (hne : b ≠ header.baseFee) :
    sealHash keccak256 {header with baseFee := b} = sealHash keccak256 header ∧
      ethash.verifySeal keccak256 hashCZZ {header with baseFee := b} factor =
        ethash.verifySeal keccak256 hashCZZ header factor ∧
      Rlp.encode ({header with baseFee := b} : Header).item ≠ Rlp.encode header.item :=
  ⟨sealHash_baseFee keccak256 header b, verifySeal_baseFee keccak256 hashCZZ ethash header b factor,
    Header.encode_item_baseFee_ne hsane hb hne⟩

theorem sealHash_ignores_baseFee_sample :
    (sampleParent.Sane ∧ (∀ baseFee ∈ (none : Option ℕ), baseFee < 2 ^ 256) ∧
        none ≠ sampleParent.baseFee) ∧
      sealHash (fun _ => 0) {sampleParent with baseFee := none} = sealHash (fun _ => 0) sampleParent ∧
      sampleEthash.verifySeal (fun _ => 0) (fun _ _ => []) {sampleParent with baseFee := none} none =
        sampleEthash.verifySeal (fun _ => 0) (fun _ _ => []) sampleParent none ∧
      Rlp.encode ({sampleParent with baseFee := none} : Header).item ≠
        Rlp.encode sampleParent.item := by
  have hsane : sampleParent.Sane := Header.sanityCheck_eq_ok.mp (by decide)
  have hb : ∀ baseFee ∈ (none : Option ℕ), baseFee < 2 ^ 256 := by simp
  have hne : none ≠ sampleParent.baseFee := by decide
  exact ⟨⟨hsane, hb, hne⟩,
    sealHash_ignores_baseFee (fun _ => 0) (fun _ _ => []) sampleEthash none sampleParent none
      hsane hb hne⟩

theorem verifyHeader_accepts_any_baseFee :
    (∀ (ethash : Ethash) (header parent : Header) (checkSeal : Bool) (unixNow : Int64)
        (factor : Option ℤ) (b : Option ℕ),
      ethash.verifyHeader keccak256 hashCZZ {header with baseFee := b} parent checkSeal unixNow
          factor =
        ethash.verifyHeader keccak256 hashCZZ header parent checkSeal unixNow factor) ∧
      (∀ b : Option ℕ, sampleEthash.verifyHeader keccak256 hashCZZ
        {sampleHeader with baseFee := b} sampleParent false 2000 none = .ok ()) ∧
      calcBaseFee sampleParent = .ok 1000000000 ∧
      verifyEip1559Header sampleParent sampleHeader = .error (.error .missingBaseFee) := by
  refine ⟨fun ethash header parent checkSeal unixNow factor b =>
    verifyHeader_baseFee keccak256 hashCZZ ethash header parent b checkSeal unixNow factor,
    fun b => ?_, by decide, by decide⟩
  rw [verifyHeader_baseFee]
  rfl

end Ethash

end Verify

/-- The difficulty adjustment bounds: for a parent at least at the minimum difficulty and a
later block time, the difficulty is at least the minimum, rises by at most a 1024th of the
parent's, falls by at most 99 1024ths of it (rounded down), and never rises with a later
time. -/
theorem calcDifficulty_bounds (time : UInt64) (parent : Header)
    (hmin : minimumDifficulty ≤ parent.difficulty) (htime : parent.time < time) :
    (minimumDifficulty : ℤ) ≤ calcDifficulty time parent ∧
      calcDifficulty time parent ≤
        parent.difficulty + (parent.difficulty : ℤ) / difficultyBoundDivisor ∧
      (parent.difficulty : ℤ) + -99 * parent.difficulty / difficultyBoundDivisor ≤
        calcDifficulty time parent ∧
      ∀ time', time ≤ time' → calcDifficulty time' parent ≤ calcDifficulty time parent := by
  refine ⟨minimumDifficulty_le_calcDifficulty time parent, ?_, ?_,
    fun time' h => calcDifficulty_antitone parent h⟩
  · -- a block after its parent moves up by at most one 1024th
    have hx : max (-99) (1 - ((time.toNat : ℤ) - parent.time.toNat) / 15) ≤ 1 := by
      have := UInt64.lt_iff_toNat_lt.mp htime
      omega
    have hmul := Int.mul_le_mul_of_nonneg_left hx (Int.natCast_nonneg parent.difficulty)
    rw [calcDifficulty_eq, difficultyBoundDivisor]
    simp only [minimumDifficulty] at hmin ⊢
    omega
  · -- and down by at most 99 of them
    have hx : -99 ≤ max (-99) (1 - ((time.toNat : ℤ) - parent.time.toNat) / 15) :=
      le_max_left _ _
    have hmul := Int.mul_le_mul_of_nonneg_left hx (Int.natCast_nonneg parent.difficulty)
    rw [calcDifficulty_eq, difficultyBoundDivisor]
    omega

theorem calcDifficulty_bounds_sampleParent :
    minimumDifficulty ≤ Ethash.sampleParent.difficulty ∧ Ethash.sampleParent.time < 1010 ∧
      (minimumDifficulty : ℤ) ≤ calcDifficulty 1010 Ethash.sampleParent ∧
      calcDifficulty 1010 Ethash.sampleParent ≤
        Ethash.sampleParent.difficulty +
          (Ethash.sampleParent.difficulty : ℤ) / difficultyBoundDivisor ∧
      (Ethash.sampleParent.difficulty : ℤ) +
          -99 * Ethash.sampleParent.difficulty / difficultyBoundDivisor ≤
        calcDifficulty 1010 Ethash.sampleParent ∧
      ∀ time', 1010 ≤ time' →
        calcDifficulty time' Ethash.sampleParent ≤ calcDifficulty 1010 Ethash.sampleParent :=
  ⟨by decide, by decide, calcDifficulty_bounds 1010 Ethash.sampleParent (by decide) (by decide)⟩

end Classzz
