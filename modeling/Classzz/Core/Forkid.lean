import Classzz.Lib.ExchangeSort
import Classzz.Params.Config

/-!
# Fork identifiers

`core/forkid/forkid.go`. A node's fork ID is the CRC32 checksum of the genesis
hash and of the fork heights it has passed, with the next fork height
(`newID`). The filter of `newFilter` accepts a peer's ID when its checksum is
that of the forks the local node has passed, or of fewer of them with the next
local fork announced, or of more of them. Both read the list that
`gatherForks` finds in the configuration by reflection: the heights of the
fields whose name ends in `Block` and whose type is `*big.Int`, sorted, without
repeats and without height zero (`gatherForks_spec`).

CRC32 is a parameter. `newFilter_accepts_newID` and `newFilter_sound` say what
the filter accepts, for any configuration whose prefix checksums differ. Of
this configuration reflection finds only `EWASMBlock` and `NoRewardBlock`: the
`CIP_1` .. `CIP_5` switches are `*big.Int` fields without the suffix, so they
never enter a fork ID (`gatherForks_eq_of_blockFields`).
-/

namespace Classzz.Forkid

open ExchangeSort

/-- `crc32.ChecksumIEEE` and `crc32.Update` with the IEEE table. -/
structure Crc32 where
  checksumIEEE : Bytes → UInt32
  update : UInt32 → Bytes → UInt32

/-- `ID`: the checksum of the passed forks, and the next fork or `0`. -/
structure ID where
  hash : Bytes
  next : ℕ
deriving DecidableEq

/-- The errors of the filter. -/
inductive FilterError
  /-- `ErrRemoteStale`, `"remote needs update"`. -/
  | remoteStale
  /-- `ErrLocalIncompatibleOrStale`, `"local incompatible or needs update"`. -/
  | localIncompatibleOrStale
deriving DecidableEq

/-- `checksumUpdate`: the checksum extended by the fork height in eight
big-endian bytes. -/
def checksumUpdate (crc : Crc32) (hash : UInt32) (fork : ℕ) : UInt32 :=
  crc.update hash (toBytesBE 8 fork)

/-- `checksumToBytes`. -/
def checksumToBytes (hash : UInt32) : Bytes := toBytesBE 4 hash.toNat

/-! ### `gatherForks` -/

/-- A field of `params.ChainConfig` as reflection reads it: a `*big.Int` with
its value, `none` for nil, or a field of another type. -/
inductive FieldValue
  | bigInt (v : Option ℕ)
  | other

/-- The fields of `params.ChainConfig` in their declared order, as
`reflect.TypeOf(params.ChainConfig{})` lists them. -/
def configFields (c : ChainConfig) : List (String × FieldValue) :=
  [("ChainID", .bigInt (some c.chainID)), ("ChainIDNew", .bigInt (some c.chainIDNew)),
    ("EWASMBlock", .bigInt c.ewasmBlock), ("NoRewardBlock", .bigInt c.noRewardBlock),
    ("CIP_1", .bigInt c.cip1), ("CIP_2", .bigInt c.cip2), ("CIP_3", .bigInt c.cip3),
    ("CIP_4", .bigInt c.cip4), ("CIP_5", .bigInt c.cip5), ("VerifySwitch", .other),
    ("SideClients", .other), ("Ethash", .other), ("Clique", .other)]

/-- `strings.HasSuffix`, on the characters of a field name. -/
def hasSuffix (s suffix : String) : Bool := suffix.toList.isSuffixOf s.toList

/-- The reflection loop of `gatherForks`: the non-nil `*big.Int` fields named
`...Block`, each as `Uint64` reads it. -/
def reflectForks (c : ChainConfig) : List ℕ :=
  (configFields c).filterMap fun field =>
    if hasSuffix field.1 "Block" then
      match field.2 with
      | .bigInt (some rule) => some (rule % 2 ^ 64)
      | _ => none
    else none

/-- `gatherForks`: the exchange sort, the removal of repeats, and the removal
of a fork at block zero. -/
def gatherForks (c : ChainConfig) : List ℕ :=
  match dedup (sort (reflectForks c)) 1 with
  | 0 :: forks => forks
  | forks => forks

/-- Of the configuration's fields, reflection keeps the two `...Block` ones. -/
theorem reflectForks_eq (c : ChainConfig) :
    reflectForks c = (c.ewasmBlock.map (· % 2 ^ 64)).toList ++
      (c.noRewardBlock.map (· % 2 ^ 64)).toList := by
  have hnames : hasSuffix "ChainID" "Block" = false ∧ hasSuffix "ChainIDNew" "Block" = false ∧
      hasSuffix "EWASMBlock" "Block" = true ∧ hasSuffix "NoRewardBlock" "Block" = true ∧
      hasSuffix "CIP_1" "Block" = false ∧ hasSuffix "CIP_2" "Block" = false ∧
      hasSuffix "CIP_3" "Block" = false ∧ hasSuffix "CIP_4" "Block" = false ∧
      hasSuffix "CIP_5" "Block" = false ∧ hasSuffix "VerifySwitch" "Block" = false ∧
      hasSuffix "SideClients" "Block" = false ∧ hasSuffix "Ethash" "Block" = false ∧
      hasSuffix "Clique" "Block" = false := by
    decide
  obtain ⟨h1, h2, h3, h4, h5, h6, h7, h8, h9, h10, h11, h12, h13⟩ := hnames
  cases he : c.ewasmBlock <;> cases hn : c.noRewardBlock <;>
    simp [reflectForks, configFields, he, hn, h1, h2, h3, h4, h5, h6, h7, h8, h9, h10, h11, h12, h13]

/-- The forks are the distinct non-zero heights of the `...Block` fields, in
increasing order. -/
theorem gatherForks_spec (c : ChainConfig) :
    (gatherForks c).Pairwise (· < ·) ∧
      ∀ x, x ∈ gatherForks c ↔ x ≠ 0 ∧ x ∈ reflectForks c := by
  obtain ⟨hperm, hsorted⟩ := sort_spec (reflectForks c)
  obtain ⟨hstrict, hmem⟩ := dedup_spec hsorted
  have hmem' : ∀ x, x ∈ dedup (sort (reflectForks c)) 1 ↔ x ∈ reflectForks c :=
    fun x => (hmem x).trans hperm.mem_iff
  unfold gatherForks
  generalize dedup (sort (reflectForks c)) 1 = ys at hstrict hmem'
  match ys, hstrict, hmem' with
  | 0 :: forks, hstrict, hmem' =>
    -- zero is the least height, so it can only come first
    refine ⟨(List.pairwise_cons.mp hstrict).2, fun x => ?_⟩
    rw [← hmem' x, List.mem_cons]
    constructor
    · intro hx
      exact ⟨Nat.ne_of_gt ((List.pairwise_cons.mp hstrict).1 x hx), .inr hx⟩
    · rintro ⟨hx0, rfl | hx⟩
      · exact absurd rfl hx0
      · exact hx
  | [], hstrict, hmem' => exact ⟨hstrict, fun x => by simp [← hmem' x]⟩
  | (y + 1) :: forks, hstrict, hmem' =>
    refine ⟨hstrict, fun x => ⟨fun hx => ⟨?_, (hmem' x).mp hx⟩, fun hx => (hmem' x).mpr hx.2⟩⟩
    rintro rfl
    rcases List.mem_cons.mp hx with h | h
    · omega
    · exact absurd ((List.pairwise_cons.mp hstrict).1 0 h) (by omega)

/-- The forks depend on the two `...Block` fields only. -/
theorem gatherForks_eq_of_blockFields {c c' : ChainConfig} (he : c.ewasmBlock = c'.ewasmBlock)
    (hn : c.noRewardBlock = c'.noRewardBlock) : gatherForks c = gatherForks c' := by
  have hr : reflectForks c = reflectForks c' := by
    rw [reflectForks_eq, reflectForks_eq, he, hn]
  unfold gatherForks
  rw [hr]

/-! ### `NewID` and `newFilter` -/

section Filter

variable (crc : Crc32)

/-- The checksum of a genesis checksum extended by a list of forks. -/
def checksumOf (hash : UInt32) (forks : List ℕ) : UInt32 := forks.foldl (checksumUpdate crc) hash

/-- The loop of `NewID`: the checksum of the forks passed at `head`, and the
first fork not passed, `0` if there is none. -/
def idLoop (head : ℕ) : UInt32 → List ℕ → UInt32 × ℕ
  | hash, [] => (hash, 0)
  | hash, fork :: forks =>
    if fork ≤ head then idLoop head (checksumUpdate crc hash fork) forks else (hash, fork)

/-- `NewID`. -/
def newID (config : ChainConfig) (genesis : Hash) (head : ℕ) : ID :=
  let (hash, next) := idLoop crc head (crc.checksumIEEE genesis.bytes) (gatherForks config)
  ⟨checksumToBytes hash, next⟩

/-- The `sums` of `newFilter`: the checksum of the genesis hash followed by
that of each longer prefix of the forks. -/
def sums (hash : UInt32) : List ℕ → List Bytes
  | [] => [checksumToBytes hash]
  | fork :: forks => checksumToBytes hash :: sums (checksumUpdate crc hash fork) forks

/-- The rules of the validator once `i` is the first fork not passed: rule 1
on the current checksum, rule 2 on an earlier one, rule 3 on a later one, and
rule 4 otherwise. -/
def rules (sums : List Bytes) (forks : List ℕ) (head : ℕ) (id : ID) (i : ℕ) :
    Except FilterError Unit :=
  if sums.getD i [] = id.hash then
    if id.next > 0 ∧ head ≥ id.next then .error .localIncompatibleOrStale else .ok ()
  else
    match (List.range i).find? fun j => sums.getD j [] == id.hash with
    | some j => if forks.getD j 0 ≠ id.next then .error .remoteStale else .ok ()
    | none =>
      if (List.range' (i + 1) (sums.length - (i + 1))).any fun j => sums.getD j [] == id.hash
      then .ok ()
      else .error .localIncompatibleOrStale

/-- The validator's loop over the forks, from index `i`; running past the
sentinel is the impossible case, which accepts. -/
def validate (sums : List Bytes) (forks : List ℕ) (head : ℕ) (id : ID) :
    ℕ → List ℕ → Except FilterError Unit
  | _, [] => .ok ()
  | i, fork :: rest =>
    if head ≥ fork then validate sums forks head id (i + 1) rest
    else rules sums forks head id i

/-- `math.MaxUint64`. -/
def maxUint64 : ℕ := 2 ^ 64 - 1

/-- `newFilter`, at the local head `head`; the forks end in the sentinel
`math.MaxUint64`. -/
def newFilter (config : ChainConfig) (genesis : Hash) (head : ℕ) (id : ID) :
    Except FilterError Unit :=
  let forks := gatherForks config
  let forks' := forks ++ [maxUint64]
  validate (sums crc (crc.checksumIEEE genesis.bytes) forks) forks' head id 0 forks'

/-- The number of forks passed at `head`. -/
def passed (head : ℕ) (forks : List ℕ) : ℕ := (forks.takeWhile fun f => decide (f ≤ head)).length

theorem idLoop_eq (head : ℕ) (hash : UInt32) (forks : List ℕ) :
    idLoop crc head hash forks =
      (checksumOf crc hash (forks.take (passed head forks)), forks.getD (passed head forks) 0) := by
  induction forks generalizing hash with
  | nil => simp [idLoop, checksumOf, passed]
  | cons fork forks ih =>
    by_cases hf : fork ≤ head
    · simp [idLoop, hf, ih, passed, checksumOf]
    · simp [idLoop, hf, passed, checksumOf]

theorem length_sums (hash : UInt32) (forks : List ℕ) :
    (sums crc hash forks).length = forks.length + 1 := by
  induction forks generalizing hash with
  | nil => rfl
  | cons fork forks ih => simp [sums, ih]

theorem getD_sums (hash : UInt32) (forks : List ℕ) {k : ℕ} (hk : k ≤ forks.length) :
    (sums crc hash forks).getD k [] = checksumToBytes (checksumOf crc hash (forks.take k)) := by
  induction forks generalizing hash k with
  | nil =>
    obtain rfl : k = 0 := by simpa using hk
    rfl
  | cons fork forks ih =>
    cases k with
    | zero => rfl
    | succ k =>
      simp only [sums, List.getD_cons_succ, List.take_succ_cons]
      exact ih _ (by simpa using hk)

/-- Before a fork not passed, the loop comes to the rules at the number of
forks passed. -/
theorem validate_eq (sums : List Bytes) (forks : List ℕ) (head : ℕ) (id : ID) (i : ℕ)
    (ys : List ℕ) (hys : ∃ f ∈ ys, head < f) :
    validate sums forks head id i ys = rules sums forks head id (i + passed head ys) := by
  induction ys generalizing i with
  | nil => simp at hys
  | cons y ys ih =>
    by_cases hy : y ≤ head
    · obtain ⟨f, hf, hlt⟩ := hys
      have hys' : ∃ f ∈ ys, head < f := by
        rcases List.mem_cons.mp hf with rfl | hf
        · omega
        · exact ⟨f, hf, hlt⟩
      simp only [validate, ge_iff_le, hy, if_true, ih (i + 1) hys', passed, List.takeWhile_cons,
        decide_true, List.length_cons]
      congr 1
      omega
    · simp [validate, hy, passed]

/-- Below `math.MaxUint64` the sentinel is never passed. -/
theorem passed_sentinel {head : ℕ} (forks : List ℕ) (hhead : head < maxUint64) :
    passed head (forks ++ [maxUint64]) = passed head forks := by
  induction forks with
  | nil => simp [passed, show ¬ maxUint64 ≤ head by omega]
  | cons f fs ih =>
    by_cases hf : f ≤ head
    · simp only [passed] at ih ⊢
      simp [hf, ih]
    · simp [passed, hf]

theorem passed_le (head : ℕ) (forks : List ℕ) : passed head forks ≤ forks.length :=
  (List.takeWhile_sublist _).length_le

/-- The first fork not passed lies above the head. -/
theorem lt_getD_passed {head : ℕ} {forks : List ℕ} (h : passed head forks < forks.length) :
    head < forks.getD (passed head forks) 0 := by
  induction forks with
  | nil => simp [passed] at h
  | cons f fs ih =>
    by_cases hf : f ≤ head
    · simp only [passed, List.takeWhile_cons, hf, decide_true, if_true, List.length_cons,
        List.getD_cons_succ] at h ⊢
      exact ih (by simpa [passed] using h)
    · simp only [passed, List.takeWhile_cons, hf, decide_false, Bool.false_eq_true, if_false,
        List.length_nil, List.getD_cons_zero]
      omega

theorem getD_inj_of_nodup {l : List Bytes} (hl : l.Nodup) {a b : ℕ} (ha : a < l.length)
    (hb : b < l.length) (h : l.getD a [] = l.getD b []) : a = b := by
  simp only [List.getD_eq_getElem?_getD, List.getElem?_eq_getElem ha, List.getElem?_eq_getElem hb,
    Option.getD_some] at h
  exact hl.getElem_inj_iff.mp h

/-- The filter at a head below `math.MaxUint64` applies its rules at the
number of forks passed. -/
theorem newFilter_eq (config : ChainConfig) (genesis : Hash) {head : ℕ} (id : ID)
    (hhead : head < maxUint64) :
    newFilter crc config genesis head id =
      rules (sums crc (crc.checksumIEEE genesis.bytes) (gatherForks config))
        (gatherForks config ++ [maxUint64]) head id (passed head (gatherForks config)) := by
  rw [newFilter, validate_eq _ _ _ _ _ _ ⟨maxUint64, by simp, hhead⟩, Nat.zero_add,
    passed_sentinel _ hhead]

theorem newID_eq (config : ChainConfig) (genesis : Hash) (head : ℕ) :
    newID crc config genesis head =
      ⟨(sums crc (crc.checksumIEEE genesis.bytes) (gatherForks config)).getD
          (passed head (gatherForks config)) [],
        (gatherForks config).getD (passed head (gatherForks config)) 0⟩ := by
  rw [newID, idLoop_eq, getD_sums _ _ _ (passed_le _ _)]

/-- Completeness: a node's filter accepts the fork ID of a node of the same
configuration and genesis, whatever the second node's head. -/
theorem newFilter_accepts_newID (config : ChainConfig) (genesis : Hash) {h₁ : ℕ} (h₂ : ℕ)
    (h₁lt : h₁ < maxUint64)
    (hdistinct : (sums crc (crc.checksumIEEE genesis.bytes) (gatherForks config)).Nodup) :
    newFilter crc config genesis h₁ (newID crc config genesis h₂) = .ok () := by
  rw [newFilter_eq _ _ _ _ h₁lt, newID_eq]
  set F := gatherForks config
  set S := sums crc (crc.checksumIEEE genesis.bytes) F
  have hS : S.length = F.length + 1 := length_sums _ _ _
  clear_value S F
  have hi := passed_le h₁ F
  have hk := passed_le h₂ F
  -- the prefix sums are told apart by their indices
  have hne : ∀ {a b}, a ≤ F.length → b ≤ F.length → a ≠ b → S.getD a [] ≠ S.getD b [] :=
    fun ha hb hab heq => hab (getD_inj_of_nodup hdistinct (by omega) (by omega) heq)
  unfold rules
  rcases Nat.lt_trichotomy (passed h₂ F) (passed h₁ F) with hlt | heq | hgt
  · -- rule 2: the remote node has passed fewer forks and announces the next one
    have hfind : ((List.range (passed h₁ F)).find? fun j =>
        S.getD j [] == S.getD (passed h₂ F) []) = some (passed h₂ F) := by
      rw [List.find?_range_eq_some]
      refine ⟨by simp, List.mem_range.mpr hlt, fun j hj => ?_⟩
      simpa using hne (by omega) (by omega) (Nat.ne_of_lt hj)
    have hget : (F ++ [maxUint64]).getD (passed h₂ F) 0 = F.getD (passed h₂ F) 0 := by
      rw [List.getD_eq_getElem?_getD, List.getElem?_append_left (by omega),
        ← List.getD_eq_getElem?_getD]
    rw [if_neg (hne hi hk (Nat.ne_of_gt hlt)), hfind]
    dsimp only
    simp only [hget, ne_eq, not_true_eq_false, if_false]
  · -- rule 1: the same forks passed; the next remote fork is not passed locally
    rw [heq]
    have hnext : ¬ (F.getD (passed h₁ F) 0 > 0 ∧ h₁ ≥ F.getD (passed h₁ F) 0) := by
      rintro ⟨hpos, hge⟩
      rcases Nat.lt_or_ge (passed h₁ F) F.length with hin | hout
      · exact absurd (lt_getD_passed hin) (by omega)
      · simp [List.getD_eq_getElem?_getD, List.getElem?_eq_none hout] at hpos
    rw [if_pos rfl, if_neg hnext]
  · -- rule 3: the remote node has passed more forks
    have hnone : ((List.range (passed h₁ F)).find? fun j =>
        S.getD j [] == S.getD (passed h₂ F) []) = none := by
      rw [List.find?_range_eq_none]
      intro j hj
      simpa using hne (by omega) (by omega) (by omega)
    have hany : ((List.range' (passed h₁ F + 1) (S.length - (passed h₁ F + 1))).any fun j =>
        S.getD j [] == S.getD (passed h₂ F) []) = true :=
      List.any_eq_true.mpr ⟨passed h₂ F, List.mem_range'_1.mpr ⟨by omega, by omega⟩, by simp⟩
    rw [if_neg (hne hi hk (Nat.ne_of_lt hgt)), hnone]
    dsimp only
    rw [if_pos hany]

/-- Soundness: an ID the filter accepts is at the local fork state with no
announced fork passed locally, or at an earlier one announcing the next local
fork, or at a later one. -/
theorem newFilter_sound (config : ChainConfig) (genesis : Hash) {h₁ : ℕ} {id : ID}
    (h₁lt : h₁ < maxUint64) (hok : newFilter crc config genesis h₁ id = .ok ()) :
    (id.hash = checksumToBytes (checksumOf crc (crc.checksumIEEE genesis.bytes)
        ((gatherForks config).take (passed h₁ (gatherForks config)))) ∧
      ¬ (id.next > 0 ∧ h₁ ≥ id.next)) ∨
    (∃ j < passed h₁ (gatherForks config),
      id.hash = checksumToBytes (checksumOf crc (crc.checksumIEEE genesis.bytes)
        ((gatherForks config).take j)) ∧ id.next = (gatherForks config).getD j 0) ∨
    (∃ j, passed h₁ (gatherForks config) < j ∧ j ≤ (gatherForks config).length ∧
      id.hash = checksumToBytes (checksumOf crc (crc.checksumIEEE genesis.bytes)
        ((gatherForks config).take j))) := by
  rw [newFilter_eq _ _ _ _ h₁lt] at hok
  set F := gatherForks config
  have hS : (sums crc (crc.checksumIEEE genesis.bytes) F).length = F.length + 1 :=
    length_sums _ _ _
  have hi := passed_le h₁ F
  unfold rules at hok
  by_cases h1 : (sums crc (crc.checksumIEEE genesis.bytes) F).getD (passed h₁ F) [] = id.hash
  · -- rule 1: the announced fork must not be passed locally
    rw [if_pos h1] at hok
    have hnext : ¬ (id.next > 0 ∧ h₁ ≥ id.next) := fun h => by
      rw [if_pos h] at hok
      cases hok
    exact .inl ⟨by rw [← h1, getD_sums _ _ _ hi], hnext⟩
  rw [if_neg h1] at hok
  split at hok
  · -- rule 2: an earlier checksum, announcing the next local fork
    rename_i j hfind
    obtain ⟨hj, hjr, -⟩ := List.find?_range_eq_some.mp hfind
    have hjlt := List.mem_range.mp hjr
    have hnext : (F ++ [maxUint64]).getD j 0 = id.next := by
      by_contra hne
      rw [if_pos hne] at hok
      cases hok
    have hget : (F ++ [maxUint64]).getD j 0 = F.getD j 0 := by
      rw [List.getD_eq_getElem?_getD, List.getElem?_append_left (by omega),
        ← List.getD_eq_getElem?_getD]
    refine .inr (.inl ⟨j, hjlt, ?_, hnext.symm.trans hget⟩)
    rw [← getD_sums _ _ _ (by omega)]
    exact (beq_iff_eq.mp hj).symm
  · -- rule 3: a later checksum
    split at hok
    · rename_i hany
      obtain ⟨j, hjr, hj⟩ := List.any_eq_true.mp hany
      obtain ⟨hj1, hj2⟩ := List.mem_range'_1.mp hjr
      refine .inr (.inr ⟨j, by omega, by omega, ?_⟩)
      rw [← getD_sums _ _ _ (by omega)]
      exact (beq_iff_eq.mp hj).symm
    · cases hok

end Filter

/-- `MainnetChainConfig` with the `CIP_1` switch at another height. -/
def cip1Moved : ChainConfig := { mainnetChainConfig with cip1 := some 160000 }

theorem newID_blind_to_cip (crc : Crc32) (genesis : Hash) (head : ℕ) :
    gatherForks mainnetChainConfig = [] ∧ mainnetChainConfig.cip1 ≠ cip1Moved.cip1 ∧
      newID crc mainnetChainConfig genesis head = newID crc cip1Moved genesis head := by
  have hsame : gatherForks mainnetChainConfig = gatherForks cip1Moved :=
    gatherForks_eq_of_blockFields rfl rfl
  refine ⟨?_, by decide, by rw [newID, newID, hsame]⟩
  -- no `...Block` field is set on mainnet
  simp [gatherForks, reflectForks_eq, mainnetChainConfig, sort, outer, dedup]

end Classzz.Forkid
