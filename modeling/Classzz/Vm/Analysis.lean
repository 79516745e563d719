import Classzz.Lib.InstrScan
import Classzz.Common.Types
import Classzz.Vm.Memory

/-!
# Jump destination analysis

`analysis.go` and the jump checks of `contract.go`. `codeBitmap` marks in a bit
vector, one bit per byte of the code, the immediate data of every `PUSH1` ..
`PUSH32` met by a scan from position `0`; `validJumpdest` accepts a destination
only if it holds a `JUMPDEST` that the bitmap does not mark.

The bitmap is written by word-sized tricks: `set8`, `set16` and `setN` assign,
rather than OR, the bytes after the first one they touch, which is right only
because the scan writes from left to right and nothing after its position has
been written yet (`Clear`). A write outside the slice panics in Go; the model
returns `none`. What the bitmap means is stated against the scan of
`Lib.InstrScan` with `pushDataSize` as the width of immediate data:
`codeBitmap_marks` says the bitmap marks exactly `IsImm`, after a run of the
scan in which each write is in bounds.

`isCode` reads the analysis from three places: the contract's own field, the
map of analyses by code hash that a contract shares with its parent contexts,
and a fresh analysis. `Contract.AnalysisCoherent` says the first two hold the
analysis of the contract's code; `validJumpdest_spec` shows that it is kept and
that the answer is the same whichever place is read.
-/

namespace Classzz.Vm

open InstrScan

/-! ### The bit vector -/

/-- `PUSH1`. -/
def PUSH1 : UInt8 := 0x60
/-- `PUSH32`. -/
def PUSH32 : UInt8 := 0x7f
/-- `JUMPDEST`. -/
def JUMPDEST : UInt8 := 0x5b

def set2BitsMask : UInt16 := 0b1100000000000000
def set3BitsMask : UInt16 := 0b1110000000000000
def set4BitsMask : UInt16 := 0b1111000000000000
def set5BitsMask : UInt16 := 0b1111100000000000
def set6BitsMask : UInt16 := 0b1111110000000000
def set7BitsMask : UInt16 := 0b1111111000000000

/-- `bitvec`: bit `7 - p % 8` of byte `p / 8` is set when position `p` of the
code is data. -/
abbrev Bitvec := List UInt8

def lookup : List UInt8 := [0x80, 0x40, 0x20, 0x10, 0x8, 0x4, 0x2, 0x1]

namespace Bitvec

/-- `bits[i] |= x`. -/
def orAt (bits : Bitvec) (i : ℕ) (x : UInt8) : Option Bitvec :=
  if i < bits.length then some (bits.modify i (· ||| x)) else none

/-- `bits[i] = x`. -/
def setAt (bits : Bitvec) (i : ℕ) (x : UInt8) : Option Bitvec :=
  if i < bits.length then some (bits.set i x) else none

/-- `bitvec.set1`; `pos % 8` indexes `lookup` in bounds. -/
def set1 (bits : Bitvec) (pos : ℕ) : Option Bitvec :=
  bits.orAt (pos / 8) (lookup.getD (pos % 8) 0)

/-- `bitvec.setN`: the second byte is assigned only when the shifted flag
reaches it. -/
def setN (bits : Bitvec) (flag : UInt16) (pos : ℕ) : Option Bitvec := do
  let a := flag >>> (pos % 8).toUInt16
  let bits ← bits.orAt (pos / 8) (a >>> 8).toUInt8
  let b := a.toUInt8
  if b ≠ 0 then bits.setAt (pos / 8 + 1) b else pure bits

/-- `bitvec.set8`. -/
def set8 (bits : Bitvec) (pos : ℕ) : Option Bitvec := do
  let a : UInt8 := 0xFF >>> (pos % 8).toUInt8
  let bits ← bits.orAt (pos / 8) a
  bits.setAt (pos / 8 + 1) (~~~a)

/-- `bitvec.set16`. -/
def set16 (bits : Bitvec) (pos : ℕ) : Option Bitvec := do
  let a : UInt8 := 0xFF >>> (pos % 8).toUInt8
  let bits ← bits.orAt (pos / 8) a
  let bits ← bits.setAt (pos / 8 + 1) 0xFF
  bits.setAt (pos / 8 + 2) (~~~a)

/-- `bitvec.codeSegment`. -/
def codeSegment (bits : Bitvec) (pos : ℕ) : Option Bool :=
  bits[pos / 8]?.map fun b => (b &&& ((0x80 : UInt8) >>> (pos % 8).toUInt8)) == 0

end Bitvec

/-! ### `codeBitmap` -/

/-- The loop `for ; numbits >= 16; numbits -= 16`, returning `numbits`, `pc`
and the bits. -/
def set16Loop : ℕ → ℕ → Bitvec → Option (ℕ × ℕ × Bitvec)
  | numbits + 16, pc, bits => do
    let bits ← bits.set16 pc
    set16Loop numbits (pc + 16) bits
  | numbits, pc, bits => some (numbits, pc, bits)

/-- The loop `for ; numbits >= 8; numbits -= 8`. -/
def set8Loop : ℕ → ℕ → Bitvec → Option (ℕ × ℕ × Bitvec)
  | numbits + 8, pc, bits => do
    let bits ← bits.set8 pc
    set8Loop numbits (pc + 8) bits
  | numbits, pc, bits => some (numbits, pc, bits)

/-- The `switch numbits` after the two loops. -/
def setTail (numbits pc : ℕ) (bits : Bitvec) : Option (ℕ × Bitvec) :=
  match numbits with
  | 1 => do let bits ← bits.set1 pc; pure (pc + 1, bits)
  | 2 => do let bits ← bits.setN set2BitsMask pc; pure (pc + 2, bits)
  | 3 => do let bits ← bits.setN set3BitsMask pc; pure (pc + 3, bits)
  | 4 => do let bits ← bits.setN set4BitsMask pc; pure (pc + 4, bits)
  | 5 => do let bits ← bits.setN set5BitsMask pc; pure (pc + 5, bits)
  | 6 => do let bits ← bits.setN set6BitsMask pc; pure (pc + 6, bits)
  | 7 => do let bits ← bits.setN set7BitsMask pc; pure (pc + 7, bits)
  | _ => some (pc, bits)

/-- The body of the scan after a `PUSH` with `numbits` bytes of data starting
at `pc`. -/
def pushData (numbits pc : ℕ) (bits : Bitvec) : Option (ℕ × Bitvec) := do
  let (numbits, pc, bits) ←
    if numbits ≥ 8 then do
      let (numbits, pc, bits) ← set16Loop numbits pc bits
      set8Loop numbits pc bits
    else pure (numbits, pc, bits)
  setTail numbits pc bits

theorem set16Loop_pc {n pc n' pc' : ℕ} {bits bits' : Bitvec}
    (h : set16Loop n pc bits = some (n', pc', bits')) : n' = n % 16 ∧ pc' = pc + 16 * (n / 16) := by
  induction n, pc, bits using set16Loop.induct with
  | case1 n pc bits ih =>
    simp only [set16Loop, Option.bind_eq_bind, Option.bind_eq_some_iff] at h
    obtain ⟨b, -, h⟩ := h
    obtain ⟨hn, hpc⟩ := ih b h
    omega
  | case2 n pc bits hn =>
    rw [set16Loop.eq_2 _ _ _ hn] at h
    have hlt : n < 16 := by
      by_contra hge
      exact hn (n - 16) (by omega)
    simp only [Option.some.injEq, Prod.mk.injEq] at h
    obtain ⟨rfl, rfl, -⟩ := h
    omega

theorem set8Loop_pc {n pc n' pc' : ℕ} {bits bits' : Bitvec}
    (h : set8Loop n pc bits = some (n', pc', bits')) : n' = n % 8 ∧ pc' = pc + 8 * (n / 8) := by
  induction n, pc, bits using set8Loop.induct with
  | case1 n pc bits ih =>
    simp only [set8Loop, Option.bind_eq_bind, Option.bind_eq_some_iff] at h
    obtain ⟨b, -, h⟩ := h
    obtain ⟨hn, hpc⟩ := ih b h
    omega
  | case2 n pc bits hn =>
    rw [set8Loop.eq_2 _ _ _ hn] at h
    have hlt : n < 8 := by
      by_contra hge
      exact hn (n - 8) (by omega)
    simp only [Option.some.injEq, Prod.mk.injEq] at h
    obtain ⟨rfl, rfl, -⟩ := h
    omega

theorem setTail_pc {n pc pc' : ℕ} {bits bits' : Bitvec} (hn : n < 8)
    (h : setTail n pc bits = some (pc', bits')) : pc' = pc + n := by
  match n, hn with
  | 0, _ => simp [setTail] at h; omega
  | 1, _ | 2, _ | 3, _ | 4, _ | 5, _ | 6, _ | 7, _ =>
    simp only [setTail, Option.bind_eq_bind, Option.bind_eq_some_iff, pure,
      Option.some.injEq, Prod.mk.injEq] at h
    obtain ⟨_, -, rfl, -⟩ := h
    rfl

/-- The inner loops and the switch advance `pc` past the whole data. -/
theorem pushData_pc {n pc pc' : ℕ} {bits bits' : Bitvec}
    (h : pushData n pc bits = some (pc', bits')) : pc' = pc + n := by
  simp only [pushData, Option.bind_eq_bind] at h
  split_ifs at h with h8
  · obtain ⟨⟨n₁, pc₁, b₁⟩, h1, h⟩ := Option.bind_eq_some_iff.mp h
    obtain ⟨⟨n₂, pc₂, b₂⟩, h2, h⟩ := Option.bind_eq_some_iff.mp h
    dsimp only at h2 h
    obtain ⟨hn₁, hpc₁⟩ := set16Loop_pc h1
    obtain ⟨hn₂, hpc₂⟩ := set8Loop_pc h2
    have := setTail_pc (by omega) h
    omega
  · simp only [pure, Option.bind_some] at h
    have := setTail_pc (by omega) h
    omega

/-- `codeBitmapInternal`: the scan from `pc` on. -/
def codeBitmapInternal (code bits : Bitvec) : Option Bitvec := loop 0 bits
where
  loop (pc : ℕ) (bits : Bitvec) : Option Bitvec :=
    if h : pc < code.length then
      let op := code[pc]
      if op < PUSH1 ∨ op > PUSH32 then loop (pc + 1) bits
      else
        match hd : pushData (op - PUSH1 + 1).toNat (pc + 1) bits with
        | some (pc', bits') => loop pc' bits'
        | none => none
    else some bits
  termination_by code.length - pc
  decreasing_by
    · omega
    · have := pushData_pc hd
      omega

/-- `codeBitmap`: four bytes more than the code needs, for a `PUSH32` at its end. -/
def codeBitmap (code : Bytes) : Option Bitvec :=
  codeBitmapInternal code (List.replicate (code.length / 8 + 1 + 4) 0)


/-! ### What the bitmap marks -/

namespace Bitvec

/-- Whether the bitmap marks position `p` as data. -/
def bit (bits : Bitvec) (p : ℕ) : Bool := (bits.getD (p / 8) 0).toNat.testBit (7 - p % 8)

/-- Bit `7 - j` of `x` is set exactly when `8 * d + j` lies in `[r, r + k)`: the
byte `d` after the first one of `k` marks from offset `r` in that byte. -/
def SpanByte (x : UInt8) (r d k : ℕ) : Prop :=
  ∀ j < 8, x.toNat.testBit (7 - j) = decide (r ≤ 8 * d + j ∧ 8 * d + j < r + k)

instance (x : UInt8) (r d k : ℕ) : Decidable (SpanByte x r d k) :=
  inferInstanceAs (Decidable (∀ j < 8, _))

theorem length_orAt {bits bits' : Bitvec} {i : ℕ} {x : UInt8} (h : bits.orAt i x = some bits') :
    bits'.length = bits.length := by
  unfold orAt at h
  split_ifs at h
  cases h
  simp

theorem length_setAt {bits bits' : Bitvec} {i : ℕ} {x : UInt8} (h : bits.setAt i x = some bits') :
    bits'.length = bits.length := by
  unfold setAt at h
  split_ifs at h
  cases h
  simp

theorem bit_orAt {bits bits' : Bitvec} {i : ℕ} {x : UInt8} (h : bits.orAt i x = some bits') (p : ℕ) :
    bits'.bit p = (bits.bit p || (p / 8 == i && x.toNat.testBit (7 - p % 8))) := by
  unfold orAt at h
  split_ifs at h with hi
  cases h
  by_cases hp : p / 8 = i
  · subst hp
    simp [bit, List.getD_eq_getElem?_getD, hi, Nat.testBit_or]
  · simp [bit, List.getD_eq_getElem?_getD, Ne.symm hp, hp]


theorem bit_setAt {bits bits' : Bitvec} {i : ℕ} {x : UInt8} (h : bits.setAt i x = some bits')
    (hz : bits.getD i 0 = 0) (p : ℕ) :
    bits'.bit p = (bits.bit p || (p / 8 == i && x.toNat.testBit (7 - p % 8))) := by
  unfold setAt at h
  split_ifs at h with hi
  cases h
  by_cases hp : p / 8 = i
  · subst hp
    have hz' : bits[p / 8] = 0 := by simpa [List.getD_eq_getElem?_getD, hi] using hz
    simp [bit, List.getD_eq_getElem?_getD, hi, hz']
  · simp [bit, List.getD_eq_getElem?_getD, Ne.symm hp, hp]

/-- A byte none of whose eight bits is set is zero. -/
theorem eq_zero_of_testBit {x : UInt8} (h : ∀ j < 8, x.toNat.testBit (7 - j) = false) : x = 0 := by
  apply UInt8.toNat_inj.mp
  apply Nat.eq_of_testBit_eq
  intro k
  rw [UInt8.toNat_zero, Nat.zero_testBit]
  rcases Nat.lt_or_ge k 8 with hk | hk
  · have hk' : 7 - (7 - k) = k := by omega
    simpa [hk'] using h (7 - k) (by omega)
  · exact Nat.testBit_lt_two_pow (lt_of_lt_of_le (UInt8.toNat_lt _) (Nat.pow_le_pow_right (by decide) hk))

/-- A byte of the bitmap none of whose positions is marked is zero. -/
theorem getD_eq_zero {bits : Bitvec} {i : ℕ} (h : ∀ j < 8, bits.bit (8 * i + j) = false) :
    bits.getD i 0 = 0 := by
  apply eq_zero_of_testBit
  intro j hj
  have hdiv : (8 * i + j) / 8 = i := by omega
  have hmod : (8 * i + j) % 8 = j := by omega
  simpa [bit, hdiv, hmod] using h j hj

theorem spanByte_lookup : ∀ r < 8, SpanByte (lookup.getD r 0) r 0 1 := by decide
theorem spanByte_ff_shiftRight : ∀ r < 8, ∀ k ∈ [8, 16], SpanByte ((0xFF : UInt8) >>> r.toUInt8) r 0 k := by decide
theorem spanByte_not_ff_shiftRight : ∀ r < 8, SpanByte (~~~((0xFF : UInt8) >>> r.toUInt8)) r 1 8 ∧ SpanByte (~~~((0xFF : UInt8) >>> r.toUInt8)) r 2 16 := by decide
theorem spanByte_ff : ∀ r < 8, SpanByte 0xFF r 1 16 := by decide

/-- `flag` holds its top `k` bits, as `setN` reads it at each offset `r`. -/
def MarksTop (flag : UInt16) (k : ℕ) : Prop :=
  ∀ r < 8, SpanByte ((flag >>> r.toUInt16) >>> 8).toUInt8 r 0 k ∧ SpanByte (flag >>> r.toUInt16).toUInt8 r 1 k

theorem marksTop_masks : MarksTop set2BitsMask 2 ∧ MarksTop set3BitsMask 3 ∧ MarksTop set4BitsMask 4 ∧
    MarksTop set5BitsMask 5 ∧ MarksTop set6BitsMask 6 ∧ MarksTop set7BitsMask 7 := by
  unfold MarksTop
  decide
/-- No position from `pos` on is marked. -/
def Clear (bits : Bitvec) (pos : ℕ) : Prop := ∀ p, pos ≤ p → bits.bit p = false

/-- `bits'` is `bits` with the positions `lo ≤ p < hi` marked as well, and as long. -/
structure Marks (bits bits' : Bitvec) (lo hi : ℕ) : Prop where
  length_eq : bits'.length = bits.length
  bit_eq : ∀ p, bits'.bit p = (bits.bit p || decide (lo ≤ p ∧ p < hi))

theorem Marks.refl (bits : Bitvec) (pos : ℕ) : Marks bits bits pos pos :=
  ⟨rfl, fun p => by simp⟩

theorem Marks.trans {b₁ b₂ b₃ : Bitvec} {lo mid hi : ℕ} (h₁ : Marks b₁ b₂ lo mid)
    (h₂ : Marks b₂ b₃ mid hi) (hlo : lo ≤ mid) (hhi : mid ≤ hi) : Marks b₁ b₃ lo hi := by
  refine ⟨h₂.length_eq.trans h₁.length_eq, fun p => ?_⟩
  rw [h₂.bit_eq, h₁.bit_eq, Bool.or_assoc, ← Bool.decide_or]
  congr 2
  apply propext
  omega

theorem Marks.clear {bits bits' : Bitvec} {lo hi : ℕ} (h : Marks bits bits' lo hi)
    (hc : Clear bits lo) (hle : lo ≤ hi) : Clear bits' hi := by
  intro p hp
  rw [h.bit_eq, hc p (by omega)]
  simp only [Bool.false_or, decide_eq_false_iff_not, not_and, not_lt]
  omega

/-- The first byte of a span, ORed in. -/
theorem bit_orAt_span {bits bits' : Bitvec} {pos k : ℕ} {x : UInt8}
    (h : bits.orAt (pos / 8) x = some bits') (hx : SpanByte x (pos % 8) 0 k) (p : ℕ) :
    bits'.bit p = (bits.bit p || decide (p / 8 = pos / 8 ∧ pos ≤ p ∧ p < pos + k)) := by
  rw [bit_orAt h]
  congr 1
  by_cases hp : p / 8 = pos / 8
  · rw [hx (p % 8) (Nat.mod_lt _ (by decide)), hp, beq_self_eq_true, Bool.true_and]
    apply decide_eq_decide.mpr
    omega
  · simp [hp]

/-- A later byte of a span, assigned over a byte that nothing has marked. -/
theorem bit_setAt_span {bits bits' : Bitvec} {pos d k : ℕ} {x : UInt8}
    (h : bits.setAt (pos / 8 + d) x = some bits') (hc : Clear bits (8 * (pos / 8 + d)))
    (hx : SpanByte x (pos % 8) d k) (p : ℕ) :
    bits'.bit p = (bits.bit p || decide (p / 8 = pos / 8 + d ∧ pos ≤ p ∧ p < pos + k)) := by
  rw [bit_setAt h (getD_eq_zero fun j hj => hc _ (by omega))]
  congr 1
  by_cases hp : p / 8 = pos / 8 + d
  · rw [hx (p % 8) (Nat.mod_lt _ (by decide)), hp, beq_self_eq_true, Bool.true_and]
    apply decide_eq_decide.mpr
    omega
  · simp [hp]

/-- What a byte of a span leaves clear: everything after its byte. -/
theorem clear_of_span {bits bits' : Bitvec} {c pos i k : ℕ} (hc : Clear bits c)
    (hci : c ≤ 8 * (i + 1))
    (e : ∀ p, bits'.bit p = (bits.bit p || decide (p / 8 = i ∧ pos ≤ p ∧ p < pos + k))) :
    Clear bits' (8 * (i + 1)) := by
  intro p hp
  rw [e, hc p (by omega)]
  simp only [Bool.false_or, decide_eq_false_iff_not]
  omega

theorem set1_marks {bits : Bitvec} {pos : ℕ} (hlen : pos / 8 < bits.length) :
    ∃ bits', bits.set1 pos = some bits' ∧ Marks bits bits' pos (pos + 1) := by
  obtain ⟨b₁, h₁⟩ : ∃ b₁, bits.orAt (pos / 8) (lookup.getD (pos % 8) 0) = some b₁ :=
    ⟨_, if_pos hlen⟩
  have e₁ := bit_orAt_span h₁ (spanByte_lookup _ (Nat.mod_lt _ (by decide)))
  refine ⟨b₁, h₁, length_orAt h₁, fun p => ?_⟩
  rw [e₁]
  congr 2
  apply propext
  omega

theorem set8_marks {bits : Bitvec} {pos : ℕ} (hc : Clear bits pos) (hlen : (pos + 8) / 8 < bits.length) :
    ∃ bits', bits.set8 pos = some bits' ∧ Marks bits bits' pos (pos + 8) := by
  have hr := Nat.mod_lt pos (show 8 > 0 by decide)
  obtain ⟨b₁, h₁⟩ : ∃ b₁, bits.orAt (pos / 8) ((0xFF : UInt8) >>> (pos % 8).toUInt8) = some b₁ :=
    ⟨_, if_pos (by omega)⟩
  have e₁ := bit_orAt_span h₁ (spanByte_ff_shiftRight _ hr 8 (by simp))
  obtain ⟨b₂, h₂⟩ : ∃ b₂, b₁.setAt (pos / 8 + 1) (~~~((0xFF : UInt8) >>> (pos % 8).toUInt8)) = some b₂ :=
    ⟨_, if_pos (by rw [length_orAt h₁]; omega)⟩
  have e₂ := bit_setAt_span h₂ (clear_of_span hc (by omega) e₁) (spanByte_not_ff_shiftRight _ hr).1
  refine ⟨b₂, by simp [set8, h₁, h₂], (length_setAt h₂).trans (length_orAt h₁), fun p => ?_⟩
  rw [e₂, e₁, Bool.or_assoc, ← Bool.decide_or]
  congr 2
  apply propext
  omega

theorem set16_marks {bits : Bitvec} {pos : ℕ} (hc : Clear bits pos)
    (hlen : (pos + 16) / 8 < bits.length) :
    ∃ bits', bits.set16 pos = some bits' ∧ Marks bits bits' pos (pos + 16) := by
  have hr := Nat.mod_lt pos (show 8 > 0 by decide)
  obtain ⟨b₁, h₁⟩ : ∃ b₁, bits.orAt (pos / 8) ((0xFF : UInt8) >>> (pos % 8).toUInt8) = some b₁ :=
    ⟨_, if_pos (by omega)⟩
  have e₁ := bit_orAt_span h₁ (spanByte_ff_shiftRight _ hr 16 (by simp))
  obtain ⟨b₂, h₂⟩ : ∃ b₂, b₁.setAt (pos / 8 + 1) 0xFF = some b₂ :=
    ⟨_, if_pos (by rw [length_orAt h₁]; omega)⟩
  have e₂ := bit_setAt_span h₂ (clear_of_span hc (by omega) e₁) (spanByte_ff _ hr)
  obtain ⟨b₃, h₃⟩ : ∃ b₃, b₂.setAt (pos / 8 + 2) (~~~((0xFF : UInt8) >>> (pos % 8).toUInt8)) = some b₃ :=
    ⟨_, if_pos (by rw [length_setAt h₂, length_orAt h₁]; omega)⟩
  have e₃ := bit_setAt_span h₃ (clear_of_span (clear_of_span hc (by omega) e₁) (by omega) e₂)
    (spanByte_not_ff_shiftRight _ hr).2
  refine ⟨b₃, by simp [set16, h₁, h₂, h₃], ?_, fun p => ?_⟩
  · rw [length_setAt h₃, length_setAt h₂, length_orAt h₁]
  · rw [e₃, e₂, e₁, Bool.or_assoc, Bool.or_assoc, ← Bool.decide_or, ← Bool.decide_or]
    congr 2
    apply propext
    omega

theorem setN_marks {bits : Bitvec} {flag : UInt16} {k pos : ℕ} (hflag : MarksTop flag k)
    (hk : k ≤ 8) (hc : Clear bits pos) (hlen : (pos + k) / 8 < bits.length) :
    ∃ bits', bits.setN flag pos = some bits' ∧ Marks bits bits' pos (pos + k) := by
  have hr := Nat.mod_lt pos (show 8 > 0 by decide)
  obtain ⟨hhi, hlo⟩ := hflag _ hr
  obtain ⟨b₁, h₁⟩ : ∃ b₁, bits.orAt (pos / 8) ((flag >>> (pos % 8).toUInt16) >>> 8).toUInt8 = some b₁ :=
    ⟨_, if_pos (by omega)⟩
  have e₁ := bit_orAt_span h₁ hhi
  by_cases hb : (flag >>> (pos % 8).toUInt16).toUInt8 = 0
  · -- the marks end in the first byte
    refine ⟨b₁, by simp [setN, h₁, hb], length_orAt h₁, fun p => ?_⟩
    have hnext : ¬ (pos % 8 ≤ 8 * 1 + p % 8 ∧ 8 * 1 + p % 8 < pos % 8 + k) := by
      have := hlo (p % 8) (Nat.mod_lt _ (by decide))
      rw [hb] at this
      simpa using this.symm
    rw [e₁]
    congr 2
    apply propext
    omega
  · -- some mark falls in the second byte, so it lies in the slice
    obtain ⟨j, hj, hbit⟩ : ∃ j < 8, (flag >>> (pos % 8).toUInt16).toUInt8.toNat.testBit (7 - j) := by
      by_contra hnone
      exact hb (eq_zero_of_testBit fun j hj => Bool.eq_false_iff.mpr fun h => hnone ⟨j, hj, h⟩)
    have hjk : pos % 8 ≤ 8 * 1 + j ∧ 8 * 1 + j < pos % 8 + k := by
      have := hlo j hj
      rw [hbit] at this
      exact of_decide_eq_true this.symm
    obtain ⟨b₂, h₂⟩ : ∃ b₂, b₁.setAt (pos / 8 + 1) (flag >>> (pos % 8).toUInt16).toUInt8 = some b₂ :=
      ⟨_, if_pos (by rw [length_orAt h₁]; omega)⟩
    have e₂ := bit_setAt_span h₂ (clear_of_span hc (by omega) e₁) hlo
    refine ⟨b₂, by simp [setN, h₁, hb, h₂], (length_setAt h₂).trans (length_orAt h₁), fun p => ?_⟩
    rw [e₂, e₁, Bool.or_assoc, ← Bool.decide_or]
    congr 2
    apply propext
    omega

end Bitvec

open Bitvec

theorem set16Loop_marks {n pos : ℕ} {bits : Bitvec} (hc : Clear bits pos)
    (hlen : (pos + n) / 8 < bits.length) :
    ∃ bits', set16Loop n pos bits = some (n % 16, pos + 16 * (n / 16), bits') ∧
      Marks bits bits' pos (pos + 16 * (n / 16)) := by
  induction n, pos, bits using set16Loop.induct with
  | case1 n pos bits ih =>
    obtain ⟨b₁, h₁, m₁⟩ := set16_marks hc (by omega)
    obtain ⟨b₂, h₂, m₂⟩ := ih b₁ (m₁.clear hc (by omega)) (by rw [m₁.length_eq]; omega)
    have hn : (n + 16) % 16 = n % 16 := by omega
    have hpc : pos + 16 * ((n + 16) / 16) = pos + 16 + 16 * (n / 16) := by omega
    refine ⟨b₂, ?_, ?_⟩
    · simp only [set16Loop, h₁, Option.bind_eq_bind, Option.bind_some, h₂, hn, hpc]
    · rw [hpc]
      exact m₁.trans m₂ (by omega) (by omega)
  | case2 n pos bits hn =>
    have hlt : n < 16 := by
      by_contra hge
      exact hn (n - 16) (by omega)
    refine ⟨bits, ?_, ?_⟩
    · rw [set16Loop.eq_2 _ _ _ hn, Nat.mod_eq_of_lt hlt, Nat.div_eq_of_lt hlt, Nat.mul_zero, Nat.add_zero]
    · rw [Nat.div_eq_of_lt hlt, Nat.mul_zero, Nat.add_zero]
      exact Marks.refl _ _

theorem set8Loop_marks {n pos : ℕ} {bits : Bitvec} (hc : Clear bits pos)
    (hlen : (pos + n) / 8 < bits.length) :
    ∃ bits', set8Loop n pos bits = some (n % 8, pos + 8 * (n / 8), bits') ∧
      Marks bits bits' pos (pos + 8 * (n / 8)) := by
  induction n, pos, bits using set8Loop.induct with
  | case1 n pos bits ih =>
    obtain ⟨b₁, h₁, m₁⟩ := set8_marks hc (by omega)
    obtain ⟨b₂, h₂, m₂⟩ := ih b₁ (m₁.clear hc (by omega)) (by rw [m₁.length_eq]; omega)
    have hn : (n + 8) % 8 = n % 8 := by omega
    have hpc : pos + 8 * ((n + 8) / 8) = pos + 8 + 8 * (n / 8) := by omega
    refine ⟨b₂, ?_, ?_⟩
    · simp only [set8Loop, h₁, Option.bind_eq_bind, Option.bind_some, h₂, hn, hpc]
    · rw [hpc]
      exact m₁.trans m₂ (by omega) (by omega)
  | case2 n pos bits hn =>
    have hlt : n < 8 := by
      by_contra hge
      exact hn (n - 8) (by omega)
    refine ⟨bits, ?_, ?_⟩
    · rw [set8Loop.eq_2 _ _ _ hn, Nat.mod_eq_of_lt hlt, Nat.div_eq_of_lt hlt, Nat.mul_zero, Nat.add_zero]
    · rw [Nat.div_eq_of_lt hlt, Nat.mul_zero, Nat.add_zero]
      exact Marks.refl _ _

theorem setTail_marks {n pos : ℕ} {bits : Bitvec} (hn : n < 8) (hc : Clear bits pos)
    (hlen : (pos + n) / 8 < bits.length) :
    ∃ bits', setTail n pos bits = some (pos + n, bits') ∧ Marks bits bits' pos (pos + n) := by
  obtain ⟨m2, m3, m4, m5, m6, m7⟩ := marksTop_masks
  match n, hn with
  | 0, _ => exact ⟨bits, rfl, Marks.refl _ _⟩
  | 1, _ =>
    obtain ⟨b, h, m⟩ := set1_marks (show pos / 8 < bits.length by omega)
    exact ⟨b, by simp [setTail, h], m⟩
  | 2, _ =>
    obtain ⟨b, h, m⟩ := setN_marks m2 (by decide) hc hlen
    exact ⟨b, by simp [setTail, h], m⟩
  | 3, _ =>
    obtain ⟨b, h, m⟩ := setN_marks m3 (by decide) hc hlen
    exact ⟨b, by simp [setTail, h], m⟩
  | 4, _ =>
    obtain ⟨b, h, m⟩ := setN_marks m4 (by decide) hc hlen
    exact ⟨b, by simp [setTail, h], m⟩
  | 5, _ =>
    obtain ⟨b, h, m⟩ := setN_marks m5 (by decide) hc hlen
    exact ⟨b, by simp [setTail, h], m⟩
  | 6, _ =>
    obtain ⟨b, h, m⟩ := setN_marks m6 (by decide) hc hlen
    exact ⟨b, by simp [setTail, h], m⟩
  | 7, _ =>
    obtain ⟨b, h, m⟩ := setN_marks m7 (by decide) hc hlen
    exact ⟨b, by simp [setTail, h], m⟩

/-- The data of a `PUSH` is marked, whatever its length, by the two loops and
the switch together. -/
theorem pushData_marks {n pos : ℕ} {bits : Bitvec} (hc : Clear bits pos)
    (hlen : (pos + n) / 8 < bits.length) :
    ∃ bits', pushData n pos bits = some (pos + n, bits') ∧ Marks bits bits' pos (pos + n) := by
  by_cases h8 : n ≥ 8
  · obtain ⟨b₁, h₁, m₁⟩ := set16Loop_marks hc hlen
    obtain ⟨b₂, h₂, m₂⟩ := set8Loop_marks (m₁.clear hc (by omega))
      (show (pos + 16 * (n / 16) + n % 16) / 8 < b₁.length by rw [m₁.length_eq]; omega)
    obtain ⟨b₃, h₃, m₃⟩ := setTail_marks (show n % 16 % 8 < 8 by omega)
      (m₂.clear (m₁.clear hc (by omega)) (by omega)) (by rw [m₂.length_eq, m₁.length_eq]; omega)
    have hpc : pos + 16 * (n / 16) + 8 * (n % 16 / 8) + n % 16 % 8 = pos + n := by omega
    refine ⟨b₃, ?_, ?_⟩
    · simp only [pushData, if_pos h8, Option.bind_eq_bind, h₁, Option.bind_some, h₂, h₃, hpc]
    · rw [← hpc]
      exact (m₁.trans m₂ (by omega) (by omega)).trans m₃ (by omega) (by omega)
  · obtain ⟨b₁, h₁, m₁⟩ := setTail_marks (show n < 8 by omega) hc hlen
    exact ⟨b₁, by simp only [pushData, if_neg h8, pure, Option.bind_eq_bind, Option.bind_some, h₁], m₁⟩

/-! ### The scan -/

/-- The width of the immediate data of an opcode: `n` bytes after `PUSHn`
(`0x5f + n`), none after any other opcode. -/
def pushDataSize (op : UInt8) : ℕ :=
  if 0x60 ≤ op.toNat ∧ op.toNat ≤ 0x7f then op.toNat - 0x5f else 0

theorem pushDataSize_of_not_push {op : UInt8} (h : op < PUSH1 ∨ op > PUSH32) : pushDataSize op = 0 := by
  have h' : op.toNat < 0x60 ∨ 0x7f < op.toNat := by
    simpa [PUSH1, PUSH32, UInt8.lt_iff_toNat_lt] using h
  simp only [pushDataSize]
  split_ifs <;> omega

theorem pushDataSize_of_push {op : UInt8} (h : ¬ (op < PUSH1 ∨ op > PUSH32)) :
    (op - PUSH1 + 1).toNat = pushDataSize op := by
  have h' : 0x60 ≤ op.toNat ∧ op.toNat ≤ 0x7f := by
    simpa [PUSH1, PUSH32, UInt8.lt_iff_toNat_lt] using h
  rw [pushDataSize, if_pos h', UInt8.toNat_add, UInt8.toNat_sub_of_le _ _ (by simpa [UInt8.le_iff_toNat_le, PUSH1] using h'.1)]
  simp [PUSH1]
  omega

theorem pushDataSize_le (op : UInt8) : pushDataSize op ≤ 32 := by
  simp only [pushDataSize]
  split_ifs <;> omega

/-- The invariant of the scan at `pc`: an opcode the scan meets, and the bitmap
marks exactly the immediate data before it. -/
structure ScanInv (code bits : Bitvec) (pc : ℕ) : Prop where
  start : IsStart pushDataSize code pc
  length_eq : bits.length = code.length / 8 + 5
  bit_iff : ∀ p, bits.bit p = true ↔ p < pc ∧ IsImm pushDataSize code p

theorem ScanInv.clear {code bits : Bitvec} {pc : ℕ} (h : ScanInv code bits pc) : Clear bits pc := by
  intro p hp
  by_contra hb
  have := (h.bit_iff p).mp (Bool.not_eq_false _ ▸ hb)
  omega

/-- One turn of the scan keeps the invariant: the data of the opcode at `pc`
is marked and the scan moves past it. -/
theorem ScanInv.step {code bits bits' : Bitvec} {pc pc' : ℕ} (h : ScanInv code bits pc)
    (hpc : pc < code.length)
    (hm : Marks bits bits' (pc + 1) pc') (hpc' : pc' = pc + 1 + pushDataSize code[pc]) :
    ScanInv code bits' pc' := by
  have hget : code[pc]? = some code[pc] := List.getElem?_eq_getElem hpc
  refine ⟨hpc' ▸ h.start.next hget, hm.length_eq.trans h.length_eq, fun p => ?_⟩
  rw [hm.bit_eq, Bool.or_eq_true, h.bit_iff, decide_eq_true_iff, hpc',
    isImm_before_next h.start hget]
  exact or_congr_right (by omega)

theorem loop_not_push {code bits : Bitvec} {pc : ℕ} (hpc : pc < code.length)
    (hop : code[pc] < PUSH1 ∨ code[pc] > PUSH32) :
    codeBitmapInternal.loop code pc bits = codeBitmapInternal.loop code (pc + 1) bits := by
  rw [codeBitmapInternal.loop, dif_pos hpc, if_pos hop]

theorem loop_push {code bits bits' : Bitvec} {pc pc' : ℕ} (hpc : pc < code.length)
    (hop : ¬ (code[pc] < PUSH1 ∨ code[pc] > PUSH32))
    (hd : pushData (code[pc] - PUSH1 + 1).toNat (pc + 1) bits = some (pc', bits')) :
    codeBitmapInternal.loop code pc bits = codeBitmapInternal.loop code pc' bits' := by
  rw [codeBitmapInternal.loop, dif_pos hpc, if_neg hop]
  split <;> simp_all

theorem loop_end {code bits : Bitvec} {pc : ℕ} (hpc : ¬ pc < code.length) :
    codeBitmapInternal.loop code pc bits = some bits := by
  rw [codeBitmapInternal.loop, dif_neg hpc]

/-- The scan runs to the end of the code from any state of the invariant, with
every write in bounds. -/
theorem ScanInv.loop {code bits : Bitvec} {pc : ℕ} (h : ScanInv code bits pc) :
    ∃ pc' bits', codeBitmapInternal.loop code pc bits = some bits' ∧ code.length ≤ pc' ∧
      ScanInv code bits' pc' := by
  induction pc, bits using codeBitmapInternal.loop.induct code with
  | case1 pc bits hpc op hop ih =>
    -- no data: the scan moves one byte on
    rw [loop_not_push hpc hop]
    exact ih (h.step hpc (Marks.refl _ _) (by rw [pushDataSize_of_not_push hop]))
  | case2 pc bits hpc op hop pc' bits' hd ih =>
    have hw := pushDataSize_le op
    obtain ⟨b, hb, hm⟩ := pushData_marks (fun p hp => h.clear p (by omega))
      (show (pc + 1 + (code[pc] - PUSH1 + 1).toNat) / 8 < bits.length by
        rw [h.length_eq, pushDataSize_of_push hop]; omega)
    obtain ⟨rfl, rfl⟩ : pc + 1 + (code[pc] - PUSH1 + 1).toNat = pc' ∧ b = bits' := by
      simpa using hb.symm.trans hd
    rw [loop_push hpc hop hd]
    exact ih (h.step hpc hm (by rw [pushDataSize_of_push hop]))
  | case3 pc bits hpc op hop hd =>
    have hw := pushDataSize_le op
    obtain ⟨b, hb, -⟩ := pushData_marks (fun p hp => h.clear p (by omega))
      (show (pc + 1 + (code[pc] - PUSH1 + 1).toNat) / 8 < bits.length by
        rw [h.length_eq, pushDataSize_of_push hop]; omega)
    exact absurd (hb.symm.trans hd) (by simp)
  | case4 pc bits hpc =>
    exact ⟨pc, bits, loop_end hpc, by omega, h⟩

/-- `codeBitmap` writes only inside its slice and marks exactly the immediate
data of the code. -/
theorem codeBitmap_marks (code : Bytes) :
    ∃ bits, codeBitmap code = some bits ∧ bits.length = code.length / 8 + 5 ∧
      ∀ p < code.length, (bits.bit p = true ↔ IsImm pushDataSize code p) := by
  have h0 : ScanInv code (List.replicate (code.length / 8 + 1 + 4) 0) 0 :=
    ⟨.zero, by simp, fun p => by simp [bit, List.getElem?_replicate]; split <;> simp⟩
  obtain ⟨pc', bits', hrun, hend, hinv⟩ := h0.loop
  refine ⟨bits', hrun, hinv.length_eq, fun p hp => ?_⟩
  rw [hinv.bit_iff]
  exact and_iff_right (by omega)

theorem and_two_pow_eq_zero {x k : ℕ} : x &&& 2 ^ k = 0 ↔ x.testBit k = false := by
  constructor
  · intro h
    simpa [Nat.testBit_two_pow] using congrArg (Nat.testBit · k) h
  · intro h
    apply Nat.eq_of_testBit_eq
    intro i
    by_cases hi : k = i
    · subst hi
      simp [h]
    · simp [hi]

/-- `codeSegment` reads the bit of `bitvec.set1`'s mask. -/
theorem codeSegment_eq {bits : Bitvec} {p : ℕ} (hp : p / 8 < bits.length) :
    bits.codeSegment p = some (!bits.bit p) := by
  have hr := Nat.mod_lt p (show 8 > 0 by decide)
  have hm : ((0x80 : UInt8) >>> (p % 8).toUInt8).toNat = 2 ^ (7 - p % 8) := by
    generalize p % 8 = r at hr
    revert r
    decide
  simp only [codeSegment, bit, List.getElem?_eq_getElem hp, Option.map_some,
    List.getD_eq_getElem?_getD, Option.getD_some, Option.some.injEq]
  rw [Bool.eq_iff_iff, beq_iff_eq, ← UInt8.toNat_inj, UInt8.toNat_and, hm, UInt8.toNat_zero,
    and_two_pow_eq_zero]
  simp

/-- Read at a position of the code, the bitmap tells an opcode the scan meets. -/
theorem codeSegment_codeBitmap {code : Bytes} {a : Bitvec} (h : codeBitmap code = some a) {p : ℕ}
    (hp : p < code.length) :
    ∃ r, a.codeSegment p = some r ∧ (r = true ↔ IsStart pushDataSize code p) := by
  obtain ⟨bits, hb, hlen, hmark⟩ := codeBitmap_marks code
  obtain rfl : bits = a := Option.some.inj (hb.symm.trans h)
  refine ⟨!bits.bit p, codeSegment_eq (by omega), ?_⟩
  rw [isStart_iff_not_isImm hp, ← hmark p hp]
  simp

/-! ### Jump checks of a contract -/

/-- The fields of `Contract` that the jump checks read and write. `jumpdests`,
the map of analyses by code hash, is shared with the contracts of the parent
contexts, so the model passes it beside the contract. -/
structure Contract where
  Code : Bytes
  CodeHash : Hash
  analysis : Option Bitvec

/-- `map[common.Hash]bitvec`. -/
abbrev Jumpdests := Hash → Option Bitvec

/-- `Contract.isCode`. In its last branch `c.analysis` is always nil, so the
analysis is made there. -/
def Contract.isCode (c : Contract) (jumpdests : Jumpdests) (udest : ℕ) :
    Option (Bool × Contract × Jumpdests) :=
  match c.analysis with
  | some analysis => (analysis.codeSegment udest).map fun r => (r, c, jumpdests)
  | none =>
    if c.CodeHash ≠ 0 then do
      let (analysis, jumpdests) ← match jumpdests c.CodeHash with
        | some analysis => some (analysis, jumpdests)
        | none => (codeBitmap c.Code).map fun analysis =>
            (analysis, Function.update jumpdests c.CodeHash (some analysis))
      let r ← analysis.codeSegment udest
      pure (r, { c with analysis := some analysis }, jumpdests)
    else do
      let analysis ← codeBitmap c.Code
      let r ← analysis.codeSegment udest
      pure (r, { c with analysis := some analysis }, jumpdests)

/-- `Contract.validJumpdest`. `uint64(len(c.Code))` is the length itself. -/
def Contract.validJumpdest (c : Contract) (jumpdests : Jumpdests) (dest : Word) :
    Option (Bool × Contract × Jumpdests) :=
  let (udest, overflow) := dest.uint64WithOverflow
  if overflow || decide (udest.toNat ≥ c.Code.length) then some (false, c, jumpdests)
  else if c.Code[udest.toNat]? ≠ some JUMPDEST then some (false, c, jumpdests)
  else c.isCode jumpdests udest.toNat

/-- The analyses `isCode` may read, the contract's own and the one kept under
its code hash, are those of its code. -/
def Contract.AnalysisCoherent (c : Contract) (jumpdests : Jumpdests) : Prop :=
  (∀ a, c.analysis = some a → codeBitmap c.Code = some a) ∧
    (c.CodeHash ≠ 0 → ∀ a, jumpdests c.CodeHash = some a → codeBitmap c.Code = some a)

/-- The analysis `isCode` stores in the contract keeps it coherent with a map
that holds at most that analysis under its code hash. -/
theorem Contract.AnalysisCoherent.stash {c : Contract} {jumpdests : Jumpdests} {bits : Bitvec}
    (hb : codeBitmap c.Code = some bits)
    (hj : c.CodeHash ≠ 0 → ∀ a, jumpdests c.CodeHash = some a → a = bits) :
    Contract.AnalysisCoherent { c with analysis := some bits } jumpdests := by
  refine ⟨fun a ha => ?_, fun hh a ha => ?_⟩
  · cases ha
    exact hb
  · rw [hj hh a ha]
    exact hb

/-- `isCode` answers from the analysis of the contract's code, whichever of its
three places it reads, and leaves the contract and the map coherent. -/
theorem Contract.isCode_spec {c : Contract} {jumpdests : Jumpdests} {udest : ℕ}
    (hcoh : c.AnalysisCoherent jumpdests) (hdest : udest < c.Code.length) :
    ∃ r c' jumpdests', c.isCode jumpdests udest = some (r, c', jumpdests') ∧
      (r = true ↔ IsStart pushDataSize c.Code udest) ∧ c'.Code = c.Code ∧
      c'.CodeHash = c.CodeHash ∧ c'.AnalysisCoherent jumpdests' := by
  obtain ⟨bits, hb, -, -⟩ := codeBitmap_marks c.Code
  obtain ⟨r, hr, hiff⟩ := codeSegment_codeBitmap hb hdest
  cases ha : c.analysis with
  | some a =>
    -- the contract's own analysis
    obtain rfl : bits = a := Option.some.inj (hb.symm.trans (hcoh.1 a ha))
    exact ⟨r, c, jumpdests, by simp [isCode, ha, hr], hiff, rfl, rfl, hcoh⟩
  | none =>
    by_cases hh : c.CodeHash = 0
    · -- initcode: a fresh analysis, stashed in the contract only
      exact ⟨r, { c with analysis := some bits }, jumpdests, by simp [isCode, ha, hh, hb, hr],
        hiff, rfl, rfl, AnalysisCoherent.stash hb fun h => absurd hh h⟩
    · cases hj : jumpdests c.CodeHash with
      | some a =>
        -- the analysis of a parent context
        have hab : bits = a := Option.some.inj (hb.symm.trans (hcoh.2 hh a hj))
        refine ⟨r, { c with analysis := some bits }, jumpdests, ?_, hiff, rfl, rfl,
          AnalysisCoherent.stash hb fun _ a' ha' => ?_⟩
        · simp [isCode, ha, hh, hj, ← hab, hr]
        · rw [hj] at ha'
          exact (Option.some.inj ha').symm.trans hab.symm
      | none =>
        -- a new analysis, saved in the shared map
        refine ⟨r, { c with analysis := some bits }, Function.update jumpdests c.CodeHash (some bits),
          by simp [isCode, ha, hh, hj, hb, hr], hiff, rfl, rfl,
          AnalysisCoherent.stash hb fun _ a' ha' => ?_⟩
        simp only [Function.update_self, Option.some.injEq] at ha'
        exact ha'.symm

theorem validJumpdest_exact (c : Contract) (jumpdests : Jumpdests) (dest : Word)
    (hlen : c.Code.length < 2 ^ 64) (hcoh : c.AnalysisCoherent jumpdests) :
    (∀ code : Bytes, ∃ bits, codeBitmap code = some bits ∧ bits.length = code.length / 8 + 5 ∧
      ∀ p < code.length, ∃ r, bits.codeSegment p = some r ∧ (r = true ↔ ¬ IsImm pushDataSize code p)) ∧
    ∃ r c' jumpdests', c.validJumpdest jumpdests dest = some (r, c', jumpdests') ∧
      (r = true ↔ dest.val < c.Code.length ∧ c.Code[dest.val]? = some JUMPDEST ∧
        IsStart pushDataSize c.Code dest.val) ∧
      c'.Code = c.Code ∧ c'.AnalysisCoherent jumpdests' := by
  refine ⟨fun code => ?_, ?_⟩
  · obtain ⟨bits, hb, hl, hmark⟩ := codeBitmap_marks code
    refine ⟨bits, hb, hl, fun p hp => ⟨!bits.bit p, codeSegment_eq (by omega), ?_⟩⟩
    rw [← hmark p hp]
    simp
  · -- the destination as `Uint64WithOverflow` reads it
    have hu : dest.uint64WithOverflow.1.toNat = dest.val % 2 ^ 64 := UInt64.toNat_ofNat'
    have ho : dest.uint64WithOverflow.2 = !decide (dest.val < 2 ^ 64) := rfl
    simp only [Contract.validJumpdest]
    generalize dest.uint64WithOverflow = w at hu ho ⊢
    obtain ⟨udest, overflow⟩ := w
    dsimp only at hu ho ⊢
    subst ho
    by_cases hover : dest.val < 2 ^ 64
    · rw [Nat.mod_eq_of_lt hover] at hu
      simp only [hover, decide_true, Bool.not_true, Bool.false_or, hu]
      by_cases hd : dest.val < c.Code.length
      · by_cases hj : c.Code[dest.val]? = some JUMPDEST
        · -- the bitmap decides
          obtain ⟨r, c', jumpdests', hcode, hiff, hc', -, hcoh'⟩ := c.isCode_spec hcoh hd
          refine ⟨r, c', jumpdests', ?_, ?_, hc', hcoh'⟩
          · simp [show ¬ c.Code.length ≤ dest.val by omega, hj, hcode]
          · exact ⟨fun h => ⟨hd, hj, hiff.mp h⟩, fun h => hiff.mpr h.2.2⟩
        · exact ⟨false, c, jumpdests, by simp [show ¬ c.Code.length ≤ dest.val by omega, hj],
            by simp [hj], rfl, hcoh⟩
      · exact ⟨false, c, jumpdests, by simp [show c.Code.length ≤ dest.val by omega],
          by simp [hd], rfl, hcoh⟩
    · -- a destination past `uint64` is past the code
      have hover' : ¬ dest.val < 18446744073709551616 := hover
      exact ⟨false, c, jumpdests, by simp [hover'], by simp; omega, rfl, hcoh⟩

/-- `PUSH1 0x5b; JUMPDEST`, a contract of initcode without an analysis. -/
def pushJumpdestContract : Contract := ⟨[0x60, 0x5b, 0x5b], 0, none⟩

theorem validJumpdest_exact_pushJumpdest :
    pushJumpdestContract.Code.length < 2 ^ 64 ∧
      pushJumpdestContract.AnalysisCoherent (fun _ => none) ∧
      ∃ r c' jumpdests', pushJumpdestContract.validJumpdest (fun _ => none) 2 = some (r, c', jumpdests') ∧
        (r = true ↔ (2 : Word).val < pushJumpdestContract.Code.length ∧
          pushJumpdestContract.Code[(2 : Word).val]? = some JUMPDEST ∧
          IsStart pushDataSize pushJumpdestContract.Code (2 : Word).val) := by
  have hlen : pushJumpdestContract.Code.length < 2 ^ 64 := by decide
  have hcoh : pushJumpdestContract.AnalysisCoherent (fun _ => none) :=
    ⟨fun a ha => (by cases ha), fun _ a ha => (by cases ha)⟩
  obtain ⟨-, r, c', jumpdests', hrun, hiff, -⟩ :=
    validJumpdest_exact pushJumpdestContract (fun _ => none) 2 hlen hcoh
  exact ⟨hlen, hcoh, r, c', jumpdests', hrun, hiff⟩

/-! ### The shared map along a call tree -/

/-- Every analysis in the shared map is that of a code whose hash is its key. -/
def JumpdestsSound (keccak256 : Bytes → Hash) (jumpdests : Jumpdests) : Prop :=
  ∀ h a, jumpdests h = some a → ∃ code, keccak256 code = h ∧ codeBitmap code = some a

/-- `isCode` writes the map only on a miss under a non-zero hash, and then the
analysis of the contract's code. -/
theorem Contract.isCode_jumpdests {c c' : Contract} {jumpdests jumpdests' : Jumpdests} {udest : ℕ}
    {r : Bool} (h : c.isCode jumpdests udest = some (r, c', jumpdests')) :
    jumpdests' = jumpdests ∨ c.CodeHash ≠ 0 ∧
      ∃ a, codeBitmap c.Code = some a ∧ jumpdests' = Function.update jumpdests c.CodeHash (some a) := by
  unfold Contract.isCode at h
  cases ha : c.analysis with
  | some a =>
    simp only [ha, Option.map_eq_some_iff, Prod.mk.injEq] at h
    obtain ⟨_, -, -, -, rfl⟩ := h
    exact .inl rfl
  | none =>
    simp only [ha] at h
    split_ifs at h with hh
    · cases hj : jumpdests c.CodeHash with
      | some a =>
        simp only [hj, Option.bind_eq_bind, Option.bind_some, Option.bind_eq_some_iff, pure,
          Option.some.injEq, Prod.mk.injEq] at h
        obtain ⟨_, -, -, -, rfl⟩ := h
        exact .inl rfl
      | none =>
        simp only [hj, Option.bind_eq_bind, Option.bind_eq_some_iff, Option.map_eq_some_iff, pure,
          Option.some.injEq, Prod.mk.injEq] at h
        obtain ⟨_, ⟨a, hb, rfl⟩, _, -, -, -, rfl⟩ := h
        exact .inr ⟨hh, a, hb, rfl⟩
    · simp only [Option.bind_eq_bind, Option.bind_eq_some_iff, pure, Option.some.injEq,
        Prod.mk.injEq] at h
      obtain ⟨_, -, _, -, -, -, rfl⟩ := h
      exact .inl rfl

/-- A jump check of any contract whose hash is that of its code keeps the
shared map sound. -/
theorem JumpdestsSound.validJumpdest {keccak256 : Bytes → Hash} {c c' : Contract}
    {jumpdests jumpdests' : Jumpdests} {dest : Word} {r : Bool}
    (hs : JumpdestsSound keccak256 jumpdests)
    (hhash : c.CodeHash ≠ 0 → c.CodeHash = keccak256 c.Code)
    (h : c.validJumpdest jumpdests dest = some (r, c', jumpdests')) :
    JumpdestsSound keccak256 jumpdests' := by
  have hcases : jumpdests' = jumpdests ∨ c.CodeHash ≠ 0 ∧
      ∃ a, codeBitmap c.Code = some a ∧
        jumpdests' = Function.update jumpdests c.CodeHash (some a) := by
    simp only [Contract.validJumpdest] at h
    split_ifs at h
    · simp only [Option.some.injEq, Prod.mk.injEq] at h
      exact .inl h.2.2.symm
    · simp only [Option.some.injEq, Prod.mk.injEq] at h
      exact .inl h.2.2.symm
    · exact Contract.isCode_jumpdests h
  rcases hcases with rfl | ⟨hh, a, hb, rfl⟩
  · exact hs
  · intro k a' ha'
    by_cases hk : k = c.CodeHash
    · subst hk
      simp only [Function.update_self, Option.some.injEq] at ha'
      exact ⟨c.Code, (hhash hh).symm, ha' ▸ hb⟩
    · rw [Function.update_of_ne hk] at ha'
      exact hs k a' ha'

end Classzz.Vm
