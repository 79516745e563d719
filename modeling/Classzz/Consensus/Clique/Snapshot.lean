import Mathlib.Data.Finset.Card
import Classzz.Lib.Except

/-!
# Clique: the vote tally of a snapshot

A clique `Snapshot` (consensus/clique/snapshot.go) holds the authorized signers and the votes
cast to change them, twice over: `votes`, in the order they were cast, and `tally`, a count of
them per address. `apply` runs the headers of a chain segment through it; each header's signer
casts the vote the header carries, and a vote that more than half of the signers back changes the
signer set.

`Tallies` says that the two records agree; with the facts that every vote comes from a current
signer, that no signer has two votes on one address and that every tally proposes to flip its
address (`Inv`), it holds after every header (`Inv.applyHeader`) and so after `apply`. A signer set
changes only at the header's own address, and only after more than half of the signers before it
have a vote counted for that change (`VoteCarried`).
-/

namespace Classzz.Clique

/-- `nonceAuthVote`, the eight bytes `0xff`, read as one big-endian word. -/
def nonceAuthVote : UInt64 := 0xffffffffffffffff

/-- `nonceDropVote`, the eight bytes `0x00`. -/
def nonceDropVote : UInt64 := 0

/-- The errors `apply` returns; `ecrecover` stands for every failure of signature recovery. -/
inductive ApplyError where
  | invalidVotingChain
  | ecrecover
  | unauthorizedSigner
  | recentlySigned
  | invalidVote
  deriving DecidableEq, Repr

/-- The engine's `CliqueConfig` after `New`, which replaces a zero `Epoch` by `epochLength`. -/
structure Config where
  epoch : ℕ
  epoch_pos : 0 < epoch

/-- A vote of `signer`, cast in block `block`, to add (`authorize`) or drop `address`. -/
structure Vote (Address : Type) where
  signer : Address
  block : ℕ
  address : Address
  authorize : Bool
  deriving DecidableEq, Repr

/-- The running score of the votes on one address. -/
structure Tally where
  authorize : Bool
  votes : ℕ
  deriving DecidableEq, Repr

/-- The header fields `apply` reads; the seal is in `extra`, for the signer recovery. -/
structure Header (Address : Type) where
  number : ℕ
  coinbase : Address
  nonce : UInt64
  extra : List UInt8
  deriving DecidableEq, Repr

/-- A snapshot; `recents` is the map from block numbers to their signers. -/
structure Snapshot (Address : Type) where
  config : Config
  number : ℕ
  signers : Finset Address
  recents : List (ℕ × Address)
  votes : List (Vote Address)
  tally : Address → Option Tally

variable {Address : Type} [DecidableEq Address]

/-- `newSnapshot`: the given signers, no recents, no votes. -/
def newSnapshot (config : Config) (number : ℕ) (signers : List Address) : Snapshot Address :=
  { config, number, signers := signers.toFinset, recents := [], votes := [],
    tally := fun _ => none }

namespace Snapshot

/-- `validVote`: a vote makes sense when it proposes to flip the address's membership. -/
def validVote (s : Snapshot Address) (address : Address) (authorize : Bool) : Bool :=
  (decide (address ∈ s.signers) && !authorize) || (decide (address ∉ s.signers) && authorize)

/-- `cast`: count a vote into an existing or a new tally; the flag says whether it counted. -/
def cast (s : Snapshot Address) (address : Address) (authorize : Bool) :
    Snapshot Address × Bool :=
  if !s.validVote address authorize then (s, false)
  else
    match s.tally address with
    | some old =>
      ({ s with
          tally := Function.update s.tally address (some { old with votes := old.votes + 1 }) },
        true)
    | none => ({ s with tally := Function.update s.tally address (some ⟨authorize, 1⟩) }, true)

/-- `uncast`: take a counted vote back out of the tally. -/
def uncast (s : Snapshot Address) (address : Address) (authorize : Bool) :
    Snapshot Address × Bool :=
  match s.tally address with
  | none => (s, false)
  | some tally =>
    if tally.authorize ≠ authorize then (s, false)
    else if tally.votes > 1 then
      ({ s with
          tally := Function.update s.tally address (some { tally with votes := tally.votes - 1 }) },
        true)
    else ({ s with tally := Function.update s.tally address none }, true)

/-- The two loops of `apply` that delete votes in place: walk `Votes` by index and, at a vote `p`
holds of, run `f` on it and delete it, staying at the same index (the source's `i--`). -/
def discardVotes (p : Vote Address → Bool)
    (f : Snapshot Address → Vote Address → Snapshot Address) (i : ℕ) (s : Snapshot Address) :
    Snapshot Address :=
  if h : i < s.votes.length then
    if p s.votes[i] then discardVotes p f i { f s s.votes[i] with votes := s.votes.eraseIdx i }
    else discardVotes p f (i + 1) s
  else s
termination_by s.votes.length - i
decreasing_by
  · simp only [List.length_eraseIdx_of_lt h]
    omega
  · omega

/-- `uncast` of a listed vote, the result flag dropped as the source drops it. -/
def uncastVote (s : Snapshot Address) (v : Vote Address) : Snapshot Address :=
  (s.uncast v.address v.authorize).1

/-- Discard the votes a deauthorized signer cast, uncasting each. -/
def discardSignerVotes (signer : Address) (s : Snapshot Address) : Snapshot Address :=
  discardVotes (fun v => decide (v.signer = signer)) uncastVote 0 s

/-- Discard the votes on an account whose membership just changed; its tally goes after. -/
def discardAddressVotes (address : Address) (s : Snapshot Address) : Snapshot Address :=
  discardVotes (fun v => decide (v.address = address)) (fun s _ => s) 0 s

/-- Discard the signer's earlier vote on the address, if any: the first one, as the `range` loop
breaks after it. -/
def discardPrevious (s : Snapshot Address) (signer address : Address) : Snapshot Address :=
  match s.votes.find? (fun v => decide (v.signer = signer) && decide (v.address = address)) with
  | some vote => { s.uncastVote vote with votes := s.votes.erase vote }
  | none => s

/-- Delete the oldest signer from the recents, so that it may sign again. -/
def forgetRecent (s : Snapshot Address) (number : ℕ) : Snapshot Address :=
  let limit := s.signers.card / 2 + 1
  if number ≥ limit then { s with recents := s.recents.filter (·.1 ≠ number - limit) } else s

/-- Remove the votes at a checkpoint block. -/
def checkpoint (snap : Snapshot Address) (number : ℕ) : Snapshot Address :=
  if number % snap.config.epoch = 0 then { snap with votes := [], tally := fun _ => none }
  else snap

/-- The vote a header's nonce carries. -/
def voteOf (nonce : UInt64) : Except ApplyError Bool :=
  if nonce = nonceAuthVote then pure true
  else if nonce = nonceDropVote then pure false
  else throw .invalidVote

/-- Tally up the signer's vote and list it if it counted. -/
def castVote (snap : Snapshot Address) (signer : Address) (number : ℕ) (address : Address)
    (authorize : Bool) : Snapshot Address :=
  let (snap, counted) := snap.cast address authorize
  if counted then { snap with votes := snap.votes ++ [⟨signer, number, address, authorize⟩] }
  else snap

/-- The part of `apply`'s loop body up to and including the count of the header's vote. -/
def countVote (ecrecover : Header Address → Option Address) (snap : Snapshot Address)
    (header : Header Address) : Except ApplyError (Snapshot Address) := do
  let number := header.number
  let snap := (snap.checkpoint number).forgetRecent number
  let some signer := ecrecover header | throw .ecrecover
  if signer ∉ snap.signers then throw .unauthorizedSigner
  if snap.recents.any (·.2 = signer) then throw .recentlySigned
  let snap := { snap with recents := (number, signer) :: snap.recents.filter (·.1 ≠ number) }
  let snap := snap.discardPrevious signer header.coinbase
  let authorize ← voteOf header.nonce
  pure (snap.castVote signer number header.coinbase authorize)

/-- The rest of the loop body: if the vote on the header's address passed, change the signers and
discard the votes on that address. -/
def passVote (snap : Snapshot Address) (coinbase : Address) (number : ℕ) : Snapshot Address :=
  -- a missing tally reads as Go's zero value
  let tally := (snap.tally coinbase).getD ⟨false, 0⟩
  if tally.votes > snap.signers.card / 2 then
    let snap :=
      if tally.authorize then { snap with signers := insert coinbase snap.signers }
      else
        discardSignerVotes coinbase
          ({ snap with signers := snap.signers.erase coinbase }.forgetRecent number)
    let snap := discardAddressVotes coinbase snap
    { snap with tally := Function.update snap.tally coinbase none }
  else snap

/-- One iteration of `apply`'s loop. -/
def applyHeader (ecrecover : Header Address → Option Address) (snap : Snapshot Address)
    (header : Header Address) : Except ApplyError (Snapshot Address) := do
  let snap ← snap.countVote ecrecover header
  pure (snap.passVote header.coinbase header.number)

/-- Consecutive headers have consecutive numbers. -/
def Contiguous : List (Header Address) → Bool
  | h₁ :: h₂ :: hs => h₂.number == h₁.number + 1 && Contiguous (h₂ :: hs)
  | _ => true

/-- `apply`: check that the headers continue the snapshot, then run them through it. -/
def apply (ecrecover : Header Address → Option Address) (s : Snapshot Address)
    (headers : List (Header Address)) : Except ApplyError (Snapshot Address) :=
  match headers with
  | [] => pure s
  | h :: hs =>
    if !Contiguous (h :: hs) then throw .invalidVotingChain
    else if h.number ≠ s.number + 1 then throw .invalidVotingChain
    else do
      let snap ← (h :: hs).foldlM (applyHeader ecrecover) s
      pure { snap with number := snap.number + (h :: hs).length }

/-! ### The votes and the tally agree -/

/-- `tally` counts `votes`: per address, the number of votes on it (Go's zero value where there
is no tally), a tally only where there are votes, and every vote on an address in its
direction. -/
structure Tallies (votes : List (Vote Address)) (tally : Address → Option Tally) : Prop where
  count : ∀ a, votes.countP (fun v => decide (v.address = a)) = ((tally a).map (·.votes)).getD 0
  pos : ∀ a t, tally a = some t → 0 < t.votes
  authorize : ∀ a t, tally a = some t → ∀ v ∈ votes, v.address = a → v.authorize = t.authorize

theorem tallies_nil : Tallies ([] : List (Vote Address)) (fun _ => none) where
  count _ := rfl
  pos _ _ h := by cases h
  authorize _ _ h := by cases h

namespace Tallies

variable {votes : List (Vote Address)} {tally : Address → Option Tally}

theorem perm (h : Tallies votes tally) {votes' : List (Vote Address)} (hp : votes.Perm votes') :
    Tallies votes' tally where
  count a := by rw [← hp.countP_eq]; exact h.count a
  pos := h.pos
  authorize a t ht v hv := h.authorize a t ht v (hp.mem_iff.mpr hv)

/-- An address without a tally has no votes. -/
theorem not_mem_of_none (h : Tallies votes tally) {a : Address} (ha : tally a = none) :
    ∀ v ∈ votes, v.address ≠ a := by
  have hzero := h.count a
  rw [ha, Option.map_none, Option.getD_none, List.countP_eq_zero] at hzero
  intro v hv hva
  exact hzero v hv (decide_eq_true hva)

/-- An address with a vote has a tally, in the vote's direction. -/
theorem exists_of_mem (h : Tallies votes tally) {v : Vote Address} (hv : v ∈ votes) :
    ∃ t, tally v.address = some t ∧ t.authorize = v.authorize := by
  cases ht : tally v.address with
  | none => exact absurd rfl (h.not_mem_of_none ht v hv)
  | some t => exact ⟨t, rfl, (h.authorize _ t ht v hv rfl).symm⟩

/-- Removing the votes on `a` and its tally keeps the two records in step. -/
theorem filter_address (h : Tallies votes tally) (a : Address) :
    Tallies (votes.filter fun v => !decide (v.address = a)) (Function.update tally a none) where
  count b := by
    rw [List.countP_filter]
    by_cases hb : b = a
    · subst hb
      rw [Function.update_self, Option.map_none, Option.getD_none, List.countP_eq_zero]
      intro v _ hv
      simp only [Bool.and_eq_true, Bool.not_eq_true', decide_eq_false_iff_not,
        decide_eq_true_eq] at hv
      exact hv.2 hv.1
    · rw [Function.update_of_ne hb, ← h.count b]
      refine List.countP_congr fun v _ => ?_
      by_cases hv : v.address = b
      · simp [hv, hb]
      · simp [hv]
  pos b t ht := by
    by_cases hb : b = a
    · subst hb
      rw [Function.update_self] at ht
      cases ht
    · rw [Function.update_of_ne hb] at ht
      exact h.pos b t ht
  authorize b t ht v hv hvb := by
    by_cases hb : b = a
    · subst hb
      rw [Function.update_self] at ht
      cases ht
    · rw [Function.update_of_ne hb] at ht
      exact h.authorize b t ht v (List.mem_of_mem_filter hv) hvb

end Tallies

/-! ### `cast` and `uncast` -/

theorem cast_of_not_valid {s : Snapshot Address} {a : Address} {b : Bool}
    (hv : s.validVote a b = false) : s.cast a b = (s, false) := by
  simp [cast, hv]

/-- A valid vote raises the address's tally by one, or opens it at one. -/
theorem cast_of_valid {s : Snapshot Address} {a : Address} {b : Bool}
    (hv : s.validVote a b = true) :
    s.cast a b = ({ s with
      tally := Function.update s.tally a
        (some (((s.tally a).map fun old => { old with votes := old.votes + 1 }).getD ⟨b, 1⟩)) },
      true) := by
  simp only [cast, hv, Bool.not_true, Bool.false_eq_true, if_false]
  cases s.tally a <;> rfl

/-- `uncast` of a vote counted in a tally: one vote less, and no tally once none is left. -/
theorem uncast_of_some {s : Snapshot Address} {a : Address} {t : Tally} (ht : s.tally a = some t)
    {b : Bool} (hb : t.authorize = b) :
    s.uncastVote ⟨x, n, a, b⟩ = { s with
      tally := Function.update s.tally a
        (if t.votes > 1 then some { t with votes := t.votes - 1 } else none) } := by
  simp only [uncastVote, uncast, ht, hb, ne_eq, not_true_eq_false, if_false]
  split_ifs <;> rfl

/-- `uncast` changes only the tally, and not as a function of the votes. -/
theorem uncastVote_eq (s : Snapshot Address) (v : Vote Address) :
    s.uncastVote v = { s with tally := (s.uncastVote v).tally } := by
  simp only [uncastVote, uncast]
  split
  · rfl
  · split_ifs <;> rfl

theorem uncastVote_with_votes (s : Snapshot Address) (v : Vote Address) (l : List (Vote Address)) :
    uncastVote { s with votes := l } v = { s.uncastVote v with votes := l } := by
  simp only [uncastVote, uncast]
  split
  · rfl
  · split_ifs <;> rfl

/-- A tally left by `uncast` was there before, in the same direction. -/
theorem uncastVote_tally_some {s : Snapshot Address} {v : Vote Address} {a : Address} {t : Tally}
    (ht : (s.uncastVote v).tally a = some t) :
    ∃ t', s.tally a = some t' ∧ t'.authorize = t.authorize := by
  simp only [uncastVote, uncast] at ht
  split at ht
  · exact ⟨t, ht, rfl⟩
  · rename_i t₀ ht₀
    split_ifs at ht with h1 h2 <;> dsimp only at ht
    · exact ⟨t, ht, rfl⟩
    · -- one vote less on `v.address`
      by_cases ha : a = v.address
      · rw [ha, Function.update_self, Option.some.injEq] at ht
        rw [ha]
        exact ⟨t₀, ht₀, by rw [← ht]⟩
      · rw [Function.update_of_ne ha] at ht
        exact ⟨t, ht, rfl⟩
    · -- the last vote on `v.address` is gone
      by_cases ha : a = v.address
      · rw [ha, Function.update_self] at ht
        cases ht
      · rw [Function.update_of_ne ha] at ht
        exact ⟨t, ht, rfl⟩

theorem foldl_uncastVote_eq (l : List (Vote Address)) (s : Snapshot Address) :
    l.foldl uncastVote s = { s with tally := (l.foldl uncastVote s).tally } := by
  induction l generalizing s with
  | nil => rfl
  | cons v l ih =>
    rw [List.foldl_cons, ih, uncastVote_eq s v]

theorem foldl_uncastVote_tally_some (l : List (Vote Address)) {s : Snapshot Address} {a : Address}
    {t : Tally} (ht : (l.foldl uncastVote s).tally a = some t) :
    ∃ t', s.tally a = some t' ∧ t'.authorize = t.authorize := by
  induction l generalizing s with
  | nil => exact ⟨t, ht, rfl⟩
  | cons v l ih =>
    obtain ⟨t₁, ht₁, hauth₁⟩ := ih ht
    obtain ⟨t₀, ht₀, hauth₀⟩ := uncastVote_tally_some ht₁
    exact ⟨t₀, ht₀, hauth₀.trans hauth₁⟩

namespace Tallies

variable {votes : List (Vote Address)}

/-- Uncasting a listed vote keeps the records in step once the vote is gone. -/
theorem uncast {s : Snapshot Address} {v : Vote Address} (h : Tallies (v :: votes) s.tally) :
    Tallies votes (s.uncastVote v).tally := by
  obtain ⟨t, ht, hauth⟩ := h.exists_of_mem (List.mem_cons_self ..)
  have hpos := h.pos _ t ht
  have hcount := h.count v.address
  rw [ht, List.countP_cons, if_pos (decide_eq_true rfl)] at hcount
  have hv : v = ⟨v.signer, v.block, v.address, v.authorize⟩ := rfl
  rw [hv, uncast_of_some ht hauth]
  dsimp only
  refine ⟨fun a => ?_, fun a t' ht' => ?_, fun a t' ht' w hw hwa => ?_⟩
  · by_cases ha : a = v.address
    · subst ha
      rw [Function.update_self]
      split_ifs with h1
      · simp only [Option.map_some, Option.getD_some] at hcount ⊢
        omega
      · simp only [Option.map_some, Option.getD_some, Option.map_none, Option.getD_none] at hcount ⊢
        omega
    · rw [Function.update_of_ne ha, ← h.count a, List.countP_cons,
        if_neg (by simpa using Ne.symm ha), Nat.add_zero]
  · by_cases ha : a = v.address
    · subst ha
      rw [Function.update_self] at ht'
      split_ifs at ht' with h1
      · cases ht'
        show 0 < t.votes - 1
        omega
    · rw [Function.update_of_ne ha] at ht'
      exact h.pos a t' ht'
  · by_cases ha : a = v.address
    · subst ha
      rw [Function.update_self] at ht'
      split_ifs at ht' with h1
      · cases ht'
        exact h.authorize _ t ht w (List.mem_cons_of_mem _ hw) hwa
    · rw [Function.update_of_ne ha] at ht'
      exact h.authorize a t' ht' w (List.mem_cons_of_mem _ hw) hwa

/-- Uncasting the votes of `l₂`, one after the other, leaves the tally of the rest. -/
theorem foldl_uncast {l₁ : List (Vote Address)} :
    ∀ (l₂ : List (Vote Address)) (s : Snapshot Address), Tallies (l₁ ++ l₂) s.tally →
      Tallies l₁ (l₂.foldl uncastVote s).tally
  | [], s, h => by simpa using h
  | v :: l₂, s, h => by
    have hperm : (l₁ ++ v :: l₂).Perm (v :: (l₁ ++ l₂)) := List.perm_middle
    exact foldl_uncast l₂ (s.uncastVote v) (h.perm hperm).uncast

/-- Counting a valid vote keeps the records in step once the vote is listed. -/
theorem cast {s : Snapshot Address} (h : Tallies votes s.tally) {a : Address} {b : Bool}
    (hauth : ∀ t, s.tally a = some t → t.authorize = b) (hv : s.validVote a b = true)
    (x : Address) (n : ℕ) :
    Tallies (votes ++ [⟨x, n, a, b⟩]) (s.cast a b).1.tally := by
  rw [cast_of_valid hv]
  dsimp only
  refine ⟨fun c => ?_, fun c t ht => ?_, fun c t ht w hw hwc => ?_⟩
  · rw [List.countP_append, h.count c]
    by_cases hc : c = a
    · subst hc
      rw [Function.update_self]
      cases hta : s.tally c <;> simp
    · rw [Function.update_of_ne hc]
      simp [Ne.symm hc]
  · by_cases hc : c = a
    · subst hc
      rw [Function.update_self, Option.some.injEq] at ht
      rw [← ht]
      cases s.tally c <;> simp
    · rw [Function.update_of_ne hc] at ht
      exact h.pos c t ht
  · by_cases hc : c = a
    · subst hc
      rw [Function.update_self, Option.some.injEq] at ht
      rw [← ht]
      rcases List.mem_append.mp hw with hw | hw
      · -- an earlier vote on `c`: its tally was there, in its direction
        obtain ⟨t₀, ht₀, hauth₀⟩ := h.exists_of_mem hw
        rw [hwc] at ht₀
        rw [ht₀, Option.map_some, Option.getD_some]
        exact hauth₀.symm
      · rw [List.mem_singleton.mp hw]
        cases hta : s.tally c with
        | none => rfl
        | some old => exact (hauth old hta).symm
    · rw [Function.update_of_ne hc] at ht
      rcases List.mem_append.mp hw with hw | hw
      · exact h.authorize c t ht w hw hwc
      · rw [List.mem_singleton.mp hw] at hwc
        exact absurd hwc.symm hc

end Tallies

/-! ### The in-place deletion loops -/

section Discard

variable (p : Vote Address → Bool) (f : Snapshot Address → Vote Address → Snapshot Address)

omit [DecidableEq Address] in
theorem foldl_with_votes (hf : ∀ s v l, f { s with votes := l } v = { f s v with votes := l })
    (l : List (Vote Address)) :
    ∀ (xs : List (Vote Address)) (s : Snapshot Address),
      xs.foldl f { s with votes := l } = { xs.foldl f s with votes := l }
  | [], _ => rfl
  | v :: xs, s => by
    rw [List.foldl_cons, hf, List.foldl_cons, foldl_with_votes hf l xs]

omit [DecidableEq Address] in
/-- From index `i` on, the loop keeps the votes `p` rejects, in order, and runs `f` on the others,
in order. -/
theorem discardVotes_eq (hf : ∀ s v l, f { s with votes := l } v = { f s v with votes := l })
    (i : ℕ) (s : Snapshot Address) :
    discardVotes p f i s =
      { ((s.votes.drop i).filter p).foldl f s with
        votes := s.votes.take i ++ (s.votes.drop i).filter fun v => !p v } := by
  fun_induction discardVotes p f i s with
  | case1 i s h hp ih =>
    -- the vote at `i` goes, and the next one moves to `i`
    have hdrop : s.votes.drop i = s.votes[i] :: s.votes.drop (i + 1) := List.drop_eq_getElem_cons h
    have herase : s.votes.eraseIdx i = s.votes.take i ++ s.votes.drop (i + 1) :=
      List.eraseIdx_eq_take_drop_succ _ _
    have htake : (s.votes.take i).length = i := List.length_take_of_le (Nat.le_of_lt h)
    rw [ih]
    dsimp only
    rw [herase, List.drop_left' htake, List.take_left' htake, hdrop, List.filter_cons_of_pos hp,
      List.filter_cons_of_neg (by simp [hp]), List.foldl_cons, foldl_with_votes f hf]
  | case2 i s h hp ih =>
    -- the vote at `i` stays
    have hdrop : s.votes.drop i = s.votes[i] :: s.votes.drop (i + 1) := List.drop_eq_getElem_cons h
    have htake : s.votes.take (i + 1) = s.votes.take i ++ [s.votes[i]] := by
      rw [List.take_add_one, List.getElem?_eq_getElem h, Option.toList_some]
    rw [ih, htake, hdrop]
    simp only [List.filter_cons, hp, Bool.false_eq_true, if_false, Bool.not_false, if_true,
      List.append_assoc, List.singleton_append]
  | case3 i s h =>
    have hle : s.votes.length ≤ i := Nat.le_of_not_lt h
    simp only [List.drop_of_length_le hle, List.filter_nil, List.foldl_nil,
      List.take_of_length_le hle, List.append_nil]

end Discard

theorem discardSignerVotes_eq (signer : Address) (s : Snapshot Address) :
    s.discardSignerVotes signer =
      { (s.votes.filter fun v => decide (v.signer = signer)).foldl uncastVote s with
        votes := s.votes.filter fun v => !decide (v.signer = signer) } := by
  rw [discardSignerVotes, discardVotes_eq _ _ uncastVote_with_votes]
  rfl

theorem discardAddressVotes_eq (address : Address) (s : Snapshot Address) :
    s.discardAddressVotes address =
      { s with votes := s.votes.filter fun v => !decide (v.address = address) } := by
  -- nothing is run on the discarded votes
  have hskip : ∀ l : List (Vote Address), l.foldl (fun s _ => s) s = s := by
    intro l
    induction l with
    | nil => rfl
    | cons v l ih => exact ih
  rw [discardAddressVotes, discardVotes_eq _ _ (fun _ _ _ => rfl)]
  simp only [List.drop_zero, List.take_zero, List.nil_append, hskip]

/-! ### Frames -/

omit [DecidableEq Address] in
theorem forgetRecent_eq (s : Snapshot Address) (number : ℕ) :
    ∃ r, s.forgetRecent number = { s with recents := r } := by
  unfold forgetRecent
  dsimp only
  split_ifs
  · exact ⟨_, rfl⟩
  · exact ⟨s.recents, rfl⟩

/-- `uncast` reads only the tally. -/
theorem uncastVote_tally_congr {s s' : Snapshot Address} (h : s.tally = s'.tally)
    (v : Vote Address) :
    (s.uncastVote v).tally = (s'.uncastVote v).tally := by
  simp only [uncastVote, uncast, h]
  split
  · exact h
  · split_ifs <;> simp only [h]

theorem foldl_uncastVote_tally_congr {s s' : Snapshot Address} (h : s.tally = s'.tally) :
    ∀ l : List (Vote Address), (l.foldl uncastVote s).tally = (l.foldl uncastVote s').tally
  | [] => h
  | v :: l => foldl_uncastVote_tally_congr (uncastVote_tally_congr h v) l

theorem validVote_iff {s : Snapshot Address} {a : Address} {b : Bool} :
    s.validVote a b = true ↔ b = decide (a ∉ s.signers) := by
  by_cases ha : a ∈ s.signers <;> cases b <;> simp [validVote, ha]

/-! ### The invariant -/

/-- What `apply` keeps of a snapshot: the votes and the tally agree, every tally proposes to flip
its address, every vote was cast by a current signer, and no signer has two votes on one
address. -/
structure Inv (s : Snapshot Address) : Prop where
  tallies : Tallies s.votes s.tally
  flips : ∀ a t, s.tally a = some t → t.authorize = decide (a ∉ s.signers)
  signed : ∀ v ∈ s.votes, v.signer ∈ s.signers
  pairs : (s.votes.map fun v => (v.signer, v.address)).Nodup

/-- More than half of the signers have a vote counted for flipping `a`: the voters are distinct
current signers, as many as the tally says, all voting in its direction, and that direction
flips `a`. -/
def VoteCarried (s : Snapshot Address) (a : Address) : Prop :=
  ∃ t, s.tally a = some t ∧ t.authorize = decide (a ∉ s.signers) ∧
    s.signers.card < 2 * t.votes ∧
    ((s.votes.filter fun v => decide (v.address = a)).map (·.signer)).Nodup ∧
    (s.votes.filter fun v => decide (v.address = a)).length = t.votes ∧
    ∀ v ∈ s.votes, v.address = a → v.signer ∈ s.signers ∧ v.authorize = t.authorize

/-- With no votes and no tally the invariant holds whatever the signers. -/
theorem inv_of_empty (s : Snapshot Address) (hv : s.votes = []) (ht : ∀ a, s.tally a = none) :
    s.Inv := by
  have htally : s.tally = fun _ => none := funext ht
  refine ⟨?_, fun a t h => ?_, fun v h => ?_, ?_⟩
  · rw [hv, htally]
    exact tallies_nil
  · rw [ht a] at h
    cases h
  · rw [hv] at h
    cases h
  · rw [hv]
    exact List.nodup_nil

theorem Inv.with_recents {s : Snapshot Address} (hs : s.Inv) (r : List (ℕ × Address)) :
    ({ s with recents := r } : Snapshot Address).Inv :=
  ⟨hs.tallies, hs.flips, hs.signed, hs.pairs⟩

/-- Dropping the signer's earlier vote on `address` keeps the invariant, and leaves no such
vote. -/
theorem Inv.discardPrevious {s : Snapshot Address} (hs : s.Inv) (signer address : Address) :
    (s.discardPrevious signer address).Inv ∧
      (∀ v ∈ (s.discardPrevious signer address).votes, ¬(v.signer = signer ∧ v.address = address)) ∧
      (s.discardPrevious signer address).signers = s.signers := by
  unfold Snapshot.discardPrevious
  split
  · rename_i vote hfind
    have hmem : vote ∈ s.votes := List.mem_of_find?_eq_some hfind
    have hmatch : vote.signer = signer ∧ vote.address = address := by
      simpa using List.find?_some hfind
    have hperm : s.votes.Perm (vote :: s.votes.erase vote) := List.perm_cons_erase hmem
    have hsigners : (s.uncastVote vote).signers = s.signers := by rw [uncastVote_eq]
    have hpairs : ((vote :: s.votes.erase vote).map fun v => (v.signer, v.address)).Nodup :=
      (hperm.map _).nodup_iff.mp hs.pairs
    refine ⟨⟨(hs.tallies.perm hperm).uncast, fun a t ht => ?_, fun v hv => ?_, ?_⟩, ?_, hsigners⟩
    · obtain ⟨t', ht', hauth⟩ := uncastVote_tally_some ht
      rw [← hauth, hs.flips a t' ht']
      simp only [hsigners]
    · simp only [hsigners]
      exact hs.signed v (List.mem_of_mem_erase hv)
    · exact (List.erase_sublist.map _).nodup hs.pairs
    · -- a second vote on the same pair would repeat the pair of the one removed
      intro v hv hv'
      rw [List.map_cons, List.nodup_cons] at hpairs
      apply hpairs.1
      rw [hmatch.1, hmatch.2, ← hv'.1, ← hv'.2]
      exact List.mem_map_of_mem hv
  · rename_i hfind
    refine ⟨hs, fun v hv hv' => ?_, rfl⟩
    have hno := List.find?_eq_none.mp hfind v hv
    simp [hv'.1, hv'.2] at hno

/-- Counting the signer's vote, when it has no vote on the address, keeps the invariant. -/
theorem Inv.castVote {s : Snapshot Address} (hs : s.Inv) {signer a : Address}
    (hsig : signer ∈ s.signers) (hfresh : ∀ v ∈ s.votes, ¬(v.signer = signer ∧ v.address = a))
    (n : ℕ) (b : Bool) :
    (s.castVote signer n a b).Inv ∧ (s.castVote signer n a b).signers = s.signers := by
  unfold Snapshot.castVote
  cases hv : s.validVote a b with
  | false =>
    rw [cast_of_not_valid hv]
    exact ⟨hs, rfl⟩
  | true =>
    have hb := validVote_iff.mp hv
    have hauth : ∀ t, s.tally a = some t → t.authorize = b := by
      intro t ht
      rw [hs.flips a t ht, hb]
    have htallies := hs.tallies.cast hauth hv signer n
    rw [cast_of_valid hv] at htallies ⊢
    dsimp only
    rw [if_pos rfl]
    refine ⟨⟨htallies, fun c t ht => ?_, fun v hw => ?_, ?_⟩, rfl⟩
    · dsimp only at ht ⊢
      by_cases hc : c = a
      · subst hc
        rw [Function.update_self, Option.some.injEq] at ht
        rw [← ht, ← hb]
        cases hta : s.tally c with
        | none => rfl
        | some old => exact hauth old hta
      · rw [Function.update_of_ne hc] at ht
        exact hs.flips c t ht
    · rcases List.mem_append.mp hw with hw | hw
      · exact hs.signed v hw
      · rw [List.mem_singleton.mp hw]
        exact hsig
    · dsimp only
      rw [List.map_append, List.nodup_append]
      refine ⟨hs.pairs, List.nodup_singleton _, ?_⟩
      intro p hp q hq hpq
      rw [List.map_singleton, List.mem_singleton] at hq
      obtain ⟨v, hv, rfl⟩ := List.mem_map.mp hp
      rw [hq, Prod.mk.injEq] at hpq
      exact hfresh v hv hpq

theorem Inv.checkpoint {s : Snapshot Address} (hs : s.Inv) (n : ℕ) :
    (s.checkpoint n).Inv ∧ (s.checkpoint n).signers = s.signers := by
  unfold Snapshot.checkpoint
  split_ifs
  · exact ⟨inv_of_empty _ rfl fun _ => rfl, rfl⟩
  · exact ⟨hs, rfl⟩

theorem Inv.countVote {ecrecover : Header Address → Option Address} {s s' : Snapshot Address}
    {header : Header Address} (hs : s.Inv) (h : s.countVote ecrecover header = .ok s') :
    s'.Inv ∧ s'.signers = s.signers := by
  unfold Snapshot.countVote at h
  dsimp only at h
  -- the checkpoint reset and the recents leave the invariant and the signers
  obtain ⟨hinv₀, hsig₀⟩ := hs.checkpoint header.number
  obtain ⟨r, hr⟩ := forgetRecent_eq (s.checkpoint header.number) header.number
  rw [hr] at h
  set s₁ : Snapshot Address := { s.checkpoint header.number with recents := r } with hs₁
  have hinv₁ : s₁.Inv := hinv₀.with_recents r
  cases hrec : ecrecover header with
  | none =>
    rw [hrec] at h
    exact absurd h Except.throw_ne_ok
  | some signer =>
    rw [hrec] at h
    dsimp only at h
    -- the two guards were passed
    have hsig : signer ∈ s₁.signers := by
      by_contra hn
      rw [if_pos hn, Except.throw_bind] at h
      exact Except.throw_ne_ok h
    rw [if_neg (not_not.mpr hsig)] at h
    have hrecent : ¬(s₁.recents.any fun x => decide (x.2 = signer)) = true := by
      intro hr'
      rw [if_pos hr', Except.throw_bind] at h
      exact Except.throw_ne_ok h
    rw [if_neg hrecent] at h
    obtain ⟨authorize, -, h⟩ := Except.bind_eq_ok.mp h
    rw [Except.pure_eq_ok] at h
    subst h
    -- drop the signer's earlier vote on the address, then count the new one
    set s₂ : Snapshot Address :=
      { s₁ with recents := (header.number, signer) :: s₁.recents.filter (·.1 ≠ header.number) }
    obtain ⟨hinv₃, hfresh, hsig₃⟩ := (hinv₁.with_recents _ : s₂.Inv).discardPrevious
      signer header.coinbase
    have hmem : signer ∈ (s₂.discardPrevious signer header.coinbase).signers := by
      rw [hsig₃]
      exact hsig
    obtain ⟨hinv₄, hsig₄⟩ := hinv₃.castVote hmem hfresh header.number authorize
    exact ⟨hinv₄, by rw [hsig₄, hsig₃]; exact hsig₀⟩

/-! ### Passing a vote -/

section Pass

variable {s : Snapshot Address} {c : Address} {n : ℕ}

theorem passVote_of_not_pass (hp : ¬((s.tally c).getD ⟨false, 0⟩).votes > s.signers.card / 2) :
    s.passVote c n = s := by
  unfold Snapshot.passVote
  dsimp only
  rw [if_neg hp]

/-- A passed vote to add `c`: it joins, and the votes on it and its tally go. -/
theorem passVote_of_authorize (hp : ((s.tally c).getD ⟨false, 0⟩).votes > s.signers.card / 2)
    (ha : ((s.tally c).getD ⟨false, 0⟩).authorize = true) :
    s.passVote c n = { s with
      signers := insert c s.signers
      votes := s.votes.filter fun v => !decide (v.address = c)
      tally := Function.update s.tally c none } := by
  unfold Snapshot.passVote
  dsimp only
  rw [if_pos hp, if_pos ha, discardAddressVotes_eq]

/-- A passed vote to drop `c`: it leaves, its own votes are uncast and go, and then the votes on
it and its tally go. -/
theorem passVote_of_drop (hp : ((s.tally c).getD ⟨false, 0⟩).votes > s.signers.card / 2)
    (ha : ((s.tally c).getD ⟨false, 0⟩).authorize = false) :
    ∃ r, s.passVote c n = { s with
      signers := s.signers.erase c
      recents := r
      votes := (s.votes.filter fun v => !decide (v.signer = c)).filter
        fun v => !decide (v.address = c)
      tally := Function.update
        ((s.votes.filter fun v => decide (v.signer = c)).foldl uncastVote s).tally c none } := by
  unfold Snapshot.passVote
  dsimp only
  rw [if_pos hp, if_neg (by rw [ha]; exact Bool.false_ne_true)]
  obtain ⟨r, hr⟩ := forgetRecent_eq ({ s with signers := s.signers.erase c }) n
  refine ⟨r, ?_⟩
  -- the uncasts read only the tally, which the signer and recents changes leave
  have htally := foldl_uncastVote_tally_congr
    (show ({ s with signers := s.signers.erase c, recents := r } : Snapshot Address).tally =
      s.tally from rfl) (s.votes.filter fun v => decide (v.signer = c))
  rw [hr, discardSignerVotes_eq, discardAddressVotes_eq, foldl_uncastVote_eq]
  dsimp only
  rw [htally]

/-- The votes on `c` pass only with more than half of the signers behind them. -/
theorem Inv.voteCarried (hs : s.Inv)
    (hp : ((s.tally c).getD ⟨false, 0⟩).votes > s.signers.card / 2) : s.VoteCarried c := by
  cases ht : s.tally c with
  | none =>
    rw [ht] at hp
    exact absurd hp (Nat.not_lt_zero _)
  | some t =>
    rw [ht] at hp
    have hcount := hs.tallies.count c
    rw [ht, List.countP_eq_length_filter] at hcount
    -- on the votes on `c` the pair is fixed by the signer
    have hvoters : ((s.votes.filter fun v => decide (v.address = c)).map
        fun v => (v.signer, v.address)) =
        ((s.votes.filter fun v => decide (v.address = c)).map (·.signer)).map (·, c) := by
      rw [List.map_map]
      refine List.map_congr_left fun v hv => ?_
      have hvc : v.address = c := by simpa using List.of_mem_filter hv
      rw [Function.comp_apply, hvc]
    have hnodup := ((List.filter_sublist (p := fun v : Vote Address => decide (v.address = c))
      (l := s.votes)).map fun v => (v.signer, v.address)).nodup hs.pairs
    rw [hvoters] at hnodup
    refine ⟨t, ht, hs.flips c t ht, by simp only [Option.getD_some] at hp; omega,
      hnodup.of_map _, hcount, fun v hv hvc => ⟨hs.signed v hv, ?_⟩⟩
    exact hs.tallies.authorize c t ht v hv hvc

theorem Inv.passVote (hs : s.Inv) : (s.passVote c n).Inv := by
  by_cases hp : ((s.tally c).getD ⟨false, 0⟩).votes > s.signers.card / 2
  · cases ha : ((s.tally c).getD ⟨false, 0⟩).authorize with
    | true =>
      rw [passVote_of_authorize hp ha]
      refine ⟨hs.tallies.filter_address c, fun a t ht => ?_, fun v hv => ?_, ?_⟩
      · dsimp only at ht ⊢
        by_cases hac : a = c
        · rw [hac, Function.update_self] at ht
          cases ht
        · rw [Function.update_of_ne hac] at ht
          rw [hs.flips a t ht]
          simp [Finset.mem_insert, hac]
      · exact Finset.mem_insert_of_mem (hs.signed v (List.mem_of_mem_filter hv))
      · exact ((List.filter_sublist).map _).nodup hs.pairs
    | false =>
      obtain ⟨r, hr⟩ := passVote_of_drop (n := n) hp ha
      rw [hr]
      -- the signer's own votes are uncast from the tally of all votes
      have hperm : s.votes.Perm ((s.votes.filter fun v => !decide (v.signer = c)) ++
          s.votes.filter fun v => decide (v.signer = c)) :=
        (List.filter_append_perm _ s.votes).symm.trans List.perm_append_comm
      have hrest := Tallies.foldl_uncast _ s (hs.tallies.perm hperm)
      refine ⟨hrest.filter_address c, fun a t ht => ?_, fun v hv => ?_, ?_⟩
      · dsimp only at ht ⊢
        by_cases hac : a = c
        · rw [hac, Function.update_self] at ht
          cases ht
        · rw [Function.update_of_ne hac] at ht
          obtain ⟨t', ht', hauth⟩ := foldl_uncastVote_tally_some _ ht
          rw [← hauth, hs.flips a t' ht']
          simp [Finset.mem_erase, hac]
      · have hv₁ := List.mem_of_mem_filter hv
        have hsc : v.signer ≠ c := by simpa using List.of_mem_filter hv₁
        exact Finset.mem_erase.mpr ⟨hsc, hs.signed v (List.mem_of_mem_filter hv₁)⟩
      · exact ((List.filter_sublist.trans List.filter_sublist).map _).nodup hs.pairs
  · rw [passVote_of_not_pass hp]
    exact hs

/-- The signers change only at `c`, and only when the votes on it carried. -/
theorem Inv.passVote_signers (hs : s.Inv) (a : Address) :
    (a ∈ (s.passVote c n).signers ↔ a ∈ s.signers) ∨ (a = c ∧ s.VoteCarried a) := by
  by_cases hp : ((s.tally c).getD ⟨false, 0⟩).votes > s.signers.card / 2
  · by_cases hac : a = c
    · subst hac
      exact Or.inr ⟨rfl, hs.voteCarried hp⟩
    · left
      cases ha : ((s.tally c).getD ⟨false, 0⟩).authorize with
      | true =>
        rw [passVote_of_authorize hp ha]
        simp [Finset.mem_insert, hac]
      | false =>
        obtain ⟨r, hr⟩ := passVote_of_drop (n := n) hp ha
        rw [hr]
        simp [Finset.mem_erase, hac]
  · rw [passVote_of_not_pass hp]
    exact Or.inl Iff.rfl

end Pass

/-! ### Runs of headers -/

theorem applyHeader_eq_ok {ecrecover : Header Address → Option Address}
    {s s' : Snapshot Address} {header : Header Address} :
    s.applyHeader ecrecover header = .ok s' ↔
      ∃ s₁, s.countVote ecrecover header = .ok s₁ ∧
        s₁.passVote header.coinbase header.number = s' := by
  unfold Snapshot.applyHeader
  rw [Except.bind_eq_ok]
  simp only [Except.pure_eq_ok]

theorem Inv.applyHeader {ecrecover : Header Address → Option Address} {s s' : Snapshot Address}
    {header : Header Address} (hs : s.Inv) (h : s.applyHeader ecrecover header = .ok s') :
    s'.Inv := by
  obtain ⟨s₁, h₁, rfl⟩ := applyHeader_eq_ok.mp h
  exact (hs.countVote h₁).1.passVote

theorem Inv.foldlM {ecrecover : Header Address → Option Address} {s s' : Snapshot Address}
    {headers : List (Header Address)} (hs : s.Inv)
    (h : headers.foldlM (Snapshot.applyHeader ecrecover) s = .ok s') : s'.Inv :=
  Except.foldlM_invariant Inv (fun _ _ _ hb hstep => hb.applyHeader hstep) hs h

/-- What `apply` returns is the run of its headers, with the number moved past them. -/
theorem apply_eq_ok {ecrecover : Header Address → Option Address} {s s' : Snapshot Address}
    {headers : List (Header Address)} (h : s.apply ecrecover headers = .ok s') :
    ∃ snap, headers.foldlM (applyHeader ecrecover) s = .ok snap ∧
      s' = { snap with number := snap.number + headers.length } := by
  cases headers with
  | nil =>
    rw [apply, Except.pure_eq_ok] at h
    exact ⟨s, rfl, by rw [← h]; rfl⟩
  | cons hd hs =>
    unfold Snapshot.apply at h
    dsimp only at h
    -- both chain checks were passed
    by_cases h₁ : (!Contiguous (hd :: hs)) = true
    · rw [if_pos h₁] at h
      exact absurd h Except.throw_ne_ok
    rw [if_neg h₁] at h
    by_cases h₂ : hd.number ≠ s.number + 1
    · rw [if_pos h₂] at h
      exact absurd h Except.throw_ne_ok
    rw [if_neg h₂] at h
    obtain ⟨snap, hsnap, h⟩ := Except.bind_eq_ok.mp h
    rw [Except.pure_eq_ok] at h
    exact ⟨snap, hsnap, h.symm⟩

theorem Inv.apply {ecrecover : Header Address → Option Address} {s s' : Snapshot Address}
    {headers : List (Header Address)} (hs : s.Inv)
    (h : Snapshot.apply ecrecover s headers = .ok s') :
    s'.Inv := by
  obtain ⟨snap, hsnap, rfl⟩ := apply_eq_ok h
  have hinv := hs.foldlM hsnap
  exact ⟨hinv.tallies, hinv.flips, hinv.signed, hinv.pairs⟩

/-- Every header of a successful `apply` is one successful step from the run before it. -/
theorem apply_step {ecrecover : Header Address → Option Address} {s s' : Snapshot Address}
    {headers : List (Header Address)} (h : s.apply ecrecover headers = .ok s')
    {pre post : List (Header Address)} {header : Header Address}
    (hsplit : headers = pre ++ header :: post) :
    ∃ sₖ sₖ', pre.foldlM (applyHeader ecrecover) s = .ok sₖ ∧
      sₖ.countVote ecrecover header = .ok sₖ' := by
  obtain ⟨snap, hsnap, -⟩ := apply_eq_ok h
  rw [hsplit] at hsnap
  obtain ⟨sₖ, hpre, hrest⟩ := Except.foldlM_append_eq_ok.mp hsnap
  rw [List.foldlM_cons] at hrest
  obtain ⟨sₖ₁, hstep, -⟩ := Except.bind_eq_ok.mp hrest
  obtain ⟨sₖ', hcount, -⟩ := applyHeader_eq_ok.mp hstep
  exact ⟨sₖ, sₖ', hpre, hcount⟩

/-! ### The tally over a run of headers -/

/-- From a snapshot with no votes and no tally, `apply` leaves the votes and the tally in step,
every vote cast by a current signer and at most one vote per signer and address; and at every
header the signers change only at the header's address, after more than half of the signers have
a vote counted for that change. -/
theorem apply_tally_consistent (ecrecover : Header Address → Option Address)
    (s : Snapshot Address) (hv : s.votes = []) (ht : ∀ a, s.tally a = none)
    (headers : List (Header Address)) (s' : Snapshot Address)
    (h : Snapshot.apply ecrecover s headers = .ok s') :
    Tallies s'.votes s'.tally ∧ (∀ v ∈ s'.votes, v.signer ∈ s'.signers) ∧
      (s'.votes.map fun v => (v.signer, v.address)).Nodup ∧
      ∀ pre header post, headers = pre ++ header :: post →
        ∃ sₖ sₖ', pre.foldlM (Snapshot.applyHeader ecrecover) s = .ok sₖ ∧
          sₖ.countVote ecrecover header = .ok sₖ' ∧ sₖ'.signers = sₖ.signers ∧
          ∀ a, (a ∈ (sₖ'.passVote header.coinbase header.number).signers ↔ a ∈ sₖ.signers) ∨
            (a = header.coinbase ∧ sₖ'.VoteCarried a) := by
  have hs := inv_of_empty s hv ht
  have hs' := hs.apply h
  refine ⟨hs'.tallies, hs'.signed, hs'.pairs, fun pre header post hsplit => ?_⟩
  obtain ⟨sₖ, sₖ', hpre, hcount⟩ := apply_step h hsplit
  obtain ⟨hinv', hsig'⟩ := (hs.foldlM hpre).countVote hcount
  refine ⟨sₖ, sₖ', hpre, hcount, hsig', fun a => ?_⟩
  rcases hinv'.passVote_signers a with hsame | hcarried
  · exact Or.inl (by rw [hsame, hsig'])
  · exact Or.inr hcarried

/-- Signers 1 and 2 vote 3 in, which passes at the second vote, and then 1 votes to drop 2. -/
theorem apply_tally_consistent_votes :
    let s : Snapshot ℕ := newSnapshot ⟨30000, by decide⟩ 0 [1, 2]
    let headers : List (Header ℕ) :=
      [⟨1, 3, nonceAuthVote, []⟩, ⟨2, 3, nonceAuthVote, []⟩, ⟨3, 2, nonceDropVote, []⟩]
    let ecrecover : Header ℕ → Option ℕ := fun h => some (if h.number = 2 then 2 else 1)
    ∃ s', Snapshot.apply ecrecover s headers = .ok s' ∧ s'.votes = [⟨1, 3, 2, false⟩] ∧
      s'.signers = {1, 2, 3} ∧
      Tallies s'.votes s'.tally ∧ (∀ v ∈ s'.votes, v.signer ∈ s'.signers) ∧
      (s'.votes.map fun v => (v.signer, v.address)).Nodup ∧
      ∀ pre header post, headers = pre ++ header :: post →
        ∃ sₖ sₖ', pre.foldlM (Snapshot.applyHeader ecrecover) s = .ok sₖ ∧
          sₖ.countVote ecrecover header = .ok sₖ' ∧ sₖ'.signers = sₖ.signers ∧
          ∀ a, (a ∈ (sₖ'.passVote header.coinbase header.number).signers ↔ a ∈ sₖ.signers) ∨
            (a = header.coinbase ∧ sₖ'.VoteCarried a) := by
  intro s headers ecrecover
  -- the run, evaluated: the votes and the signers it ends with
  have hrun : (Snapshot.apply ecrecover s headers).toOption.map (fun s' => (s'.votes, s'.signers)) =
      some ([⟨1, 3, 2, false⟩], {1, 2, 3}) := by
    decide +kernel
  obtain ⟨s', happly, hvs⟩ : ∃ s', Snapshot.apply ecrecover s headers = .ok s' ∧
      (s'.votes, s'.signers) = ([⟨1, 3, 2, false⟩], {1, 2, 3}) := by
    cases h : Snapshot.apply ecrecover s headers with
    | error e => rw [h] at hrun; cases hrun
    | ok s' => rw [h] at hrun; exact ⟨s', rfl, Option.some.inj hrun⟩
  obtain ⟨hvotes, hsigners⟩ := Prod.mk.inj hvs
  exact ⟨s', happly, hvotes, hsigners,
    apply_tally_consistent ecrecover s rfl (fun _ => rfl) headers s' happly⟩

end Snapshot

end Classzz.Clique
