import Mathlib

/-!
# Client-side flow control: the parameter schedule

`ClientNode` (les/flowcontrol/control.go) keeps a client's buffer value and its flow control
parameters. A raise of `MinRecharge` is applied at once; a lowering is put on `updateSchedule`
and applied `DecParamDelay` later, by `update`, so that requests the client sent before it heard
of the lowering are not punished.

The schedule is a chain of lowerings (`Lowering`): each entry's `MinRecharge` is below the one
before it and below the node's own. Every call keeps the chain (`Lowering.UpdateParams`,
`Lowering.update`), and so does every run of calls from a new node (`lowering_run_newClientNode`).

When a lowering meets an entry that is already at or below it, the source writes the new
parameters into `s`, the copy that `range` hands the loop body, and truncates the schedule after
that entry: the entry keeps its old parameters, and the requested ones are never applied
(`UpdateParams_merge`).
-/

namespace Classzz.Flowcontrol

/-- `fcTimeConst = time.Millisecond`, in nanoseconds. -/
def fcTimeConst : UInt64 := 1000000

/-- `DecParamDelay = 2 * time.Second`, in nanoseconds. -/
def decParamDelay : Int64 := 2000000000

/-- The flow control parameters a server gives a client. -/
structure ServerParams where
  bufLimit : UInt64
  minRecharge : UInt64
  deriving DecidableEq, Repr

/-- A delayed parameter update; `time` is an `mclock.AbsTime`. -/
structure ScheduledUpdate where
  time : Int64
  params : ServerParams
  deriving DecidableEq, Repr

/-- The fields of `ClientNode` that its own methods read and write. -/
structure ClientNode where
  params : ServerParams
  bufValue : Int64
  lastTime : Int64
  updateSchedule : List ScheduledUpdate
  deriving DecidableEq, Repr

/-- `NewClientNode`, with `now` the manager's clock reading. -/
def newClientNode (params : ServerParams) (now : Int64) : ClientNode :=
  { params, bufValue := params.bufLimit.toInt64, lastTime := now, updateSchedule := [] }

namespace ClientNode

/-- `recalcBV`: recharge the buffer linearly since `lastTime`, capped at `BufLimit`. The
products and conversions wrap as the source's `uint64` and `int64` ones do. -/
def recalcBV (node : ClientNode) (now : Int64) : ClientNode :=
  let dt : UInt64 := if now < node.lastTime then 0 else (now - node.lastTime).toUInt64
  let bufValue := node.bufValue + (node.params.minRecharge * dt / fcTimeConst).toInt64
  { node with
    bufValue := if bufValue > node.params.bufLimit.toInt64 then node.params.bufLimit.toInt64
      else bufValue
    lastTime := now }

/-- `updateParams`: move the buffer value by the change of `BufLimit`, then store the new
parameters, which the manager's `updateNodeRc` does with `node.params = *params`. The clock
reading the source passes on is only used by the manager's own accounting. -/
def updateParams (node : ClientNode) (params : ServerParams) : ClientNode :=
  let diff := (params.bufLimit - node.params.bufLimit).toInt64
  { node with
    bufValue := if diff > 0 then node.bufValue + diff
      else if node.bufValue > params.bufLimit.toInt64 then params.bufLimit.toInt64
      else node.bufValue
    params }

/-- The loop of `update`, with the schedule still to go as its argument: while the first entry is
due, recharge up to its time and apply it. What is left is written back to `updateSchedule`. -/
def applyDue (now : Int64) (node : ClientNode) : List ScheduledUpdate → ClientNode
  | [] => { node with updateSchedule := [] }
  | s :: rest =>
    if s.time ≤ now then applyDue now ((node.recalcBV s.time).updateParams s.params) rest
    else { node with updateSchedule := s :: rest }

/-- `update`: apply the scheduled updates that are due, then recharge up to `now`. -/
def update (node : ClientNode) (now : Int64) : ClientNode :=
  (applyDue now node node.updateSchedule).recalcBV now

/-- `UpdateParams` at clock reading `now`. -/
def UpdateParams (node : ClientNode) (params : ServerParams) (now : Int64) : ClientNode :=
  let node := node.update now
  if params.minRecharge ≥ node.params.minRecharge then
    { node with updateSchedule := [] }.updateParams params
  else
    -- `for i, s := range node.updateSchedule`: the loop assigns `s.params = params` to its copy
    -- of the entry, so only the truncation reaches the node.
    match node.updateSchedule.findIdx? (fun s => params.minRecharge ≥ s.params.minRecharge) with
    | some i => { node with updateSchedule := node.updateSchedule.take (i + 1) }
    | none =>
      { node with updateSchedule := node.updateSchedule ++ [⟨now + decParamDelay, params⟩] }

/-! ### What each step does to the parameters and the schedule -/

@[simp] theorem params_recalcBV (node : ClientNode) (now : Int64) :
    (node.recalcBV now).params = node.params := rfl

@[simp] theorem params_updateParams (node : ClientNode) (params : ServerParams) :
    (node.updateParams params).params = params := rfl

/-- The loop stops at the first entry that is not due. -/
theorem updateSchedule_applyDue (now : Int64) (node : ClientNode) (l : List ScheduledUpdate) :
    (applyDue now node l).updateSchedule = l.dropWhile (fun s => decide (s.time ≤ now)) := by
  induction l generalizing node with
  | nil => rfl
  | cons s rest ih =>
    by_cases hs : s.time ≤ now
    · rw [applyDue, if_pos hs, ih,
        List.dropWhile_cons_of_pos
          (p := fun s : ScheduledUpdate => decide (s.time ≤ now)) (decide_eq_true hs)]
    · rw [applyDue, if_neg hs,
        List.dropWhile_cons_of_neg
          (p := fun s : ScheduledUpdate => decide (s.time ≤ now)) (by simpa using hs)]

/-- After the loop the node has the parameters of the last entry that was due. -/
theorem params_applyDue (now : Int64) (node : ClientNode) (l : List ScheduledUpdate) :
    (applyDue now node l).params =
      ((l.takeWhile (fun s => decide (s.time ≤ now))).getLast?.map (·.params)).getD
        node.params := by
  induction l generalizing node with
  | nil => rfl
  | cons s rest ih =>
    by_cases hs : s.time ≤ now
    · rw [applyDue, if_pos hs, ih,
        List.takeWhile_cons_of_pos
          (p := fun s : ScheduledUpdate => decide (s.time ≤ now)) (decide_eq_true hs)]
      cases h : (rest.takeWhile fun s => decide (s.time ≤ now)).getLast? with
      | none => simp [List.getLast?_eq_none_iff.mp h]
      | some s' => simp [List.getLast?_cons, h]
    · rw [applyDue, if_neg hs,
        List.takeWhile_cons_of_neg
          (p := fun s : ScheduledUpdate => decide (s.time ≤ now)) (by simpa using hs)]
      rfl

theorem updateSchedule_update (node : ClientNode) (now : Int64) :
    (node.update now).updateSchedule =
      node.updateSchedule.dropWhile (fun s => decide (s.time ≤ now)) :=
  updateSchedule_applyDue now node node.updateSchedule

theorem params_update (node : ClientNode) (now : Int64) :
    (node.update now).params =
      ((node.updateSchedule.takeWhile (fun s => decide (s.time ≤ now))).getLast?.map
        (·.params)).getD node.params :=
  params_applyDue now node node.updateSchedule

/-- With nothing scheduled, `update` only recharges. -/
theorem update_of_nil {node : ClientNode} (h : node.updateSchedule = []) (now : Int64) :
    (node.update now).params = node.params ∧ (node.update now).updateSchedule = [] := by
  rw [params_update, updateSchedule_update, h]
  exact ⟨rfl, rfl⟩

/-- Nothing is due before the first entry's time. -/
theorem update_of_lt_head {node : ClientNode} {s : ScheduledUpdate} {rest : List ScheduledUpdate}
    (h : node.updateSchedule = s :: rest) {now : Int64} (hs : now < s.time) :
    (node.update now).params = node.params ∧ (node.update now).updateSchedule = s :: rest := by
  have hn : decide (s.time ≤ now) = false := by simpa using hs
  rw [params_update, updateSchedule_update, h,
    List.takeWhile_cons_of_neg (p := fun s : ScheduledUpdate => decide (s.time ≤ now))
      (by simp [hn]),
    List.dropWhile_cons_of_neg (p := fun s : ScheduledUpdate => decide (s.time ≤ now))
      (by simp [hn])]
  exact ⟨rfl, rfl⟩

/-- Once every entry is due, the last one's parameters are in force and nothing is left. -/
theorem update_of_forall_le {node : ClientNode} {now : Int64}
    (h : ∀ s ∈ node.updateSchedule, s.time ≤ now) :
    (node.update now).params = (node.updateSchedule.getLast?.map (·.params)).getD node.params ∧
      (node.update now).updateSchedule = [] := by
  have hdue : ∀ s ∈ node.updateSchedule, decide (s.time ≤ now) = true := by simpa using h
  rw [params_update, updateSchedule_update, List.takeWhile_eq_self_iff.mpr hdue,
    List.dropWhile_eq_nil_iff.mpr hdue]
  exact ⟨rfl, rfl⟩

/-- A raise of `MinRecharge` over the parameters in force is applied at once and clears the
schedule. -/
theorem UpdateParams_of_le {node : ClientNode} {params : ServerParams} {now : Int64}
    (h : (node.update now).params.minRecharge ≤ params.minRecharge) :
    (node.UpdateParams params now).params = params ∧
      (node.UpdateParams params now).updateSchedule = [] := by
  simp only [UpdateParams, if_pos h]
  exact ⟨rfl, rfl⟩

/-- A lowering below every scheduled one is put at the end of the schedule, due
`DecParamDelay` after the call. -/
theorem UpdateParams_of_lt_all {node : ClientNode} {params : ServerParams} {now : Int64}
    (h : params.minRecharge < (node.update now).params.minRecharge)
    (hall : ∀ s ∈ (node.update now).updateSchedule, params.minRecharge < s.params.minRecharge) :
    (node.UpdateParams params now).params = (node.update now).params ∧
      (node.UpdateParams params now).updateSchedule =
        (node.update now).updateSchedule ++ [⟨now + decParamDelay, params⟩] := by
  have hnone : (node.update now).updateSchedule.findIdx?
      (fun s => params.minRecharge ≥ s.params.minRecharge) = none := by
    rw [List.findIdx?_eq_none_iff]
    intro s hs
    simpa using hall s hs
  refine ⟨?_, ?_⟩ <;> simp only [UpdateParams, if_neg (UInt64.not_le.mpr h), hnone]

/-- A lowering that meets an entry at or below it keeps the parameters in force and cuts the
schedule after that entry, whose parameters stay what they were: the requested parameters
appear nowhere in the node. -/
theorem UpdateParams_merge {node : ClientNode} {params : ServerParams} {now : Int64} {i : ℕ}
    (h : params.minRecharge < (node.update now).params.minRecharge)
    (hi : (node.update now).updateSchedule.findIdx?
      (fun s => params.minRecharge ≥ s.params.minRecharge) = some i) :
    (node.UpdateParams params now).params = (node.update now).params ∧
      (node.UpdateParams params now).updateSchedule =
        (node.update now).updateSchedule.take (i + 1) := by
  refine ⟨?_, ?_⟩ <;> simp only [UpdateParams, if_neg (UInt64.not_le.mpr h), hi]

/-! ### The schedule is a chain of lowerings -/

/-- The `MinRecharge` in force, then those of the scheduled updates in order. -/
def minRecharges (node : ClientNode) : List UInt64 :=
  node.params.minRecharge :: node.updateSchedule.map (·.params.minRecharge)

/-- Every scheduled update lowers `MinRecharge` below the one before it. -/
def Lowering (node : ClientNode) : Prop :=
  node.minRecharges.Pairwise (· > ·)

theorem lowering_newClientNode (params : ServerParams) (now : Int64) :
    (newClientNode params now).Lowering := by
  simp [Lowering, minRecharges, newClientNode]

/-- The loop keeps the chain: each applied entry's successors are below it. -/
theorem lowering_applyDue (now : Int64) (node : ClientNode) (l : List ScheduledUpdate)
    (h : (node.params.minRecharge :: l.map (·.params.minRecharge)).Pairwise (· > ·)) :
    (applyDue now node l).Lowering := by
  induction l generalizing node with
  | nil => simp [Lowering, minRecharges, applyDue]
  | cons s rest ih =>
    by_cases hs : s.time ≤ now
    · rw [applyDue, if_pos hs]
      exact ih _ (List.Pairwise.of_cons h)
    · rw [applyDue, if_neg hs]
      exact h

theorem Lowering.update {node : ClientNode} (h : node.Lowering) (now : Int64) :
    (node.update now).Lowering := by
  have hloop := lowering_applyDue now node node.updateSchedule h
  -- recharging touches neither the parameters nor the schedule
  exact hloop

theorem Lowering.UpdateParams {node : ClientNode} (h : node.Lowering) (params : ServerParams)
    (now : Int64) : (node.UpdateParams params now).Lowering := by
  have hu := h.update now
  by_cases hle : (node.update now).params.minRecharge ≤ params.minRecharge
  · -- a raise: nothing is left scheduled
    obtain ⟨-, hnil⟩ := UpdateParams_of_le hle
    simp [Lowering, minRecharges, hnil]
  have hlt := UInt64.not_le.mp hle
  cases hi : (node.update now).updateSchedule.findIdx?
      (fun s => params.minRecharge ≥ s.params.minRecharge) with
  | some i =>
    -- the merge keeps a prefix of the chain
    obtain ⟨hp, hs⟩ := UpdateParams_merge hlt hi
    have hsub : (node.UpdateParams params now).minRecharges.Sublist
        (node.update now).minRecharges := by
      rw [minRecharges, minRecharges, hp, hs, List.map_take]
      exact (List.take_sublist _ _).cons_cons _
    exact hu.sublist hsub
  | none =>
    -- the new lowering is below everything in the chain
    have hall : ∀ s ∈ (node.update now).updateSchedule,
        params.minRecharge < s.params.minRecharge := by
      intro s hs
      simpa using List.findIdx?_eq_none_iff.mp hi s hs
    obtain ⟨hp, hs⟩ := UpdateParams_of_lt_all hlt hall
    have hchain : (node.UpdateParams params now).minRecharges =
        (node.update now).minRecharges ++ [params.minRecharge] := by
      rw [minRecharges, minRecharges, hp, hs, List.map_append, List.map_singleton,
        List.cons_append]
    rw [Lowering, hchain, List.pairwise_append]
    refine ⟨hu, List.pairwise_singleton _ _, ?_⟩
    intro a ha b hb
    rw [List.mem_singleton.mp hb]
    rcases List.mem_cons.mp ha with rfl | ha
    · exact hlt
    · obtain ⟨s, hs, rfl⟩ := List.mem_map.mp ha
      exact hall s hs

/-! ### Runs -/

/-- The calls that move a node's schedule: `UpdateParams`, and any call that brings the node up
to date (`BufferStatus`, `OneTimeCost`, `AcceptRequest`, `RequestProcessed` all start with
`update`). -/
inductive Ev where
  | updateParams (params : ServerParams) (now : Int64)
  | update (now : Int64)
  deriving DecidableEq, Repr

def step (node : ClientNode) : Ev → ClientNode
  | .updateParams params now => node.UpdateParams params now
  | .update now => node.update now

def run (node : ClientNode) (evs : List Ev) : ClientNode :=
  evs.foldl step node

theorem Lowering.step {node : ClientNode} (h : node.Lowering) (ev : Ev) :
    (node.step ev).Lowering := by
  cases ev with
  | updateParams params now => exact h.UpdateParams params now
  | update now => exact h.update now

theorem Lowering.run {node : ClientNode} (h : node.Lowering) (evs : List Ev) :
    (node.run evs).Lowering := by
  induction evs generalizing node with
  | nil => exact h
  | cons ev evs ih => exact ih (h.step ev)

/-- From `NewClientNode`, every run of calls keeps the schedule a chain of lowerings: each
scheduled `MinRecharge` is below the one before it, the first below the one in force. -/
theorem lowering_run_newClientNode (params : ServerParams) (now : Int64) (evs : List Ev) :
    ((newClientNode params now).run evs).Lowering :=
  (lowering_newClientNode params now).run evs

/-! ### A lowering that meets an earlier one is lost -/

/-- `now + DecParamDelay` does not wrap while the sum stays below `2 ^ 63`. -/
theorem toInt_add_decParamDelay {t : Int64} (h : t.toInt + decParamDelay.toInt < 2 ^ 63) :
    (t + decParamDelay).toInt = t.toInt + decParamDelay.toInt := by
  have hd : decParamDelay.toInt = 2000000000 := by decide
  have hlo := Int64.le_toInt t
  rw [Int64.toInt_add, Int.bmod_def]
  rw [hd] at h ⊢
  split <;> omega

/-- From parameters `P₀`, a lowering to `p₁` at `t₁` and a lowering to `p₂` with
`p₁.minRecharge < p₂.minRecharge` at `t₂`, before the first is due: from `t₁ + DecParamDelay`
on, the node runs with `p₁` and has nothing left scheduled, so `p₂` is never applied. -/
theorem UpdateParams_lowering_lost (P₀ p₁ p₂ : ServerParams) (t₀ t₁ t₂ t : Int64)
    (hp₁ : p₁.minRecharge < P₀.minRecharge) (hp₂ : p₂.minRecharge < P₀.minRecharge)
    (hp : p₁.minRecharge < p₂.minRecharge) (h₁₂ : t₁ ≤ t₂)
    (hdue : t₂.toInt < t₁.toInt + decParamDelay.toInt)
    (ht : t₂.toInt + decParamDelay.toInt ≤ t.toInt) :
    (((newClientNode P₀ t₀).run [.updateParams p₁ t₁, .updateParams p₂ t₂]).update t).params =
        p₁ ∧
      (((newClientNode P₀ t₀).run [.updateParams p₁ t₁, .updateParams p₂ t₂]).update t
        ).updateSchedule = [] ∧
      p₁ ≠ p₂ := by
  set n₀ := newClientNode P₀ t₀
  set n₁ := n₀.UpdateParams p₁ t₁
  set n₂ := n₁.UpdateParams p₂ t₂
  have hrun : n₀.run [.updateParams p₁ t₁, .updateParams p₂ t₂] = n₂ := rfl
  rw [hrun]
  -- the first lowering is scheduled at `t₁ + DecParamDelay`
  obtain ⟨hu₀p, hu₀s⟩ := update_of_nil (show n₀.updateSchedule = [] from rfl) t₁
  have hlt₁ : p₁.minRecharge < (n₀.update t₁).params.minRecharge := by
    rw [hu₀p]
    exact hp₁
  obtain ⟨h₁p, h₁s⟩ := UpdateParams_of_lt_all hlt₁ (by simp [hu₀s])
  rw [hu₀p] at h₁p
  rw [hu₀s, List.nil_append] at h₁s
  -- it is not due yet at `t₂`
  have hle := Int64.le_iff_toInt_le.mp h₁₂
  have hsum : (t₁ + decParamDelay).toInt = t₁.toInt + decParamDelay.toInt := by
    have htop := Int64.toInt_lt t
    exact toInt_add_decParamDelay (by omega)
  have hnot : t₂ < t₁ + decParamDelay := Int64.lt_iff_toInt_lt.mpr (by omega)
  obtain ⟨hu₁p, hu₁s⟩ := update_of_lt_head h₁s hnot
  -- the second lowering meets it: only the truncation happens
  have hlt₂ : p₂.minRecharge < (n₁.update t₂).params.minRecharge := by
    rw [hu₁p, h₁p]
    exact hp₂
  have hi : (n₁.update t₂).updateSchedule.findIdx?
      (fun s => p₂.minRecharge ≥ s.params.minRecharge) = some 0 := by
    rw [hu₁s, List.findIdx?_cons, if_pos (decide_eq_true (UInt64.le_of_lt hp))]
  obtain ⟨-, h₂s⟩ := UpdateParams_merge hlt₂ hi
  rw [hu₁s, List.take_of_length_le (by simp)] at h₂s
  -- at `t` the old entry is due and is applied as it stands
  have hall : ∀ s ∈ n₂.updateSchedule, s.time ≤ t := by
    rw [h₂s]
    intro s hs
    rw [List.mem_singleton.mp hs]
    show t₁ + decParamDelay ≤ t
    exact Int64.le_iff_toInt_le.mpr (by omega)
  obtain ⟨hp', hs'⟩ := update_of_forall_le hall
  rw [h₂s] at hp'
  refine ⟨hp', hs', ?_⟩
  intro heq
  rw [heq] at hp
  exact UInt64.lt_irrefl _ hp

theorem UpdateParams_lowering_lost_at_zero :
    (5 : UInt64) < 10 ∧ (7 : UInt64) < 10 ∧ (5 : UInt64) < 7 ∧ (0 : Int64) ≤ 0 ∧
      (0 : Int64).toInt < (0 : Int64).toInt + decParamDelay.toInt ∧
      (0 : Int64).toInt + decParamDelay.toInt ≤ (2000000000 : Int64).toInt ∧
      (((newClientNode ⟨100, 10⟩ 0).run [.updateParams ⟨100, 5⟩ 0, .updateParams ⟨100, 7⟩ 0]
        ).update 2000000000).params = ⟨100, 5⟩ ∧
      (((newClientNode ⟨100, 10⟩ 0).run [.updateParams ⟨100, 5⟩ 0, .updateParams ⟨100, 7⟩ 0]
        ).update 2000000000).updateSchedule = [] ∧
      (⟨100, 5⟩ : ServerParams) ≠ ⟨100, 7⟩ :=
  ⟨by decide, by decide, by decide, by decide, by decide, by decide,
    UpdateParams_lowering_lost ⟨100, 10⟩ ⟨100, 5⟩ ⟨100, 7⟩ 0 0 0 2000000000 (by decide) (by decide)
      (by decide) (by decide) (by decide) (by decide)⟩

end ClientNode

end Classzz.Flowcontrol
