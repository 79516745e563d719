import Mathlib
import Classzz.Les.Flowcontrol.Control
import Classzz.Les.Flowcontrol.Recharge

/-!
# A server's client nodes and their manager

A server makes one `ClientNode` (les/flowcontrol/control.go) per connected client, all on one
`ClientManager`. The node's exported methods are what the rest of the server calls: each runs
`update` first (the buffer recharged linearly up to the clock, with the parameter lowerings that
are due applied on the way), then moves the buffer value and hands the node to the manager.

The node's parameters and buffer value are the manager's `Node` fields here, so that the two
sides read and write one value, as they do through the shared `*ClientNode` in the source. What
only the node's own methods use (`lastTime`, `updateSchedule`, `sumCost`, `accepted`,
`connected`) is a `ClientSide` beside it. `recalcBV` and the buffer move of `updateParams` are
`ClientNode`'s own (`Classzz.Flowcontrol.ClientNode`), read on a view of the two parts.

`Freeze` only lowers the capacity estimate, which is left out with the manager's other capacity
functions; the logs are left out.
-/

namespace Classzz.Flowcontrol.Recharge

/-- The fields of a `ClientNode` that only its own methods read: the request bookkeeping, the
parameter schedule and whether it is connected. A missing key of `accepted` reads as `0`. -/
structure ClientSide where
  lastTime : Int64
  updateSchedule : List ScheduledUpdate
  sumCost : UInt64
  accepted : UInt64 → Option UInt64
  connected : Bool

/-- The client nodes a server has made, and their manager. -/
structure Server (ι : Type) where
  cm : ClientManager ι
  clients : ι → Option ClientSide

/-- A node's fields as `ClientNode`'s own methods see them. -/
def view (node : Node) (c : ClientSide) : ClientNode where
  params := node.params
  bufValue := node.bufValue
  lastTime := c.lastTime
  updateSchedule := c.updateSchedule

variable {ι : Type} [DecidableEq ι]

namespace Server

/-- The node's buffer value set to `v`. -/
def setBufValue (s : Server ι) (n : ι) (node : Node) (v : Int64) : Server ι :=
  { s with cm := { s.cm with
    nodes := Function.update s.cm.nodes n (some { node with bufValue := v }) } }

/-- The node's own fields set to `c`. -/
def setClient (s : Server ι) (n : ι) (c : ClientSide) : Server ι :=
  { s with clients := Function.update s.clients n (some c) }

/-- `recalcBV(now)`. -/
def recalcBV (s : Server ι) (n : ι) (now : Int64) : Option (Server ι) := do
  let node ← s.cm.nodes n
  let c ← s.clients n
  let cn := (view node c).recalcBV now
  pure ((s.setBufValue n node cn.bufValue).setClient n { c with lastTime := cn.lastTime })

/-- `updateParams(params, now)`: the buffer value moved by the change of `BufLimit`, then the
manager's `updateParams`, which stores the parameters. -/
def updateParams (s : Server ι) (n : ι) (params : ServerParams) (now : Int64) :
    Option (Server ι) := do
  let node ← s.cm.nodes n
  let c ← s.clients n
  let s := s.setBufValue n node ((view node c).updateParams params).bufValue
  let cm ← s.cm.updateParams n params now
  pure { s with cm }

/-- The loop of `update`, over the schedule as it was when the loop started (nothing in the loop
writes it): while the first entry is due, recharge up to its time and apply it. What is left is
written back to `updateSchedule`. -/
def applyDue (now : Int64) (n : ι) : Server ι → List ScheduledUpdate → Option (Server ι)
  | s, [] => do
    let c ← s.clients n
    pure (s.setClient n { c with updateSchedule := [] })
  | s, u :: rest =>
    if u.time ≤ now then do
      let s ← s.recalcBV n u.time
      let s ← s.updateParams n u.params now
      applyDue now n s rest
    else do
      let c ← s.clients n
      pure (s.setClient n { c with updateSchedule := u :: rest })

/-- `update(now)`: apply the scheduled updates that are due, then recharge up to `now`. -/
def update (s : Server ι) (n : ι) (now : Int64) : Option (Server ι) := do
  let c ← s.clients n
  let s ← applyDue now n s c.updateSchedule
  s.recalcBV n now

/-- `NewClientNode(cm, params)` at clock reading `now`, made for the client `n`. -/
def NewClientNode (s : Server ι) (n : ι) (params : ServerParams) (now : Int64) :
    Option (Server ι) := do
  let cm ← s.cm.connect n params now
  pure ({ s with cm }.setClient n
    { lastTime := now, updateSchedule := [], sumCost := 0, accepted := fun _ => none,
      connected := true })

/-- `Disconnect`. -/
def Disconnect (s : Server ι) (n : ι) (now : Int64) : Option (Server ι) := do
  let c ← s.clients n
  let cm ← s.cm.disconnect n now
  pure ({ s with cm }.setClient n { c with connected := false })

/-- `BufferStatus`: the buffer value, at least `0`, and the limit; `0, 0` once disconnected. -/
def BufferStatus (s : Server ι) (n : ι) (now : Int64) : Option (Server ι × UInt64 × UInt64) := do
  let c ← s.clients n
  if !c.connected then pure (s, 0, 0)
  else
    let s ← s.update n now
    let cm ← s.cm.updateBuffer n 0 now
    let node ← cm.nodes n
    let bv := if node.bufValue < 0 then 0 else node.bufValue
    pure ({ s with cm }, bv.toUInt64, node.params.bufLimit)

/-- `OneTimeCost(cost)`: the cost off the buffer value, and off the corrected one. -/
def OneTimeCost (s : Server ι) (n : ι) (cost : UInt64) (now : Int64) : Option (Server ι) := do
  let s ← s.update n now
  let node ← s.cm.nodes n
  let s := s.setBufValue n node (node.bufValue - cost.toInt64)
  let cm ← s.cm.updateBuffer n (-cost.toInt64) now
  pure { s with cm }

/-- `AcceptRequest(reqID, index, maxCost)`: whether the request is accepted, the missing buffer
amount if not, and the request's priority if so. -/
def AcceptRequest (s : Server ι) (n : ι) (index maxCost : UInt64) (now : Int64) :
    Option (Server ι × Bool × UInt64 × Int64) := do
  let s ← s.update n now
  let node ← s.cm.nodes n
  let c ← s.clients n
  if maxCost.toInt64 > node.bufValue then pure (s, false, maxCost - node.bufValue.toUInt64, 0)
  else
    let sumCost := c.sumCost + maxCost
    let s := (s.setBufValue n node (node.bufValue - maxCost.toInt64)).setClient n
      { c with sumCost, accepted := Function.update c.accepted index (some sumCost) }
    let r ← s.cm.accepted n maxCost now
    pure ({ s with cm := r.1 }, true, 0, r.2)

/-- `RequestProcessed(reqID, index, maxCost, realCost)`: the buffer value to report, with the
costs of the requests accepted after this one added back, at least `0`. -/
def RequestProcessed (s : Server ι) (n : ι) (index maxCost realCost : UInt64) (now : Int64) :
    Option (Server ι × UInt64) := do
  let s ← s.update n now
  let cm ← s.cm.processed n maxCost realCost now
  let node ← cm.nodes n
  let c ← s.clients n
  let bv := node.bufValue + (c.sumCost - (c.accepted index).getD 0).toInt64
  pure ({ s with cm }.setClient n { c with accepted := Function.update c.accepted index none },
    if bv < 0 then 0 else bv.toUInt64)

/-- `UpdateParams(params)` at clock reading `now`. -/
def UpdateParams (s : Server ι) (n : ι) (params : ServerParams) (now : Int64) :
    Option (Server ι) := do
  let s ← s.update n now
  let node ← s.cm.nodes n
  let c ← s.clients n
  if params.minRecharge ≥ node.params.minRecharge then
    (s.setClient n { c with updateSchedule := [] }).updateParams n params now
  else
    -- `for i, s := range node.updateSchedule`: the loop assigns `s.params = params` to its copy
    -- of the entry, so only the truncation reaches the node.
    match c.updateSchedule.findIdx? (fun u => params.minRecharge ≥ u.params.minRecharge) with
    | some i => pure (s.setClient n { c with updateSchedule := c.updateSchedule.take (i + 1) })
    | none => pure (s.setClient n
        { c with updateSchedule := c.updateSchedule ++ [⟨now + decParamDelay, params⟩] })

end Server

/-! ### Runs -/

/-- The calls the server makes on its client nodes, and `SetRechargeCurve` on their manager. -/
inductive Call (ι : Type) where
  | newClientNode (n : ι) (params : ServerParams) (now : Int64)
  | disconnect (n : ι) (now : Int64)
  | bufferStatus (n : ι) (now : Int64)
  | oneTimeCost (n : ι) (cost : UInt64) (now : Int64)
  | acceptRequest (n : ι) (index maxCost : UInt64) (now : Int64)
  | requestProcessed (n : ι) (index maxCost realCost : UInt64) (now : Int64)
  | updateParams (n : ι) (params : ServerParams) (now : Int64)
  | setRechargeCurve (curve : PieceWiseLinear) (now : Int64)

namespace Server

/-- One call; what a call returns goes to the caller. -/
def step (s : Server ι) : Call ι → Option (Server ι)
  | .newClientNode n params now => s.NewClientNode n params now
  | .disconnect n now => s.Disconnect n now
  | .bufferStatus n now => (s.BufferStatus n now).map (·.1)
  | .oneTimeCost n cost now => s.OneTimeCost n cost now
  | .acceptRequest n index maxCost now => (s.AcceptRequest n index maxCost now).map (·.1)
  | .requestProcessed n index maxCost realCost now =>
    (s.RequestProcessed n index maxCost realCost now).map (·.1)
  | .updateParams n params now => s.UpdateParams n params now
  | .setRechargeCurve curve now =>
    (s.cm.SetRechargeCurve curve now).map fun cm => { s with cm }

/-- A run of calls. -/
def run (s : Server ι) (calls : List (Call ι)) : Option (Server ι) :=
  calls.foldlM step s

/-- When a call may come: a node is made once for a client, and every `MinRecharge` it is given
is positive. -/
def Enabled (s : Server ι) : Call ι → Prop
  | .newClientNode n params _ => s.clients n = none ∧ s.cm.nodes n = none ∧ params.minRecharge ≠ 0
  | .disconnect n _ => s.clients n ≠ none
  | .bufferStatus n _ => s.clients n ≠ none
  | .oneTimeCost n _ _ => s.clients n ≠ none
  | .acceptRequest n _ _ _ => s.clients n ≠ none
  | .requestProcessed n _ _ _ _ => s.clients n ≠ none
  | .updateParams n params _ => s.clients n ≠ none ∧ params.minRecharge ≠ 0
  | .setRechargeCurve _ _ => True

/-- Every call of the run is enabled when it comes. -/
def EnabledAlong (s : Server ι) (calls : List (Call ι)) : Prop :=
  Run.EnabledAlong Enabled step s calls

end Server

end Classzz.Flowcontrol.Recharge
