import Classzz.Les.Flowcontrol.Control

/-!
# The server's side of a client's requests

`ClientNode.AcceptRequest` takes a request's maximal cost from the client's buffer and
`RequestProcessed` reports the buffer value back with the reply (les/flowcontrol/control.go).
Both call the `ClientManager` (les/flowcontrol/manager.go), which keeps a corrected buffer value
per client, recharged by an integrator that a recharge curve may speed up, and raises the
client's buffer value to it when it is higher (`updateBuffer`); that is how the part of the
maximal cost a request did not use comes back.

The manager is modelled here for one connected client and no recharge curve
(`NewClientManager(nil, …)`): the recharge queue holds this client or nothing, and the bonus
ratio is 1, so the integrator runs with the clock. Its float conversions of durations are
taken as exact, which they are below 2^53 ns. This is the case a session of one client with its
server runs in (`Session.lean`), where a schedule of requests is evaluated; the manager of many
clients (`Recharge.lean`) computes its bonus ratio and the times its nodes fill up in `float64`,
which no evaluation reduces. The arithmetic on one node's fields is defined once, here, and
both managers use it.
-/

namespace Classzz.Flowcontrol

/-- `FixedPointMultiplier`. -/
def fixedPointMultiplier : Int64 := 1000000

/-- The fields `ClientManager` keeps in a client node (`cmNodeFields`). -/
structure NodeRc where
  corrBufValue : Int64
  rcLastIntValue : Int64
  rcFullIntValue : Int64
  deriving DecidableEq, Repr

/-! The arithmetic `updateNodeRc` and `accepted` do on one node's fields, the same in the
manager of one client and in that of many (`Recharge.lean`). -/

namespace NodeRc

/-- `updateNodeRc`'s recharge of a node that was not full: its corrected value raised by its
rate times the integrator's advance to `intValue`, capped at `BufLimit`. -/
def recharge (params : ServerParams) (intValue : Int64) (rc : NodeRc) : NodeRc :=
  if rc.corrBufValue = params.bufLimit.toInt64 then rc
  else
    let corr := rc.corrBufValue +
      (intValue - rc.rcLastIntValue) * params.minRecharge.toInt64 / fixedPointMultiplier
    { rc with
      corrBufValue := if corr > params.bufLimit.toInt64 then params.bufLimit.toInt64 else corr
      rcLastIntValue := intValue }

/-- The integrator value at which a node that recharges from `intValue` is full again
(`rcFullIntValue`); an `int64` division, which panics for a zero `MinRecharge`. -/
def fullIntValue (params : ServerParams) (intValue : Int64) (rc : NodeRc) : Int64 :=
  intValue + (params.bufLimit.toInt64 - rc.corrBufValue) * fixedPointMultiplier /
    params.minRecharge.toInt64

/-- `accepted`'s `rcTime`, in `uint64`: how long the node takes to fill up. -/
def rcTime (params : ServerParams) (rc : NodeRc) : UInt64 :=
  (params.bufLimit - rc.corrBufValue.toUInt64) * fixedPointMultiplier.toUInt64 /
    params.minRecharge

end NodeRc

/-- `ClientManager` with one connected client and no recharge curve: the recharge integrator
and whether the client is in `rcQueue`. -/
structure ClientManager where
  sumRecharge : UInt64
  rcLastUpdate : Int64
  rcLastIntValue : Int64
  queued : Bool
  deriving DecidableEq, Repr

namespace ClientManager

/-- `NewClientManager(nil, …)` followed by `connect` of the client at `now`, with the client's
fields as `connect` sets them. -/
def connect (params : ServerParams) (now : Int64) : ClientManager × NodeRc :=
  (⟨0, now, 0, false⟩, ⟨params.bufLimit.toInt64, 0, 0⟩)

/-- `updateRecharge`. The loop pops the client: if it has not finished recharging it goes back
and the integrator advances by `dt`; otherwise its corrected value is full, and the loop goes on
while `sumRecharge` is positive, popping an empty queue: a panic. -/
def updateRecharge (params : ServerParams) (now : Int64) (cm : ClientManager) (rc : NodeRc) :
    Option (ClientManager × NodeRc) :=
  let lastUpdate := cm.rcLastUpdate
  let cm := { cm with rcLastUpdate := now }
  if cm.sumRecharge > 0 then
    if cm.queued then
      let dt := now - lastUpdate
      if dt < rc.rcFullIntValue - cm.rcLastIntValue then
        some ({ cm with rcLastIntValue := cm.rcLastIntValue + dt }, rc)
      else
        let filled := rc.corrBufValue < params.bufLimit.toInt64
        let cm := { cm with
          sumRecharge := if filled then cm.sumRecharge - params.minRecharge else cm.sumRecharge
          rcLastIntValue := rc.rcFullIntValue
          queued := false }
        let rc := if filled then { rc with corrBufValue := params.bufLimit.toInt64 } else rc
        if cm.sumRecharge > 0 then none else some (cm, rc)
    else none
  else some (cm, rc)

/-- `updateNodeRc` with the client's own parameters (the only way `accepted` and
`updateBuffer` call it): recharge the corrected value, add `bvc`, cap it, and put the client
back in the queue with its new finishing point unless it is full. An `int64` division by a zero
`MinRecharge` panics. -/
def updateNodeRc (params : ServerParams) (bvc now : Int64) (cm : ClientManager) (rc : NodeRc) :
    Option (ClientManager × NodeRc) := do
  let (cm, rc) ← updateRecharge params now cm rc
  let limit := params.bufLimit.toInt64
  let wasFull := rc.corrBufValue = limit
  let rc := rc.recharge params cm.rcLastIntValue
  let corr := rc.corrBufValue + bvc
  let isFull := corr ≥ limit
  let rc := { rc with corrBufValue := if isFull then limit else corr }
  let cm := if wasFull then cm else { cm with sumRecharge := cm.sumRecharge - params.minRecharge }
  if isFull then pure (cm, rc)
  else if params.minRecharge.toInt64 = 0 then none
  else
    pure ({ cm with sumRecharge := cm.sumRecharge + params.minRecharge, queued := true },
      { rc with
        rcLastIntValue := cm.rcLastIntValue
        rcFullIntValue := rc.fullIntValue params cm.rcLastIntValue })

/-- `accepted`: charge the corrected value and compute the request's priority; the `uint64`
division by a zero `MinRecharge` panics. -/
def accepted (params : ServerParams) (maxCost : UInt64) (now : Int64) (cm : ClientManager)
    (rc : NodeRc) : Option (ClientManager × NodeRc × Int64) := do
  let (cm, rc) ← updateNodeRc params (-maxCost.toInt64) now cm rc
  if params.minRecharge = 0 then none
  else pure (cm, rc, -now - (rc.rcTime params).toInt64)

end ClientManager

/-- A `ClientNode` with the rest of what its request methods use: the cost counter, the
`accepted` map (the counter after each accepted request, by index), the manager's fields of the
node and the manager. -/
structure ServedClient where
  node : ClientNode
  sumCost : UInt64
  accepted : UInt64 → Option UInt64
  rc : NodeRc
  cm : ClientManager

namespace ServedClient

/-- `NewClientNode` with a new manager for it. -/
def new (params : ServerParams) (now : Int64) : ServedClient :=
  let (cm, rc) := ClientManager.connect params now
  { node := newClientNode params now, sumCost := 0, accepted := fun _ => none, rc, cm }

/-- `updateBuffer`: the manager's correction, then the buffer value raised to the corrected
one if that is higher. -/
def updateBuffer (s : ServedClient) (add now : Int64) : Option ServedClient := do
  let (cm, rc) ← ClientManager.updateNodeRc s.node.params add now s.cm s.rc
  let bufValue := if rc.corrBufValue > s.node.bufValue then rc.corrBufValue else s.node.bufValue
  pure { s with node := { s.node with bufValue }, cm, rc }

/-- `processed`: give back what the request did not use of its maximal cost. -/
def processed (s : ServedClient) (maxCost realCost : UInt64) (now : Int64) :
    Option ServedClient :=
  s.updateBuffer (maxCost - if realCost > maxCost then maxCost else realCost).toInt64 now

/-- `AcceptRequest` at `now`: whether it is accepted, the missing buffer amount if not, and the
priority. -/
def AcceptRequest (s : ServedClient) (now : Int64) (index maxCost : UInt64) :
    Option (ServedClient × Bool × UInt64 × Int64) :=
  let node := s.node.update now
  if maxCost.toInt64 > node.bufValue then
    some ({ s with node }, false, maxCost - node.bufValue.toUInt64, 0)
  else
    let sumCost := s.sumCost + maxCost
    match ClientManager.accepted node.params maxCost now s.cm s.rc with
    | none => none
    | some (cm, rc, priority) =>
      some ({ node := { node with bufValue := node.bufValue - maxCost.toInt64 }
              sumCost := sumCost
              accepted := Function.update s.accepted index (some sumCost)
              rc := rc
              cm := cm },
        true, 0, priority)

/-- `RequestProcessed` at `now`: the buffer value to report, with the costs of the requests
accepted after this one added back. A missing index reads as Go's zero. -/
def RequestProcessed (s : ServedClient) (now : Int64) (index maxCost realCost : UInt64) :
    Option (ServedClient × UInt64) := do
  let s ← { s with node := s.node.update now }.processed maxCost realCost now
  let bv := s.node.bufValue + (s.sumCost - (s.accepted index).getD 0).toInt64
  pure ({ s with accepted := Function.update s.accepted index none },
    if bv < 0 then 0 else bv.toUInt64)

end ServedClient

end Classzz.Flowcontrol
