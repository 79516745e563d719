import Mathlib
import Classzz.Les.Flowcontrol.Manager
import Classzz.Common.Prque.Tracked
import Classzz.Lib.Search

/-!
# The client manager and its recharge queue

`ClientManager` (les/flowcontrol/manager.go) keeps a corrected buffer value for every client of
a server. A client whose corrected value is below its `BufLimit` recharges at its `MinRecharge`,
sped up by a bonus ratio the recharge curve gives for the sum of the rates (`sumRecharge`);
the manager measures the recharge with one integrator (`rcLastIntValue`) and keeps the charging
clients in `rcQueue`, by the integrator value at which each will be full (`rcFullIntValue`).
`updateRecharge` advances the integrator, popping the clients that have filled up on the way.

The queue is a wrap-around `Prque` whose callback writes each node's `queueIndex`. Here the
manager keeps the indices of all its nodes in one map, `queueIndex`, and the callback's calls,
which the queue records, are made on it after each queue operation (`withQueue`).

The nodes are the ones the manager has been handed, by identity (`nodes n = none` for one it
never saw): `connect` is `NewClientNode`'s call, the node made with its parameters and a full
buffer. A nil node or an empty queue makes Go panic, and so does an integer division by a zero
`MinRecharge`: all are `none`. The floating-point bonus ratio and its conversions are Lean's
`Float` operations; what is proved of the manager holds whatever they compute. The capacity
estimate (`logTotalCap`, `updateTotalCapacity`, `refreshCapacity`, `updateRaiseLimit`) is left
out: it only reads `totalConnected`, which is kept. What `updateNodeRc` and `accepted` compute on
one node is the manager of one client's (`NodeRc.recharge`, `NodeRc.fullIntValue`,
`NodeRc.rcTime`); the two managers differ in their queue and their recharge loop.
-/

namespace Classzz.Flowcontrol.Recharge

open Classzz.Prque PositionIndex

/-- A point of `PieceWiseLinear`. -/
structure CurvePoint where
  x : UInt64
  y : UInt64
  deriving DecidableEq, Repr

/-- `PieceWiseLinear`: a recharge curve, its points by `X`. -/
abbrev PieceWiseLinear := List CurvePoint

namespace PieceWiseLinear

/-- The loop of `ValueAt`: `for h != l` halves `[l, h)` down to the first point with `x ≤ X`,
the binary search of `sort.Search`. -/
def segment (pwl : PieceWiseLinear) (x : UInt64) : ℕ :=
  Search.search pwl.length fun m => pwl[m]?.all fun p => !(x > p.x)

/-- `ValueAt`: the value read off the segment that ends at `segment`. -/
def valueAt (pwl : PieceWiseLinear) (x : UInt64) : Float :=
  match pwl with
  | [] => 0
  | p₀ :: _ =>
    let h := pwl.segment x
    if h = 0 then p₀.y.toFloat
    else
      -- `l--`: the point before; `h == len(pwl)` when `x` is past the last one
      match pwl[h - 1]?, pwl[h]? with
      | some pl, none => pl.y.toFloat
      | some pl, some ph =>
        let dx := ph.x - pl.x
        if dx < 1 then pl.y.toFloat
        else pl.y.toFloat + (ph.y - pl.y).toFloat * (x - pl.x).toFloat / dx.toFloat
      | none, _ => 0

/-- `Valid`: the `X` coordinates do not decrease. -/
def Valid (pwl : PieceWiseLinear) : Bool :=
  (pwl.foldl (fun (r : Bool × UInt64) p => (r.1 && !(p.x < r.2), p.x)) (true, 0)).1

end PieceWiseLinear

/-- A client node as the manager uses it: its parameters and buffer value, and the fields
`cmNodeFields` keeps for the manager but `queueIndex`. -/
structure Node where
  params : ServerParams
  bufValue : Int64
  rc : NodeRc
  deriving DecidableEq, Repr

/-- The node with its corrected value at its limit. -/
def Node.fill (node : Node) : Node :=
  { node with rc := { node.rc with corrBufValue := node.params.bufLimit.toInt64 } }

/-- `ClientManager` with the nodes handed to it and their `queueIndex`. -/
structure ClientManager (ι : Type) where
  curve : PieceWiseLinear
  sumRecharge : UInt64
  totalRecharge : UInt64
  totalConnected : UInt64
  rcLastUpdate : Int64
  rcLastIntValue : Int64
  rcQueue : Prque ι
  nodes : ι → Option Node
  queueIndex : ι → ℤ

variable {ι : Type} [DecidableEq ι]

namespace ClientManager

/-- A queue operation, with the callback `a.(*ClientNode).queueIndex = i` made for each call the
queue recorded. -/
def withQueue {β : Type*} (cm : ClientManager ι) (op : Prque ι → Option (Prque ι × β)) :
    Option (ClientManager ι × β) :=
  (op ⟨{ cm.rcQueue.cont with reports := [] }⟩).map fun r =>
    ({ cm with
      rcQueue := ⟨{ r.1.cont with reports := [] }⟩
      queueIndex := record cm.queueIndex r.1.cont.reports }, r.2)

/-- `rcQueue.Push(node, priority)`. -/
def queuePush (cm : ClientManager ι) (n : ι) (priority : Int64) : Option (ClientManager ι) :=
  (cm.withQueue fun q => (q.push n priority).map fun q' => (q', ())).map (·.1)

/-- `SetRechargeCurve` without its clock reading: the curve, and its last value as the total. -/
def setCurve (cm : ClientManager ι) (curve : PieceWiseLinear) : ClientManager ι :=
  { cm with curve, totalRecharge := (curve.getLast?.map (·.y)).getD 0 }

/-- The bonus ratio of `updateRecharge`: the curve's value at `sumRecharge`, capped at
`totalRecharge`, over that rate, where the curve is above it. -/
def bonusRatio (cm : ClientManager ι) : Float :=
  let sumRecharge := if cm.sumRecharge > cm.totalRecharge then cm.totalRecharge else cm.sumRecharge
  let v := cm.curve.valueAt sumRecharge
  let s := sumRecharge.toFloat
  if v > s ∧ s > 0 then v / s else 1

/-- The node `updateRecharge` finds filled up: its corrected value at its limit, the rate it
charged at taken off `sumRecharge`, unless it was full already. -/
def finishNode (cm : ClientManager ι) (n : ι) (node : Node) : ClientManager ι :=
  if node.rc.corrBufValue < node.params.bufLimit.toInt64 then
    { cm with
      nodes := Function.update cm.nodes n (some node.fill)
      sumRecharge := cm.sumRecharge - node.params.minRecharge }
  else cm

/-- The loop of `updateRecharge` from `lastUpdate`. Every round that does not return takes a
node out of the queue for good, so the size of the queue and one more round are enough fuel. -/
def rechargeLoop (now : Int64) : ℕ → ClientManager ι → Int64 → Option (ClientManager ι)
  | 0, _, _ => none
  | fuel + 1, cm, lastUpdate =>
    if cm.sumRecharge > 0 then do
      let bonusRatio := cm.bonusRatio
      let dt := now - lastUpdate
      -- the client that finishes first; popping an empty queue panics
      let r ← cm.withQueue Prque.popItem
      let node ← r.1.nodes r.2
      let dtNext := ((node.rc.rcFullIntValue - r.1.rcLastIntValue).toFloat / bonusRatio).toInt64
      if dt < dtNext then
        -- not finished yet: back into the queue, and the integrator advances by `dt`
        let cm ← r.1.queuePush r.2 (-node.rc.rcFullIntValue)
        pure { cm with rcLastIntValue := cm.rcLastIntValue + (bonusRatio * dt.toFloat).toInt64 }
      else
        rechargeLoop now fuel
          { r.1.finishNode r.2 node with rcLastIntValue := node.rc.rcFullIntValue }
          (lastUpdate + dtNext)
    else some cm

/-- `updateRecharge`. -/
def updateRecharge (cm : ClientManager ι) (now : Int64) : Option (ClientManager ι) :=
  rechargeLoop now (cm.rcQueue.size + 1) { cm with rcLastUpdate := now } cm.rcLastUpdate

/-- The corrected value `updateNodeRc` brings a node to before it adds anything: recharged since
its last update unless it was full, capped at its limit. -/
def recharged (cm : ClientManager ι) (node : Node) : Node :=
  { node with rc := node.rc.recharge node.params cm.rcLastIntValue }

/-- The corrected value after `bvc` and a raise of `BufLimit` to `params` are added. -/
def corrected (node : Node) (bvc : Int64) (params : ServerParams) : Int64 :=
  let corr := node.rc.corrBufValue + bvc
  let diff := (params.bufLimit - node.params.bufLimit).toInt64
  if diff > 0 then corr + diff else corr

/-- `if node.queueIndex != -1 { cm.rcQueue.Remove(node.queueIndex) }`. -/
def removeQueued (cm : ClientManager ι) (n : ι) : Option (ClientManager ι) :=
  if cm.queueIndex n ≠ -1 then (cm.withQueue fun q => q.remove (cm.queueIndex n)).map (·.1)
  else some cm

/-- The tail of `updateNodeRc` for a node that is not full: out of the queue if it is there,
then back in at the integrator value at which it will be. -/
def requeue (cm : ClientManager ι) (n : ι) : Option (ClientManager ι) := do
  let cm ← cm.removeQueued n
  let node ← cm.nodes n
  if node.params.minRecharge.toInt64 = 0 then none
  else
    let rcFull := node.rc.fullIntValue node.params cm.rcLastIntValue
    let cm := { cm with
      nodes := Function.update cm.nodes n
        (some { node with rc := { node.rc with
          rcLastIntValue := cm.rcLastIntValue, rcFullIntValue := rcFull } }) }
    cm.queuePush n (-rcFull)

/-- `updateNodeRc(node, bvc, params, now)`. `accepted` and `updateBuffer` pass the node's own
parameters, which `updateRecharge` leaves as they are. -/
def updateNodeRc (cm : ClientManager ι) (n : ι) (bvc : Int64) (params : ServerParams)
    (now : Int64) : Option (ClientManager ι) := do
  let cm ← cm.updateRecharge now
  let node ← cm.nodes n
  let wasFull := node.rc.corrBufValue = node.params.bufLimit.toInt64
  let node := cm.recharged node
  let corr := corrected node bvc params
  let isFull := corr ≥ params.bufLimit.toInt64
  let corr := if isFull then params.bufLimit.toInt64 else corr
  let sumRecharge := if wasFull then cm.sumRecharge else cm.sumRecharge - node.params.minRecharge
  let cm := { cm with
    sumRecharge
    nodes := Function.update cm.nodes n
      (some { node with params, rc := { node.rc with corrBufValue := corr } }) }
  if isFull then pure cm
  else requeue { cm with sumRecharge := cm.sumRecharge + params.minRecharge } n

/-- `NewClientManager(curve, clock)` at clock reading `now`; a nil curve is `none`. -/
def newClientManager (curve : Option PieceWiseLinear) (now : Int64) : Option (ClientManager ι) :=
  let cm : ClientManager ι :=
    { curve := [], sumRecharge := 0, totalRecharge := 0, totalConnected := 0, rcLastUpdate := 0,
      rcLastIntValue := 0, rcQueue := newWrapAround (some id), nodes := fun _ => none,
      queueIndex := fun _ => -1 }
  match curve with
  | none => some cm
  | some curve => (cm.updateRecharge now).map (·.setCurve curve)

/-- The node `NewClientNode` makes and `connect` sets up: its buffer and corrected value full,
recharged up to the integrator's value. -/
def newNode (params : ServerParams) (rcLastIntValue : Int64) : Node where
  params := params
  bufValue := params.bufLimit.toInt64
  rc := ⟨params.bufLimit.toInt64, rcLastIntValue, 0⟩

/-- `NewClientNode(cm, params)` and its `connect` at `now`. -/
def connect (cm : ClientManager ι) (n : ι) (params : ServerParams) (now : Int64) :
    Option (ClientManager ι) :=
  (cm.updateRecharge now).map fun cm =>
    { cm with
      nodes := Function.update cm.nodes n (some (newNode params cm.rcLastIntValue))
      queueIndex := Function.update cm.queueIndex n (-1)
      totalConnected := cm.totalConnected + params.minRecharge }

/-- `disconnect`. -/
def disconnect (cm : ClientManager ι) (n : ι) (now : Int64) : Option (ClientManager ι) := do
  let cm ← cm.updateRecharge now
  let node ← cm.nodes n
  pure { cm with totalConnected := cm.totalConnected - node.params.minRecharge }

/-- `accepted`: the request's maximal cost off the corrected value, and the request's priority;
the `uint64` division by a zero `MinRecharge` panics. -/
def accepted (cm : ClientManager ι) (n : ι) (maxCost : UInt64) (now : Int64) :
    Option (ClientManager ι × Int64) := do
  let node ← cm.nodes n
  let cm ← cm.updateNodeRc n (-maxCost.toInt64) node.params now
  let node ← cm.nodes n
  if node.params.minRecharge = 0 then none
  else pure (cm, -now - (node.rc.rcTime node.params).toInt64)

/-- `updateBuffer`: the correction, then the node's buffer value raised to the corrected one if
that is higher. -/
def updateBuffer (cm : ClientManager ι) (n : ι) (add now : Int64) : Option (ClientManager ι) := do
  let node ← cm.nodes n
  let cm ← cm.updateNodeRc n add node.params now
  let node ← cm.nodes n
  pure (if node.rc.corrBufValue > node.bufValue then
    { cm with nodes := Function.update cm.nodes n (some { node with bufValue := node.rc.corrBufValue }) }
    else cm)

/-- `processed`: give back what the request did not use of its maximal cost. -/
def processed (cm : ClientManager ι) (n : ι) (maxCost realCost : UInt64) (now : Int64) :
    Option (ClientManager ι) :=
  cm.updateBuffer n (maxCost - if realCost > maxCost then maxCost else realCost).toInt64 now

/-- `updateParams`. -/
def updateParams (cm : ClientManager ι) (n : ι) (params : ServerParams) (now : Int64) :
    Option (ClientManager ι) := do
  let cm ← cm.updateRecharge now
  let node ← cm.nodes n
  let cm := { cm with
    totalConnected := cm.totalConnected + (params.minRecharge - node.params.minRecharge) }
  cm.updateNodeRc n 0 params now

/-- `SetRechargeCurve`. -/
def SetRechargeCurve (cm : ClientManager ι) (curve : PieceWiseLinear) (now : Int64) :
    Option (ClientManager ι) :=
  (cm.updateRecharge now).map (·.setCurve curve)

end ClientManager

/-! ### Runs -/

/-- The calls the client nodes make on the manager. -/
inductive Event (ι : Type) where
  | connect (n : ι) (params : ServerParams) (now : Int64)
  | disconnect (n : ι) (now : Int64)
  | accepted (n : ι) (maxCost : UInt64) (now : Int64)
  | processed (n : ι) (maxCost realCost : UInt64) (now : Int64)
  | updateBuffer (n : ι) (add now : Int64)
  | updateParams (n : ι) (params : ServerParams) (now : Int64)
  | setRechargeCurve (curve : PieceWiseLinear) (now : Int64)

namespace ClientManager

/-- One call; `accepted`'s priority goes to the caller. -/
def step (cm : ClientManager ι) : Event ι → Option (ClientManager ι)
  | .connect n params now => cm.connect n params now
  | .disconnect n now => cm.disconnect n now
  | .accepted n maxCost now => (cm.accepted n maxCost now).map (·.1)
  | .processed n maxCost realCost now => cm.processed n maxCost realCost now
  | .updateBuffer n add now => cm.updateBuffer n add now
  | .updateParams n params now => cm.updateParams n params now
  | .setRechargeCurve curve now => cm.SetRechargeCurve curve now

/-- A run of calls. -/
def run (cm : ClientManager ι) (events : List (Event ι)) : Option (ClientManager ι) :=
  events.foldlM step cm

/-- When a call may come: a node is connected once, by `NewClientNode`, before any other call
on it, and its `MinRecharge` is positive. -/
def Enabled (cm : ClientManager ι) : Event ι → Prop
  | .connect n params _ => cm.nodes n = none ∧ params.minRecharge ≠ 0
  | .disconnect n _ => cm.nodes n ≠ none
  | .accepted n _ _ => cm.nodes n ≠ none
  | .processed n _ _ _ => cm.nodes n ≠ none
  | .updateBuffer n _ _ => cm.nodes n ≠ none
  | .updateParams n params _ => cm.nodes n ≠ none ∧ params.minRecharge ≠ 0
  | .setRechargeCurve _ _ => True

/-- Every call of the run is enabled when it comes. -/
def EnabledAlong (cm : ClientManager ι) (events : List (Event ι)) : Prop :=
  Run.EnabledAlong Enabled step cm events

end ClientManager

end Classzz.Flowcontrol.Recharge
