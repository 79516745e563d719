import Classzz.Les.Flowcontrol.Manager

/-!
# A client and a server under flow control

The client keeps `ServerNode`, a lower estimate of its buffer at the server
(les/flowcontrol/control.go): it waits until `CanSend` reports no waiting time, takes the
request's maximal cost off the estimate in `QueuedRequest`, and raises the estimate again from
the buffer value each reply reports (`ReceivedReply`). The server keeps the client's
`ClientNode` with its manager (`ServedClient`).

`Session` puts the two together over a network that delivers the client's requests to the
server in the order they were queued, each after any delay, and the replies back in any order;
`step` is one event of a run.

The estimate is not a lower bound, though. It recharges up to `BufLimit` while a request is
still on its way, but the server's buffer is capped at `BufLimit` too, so once the request
arrives the server holds less than the client believes, and a request `CanSend` allowed is
rejected (`delayed_request_underrun`).
-/

namespace Classzz.Flowcontrol

/-- `safetyMargin = time.Millisecond`, in nanoseconds. -/
def safetyMargin : UInt64 := 1000000

/-- The fields of `ServerNode` its methods read and write; `pending` is the cost counter after
each queued request, by request id. -/
structure ServerNode where
  bufEstimate : UInt64
  bufRecharge : Bool
  lastTime : Int64
  params : ServerParams
  sumCost : UInt64
  pending : UInt64 → Option UInt64

/-- `NewServerNode` at clock reading `now`. -/
def newServerNode (params : ServerParams) (now : Int64) : ServerNode :=
  ⟨params.bufLimit, false, now, params, 0, fun _ => none⟩

namespace ServerNode

/-- `recalcBLE`: while recharging, the estimate grows linearly since `lastTime`, up to
`BufLimit`, where recharging stops. A clock reading before `lastTime` changes nothing. -/
def recalcBLE (node : ServerNode) (now : Int64) : ServerNode :=
  if now < node.lastTime then node
  else
    let node :=
      if node.bufRecharge then
        let est := node.bufEstimate +
          node.params.minRecharge * (now - node.lastTime).toUInt64 / fcTimeConst
        if est ≥ node.params.bufLimit then
          { node with bufEstimate := node.params.bufLimit, bufRecharge := false }
        else { node with bufEstimate := est }
      else node
    { node with lastTime := now }

/-- `CanSend` at `now`: the time to wait before a request of maximal cost `maxCost` may be sent,
with a millisecond's recharge of margin; the division by a zero `MinRecharge` panics. The
relative buffer level it also returns is a float hint that no call here reads. -/
def CanSend (node : ServerNode) (now : Int64) (maxCost : UInt64) : Option (ServerNode × Int64) :=
  if node.params.bufLimit = 0 then some (node, Int64.maxValue)
  else
    let node := node.recalcBLE now
    let maxCost := maxCost + safetyMargin * node.params.minRecharge / fcTimeConst
    let maxCost := if maxCost > node.params.bufLimit then node.params.bufLimit else maxCost
    if node.bufEstimate ≥ maxCost then some (node, 0)
    else if node.params.minRecharge = 0 then none
    else
      some (node, ((maxCost - node.bufEstimate) * fcTimeConst / node.params.minRecharge).toInt64)

/-- `QueuedRequest` at `now`: the maximal cost leaves the estimate (which stops at zero, with an
error logged) and joins the counter, recorded under the request id. -/
def QueuedRequest (node : ServerNode) (now : Int64) (reqID maxCost : UInt64) : ServerNode :=
  let node := node.recalcBLE now
  let sumCost := node.sumCost + maxCost
  { node with
    bufEstimate := if node.bufEstimate ≥ maxCost then node.bufEstimate - maxCost else 0
    sumCost
    pending := Function.update node.pending reqID (some sumCost) }

/-- `ReceivedReply` at `now`: the reported buffer value less the costs queued since the request
is a new estimate, taken if it is higher; recharging goes on while the estimate is below
`BufLimit`. A reply to no pending request only recalculates. -/
def ReceivedReply (node : ServerNode) (now : Int64) (reqID bv : UInt64) : ServerNode :=
  let node := node.recalcBLE now
  let bv := if bv > node.params.bufLimit then node.params.bufLimit else bv
  match node.pending reqID with
  | none => node
  | some sc =>
    let cc := node.sumCost - sc
    let newEstimate := if bv > cc then bv - cc else 0
    let bufEstimate := if newEstimate > node.bufEstimate then newEstimate else node.bufEstimate
    { node with
      pending := Function.update node.pending reqID none
      bufEstimate
      bufRecharge := decide (bufEstimate < node.params.bufLimit)
      lastTime := now }

end ServerNode

/-- A client and the server it talks to: the client's `ServerNode`, the server's side of the
client, the requests on their way to the server in the order they were queued, the requests
being served, the replies on their way back, the requests the server rejected (each with its
maximal cost), and the common clock. -/
structure Session where
  client : ServerNode
  server : ServedClient
  toServer : List (UInt64 × UInt64)
  serving : List (UInt64 × UInt64)
  toClient : List (UInt64 × UInt64)
  rejected : List (UInt64 × UInt64)
  now : Int64

/-- Both sides created with the same parameters at `now`. -/
def newSession (params : ServerParams) (now : Int64) : Session :=
  ⟨newServerNode params now, ServedClient.new params now, [], [], [], [], now⟩

/-- The events of a session. A request's id is also its index at the server. -/
inductive Event
  /-- the clock moves on to `t` -/
  | tick (t : Int64)
  /-- the client sends a request after `CanSend` reported no waiting time -/
  | send (reqID maxCost : UInt64)
  /-- the first request on its way reaches the server -/
  | deliver
  /-- the server finishes a request it accepted, at a real cost at most its maximal one -/
  | process (reqID realCost : UInt64)
  /-- a reply reaches the client -/
  | reply (reqID : UInt64)

namespace Session

/-- One event; `none` when it cannot take place (or the code panics). -/
def step (s : Session) : Event → Option Session
  | .tick t => if s.now ≤ t then some { s with now := t } else none
  | .send reqID maxCost =>
    match s.client.CanSend s.now maxCost with
    | some (client, wait) =>
      if wait = 0 then
        some { s with
          client := client.QueuedRequest s.now reqID maxCost
          toServer := s.toServer ++ [(reqID, maxCost)] }
      else none
    | none => none
  | .deliver =>
    match s.toServer with
    | [] => none
    | (reqID, maxCost) :: rest =>
      match s.server.AcceptRequest s.now reqID maxCost with
      | some (server, true, _, _) =>
        some { s with server, toServer := rest, serving := s.serving ++ [(reqID, maxCost)] }
      | some (server, false, _, _) =>
        some { s with server, toServer := rest, rejected := s.rejected ++ [(reqID, maxCost)] }
      | none => none
  | .process reqID realCost =>
    match s.serving.find? (·.1 = reqID) with
    | some (_, maxCost) =>
      if realCost ≤ maxCost then
        match s.server.RequestProcessed s.now reqID maxCost realCost with
        | some (server, bv) =>
          some { s with
            server
            serving := s.serving.erase (reqID, maxCost)
            toClient := s.toClient ++ [(reqID, bv)] }
        | none => none
      else none
    | none => none
  | .reply reqID =>
    match s.toClient.find? (·.1 = reqID) with
    | some (_, bv) =>
      some { s with
        client := s.client.ReceivedReply s.now reqID bv
        toClient := s.toClient.erase (reqID, bv) }
    | none => none

/-- A run of events. -/
def run (s : Session) (events : List Event) : Option Session :=
  events.foldlM step s

/-- What the flow control is meant to keep: the client's estimate is at most the server's
buffer value less the maximal costs of the requests still on their way. -/
def Underestimates (s : Session) : Prop :=
  (s.client.bufEstimate.toNat : ℤ) ≤ s.server.node.bufValue.toInt - ((s.toServer.map (·.2.toNat)).sum : ℤ)

instance (s : Session) : Decidable s.Underestimates :=
  inferInstanceAs (Decidable (_ ≤ _))

/-! ### A request that `CanSend` allowed is rejected -/

/-- Limit 10, one unit a millisecond. The client sends a request of cost 5, which is served and
answered at once, so its estimate, 5, recharges; it sends one of cost 4, which takes 10 ms to
arrive. Meanwhile both buffers reach 10, so the client sends one of cost 9, while the server,
once the cost 4 is in, holds 6 and rejects it. -/
theorem delayed_request_underrun :
    ∃ s, (newSession ⟨10, 1⟩ 0).run [.send 1 5, .deliver, .process 1 5, .reply 1, .send 2 4,
        .tick 10000000, .send 3 9] = some s ∧
      ¬s.Underestimates ∧ (s.run [.deliver, .deliver]).map (·.rejected) = some [(3, 9)] :=
  ⟨_, rfl, by decide, by decide⟩

end Session

end Classzz.Flowcontrol
