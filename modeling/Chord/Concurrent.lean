import Chord.Network

/-!
# Joins and stabilize rounds at the same time

What a handshake or a round has to do next is an `Activity`: a message on its way, or a node
about to make a call. Any of them may go on next. Calls do not fail.
-/

namespace Chord

open Router

/-- What the sender of a notify does with the status. -/
inductive NotifyFrom where
  | join_predecessor
  | join_successor (status_pred : StatusCode)
  | stabilize

inductive Activity where
  | join_request (j : Node) (target : Node)
  | join_response (j : Node) (succ pred : Node)
  | call_predecessor (u : Uuid)
  | call_successor (u : Uuid) (status_pred : StatusCode)
  | join_done (u : Uuid) (status_pred status_succ : StatusCode)
  | stabilize (u : Uuid) (asked : Node)
  | stabilize_response (u : Uuid) (asked : Node) (pred : Option Node)
  | call_notify (u : Uuid)
  | notify (source target : Node) (req : NotifyRequest) (sender : NotifyFrom)

structure System where
  net : Network
  active : List Activity
  started : List Uuid

namespace Activity

/-- What follows the answer to a notify. -/
def notified (u : Uuid) (status : StatusCode) : NotifyFrom → List Activity
  | .join_predecessor => [.call_successor u status]
  | .join_successor status_pred => [.join_done u status_pred status]
  | .stabilize => []

/-- `Client::notify()`. -/
def notify_successor (r : Router) : List Activity :=
  match r.successor with
  | none => []
  | some successor =>
    if successor = r.context then []
    else [.notify r.context successor (Client.notify_request r.context) .stabilize]

/-- `Client::stabilize` up to its call. -/
def start_stabilize (r : Router) : List Activity :=
  match r.successor with
  | none => []
  | some successor => if successor.uuid = r.context.uuid then [] else [.stabilize r.context.uuid successor]

/-- One step of an activity, and what it leaves to do. `peer` is the address that the calls of
a node come from. There is no step where a handler faults or the target is not up. -/
def step (peer : Node → Endpoint) (net : Network) : Activity → Option (Network × List Activity)
  | .join_request j target => do
    let r ← net target.uuid
    match Service.join r ⟨some (make_header j)⟩ with
    | .error _ => none
    | .ok (.reply _) => none
    | .ok (.answer succ pred) => some (net, [.join_response j succ pred])
    | .ok .forward =>
      let predecessor ← (r.closest_preceding_nodes j.uuid).head?
      some (net, [.join_request j predecessor])
  | .join_response j succ pred =>
    some (Function.update net j.uuid (some (Client.joined (init j) (some (succ, pred)))),
      [.call_predecessor j.uuid])
  | .call_predecessor u => do
    let r ← net u
    let (predecessor, successor) ← (ChordFacade.join_targets r).toOption
    some (net, [.notify r.context predecessor (Client.notify_change r.context successor r.context)
      .join_predecessor])
  | .call_successor u status_pred => do
    let r ← net u
    let (predecessor, successor) ← (ChordFacade.join_targets r).toOption
    some (net, [.notify r.context successor (Client.notify_change r.context predecessor r.context)
      (.join_successor status_pred)])
  | .join_done u status_pred status_succ => do
    let r ← net u
    some (Function.update net u (some (ChordFacade.joined_or_reset r status_pred status_succ)), [])
  | .stabilize u asked => do
    let r ← net asked.uuid
    some (net, [.stabilize_response u asked (Service.stabilize r)])
  | .stabilize_response u asked pred => do
    let r ← net u
    some (Function.update net u (some (Client.stabilize_reply r asked (some pred))), [.call_notify u])
  | .call_notify u => do
    let r ← net u
    some (net, notify_successor r)
  | .notify source target req sender => do
    let r ← net target.uuid
    let res ← (Service.notify r (peer source) req).toOption
    some (Function.update net target.uuid (some res.router), notified source.uuid res.status sender)

end Activity

namespace System

/-- A bootstrapped node, alone. -/
def bootstrap (a : Node) : System where
  net := fun u => if u = a.uuid then some (init a) else none
  active := []
  started := [a.uuid]

inductive Step (peer : Node → Endpoint) (σ : System) : System → Prop
  | join (j target : Node) : j.uuid ∉ σ.started → target.uuid ∈ σ.net.members →
      Step peer σ ⟨σ.net, .join_request j target :: σ.active, j.uuid :: σ.started⟩
  | stabilize (u : Uuid) (r : Router) : σ.net u = some r →
      Step peer σ ⟨σ.net, Activity.start_stabilize r ++ σ.active, σ.started⟩
  | progress (before after : List Activity) (x : Activity) (net : Network) (next : List Activity) :
      σ.active = before ++ x :: after → x.step peer σ.net = some (net, next) →
      Step peer σ ⟨net, before ++ next ++ after, σ.started⟩

inductive Run (peer : Node → Endpoint) (a : Node) : System → Prop
  | init : Run peer a (bootstrap a)
  | step {σ σ' : System} : Run peer a σ → Step peer σ σ' → Run peer a σ'

/-- The activities of `todo` to their end, one after the other. -/
def drain (peer : Node → Endpoint) : Nat → Network → List Activity → Option Network
  | _, net, [] => some net
  | 0, _, _ :: _ => none
  | fuel + 1, net, x :: todo => do
    let (net, next) ← x.step peer net
    drain peer fuel net (next ++ todo)

/-- A whole stabilize round of a node: at most a question, an answer, and a notify. -/
def stabilize_round (peer : Node → Endpoint) (net : Network) (u : Uuid) : Option Network := do
  let r ← net u
  drain peer 4 net (Activity.start_stabilize r)

/-- Nothing is under way, and no round changes a router. -/
structure Settled (peer : Node → Endpoint) (σ : System) : Prop where
  active : σ.active = []
  rounds : ∀ u ∈ σ.net.members, stabilize_round peer σ.net u = some σ.net

end System

end Chord
