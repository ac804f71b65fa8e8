import Chord.Client
import Chord.Lib.Neighbours
import Chord.RouterTable
import Mathlib.Logic.Function.Basic

/-!
# Calls between nodes

A call at a record runs the handler of the node with that uuid, and whatever that handler
calls in turn. Where no such node is up, the call comes back without an answer.
-/

open Circle

namespace Chord

/-- The routers of the nodes that are up. -/
abbrev Network := Uuid → Option Router

/-- Why a call never comes back. -/
inductive Halt where
  | fuel
  | fault (f : Fault)

abbrev Call := StateT Network (Except Halt)

theorem pure_call {α : Type} (a : α) (net : Network) : (pure a : Call α) net = .ok (a, net) := rfl

namespace Network

def members (net : Network) : Set Uuid := {u | (net u).isSome}

/-- The record that a node of the network gives of itself. -/
def Member (net : Network) (n : Node) : Prop := ∃ r, net n.uuid = some r ∧ r.context = n

def ping (net : Network) (n : Node) : Bool := (net n.uuid).isSome

/-! ## `successor` and `join`, from node to node -/

/-- `Service::successor` at `target`. -/
def successor : Nat → Node → SuccessorRequest → Call (Option Node)
  | 0, _, _ => fun _ => .error .fuel
  | fuel + 1, target, req => fun net =>
    match net target.uuid with
    | none => .ok (none, net)
    | some r =>
      match Service.successor net.ping fuel r req with
      | none => .error .fuel
      | some (r, action) =>
        let net := Function.update net target.uuid (some r)
        match action with
        | .reply _ => .ok (none, net)
        | .answer succ => .ok (some succ, net)
        | .forward => Client.first_ok (fun n => successor fuel n (Client.forwarded r.context req))
            (r.closest_preceding_nodes req.id) net

/-- `Service::join` at `target`. The request goes on as it came. -/
def join : Nat → Node → JoinRequest → Call (Option (Node × Node))
  | 0, _, _ => fun _ => .error .fuel
  | fuel + 1, target, req => fun net =>
    match net target.uuid with
    | none => .ok (none, net)
    | some r =>
      match Service.join r req with
      | .error f => .error (.fault f)
      | .ok (.reply _) => .ok (none, net)
      | .ok (.answer succ pred) => .ok (some (succ, pred), net)
      | .ok .forward => Client.first_ok (fun n => join fuel n req)
          ((source_of req.header).elim [] fun node => r.closest_preceding_nodes node.uuid) net

/-! ## Single calls -/

/-- `Service::notify` at `target`. -/
def notify (target : Node) (peer : Endpoint) (req : NotifyRequest) : Call StatusCode := fun net =>
  match net target.uuid with
  | none => .ok (.UNAVAILABLE, net)
  | some r =>
    match Service.notify r peer req with
    | .error f => .error (.fault f)
    | .ok res => .ok (res.status, Function.update net target.uuid (some res.router))

/-- `Service::leave` at `target`. -/
def leave (target : Node) (peer : Endpoint) (req : LeaveRequest) : Call StatusCode := fun net =>
  match net target.uuid with
  | none => .ok (.UNAVAILABLE, net)
  | some r =>
    let (status, r) := Service.leave r peer req
    .ok (status, Function.update net target.uuid (some r))

/-! ## What a node does with its neighbours -/

def fault_of {α : Type} : Except Fault α → Call α
  | .error f => fun _ => .error (.fault f)
  | .ok a => pure a

/-- `ChordFacade::join` of a node with router `r`, through the member `addr`. Its own router
is not part of the network yet. -/
def facade_join (fuel : Nat) (r : Router) (peer : Endpoint) (addr : Node) : Call Router := do
  match ← join fuel addr ⟨some (make_header r.context)⟩ with
  | none => pure r
  | some (succ, pred) =>
    let r := Client.joined r (some (succ, pred))
    let (predecessor, successor) ← fault_of (ChordFacade.join_targets r)
    let status_pred ← notify predecessor peer (Client.notify_change r.context successor r.context)
    let status_succ ← notify successor peer (Client.notify_change r.context predecessor r.context)
    pure (ChordFacade.joined_or_reset r status_pred status_succ)

/-- `Client::leave` of a node with router `r`: the successor hears it first. -/
def client_leave (r : Router) (peer : Endpoint) : Call Unit := do
  match r.successor with
  | none => pure ()
  | some successor =>
    if successor = r.context then pure ()
    else let _ ← leave successor peer (Client.leave_request r)
  match r.predecessor with
  | none => pure ()
  | some predecessor => let _ ← leave predecessor peer (Client.leave_request r)

end Network

end Chord
