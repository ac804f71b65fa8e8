import Chord.Network
import Chord.OwnRecord

/-!
# Messages under way

Every call of a node is a task: a request or a response on its way, or a call that comes next.
Tasks go on in any order, and any call may fail.
-/

namespace Chord

/-! ## Hosts -/

/-- Every node has a host of its own. It listens on one port of it, and its calls come from
another. -/
structure Hosts where
  host : Uuid → Endpoint
  port : Uuid → Endpoint
  peer_port : Uuid → Endpoint
  apart : Function.Injective host
  port_valid : ∀ u, ':' ∉ port u
  peer_port_valid : ∀ u, ':' ∉ peer_port u

namespace Hosts

/-- The record that a node gives of itself. -/
def record (h : Hosts) (u : Uuid) : Node := ⟨u, h.host u ++ ':' :: h.port u⟩

@[simp]
theorem record_uuid (h : Hosts) (u : Uuid) : (h.record u).uuid = u := rfl

/-- `ServerContext::peer` of the calls of a node. -/
def peer (h : Hosts) (u : Uuid) : Endpoint := h.host u ++ ':' :: h.peer_port u

end Hosts

/-! ## Tasks -/

inductive Task where
  | join (target : Node) (req : JoinRequest)
  | join_response (u : Uuid) (succ pred : Node)
  /-- The two notify calls of `ChordFacade::join`. -/
  | join_notify (u : Uuid) (predecessor_first : Bool)
  | notify (source : Uuid) (target : Node) (req : NotifyRequest)
  | stabilize (u : Uuid) (asked : Node)
  | stabilize_response (u : Uuid) (asked : Node) (reply : Option (Option Node))
  | call_notify (u : Uuid)
  /-- `index` is there for a lookup of `fix_fingers`. -/
  | successor (origin : Uuid) (index : Option Nat) (target : Node) (req : SuccessorRequest)
  | successor_response (origin : Uuid) (index : Option Nat) (succ : Node)
  | leave (source : Uuid) (target : Node) (req : LeaveRequest)

namespace Task

/-- `Client::notify()`. -/
def notify_successor (r : Router) : List Task :=
  match r.successor with
  | none => []
  | some succ =>
    if succ = r.context then []
    else [.notify r.context.uuid succ (Client.notify_request r.context)]

/-- The task goes on: the routers afterwards, and what it leads to. A forwarded request goes to
the candidate at place `choice`, those before it having failed. -/
def deliver (hosts : Hosts) (ping : Node → Bool) (fuel choice : Nat) (net : Network) :
    Task → Option (Network × List Task)
  | .join target req => do
    let r ← net target.uuid
    let node ← source_of req.header
    match Service.join r req with
    | .error _ => none
    | .ok (.reply _) => some (net, [])
    | .ok (.answer succ pred) => some (net, [.join_response node.uuid succ pred])
    | .ok .forward =>
      let predecessor ← (r.closest_preceding_nodes node.uuid)[choice]?
      some (net, [.join predecessor req])
  | .join_response u succ pred => do
    let r ← net u
    some (Function.update net u (some (Client.joined r (some (succ, pred)))), [.join_notify u true])
  | .join_notify u predecessor_first => do
    let r ← net u
    let (pred, succ) ← (ChordFacade.join_targets r).toOption
    if predecessor_first then
      some (net, [.notify u pred (Client.notify_change r.context succ r.context), .join_notify u false])
    else some (net, [.notify u succ (Client.notify_change r.context pred r.context)])
  | .notify source target req => do
    let r ← net target.uuid
    let res ← (Service.notify r (hosts.peer source) req).toOption
    some (Function.update net target.uuid (some res.router), [])
  | .stabilize u asked => do
    let r ← net asked.uuid
    some (net, [.stabilize_response u asked (some (Service.stabilize r))])
  | .stabilize_response u asked reply => do
    let r ← net u
    some (Function.update net u (some (Client.stabilize_reply r asked reply)),
      if reply.isSome then [.call_notify u] else [])
  | .call_notify u => do
    let r ← net u
    some (net, notify_successor r)
  | .successor origin index target req => do
    let r ← net target.uuid
    let (r, action) ← Service.successor ping fuel r req
    let net := Function.update net target.uuid (some r)
    match action with
    | .reply _ => some (net, [])
    | .answer succ => some (net, [.successor_response origin index succ])
    | .forward =>
      let predecessor ← (r.closest_preceding_nodes req.id)[choice]?
      some (net, [.successor origin index predecessor (Client.forwarded r.context req)])
  | .successor_response origin index succ => do
    let r ← net origin
    some (Function.update net origin (some (index.elim r fun i => Service.fix_finger r i succ)), [])
  | .leave source target req => do
    let r ← net target.uuid
    some (Function.update net target.uuid (some (Service.leave r (hosts.peer source) req).2), [])

/-- The call fails. Only `Client::stabilize` does something about it. -/
def fail : Task → List Task
  | .stabilize u asked => [.stabilize_response u asked none]
  | .join_notify _ _ | .join _ _ | .join_response _ _ _ | .notify _ _ _ | .stabilize_response _ _
    _ | .call_notify _
  | .successor _ _ _ _ | .successor_response _ _ _ | .leave _ _ _ => []

end Task

/-! ## The system -/

structure Traffic where
  net : Network
  tasks : List Task

/-- What happens next. -/
inductive Happening where
  | start (u : Uuid)
  | join (u addr : Uuid)
  | reset (u : Uuid)
  | stabilize (u : Uuid)
  | lookup (u id : Uuid)
  | fix_finger (u : Uuid) (index : Nat)
  | check (u : Uuid) (ping : Node → Bool)
  | leave_successor (u : Uuid)
  | leave_predecessor (u : Uuid)
  | stop (u : Uuid)
  | deliver (i : Nat) (ping : Node → Bool) (fuel choice : Nat)
  | fail (i : Nat)

namespace Traffic

def send (σ : Traffic) (tasks : List Task) : Traffic := { σ with tasks := σ.tasks ++ tasks }

def set (σ : Traffic) (u : Uuid) (r : Option Router) : Traffic := { σ with net := Function.update σ.net u r }

/-- `Service::successor(const uuid_t&)`: the lookup begins with a request to the own service. -/
def lookup (r : Router) (index : Option Nat) (id : Uuid) : Task :=
  .successor r.context.uuid index r.context ⟨some (make_header r.context), id⟩

def step (hosts : Hosts) (σ : Traffic) : Happening → Option Traffic
  | .start u => if σ.net u = none then some (σ.set u (some (.init (hosts.record u)))) else none
  | .join u addr => do
    let r ← σ.net u
    some (σ.send [.join (hosts.record addr) ⟨some (make_header r.context)⟩])
  | .reset u => do
    let r ← σ.net u
    some (σ.set u (some r.reset))
  | .stabilize u => do
    let r ← σ.net u
    let successor ← r.successor
    some (if successor.uuid = r.context.uuid then σ else σ.send [.stabilize u successor])
  | .lookup u id => do
    let r ← σ.net u
    some (σ.send [lookup r none id])
  | .fix_finger u index => do
    let r ← σ.net u
    some (σ.send [lookup r (some index) (calc_successor_uuid_for_index r.context.uuid index)])
  | .check u ping => do
    let r ← σ.net u
    some (σ.set u (some (Client.check ping r)))
  | .leave_successor u => do
    let r ← σ.net u
    let successor ← r.successor
    some (if successor = r.context then σ else σ.send [.leave u successor (Client.leave_request r)])
  | .leave_predecessor u => do
    let r ← σ.net u
    let predecessor ← r.predecessor
    some (σ.send [.leave u predecessor (Client.leave_request r)])
  | .stop u => some (σ.set u none)
  | .deliver i ping fuel choice => do
    let task ← σ.tasks[i]?
    let (net, next) ← task.deliver hosts ping fuel choice σ.net
    some ⟨net, σ.tasks.eraseIdx i ++ next⟩
  | .fail i => do
    let task ← σ.tasks[i]?
    some ⟨σ.net, σ.tasks.eraseIdx i ++ task.fail⟩

/-- No node is up. -/
def empty : Traffic := ⟨fun _ => none, []⟩

/-- The states after the happenings of `hs`, each of which met the state before it. -/
inductive Run (ok : Traffic → Happening → Prop) (hosts : Hosts) : List Happening → Traffic → Prop
  | init : Run ok hosts [] empty
  | step {hs : List Happening} {σ σ' : Traffic} (h : Happening) :
      Run ok hosts hs σ → ok σ h → σ.step hosts h = some σ' → Run ok hosts (hs ++ [h]) σ'

/-- Executes happenings one after the other. -/
def execute (hosts : Hosts) : Traffic → List Happening → Option Traffic
  | σ, [] => some σ
  | σ, h :: hs => do
    let σ ← σ.step hosts h
    execute hosts σ hs

theorem run_execute {hosts : Hosts} {hs done : List Happening} {σ σ' : Traffic}
    (hrun : Run (fun _ _ => True) hosts done σ) (h : execute hosts σ hs = some σ') :
    Run (fun _ _ => True) hosts (done ++ hs) σ' := by
  induction hs generalizing done σ with
  | nil =>
    cases h
    simpa using hrun
  | cons x hs ih =>
    obtain ⟨σ₁, hstep, hrest⟩ := Option.bind_eq_some_iff.mp h
    have hall := ih (hrun.step x trivial hstep) hrest
    simpa using hall

end Traffic

end Chord
