import Chord.Service

/-! # The client of one node (`chord.client.cc`) and its facade (`chord.facade.cc`) -/

namespace Chord

namespace Client

/-! ## Calls that are tried at one node after another -/

/-- The loop of `Client::successor` and `Client::join`: the first answer wins. `none` is any
status but `OK`, and `CANCELLED` where no node is left. -/
def first_ok {m : Type → Type} [Monad m] {α : Type} (call : Node → m (Option α)) : List Node → m (Option α)
  | [] => pure none
  | predecessor :: rest => do
    match ← call predecessor with
    | some res => pure (some res)
    | none => first_ok call rest

/-- The copy that `Client::successor` sends: the same id, under its own header. -/
def forwarded (context : Node) (req : SuccessorRequest) : SuccessorRequest :=
  { req with header := some (make_header context) }

/-! ## Joining -/

/-- The router after `Client::join(const endpoint&)`: the entries of a response that has a
successor are learned, the successor first. -/
def joined (r : Router) : Option (Node × Node) → Router
  | none => r
  | some (succ, pred) => (r.update succ).update pred

/-! ## Stabilizing -/

/-- The rest of `Client::stabilize` after the call at `successor`, up to `notify()`: a failed
call, or a response with or without a predecessor. -/
def stabilize_reply (r : Router) (successor : Node) : Option (Option Node) → Router
  | none => r.remove successor.uuid
  | some none => r
  | some (some pred) => if between r.context.uuid pred.uuid successor.uuid then r.update pred else r

/-- The request of `Client::notify()`. -/
def notify_request (context : Node) : NotifyRequest := ⟨some (make_header context), none, none⟩

/-- The request of `Client::notify(target, old_node, new_node)`. -/
def notify_change (context old_node new_node : Node) : NotifyRequest :=
  ⟨some (make_header context), some old_node, some new_node⟩

/-! ## Checking -/

/-- `Client::check`: a predecessor that does not answer goes. -/
def check (ping : Node → Bool) (r : Router) : Router :=
  match r.predecessor, r.successor with
  | some predecessor, some _ => if ping predecessor then r else r.remove predecessor.uuid
  | _, _ => r

/-! ## Leaving -/

/-- The request of `inform_about_leave`: all fingers go along. -/
def leave_request (r : Router) : LeaveRequest := ⟨some (make_header r.context), r.get⟩

end Client

namespace ChordFacade

/-- The two nodes that `ChordFacade::join` dereferences for one of its notify calls. -/
def join_targets (r : Router) : Except Fault (Node × Node) := do
  let predecessor ← deref r.predecessor
  let successor ← deref r.successor
  .ok (predecessor, successor)

/-- The status of a join without failures: `join_failed` resets the router otherwise. -/
def joined_or_reset (r : Router) (status_pred status_succ : StatusCode) : Router :=
  if status_pred = .OK ∧ status_succ = .OK then r else r.reset

end ChordFacade

end Chord
