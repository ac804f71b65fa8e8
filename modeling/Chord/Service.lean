import Chord.Router

/-!
# The handlers of one node (`chord.service.cc`)

A handler reads and returns the router. Where it calls its client, it says so, and
`Network.lean` makes the call. Reading through an empty `std::optional` is a `Fault`.
-/

namespace Chord

inductive Fault where
  | null_deref
  deriving DecidableEq

/-- `operator->` of `std::optional`. -/
def deref {α : Type} : Option α → Except Fault α
  | some a => .ok a
  | none => .error .null_deref

@[simp]
theorem deref_some {α : Type} (a : α) : deref (some a) = .ok a := rfl

@[simp]
theorem deref_none {α : Type} : deref (none : Option α) = .error .null_deref := rfl

@[simp]
theorem ok_bind {α β : Type} (a : α) (f : α → Except Fault β) : (Except.ok a >>= f) = f a := rfl

@[simp]
theorem error_bind {α β : Type} (e : Fault) (f : α → Except Fault β) :
    (Except.error e >>= f) = .error e := rfl

namespace Service

/-! ## `join` -/

/-- What `join` does with a request: a status, an answer, or `client->join(req, res)`. -/
inductive JoinAction where
  | reply (status : StatusCode)
  | answer (successor predecessor : Node)
  | forward
  deriving DecidableEq

/-- The value of a message entry that nobody filled in. -/
def empty_entry : Node := ⟨0, []⟩

/-- The joining node is pinged, and its request goes on whatever the ping says. -/
def join (r : Router) (req : JoinRequest) : Except Fault JoinAction :=
  match source_of req.header with
  | none => .ok (.reply .CANCELLED)
  | some node =>
    let src := node.uuid
    let self := r.context.uuid
    let succ := r.successor_or_self
    if ∃ pred ∈ r.predecessor, ¬ between self src succ.uuid ∧ ¬ between pred.uuid src self then .ok .forward
    else if between self src succ.uuid then .ok (.answer succ r.context)
    else do
      let pred ← deref r.predecessor
      if between pred.uuid src self then .ok (.answer r.context pred)
      else .ok (.answer empty_entry empty_entry)

/-! ## `successor` -/

/-- The loop at the start of `successor`: a dead successor goes, and the next one is pinged. -/
def live_loop (ping : Node → Bool) : Nat → Router → Option Router
  | 0, _ => none
  | fuel + 1, r =>
    if ping r.successor_or_self then some r
    else live_loop ping fuel (r.remove r.successor_or_self.uuid)

/-- What `successor` does with a request: a status, an answer, or `client->successor(req, res)`. -/
inductive SuccessorAction where
  | reply (status : StatusCode)
  | answer (successor : Node)
  | forward
  deriving DecidableEq

def successor (ping : Node → Bool) (fuel : Nat) (r : Router) (req : SuccessorRequest) :
    Option (Router × SuccessorAction) :=
  match source_of req.header with
  | none => some (r, .reply .CANCELLED)
  | some source =>
    (live_loop ping fuel (r.update source)).map fun r =>
      if req.id = r.context.uuid ∨ between r.context.uuid req.id r.successor_or_self.uuid then
        (r, .answer r.successor_or_self)
      else (r, .forward)

/-! ## `stabilize` -/

/-- The predecessor entry of the response. The source of the request is not recorded. -/
def stabilize (r : Router) : Option Node := r.predecessor

/-! ## `leave` -/

def leave (r : Router) (peer : Endpoint) (req : LeaveRequest) : StatusCode × Router :=
  match source_of req.header with
  | none => (.CANCELLED, r)
  | some leaving_node =>
    (.OK, (req.entries.map (make_node peer)).foldl Router.update (r.remove leaving_node.uuid))

/-! ## `notify` -/

structure NotifyResult where
  status : StatusCode
  router : Router
  /-- The arguments of `event_predecessor_update`, where it fires. -/
  event : Option (Node × Node)

/-- The test that sets `changed_predecessor`. -/
def changed_predecessor (r : Router) (source : Node) : Except Fault Bool :=
  match r.predecessor with
  | none => .ok true
  | some predecessor =>
    if predecessor ≠ source then do
      let successor ← deref r.successor
      .ok (between source.uuid r.context.uuid successor.uuid)
    else .ok false

/-- The records of a notify request, in the order of their updates. -/
def notify_records (peer : Endpoint) (source : Node) (req : NotifyRequest) : List Node :=
  match req.old_node, req.new_node with
  | some old_node, some new_node => [source, make_node peer old_node, make_node peer new_node]
  | _, _ => [source]

def notify (r : Router) (peer : Endpoint) (req : NotifyRequest) : Except Fault NotifyResult :=
  match source_of req.header with
  | none => .ok ⟨.CANCELLED, r, none⟩
  | some source =>
    if source = r.context then .ok ⟨.CANCELLED, r, none⟩
    else do
      let changed ← changed_predecessor r source
      .ok {
        status := .OK
        router := (notify_records peer source req).foldl Router.update r
        event := if changed then some (r.predecessor.getD r.context, source) else none }

/-! ## `fix_fingers` -/

/-- What `fix_fingers` does with the answer of its own `successor` call. -/
def fix_finger (r : Router) (index : Nat) (succ : Node) : Router :=
  if succ = r.context then r.remove (calc_successor_uuid_for_index r.context.uuid index)
  else r.update succ

end Service

end Chord
