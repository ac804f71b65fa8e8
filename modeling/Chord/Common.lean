import Chord.Uuid

/-!
# Nodes and messages (`chord.node.h`, `chord.common.cc`, `chord.proto`)

A message carries `Node`s: `make_entry` and the one-argument `make_node` copy both fields.
-/

namespace Chord

/-- `host:port`, as a `std::string`. -/
abbrev Endpoint := List Char

structure Node where
  uuid : Uuid
  endpoint : Endpoint
  deriving DecidableEq

/-! ## Decoding a node with the address of the peer -/

/-- `std::string::rfind`. -/
def rfind (c : Char) : List Char → Option Nat
  | [] => none
  | x :: xs =>
    match rfind c xs with
    | some i => some (i + 1)
    | none => if x = c then some 0 else none

/-- `peer.substr(0, peer.rfind(':'))`. -/
def host_of (peer : Endpoint) : Endpoint :=
  match rfind ':' peer with
  | some pos => peer.take pos
  | none => peer

/-- `make_node(const grpc::ServerContext*, const RouterEntry&)`: the host is the peer's. -/
def make_node (peer : Endpoint) (entry : Node) : Node :=
  match rfind ':' entry.endpoint with
  | some pos => { entry with endpoint := host_of peer ++ [':'] ++ entry.endpoint.drop (pos + 1) }
  | none => entry

@[simp]
theorem make_node_uuid (peer : Endpoint) (entry : Node) : (make_node peer entry).uuid = entry.uuid := by
  unfold make_node; split <;> rfl

/-! ## Messages -/

structure Header where
  src : Option Node
  deriving DecidableEq

/-- `make_header(const Context&)`. -/
def make_header (context : Node) : Header := { src := some context }

/-- `source_of`, where `has_valid_header` holds. -/
def source_of (header : Option Header) : Option Node := header.bind Header.src

@[simp]
theorem source_of_make_header (context : Node) : source_of (some (make_header context)) = some context := rfl

structure JoinRequest where
  header : Option Header
  deriving DecidableEq

structure SuccessorRequest where
  header : Option Header
  id : Uuid
  deriving DecidableEq

structure NotifyRequest where
  header : Option Header
  old_node : Option Node
  new_node : Option Node
  deriving DecidableEq

structure LeaveRequest where
  header : Option Header
  entries : List Node
  deriving DecidableEq

/-- The `grpc::StatusCode`s of the routing layer. `UNAVAILABLE` is gRPC's own, for a peer
that does not answer. -/
inductive StatusCode where
  | OK
  | CANCELLED
  | UNAVAILABLE
  deriving DecidableEq

end Chord
