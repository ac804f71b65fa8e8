import Chord.Fs.Service

/-!
# Reading a file (`Service::get`, `Client::get`)

A node without the file opens an empty one, asks another node and writes what it gets. The node
it asks may have to do the same first. A state has the nodes that wait, the last one first, and
what is under way: a request, or the answer to the last node that waits.
-/

namespace Chord

namespace Fs

namespace Files

/-- `ofstream::open`: the file is there and is empty; `none` for `ios_base::failure`. -/
def truncate (files : Files) (p : Path) : Option Files :=
  match files.lookup p with
  | some (.regular _) => some (files.insert p (.regular []))
  | some .directory => none
  | none =>
    if files.lookup (parent_path p) = some .directory then some (files.insert p (.regular [])) else none

/-- `fs::create_directories(p.parent_path())`, which does nothing on a directory. -/
def create_parent (files : Files) (p : Path) : Option Files :=
  if files.lookup p = some .directory ∨ files.lookup (parent_path p) = some .directory then some files
  else files.create_directories (parent_path p)

end Files

namespace Get

/-- The status of a `get`, with the stream if it is `OK`. -/
inductive Answer where
  | failed
  | streamed (bytes : Bytes)
  deriving DecidableEq

/-- A stream arrives, or ends with an error after its first bytes. -/
inductive Transfer where
  | complete
  | broken (delivered : Nat)

/-- What the caller has of the stream, and whether `reader->Finish()` is `OK`. -/
def received : Answer → Transfer → Bytes × Bool
  | .failed, _ => ([], false)
  | .streamed bytes, .complete => (bytes, true)
  | .streamed bytes, .broken delivered => (bytes.take delivered, false)

/-- What a node waits for: the node of a record, with the records after it, or its successor. -/
inductive Source where
  | reference (m : Metadata) (node : Node) (rest : List Metadata)
  | replica

structure Frame where
  self : Node
  source : Source

inductive Control where
  | idle
  | call (node : Node)
  | answer (answer : Answer)

structure State where
  w : World
  frames : List Frame
  control : Control

variable (sha : Sha256) (uri : Path)

namespace State

def answer (σ : State) (a : Answer) : State := { σ with control := .answer a }

def set (σ : State) (u : Uuid) (store : Store) : State := { σ with w := σ.w.set u store }

/-- `Client::get(uri, node, path)`. -/
def ask (σ : State) (self : Node) (source : Source) (node : Node) : State :=
  let store := σ.w.stores self.uuid
  match store.files.truncate uri with
  | none => σ.answer .failed
  | some files => ⟨σ.w.set self.uuid { store with files := files }, ⟨self, source⟩ :: σ.frames, .call node⟩

def ask_replica (σ : State) (self : Node) : State :=
  match σ.w.successor self.uuid with
  | none => σ.answer .failed
  | some successor => σ.ask uri self .replica successor

/-- The loop over the records, to the next node that is asked. -/
def get_from_reference_or_replication (self : Node) : List Metadata → State → State
  | [], σ => σ.answer .failed
  | m :: metadata_set, σ =>
    let store := σ.w.stores self.uuid
    match store.files.create_parent uri with
    | none => σ.answer .failed
    | some files =>
      let σ := σ.set self.uuid { store with files := files }
      match m.node_ref with
      | some node_ref => σ.ask uri self (.reference m node_ref metadata_set) node_ref
      | none =>
        if m.replication.active then σ.ask_replica uri self
        else get_from_reference_or_replication self metadata_set σ

/-- The local file is streamed. -/
def stream (σ : State) (self : Node) : State :=
  match (σ.w.stores self.uuid).files.lookup uri with
  | some (.regular bytes) => σ.answer (.streamed bytes)
  | _ => σ.answer .failed

/-- `Service::get`. -/
def get (σ : State) (self : Node) : State :=
  let store := σ.w.stores self.uuid
  if self ∉ σ.w.up then σ.answer .failed
  else if store.files.exists_at uri then σ.stream uri self
  else
    match store.metadata.lookup uri with
    | none => σ.answer .failed
    | some metadata_set => σ.get_from_reference_or_replication uri self metadata_set

/-- The node goes on when the answer is there. -/
def resume (fuel : Nat) (σ : State) (frame : Frame) (answer : Answer) (transfer : Transfer) : Option State :=
  let self := frame.self
  let store := σ.w.stores self.uuid
  let (bytes, ok) := received answer transfer
  let store := { store with files := (store.files.write uri bytes).getD store.files }
  let σ := σ.set self.uuid store
  match frame.source with
  | .replica => some (if ok then σ.stream uri self else σ.answer .failed)
  | .reference m node_ref rest =>
    if ok then do
      let data := match store.files.lookup uri with
        | some (.regular data) => data
        | _ => []
      let m := { m with node_ref := none, file_hash := some (sha.content data) }
      let w := σ.w.set self.uuid { store with metadata := (store.metadata.add uri [m]).1 }
      let (w, status) ← del sha fuel w node_ref uri false {}
      let σ := { σ with w := w }
      some (if status = .OK then σ.stream uri self else σ.answer .failed)
    else if m.replication.active then some (σ.ask_replica uri self)
    else some (σ.get_from_reference_or_replication uri self rest)

end State

/-! ## Runs -/

/-- What happens next: a request of a client, a call that arrives, an answer that arrives or
breaks off, other nodes that can be reached, and a local file that is lost. -/
inductive Event where
  | request (node : Node)
  | call
  | transfer (transfer : Transfer) (fuel : Nat)
  | outage (up : List Node)
  | loss (u : Uuid)

def step (σ : State) : Event → Option State
  | .request node =>
    match σ.control with
    | .idle => some { σ with control := .call node }
    | _ => none
  | .call =>
    match σ.control with
    | .call node => some (σ.get uri node)
    | _ => none
  | .transfer transfer fuel =>
    match σ.control with
    | .answer answer =>
      match σ.frames with
      | [] => some { σ with control := .idle }
      | frame :: frames => { σ with frames := frames }.resume sha uri fuel frame answer transfer
    | _ => none
  | .outage up => some { σ with w := { σ.w with up := up } }
  | .loss u =>
    let store := σ.w.stores u
    if store.files.is_regular_file uri then some (σ.set u { store with files := store.files.erase uri })
      else none

/-- The states that events lead to, each of which met the state before it. -/
inductive Run (ok : State → Event → Prop) : State → State → Prop
  | refl (σ : State) : Run ok σ σ
  | step {σ σ' σ'' : State} (e : Event) : Run ok σ σ' → ok σ' e → step sha uri σ' e = some σ'' → Run ok σ σ''

/-- Executes events one after the other. -/
def execute : State → List Event → Option State
  | σ, [] => some σ
  | σ, e :: es => do
    let σ ← step sha uri σ e
    execute σ es

theorem run_execute {es : List Event} {σ σ' σ'' : State} (hrun : Run sha uri (fun _ _ => True) σ σ')
    (h : execute sha uri σ' es = some σ'') : Run sha uri (fun _ _ => True) σ σ'' := by
  induction es generalizing σ' with
  | nil =>
    cases h
    exact hrun
  | cons e es ih =>
    obtain ⟨next, hstep, hrest⟩ := Option.bind_eq_some_iff.mp h
    exact ih (hrun.step e trivial hstep) hrest

end Get

end Fs

end Chord
