import Chord.Fs.Service

/-!
# Rebalancing (`chord.fs.facade.cc`)

A callback runs on the disk of one node, under its context: a leaving node has the uuid of its
predecessor in it. The result is `none` where an exception leaves the callback.
-/

namespace Chord

namespace Fs

inductive RebalanceEvent where
  | JOIN
  | PREDECESSOR_FAIL
  | PREDECESSOR_UPDATE
  | LEAVE
  deriving DecidableEq

/-- Who calls, and whose disk it is. -/
structure Peer where
  context : Node
  disk : Uuid

def Peer.of (n : Node) : Peer := ⟨n, n.uuid⟩

section

variable (sha : Sha256)

/-! ## `rebalance` -/

/-- The records that `rebalance_metadata` sends. -/
def referenced (self : Node) (shallow_copy : Bool) (metadata : MetaSet) : MetaSet :=
  if shallow_copy then metadata.map fun m => { m with node_ref := some (m.node_ref.getD self) } else metadata

def rebalance_metadata (fuel : Nat) (self : Peer) (w : World) (uri : Path) (shallow_copy : Bool) :
    Option World := do
  let store := w.stores self.disk
  let metadata ← store.metadata.lookup uri
  let w := w.set self.disk { store with metadata := store.metadata.erase uri }
  let deleted := referenced self.context shallow_copy metadata
  let node ← w.successor (sha.uri uri)
  let (w, status) ← meta_add sha fuel w node uri deleted {}
  let store := w.stores self.disk
  if status = .ALREADY_EXISTS then
    if MetaSet.is_regular_file deleted then do
      let files ← store.files.remove uri
      some (w.set self.disk { store with files := files })
    else some w
  else if status ≠ .OK then
    some (w.set self.disk { store with metadata := (store.metadata.add uri deleted).1 })
  else some w

/-- What is read from a path: a stream on a directory has no bytes. -/
def Entry.bytes : Entry → Bytes
  | .regular bytes => bytes
  | .directory => []

/-- One turn of the loop of `rebalance`. -/
def rebalance_uri (fuel : Nat) (event : RebalanceEvent) (self : Peer) (w : World) (entry : Path × MetaSet) :
    Option World :=
  let (uri, metadata) := entry
  let store := w.stores self.disk
  let shallow_copyable : Bool := event ≠ .LEAVE ∧ MetaSet.is_shallow_copyable self.context metadata
  if MetaSet.is_directory metadata ∨
      (¬ store.files.is_regular_file uri ∧ MetaSet.is_shallow_copy self.context metadata) ∨
        shallow_copyable then
    rebalance_metadata sha fuel self w uri shallow_copyable
  else
    match store.files.lookup uri with
    | none => some w
    | some data => do
      let replication := { (metadata.head?.elim .NONE Metadata.replication) with index := 0 }
      let node ← w.successor (sha.uri uri)
      ignored (client_put (put sha fuel) self.context w node uri data.bytes
        { replication := replication, rebalance := true })

def rebalance (fuel : Nat) (event : RebalanceEvent) (self : Peer) (w : World)
    (metadata : List (Path × MetaSet)) : Option World :=
  metadata.foldlM (rebalance_uri sha fuel event self) w

/-! ## `initialize` -/

/-- `Client::dir`. -/
def dir (w : World) (uri : Path) : Option (StatusCode × MetaSet) :=
  (w.successor (sha.uri uri)).map fun node => meta_dir w node uri

/-- `Facade::del`. -/
def facade_del (fuel : Nat) (w : World) (uri : Path) (recursive : Bool) : Reply := do
  let node ← w.successor (sha.uri uri)
  del sha fuel w node uri recursive {}

/-- `put_file`. -/
def put_file (fuel : Nat) (self : Peer) (w : World) (uri : Path) (bytes : Bytes) (replication : Replication) :
    Reply := do
  let node ← w.successor (sha.uri uri)
  client_put (put sha fuel) self.context w node uri bytes { replication := replication }

/-- `MetadataBuilder::directory(uri, repl)`. -/
def directory (uri : Path) (replication : Replication) : Metadata :=
  { MetaSet.directory_record (filename uri) with permissions := 0o777, replication := replication }

/-- `Facade::mkdir`. -/
def mkdir (fuel : Nat) (w : World) (uri : Path) (replication : Replication) : Reply := do
  let node ← w.successor (sha.uri uri)
  meta_add sha fuel w node uri [directory uri replication] {}

/-- `put_file_journal`, with the `put` of one file in it. -/
def put_file_journal (fuel : Nat) (self : Peer) (w : World) (uri : Path) (bytes : Bytes) : Option World := do
  let store := w.stores self.disk
  let w := w.set self.disk
    { store with files := store.files.erase uri, journal := store.journal.insert uri bytes }
  let (status, metadata) ← dir sha w uri
  let target ←
    if status = .NOT_FOUND then some uri
    else if status = .OK then some (if MetaSet.is_directory metadata then uri ++ [filename uri] else uri)
    else none
  let (w, status) ← put_file sha fuel self w target bytes ⟨0, store.replication_cnt⟩
  let store := w.stores self.disk
  some (if status = .OK then w.set self.disk { store with journal := store.journal.erase uri } else w)

/-- The first loop of `initialize`: an entry whose file is not there is deleted. -/
def untrack (fuel : Nat) (self : Peer) (w : World) (entry : Path × MetaSet) : Option World :=
  let (uri, metadata) := entry
  if MetaSet.is_shallow_copy self.context metadata ∨ (w.stores self.disk).files.exists_at uri then some w
  else do
    let (status, records) ← dir sha w uri
    if status = .NOT_FOUND ∨ ¬ MetaSet.is_shallow_copy self.context records then
      ignored (facade_del sha fuel w uri true)
    else some w

/-- The second loop: a file without an entry is put. -/
def track (fuel : Nat) (self : Peer) (metadata : List (Path × MetaSet)) (w : World) (uri : Path) :
    Option World :=
  match (w.stores self.disk).files.lookup uri with
  | some (.regular bytes) =>
    if uri ∈ metadata.map Prod.fst then some w else put_file_journal sha fuel self w uri bytes
  | _ => some w

def initialize_data (fuel : Nat) (self : Peer) (w : World) (metadata : List (Path × MetaSet)) :
    Option World := do
  let w ← metadata.foldlM (untrack sha fuel self) w
  let files := (w.stores self.disk).files
  if files.exists_at [] then files.keys.foldlM (track sha fuel self metadata) w else some w

/-! ## The callbacks -/

def on_join (fuel : Nat) (self : Peer) (w : World) : Option World :=
  rebalance sha fuel .JOIN self w (w.stores self.disk).metadata.get_all

def on_predecessor_update (fuel : Nat) (self : Peer) (from_node to_node : Node) (w : World) :
    Option World := do
  let metadata := (w.stores self.disk).metadata.get_all
  let w ← rebalance sha fuel .PREDECESSOR_UPDATE self w metadata
  if from_node = self.context ∧ to_node ≠ self.context then initialize_data sha fuel self w metadata
    else some w

def on_leave (fuel : Nat) (self : Peer) (predecessor : Node) (w : World) : Option World :=
  if predecessor = self.context then some w
  else rebalance sha fuel .LEAVE self w (w.stores self.disk).metadata.get_all

end

end Fs

end Chord
