import Chord.Fs.Store
import Mathlib.Data.List.MinMax

/-!
# Requests between nodes (`chord.fs.service.cc`, `chord.fs.client.cc`)

A request runs on the stores of all nodes. Its result is `none` where the fuel is spent, or no
node is there to ask. `ChordFacade::successor` is that of a ring with exact pointers.
-/

open Circle

namespace Chord

namespace Fs

/-- `crypto::sha256` of a uri, and of the bytes of a file. -/
structure Sha256 where
  uri : Path → Uuid
  content : Bytes → Uuid

/-- The members of the ring, the nodes that answer calls, and the disks of all nodes. -/
structure World where
  ring : List Node
  up : List Node
  stores : Uuid → Store

namespace World

/-- `ChordFacade::successor(uuid)`: the first member after the uuid. -/
def successor (w : World) (id : Uuid) : Option Node := w.ring.argmin fun n => steps (id + 1) n.uuid

def set (w : World) (u : Uuid) (store : Store) : World :=
  { w with stores := Function.update w.stores u store }

end World

/-- The codes of `grpc::Status`. `UNKNOWN` is gRPC's own, for a handler that throws. -/
inductive StatusCode where
  | OK
  | CANCELLED
  | UNKNOWN
  | NOT_FOUND
  | ALREADY_EXISTS
  | FAILED_PRECONDITION
  | UNAVAILABLE
  deriving DecidableEq

def is_successful (status : StatusCode) : Prop := status = .OK ∨ status = .ALREADY_EXISTS

instance (status : StatusCode) : Decidable (is_successful status) := inferInstanceAs (Decidable (_ ∨ _))

structure Options where
  replication : Replication := .NONE
  source : Option Uuid := none
  rebalance : Bool := false

def init_source (self : Node) (o : Options) : Options :=
  { o with source := some (o.source.getD self.uuid) }

def clear_source (o : Options) : Options := { o with source := none }

abbrev Reply := Option (World × StatusCode)

/-- A call whose status nobody reads. -/
def ignored (reply : Reply) : Option World := reply.map Prod.fst

section

variable (sha : Sha256)

/-! ## `meta` -/

/-- `handle_meta_add`: the entry, then its parent, then the copies. -/
def meta_add : Nat → World → Node → Path → MetaSet → Options → Reply
  | 0, _, _, _, _, _ => none
  | fuel + 1, w, self, uri, records, options =>
    let metadata := MetaSet.of_list (records.map Metadata.sent)
    let store := w.stores self.uuid
    if self ∉ w.up then some (w, .UNAVAILABLE)
    else if options.source = some self.uuid then some (w, .ALREADY_EXISTS)
    else if metadata = [] then some (w, .NOT_FOUND)
    else if ∃ existing ∈ store.metadata.lookup uri, MetaSet.equal_basic existing metadata then
      some (w, .ALREADY_EXISTS)
    else do
      let entry := if is_mkdir uri metadata then [MetaSet.create_directory metadata ['.']] else metadata
      let w := w.set self.uuid { store with metadata := (store.metadata.add uri entry).1 }
      let w ←
        if (store.metadata.add uri entry).2 ∧ parent_path uri ≠ uri ∧
            (MetaSet.max_replication metadata).index = 0 then do
          let node ← w.successor (sha.uri (parent_path uri))
          ignored (meta_add fuel w node (parent_path uri) [MetaSet.create_directory metadata (filename uri)]
            options)
        else some w
      let next := MetaSet.increase_replication_and_clean metadata
      let w ←
        if next ≠ [] then do
          let node ← w.successor self.uuid
          ignored (meta_add fuel w node uri next (init_source self options))
        else some w
      some (w, .OK)

/-- `handle_meta_dir`, and what the client reads of the response. -/
def meta_dir (w : World) (self : Node) (uri : Path) : StatusCode × MetaSet :=
  if self ∉ w.up then (.UNAVAILABLE, [])
  else
    match (w.stores self.uuid).metadata.lookup uri with
    | none => (.NOT_FOUND, [])
    | some metadata => (.OK, MetaSet.of_list (metadata.map Metadata.answered))

/-- `handle_meta_del`. -/
def meta_del : Nat → World → Node → Path → MetaSet → Options → Reply
  | 0, _, _, _, _, _ => none
  | fuel + 1, w, self, uri, records, options =>
    let metadata := MetaSet.of_list (records.map Metadata.sent)
    let store := w.stores self.uuid
    if self ∉ w.up then some (w, .UNAVAILABLE)
    else if options.source = some self.uuid then some (w, .ALREADY_EXISTS)
    else if metadata = [] then some (w, .NOT_FOUND)
    else
      match store.metadata.remove uri metadata with
      | none => some (w, .NOT_FOUND)
      | some (left, deleted) => do
        let w := w.set self.uuid { store with metadata := left }
        let next := MetaSet.increase_replication_and_clean deleted
        let w ←
          if ¬ MetaSet.is_empty next then do
            let node ← w.successor self.uuid
            ignored (meta_del fuel w node uri next (init_source self options))
          else some w
        some (w, .OK)

/-! ## `del` -/

abbrev DelCall := World → Node → Path → Bool → Options → Reply

/-- `handle_del_file`: the entry, the file of a reference, the local file, the next copy, and
the name in the parent. -/
def handle_del_file (fuel : Nat) (del : DelCall) (w : World) (self : Node) (uri : Path) (metadata : MetaSet)
    (recursive : Bool) (options : Options) : Reply := do
  let store := w.stores self.uuid
  let w := w.set self.uuid { store with metadata := store.metadata.erase uri }
  let w ←
    match (metadata.find? fun m => m.name = filename uri).bind Metadata.node_ref with
    | some node =>
      if node ≠ self then ignored (del w node uri recursive (init_source self options)) else some w
    | none => some w
  let store := w.stores self.uuid
  match store.files.remove uri with
  | none => some (w, .UNKNOWN)
  | some files =>
    let w := w.set self.uuid { store with files := files }
    let max_repl := MetaSet.max_replication metadata
    let w ←
      if max_repl.active ∧ max_repl.has_next then do
        let node ← w.successor self.uuid
        if node ≠ self then ignored (del w node uri recursive (init_source self options)) else some w
      else some w
    let w ←
      if options.source = none then do
        let node ← w.successor (sha.uri (parent_path uri))
        ignored (meta_del fuel w node (parent_path uri) metadata (clear_source options))
      else some w
    some (w, .OK)

/-- `handle_del_recursive`: it ends with the first failure. -/
def handle_del_recursive (del : DelCall) (uri : Path) (recursive : Bool) (options : Options) :
    MetaSet → World → Reply
  | [], w => some (w, .OK)
  | m :: metadata, w =>
    if m.is_directory then handle_del_recursive del uri recursive options metadata w
    else do
      let node ← w.successor (sha.uri (uri ++ [m.name]))
      let (w, status) ← del w node (uri ++ [m.name]) recursive (clear_source options)
      if is_successful status then handle_del_recursive del uri recursive options metadata w
      else some (w, status)

def handle_del_dir (fuel : Nat) (del : DelCall) (w : World) (self : Node) (uri : Path) (metadata : MetaSet)
    (recursive : Bool) (options : Options) : Reply := do
  let files := (w.stores self.uuid).files
  if files.lookup uri = some .directory ∧ ¬ files.is_empty uri ∧ ¬ recursive then
    some (w, .FAILED_PRECONDITION)
  else
    let w ←
      if ¬ files.is_empty uri ∧ recursive then
        ignored (handle_del_recursive sha del uri recursive options metadata w)
      else some w
    let store := w.stores self.uuid
    match store.metadata.lookup uri with
    | none => some (w, .UNKNOWN)
    | some deleted =>
      let w := w.set self.uuid { store with metadata := store.metadata.erase uri }
      let w ←
        if (MetaSet.max_replication deleted).next.active then do
          let node ← w.successor self.uuid
          if node ≠ self then ignored (del w node uri recursive (init_source self options)) else some w
        else some w
      let store := w.stores self.uuid
      let w :=
        if store.files.is_empty uri then w.set self.uuid { store with files := store.files.erase uri } else w
      let w ←
        if options.source = none ∧ parent_path uri ≠ uri then do
          let node ← w.successor (sha.uri (parent_path uri))
          ignored (meta_del fuel w node (parent_path uri) [MetaSet.directory_record (filename uri)]
            (clear_source options))
        else some w
      some (w, .OK)

/-- `Service::del`. A file without an entry was a shallow copy. -/
def del : Nat → DelCall
  | 0, _, _, _, _, _ => none
  | fuel + 1, w, self, uri, recursive, options =>
    let store := w.stores self.uuid
    if self ∉ w.up then some (w, .UNAVAILABLE)
    else if options.source = some self.uuid then some (w, .ALREADY_EXISTS)
    else
      match store.metadata.lookup uri with
      | none =>
        if store.files.is_regular_file uri then
          some (w.set self.uuid { store with files := store.files.erase uri }, .OK)
        else some (w, .UNKNOWN)
      | some metadata =>
        match metadata.find? fun m => m.name = filename uri ∨ m.is_directory with
        | none => some (w, .NOT_FOUND)
        | some element =>
          if element.file_type = .directory then
            handle_del_dir sha fuel (del fuel) w self uri metadata recursive options
          else handle_del_file sha fuel (del fuel) w self uri metadata recursive options

/-! ## `put` -/

/-- The record that `MetadataBuilder::for_path` makes of a regular file. -/
def file_record (uri : Path) (bytes : Bytes) (replication : Replication) : Metadata :=
  { name := filename uri, owner := [], group := [], permissions := 0o777, file_type := .regular,
    file_size := bytes.length, file_hash := some (sha.content bytes), node_ref := none,
    replication := replication }

def file_hashes_equal (store : Store) (uri : Path) (hash : Uuid) : Prop :=
  ∃ metadata ∈ store.metadata.lookup uri, MetaSet.is_regular_file metadata ∧
    ∀ m ∈ metadata.head?, m.file_hash = some hash

instance (store : Store) (uri : Path) (hash : Uuid) : Decidable (file_hashes_equal store uri hash) :=
  inferInstanceAs (Decidable (∃ metadata ∈ store.metadata.lookup uri, _ ∧ _))

/-- The part of `put` that `ios_base::failure` ends: the files after it, and whether it went well. -/
def receive (store : Store) (uri : Path) (bytes : Bytes) (files : Files) : Files × Bool :=
  let files := if files.exists_at uri then files else files.create_file uri
  if file_hashes_equal store uri (sha.content bytes) then (files, true)
  else
    match files.write uri bytes with
    | none => (files, false)
    | some files => (files, true)

/-- The records that `put` sends to the parent. -/
def parent_listing (record : Metadata) : MetaSet :=
  let listing := MetaSet.insert (MetaSet.create_directory [record] ['.']) [record]
  MetaSet.insert (MetaSet.create_directory listing ['.', '.']) listing

/-- `Client::put` to a node. -/
def client_put (put : World → Node → Path → Bytes → Options → Reply) (self : Node) (w : World) (node : Node)
    (uri : Path) (bytes : Bytes) (options : Options) : Reply :=
  if node = self ∧ options.source = some self.uuid then some (w, .ALREADY_EXISTS)
  else put w node uri bytes options

/-- `Service::put`: the file, its record, the parent, the next copy, and after the last copy of a
rebalanced file the one that is too much. -/
def put : Nat → World → Node → Path → Bytes → Options → Reply
  | 0, _, _, _, _, _ => none
  | fuel + 1, w, self, uri, bytes, options =>
    let store := w.stores self.uuid
    if self ∉ w.up then some (w, .UNAVAILABLE)
    else if options.source = some self.uuid then some (w, .ALREADY_EXISTS)
    else
      match if store.files.exists_at (parent_path uri) then some store.files
        else store.files.create_directories (parent_path uri) with
      | none => some (w, .UNKNOWN)
      | some files =>
        match receive sha store uri bytes files with
        | (files, false) => some (w.set self.uuid { store with files := files }, .CANCELLED)
        | (files, true) =>
          match files.lookup uri with
          | some (.regular stored) => do
            let record := file_record sha uri stored options.replication
            let w := w.set self.uuid
              { store with files := files, metadata := (store.metadata.add uri [record]).1 }
            let w ←
              if options.replication.index = 0 then do
                let node ← w.successor (sha.uri (parent_path uri))
                ignored (meta_add sha fuel w node (parent_path uri) (parent_listing record) options)
              else some w
            let w ←
              if options.replication.next.active then do
                let node ← w.successor self.uuid
                ignored (client_put (put fuel) self w node uri stored
                  (init_source self { options with replication := options.replication.next }))
              else some w
            let w ←
              if options.rebalance ∧ ¬ options.replication.has_next then do
                let node ← w.successor self.uuid
                let owner ← w.successor (sha.uri uri)
                if node ≠ owner then ignored (del sha fuel w node uri false (init_source self options))
                  else some w
              else some w
            some (w, .OK)
          | _ => some (w.set self.uuid { store with files := files }, .UNKNOWN)

end

end Fs

end Chord
