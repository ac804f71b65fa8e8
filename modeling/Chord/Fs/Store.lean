import Chord.Fs.Metadata
import Mathlib.Data.List.AList
import Mathlib.Data.List.Sort

/-!
# What one node stores (`chord.file.cc`, `chord.fs.metadata.manager.h`)

The data directory with its files and directories, and the database of records.
-/

namespace Chord

namespace Fs

/-! ## Paths -/

/-- The components of an absolute canonical path; `/` has none. -/
abbrev Path := List Name

def parent_path (p : Path) : Path := p.dropLast

def filename (p : Path) : Name := p.getLastD []

/-- No `.`, no `..` and no empty component, and not the root. -/
def FilePath (p : Path) : Prop := p ≠ [] ∧ ∀ n ∈ p, n ≠ [] ∧ n ≠ ['.'] ∧ n ≠ ['.', '.']

def is_mkdir (uri : Path) : MetaSet → Prop
  | [m] => m.file_type = .directory ∧ m.name = filename uri
  | _ => False

instance (uri : Path) : (s : MetaSet) → Decidable (is_mkdir uri s)
  | [] => inferInstanceAs (Decidable False)
  | [_] => inferInstanceAs (Decidable (_ ∧ _))
  | _ :: _ :: _ => inferInstanceAs (Decidable False)

/-! ## The data directory -/

abbrev Bytes := List UInt8

inductive Entry where
  | regular (bytes : Bytes)
  | directory
  deriving DecidableEq

abbrev Files := AList (fun _ : Path => Entry)

namespace Files

def exists_at (files : Files) (p : Path) : Prop := p ∈ files

instance (files : Files) (p : Path) : Decidable (files.exists_at p) := inferInstanceAs (Decidable (p ∈ files))

def is_regular_file (files : Files) (p : Path) : Bool :=
  match files.lookup p with
  | some (.regular _) => true
  | _ => false

/-- `fs::create_directories`: `none` where a component is a regular file. -/
def create_each (files : Files) : List Path → Option Files
  | [] => some files
  | d :: ds =>
    match files.lookup d with
    | none => create_each (files.insert d .directory) ds
    | some .directory => create_each files ds
    | some (.regular _) => none

def create_directories (files : Files) (p : Path) : Option Files := create_each files p.inits

/-- `create_file`: an `ofstream` that reports no error. -/
def create_file (files : Files) (p : Path) : Files :=
  if files.lookup (parent_path p) = some .directory then files.insert p (.regular []) else files

/-- Opening a file for writing, and the bytes that are written: `none` for `ios_base::failure`. -/
def write (files : Files) (p : Path) (bytes : Bytes) : Option Files :=
  match files.lookup p with
  | some (.regular _) => some (files.insert p (.regular bytes))
  | _ => none

def is_empty (files : Files) (p : Path) : Bool :=
  match files.lookup p with
  | some (.regular bytes) => bytes.isEmpty
  | some .directory => files.keys.all fun q => q = p ∨ parent_path q ≠ p
  | none => false

/-- `fs::remove`: `none` for a directory with contents. -/
def remove (files : Files) (p : Path) : Option Files :=
  match files.lookup p with
  | some .directory => if files.is_empty p then some (files.erase p) else none
  | _ => some (files.erase p)

end Files

/-! ## The database -/

abbrev MetaStore := AList (fun _ : Path => MetaSet)

namespace MetaStore

/-- `__add`, and whether a name is new. -/
def add (store : MetaStore) (uri : Path) (metadata : MetaSet) : MetaStore × Bool :=
  let old := (store.lookup uri).getD []
  let current := metadata.foldl (fun s m => MetaSet.insert_or_assign m s) old
  let added := ∃ m ∈ metadata, m.name ∉ old.map Metadata.name
  let current :=
    if ['.'] ∈ current.map Metadata.name then
      MetaSet.insert_or_assign (MetaSet.create_directory metadata ['.', '.'])
        (MetaSet.insert_or_assign (MetaSet.create_directory metadata ['.']) current)
    else current
  (store.insert uri current, added)

/-- `del(directory, metadata)`: `none` where there is no entry. The value of a name that is not
there is a default one. -/
def remove (store : MetaStore) (uri : Path) (metadata : MetaSet) : Option (MetaStore × MetaSet) :=
  (store.lookup uri).map fun current =>
    let removed := metadata.map fun m =>
      (current.find? fun x => x.name = m.name).getD { MetaSet.directory_record [] with file_type := .none }
    (store.insert uri (current.filter fun x => x.name ∉ metadata.map Metadata.name), MetaSet.of_list removed)

/-- `uri_descending`: more slashes first, then the larger text. -/
def text (p : Path) : List Char := if p = [] then ['/'] else p.flatMap fun n => '/' :: n

def slashes (p : Path) : Nat := (text p).count '/'

def uri_descending (a b : Path) : Prop :=
  if slashes a ≠ slashes b then slashes b < slashes a else ¬ text a < text b

instance : DecidableRel uri_descending := fun a b =>
  inferInstanceAs (Decidable (if slashes a ≠ slashes b then slashes b < slashes a else ¬ text a < text b))

def get_all (store : MetaStore) : List (Path × MetaSet) :=
  (store.keys.insertionSort uri_descending).filterMap fun p => (store.lookup p).map fun s => (p, s)

end MetaStore

/-! ## One node -/

structure Store where
  files : Files
  metadata : MetaStore
  journal : AList (fun _ : Path => Bytes)
  /-- `context.replication_cnt`. -/
  replication_cnt : UInt32

/-- A database with its root, and an empty data directory. -/
def Store.fresh (replication_cnt : UInt32) : Store where
  files := (∅ : Files).insert [] .directory
  metadata := (MetaStore.add ∅ [] [{ MetaSet.directory_record ['.'] with permissions := 0o777 }]).1
  journal := ∅
  replication_cnt := replication_cnt

end Fs

end Chord
