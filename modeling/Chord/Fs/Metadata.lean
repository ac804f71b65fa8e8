import Chord.Common

/-!
# Records of files and directories (`chord.fs.metadata.cc`, `chord.fs.replication.cc`)

A `std::set<Metadata>` is the list of its records, in the order of their names.
-/

namespace Chord

namespace Fs

/-! ## Replication -/

structure Replication where
  index : UInt32
  count : UInt32
  deriving DecidableEq

namespace Replication

def NONE : Replication := ⟨0, 1⟩

/-- `operator++`. -/
def next (r : Replication) : Replication := { r with index := r.index + 1 }

def has_next (r : Replication) : Prop := r.index + 1 < r.count

/-- `operator bool`. -/
def active (r : Replication) : Prop := r.index < r.count ∧ 1 < r.count

instance (r : Replication) : Decidable r.has_next := inferInstanceAs (Decidable (_ < _))

instance (r : Replication) : Decidable r.active := inferInstanceAs (Decidable (_ ∧ _))

end Replication

/-! ## One record -/

abbrev Name := List Char

inductive FileType where
  | none
  | not_found
  | regular
  | directory
  | unknown
  deriving DecidableEq

structure Metadata where
  name : Name
  owner : Name
  group : Name
  permissions : UInt32
  file_type : FileType
  file_size : Nat
  file_hash : Option Uuid
  node_ref : Option Node
  replication : Replication
  deriving DecidableEq

namespace Metadata

def compare_basic (m other : Metadata) : Prop :=
  m.name = other.name ∧ m.file_type = other.file_type ∧ m.file_hash = other.file_hash

instance (m other : Metadata) : Decidable (m.compare_basic other) := inferInstanceAs (Decidable (_ ∧ _))

/-- `operator==`. -/
def equal (m other : Metadata) : Prop :=
  m.compare_basic other ∧ m.node_ref = other.node_ref ∧ m.replication = other.replication

instance (m other : Metadata) : Decidable (m.equal other) := inferInstanceAs (Decidable (_ ∧ _))

def is_directory (m : Metadata) : Prop :=
  (m.name = ['.'] ∨ m.name = ['.', '.']) ∧ m.file_type = .directory

instance (m : Metadata) : Decidable m.is_directory := inferInstanceAs (Decidable (_ ∧ _))

/-- A record of a request after `Client::meta` and `MetadataBuilder::from`. -/
def sent (m : Metadata) : Metadata := { m with owner := [], group := [], file_size := 0 }

/-- A record of a response after `addMetadata` and `MetadataBuilder::from`. -/
def answered (m : Metadata) : Metadata :=
  { m with
    owner := []
    group := []
    node_ref := none
    replication := if m.replication.active then m.replication else ⟨0, 0⟩ }

end Metadata

/-! ## Sets of records -/

abbrev MetaSet := List Metadata

namespace MetaSet

/-- `insert_or_assign` of a map from names to records. -/
def insert_or_assign (m : Metadata) : MetaSet → MetaSet
  | [] => [m]
  | x :: s =>
    if m.name = x.name then m :: s
    else if m.name < x.name then m :: x :: s
    else x :: insert_or_assign m s

/-- `std::set::insert`: the record that is there stays. -/
def insert (m : Metadata) (s : MetaSet) : MetaSet :=
  if ∃ x ∈ s, x.name = m.name then s else insert_or_assign m s

/-- The records of a list, the first of every name. -/
def of_list (l : List Metadata) : MetaSet := l.foldl (fun s m => insert m s) []

def equal_basic : MetaSet → MetaSet → Prop
  | [], [] => True
  | m :: s, other :: t => m.compare_basic other ∧ equal_basic s t
  | _, _ => False

instance instDecidableEqualBasic : (s t : MetaSet) → Decidable (equal_basic s t)
  | [], [] => inferInstanceAs (Decidable True)
  | [], _ :: _ => inferInstanceAs (Decidable False)
  | _ :: _, [] => inferInstanceAs (Decidable False)
  | m :: s, other :: t =>
    have := instDecidableEqualBasic s t
    inferInstanceAs (Decidable (m.compare_basic other ∧ equal_basic s t))

/-- The replication of the first record with the largest count. -/
def max_replication : MetaSet → Replication
  | [] => .NONE
  | m :: s =>
    (s.foldl (fun best x => if best.replication.count < x.replication.count then x else best) m).replication

def max_replication_index_zero (s : MetaSet) : Replication :=
  if (max_replication s).active then ⟨0, (max_replication s).count⟩ else max_replication s

def is_directory (s : MetaSet) : Prop := ∃ m ∈ s, m.is_directory

instance (s : MetaSet) : Decidable (is_directory s) := inferInstanceAs (Decidable (∃ m ∈ s, _))

/-- A `.` and a `..`. -/
def is_empty (s : MetaSet) : Prop := s.length = 2 ∧ is_directory s

instance (s : MetaSet) : Decidable (is_empty s) := inferInstanceAs (Decidable (_ ∧ _))

def is_regular_file (s : MetaSet) : Prop := s.length = 1 ∧ ∀ m ∈ s.head?, m.file_type = .regular

instance (s : MetaSet) : Decidable (is_regular_file s) := inferInstanceAs (Decidable (_ ∧ _))

/-- The file is on another node. -/
def is_shallow_copy (self : Node) (s : MetaSet) : Prop :=
  is_regular_file s ∧ ∃ m ∈ s.head?, ∃ n ∈ m.node_ref, n ≠ self

instance (self : Node) (s : MetaSet) : Decidable (is_shallow_copy self s) :=
  inferInstanceAs (Decidable (_ ∧ _))

def is_shallow_copyable (self : Node) (s : MetaSet) : Prop :=
  is_regular_file s ∧ max_replication s = .NONE ∧ ∀ m ∈ s.head?, m.node_ref ≠ some self

instance (self : Node) (s : MetaSet) : Decidable (is_shallow_copyable self s) :=
  inferInstanceAs (Decidable (_ ∧ _))

/-- `create_directory(name)`. -/
def directory_record (name : Name) : Metadata :=
  { name := name, owner := [], group := [], permissions := 0, file_type := .directory, file_size := 0,
    file_hash := none, node_ref := none, replication := .NONE }

/-- `create_directory(metadata, name)`. -/
def create_directory (s : MetaSet) (name : Name) : Metadata :=
  { directory_record name with replication := max_replication_index_zero s }

def increase_replication_and_clean (s : MetaSet) : MetaSet :=
  (s.map fun m => { m with replication := m.replication.next }).filter (·.replication.active)

end MetaSet

end Fs

end Chord
