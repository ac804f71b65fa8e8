import Chord.Fs.Store

/-!
# The FUSE adapter (`chord.fuse.adapter.cc`)

A file that is open is a copy in the journal directory. What the ring does with a request is part
of the call.
-/

namespace Chord

namespace Fuse

open Fs (Path Bytes parent_path)

/-! ## The journal directory -/

inductive JournalEntry where
  | file (ino : Nat)
  | directory
  deriving DecidableEq

/-- The contents of a file stay while it is open, also without an entry. -/
structure Journal where
  entries : Path → Option JournalEntry
  contents : Nat → Bytes
  next : Nat

/-- The flags of `::open`. -/
structure Flags where
  creat : Bool
  excl : Bool
  trunc : Bool
  write : Bool

namespace Journal

def fresh : Journal := ⟨fun _ => none, fun _ => [], 0⟩

/-- The bytes of the file at a path. -/
def copy (j : Journal) (p : Path) : Option Bytes :=
  match j.entries p with
  | some (.file ino) => some (j.contents ino)
  | _ => none

/-- `fs::create_directories`: `none` where a component is a file. -/
def create_each (j : Journal) : List Path → Option Journal
  | [] => some j
  | d :: ds =>
    match j.entries d with
    | none => create_each { j with entries := Function.update j.entries d (some .directory) } ds
    | some .directory => create_each j ds
    | some (.file _) => none

/-- `util::as_journal_path`: the directories above the path are there. -/
def as_journal_path (j : Journal) (p : Path) : Option Journal :=
  if j.entries (parent_path p) = none then j.create_each (parent_path p).inits else some j

/-- A new file. -/
def create (j : Journal) (p : Path) (bytes : Bytes) : Journal where
  entries := Function.update j.entries p (some (.file j.next))
  contents := Function.update j.contents j.next bytes
  next := j.next + 1

def set (j : Journal) (ino : Nat) (bytes : Bytes) : Journal :=
  { j with contents := Function.update j.contents ino bytes }

/-- `::open`: what `fi->fh` leads to, which is no file for a directory. -/
def open_file (j : Journal) (p : Path) (flags : Flags) : Option (Journal × Option Nat) :=
  match j.entries p with
  | some (.file ino) =>
    if flags.creat ∧ flags.excl then none else some (if flags.trunc then j.set ino [] else j, some ino)
  | some .directory => if flags.creat ∨ flags.trunc ∨ flags.write then none else some (j, none)
  | none =>
    if flags.creat ∧ j.entries (parent_path p) = some .directory then some (j.create p [], some j.next)
      else none

/-- `file::remove_all`. -/
def remove_all (j : Journal) (p : Path) : Journal :=
  { j with entries := fun q => if p <+: q then none else j.entries q }

end Journal

def pwrite (bytes : Bytes) (offset : Nat) (data : Bytes) : Bytes :=
  bytes.take offset ++ List.replicate (offset - bytes.length) 0 ++ data ++ bytes.drop (offset + data.length)

def ftruncate (bytes : Bytes) (size : Nat) : Bytes :=
  bytes.take size ++ List.replicate (size - bytes.length) 0

/-! ## The mount -/

/-- `open` and its file, which the calls on it name again. -/
structure Handle where
  path : Path
  fh : Option Nat
  deriving DecidableEq

structure Mount where
  journal : Journal
  handles : List Handle
  /-- The bytes of the last successful put of every uri. -/
  ring : Path → Option Bytes

/-- What a `get` leaves in the journal, and whether it succeeds. -/
structure Fetch where
  left : Option Bytes
  ok : Bool

inductive Status where
  | OK
  | ALREADY_EXISTS
  | NOT_FOUND
  | other
  deriving DecidableEq

def ENOENT : Int := 2
def EAGAIN : Int := 11
def EEXIST : Int := 17

namespace Mount

def fresh (ring : Path → Option Bytes) : Mount := ⟨.fresh, [], ring⟩

/-- `Facade::put` of the copy in the journal. -/
def put (m : Mount) (p : Path) (ok : Bool) : Mount × Bool :=
  match m.journal.copy p with
  | some bytes => if ok then ({ m with ring := Function.update m.ring p (some bytes) }, true) else (m, false)
  | none => (m, false)

/-- `open_local`. `opens` is whether the system lets it happen. -/
def open_local (m : Mount) (p : Path) (flags : Flags) (opens : Bool) : Option (Mount × Option Nat) :=
  if opens then (m.journal.open_file p flags).map fun r => ({ m with journal := r.1 }, r.2) else none

/-- `as_journal_path`: `none` for its exception. -/
def with_directories (m : Mount) (p : Path) : Option Mount :=
  (m.journal.as_journal_path p).map fun journal => { m with journal := journal }

def clean_journal (m : Mount) (p : Path) : Option Mount :=
  (m.with_directories p).map fun m => { m with journal := m.journal.remove_all p }

/-- What a call leaves, and what it returns: `none` for an exception. -/
abbrev Result := Mount × Option Int

def add_handle (m : Mount) (p : Path) (fh : Option Nat) : Mount := { m with handles := ⟨p, fh⟩ :: m.handles }

def create (m : Mount) (p : Path) (flags : Flags) (opens ok : Bool) : Result :=
  match m.with_directories p with
  | none => (m, none)
  | some m =>
    match m.open_local p flags opens with
    | none => (m, some (-EAGAIN))
    | some (m, fh) =>
      match m.put p ok with
      | (m, false) => (m, some (-EAGAIN))
      | (m, true) => (m.add_handle p fh, some 0)

/-- A copy in the journal is used again. -/
def fetch (m : Mount) (p : Path) (get : Fetch) : Mount × Bool :=
  if m.journal.entries p = none then
    match get.left with
    | some bytes =>
      if m.journal.entries (parent_path p) =
        some .directory then ({ m with journal := m.journal.create p bytes }, get.ok)
      else (m, false)
    | none => (m, get.ok)
  else (m, true)

/-- `open`. -/
def open_path (m : Mount) (p : Path) (flags : Flags) (get : Fetch) (opens : Bool) : Result :=
  match m.with_directories p with
  | none => (m, none)
  | some m =>
    match m.fetch p get with
    | (m, false) => (m, some (-ENOENT))
    | (m, true) =>
      match m.open_local p flags opens with
      | none => (m, some (-1))
      | some (m, fh) => (m.add_handle p fh, some 0)

/-- `write` and `truncate`: after the call of the system, the size of the copy is asked for. -/
def change (m : Mount) (p : Path) (fh : Option Nat) (bytes : Bytes → Bytes) (succ : Int) : Result :=
  let m := match fh with
    | some ino => { m with journal := m.journal.set ino (bytes (m.journal.contents ino)) }
    | none => m
  match m.with_directories p with
  | none => (m, none)
  | some m => (m, if m.journal.copy p = none then none else some succ)

def write (m : Mount) (p : Path) (fh : Option Nat) (offset : Nat) (data : Bytes) : Result :=
  m.change p fh (pwrite · offset data) data.length

def truncate (m : Mount) (p : Path) (fh : Option Nat) (size : Nat) : Result :=
  m.change p fh (ftruncate · size) 0

/-- `fsync` may fail, as well as the put. -/
def flush (m : Mount) (p : Path) (fsync ok : Bool) : Result :=
  match m.with_directories p with
  | none => (m, none)
  | some m =>
    let succ : Int := if fsync then 0 else -1
    -- `file_size` throws
    if m.journal.copy p = none then (m, none)
    else
      match m.put p ok with
      | (m, false) => (m, some (-EAGAIN))
      | (m, true) => (m, some succ)

def release (m : Mount) (p : Path) (fsync ok : Bool) : Result :=
  match m.flush p fsync ok with
  | (m, none) => (m, none)
  | (m, some status) =>
    if status = 0 then (m, some (-ENOENT))
    else
      match m.clean_journal p with
      | none => (m, none)
      | some m => (m, some 0)

def rename_code : Status → Int
  | .ALREADY_EXISTS => -EEXIST
  | .NOT_FOUND => -ENOENT
  | .OK => 0
  | .other => -EAGAIN

/-- `Service::mov`: the file is put, and then deleted, which may fail. -/
def move (m : Mount) (src dst : Path) (status : Status) (put : Bool) : Mount :=
  match m.ring src with
  | none => m
  | some bytes =>
    if src = dst then m
    else if status = .OK then
      { m with ring := Function.update (Function.update m.ring dst (some bytes)) src none
               handles := m.handles.map fun h => if h.path = src then { h with path := dst } else h }
    else if put then { m with ring := Function.update m.ring dst (some bytes) }
    else m

def rename (m : Mount) (src dst : Path) (status : Status) (put : Bool) : Result :=
  let m := m.move src dst status put
  if status = .OK then
    match m.clean_journal src with
    | none => (m, none)
    | some m =>
      match m.clean_journal dst with
      | none => (m, none)
      | some m => (m, some (rename_code status))
  else (m, some (rename_code status))

def unlink (m : Mount) (p : Path) (ok : Bool) : Result :=
  if ok then
    let m := { m with ring := Function.update m.ring p none }
    match m.clean_journal p with
    | none => (m, none)
    | some m => (m, some 0)
  else (m, some (-ENOENT))

end Mount

/-! ## Calls -/

inductive Call where
  | create (p : Path) (flags : Flags) (opens ok : Bool)
  | open_path (p : Path) (flags : Flags) (get : Fetch) (opens : Bool)
  | write (h : Handle) (offset : Nat) (data : Bytes)
  | truncate (h : Handle) (size : Nat)
  | flush (h : Handle) (fsync ok : Bool)
  | release (h : Handle) (fsync ok : Bool)
  | rename (src dst : Path) (status : Status) (put : Bool)
  | unlink (p : Path) (ok : Bool)
  /-- A put through another node or the controller. -/
  | put_elsewhere (p : Path) (bytes : Bytes)

namespace Mount

def step (m : Mount) : Call → Mount
  | .create p flags opens ok => (m.create p flags opens ok).1
  | .open_path p flags get opens => (m.open_path p flags get opens).1
  | .write h offset data => (m.write h.path h.fh offset data).1
  | .truncate h size => (m.truncate h.path h.fh size).1
  | .flush h fsync ok => (m.flush h.path fsync ok).1
  | .release h fsync ok =>
    let m := (m.release h.path fsync ok).1
    { m with handles := m.handles.erase h }
  | .rename src dst status put => (m.rename src dst status put).1
  | .unlink p ok => (m.unlink p ok).1
  | .put_elsewhere p bytes => { m with ring := Function.update m.ring p (some bytes) }

def run (m : Mount) (calls : List Call) : Mount := calls.foldl step m

end Mount

end Fuse

end Chord
