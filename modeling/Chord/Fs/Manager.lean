import Chord.Canonical
import Chord.Fs.Form
import Chord.Uri

/-!
# The metadata manager (`chord.fs.metadata.manager.h`)

The database of one node, with texts of paths as keys.
-/

namespace Chord

namespace Fs

abbrev Database := AList (fun _ : PathString => MetaSet)

namespace Database

/-! ## The calls -/

/-- `__add`, and whether a name is new. -/
def add (db : Database) (directory : Uri) (metadata : MetaSet) : Database × Bool :=
  let path := directory.path.canonical
  let old := (db.lookup path).getD []
  (db.insert path (MetaSet.merged old metadata), ∃ m ∈ metadata, ∀ x ∈ old, x.name ≠ m.name)

/-- `del(directory)`: `none` where `get` throws. -/
def del (db : Database) (directory : Uri) : Option (Database × MetaSet) :=
  if directory.path.parent_path = [] then some (db, [])
  else (db.lookup directory.path).map fun retVal => (db.erase directory.path.canonical, retVal)

/-- The records of the names. The value of a name that is not there is a default one. -/
def removed (current metadata : MetaSet) : MetaSet :=
  MetaSet.of_list (metadata.map fun m =>
    (current.find? fun x => x.name = m.name).getD { MetaSet.directory_record [] with file_type := .none })

/-- `del(directory, metadata, removeIfEmpty)`: `none` where there is no entry. -/
def del_names (db : Database) (directory : Uri) (metadata : MetaSet) (removeIfEmpty : Bool) :
    Option (Database × MetaSet) :=
  let path := directory.path.canonical
  (db.lookup path).map fun current =>
    let retVal := removed current metadata
    let current := current.filter fun x => ∀ m ∈ metadata, m.name ≠ x.name
    (if MetaSet.is_empty current ∧ removeIfEmpty then db.erase path else db.insert path current, retVal)

/-- The constructor, on the database that is there. -/
def opened (db : Database) : Database :=
  (db.add (Uri.as_uri ['/']) [{ MetaSet.directory_record ['.'] with permissions := 0o777 }]).1

inductive Call where
  | add (directory : Uri) (metadata : MetaSet)
  | del (directory : Uri)
  | del_names (directory : Uri) (metadata : MetaSet) (removeIfEmpty : Bool)

def Call.directory : Call → Uri
  | add directory _ => directory
  | del directory => directory
  | del_names directory _ _ => directory

/-- A call that throws changes nothing. -/
def step (db : Database) : Call → Database
  | .add directory metadata => (db.add directory metadata).1
  | .del directory => ((db.del directory).map Prod.fst).getD db
  | .del_names directory metadata removeIfEmpty =>
    ((db.del_names directory metadata removeIfEmpty).map Prod.fst).getD db

def run (db : Database) (calls : List Call) : Database := calls.foldl step db

/-! ## The root -/

/-- The entry of `/`, with a record of itself. -/
def Root (db : Database) : Prop :=
  ∃ s, db.lookup ['/'] = some s ∧ ∃ m ∈ s, m.name = ['.'] ∧ m.file_type = .directory

/-- A call that does not take the root away. `del` does: the parent of `/` is `/`. -/
def Spares (db : Database) : Call → Prop
  | .add _ _ => True
  | .del directory => directory.path ≠ ['/']
  | .del_names directory metadata removeIfEmpty => directory.path = ['/'] →
      (∀ m ∈ metadata, m.name ≠ ['.']) ∧
        (removeIfEmpty → ∀ s, db.lookup ['/'] = some s →
          ¬ MetaSet.is_empty (s.filter fun x => ∀ m ∈ metadata, m.name ≠ x.name))

def AllSpare (db : Database) : List Call → Prop
  | [] => True
  | call :: calls => Spares db call ∧ AllSpare (step db call) calls

theorem root_add {db : Database} {directory : Uri} {metadata : MetaSet}
    (h : Root db ∨ directory.path.canonical = ['/'] ∧ ['.'] ∈ metadata.map Metadata.name) :
    Root (db.add directory metadata).1 := by
  unfold add Root
  dsimp only
  by_cases hpath : directory.path.canonical = ['/']
  · rw [hpath, AList.lookup_insert]
    have hname : ['.'] ∈ ((db.lookup ['/']).getD []).map Metadata.name ∨
        ['.'] ∈ metadata.map Metadata.name := by
      refine h.imp (fun hroot => ?_) And.right
      obtain ⟨s, hs, m, hm, hname, -⟩ := hroot
      rw [hs]
      exact List.mem_map.mpr ⟨m, hm, hname⟩
    exact ⟨_, rfl, _, (MetaSet.dots_mem_merged hname).1, rfl, rfl⟩
  · rw [AList.lookup_insert_ne (Ne.symm hpath)]
    exact h.resolve_right fun hnew => hpath hnew.1

theorem root_opened (db : Database) : Root (opened db) :=
  root_add (Or.inr ⟨by decide, by decide⟩)

theorem root_del_iff {db : Database} (h : Root db) {directory : Uri}
    (hu : directory.path.canonical = directory.path) :
    Root (step db (.del directory)) ↔ directory.path ≠ ['/'] := by
  obtain ⟨s, hs, hroot⟩ := h
  have hstay : Root db := ⟨s, hs, hroot⟩
  rw [step, del]
  by_cases hpath : directory.path = ['/']
  · have hparent : directory.path.parent_path ≠ [] := by
      rw [hpath]
      decide
    rw [if_neg hparent, hu, hpath, hs]
    refine iff_of_false ?_ (by simp)
    rintro ⟨t, ht, -⟩
    rw [Option.map_some, Option.map_some, Option.getD_some, AList.lookup_erase] at ht
    cases ht
  · refine iff_of_true ?_ hpath
    split
    · exact hstay
    · cases db.lookup directory.path with
      | none => exact hstay
      | some retVal =>
        refine ⟨s, ?_, hroot⟩
        rw [Option.map_some, Option.map_some, Option.getD_some, hu, AList.lookup_erase_ne (Ne.symm hpath), hs]

theorem root_del_names_iff {db : Database} (h : Root db) {directory : Uri}
    (hu : directory.path.canonical = directory.path) (metadata : MetaSet) (removeIfEmpty : Bool) :
    Root (step db (.del_names directory metadata removeIfEmpty)) ↔
      Spares db (.del_names directory metadata removeIfEmpty) := by
  obtain ⟨s, hs, m, hm, hname, htype⟩ := h
  rw [step, del_names, Spares, hu]
  dsimp only
  by_cases hpath : directory.path = ['/']
  · rw [hpath, hs, Option.map_some, Option.map_some, Option.getD_some]
    dsimp only
    constructor
    · rintro ⟨t, ht, x, hx, hxname, -⟩ -
      split at ht
      · rw [AList.lookup_erase] at ht
        cases ht
      · rename_i hkept
        rw [AList.lookup_insert, Option.some.injEq] at ht
        rw [← ht, List.mem_filter, decide_eq_true_eq] at hx
        refine ⟨fun y hy => hxname ▸ hx.2 y hy, fun hremove s' hs' => ?_⟩
        cases hs'
        exact fun hempty => hkept ⟨hempty, hremove⟩
    · intro hspares
      obtain ⟨hnames, hkept⟩ := hspares rfl
      have hkept' : ¬ (MetaSet.is_empty (s.filter fun x => ∀ m ∈ metadata, m.name ≠ x.name) ∧
          removeIfEmpty) :=
        fun hboth => hkept hboth.2 s rfl hboth.1
      rw [if_neg hkept']
      refine ⟨_, AList.lookup_insert _, m, ?_, hname, htype⟩
      rw [List.mem_filter, decide_eq_true_eq, hname]
      exact ⟨hm, hnames⟩
  · refine iff_of_true ?_ fun heq => absurd heq hpath
    refine ⟨s, ?_, m, hm, hname, htype⟩
    cases db.lookup directory.path with
    | none => exact hs
    | some current =>
      rw [Option.map_some, Option.map_some, Option.getD_some]
      dsimp only
      split
      · rw [AList.lookup_erase_ne (Ne.symm hpath), hs]
      · rw [AList.lookup_insert_ne (Ne.symm hpath), hs]

theorem root_step_iff {db : Database} (h : Root db) {call : Call}
    (hu : call.directory.path.canonical = call.directory.path) : Root (step db call) ↔ Spares db call := by
  cases call with
  | add directory metadata => exact iff_of_true (root_add (Or.inl h)) trivial
  | del directory => exact root_del_iff h hu
  | del_names directory metadata removeIfEmpty => exact root_del_names_iff h hu metadata removeIfEmpty

theorem root_run_iff {db : Database} (h : Root db) {calls : List Call}
    (hu : ∀ call ∈ calls, call.directory.path.canonical = call.directory.path) :
    (∀ k, Root (run db (calls.take k))) ↔ AllSpare db calls := by
  induction calls generalizing db with
  | nil => exact iff_of_true (fun k => by rwa [List.take_nil]) trivial
  | cons call calls ih =>
    obtain ⟨hcall, hcalls⟩ := List.forall_mem_cons.mp hu
    have hstep := root_step_iff h hcall
    constructor
    · intro hall
      have hroot : Root (step db call) := hall 1
      exact ⟨hstep.mp hroot, (ih hroot hcalls).mp fun k => hall (k + 1)⟩
    · rintro ⟨hspares, hrest⟩ k
      cases k with
      | zero => exact h
      | succ k => exact (ih (hstep.mpr hspares) hcalls).mpr hrest k

/-- The root stays in the database as long as no call takes it away. -/
theorem root_stays_iff (db : Database) (calls : List Call)
    (hu : ∀ call ∈ calls, call.directory.path.canonical = call.directory.path) :
    (∀ k, Root (run (opened db) (calls.take k))) ↔ AllSpare (opened db) calls :=
  root_run_iff (root_opened db) hu

theorem root_stays_iff_del : AllSpare (opened ∅) [.del (Uri.as_uri ['/', 'a'])] ∧
    ∀ k, Root (run (opened ∅) ([.del (Uri.as_uri ['/', 'a'])].take k)) := by
  have hspare : AllSpare (opened ∅) [.del (Uri.as_uri ['/', 'a'])] :=
    ⟨(by decide : PathString.canonical ['/', 'a'] ≠ ['/']), trivial⟩
  exact ⟨hspare, (root_stays_iff ∅ _ (by decide)).mpr hspare⟩

/-- `del` of the root. -/
theorem root_can_be_removed : ¬ ∀ (db : Database) (calls : List Call), Root (run (opened db) calls) := by
  intro h
  obtain ⟨s, hs, -⟩ := h ∅ [.del (Uri.as_uri ['/'])]
  have hnone : (run (opened ∅) [.del (Uri.as_uri ['/'])]).lookup ['/'] = none := by decide
  rw [hnone] at hs
  cases hs

/-! ## The entries of absolute paths -/

/-- The entries of one database under both kinds of keys. -/
def Represents (db : Database) (store : MetaStore) : Prop :=
  ∀ p : Path, (∀ n ∈ p, PathString.Plain n) → db.lookup (PathString.text true p) = store.lookup p

theorem text_inj {p q : Path} (hp : ∀ n ∈ p, PathString.Plain n) (hq : ∀ n ∈ q, PathString.Plain n)
    (h : PathString.text true p = PathString.text true q) : p = q := by
  rw [← PathString.components_text (a := true) hp, h, PathString.components_text hq]

theorem Represents.insert {db : Database} {store : MetaStore} (h : Represents db store) {p : Path}
    (hp : ∀ n ∈ p, PathString.Plain n) (s : MetaSet) :
    Represents (db.insert (PathString.text true p) s) (store.insert p s) := by
  intro q hq
  by_cases heq : q = p
  · rw [heq, AList.lookup_insert, AList.lookup_insert]
  · rw [AList.lookup_insert_ne fun htext => heq (text_inj hq hp htext), AList.lookup_insert_ne heq, h q hq]

/-- The manager of the service adds to a listing in the same way. -/
theorem represents_add {db : Database} {store : MetaStore} (h : Represents db store) {p : Path}
    (hp : ∀ n ∈ p, PathString.Plain n) {directory : Uri}
    (hu : directory.path.canonical = PathString.text true p) (metadata : MetaSet) :
    Represents (db.add directory metadata).1 (store.add p metadata).1 := by
  intro q hq
  unfold add
  by_cases heq : q = p
  · rw [heq, MetaStore.lookup_add, hu, AList.lookup_insert, h p hp]
  · rw [MetaStore.add_lookup_of_ne heq, hu, AList.lookup_insert_ne fun htext => heq (text_inj hq hp htext),
      h q hq]

/-- And takes names away in the same way. -/
theorem represents_del_names {db : Database} {store : MetaStore} (h : Represents db store) {p : Path}
    (hp : ∀ n ∈ p, PathString.Plain n) {directory : Uri}
    (hu : directory.path.canonical = PathString.text true p) {current : MetaSet}
    (hcurrent : store.lookup p = some current) (metadata : MetaSet) : ∃ db' store',
      db.del_names directory metadata false = some (db', removed current metadata) ∧
        store.remove p metadata = some (store', removed current metadata) ∧ Represents db' store' := by
  have hfilter : (current.filter fun x => ∀ m ∈ metadata, m.name ≠ x.name) =
      current.filter fun x => x.name ∉ metadata.map Metadata.name := by
    refine List.filter_congr fun x _ => ?_
    simp
  refine ⟨_, _, ?_, ?_, h.insert hp (current.filter fun x => ∀ m ∈ metadata, m.name ≠ x.name)⟩
  · have hlookup : db.lookup directory.path.canonical = some current := by rw [hu, h p hp, hcurrent]
    rw [del_names, hlookup, Option.map_some, hu]
    simp only [Bool.false_eq_true, and_false, if_false]
  · rw [MetaStore.remove, hcurrent, Option.map_some, hfilter]
    rfl

end Database

end Fs

end Chord
