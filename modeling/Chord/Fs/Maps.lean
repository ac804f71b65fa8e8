import Chord.Fs.Deletion
import Chord.Fs.Manager
import Mathlib.Data.Finset.Card
import Mathlib.Data.List.Find

/-!
# The database as a map of maps

What the calls of the metadata manager mean for a map from paths to maps from names to records.
-/

namespace Chord

namespace Fs

abbrev Records := Name → Option Metadata

/-- The map that an entry stands for. -/
def MetaSet.records (s : MetaSet) : Records := fun name => s.find? fun m => m.name = name

namespace Database

abbrev Maps := PathString → Option Records

def maps (db : Database) : Maps := fun path => (db.lookup path).map MetaSet.records

/-! ## The reads -/

/-- `get(directory)`, with the path as it is. -/
def get (db : Database) (directory : Uri) : Option MetaSet := db.lookup directory.path

/-- `dir`. -/
def dir (db : Database) (directory : Uri) : Option MetaSet := db.lookup directory.path.canonical

/-- `exists`. -/
def is_there (db : Database) (uri : Uri) : Prop := uri.path ∈ db

/-- The reads agree with the map. -/
def ReadAs (db : Database) (maps : Maps) : Prop :=
  ∀ uri : Uri, uri.path.canonical = uri.path →
    (db.get uri).map MetaSet.records = maps uri.path ∧ (db.dir uri).map MetaSet.records = maps uri.path ∧
      (db.is_there uri ↔ (maps uri.path).isSome)

theorem read_as_maps (db : Database) : db.ReadAs db.maps := by
  intro uri hu
  refine ⟨rfl, ?_, ?_⟩
  · rw [dir, hu]
    rfl
  · rw [is_there, maps, Option.isSome_map, AList.lookup_isSome]

/-! ## What the calls mean -/

/-- The records of `old` that are not under a name of `metadata`. -/
def without (old : Records) (metadata : MetaSet) : Records :=
  fun name => if ∃ m ∈ metadata, m.name = name then none else old name

/-- The names that are left are `.` and `..`. -/
def OnlyDots (records : Records) : Prop := ∀ name, (records name).isSome ↔ name = ['.'] ∨ name = ['.', '.']

/-- `add`: every record goes under its name, and the other names stay. `.` and `..` are recomputed. -/
def Adds (maps : Maps) (path : PathString) (metadata : MetaSet) (maps' : Maps) (added : Bool) : Prop :=
  (∃ records, maps' = Function.update maps path (some records) ∧
    ∀ name, Named name → records name = (metadata.records name).or ((maps path).bind fun old => old name)) ∧
  (added = true ↔ ∃ m ∈ metadata, ((maps path).bind fun old => old m.name) = none)

/-- `del(directory)`: the whole entry goes, and comes back. -/
def Dels (maps : Maps) (path : PathString) : Option (Maps × MetaSet) → Prop
  | none => maps path = none
  | some (maps', deleted) => maps' = Function.update maps path none ∧
      ∀ x, x ∈ deleted ↔ ∃ old ∈ maps path, old x.name = some x

/-- `del(directory, metadata, removeIfEmpty)`: the names go that were there, and their records come back. -/
def DelsNames (maps : Maps) (path : PathString) (metadata : MetaSet) (removeIfEmpty : Bool) :
    Option (Maps × MetaSet) → Prop
  | none => maps path = none
  | some (maps', deleted) => ∃ old ∈ maps path, (∀ x, x ∈ deleted ↔ ∃ m ∈ metadata, old m.name = some x) ∧
      (removeIfEmpty ∧ OnlyDots (without old metadata) → maps' = Function.update maps path none) ∧
      (¬ (removeIfEmpty ∧ OnlyDots (without old metadata)) →
        maps' = Function.update maps path (some (without old metadata)))

/-- The call does to the database what it means for the map. -/
def Refines (db : Database) : Call → Prop
  | .add directory metadata =>
    Adds db.maps directory.path metadata (db.add directory metadata).1.maps (db.add directory metadata).2
  | .del directory => Dels db.maps directory.path ((db.del directory).map fun r => (r.1.maps, r.2))
  | .del_names directory metadata removeIfEmpty => DelsNames db.maps directory.path metadata removeIfEmpty
      ((db.del_names directory metadata removeIfEmpty).map fun r => (r.1.maps, r.2))

/-! ## When they do it -/

/-- The removed records are those that were there: a default record has no name. -/
def AllThere (current metadata : MetaSet) : Prop :=
  (∀ m ∈ metadata, m.name ∈ current.map Metadata.name) ∨
    [] ∈ metadata.map Metadata.name ∧ [] ∈ current.map Metadata.name

/-- Two records with a directory among `.` and `..` are a `.` and a `..`, which are directories. -/
def DotsAlike (rest : MetaSet) : Prop :=
  (MetaSet.is_empty rest → ∀ m ∈ rest, ¬ Named m.name) ∧
    (OnlyDots rest.records → MetaSet.is_directory rest)

/-- A call without the defects: a relative path of one name counts as the root, a name that is not
there gives a default record, and two records with one directory among `.` and `..` count as empty. -/
def Regular (db : Database) : Call → Prop
  | .add _ _ => True
  | .del directory => directory.path.parent_path ≠ [] ∨ db.lookup directory.path = none
  | .del_names directory metadata removeIfEmpty => ∀ current ∈ db.lookup directory.path,
      AllThere current metadata ∧
        (removeIfEmpty → DotsAlike (current.filter fun x => ∀ m ∈ metadata, m.name ≠ x.name))

/-- Entries are maps, in the order of their keys. -/
def Sorted (db : Database) : Prop := ∀ path, ∀ s ∈ db.lookup path, MetaSet.Ordered s

/-! ## One entry -/

theorem maps_insert (db : Database) (path : PathString) (s : MetaSet) :
    maps (db.insert path s) = Function.update db.maps path (some s.records) := by
  funext q
  by_cases h : q = path
  · rw [h, Function.update_self, maps, AList.lookup_insert]
    rfl
  · rw [Function.update_of_ne h, maps, AList.lookup_insert_ne h]
    rfl

theorem maps_erase (db : Database) (path : PathString) :
    maps (db.erase path) = Function.update db.maps path none := by
  funext q
  by_cases h : q = path
  · rw [h, Function.update_self, maps, AList.lookup_erase]
    rfl
  · rw [Function.update_of_ne h, maps, AList.lookup_erase_ne h]
    rfl

theorem records_eq_none {s : MetaSet} {name : Name} : s.records name = none ↔ name ∉ s.map Metadata.name := by
  simp [MetaSet.records]

theorem records_name {s : MetaSet} {name : Name} {x : Metadata} (h : s.records name = some x) :
    x.name = name := by
  simpa using List.find?_some h

theorem mem_iff_records {s : MetaSet} (h : s.Ordered) (x : Metadata) : x ∈ s ↔ s.records x.name = some x := by
  refine ⟨fun hx => ?_, List.mem_of_find?_eq_some⟩
  induction s with
  | nil => cases hx
  | cons y s ih =>
    obtain ⟨hy, hs⟩ := List.pairwise_cons.mp h
    rw [MetaSet.records, List.find?_cons]
    rcases List.mem_cons.mp hx with rfl | hx
    · simp
    · have hne : y.name ≠ x.name := fun heq => List.lt_irrefl x.name (heq ▸ hy x hx)
      rw [decide_eq_false hne]
      exact ih hs hx

theorem records_filter (s metadata : MetaSet) :
    MetaSet.records (s.filter fun x => ∀ m ∈ metadata, m.name ≠ x.name) = without s.records metadata := by
  funext name
  rw [without, MetaSet.records, List.find?_filter]
  split
  · rename_i hname
    obtain ⟨m, hm, rfl⟩ := hname
    rw [List.find?_eq_none]
    intro x _ hx
    simp only [decide_eq_true_eq] at hx
    exact hx.1 m hm hx.2.symm
  · rename_i hname
    refine List.find?_congr fun x _ => ?_
    simp only [decide_eq_true_eq, decide_eq_decide, and_iff_right_iff_imp]
    rintro hx m hm heq
    exact hname ⟨m, hm, heq.trans (by simpa using hx)⟩

/-! ## `add` -/

theorem records_merged {old metadata : MetaSet} (h : metadata.Ordered) {name : Name} (hname : Named name) :
    (MetaSet.merged old metadata).records name = (metadata.records name).or (old.records name) := by
  have hdot : ∀ s n, (MetaSet.create_directory s n).name = n := fun _ _ => rfl
  unfold MetaSet.records MetaSet.merged
  rw [← MetaSet.find_foldl_insert_or_assign h.distinct]
  dsimp only
  split
  · rw [MetaSet.find_insert_or_assign, MetaSet.find_insert_or_assign, hdot, hdot, if_neg hname.2.symm,
      if_neg hname.1.symm]
  · rfl

theorem adds (db : Database) {directory : Uri} (hu : directory.path.canonical = directory.path)
    {metadata : MetaSet} (h : metadata.Ordered) :
    Adds db.maps directory.path metadata (db.add directory metadata).1.maps
      (db.add directory metadata).2 := by
  have hold : ∀ name, ((db.maps directory.path).bind fun old => old name) =
      ((db.lookup directory.path).getD []).records name := by
    intro name
    rw [maps]
    cases db.lookup directory.path <;> rfl
  rw [add, hu]
  dsimp only
  refine ⟨⟨_, maps_insert db _ _, fun name hname => ?_⟩, ?_⟩
  · rw [hold, records_merged h hname]
  · simp only [hold, records_eq_none, List.mem_map, not_exists, not_and, decide_eq_true_eq]

/-! ## `del(directory)` -/

theorem dels_iff {db : Database} (hdb : db.Sorted) {directory : Uri}
    (hu : directory.path.canonical = directory.path) :
    Dels db.maps directory.path ((db.del directory).map fun r => (r.1.maps, r.2)) ↔
      (directory.path.parent_path ≠ [] ∨ db.lookup directory.path = none) := by
  rw [del]
  cases hlookup : db.lookup directory.path with
  | none =>
    have hmaps : db.maps directory.path = none := by rw [maps, hlookup]; rfl
    refine iff_of_true ?_ (Or.inr rfl)
    split
    · rw [Option.map_some]
      refine ⟨?_, by simp [hmaps]⟩
      rw [← hmaps, Function.update_eq_self]
    · exact hmaps
  | some old =>
    have hmaps : db.maps directory.path = some old.records := by rw [maps, hlookup]; rfl
    simp only [reduceCtorEq, or_false]
    split
    · rename_i hparent
      refine iff_of_false ?_ (fun h => h hparent)
      rintro ⟨heq, -⟩
      have hnone := congrFun heq directory.path
      rw [Function.update_self, hmaps] at hnone
      cases hnone
    · rename_i hparent
      refine iff_of_true ?_ hparent
      rw [Option.map_some, Option.map_some, hu]
      refine ⟨maps_erase db _, fun x => ?_⟩
      simp [hmaps, mem_iff_records (hdb _ _ hlookup) x]

/-! ## `del(directory, metadata, removeIfEmpty)` -/

/-- The value of a name, which is a default record where the name is not there. -/
def value (current : MetaSet) (m : Metadata) : Metadata :=
  (current.records m.name).getD { MetaSet.directory_record [] with file_type := .none }

theorem value_name (current : MetaSet) (m : Metadata) :
    (value current m).name = if m.name ∈ current.map Metadata.name then m.name else [] := by
  unfold value
  cases hx : current.records m.name with
  | none => rw [if_neg (records_eq_none.mp hx)]; rfl
  | some x =>
    rw [if_pos, Option.getD_some, records_name hx]
    by_contra hname
    rw [records_eq_none.mpr hname] at hx
    cases hx

theorem find_of_list (l : List Metadata) (name : Name) :
    (MetaSet.of_list l).records name = l.find? fun m => m.name = name := by
  induction l using List.reverseRecOn with
  | nil => rfl
  | append_singleton l m ih =>
    have hfold : MetaSet.of_list (l ++ [m]) = MetaSet.insert m (MetaSet.of_list l) := by
      rw [MetaSet.of_list, List.foldl_append]
      rfl
    rw [hfold, MetaSet.records, MetaSet.find_insert, ← MetaSet.records, ih, List.find?_append,
      List.find?_singleton]
    simp

theorem of_list_is_ordered (l : List Metadata) : (MetaSet.of_list l).Ordered := by
  induction l using List.reverseRecOn with
  | nil => exact List.Pairwise.nil
  | append_singleton l m ih =>
    rw [MetaSet.of_list, List.foldl_append]
    exact ih.insert m

/-- The records that come back, by name. -/
theorem records_removed (current metadata : MetaSet) (name : Name) :
    (removed current metadata).records name = (metadata.map (value current)).find? fun m => m.name = name :=
  find_of_list _ name

theorem find_value {current metadata : MetaSet} {name : Name}
    (h : name ≠ [] ∨ ∀ m ∈ metadata, m.name ∈ current.map Metadata.name) :
    (metadata.map (value current)).find? (fun m => m.name = name) =
      if name ∈ metadata.map Metadata.name then current.records name else none := by
  induction metadata with
  | nil => rfl
  | cons m metadata ih =>
    have ih := ih (h.imp_right fun h x hx => h x (List.mem_cons_of_mem m hx))
    rw [List.map_cons, List.find?_cons, value_name, List.map_cons]
    by_cases hthere : m.name ∈ current.map Metadata.name
    · rw [if_pos hthere]
      by_cases hname : m.name = name
      · obtain ⟨x, hx⟩ := Option.ne_none_iff_exists'.mp fun hnone => records_eq_none.mp hnone hthere
        subst hname
        rw [decide_eq_true rfl, if_pos List.mem_cons_self, value, hx]
        rfl
      · simp [hname, Ne.symm hname, ih]
    · rw [if_neg hthere]
      have hempty : ([] : Name) ≠ name := by
        rcases h with h | h
        · exact h.symm
        · exact absurd (h m List.mem_cons_self) hthere
      rw [decide_eq_false hempty]
      by_cases hname : m.name = name
      · have hnone : current.records name = none := records_eq_none.mpr (hname ▸ hthere)
        simp [ih, hnone]
      · simp [Ne.symm hname, ih]

/-- A record without a name is the first one. -/
theorem find_value_empty {current metadata : MetaSet} (h : metadata.Ordered)
    (hin : [] ∈ metadata.map Metadata.name) (hthere : [] ∈ current.map Metadata.name) :
    (metadata.map (value current)).find? (fun m => m.name = []) = current.records [] := by
  cases metadata with
  | nil => cases hin
  | cons m metadata =>
    have hempty : m.name = [] := by
      obtain ⟨x, hx, heq⟩ := List.mem_map.mp hin
      rcases List.mem_cons.mp hx with rfl | hx
      · exact heq
      · have hlt := (List.pairwise_cons.mp h).1 x hx
        rw [heq] at hlt
        exact absurd hlt (List.not_lt_nil _)
    obtain ⟨x, hx⟩ := Option.ne_none_iff_exists'.mp fun hnone => records_eq_none.mp hnone hthere
    rw [List.map_cons, List.find?_cons, value_name, hempty, if_pos hthere, decide_eq_true rfl, value,
      hempty, hx]
    rfl

theorem removed_iff {current metadata : MetaSet} (hmetadata : metadata.Ordered) :
    (∀ x, x ∈ removed current metadata ↔ ∃ m ∈ metadata, current.records m.name = some x) ↔
      AllThere current metadata := by
  have hmem : ∀ x, x ∈ removed current metadata ↔
      (metadata.map (value current)).find? (fun m => m.name = x.name) = some x := by
    intro x
    rw [← records_removed]
    exact mem_iff_records (of_list_is_ordered _) x
  have hexpected : ∀ x, (∃ m ∈ metadata, current.records m.name = some x) ↔
      (if x.name ∈ metadata.map Metadata.name then current.records x.name else none) = some x := by
    intro x
    constructor
    · rintro ⟨m, hm, hx⟩
      have hname := records_name hx
      rw [if_pos (List.mem_map.mpr ⟨m, hm, hname.symm⟩), hname, hx]
    · intro hx
      split at hx
      · rename_i hname
        obtain ⟨m, hm, heq⟩ := List.mem_map.mp hname
        exact ⟨m, hm, by rw [heq]; exact hx⟩
      · cases hx
  simp only [hmem, hexpected]
  constructor
  · intro h
    by_contra hnot
    obtain ⟨habsent, hempty⟩ := not_or.mp hnot
    obtain ⟨m, hm, hname⟩ : ∃ m ∈ metadata, m.name ∉ current.map Metadata.name := by simpa using habsent
    -- the default record comes back, and no record without a name was there
    have hsome : ((metadata.map (value current)).find? fun m => m.name = []).isSome := by
      rw [List.find?_isSome]
      refine ⟨value current m, List.mem_map_of_mem hm, ?_⟩
      rw [value_name, if_neg hname]
      rfl
    obtain ⟨x, hx⟩ := Option.isSome_iff_exists.mp hsome
    have hxname : x.name = [] := by simpa using List.find?_some hx
    have hthere := (h x).mp (by rw [hxname]; exact hx)
    rw [hxname] at hthere
    split at hthere
    · rename_i hin
      refine hempty ⟨hin, ?_⟩
      by_contra hnone
      rw [records_eq_none.mpr hnone] at hthere
      cases hthere
    · cases hthere
  · intro h x
    by_cases hname : x.name = []
    · rcases h with h | ⟨hin, hthere⟩
      · rw [find_value (Or.inr h)]
      · rw [hname, find_value_empty hmetadata hin hthere, if_pos hin]
    · rw [find_value (Or.inl hname)]

theorem only_dots_iff {rest : MetaSet} : OnlyDots rest.records ↔
    ∀ name, name ∈ rest.map Metadata.name ↔ name = ['.'] ∨ name = ['.', '.'] := by
  refine forall_congr' fun name => ?_
  rw [← Option.ne_none_iff_isSome, Ne, records_eq_none, not_not]

theorem is_empty_iff {rest : MetaSet} (h : rest.Ordered) :
    (MetaSet.is_empty rest ↔ OnlyDots rest.records) ↔ DotsAlike rest := by
  have hnodup : (rest.map Metadata.name).Nodup := by
    rw [List.Nodup, List.pairwise_map]
    exact h.distinct
  constructor
  · intro hiff
    refine ⟨fun hempty m hm hnamed => ?_, fun hdots => (hiff.mpr hdots).2⟩
    rcases (only_dots_iff.mp (hiff.mp hempty) m.name).mp (List.mem_map_of_mem hm) with hdot | hdot
    · exact hnamed.1 hdot
    · exact hnamed.2 hdot
  · rintro ⟨halike, hdirectory⟩
    refine ⟨fun hempty => only_dots_iff.mpr ?_, fun hdots => ⟨?_, hdirectory hdots⟩⟩
    · have hsub : (rest.map Metadata.name).toFinset ⊆ {['.'], ['.', '.']} := by
        intro name hname
        obtain ⟨m, hm, rfl⟩ := List.mem_map.mp (List.mem_toFinset.mp hname)
        have hnot := halike hempty m hm
        rw [Named, ← not_or, not_not] at hnot
        simpa using hnot
      have hcard : (rest.map Metadata.name).toFinset.card = 2 := by
        rw [List.toFinset_card_of_nodup hnodup, List.length_map, hempty.1]
      have heq := Finset.eq_of_subset_of_card_le hsub (by rw [hcard]; decide)
      intro name
      rw [← List.mem_toFinset, heq]
      simp
    · have heq : (rest.map Metadata.name).toFinset = {['.'], ['.', '.']} := by
        ext name
        rw [List.mem_toFinset, only_dots_iff.mp hdots name]
        simp
      rw [← List.length_map Metadata.name, ← List.toFinset_card_of_nodup hnodup, heq]
      decide

theorem update_some_ne {maps : Maps} {path : PathString} (r : Records) :
    Function.update maps path none ≠ Function.update maps path (some r) := by
  intro heq
  have hpath := congrFun heq path
  rw [Function.update_self, Function.update_self] at hpath
  cases hpath

theorem dels_names_iff {db : Database} (hdb : db.Sorted) {directory : Uri}
    (hu : directory.path.canonical = directory.path) {metadata : MetaSet} (h : metadata.Ordered)
    (removeIfEmpty : Bool) :
    DelsNames db.maps directory.path metadata removeIfEmpty
        ((db.del_names directory metadata removeIfEmpty).map fun r => (r.1.maps, r.2)) ↔
      Regular db (.del_names directory metadata removeIfEmpty) := by
  rw [del_names, Regular, hu]
  dsimp only
  cases hlookup : db.lookup directory.path with
  | none =>
    have hmaps : db.maps directory.path = none := by rw [maps, hlookup]; rfl
    exact iff_of_true hmaps (by simp)
  | some current =>
    have hmaps : db.maps directory.path = some current.records := by rw [maps, hlookup]; rfl
    obtain ⟨rest, hrest⟩ : ∃ rest : MetaSet, (current.filter fun x => ∀ m ∈ metadata, m.name ≠ x.name) =
        rest := ⟨_, rfl⟩
    have hordered : rest.Ordered := by
      rw [← hrest]
      exact (hdb _ _ hlookup).sublist List.filter_sublist
    have hwithout : without current.records metadata = rest.records := by rw [← records_filter, hrest]
    rw [Option.map_some, Option.map_some, hrest, DelsNames]
    simp only [hmaps, Option.mem_some_iff, exists_eq_left', hwithout, removed_iff h, forall_eq', hrest]
    refine and_congr_right fun _ => ?_
    rw [← is_empty_iff hordered]
    cases removeIfEmpty with
    | false => simp [maps_insert]
    | true =>
      by_cases hempty : MetaSet.is_empty rest
      · by_cases hdots : OnlyDots rest.records
        · simp [hempty, hdots, maps_erase]
        · simp [hempty, hdots, maps_erase, update_some_ne]
      · by_cases hdots : OnlyDots rest.records
        · simp [hempty, hdots, maps_insert, (update_some_ne _).symm]
        · simp [hempty, hdots, maps_insert]

/-! ## Every call -/

def Call.metadata : Call → MetaSet
  | .add _ metadata => metadata
  | .del _ => []
  | .del_names _ metadata _ => metadata

theorem Sorted.insert {db : Database} (h : db.Sorted) (path : PathString) {s : MetaSet} (hs : s.Ordered) :
    Sorted (db.insert path s) := by
  intro q t ht
  by_cases heq : q = path
  · rw [heq, AList.lookup_insert] at ht
    cases ht
    exact hs
  · rw [AList.lookup_insert_ne heq] at ht
    exact h q t ht

theorem Sorted.erase {db : Database} (h : db.Sorted) (path : PathString) : Sorted (db.erase path) := by
  intro q t ht
  by_cases heq : q = path
  · rw [heq, AList.lookup_erase] at ht
    cases ht
  · rw [AList.lookup_erase_ne heq] at ht
    exact h q t ht

/-- The entries stay maps. -/
theorem Sorted.step {db : Database} (h : db.Sorted) (call : Call) : Sorted (step db call) := by
  cases call with
  | add directory metadata =>
    refine h.insert _ (MetaSet.Ordered.merged ?_ metadata)
    cases hlookup : db.lookup directory.path.canonical with
    | none => exact List.Pairwise.nil
    | some old => exact h _ old hlookup
  | del directory =>
    rw [Database.step, del]
    split
    · exact h
    · cases db.lookup directory.path with
      | none => exact h
      | some old => exact h.erase _
  | del_names directory metadata removeIfEmpty =>
    rw [Database.step, del_names]
    dsimp only
    cases hlookup : db.lookup directory.path.canonical with
    | none => exact h
    | some current =>
      rw [Option.map_some, Option.map_some, Option.getD_some]
      dsimp only
      split
      · exact h.erase _
      · exact h.insert _ ((h _ current hlookup).sublist List.filter_sublist)

theorem sorted_opened : Sorted (opened ∅) := by
  have hempty : Sorted ∅ := by
    intro path s hs
    cases hs
  exact hempty.step (.add _ _)

/-- A call does what it means for the map of maps, and the reads agree with that map, but for the three
defects of `del`. -/
theorem refines_iff {db : Database} (hdb : db.Sorted) {call : Call}
    (hu : call.directory.path.canonical = call.directory.path) (hmetadata : call.metadata.Ordered) :
    (step db call).ReadAs (step db call).maps ∧ (Refines db call ↔ Regular db call) := by
  refine ⟨read_as_maps _, ?_⟩
  cases call with
  | add directory metadata => exact iff_of_true (adds db hu hmetadata) trivial
  | del directory => exact dels_iff hdb hu
  | del_names directory metadata removeIfEmpty => exact dels_names_iff hdb hu hmetadata removeIfEmpty

theorem refines_iff_root :
    ReadAs (step (opened ∅) (.add (Uri.as_uri ['/']) [MetaSet.directory_record ['a']]))
        (maps (step (opened ∅) (.add (Uri.as_uri ['/']) [MetaSet.directory_record ['a']]))) ∧
      (Refines (opened ∅) (.add (Uri.as_uri ['/']) [MetaSet.directory_record ['a']]) ↔
        Regular (opened ∅) (.add (Uri.as_uri ['/']) [MetaSet.directory_record ['a']])) :=
  refines_iff sorted_opened (by decide) (List.pairwise_singleton _ _)

/-- A name that is not there comes back as a default record. -/
theorem absent_name_is_returned : ¬ ∀ (db : Database) (call : Call), db.Sorted →
    call.directory.path.canonical = call.directory.path → call.metadata.Ordered → Refines db call := by
  intro h
  have hu : (Uri.as_uri ['/']).path.canonical = (Uri.as_uri ['/']).path := by decide
  have hone : MetaSet.Ordered [MetaSet.directory_record ['a']] := List.pairwise_singleton _ _
  have hrefines := h (opened ∅) (.del_names (Uri.as_uri ['/']) [MetaSet.directory_record ['a']] false)
      sorted_opened hu hone
  have hregular := (dels_names_iff sorted_opened hu hone false).mp hrefines
  obtain ⟨hthere, -⟩ := hregular [MetaSet.create_directory [MetaSet.directory_record ['.']] ['.'],
    MetaSet.create_directory [MetaSet.directory_record ['.']] ['.', '.']] (by decide)
  exact absurd hthere (by unfold AllThere; decide)

end Database

end Fs

end Chord
