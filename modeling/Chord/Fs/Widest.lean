import Chord.Fs.Maps

/-!
# The replication of a directory

`add` gives `.` and `..` the largest count of the records of the call.
-/

namespace Chord

namespace Fs

/-- `.` and `..` are the first copies of as many as the contents have. -/
def Wide (s : MetaSet) : Prop :=
  (∃ x ∈ s, Named x.name ∧ 1 ≤ x.replication.count) → ∀ m ∈ s, ¬ Named m.name → m.replication.index = 0 ∧
    (∃ x ∈ s, Named x.name ∧ x.replication.count = m.replication.count) ∧
      ∀ x ∈ s, Named x.name → x.replication.count ≤ m.replication.count

/-- A record that is among the contents after a call: of the call, or under a name that the call does not have. -/
def Kept (old metadata : MetaSet) (x : Metadata) : Prop :=
  Named x.name ∧ (x ∈ metadata ∨ x ∈ old ∧ x.name ∉ metadata.map Metadata.name)

/-- The call has the largest count of what is kept, and its index is left out. -/
structure Leads (old metadata : MetaSet) : Prop where
  index : (MetaSet.max_replication metadata).active ∨ (MetaSet.max_replication metadata).index = 0
  reached : ∃ x, Kept old metadata x ∧ x.replication.count = (MetaSet.max_replication metadata).count
  largest : ∀ x ∈ old, Named x.name → x.name ∉ metadata.map Metadata.name →
    x.replication.count ≤ (MetaSet.max_replication metadata).count

/-- Every call leads the contents that have a count at all. -/
def AllLead : MetaSet → List MetaSet → Prop
  | _, [] => True
  | old, metadata :: sets =>
    ((∃ x, Kept old metadata x ∧ 1 ≤ x.replication.count) → Leads old metadata) ∧
      AllLead (MetaSet.merged old metadata) sets

/-! ## One call -/

namespace MetaSet

theorem count_le_max_replication {s : MetaSet} {m : Metadata} (h : m ∈ s) :
    m.replication.count ≤ (max_replication s).count := by
  cases s with
  | nil => cases h
  | cons x s =>
    rw [max_replication]
    have hfold : ∀ (l : MetaSet) (best : Metadata), ∀ y ∈ best :: l, y.replication.count ≤
        (l.foldl (fun best x => if best.replication.count < x.replication.count then x
          else best) best).replication.count := by
      intro l
      induction l with
      | nil => simp
      | cons z l ih =>
        intro best y hy
        rw [List.foldl_cons]
        have hbest : best.replication.count ≤ (if best.replication.count < z.replication.count then z
            else best).replication.count ∧
            z.replication.count ≤ (if best.replication.count < z.replication.count then z
              else best).replication.count := by
          split
          · rename_i hlt
            exact ⟨UInt32.le_of_lt hlt, UInt32.le_refl _⟩
          · rename_i hle
            exact ⟨UInt32.le_refl _, UInt32.not_lt.mp hle⟩
        have hhead := ih (if best.replication.count < z.replication.count then z
            else best) _ List.mem_cons_self
        rcases List.mem_cons.mp hy with rfl | hy
        · exact UInt32.le_trans hbest.1 hhead
        rcases List.mem_cons.mp hy with rfl | hy
        · exact UInt32.le_trans hbest.2 hhead
        · exact ih _ y (List.mem_cons_of_mem _ hy)
    exact hfold s x m h

end MetaSet

variable {old metadata : MetaSet}

theorem mem_merged_iff (hold : old.Ordered) (hmetadata : metadata.Ordered) {x : Metadata}
    (hx : Named x.name) :
    x ∈ MetaSet.merged old metadata ↔ x ∈ metadata ∨ x ∈ old ∧ x.name ∉ metadata.map Metadata.name := by
  rw [Database.mem_iff_records (hold.merged metadata), Database.records_merged hmetadata hx,
    Option.or_eq_some_iff,
    Database.mem_iff_records hmetadata, Database.mem_iff_records hold, Database.records_eq_none,
      and_comm (b := _ ∉ _)]

theorem eq_of_name {s : MetaSet} (h : s.Ordered) {x y : Metadata} (hx : x ∈ s) (hy : y ∈ s)
    (hname : x.name = y.name) :
    x = y := by
  rw [Database.mem_iff_records h] at hx hy
  rw [hname] at hx
  exact Option.some.inj (hx.symm.trans hy)

theorem index_zero_iff (s : MetaSet) : (MetaSet.max_replication_index_zero s).index = 0 ↔
    (MetaSet.max_replication s).active ∨ (MetaSet.max_replication s).index = 0 := by
  unfold MetaSet.max_replication_index_zero
  split <;> simp_all

theorem index_zero_count (s : MetaSet) :
    (MetaSet.max_replication_index_zero s).count = (MetaSet.max_replication s).count := by
  unfold MetaSet.max_replication_index_zero
  split <;> rfl

/-- What `.` and `..` are after a call. -/
theorem dots_of_merged (hold : old.Ordered) (hdot : ['.'] ∈ old.map Metadata.name) {m : Metadata}
    (hm : m ∈ MetaSet.merged old metadata) (hname : ¬ Named m.name) :
    m.replication = MetaSet.max_replication_index_zero metadata := by
  obtain ⟨hone, htwo⟩ := @MetaSet.dots_mem_merged old metadata (Or.inl hdot)
  have hordered : (MetaSet.merged old metadata).Ordered := hold.merged metadata
  rw [Named, ← not_or, not_not] at hname
  rcases hname with hname | hname
  · rw [eq_of_name hordered hm hone hname]
    rfl
  · rw [eq_of_name hordered hm htwo hname]
    rfl

theorem wide_merged_iff (hold : old.Ordered) (hmetadata : metadata.Ordered)
    (hdot : ['.'] ∈ old.map Metadata.name) :
    Wide (MetaSet.merged old metadata) ↔
      ((∃ x, Kept old metadata x ∧ 1 ≤ x.replication.count) → Leads old metadata) := by
  have hkept : ∀ x, x ∈ MetaSet.merged old metadata ∧ Named x.name ↔ Kept old metadata x := by
    intro x
    rw [Kept, and_comm]
    exact and_congr_right fun hx => mem_merged_iff hold hmetadata hx
  unfold Wide
  constructor
  · rintro h ⟨x, hx, hcount⟩
    obtain ⟨hmem, hname⟩ := (hkept x).mpr hx
    obtain ⟨hone, -⟩ := @MetaSet.dots_mem_merged old metadata (Or.inl hdot)
    obtain ⟨hindex, ⟨y, hy, hyname, hreached⟩, hlargest⟩ :=
      h ⟨x, hmem, hname, hcount⟩ _ hone (fun hnamed => hnamed.1 rfl)
    have hreplication : (MetaSet.create_directory metadata ['.']).replication =
        MetaSet.max_replication_index_zero metadata := rfl
    rw [hreplication] at hindex hreached hlargest
    rw [index_zero_count] at hreached hlargest
    refine ⟨(index_zero_iff metadata).mp hindex, ⟨y, (hkept y).mp ⟨hy, hyname⟩, hreached⟩,
      fun z hz hzname hznot => ?_⟩
    exact hlargest z ((mem_merged_iff hold hmetadata hzname).mpr (Or.inr ⟨hz, hznot⟩)) hzname
  · rintro h ⟨x, hx, hname, hcount⟩ m hm hdots
    obtain ⟨hindex, ⟨y, hy, hreached⟩, hlargest⟩ := h ⟨x, (hkept x).mp ⟨hx, hname⟩, hcount⟩
    rw [dots_of_merged hold hdot hm hdots, index_zero_count]
    refine ⟨(index_zero_iff metadata).mpr hindex, ⟨y, ((hkept y).mpr hy).1, hy.1, hreached⟩,
      fun z hz hzname => ?_⟩
    rcases (mem_merged_iff hold hmetadata hzname).mp hz with hz | ⟨hz, hznot⟩
    · exact MetaSet.count_le_max_replication hz
    · exact hlargest z hz hzname hznot

/-! ## Every sequence of calls -/

namespace Database

theorem lookup_add_self (db : Database) {directory : Uri} (hu : directory.path.canonical = directory.path)
    {entry : MetaSet} (hentry : db.lookup directory.path = some entry) (metadata : MetaSet) :
    (db.add directory metadata).1.lookup directory.path = some (MetaSet.merged entry metadata) := by
  rw [add, hu, hentry]
  exact AList.lookup_insert _

/-- A directory is as widely replicated as its contents after every call, exactly where every call leads
the contents. -/
theorem wide_runs_iff {db : Database} (hdb : db.Sorted) {directory : Uri}
    (hu : directory.path.canonical = directory.path) {entry : MetaSet}
    (hentry : db.lookup directory.path = some entry) (hdot : ['.'] ∈ entry.map Metadata.name)
    {sets : List MetaSet} (hsets : ∀ metadata ∈ sets, metadata ≠ [] ∧ metadata.Ordered) :
    (∀ k < sets.length, ∀ s ∈ (run db ((sets.take (k + 1)).map (Call.add directory))).lookup directory.path,
      Wide s) ↔
      AllLead entry sets := by
  induction sets generalizing db entry with
  | nil => simp [AllLead]
  | cons metadata sets ih =>
    obtain ⟨⟨-, hordered⟩, hrest⟩ := List.forall_mem_cons.mp hsets
    have hnext := lookup_add_self db hu hentry metadata
    have hdot' : ['.'] ∈ (MetaSet.merged entry metadata).map Metadata.name :=
      List.mem_map.mpr ⟨_, (MetaSet.dots_mem_merged (Or.inl hdot)).1, rfl⟩
    have ih := ih (hdb.step (.add directory metadata)) hnext hdot' hrest
    have hwide := wide_merged_iff (hdb _ _ hentry) hordered hdot
    constructor
    · intro h
      refine ⟨hwide.mp (h 0 (by simp) _ hnext), ih.mp fun k hk => ?_⟩
      exact h (k + 1) (by simpa using hk)
    · rintro ⟨hfirst, hall⟩ k hk s hs
      cases k with
      | zero =>
        cases hnext.symm.trans hs
        exact hwide.mpr hfirst
      | succ k => exact ih.mpr hall k (by simpa using hk) s hs

/-- A file of the name with so many copies. -/
def copies (name : Name) (count : UInt32) : Metadata :=
  { MetaSet.directory_record name with file_type := .regular, replication := ⟨0, count⟩ }

theorem wide_runs_iff_root : (∀ k < 1, ∀ s ∈ (run (opened ∅) (([[copies ['a'] 6]].take (k + 1)).map
      (Call.add (Uri.as_uri ['/'])))).lookup ['/'], Wide s) ↔
    AllLead [MetaSet.create_directory [] ['.'], MetaSet.create_directory [] ['.', '.']]
      [[copies ['a'] 6]] := by
  have hu : (Uri.as_uri ['/']).path.canonical = (Uri.as_uri ['/']).path := by decide
  have hentry : (opened ∅).lookup (Uri.as_uri ['/']).path =
      some [MetaSet.create_directory [] ['.'], MetaSet.create_directory [] ['.', '.']] := by decide
  have hsets : ∀ metadata ∈ [[copies ['a'] 6]], metadata ≠ [] ∧ MetaSet.Ordered metadata := by
    simp [MetaSet.Ordered]
  exact wide_runs_iff sorted_opened hu hentry (by decide) hsets

/-- A file with six copies, then one with four: the directory is left with four. -/
theorem fewer_copies_narrow_directory :
    ¬ ∀ (db : Database) (directory : Uri) (entry : MetaSet) (sets : List MetaSet),
    db.Sorted → directory.path.canonical = directory.path → db.lookup directory.path = some entry →
    ['.'] ∈ entry.map Metadata.name → (∀ metadata ∈ sets, metadata ≠ [] ∧ metadata.Ordered) →
    ∀ k < sets.length, ∀ s ∈ (run db ((sets.take (k + 1)).map (Call.add directory))).lookup directory.path,
      Wide s := by
  intro h
  have hentry : (opened ∅).lookup (Uri.as_uri ['/']).path =
      some [MetaSet.create_directory [] ['.'], MetaSet.create_directory [] ['.', '.']] := by decide
  have hwide := h (opened ∅) (Uri.as_uri ['/']) _ [[copies ['a'] 6], [copies ['b'] 4]] sorted_opened
      (by decide) hentry
    (by decide) (by simp [MetaSet.Ordered]) 1 (by decide)
  have hlookup : (run (opened ∅)
      (([[copies ['a'] 6], [copies ['b'] 4]].take 2).map (Call.add (Uri.as_uri ['/'])))).lookup
      (Uri.as_uri ['/']).path = some [{ MetaSet.directory_record ['.'] with replication := ⟨0, 4⟩ },
        { MetaSet.directory_record ['.', '.'] with replication := ⟨0, 4⟩ }, copies ['a'] 6,
          copies ['b'] 4] := by decide
  have hsix : Named (copies ['a'] 6).name := by simp [Named, copies, MetaSet.directory_record]
  obtain ⟨-, -, hlargest⟩ := hwide _ hlookup ⟨copies ['a'] 6, by simp, hsix, by decide⟩
    { MetaSet.directory_record ['.'] with replication := ⟨0, 4⟩ } (by simp) (fun hnamed => hnamed.1 rfl)
  exact absurd (hlargest (copies ['a'] 6) (by simp) hsix) (by decide)

end Database

end Fs

end Chord
