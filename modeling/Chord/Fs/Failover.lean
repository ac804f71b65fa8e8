import Chord.Fs.FirstJoin

/-!
# What is uploaded when the predecessor fails

`get_replicated` leaves out the records of directories, and `rebalance` uploads what is on the disk.
-/

namespace Chord

namespace Fs

open World

/-- `get_replicated(min_idx)`. -/
def MetaStore.get_replicated (store : MetaStore) (min_idx : UInt32) : List (Path × MetaSet) :=
  store.get_all.filterMap fun (uri, metadata) =>
    let replicated := metadata.filter fun m => m.file_type ≠ .directory ∧ 1 < m.replication.count ∧
      min_idx ≤ m.replication.index
    if replicated = [] then none else some (uri, replicated)

/-- The turn of `rebalance` for metadata only. -/
def MetadataOnly (event : RebalanceEvent) (self : Peer) (w : World) (entry : Path × MetaSet) : Prop :=
  MetaSet.is_directory entry.2 ∨
    (¬ (w.stores self.disk).files.is_regular_file entry.1 ∧ MetaSet.is_shallow_copy self.context entry.2) ∨
    (event ≠ .LEAVE ∧ MetaSet.is_shallow_copyable self.context entry.2)

/-- The turn of `rebalance` calls `fs_client->put`. -/
def Uploads (event : RebalanceEvent) (self : Peer) (w : World) (entry : Path × MetaSet) : Prop :=
  ¬ MetadataOnly event self w entry ∧ (w.stores self.disk).files.exists_at entry.1

section

variable (sha : Sha256)

/-- `on_predecessor_fail`. -/
def on_predecessor_fail (fuel : Nat) (self : Peer) (w : World) : Option World :=
  rebalance sha fuel .PREDECESSOR_FAIL self w ((w.stores self.disk).metadata.get_replicated 1)

end

/-! ## One turn -/

section

variable {sha : Sha256} {w w' : World} {uri q : Path} {u : Uuid} {e : Entry}

/-- A turn that uploads is the `put` of what is on the disk. -/
theorem rebalance_uri_of_uploads {fuel : Nat} {event : RebalanceEvent} {self : Peer} {entry : Path × MetaSet}
    (h : Uploads event self w entry) : ∃ data, (w.stores self.disk).files.lookup entry.1 = some data ∧
      rebalance_uri sha fuel event self w entry = (w.successor (sha.uri entry.1)).bind fun node =>
        ignored (client_put (put sha fuel) self.context w node entry.1 data.bytes
          { replication := { (entry.2.head?.elim .NONE Metadata.replication) with index := 0 }, rebalance := true }) := by
  obtain ⟨hfile, hexists⟩ := h
  obtain ⟨data, hdata⟩ := Option.isSome_iff_exists.mp (AList.lookup_isSome.mpr hexists)
  refine ⟨data, hdata, ?_⟩
  unfold rebalance_uri
  dsimp only
  rw [if_neg, hdata]
  · rfl
  · simpa [MetadataOnly] using hfile

/-- A turn that does not upload changes metadata, or nothing. -/
theorem rebalance_uri_of_not_uploads {fuel : Nat} {event : RebalanceEvent} {self : Peer}
    {entry : Path × MetaSet} (h : ¬ Uploads event self w entry) :
    (∃ shallow_copy, rebalance_uri sha fuel event self w entry =
      rebalance_metadata sha fuel self w entry.1 shallow_copy) ∨
      rebalance_uri sha fuel event self w entry = some w := by
  unfold rebalance_uri
  dsimp only
  split
  · exact Or.inl ⟨_, rfl⟩
  · rename_i hfile
    right
    have hnone : (w.stores self.disk).files.lookup entry.1 = none := by
      refine AList.lookup_eq_none.mpr fun hexists => h ⟨?_, hexists⟩
      simpa [MetadataOnly] using hfile
    rw [hnone]

theorem Files.create_each_keeps {files made : Files} {ds : List Path} (h : files.create_each ds = some made)
    (hq : files.lookup q = some e) : made.lookup q = some e := by
  induction ds generalizing files with
  | nil =>
    cases h
    exact hq
  | cons d ds ih =>
    unfold create_each at h
    split at h
    · rename_i hnone
      refine ih h ?_
      rw [AList.lookup_insert_ne, hq]
      rintro rfl
      rw [hnone] at hq
      cases hq
    · exact ih h hq
    · cases h

/-- What is on the disk stays, except for the file itself. -/
theorem Received.keeps {files : Files} {store : Store} (h : Received sha uri store files) (hne : uri ≠ q)
    (hq : store.files.lookup q = some e) : files.lookup q = some e := by
  obtain ⟨made, bytes, received, hmade, hreceive⟩ := h
  have hmade' : made.lookup q = some e := by
    unfold Files.with_parent at hmade
    split at hmade
    · cases hmade
      exact hq
    · exact Files.create_each_keeps hmade hq
  have hcreated : (if made.exists_at uri then made else made.create_file uri).lookup q = some e := by
    unfold Files.create_file
    split
    · exact hmade'
    split
    · rw [AList.lookup_insert_ne hne.symm, hmade']
    · exact hmade'
  unfold receive at hreceive
  dsimp only at hreceive
  generalize (if made.exists_at uri then made else made.create_file uri) = created at hcreated hreceive
  split at hreceive
  · cases hreceive
    exact hcreated
  split at hreceive
  · cases hreceive
    exact hcreated
  · rename_i hwrite
    cases hreceive
    unfold Files.write at hwrite
    split at hwrite
    · cases hwrite
      rw [AList.lookup_insert_ne hne.symm, hcreated]
    · cases hwrite

/-- What is at a path of one disk. -/
def FileAt (u : Uuid) (q : Path) (e : Entry) (w : World) : Prop := (w.stores u).files.lookup q = some e

theorem FileAt.set (h : FileAt u q e w) {v : Uuid} {store : Store}
    (hstore : u = v → (w.stores v).files.lookup q = some e → store.files.lookup q = some e) :
    FileAt u q e (w.set v store) := by
  unfold FileAt
  rcases eq_or_ne u v with rfl | hne
  · rw [set_stores_self]
    exact hstore rfl h
  · rw [set_stores_of_ne hne]
    exact h

theorem FileAt.steps (h : uri ≠ q) : Steps sha uri (FileAt u q e) where
  entry _ _ hw := hw.set fun _ hq => hq
  remove _ _ _ hw hremove := hw.set fun _ hq => by rw [files_remove hremove, AList.lookup_erase_ne h.symm, hq]
  record _ _ _ _ hw := hw.set fun _ hq => hq
  receive _ _ _ hw hreceived := hw.set fun _ hq => hreceived.keeps h hq

/-! ## All turns -/

theorem get_replicated_nodup (store : MetaStore) (min_idx : UInt32) :
    ((store.get_replicated min_idx).map Prod.fst).Nodup := by
  have hsub : ((store.get_replicated min_idx).map Prod.fst).Sublist (store.get_all.map Prod.fst) := by
    unfold MetaStore.get_replicated
    induction store.get_all with
    | nil => exact List.Sublist.refl _
    | cons entry l ih =>
      rw [List.filterMap_cons]
      dsimp only
      split
      · exact ih.cons _
      · rename_i hentry
        split at hentry
        · cases hentry
        · cases hentry
          exact ih.cons_cons _
  exact hsub.nodup (get_all_nodup store)

/-- A record that is left in is no directory, and is one of several copies. -/
theorem of_mem_get_replicated {store : MetaStore} {min_idx : UInt32} {entry : Path × MetaSet}
    (h : entry ∈ store.get_replicated min_idx) :
    entry.2 ≠ [] ∧ ∀ m ∈ entry.2, m.file_type ≠ .directory ∧ 1 < m.replication.count := by
  obtain ⟨⟨p, s⟩, -, hentry⟩ := List.mem_filterMap.mp h
  dsimp only at hentry
  split at hentry
  · cases hentry
  · rename_i hne
    cases hentry
    refine ⟨hne, fun m hm => ?_⟩
    have hcond := (List.mem_filter.mp hm).2
    simp only [decide_eq_true_eq] at hcond
    exact ⟨hcond.1, hcond.2.1⟩

/-- Nothing but a shallow copy without its file is spared. -/
theorem metadata_only_iff {store : MetaStore} {min_idx : UInt32} {entry : Path × MetaSet}
    {event : RebalanceEvent} {self : Peer} (h : entry ∈ store.get_replicated min_idx) :
    MetadataOnly event self w entry ↔
      ¬ (w.stores self.disk).files.is_regular_file entry.1 ∧
        MetaSet.is_shallow_copy self.context entry.2 := by
  obtain ⟨hne, hall⟩ := of_mem_get_replicated h
  have hdirectory : ¬ MetaSet.is_directory entry.2 := by
    rintro ⟨m, hm, -, htype⟩
    exact (hall m hm).1 htype
  have hcopyable : ¬ MetaSet.is_shallow_copyable self.context entry.2 := by
    rintro ⟨⟨hlength, -⟩, hmax, -⟩
    obtain ⟨m, hm⟩ := List.length_eq_one_iff.mp hlength
    have hcount := (hall m (by rw [hm]; exact List.mem_cons_self)).2
    rw [hm] at hmax
    have hone : m.replication = .NONE := hmax
    rw [hone] at hcount
    exact absurd hcount (by decide)
  unfold MetadataOnly
  tauto

/-- Until its own turn, a path is a directory exactly if it was one. -/
theorem directory_until_turn {fuel : Nat} {event : RebalanceEvent} {self : Peer}
    {before : List (Path × MetaSet)} (hdisk : (w.stores self.disk).files.Closed)
    (hq : q ∉ before.map Prod.fst) (hcall : rebalance sha fuel event self w before = some w') :
    (w'.stores self.disk).files.lookup q = some .directory ↔
      (w.stores self.disk).files.lookup q = some .directory := by
  have hkeeps : ∀ e, FileAt self.disk q e w → FileAt self.disk q e w' := by
    intro e he
    refine foldlM_keeps (P := FileAt self.disk q e) ?_ he hcall
    rintro v ⟨uri, records⟩ v' hentry hv hturn
    have hne : uri ≠ q := by
      rintro rfl
      exact hq (List.mem_map.mpr ⟨_, hentry, rfl⟩)
    exact (FileAt.steps hne).rebalance_uri hv hturn
  constructor
  · intro hdirectory
    cases he : (w.stores self.disk).files.lookup q with
    | none =>
      have hmem := rebalance_no_other hdisk hcall q (AList.lookup_isSome.mp (by rw [hdirectory]; rfl))
      exact absurd hmem (AList.lookup_eq_none.mp he)
    | some e =>
      have hsame : (w'.stores self.disk).files.lookup q = some e := hkeeps e he
      rw [← hsame, hdirectory]
  · exact hkeeps .directory

/-- When the predecessor fails only files are uploaded, exactly if no directory of the disk has replicated
records in its listing, other than the record of a shallow copy. -/
theorem uploads_files_iff (sha : Sha256) {fuel : Nat} {self : Peer} {w w' : World}
    (hdisk : (w.stores self.disk).files.Closed) (hcall : on_predecessor_fail sha fuel self w = some w') :
    (∀ before entry after v, (w.stores self.disk).metadata.get_replicated 1 = before ++ entry :: after →
        rebalance sha fuel .PREDECESSOR_FAIL self w before = some v → Uploads .PREDECESSOR_FAIL self v entry →
        (v.stores self.disk).files.is_regular_file entry.1 = true) ↔
      ∀ entry ∈ (w.stores self.disk).metadata.get_replicated 1,
        (w.stores self.disk).files.lookup entry.1 = some .directory →
          MetaSet.is_shallow_copy self.context entry.2 := by
  have hturn : ∀ before entry after v, (w.stores self.disk).metadata.get_replicated 1 =
      before ++ entry :: after →
      rebalance sha fuel .PREDECESSOR_FAIL self w before = some v →
      ((v.stores self.disk).files.lookup entry.1 = some .directory ↔
        (w.stores self.disk).files.lookup entry.1 = some .directory) := by
    intro before entry after v hsplit hbefore
    refine directory_until_turn hdisk ?_ hbefore
    have hnodup := get_replicated_nodup (w.stores self.disk).metadata 1
    rw [hsplit, List.map_append, List.map_cons, List.nodup_middle, List.nodup_cons, List.mem_append,
      not_or] at hnodup
    exact hnodup.1.1
  have hnot : ∀ {files : Files} {p : Path}, files.lookup p = some .directory →
      ¬ files.is_regular_file p = true := by
    intro files p hp
    rw [Files.is_regular_file, hp]
    simp
  constructor
  · intro h entry hentry hdirectory
    obtain ⟨before, after, hsplit⟩ := List.append_of_mem hentry
    unfold on_predecessor_fail rebalance at hcall
    rw [hsplit, List.foldlM_append] at hcall
    obtain ⟨v, hv, -⟩ := Option.bind_eq_some_iff.mp hcall
    have hthere := (hturn before entry after v hsplit hv).mpr hdirectory
    by_contra hcopy
    refine hnot hthere (h before entry after v hsplit hv ⟨?_, ?_⟩)
    · rw [metadata_only_iff hentry]
      exact fun hand => hcopy hand.2
    · exact AList.lookup_isSome.mp (by rw [hthere]; rfl)
  · rintro h before entry after v hsplit hv ⟨hfile, hexists⟩
    have hentry : entry ∈ (w.stores self.disk).metadata.get_replicated 1 := by simp [hsplit]
    obtain ⟨e, he⟩ := Option.isSome_iff_exists.mp (AList.lookup_isSome.mpr hexists)
    cases e with
    | regular bytes => rw [Files.is_regular_file, he]
    | directory =>
      refine absurd ((metadata_only_iff hentry).mpr ⟨hnot he, ?_⟩) hfile
      exact h entry hentry ((hturn before entry after v hsplit hv).mp he)

end

/-- The second copy of the file `/d/f`. -/
def second_copy : Metadata :=
  { MetaSet.directory_record ['f'] with file_type := .regular, file_hash := some 7, replication := ⟨1, 2⟩ }

/-- Three nodes, and on the first of them the listing of `/d`, with a copy of `/d/f` in it. The path of `/d` is on
its disk in `with_path`. -/
def World.three_listed (with_path : Bool) : World :=
  three.set 10 { three.stores 10 with
    files := if with_path then (three.stores 10).files.insert [['d']] .directory else (three.stores 10).files
    metadata := (three.stores 10).metadata.insert [['d']]
      [MetaSet.directory_record ['.'], MetaSet.directory_record ['.', '.'],
      second_copy] }

theorem uploads_files_iff_listed : ∃ w', on_predecessor_fail ⟨fun _ => 5, fun _ => 0⟩ 6 (Peer.of ⟨10, ['a']⟩)
      (World.three_listed false) = some w' ∧
    ((∀ before entry after v, ((World.three_listed false).stores 10).metadata.get_replicated 1 =
      before ++ entry :: after →
        rebalance ⟨fun _ => 5, fun _ => 0⟩ 6 .PREDECESSOR_FAIL (Peer.of ⟨10, ['a']⟩)
          (World.three_listed false) before = some v →
        Uploads .PREDECESSOR_FAIL (Peer.of ⟨10, ['a']⟩) v entry →
          (v.stores 10).files.is_regular_file entry.1 = true) ↔
      ∀ entry ∈ ((World.three_listed false).stores 10).metadata.get_replicated 1,
        ((World.three_listed false).stores 10).files.lookup entry.1 = some .directory →
          MetaSet.is_shallow_copy ⟨10, ['a']⟩ entry.2) := by
  obtain ⟨w', hcall⟩ : ∃ w', on_predecessor_fail ⟨fun _ => 5, fun _ => 0⟩ 6 (Peer.of ⟨10, ['a']⟩)
      (World.three_listed false) =
      some w' := ⟨_, rfl⟩
  exact ⟨w', hcall, uploads_files_iff ⟨fun _ => 5, fun _ => 0⟩ (closed_of_keys (by decide)) hcall⟩

/-- The directory `/d` is put as a file. -/
theorem directory_is_uploaded :
    ¬ ∀ (sha : Sha256) (fuel : Nat) (self : Peer) (w : World), (w.stores self.disk).files.Closed →
    ∀ before entry after v, (w.stores self.disk).metadata.get_replicated 1 = before ++ entry :: after →
      rebalance sha fuel .PREDECESSOR_FAIL self w before = some v → Uploads .PREDECESSOR_FAIL self v entry →
      (v.stores self.disk).files.is_regular_file entry.1 = true := by
  intro h
  have hfile := h ⟨fun _ => 5, fun _ => 0⟩ 6 (Peer.of ⟨10, ['a']⟩) (World.three_listed true)
      (closed_of_keys (by decide)) []
    ([['d']], [second_copy]) [] (World.three_listed true) (by decide) rfl
      (by unfold Uploads MetadataOnly; decide)
  exact absurd hfile (by decide)

end Fs

end Chord
